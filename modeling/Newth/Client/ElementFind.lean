import Newth.Client.Xml
import Newth.Client.Search

namespace Newth.Client.ElementFind

open Newth.Library.ByteString
open Newth.Client.Xml

section Documents

def isNameChar (c : UInt8) : Bool := !(0 :: 9 :: 10 :: 13 :: text " <>/").contains c

def IsName (name : Bytes) : Prop := name ≠ [] ∧ ∀ c ∈ name, isNameChar c = true

/-- Text without brackets. -/
def Untagged (s : Bytes) : Prop := (0 : UInt8) ∉ s ∧ ascii '<' ∉ s ∧ ascii '>' ∉ s

instance (name : Bytes) : Decidable (IsName name) := inferInstanceAs (Decidable (_ ∧ _))

instance (s : Bytes) : Decidable (Untagged s) := inferInstanceAs (Decidable (_ ∧ _ ∧ _))

/-- A start tag; what separates the attributes from the name belongs to them. -/
structure StartTag where
  name : Bytes
  attributes : Bytes
  named : IsName name
  untagged : Untagged attributes
  apart : ∀ c ∈ attributes.head?, isNameChar c = false

inductive Piece where
  | text (s : Bytes) (untagged : Untagged s)
  | startTag (tag : StartTag)
  | endTag (name : Bytes) (named : IsName name)

def Piece.bytes : Piece → Bytes
  | .text s _ => s
  | .startTag tag => ascii '<' :: (tag.name ++ tag.attributes ++ [ascii '>'])
  | .endTag name _ => ascii '<' :: (ascii '/' :: name ++ [ascii '>'])

def Piece.isTag : Piece → Bool
  | .text _ _ => false
  | .startTag _ => true
  | .endTag _ _ => true

/-- A start tag of the element. -/
def Piece.opens (element : Bytes) : Piece → Bool
  | .startTag tag => tag.name.map toupper = element.map toupper
  | _ => false

/-- A start tag whose name begins with the element's. -/
def Piece.beginsWith (element : Bytes) : Piece → Bool
  | .startTag tag => element.map toupper <+: tag.name.map toupper
  | _ => false

def document (pieces : List Piece) : Bytes := (pieces.map Piece.bytes).flatten

/-- The document from the first start tag of the element on. -/
def firstElement (element : Bytes) : List Piece → Option Bytes
  | [] => none
  | piece :: pieces =>
      if piece.opens element then some (document (piece :: pieces))
      else firstElement element pieces

/-- What the scan takes for the element: a longer name does, the last tag does not. -/
def takenElement (element : Bytes) : List Piece → Option Bytes
  | [] => none
  | piece :: pieces =>
      if piece.beginsWith element ∧ pieces.any Piece.isTag then some (document (piece :: pieces))
      else takenElement element pieces

theorem document_cons (piece : Piece) (pieces : List Piece) :
    document (piece :: pieces) = piece.bytes ++ document pieces := by
  rw [document, List.map_cons, List.flatten_cons, document]

theorem notMem_of_isName {name : Bytes} (h : IsName name) {c : UInt8} (hc : isNameChar c = false) :
    c ∉ name := by
  intro hmem
  rw [h.2 c hmem] at hc
  contradiction

theorem mem_document_iff (pieces : List Piece) :
    ascii '<' ∈ document pieces ↔ pieces.any Piece.isTag = true := by
  induction pieces with
  | nil => simp [document]
  | cons piece pieces ih =>
      rw [document_cons, List.mem_append, ih, List.any_cons, Bool.or_eq_true]
      have hpiece : ascii '<' ∈ piece.bytes ↔ piece.isTag = true := by
        cases piece with
        | text s untagged => simpa [Piece.bytes, Piece.isTag] using untagged.2.1
        | startTag tag => simp [Piece.bytes, Piece.isTag]
        | endTag name named => simp [Piece.bytes, Piece.isTag]
      rw [hpiece]

end Documents

section Scan

variable {element inside : Bytes}

theorem xmlFindElement_skip {s : Bytes} (hs : ascii '<' ∉ s) (rest : Bytes) :
    xmlFindElement element (s ++ rest) = xmlFindElement element rest := by
  induction s with
  | nil => rfl
  | cons c s ih =>
      rw [List.mem_cons, not_or] at hs
      rw [List.cons_append, xmlFindElement, if_neg fun h => hs.1 h.1.symm, ih hs.2]

theorem closesBeforeNext_tag (hclose : ascii '>' ∉ inside) (hopen : ascii '<' ∉ inside)
    (rest : Bytes) :
    closesBeforeNext (inside ++ ascii '>' :: rest) = true ↔ ascii '<' ∈ rest := by
  have hopen' : ascii '<' ∉ inside ++ [ascii '>'] := by
    simp only [List.mem_append, List.mem_singleton, not_or]
    exact ⟨hopen, by decide⟩
  have hsplit : inside ++ ascii '>' :: rest = inside ++ [ascii '>'] ++ rest := by simp
  rw [closesBeforeNext, strchr_append hclose]
  cases hnext : strchr (inside ++ ascii '>' :: rest) (ascii '<') with
  | none =>
      have hnone := notMem_of_strchr hnext
      simp only [Bool.false_eq_true, false_iff]
      exact fun hmem => hnone (List.mem_append_right _ (List.mem_cons_of_mem _ hmem))
  | some next =>
      have hle := length_le_of_strchr hopen' (hsplit ▸ hnext)
      rw [List.length_append, List.length_singleton] at hle
      have hmem : ascii '<' ∈ inside ++ [ascii '>'] ++ rest := by
        rw [← hsplit, eq_append_of_strchr hnext]
        simp
      simp only [decide_eq_true_eq]
      refine iff_of_true (by omega) ?_
      exact (List.mem_append.mp hmem).resolve_left hopen'

theorem xmlFindElement_tag (hclose : ascii '>' ∉ inside) (hopen : ascii '<' ∉ inside)
    (rest : Bytes) :
    xmlFindElement element (ascii '<' :: (inside ++ ascii '>' :: rest)) =
      if ascii '<' ∈ rest ∧
          namesElement (ascii '<' :: (inside ++ ascii '>' :: rest)) element = true then
        some (ascii '<' :: (inside ++ ascii '>' :: rest))
      else xmlFindElement element rest := by
  have hopen' : ascii '<' ∉ inside ++ [ascii '>'] := by
    simp only [List.mem_append, List.mem_singleton, not_or]
    exact ⟨hopen, by decide⟩
  have hrest : xmlFindElement element (inside ++ ascii '>' :: rest) =
      xmlFindElement element rest := by
    rw [← xmlFindElement_skip hopen' rest, List.append_assoc]
    rfl
  rw [xmlFindElement, hrest]
  simp only [closesBeforeNext_tag hclose hopen, true_and]

end Scan

section Names

variable {element name tail : Bytes}

theorem prefix_name_iff (helement : IsName element)
    (htail : ∀ c ∈ tail.head?, isNameChar c = false) :
    element.map toupper <+: (name ++ tail).map toupper ↔
      element.map toupper <+: name.map toupper := by
  cases tail with
  | nil => rw [List.append_nil]
  | cons c tail =>
      have hc : isNameChar c = false := htail c rfl
      have hsmall : c < ascii 'A' := by
        have hmem : c ∈ 0 :: 9 :: 10 :: 13 :: text " <>/" := by
          rwa [isNameChar, Bool.not_eq_false', List.contains_iff_mem] at hc
        have hall : ∀ d ∈ 0 :: 9 :: 10 :: 13 :: text " <>/", d < ascii 'A' :=
          forall_mem_of_all (by decide)
        exact hall c hmem
      have hupper : toupper c = c := (toupper_eq_iff hsmall).mpr rfl
      rw [List.map_append, List.map_cons, hupper, prefix_append_cons_iff]
      intro hmem
      obtain ⟨d, hd, hsame⟩ := List.mem_map.mp hmem
      exact notMem_of_isName helement hc ((toupper_eq_iff hsmall).mp hsame ▸ hd)

theorem namesElement_iff {c : UInt8} {s : Bytes} (hblank : c ≠ ascii ' ') (hopen : c ≠ ascii '<') :
    namesElement (ascii '<' :: c :: s) element = true ↔
      element.map toupper <+: (c :: s).map toupper := by
  have hskip : (ascii '<' :: c :: s).dropWhile (fun c => c == ascii ' ' || c == ascii '<') =
      c :: s := by
    rw [List.dropWhile_cons_of_pos (by decide), List.dropWhile_cons_of_neg]
    simp [hblank, hopen]
  rw [namesElement, hskip, List.prefix_iff_eq_take, List.length_map, ← List.map_take,
    Bool.and_eq_true_iff, beq_iff_eq, and_iff_right (by simp)]
  exact eq_comm

theorem namesElement_startTag (helement : IsName element) (tag : StartTag) (rest : Bytes) :
    namesElement (ascii '<' :: (tag.name ++ tag.attributes ++ ascii '>' :: rest)) element = true ↔
      element.map toupper <+: tag.name.map toupper := by
  obtain ⟨c, name, hname⟩ := List.exists_cons_of_ne_nil tag.named.1
  have hblank := notMem_of_isName tag.named (c := ascii ' ') (by decide)
  have hopen := notMem_of_isName tag.named (c := ascii '<') (by decide)
  have htail : ∀ d ∈ (tag.attributes ++ ascii '>' :: rest).head?, isNameChar d = false := by
    intro d hd
    cases hattributes : tag.attributes with
    | nil =>
        rw [hattributes] at hd
        obtain rfl : ascii '>' = d := by simpa using hd
        decide
    | cons x attributes =>
        apply tag.apart d
        rw [hattributes] at hd ⊢
        exact hd
  rw [List.append_assoc, ← prefix_name_iff helement htail]
  rw [hname] at hblank hopen ⊢
  simp only [List.mem_cons, not_or] at hblank hopen
  exact namesElement_iff (Ne.symm hblank.1) (Ne.symm hopen.1)

theorem namesElement_endTag (helement : IsName element) (s : Bytes) :
    namesElement (ascii '<' :: ascii '/' :: s) element = false := by
  rw [← Bool.not_eq_true, namesElement_iff (by decide) (by decide)]
  obtain ⟨c, rest, rfl⟩ := List.exists_cons_of_ne_nil helement.1
  intro hpre
  have hslash : toupper c = ascii '/' := (List.cons_prefix_cons.mp hpre).1
  rw [toupper_eq_iff (by decide)] at hslash
  subst hslash
  exact absurd (helement.2 _ List.mem_cons_self) (by decide)

theorem xmlFindElement_document (helement : IsName element) (pieces : List Piece) :
    xmlFindElement element (document pieces) = takenElement element pieces := by
  induction pieces with
  | nil => rfl
  | cons piece pieces ih =>
      rw [document_cons, takenElement]
      cases piece with
      | text s untagged =>
          rw [Piece.bytes, xmlFindElement_skip untagged.2.1, ih]
          simp [Piece.beginsWith]
      | startTag tag =>
          have hclose : ascii '>' ∉ tag.name ++ tag.attributes := by
            simp only [List.mem_append, not_or]
            exact ⟨notMem_of_isName tag.named (by decide), tag.untagged.2.2⟩
          have hopen : ascii '<' ∉ tag.name ++ tag.attributes := by
            simp only [List.mem_append, not_or]
            exact ⟨notMem_of_isName tag.named (by decide), tag.untagged.2.1⟩
          have hbytes : Piece.bytes (.startTag tag) ++ document pieces =
              ascii '<' :: (tag.name ++ tag.attributes ++ ascii '>' :: document pieces) := by
            simp [Piece.bytes]
          rw [hbytes, xmlFindElement_tag hclose hopen, ih, document_cons, hbytes]
          simp only [namesElement_startTag helement, mem_document_iff, Piece.beginsWith,
            decide_eq_true_eq, and_comm]
      | endTag name named =>
          have hclose : ascii '>' ∉ ascii '/' :: name := by
            simp only [List.mem_cons, not_or]
            exact ⟨by decide, notMem_of_isName named (by decide)⟩
          have hopen : ascii '<' ∉ ascii '/' :: name := by
            simp only [List.mem_cons, not_or]
            exact ⟨by decide, notMem_of_isName named (by decide)⟩
          have hbytes : Piece.bytes (.endTag name named) ++ document pieces =
              ascii '<' :: (ascii '/' :: name ++ ascii '>' :: document pieces) := by
            simp [Piece.bytes]
          rw [hbytes, xmlFindElement_tag hclose hopen, ih, List.cons_append,
            namesElement_endTag helement]
          simp [Piece.beginsWith]

end Names

section Exact

variable {element : Bytes} {pieces before after : List Piece} {piece : Piece}

theorem Piece.beginsWith_of_opens (h : piece.opens element = true) :
    piece.beginsWith element = true := by
  cases piece with
  | startTag tag =>
      have hsame : tag.name.map toupper = element.map toupper := by simpa [Piece.opens] using h
      simp [Piece.beginsWith, hsame]
  | text s untagged => simp [Piece.opens] at h
  | endTag name named => simp [Piece.opens] at h

theorem Piece.isTag_of_beginsWith (h : piece.beginsWith element = true) : piece.isTag = true := by
  cases piece with
  | startTag tag => rfl
  | text s untagged => simp [Piece.beginsWith] at h
  | endTag name named => rfl

theorem opens_eq_false (h : ∀ q ∈ pieces, q.beginsWith element = false) :
    ∀ q ∈ pieces, q.opens element = false := by
  intro q hq
  rw [← Bool.not_eq_true]
  intro hopens
  have hbegins := Piece.beginsWith_of_opens hopens
  rw [h q hq] at hbegins
  contradiction

theorem firstElement_eq_none (h : ∀ q ∈ pieces, q.opens element = false) :
    firstElement element pieces = none := by
  induction pieces with
  | nil => rfl
  | cons piece pieces ih =>
      simp only [List.mem_cons, forall_eq_or_imp] at h
      rw [firstElement, if_neg (by simp [h.1]), ih h.2]

theorem takenElement_eq_none (h : ∀ q ∈ pieces, q.beginsWith element = false) :
    takenElement element pieces = none := by
  induction pieces with
  | nil => rfl
  | cons piece pieces ih =>
      simp only [List.mem_cons, forall_eq_or_imp] at h
      rw [takenElement, if_neg (by simp [h.1]), ih h.2]

theorem length_firstElement {found : Bytes} (h : firstElement element pieces = some found) :
    found.length ≤ (document pieces).length := by
  induction pieces with
  | nil => simp [firstElement] at h
  | cons piece pieces ih =>
      rw [firstElement] at h
      split at h
      · rw [Option.some.inj h]
      · rw [document_cons, List.length_append]
        exact (ih h).trans (Nat.le_add_left _ _)

theorem firstElement_append (h : ∀ q ∈ before, q.opens element = false) :
    firstElement element (before ++ pieces) = firstElement element pieces := by
  induction before with
  | nil => rfl
  | cons piece before ih =>
      simp only [List.mem_cons, forall_eq_or_imp] at h
      rw [List.cons_append, firstElement, if_neg (by simp [h.1]), ih h.2]

theorem takenElement_append (h : ∀ q ∈ before, q.beginsWith element = false) :
    takenElement element (before ++ pieces) = takenElement element pieces := by
  induction before with
  | nil => rfl
  | cons piece before ih =>
      simp only [List.mem_cons, forall_eq_or_imp] at h
      rw [List.cons_append, takenElement, if_neg (by simp [h.1]), ih h.2]

/-- At the first start tag whose name begins with the element's the two agree when
either it is the element's and another tag follows, or neither. -/
theorem taken_eq_first_iff (hfirst : ∀ q ∈ before, q.beginsWith element = false)
    (hbegins : piece.beginsWith element = true) :
    takenElement element (before ++ piece :: after) =
        firstElement element (before ++ piece :: after) ↔
      (piece.opens element = true ↔ after.any Piece.isTag = true) := by
  rw [takenElement_append hfirst, firstElement_append (opens_eq_false hfirst), takenElement,
    firstElement]
  by_cases htag : after.any Piece.isTag = true
  · rw [if_pos ⟨hbegins, htag⟩]
    by_cases hopen : piece.opens element = true
    · rw [if_pos hopen]
      exact iff_of_true rfl (iff_of_true hopen htag)
    · rw [if_neg hopen]
      refine iff_of_false (fun hsame => ?_) (fun h => hopen (h.mpr htag))
      have hle := length_firstElement hsame.symm
      have hpos : 0 < piece.bytes.length := by
        cases piece with
        | startTag tag => simp [Piece.bytes]
        | text s untagged => simp [Piece.beginsWith] at hbegins
        | endTag name named => simp [Piece.bytes]
      rw [document_cons, List.length_append] at hle
      omega
  · rw [if_neg fun h => htag h.2]
    have hnone : ∀ q ∈ after, q.beginsWith element = false := by
      intro q hq
      rw [← Bool.not_eq_true]
      intro hq'
      exact htag (List.any_eq_true.mpr ⟨q, hq, Piece.isTag_of_beginsWith hq'⟩)
    rw [takenElement_eq_none hnone, firstElement_eq_none (opens_eq_false hnone)]
    by_cases hopen : piece.opens element = true
    · rw [if_pos hopen]
      exact iff_of_false (by simp) (fun h => htag (h.mp hopen))
    · rw [if_neg hopen]
      exact iff_of_true rfl (iff_of_false hopen htag)

/-- The scan finds the first start tag of the element, if there is one, exactly when
the first start tag whose name begins with the element's, if there is one, is that
element's with a tag behind it, or the last tag of all and another element's. -/
theorem xmlFindElement_exact_iff (pieces : List Piece) (element : Bytes)
    (helement : IsName element) :
    xmlFindElement element (document pieces) = firstElement element pieces ↔
      ∀ before piece after, pieces = before ++ piece :: after →
        (∀ q ∈ before, q.beginsWith element = false) → piece.beginsWith element = true →
        (piece.opens element = true ↔ after.any Piece.isTag = true) := by
  rw [xmlFindElement_document helement]
  constructor
  · rintro hsame before piece after rfl hfirst hbegins
    exact (taken_eq_first_iff hfirst hbegins).mp hsame
  · intro hall
    cases hfind : pieces.find? (Piece.beginsWith element) with
    | none =>
        have hnone : ∀ q ∈ pieces, q.beginsWith element = false := by
          simpa using List.find?_eq_none.mp hfind
        rw [takenElement_eq_none hnone, firstElement_eq_none (opens_eq_false hnone)]
    | some piece =>
        obtain ⟨hbegins, before, after, rfl, hfirst⟩ := List.find?_eq_some_iff_append.mp hfind
        have hfirst : ∀ q ∈ before, q.beginsWith element = false := by simpa using hfirst
        exact (taken_eq_first_iff hfirst hbegins).mpr (hall before piece after rfl hfirst hbegins)

theorem isName_a : IsName (text "a") := by decide +kernel

theorem untagged_x : Untagged (text "x") := by decide +kernel

/-- A page with one link. -/
def linkPage : List Piece :=
  [.startTag ⟨text "a", text " href='x'", isName_a, by decide +kernel, by decide +kernel⟩,
    .text (text "x") untagged_x, .endTag (text "a") isName_a]

theorem xmlFindElement_exact_link :
    xmlFindElement (text "A") (document linkPage) = firstElement (text "A") linkPage ↔
      ∀ before piece after, linkPage = before ++ piece :: after →
        (∀ q ∈ before, q.beginsWith (text "A") = false) → piece.beginsWith (text "A") = true →
        (piece.opens (text "A") = true ↔ after.any Piece.isTag = true) :=
  xmlFindElement_exact_iff linkPage (text "A") (by decide +kernel)

/-- A page that ends in its only tag. -/
def breakPage : List Piece :=
  [.text (text "x") (by decide +kernel),
    .startTag ⟨text "br", [], by decide +kernel, by decide +kernel, by simp⟩]

/-- The last tag of a document is not found. -/
theorem xmlFindElement_last :
    xmlFindElement (text "br") (document breakPage) = none ∧
      firstElement (text "br") breakPage = some (text "<br>") := by
  decide +kernel

end Exact

end Newth.Client.ElementFind
