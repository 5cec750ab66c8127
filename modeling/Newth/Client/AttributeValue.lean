import Newth.Client.ElementFind

namespace Newth.Client.AttributeValue

open Newth.Library.ByteString
open Newth.Library.Call
open Newth.Platform.FindString
open Newth.Client.Xml
open Newth.Client.Search
open Newth.Client.ElementFind

section Tags

inductive Quote where
  | single
  | double
  deriving DecidableEq

def Quote.byte : Quote → UInt8
  | .single => ascii '\''
  | .double => ascii '"'

def isLetter (c : UInt8) : Bool :=
  (ascii 'A' ≤ c && c ≤ ascii 'Z') || (ascii 'a' ≤ c && c ≤ ascii 'z')

def Unquoted (s : Bytes) : Prop := ∀ q : Quote, q.byte ∉ s

/-- An attribute; without quotes its value is not empty and holds no blank. -/
structure Attribute where
  name : Bytes
  quote : Option Quote
  value : Bytes
  named : name ≠ []
  letters : ∀ c ∈ name, isLetter c = true
  untagged : Untagged value
  plain : Unquoted value
  bare : quote = none → value ≠ [] ∧ ascii ' ' ∉ value

def Attribute.written (a : Attribute) : Bytes :=
  match a.quote with
  | none => a.value
  | some q => q.byte :: (a.value ++ [q.byte])

def Attribute.bytes (a : Attribute) : Bytes := a.name ++ ascii '=' :: a.written

/-- The name of a start tag. -/
structure TagName where
  name : Bytes
  named : IsName name
  whole : ascii '=' ∉ name

/-- Attributes, a blank in front of each. -/
def spaced (attributes : List Attribute) : Bytes :=
  attributes.flatMap fun a => ascii ' ' :: a.bytes

/-- A start tag with the attribute `a` between others, and the text behind it. -/
def tagged (tag : TagName) (before : List Attribute) (a : Attribute) (after : List Attribute)
    (rest : Bytes) : Bytes :=
  ascii '<' :: (tag.name ++ spaced (before ++ a :: after) ++ ascii '>' :: rest)

/-- What stands in front of an attribute in the attribute section. -/
def lead (before : List Attribute) : Bytes := (spaced before ++ [ascii ' ']).drop 1

/-- The attribute section. -/
def inside (before : List Attribute) (a : Attribute) (after : List Attribute) : Bytes :=
  lead before ++ (a.bytes ++ spaced after)

theorem spaced_eq (before : List Attribute) (a : Attribute) (after : List Attribute) :
    spaced (before ++ a :: after) = ascii ' ' :: inside before a after := by
  rw [inside, lead, spaced, List.flatMap_append, List.flatMap_cons, ← spaced, ← spaced]
  cases hbefore : spaced before with
  | nil => rfl
  | cons c s =>
      have hblank : c = ascii ' ' := by
        cases before with
        | nil => simp [spaced] at hbefore
        | cons b before => exact (List.cons.inj hbefore).1.symm
      subst hblank
      simp

theorem notMem_letters {s : Bytes} (h : ∀ c ∈ s, isLetter c = true) {c : UInt8}
    (hc : isLetter c = false) : c ∉ s := by
  intro hmem
  rw [h c hmem] at hc
  contradiction

theorem Attribute.notMem_bytes (a : Attribute) {c : UInt8} (hc : isLetter c = false)
    (heq : c ≠ ascii '=') (hquote : ∀ q : Quote, c ≠ q.byte) (hvalue : c ∉ a.value) :
    c ∉ a.bytes := by
  have hwritten : c ∉ a.written := by
    rw [Attribute.written]
    cases a.quote with
    | none => exact hvalue
    | some q =>
        simp only [List.mem_cons, List.mem_append, List.not_mem_nil, or_false, not_or]
        exact ⟨hquote q, hvalue, hquote q⟩
  simp only [Attribute.bytes, List.mem_append, List.mem_cons, not_or]
  exact ⟨notMem_letters a.letters hc, heq, hwritten⟩

theorem notMem_spaced {c : UInt8} {attributes : List Attribute} (hblank : c ≠ ascii ' ')
    (h : ∀ a ∈ attributes, c ∉ a.bytes) : c ∉ spaced attributes := by
  simp only [spaced, List.mem_flatMap, not_exists, not_and]
  intro a ha hmem
  rcases List.mem_cons.mp hmem with heq | hmem
  · exact hblank heq
  · exact h a ha hmem

variable {before after : List Attribute} {a : Attribute}

theorem bracket_notMem {c : UInt8} (hc : c = ascii '<' ∨ c = ascii '>') :
    c ∉ inside before a after := by
  have hbytes : ∀ b : Attribute, c ∉ b.bytes := by
    intro b
    rcases hc with rfl | rfl
    · exact b.notMem_bytes (by decide) (by decide) (fun q => by cases q <;> decide) b.untagged.2.1
    · exact b.notMem_bytes (by decide) (by decide) (fun q => by cases q <;> decide) b.untagged.2.2
  have hblank : c ≠ ascii ' ' := by
    rcases hc with rfl | rfl
    · decide
    · decide
  have hall := notMem_spaced hblank fun b (_ : b ∈ before ++ a :: after) => hbytes b
  rw [spaced_eq, List.mem_cons, not_or] at hall
  exact hall.2

theorem inside_front (before : List Attribute) (a : Attribute) (after : List Attribute) :
    ∃ first s, (∀ c ∈ first, isLetter c = true) ∧
      inside before a after = first ++ ascii '=' :: s := by
  cases before with
  | nil =>
      refine ⟨a.name, a.written ++ spaced after, a.letters, ?_⟩
      simp [inside, lead, spaced, Attribute.bytes]
  | cons b before =>
      refine ⟨b.name, b.written ++ (spaced before ++ [ascii ' '] ++ (a.bytes ++ spaced after)),
        b.letters, ?_⟩
      simp [inside, lead, spaced, Attribute.bytes]

end Tags

section Section

variable {name inner : Bytes}

/-- A start tag with the attribute section `inner`, and the text behind it. -/
def sectioned (name inner rest : Bytes) : Bytes :=
  ascii '<' :: (name ++ [ascii ' ']) ++ (inner ++ ascii '>' :: rest)

theorem xmlElementGetAttributes_sectioned (hname : IsName name) (hopen : ascii '<' ∉ inner)
    (hclose : ascii '>' ∉ inner) (rest : Bytes) :
    xmlElementGetAttributes (sectioned name inner rest) = some inner := by
  let front : Bytes := name ++ ascii ' ' :: inner
  have hblank : ascii ' ' ∉ name := notMem_of_isName hname (by decide)
  have hopen' : ascii '<' ∉ front := by
    simp only [front, List.mem_append, List.mem_cons, not_or]
    exact ⟨notMem_of_isName hname (by decide), by decide, hopen⟩
  have hclose' : ascii '>' ∉ ascii '<' :: front := by
    simp only [front, List.mem_append, List.mem_cons, not_or]
    exact ⟨by decide, notMem_of_isName hname (by decide), by decide, hclose⟩
  have hsectioned : sectioned name inner rest = ascii '<' :: (front ++ ascii '>' :: rest) := by
    simp [sectioned, front]
  have hend : strchr (ascii '<' :: (front ++ ascii '>' :: rest)) (ascii '>') =
      some (front.length + 1) := strchr_append hclose' rest
  have hnext : (strchr (front ++ ascii '>' :: rest) (ascii '<')).any
      (· + 1 < front.length + 1) = false := by
    cases hfound : strchr (front ++ ascii '>' :: rest) (ascii '<') with
    | none => rfl
    | some next =>
        have hle := length_le_of_strchr hopen' hfound
        simp only [Option.any_some, decide_eq_false_iff_not]
        omega
  have hspaces : (front ++ ascii '>' :: rest).takeWhile (· == ascii ' ') = [] := by
    obtain ⟨c, s, hs⟩ := List.exists_cons_of_ne_nil hname.1
    rw [hs, List.mem_cons, not_or] at hblank
    simp only [front, hs, List.cons_append]
    exact List.takeWhile_cons_of_neg (by simpa using Ne.symm hblank.1)
  have hspace : strchr (front ++ ascii '>' :: rest) (ascii ' ') = some name.length := by
    simp only [front, List.append_assoc, List.cons_append]
    exact strchr_append hblank _
  have hlength : front.length = name.length + 1 + inner.length := by
    simp only [front, List.length_append, List.length_cons]
    omega
  have hinside : ((ascii '<' :: (front ++ ascii '>' :: rest)).take (front.length + 1)).drop
      (name.length + 1 + 1) = inner := by
    have hsplit : front = (name ++ [ascii ' ']) ++ inner := by simp [front]
    rw [List.take_succ_cons, List.take_left, List.drop_succ_cons, hsplit]
    apply List.drop_left'
    rw [List.length_append, List.length_singleton]
  rw [hsectioned, xmlElementGetAttributes]
  have hstart : strchr (ascii '<' :: (front ++ ascii '>' :: rest)) (ascii '<') = some 0 := rfl
  simp only [hstart, Option.bind_eq_bind, Option.bind_some, List.drop_zero, hend,
    List.drop_succ_cons, hnext, Bool.false_eq_true, if_false, hspaces, List.length_nil,
    Nat.add_zero, hspace, Option.map_some]
  rw [if_neg (by omega), hinside]

theorem strstr_sectioned (hname : ascii '=' ∉ name) {first s : Bytes}
    (hletters : ∀ c ∈ first, isLetter c = true) (rest : Bytes) :
    strstr (sectioned name (first ++ ascii '=' :: s) rest) (first ++ ascii '=' :: s) =
      some (name.length + 2) := by
  let pre : Bytes := ascii '<' :: (name ++ [ascii ' '])
  have hpre : ascii '=' ∉ pre := by
    simp only [pre, List.mem_cons, List.mem_append, List.not_mem_nil, or_false, not_or]
    exact ⟨by decide, hname, by decide⟩
  have hlength : pre.length = name.length + 2 := by
    simp only [pre, List.length_cons, List.length_append, List.length_nil]
  rw [sectioned, ← hlength, ← List.append_assoc]
  apply strstr_append
  intro j hj hstands
  have hj : j < pre.length := hj
  have hblank : ascii ' ' ∈ pre.drop j := by
    have hlast : pre.drop j = (ascii '<' :: name).drop j ++ [ascii ' '] := by
      rw [← List.drop_append_of_le_length]
      · rfl
      · rw [List.length_cons]
        omega
    rw [hlast]
    exact List.mem_append_right _ List.mem_cons_self
  have hbare : ascii ' ' ∉ first := notMem_letters hletters (by decide)
  obtain ⟨tail, htail⟩ := hstands
  have hdrop : (pre ++ (first ++ ascii '=' :: s) ++ ascii '>' :: rest).drop j =
      pre.drop j ++ ((first ++ ascii '=' :: s) ++ ascii '>' :: rest) := by
    rw [List.append_assoc, List.drop_append_of_le_length hj.le]
  have hsame := htail.trans hdrop
  rw [List.append_assoc] at hsame
  rcases List.append_eq_append_iff.mp hsame with ⟨c, hc, hrest⟩ | ⟨c, hc, -⟩
  · cases c with
    | nil =>
        rw [List.append_nil] at hc
        exact hbare (hc ▸ hblank)
    | cons x c =>
        obtain rfl : ascii '=' = x := (List.cons.inj hrest).1
        apply hpre
        apply List.mem_of_mem_drop (i := j)
        rw [hc]
        exact List.mem_append_right _ List.mem_cons_self
  · apply hbare
    rw [hc]
    exact List.mem_append_left _ hblank

theorem xmlFindAttribute_sectioned (hname : IsName name) (hwhole : ascii '=' ∉ name)
    (hopen : ascii '<' ∉ inner) (hclose : ascii '>' ∉ inner) {first s : Bytes}
    (hinner : inner = first ++ ascii '=' :: s) (hletters : ∀ c ∈ first, isLetter c = true)
    (rest word : Bytes) :
    xmlFindAttribute (sectioned name inner rest) word =
      (platformStringFindWord inner word).map fun r => (inner ++ ascii '>' :: rest).drop r := by
  have hfind := strstr_sectioned (s := s) hwhole hletters rest
  rw [← hinner] at hfind
  have hlength : (ascii '<' :: (name ++ [ascii ' '])).length = name.length + 2 := by simp
  simp only [xmlFindAttribute, xmlElementGetAttributes_sectioned hname hopen hclose,
    Option.bind_eq_bind, Option.bind_some, hfind]
  cases platformStringFindWord inner word with
  | none => rfl
  | some r =>
      simp only [Option.bind_some, Option.map_some]
      rw [sectioned, ← hlength, List.drop_length_add_append]

theorem tagged_eq (tag : TagName) (before : List Attribute) (a : Attribute)
    (after : List Attribute) (rest : Bytes) :
    tagged tag before a after rest = sectioned tag.name (inside before a after) rest := by
  rw [tagged, spaced_eq, sectioned]
  simp

theorem xmlElementGetAttributes_tagged (tag : TagName) (before : List Attribute) (a : Attribute)
    (after : List Attribute) (rest : Bytes) :
    xmlElementGetAttributes (tagged tag before a after rest) = some (inside before a after) := by
  rw [tagged_eq]
  exact xmlElementGetAttributes_sectioned tag.named (bracket_notMem (.inl rfl))
    (bracket_notMem (.inr rfl)) rest

theorem xmlFindAttribute_tagged (tag : TagName) (before : List Attribute) (a : Attribute)
    (after : List Attribute) (rest word : Bytes) :
    xmlFindAttribute (tagged tag before a after rest) word =
      (platformStringFindWord (inside before a after) word).map fun r =>
        (inside before a after ++ ascii '>' :: rest).drop r := by
  obtain ⟨first, s, hletters, hinside⟩ := inside_front before a after
  rw [tagged_eq]
  exact xmlFindAttribute_sectioned tag.named tag.whole (bracket_notMem (.inl rfl))
    (bracket_notMem (.inr rfl)) hinside hletters rest word

end Section

section Reading

theorem read_quoted {x y : Bytes} (hx : ascii '=' ∉ x) (hy : Unquoted y) (q : Quote) (w : Bytes) :
    xmlExtractAttributeValue (x ++ ascii '=' :: (y ++ q.byte :: w)) =
        some (w.takeWhile (· != q.byte)) ∧
      quoteKind (x ++ ascii '=' :: (y ++ q.byte :: w)) = some q.byte := by
  have heq : strchr (x ++ ascii '=' :: (y ++ q.byte :: w)) (ascii '=') = some x.length :=
    strchr_append hx _
  have hdrop : (x ++ ascii '=' :: (y ++ q.byte :: w)).drop x.length =
      (ascii '=' :: y) ++ q.byte :: w := List.drop_left' rfl
  have hfront : ∀ q : Quote, q.byte ∉ ascii '=' :: y := by
    intro q
    rw [List.mem_cons, not_or]
    exact ⟨by cases q <;> decide, hy q⟩
  have hlength : (ascii '=' :: y).length = y.length + 1 := List.length_cons
  have hfirst : strchr ((ascii '=' :: y) ++ q.byte :: w) q.byte = some (y.length + 1) :=
    strchr_append (hfront q) w
  have hother : ∀ q' : Quote, q' ≠ q → ∀ k,
      strchr ((ascii '=' :: y) ++ q.byte :: w) q'.byte = some k → y.length + 1 < k := by
    intro q' hne k hk
    have hnot : q'.byte ∉ (ascii '=' :: y) ++ [q.byte] := by
      rw [List.mem_append, List.mem_singleton, not_or]
      exact ⟨hfront q', by cases q <;> cases q' <;> first | decide | exact absurd rfl hne⟩
    have hsplit : (ascii '=' :: y) ++ q.byte :: w = (ascii '=' :: y) ++ [q.byte] ++ w := by simp
    have hle := length_le_of_strchr hnot (hsplit ▸ hk)
    rw [List.length_append, hlength, List.length_singleton] at hle
    omega
  have hvalue : (((ascii '=' :: y) ++ q.byte :: w).drop (y.length + 1 + 1)).takeWhile
      (· != ((ascii '=' :: y) ++ q.byte :: w).getD (y.length + 1) 0) =
      w.takeWhile (· != q.byte) := by
    have hget : ((ascii '=' :: y) ++ q.byte :: w).getD (y.length + 1) 0 = q.byte := by
      rw [List.getD_eq_getElem?_getD, ← hlength, List.getElem?_append_right le_rfl, Nat.sub_self]
      rfl
    rw [hget, ← hlength, List.drop_length_add_append]
    rfl
  simp only [xmlExtractAttributeValue, quoteKind, heq, Option.bind_eq_bind, Option.bind_some, hdrop]
  cases q with
  | single =>
      simp only [Quote.byte] at hfirst hother hvalue ⊢
      simp only [hfirst]
      cases hdouble : strchr ((ascii '=' :: y) ++ ascii '\'' :: w) (ascii '"') with
      | none => exact ⟨congrArg some hvalue, rfl⟩
      | some k =>
          have hlater := hother .double (by decide) k hdouble
          simp only [Nat.min_eq_left hlater.le, if_pos hlater]
          exact ⟨congrArg some hvalue, trivial⟩
  | double =>
      simp only [Quote.byte] at hfirst hother hvalue ⊢
      simp only [hfirst]
      cases hsingle : strchr ((ascii '=' :: y) ++ ascii '"' :: w) (ascii '\'') with
      | none => exact ⟨congrArg some hvalue, rfl⟩
      | some k =>
          have hlater := hother .single (by decide) k hsingle
          simp only [Nat.min_eq_right hlater.le, if_neg (Nat.not_lt.mpr hlater.le)]
          exact ⟨congrArg some hvalue, trivial⟩

theorem read_unquoted {x y : Bytes} (hx : ascii '=' ∉ x) (hy : Unquoted y) :
    xmlExtractAttributeValue (x ++ ascii '=' :: y) = some y ∧
      quoteKind (x ++ ascii '=' :: y) = none := by
  have heq : strchr (x ++ ascii '=' :: y) (ascii '=') = some x.length := strchr_append hx _
  have hdrop : (x ++ ascii '=' :: y).drop x.length = ascii '=' :: y := List.drop_left' rfl
  have hnone : ∀ q : Quote, strchr (ascii '=' :: y) q.byte = none := by
    intro q
    apply strchr_eq_none
    rw [List.mem_cons, not_or]
    exact ⟨by cases q <;> decide, hy q⟩
  have hsingle := hnone .single
  have hdouble := hnone .double
  simp only [Quote.byte] at hsingle hdouble
  simp only [xmlExtractAttributeValue, quoteKind, heq, Option.bind_eq_bind, Option.bind_some, hdrop,
    hsingle, hdouble]
  exact ⟨rfl, trivial⟩

theorem unquoted_or_split (s : Bytes) :
    Unquoted s ∨ ∃ y q w, s = y ++ Quote.byte q :: w ∧ Unquoted y := by
  induction s with
  | nil => exact .inl fun q => List.not_mem_nil
  | cons c s ih =>
      by_cases hquote : ∃ q : Quote, c = q.byte
      · obtain ⟨q, rfl⟩ := hquote
        exact .inr ⟨[], q, s, rfl, fun q => List.not_mem_nil⟩
      · have hc : ∀ q : Quote, q.byte ≠ c := fun q heq => hquote ⟨q, heq.symm⟩
        rcases ih with hnone | ⟨y, q, w, rfl, hy⟩
        · refine .inl fun q => ?_
          rw [List.mem_cons, not_or]
          exact ⟨hc q, hnone q⟩
        · refine .inr ⟨c :: y, q, w, rfl, fun q' => ?_⟩
          rw [List.mem_cons, not_or]
          exact ⟨hc q', hy q'⟩

theorem read_closed {x y value z : Bytes} (hx : ascii '=' ∉ x) (hy : Unquoted y) (q : Quote)
    (hvalue : q.byte ∉ value) :
    xmlExtractAttributeValue (x ++ ascii '=' :: (y ++ q.byte :: (value ++ q.byte :: z))) =
        some value ∧
      quoteKind (x ++ ascii '=' :: (y ++ q.byte :: (value ++ q.byte :: z))) = some q.byte := by
  have htake : (value ++ q.byte :: z).takeWhile (· != q.byte) = value := by
    rw [takeWhile_ne_append hvalue]
    simp
  have hread := read_quoted hx hy q (value ++ q.byte :: z)
  rwa [htake] at hread

end Reading

section Routes

variable {before after : List Attribute} {a : Attribute} {q : Quote} {r : Nat}

/-- The first occurrence of the attribute's name in the section is its own. -/
def FirstOfName (before : List Attribute) (a : Attribute) (after : List Attribute) : Prop :=
  platformStringFindNeedleRaw (inside before a after) a.name = some (lead before).length

/-- The name stands as a word where it occurs first, and the next quotes behind the next `=`
enclose the attribute's value. -/
def Encloses (before : List Attribute) (a : Attribute) (after : List Attribute) (q : Quote) :
    Prop :=
  ∃ r x y z, platformStringFindWord (inside before a after) a.name = some r ∧
    (inside before a after).drop r =
      a.name ++ x ++ ascii '=' :: (y ++ q.byte :: (a.value ++ q.byte :: z)) ∧
    ascii '=' ∉ x ∧ Unquoted y

/-- Both routes come to the attribute as it is written. -/
def ReadsBoth (tag : TagName) (before : List Attribute) (a : Attribute) (after : List Attribute)
    (rest : Bytes) : Prop :=
  (xmlFindAttribute (tagged tag before a after rest) a.name).bind xmlExtractAttributeValue =
      some a.value ∧
    xmlExtractAttribute (tagged tag before a after rest) a.name = .ok (some a.bytes)

theorem needleRaw_of_word {s word : Bytes} (h : platformStringFindWord s word = some r) :
    platformStringFindNeedleRaw s word = some r := by
  rw [platformStringFindWord] at h
  obtain ⟨i, hi, h⟩ := Option.bind_eq_some_iff.mp h
  obtain ⟨-, hfound⟩ := Option.ite_none_right_eq_some.mp h
  rw [hi, Option.some.inj hfound]

theorem drop_lead (before : List Attribute) (a : Attribute) (after : List Attribute) :
    (inside before a after).drop (lead before).length =
      a.name ++ ascii '=' :: (a.written ++ spaced after) := by
  rw [inside, List.drop_left, Attribute.bytes, List.append_assoc]
  rfl

theorem le_lead (h : platformStringFindNeedleRaw (inside before a after) a.name = some r) :
    r ≤ (lead before).length := by
  obtain ⟨-, -, hfirst⟩ := (needleRaw_eq_some_iff a.named).mp h
  by_contra hlater
  apply hfirst _ (Nat.not_le.mp hlater)
  rw [drop_lead, List.map_append]
  exact List.prefix_append _ _

theorem FirstOfName.word (h : FirstOfName before a after) :
    platformStringFindWord (inside before a after) a.name = some (lead before).length := by
  have hafter : (inside before a after).getD ((lead before).length + a.name.length) 0 =
      ascii '=' := by
    have hget := congrArg (fun s : Bytes => s.getD a.name.length 0) (drop_lead before a after)
    simp only [List.getD_eq_getElem?_getD, List.getElem?_drop] at hget ⊢
    rw [hget, List.getElem?_append_right le_rfl, Nat.sub_self]
    rfl
  have hbefore : (lead before).length ≠ 0 →
      (inside before a after).getD ((lead before).length - 1) 0 = ascii ' ' := by
    intro hsome
    obtain ⟨s, hs⟩ : ∃ s, lead before = s ++ [ascii ' '] := by
      cases hspaced : spaced before with
      | nil => simp [lead, hspaced] at hsome
      | cons c s => exact ⟨s, by rw [lead, hspaced]; rfl⟩
    rw [inside, hs, List.length_append, List.length_singleton, Nat.add_sub_cancel,
      List.getD_eq_getElem?_getD, List.append_assoc, List.getElem?_append_right le_rfl,
      Nat.sub_self]
    rfl
  rw [FirstOfName] at h
  simp only [platformStringFindWord, h, Option.bind_eq_bind, Option.bind_some, hafter]
  rw [if_pos]
  refine ⟨?_, by decide⟩
  by_cases hzero : (lead before).length = 0
  · rw [if_pos hzero]
    decide
  · rw [if_neg hzero, hbefore hzero]
    decide

theorem FirstOfName.encloses (h : FirstOfName before a after) (hquote : a.quote = some q) :
    Encloses before a after q := by
  refine ⟨(lead before).length, [], [], spaced after, h.word, ?_, List.not_mem_nil,
    fun q => List.not_mem_nil⟩
  rw [drop_lead, Attribute.written, hquote]
  simp

theorem Attribute.bytes_quoted (hquote : a.quote = some q) :
    a.bytes = a.name ++ ascii '=' :: q.byte :: (a.value ++ [q.byte]) := by
  rw [Attribute.bytes, Attribute.written, hquote]

theorem xmlExtractAttribute_tagged (tag : TagName) (before : List Attribute) (a : Attribute)
    (after : List Attribute) (rest : Bytes) :
    xmlExtractAttribute (tagged tag before a after rest) a.name =
      match platformStringFindWord (inside before a after) a.name with
      | none => .ok none
      | some r =>
          let t := (inside before a after).drop r
          match xmlExtractAttributeValue t with
          | none => .ok (some (t.take a.name.length))
          | some v =>
              match quoteKind t with
              | none => .error .outOfBounds
              | some qc => .ok (some (t.take a.name.length ++ ascii '=' :: qc :: (v ++ [qc]))) := by
  unfold xmlExtractAttribute
  generalize hsection : xmlElementGetAttributes (tagged tag before a after rest) = found
  rw [xmlElementGetAttributes_tagged] at hsection
  subst hsection
  rfl

theorem Encloses.readsBoth (h : Encloses before a after q) (hquote : a.quote = some q)
    (tag : TagName) (rest : Bytes) : ReadsBoth tag before a after rest := by
  obtain ⟨r, x, y, z, hword, hdrop, hx, hy⟩ := h
  have hbare : ascii '=' ∉ a.name := notMem_letters a.letters (by decide)
  have hfront : ascii '=' ∉ a.name ++ x := by
    rw [List.mem_append, not_or]
    exact ⟨hbare, hx⟩
  have hbound := needleRaw_bound a.named (needleRaw_of_word hword)
  constructor
  · have htext : (inside before a after ++ ascii '>' :: rest).drop r =
        a.name ++ x ++ ascii '=' ::
          (y ++ q.byte :: (a.value ++ q.byte :: (z ++ ascii '>' :: rest))) := by
      rw [List.drop_append_of_le_length (by omega), hdrop]
      simp
    rw [xmlFindAttribute_tagged, hword, Option.map_some, Option.bind_some, htext]
    exact (read_closed hfront hy q (a.plain q)).1
  · obtain ⟨hvalue, hkind⟩ := read_closed (z := z) hfront hy q (a.plain q)
    rw [xmlExtractAttribute_tagged, hword]
    simp only [hdrop, hvalue, hkind]
    rw [List.append_assoc, List.take_left, Attribute.bytes_quoted hquote]

theorem split_at_first {c : UInt8} {s : Bytes} (h : c ∈ s) :
    ∃ x d, s = x ++ c :: d ∧ c ∉ x := by
  cases hfound : strchr s c with
  | none => exact absurd h (notMem_of_strchr hfound)
  | some i => exact ⟨_, _, eq_append_of_strchr hfound, notMem_take_of_strchr hfound⟩

theorem suffix_of_first {c : UInt8} {x s p d : Bytes} (hx : c ∉ x)
    (h : x ++ c :: s = p ++ c :: d) : d <:+ s := by
  have hle : x.length ≤ p.length := by
    by_contra hlonger
    have hget := congrArg (·[p.length]?) h
    simp only [List.getElem?_append_right le_rfl, Nat.sub_self, List.getElem?_cons_zero] at hget
    rw [List.getElem?_append_left (Nat.not_le.mp hlonger)] at hget
    exact hx (List.mem_of_getElem? hget)
  have hlength := congrArg List.length h
  simp only [List.length_append, List.length_cons] at hlength
  have hd : d <:+ p ++ c :: d := ⟨p ++ [c], by simp⟩
  have hs : s <:+ p ++ c :: d := ⟨x ++ [c], by rw [← h]; simp⟩
  exact List.suffix_of_suffix_length_le hd hs (by omega)

theorem Quote.byte_injective {q q' : Quote} (h : q.byte = q'.byte) : q = q' := by
  cases q <;> cases q' <;> first | rfl | exact absurd h (by decide)

/-- The section from the first occurrence of the name on, cut at the next `=`, behind which
the attribute's own value is still to come. -/
theorem split_section (h : platformStringFindNeedleRaw (inside before a after) a.name = some r) :
    ∃ x s, (inside before a after).drop r = x ++ ascii '=' :: s ∧ ascii '=' ∉ x ∧
      a.written ++ spaced after <:+ s := by
  have hown : (inside before a after).drop r = ((lead before).drop r ++ a.name) ++
      ascii '=' :: (a.written ++ spaced after) := by
    rw [inside, List.drop_append_of_le_length (le_lead h), Attribute.bytes]
    simp
  have hmem : ascii '=' ∈ (inside before a after).drop r := by
    rw [hown]
    simp
  obtain ⟨x, s, hsplit, hx⟩ := split_at_first hmem
  exact ⟨x, s, hsplit, hx, suffix_of_first hx (hsplit.symm.trans hown)⟩

theorem printed_iff {name v : Bytes} {q : Quote} (hname : name.length = a.name.length) :
    name ++ ascii '=' :: q.byte :: (v ++ [q.byte]) = a.bytes ↔
      name = a.name ∧ a.quote = some q ∧ v = a.value := by
  constructor
  · intro h
    obtain ⟨hsame, hrest⟩ := List.append_inj h hname
    have hwritten : q.byte :: (v ++ [q.byte]) = a.written := (List.cons.inj hrest).2
    cases hquote : a.quote with
    | none =>
        rw [Attribute.written, hquote] at hwritten
        have hvalue : q.byte :: (v ++ [q.byte]) = a.value := hwritten
        apply absurd _ (a.plain q)
        rw [← hvalue]
        exact List.mem_cons_self
    | some q' =>
        rw [Attribute.written, hquote] at hwritten
        obtain ⟨hbyte, hclosed⟩ := List.cons.inj hwritten
        obtain rfl := Quote.byte_injective hbyte
        exact ⟨hsame, rfl, List.append_cancel_right hclosed⟩
  · rintro ⟨rfl, hquote, rfl⟩
    exact (Attribute.bytes_quoted hquote).symm

theorem ReadsBoth.encloses {tag : TagName} {rest : Bytes} (h : ReadsBoth tag before a after rest) :
    ∃ q, a.quote = some q ∧ Encloses before a after q := by
  have hextract := h.2
  rw [xmlExtractAttribute_tagged] at hextract
  cases hword : platformStringFindWord (inside before a after) a.name with
  | none =>
      rw [hword] at hextract
      simp at hextract
  | some r =>
      rw [hword] at hextract
      simp only at hextract
      have hneedle := needleRaw_of_word hword
      have hbound := needleRaw_bound a.named hneedle
      obtain ⟨x, s, hsplit, hx, hsuffix⟩ := split_section hneedle
      have htake : (((inside before a after).drop r).take a.name.length).length =
          a.name.length := by
        rw [List.length_take, List.length_drop]
        omega
      rcases unquoted_or_split s with hnone | ⟨y, q, w, rfl, hy⟩
      · obtain ⟨hvalue, hkind⟩ := read_unquoted hx hnone
        rw [hsplit, hvalue] at hextract
        simp [hkind] at hextract
      · obtain ⟨hvalue, hkind⟩ := read_quoted hx hy q w
        rw [← hsplit] at hvalue hkind
        simp only [hvalue, hkind, Except.ok.injEq, Option.some.injEq] at hextract
        obtain ⟨hname, hquote, hread⟩ := (printed_iff htake).mp hextract
        -- the attribute's own quotes close what has been opened
        rw [Attribute.written, hquote] at hsuffix
        obtain ⟨u, hu⟩ := hsuffix
        have hcloses : a.value ++ [q.byte] ++ spaced after <:+ w :=
          suffix_of_first (hy q) hu.symm
        obtain ⟨v, z, rfl, hv⟩ := split_at_first (hcloses.mem (by simp : q.byte ∈ _))
        rw [takeWhile_ne_append hv] at hread
        have hread : v = a.value := by simpa using hread
        have hbare : ascii '=' ∉ a.name := notMem_letters a.letters (by decide)
        have hpre : a.name <+: x := by
          rw [← prefix_append_cons_iff hbare, ← hsplit, ← hname]
          exact List.take_prefix _ _
        obtain ⟨x, rfl⟩ := hpre
        refine ⟨q, hquote, r, x, y, z, hword, by rw [hsplit, hread], ?_, hy⟩
        exact fun hmem => hx (List.mem_append_right _ hmem)

/-- Both routes read an attribute as it is written exactly when it is written with quotes and
its name occurs nowhere before it, or the quotes that are taken instead enclose the same. -/
theorem attribute_read_iff (tag : TagName) (before : List Attribute) (a : Attribute)
    (after : List Attribute) (rest : Bytes) :
    ReadsBoth tag before a after rest ↔
      ∃ q, a.quote = some q ∧ (FirstOfName before a after ∨ Encloses before a after q) := by
  constructor
  · intro h
    obtain ⟨q, hquote, hencloses⟩ := h.encloses
    exact ⟨q, hquote, .inr hencloses⟩
  · rintro ⟨q, hquote, hfirst | hencloses⟩
    · exact (hfirst.encloses hquote).readsBoth hquote tag rest
    · exact hencloses.readsBoth hquote tag rest

def linkTag : TagName := ⟨text "a", isName_a, by decide⟩

/-- The attributes `hrefs='y'`, `href='x'` and `id=z`. -/
def hrefsAttribute : Attribute :=
  ⟨text "hrefs", some .single, text "y", by decide, by decide +kernel, by decide +kernel,
    fun q => by cases q <;> decide, by simp⟩

def hrefAttribute : Attribute :=
  ⟨text "href", some .single, text "x", by decide, by decide +kernel, untagged_x,
    fun q => by cases q <;> decide, by simp⟩

def idAttribute : Attribute :=
  ⟨text "id", none, text "z", by decide, by decide +kernel, by decide +kernel,
    fun q => by cases q <;> decide, fun _ => by decide⟩

/-- An attribute without quotes is read to the end of the text, and printed past the end of
its array; one behind a name that begins with its own is not found. -/
theorem attribute_misread :
    xmlFindAttribute (tagged linkTag [] idAttribute [] (text "x")) (text "id") =
        some (text "id=z>x") ∧
      xmlExtractAttributeValue (text "id=z>x") = some (text "z>x") ∧
      xmlExtractAttribute (tagged linkTag [] idAttribute [] (text "x")) (text "id") =
        .error .outOfBounds ∧
      xmlFindAttribute (tagged linkTag [hrefsAttribute] hrefAttribute [] (text "x"))
        (text "href") = none := by
  decide +kernel

end Routes

end Newth.Client.AttributeValue
