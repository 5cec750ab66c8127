import Newth.Client.AttributeValue
import Newth.Client.Listing
import Newth.Client.PageSearch

namespace Newth.Client.Links

open Newth.Library.ByteString
open Newth.Library.Call
open Newth.Platform.FindString
open Newth.Client.Recvbufr
open Newth.Client.SiteHttp
open Newth.Client.Uri
open Newth.Client.Xml
open Newth.Client.Search
open Newth.Client.Listing
open Newth.Client.PageSearch

section Tags

/-- A target without quotes, brackets, a query or a scheme. -/
def IsHref (href : Bytes) : Prop := ∀ c ∈ href, c ∉ 0 :: text "<>\"?:"

def tag (href : Bytes) : Bytes := text "<A HREF=\"" ++ href ++ text "\">"

variable {href : Bytes}

theorem IsHref.notMem (h : IsHref href) {d : UInt8} (hd : d ∈ 0 :: text "<>\"?:") : d ∉ href :=
  fun hmem => h d hmem hd

theorem length_tag (href : Bytes) : (tag href).length = href.length + 11 := by
  simp [tag, text]

/-- The inside of a tag, behind the name of the element. -/
def attributes (href : Bytes) : Bytes := text "HREF=\"" ++ href ++ text "\""

theorem IsHref.bracket_notMem (h : IsHref href) {c : UInt8} (hc : c = ascii '<' ∨ c = ascii '>') :
    c ∉ attributes href := by
  simp only [attributes, List.mem_append, not_or]
  rcases hc with rfl | rfl
  · exact ⟨⟨by decide, h.notMem (by decide)⟩, by decide⟩
  · exact ⟨⟨by decide, h.notMem (by decide)⟩, by decide⟩

theorem tag_sectioned (href w rest : Bytes) : tag href ++ w ++ ascii '<' :: rest =
    AttributeValue.sectioned (text "A") (attributes href) (w ++ ascii '<' :: rest) := by
  simp [tag, AttributeValue.sectioned, attributes, text, ascii]

theorem tag_append (href w rest : Bytes) : tag href ++ w ++ ascii '<' :: rest =
    ascii '<' :: (text "A " ++ attributes href ++ ascii '>' :: (w ++ ascii '<' :: rest)) := by
  simp [tag, attributes, text, ascii]

theorem IsHref.inside_notMem (h : IsHref href) {c : UInt8} (hc : c = ascii '<' ∨ c = ascii '>') :
    c ∉ text "A " ++ attributes href := by
  rw [List.mem_append, not_or]
  refine ⟨?_, h.bracket_notMem hc⟩
  rcases hc with rfl | rfl <;> decide

theorem xmlFindElement_tag (h : IsHref href) (w rest : Bytes) :
    xmlFindElement (text "a") (tag href ++ w ++ ascii '<' :: rest) =
      some (tag href ++ w ++ ascii '<' :: rest) := by
  rw [tag_append, ElementFind.xmlFindElement_tag (h.inside_notMem (.inr rfl))
    (h.inside_notMem (.inl rfl)), if_pos]
  exact ⟨by simp, rfl⟩

theorem strchr_tag_close (h : IsHref href) (w rest : Bytes) :
    strchr (tag href ++ w ++ ascii '<' :: rest) (ascii '>') = some (href.length + 10) := by
  have hinside : ascii '>' ∉ ascii '<' :: (text "A " ++ attributes href) := by
    rw [List.mem_cons, not_or]
    exact ⟨by decide, h.inside_notMem (.inr rfl)⟩
  have hlength : (ascii '<' :: (text "A " ++ attributes href)).length = href.length + 10 := by
    simp [attributes, text]
  rw [tag_append, ← hlength]
  exact strchr_append hinside _

theorem xmlExtractElement_tag (h : IsHref href) (w rest : Bytes) :
    xmlExtractElement (tag href ++ w ++ ascii '<' :: rest) (text "a") = some (tag href) := by
  rw [xmlExtractElement, xmlFindElement_tag h]
  show (strchr _ _).bind _ = _
  rw [strchr_tag_close h]
  show (if href.length + 10 = 0 then none else some _) = _
  rw [if_neg (by omega), ← length_tag, List.append_assoc, List.take_left]

theorem xmlFindAttribute_tag (h : IsHref href) (w rest : Bytes) :
    xmlFindAttribute (tag href ++ w ++ ascii '<' :: rest) (text "href") =
      some (attributes href ++ ascii '>' :: (w ++ ascii '<' :: rest)) := by
  have hword : platformStringFindWord (attributes href) (text "href") = some 0 := rfl
  have hinner : attributes href =
      text "HREF" ++ ascii '=' :: (ascii '"' :: (href ++ [ascii '"'])) := by
    simp [attributes, text, ascii]
  rw [tag_sectioned, AttributeValue.xmlFindAttribute_sectioned
    ⟨by decide, forall_mem_of_all (by decide)⟩ (by decide)
    (h.bracket_notMem (.inl rfl)) (h.bracket_notMem (.inr rfl)) hinner
    (forall_mem_of_all (by decide)), hword]
  rfl

theorem xmlExtractAttributeValue_tag (h : IsHref href) (rest : Bytes) :
    xmlExtractAttributeValue (attributes href ++ ascii '>' :: rest) = some href := by
  have hquoted : attributes href ++ ascii '>' :: rest = text "HREF" ++
      ascii '=' :: ([] ++ AttributeValue.Quote.double.byte ::
        (href ++ AttributeValue.Quote.double.byte :: ascii '>' :: rest)) := by
    simp [attributes, AttributeValue.Quote.byte, text, ascii]
  rw [hquoted]
  exact (AttributeValue.read_closed (by decide) (fun q => List.not_mem_nil) .double
    (h.notMem (by decide))).1

theorem linkValue_tag (h : IsHref href) (w rest : Bytes) :
    ((xmlFindElement (text "a") (tag href ++ w ++ ascii '<' :: rest)).bind fun e =>
      (xmlFindAttribute e (text "href")).bind xmlExtractAttributeValue) = some href := by
  rw [xmlFindElement_tag h, Option.bind_some, xmlFindAttribute_tag h, Option.bind_some,
    xmlExtractAttributeValue_tag h]

end Tags

section Markup

theorem pair_infix_append {α : Type*} {x y : α} {a b : List α} (h : [x, y] <:+: a ++ b) :
    [x, y] <:+: a ∨ [x, y] <:+: b ∨ (a.getLast? = some x ∧ b.head? = some y) := by
  induction a with
  | nil => exact .inr (.inl h)
  | cons c a ih =>
      rw [List.cons_append, List.infix_cons_iff] at h
      rcases h with hpre | hwithin
      · obtain ⟨hx, hnext⟩ := List.cons_prefix_cons.mp hpre
        cases a with
        | nil =>
            right
            right
            refine ⟨by rw [hx]; rfl, ?_⟩
            cases b with
            | nil => simp at hnext
            | cons d b => exact congrArg some (List.cons_prefix_cons.mp hnext).1.symm
        | cons d a =>
            left
            have hy := (List.cons_prefix_cons.mp hnext).1
            rw [hx, hy]
            exact (List.prefix_append [c, d] a).isInfix
      · rcases ih hwithin with hleft | hright | ⟨hlast, hhead⟩
        · exact .inl (hleft.trans (List.infix_cons List.infix_rfl))
        · exact .inr (.inl hright)
        · right
          right
          refine ⟨?_, hhead⟩
          cases a with
          | nil => simp at hlast
          | cons d a => rwa [List.getLast?_cons_cons]

/-- A text in which no link starts. -/
def Linkless (s : Bytes) : Prop := ¬ text "<A" <:+: s.map toupper

instance (s : Bytes) : Decidable (Linkless s) :=
  inferInstanceAs (Decidable (¬ text "<A" <:+: s.map toupper))

theorem Linkless.append {a b : Bytes} (ha : Linkless a) (hb : Linkless b)
    (hhead : b.head?.map toupper ≠ some (ascii 'A')) : Linkless (a ++ b) := by
  intro hwithin
  rw [List.map_append] at hwithin
  rcases pair_infix_append hwithin with hleft | hright | ⟨-, hnext⟩
  · exact ha hleft
  · exact hb hright
  · exact hhead (List.head?_map ▸ hnext)

theorem toupper_bracket {c : UInt8} (h : toupper c = ascii '<') : c = ascii '<' :=
  (toupper_eq_iff (by decide)).mp h

theorem toupper_slash {c : UInt8} (h : toupper c = ascii '/') : c = ascii '/' :=
  (toupper_eq_iff (by decide)).mp h

theorem needleRaw_pass {token tail pre rest : Bytes} {x y : UInt8}
    (htoken : token.map toupper = x :: y :: tail)
    (hpre : ¬ [x, y] <:+: (pre ++ rest.take 1).map toupper) :
    platformStringFindNeedleRaw (pre ++ rest) token =
      (platformStringFindNeedleRaw rest token).map (pre.length + ·) := by
  have hne : token ≠ [] := by
    rintro rfl
    simp at htoken
  induction pre with
  | nil => simp
  | cons c pre ih =>
      have hother : ¬ token.map toupper <+: (c :: (pre ++ rest)).map toupper := by
        rw [htoken]
        intro hstarts
        obtain ⟨hc, hnext⟩ := List.cons_prefix_cons.mp hstarts
        apply hpre
        cases hrest : pre ++ rest.take 1 with
        | nil =>
            obtain ⟨rfl, htake⟩ := List.append_eq_nil_iff.mp hrest
            rw [List.take_eq_nil_iff] at htake
            rw [htake.resolve_left Nat.one_ne_zero] at hnext
            simp at hnext
        | cons d more =>
            have hd : toupper d = y := by
              cases pre with
              | nil =>
                  cases rest with
                  | nil => simp at hrest
                  | cons e rest =>
                      rw [← (List.cons.inj hrest).1]
                      exact (List.cons_prefix_cons.mp hnext).1.symm
              | cons e pre =>
                  rw [← (List.cons.inj hrest).1]
                  exact (List.cons_prefix_cons.mp hnext).1.symm
            rw [List.cons_append, hrest, List.map_cons, List.map_cons, ← hc, hd]
            exact (List.prefix_append [x, y] _).isInfix
      have hrest : ¬ [x, y] <:+: (pre ++ rest.take 1).map toupper :=
        fun hwithin => hpre (List.infix_cons hwithin)
      rw [List.cons_append, needleRaw_cons hne, if_neg hother, ih hrest, Option.map_map]
      congr 1
      funext n
      show pre.length + n + 1 = (c :: pre).length + n
      rw [List.length_cons]
      omega

theorem pair_notInfix_of_notMem {s : Bytes} (hs : ascii '<' ∉ s) (y : UInt8) (rest : Bytes)
    (hrest : rest.length ≤ 1) : ¬ [ascii '<', y] <:+: (s ++ rest).map toupper := by
  intro hwithin
  rw [List.map_append] at hwithin
  have hnot : ascii '<' ∉ s.map toupper := by
    intro hmem
    obtain ⟨c, hc, hupper⟩ := List.mem_map.mp hmem
    exact hs (toupper_bracket hupper ▸ hc)
  rcases pair_infix_append hwithin with hleft | hright | ⟨hlast, -⟩
  · exact hnot (hleft.subset List.mem_cons_self)
  · have hlength := hright.length_le
    rw [List.length_map] at hlength
    have htwo : [ascii '<', y].length = 2 := rfl
    omega
  · exact hnot (List.mem_of_getLast? hlast)

theorem upper_open : (text "<a").map toupper = ascii '<' :: ascii 'A' :: [] := rfl

theorem upper_close : (text "</a>").map toupper = ascii '<' :: ascii '/' :: text "A>" := rfl

theorem needleRaw_here {token : Bytes} (htoken : token ≠ []) {s : Bytes}
    (h : token.map toupper <+: s.map toupper) : platformStringFindNeedleRaw s token = some 0 := by
  rw [needleRaw_eq_some_iff htoken]
  exact ⟨by simpa using h, Nat.zero_le _, fun j hj => absurd hj (Nat.not_lt_zero j)⟩

theorem needleRaw_link {gap : Bytes} (hgap : Linkless gap) (rest : Bytes) :
    platformStringFindNeedleRaw (gap ++ ascii '<' :: ascii 'A' :: rest) (text "<a") =
      some gap.length := by
  have hhere : platformStringFindNeedleRaw (ascii '<' :: ascii 'A' :: rest) (text "<a") = some 0 := by
    apply needleRaw_here (by decide)
    exact List.prefix_append (text "<A") (rest.map toupper)
  have hpass : ¬ [ascii '<', ascii 'A'] <:+:
      (gap ++ (ascii '<' :: ascii 'A' :: rest).take 1).map toupper :=
    hgap.append (show Linkless [ascii '<'] by decide)
      (show [ascii '<'].head?.map toupper ≠ some (ascii 'A') by decide)
  rw [needleRaw_pass upper_open hpass, hhere]
  rfl

/-- What a link shows: a name, with a slash behind it for a directory. -/
def IsLabel (label : Bytes) : Prop :=
  ∃ name, ascii '/' ∉ name ∧ (label = name ∨ label = name ++ text "/")

theorem needleRaw_label {label : Bytes} (h : IsLabel label) (rest : Bytes) :
    platformStringFindNeedleRaw (label ++ text "</A>" ++ rest) (text "</a>") =
      some label.length := by
  obtain ⟨name, hslash, hform⟩ := h
  obtain ⟨tail, htail, rfl⟩ : ∃ tail, (tail = [] ∨ tail = text "/") ∧ label = name ++ tail := by
    rcases hform with rfl | rfl
    · exact ⟨[], .inl rfl, by simp⟩
    · exact ⟨text "/", .inr rfl, rfl⟩
  clear hform
  induction name with
  | nil =>
      have hclose : platformStringFindNeedleRaw (text "</A>" ++ rest) (text "</a>") = some 0 := by
        apply needleRaw_here (by decide)
        rw [List.map_append]
        exact List.prefix_append _ _
      rcases htail with rfl | rfl
      · exact hclose
      · rw [List.append_assoc, List.nil_append,
          needleRaw_pass upper_close (pair_notInfix_of_notMem (by decide) _ _ (List.length_take_le 1 _)),
          hclose]
        rfl
  | cons c name ih =>
      have hname : ascii '/' ∉ name := fun hmem => hslash (List.mem_cons_of_mem c hmem)
      have hother : ¬ (text "</a>").map toupper <+:
          (c :: (name ++ tail ++ text "</A>" ++ rest)).map toupper := by
        intro hstarts
        have hnext := (List.cons_prefix_cons.mp hstarts).2
        cases name with
        | nil =>
            rcases htail with rfl | rfl
            · exact absurd (List.cons_prefix_cons.mp hnext).1 (by decide)
            · have hthird := (List.cons_prefix_cons.mp hnext).2
              exact absurd (List.cons_prefix_cons.mp hthird).1 (by decide)
        | cons d name =>
            have hd := toupper_slash (List.cons_prefix_cons.mp hnext).1.symm
            exact hname (by simp [hd])
      simp only [List.cons_append]
      rw [needleRaw_cons (by decide), if_neg hother, ih hname]
      rfl

theorem needleRaw_close {href label : Bytes} (hhref : IsHref href) (hlabel : IsLabel label)
    (rest : Bytes) :
    platformStringFindNeedleRaw (tag href ++ label ++ text "</A>" ++ rest) (text "</a>") =
      some (href.length + 11 + label.length) := by
  have hinside : ascii '<' ∉ text "A HREF=\"" ++ href ++ text "\">" := by
    have hnot : ascii '<' ∉ href := hhref.notMem (by decide)
    simp only [List.mem_append, not_or]
    exact ⟨⟨by decide, hnot⟩, by decide⟩
  have hsplit : tag href ++ label ++ text "</A>" ++ rest =
      ascii '<' :: ((text "A HREF=\"" ++ href ++ text "\">") ++ (label ++ text "</A>" ++ rest)) := by
    simp [tag, text, ascii]
  have hother : ¬ (text "</a>").map toupper <+: (ascii '<' ::
      ((text "A HREF=\"" ++ href ++ text "\">") ++ (label ++ text "</A>" ++ rest))).map toupper := by
    intro hstarts
    have hnext := (List.cons_prefix_cons.mp hstarts).2
    exact absurd (List.cons_prefix_cons.mp hnext).1 (by decide)
  rw [hsplit, needleRaw_cons (by decide), if_neg hother,
    needleRaw_pass upper_close
      (pair_notInfix_of_notMem hinside _ _ (List.length_take_le 1 _)),
    needleRaw_label hlabel]
  simp [text]
  omega

/-- No bracket of the text is taken for the start of a link. -/
def quiet : Bytes → Bool
  | [] => true
  | c :: rest => !(c == ascii '<' && namesElement (c :: rest) (text "a")) && quiet rest

theorem quiet_suffix {a b : Bytes} (h : quiet (a ++ b) = true) : quiet b = true := by
  induction a with
  | nil => exact h
  | cons c a ih =>
      rw [List.cons_append, quiet, Bool.and_eq_true] at h
      exact ih h.2

def isSkipped (c : UInt8) : Bool := c == ascii ' ' || c == ascii '<'

theorem namesElement_iff {p : Bytes} : namesElement p (text "a") = true ↔
    ∃ c rest, p.dropWhile isSkipped = c :: rest ∧ toupper c = ascii 'A' := by
  rw [namesElement]
  show (p.dropWhile isSkipped != [] &&
    ((p.dropWhile isSkipped).take 1).map toupper == [ascii 'A']) = true ↔ _
  cases p.dropWhile isSkipped with
  | nil => simp
  | cons c rest => simp

theorem namesElement_prefix {a b : Bytes} (h : namesElement a (text "a") = true) :
    namesElement (a ++ b) (text "a") = true := by
  obtain ⟨c, rest, hdrop, hc⟩ := namesElement_iff.mp h
  rw [namesElement_iff, List.dropWhile_append, hdrop]
  exact ⟨c, rest ++ b, rfl, hc⟩

theorem quiet_prefix {a b : Bytes} (h : quiet (a ++ b) = true) : quiet a = true := by
  induction a with
  | nil => rfl
  | cons c a ih =>
      rw [List.cons_append, quiet, Bool.and_eq_true] at h
      rw [quiet, Bool.and_eq_true]
      refine ⟨?_, ih h.2⟩
      have hwhole := h.1
      simp only [Bool.not_eq_true', Bool.and_eq_false_iff] at hwhole ⊢
      rcases hwhole with hc | hname
      · exact .inl hc
      · right
        by_contra hnamed
        rw [← List.cons_append, namesElement_prefix (by simpa using hnamed)] at hname
        exact Bool.noConfusion hname

theorem xmlFindElement_quiet {s : Bytes} (h : quiet s = true) :
    xmlFindElement (text "a") s = none := by
  induction s with
  | nil => rfl
  | cons c s ih =>
      rw [quiet, Bool.and_eq_true] at h
      rw [xmlFindElement, if_neg, ih h.2]
      rintro ⟨hc, -, hname⟩
      have hnot := h.1
      rw [hc, ← hc, hname] at hnot
      simp [hc] at hnot

theorem quiet_label {label rest : Bytes} (hlabel : quiet label = true)
    (hrest : quiet (ascii '<' :: ascii '/' :: rest) = true) :
    quiet (label ++ ascii '<' :: ascii '/' :: rest) = true := by
  induction label with
  | nil => exact hrest
  | cons c label ih =>
      rw [quiet, Bool.and_eq_true] at hlabel
      rw [List.cons_append, quiet, Bool.and_eq_true]
      refine ⟨?_, ih hlabel.2⟩
      have hwhole := hlabel.1
      simp only [Bool.not_eq_true', Bool.and_eq_false_iff] at hwhole ⊢
      rcases hwhole with hc | hname
      · exact .inl hc
      · right
        by_contra hnamed
        obtain ⟨d, tail, hdrop, hd⟩ := namesElement_iff.mp (by simpa using hnamed)
        rw [← List.cons_append, List.dropWhile_append] at hdrop
        split at hdrop
        · have hslash : (ascii '<' :: ascii '/' :: rest).dropWhile isSkipped = ascii '/' :: rest := rfl
          rw [hslash] at hdrop
          rw [← (List.cons.inj hdrop).1] at hd
          exact absurd hd (by decide)
        · rename_i hne
          cases hshort : (c :: label).dropWhile isSkipped with
          | nil => exact hne (by rw [hshort]; rfl)
          | cons e more =>
              rw [hshort] at hdrop
              have he : namesElement (c :: label) (text "a") = true :=
                namesElement_iff.mpr ⟨e, more, hshort, (List.cons.inj hdrop).1 ▸ hd⟩
              rw [hname] at he
              exact Bool.noConfusion he

end Markup

section Steps

/-- A link of the page, from its opening bracket to the end of its closing tag. -/
def LinkAt (page : Bytes) (start stop : Nat) : Prop :=
  text "<A HREF=\"" <+: page.drop start ∧
    ∃ e, platformStringFindNeedleRaw (page.drop start) (text "</a>") = some e ∧
      stop = start + e + 4

/-- No link is too long for the windows it is read through, and no fill ends inside
one, unless what is left of the page fits into a window whole. -/
def InReach (page : Bytes) (first : Nat) : Prop :=
  ∀ start stop, LinkAt page start stop → stop ≤ start + 2049 ∧
    ∀ k, first + sbDataSize * k ≤ start + 4 ∨ stop ≤ first + sbDataSize * k ∨
      page.length ≤ start + 2048

variable {page gap href label rest : Bytes} {first pos : Nat} {self : HttpSite}

theorem recvBufferFetch_front {buffer : RecvBuffer} (hbuffer : 0 < buffer.len) {n : Nat} :
    recvBufferFetch buffer 0 (n + 1) = .ok (.ok (buffer.data.take n)) := by
  have hsome : buffer.buffer.isSome = true := by
    cases hdata : buffer.buffer with
    | none => simp [RecvBuffer.len, RecvBuffer.data, hdata] at hbuffer
    | some data => rfl
  rw [recvBufferFetch, if_pos ⟨hsome, Nat.succ_ne_zero n⟩, if_neg (Nat.not_lt_zero _)]
  split
  · rename_i hshort
    rw [List.drop_zero, List.take_of_length_le]
    rw [RecvBuffer.len] at hshort
    omega
  · rw [List.drop_zero, Nat.add_sub_cancel]

theorem window_tag {buffer : RecvBuffer} (h : At page first pos buffer)
    (htext : page.drop pos = tag href ++ label ++ text "</A>" ++ rest) (hhref : IsHref href)
    (hzero : (0 : UInt8) ∉ label) {n : Nat} (hlen : href.length + 11 + label.length < buffer.len)
    (hn : href.length + 11 + label.length < n) :
    ∃ more, cString (buffer.data.take n) = tag href ++ label ++ ascii '<' :: more := by
  have hwhole : page.drop pos = (tag href ++ label ++ [ascii '<']) ++ (text "/A>" ++ rest) := by
    rw [htext]
    simp [text]
  have hlength : (tag href ++ label ++ [ascii '<']).length ≤ min n buffer.len := by
    simp only [List.length_append, length_tag, List.length_singleton]
    omega
  have hfree : (0 : UInt8) ∉ tag href ++ label ++ [ascii '<'] := by
    have hnot : (0 : UInt8) ∉ href := hhref.notMem (by decide)
    simp only [tag, List.mem_append, not_or]
    exact ⟨⟨⟨⟨by decide, hnot⟩, by decide⟩, hzero⟩, by decide⟩
  refine ⟨cString ((text "/A>" ++ rest).take
    (min n buffer.len - (tag href ++ label ++ [ascii '<']).length)), ?_⟩
  rw [h.data_eq, List.take_take, hwhole, List.take_append, List.take_of_length_le hlength,
    cString_append hfree]
  simp

theorem htmlExtractNextLink_link (hat : At page first pos self.socket) (hreach : InReach page first)
    (htext : page.drop pos = gap ++ (tag href ++ label ++ text "</A>" ++ rest))
    (hgap : Linkless gap) (hone : gap.length ≠ 1) (hnear : gap.length + 2 ≤ sbDataSize)
    (hhref : IsHref href) (hlabel : IsLabel label) (hzero : (0 : UInt8) ∉ label) :
    ∃ self', htmlExtractNextLink self = .ok (self', some href) ∧
      At page first (pos + gap.length + (href.length + 11)) self'.socket := by
  have hopen : platformStringFindNeedleRaw (page.drop pos) (text "<a") = some gap.length := by
    rw [htext]
    exact needleRaw_link hgap _
  have hdrop : page.drop (pos + gap.length) = tag href ++ label ++ text "</A>" ++ rest := by
    rw [← List.drop_drop, htext, List.drop_left]
  have hagain : platformStringFindNeedleRaw (page.drop (pos + gap.length)) (text "<a") = some 0 := by
    rw [hdrop]
    exact @needleRaw_link [] (by decide) _
  have hclose : platformStringFindNeedleRaw (page.drop (pos + gap.length)) (text "</a>") =
      some (href.length + 11 + label.length) := by
    rw [hdrop]
    exact needleRaw_close hhref hlabel rest
  have hlink : LinkAt page (pos + gap.length)
      (pos + gap.length + (href.length + 11 + label.length) + 4) := by
    refine ⟨?_, _, hclose, rfl⟩
    rw [hdrop, tag, List.append_assoc, List.append_assoc, List.append_assoc, List.append_assoc]
    exact List.prefix_append _ _
  obtain ⟨hshort, huncut⟩ := hreach _ _ hlink
  obtain ⟨socket₁, r₁, hfirst, hat₁, hlen₁, -⟩ :=
    recvBufferFindAndDitch_near hat (show 2 ≤ (text "<a").length by decide) (by decide) hopen hone
      (by show gap.length + 2 ≤ _; omega)
  have hbound := needleRaw_bound (by decide) hclose
  rw [List.length_drop] at hbound
  have hfour : (text "</a>").length = 4 := rfl
  have hwhole : href.length + 11 + label.length + (text "</a>").length ≤ socket₁.len ∨
      socket₁.len ≤ (text "</a>").length ∨ page.length ≤ pos + gap.length + 2048 := by
    obtain ⟨k, hk⟩ := hat₁.refill
    have hcut := huncut k
    omega
  obtain ⟨socket₂, hsecond, hat₂, hlen₂⟩ :=
    recvBufferFindAndFetch_found hat₁ (show 2 ≤ (text "</a>").length by decide) (by decide) hclose
      (by omega) (by rw [sbDataSize]; omega) hwhole
  obtain ⟨socket₃, r₃, hthird, hat₃, hlen₃, hkept₃⟩ :=
    recvBufferFindAndDitch_near hat₂ (show 2 ≤ (text "<a").length by decide) (by decide) hagain
      (by decide) (by rw [sbDataSize]; show 0 + 2 ≤ _; omega)
  obtain ⟨more₂, hshown₂⟩ :=
    window_tag hat₂ hdrop hhref hzero (by omega) (show _ < 2047 by omega)
  obtain ⟨more₃, hshown₃⟩ :=
    window_tag hat₃ hdrop hhref hzero (by omega) (show _ < 2046 by omega)
  have hdone := hat₃.ditch (show href.length + 11 ≤ socket₃.len by omega)
  refine ⟨{ self with socket := recvBufferDitch socket₃ (href.length + 11) }, ?_, hdone⟩
  have hvalue := linkValue_tag hhref label more₂
  rw [← hshown₂] at hvalue
  simp only [htmlExtractNextLink, fastForwardToElement, bufferToEndElement, fastForwardOverElement,
    show text "<" ++ text "a" = text "<a" from rfl,
    show text "</" ++ text "a" ++ text ">" = text "</a>" from rfl, hfirst, hsecond, ok_bind,
    Option.isSome_none, Bool.false_eq_true, if_false,
    @recvBufferFetch_front socket₂ (by omega) 2047, Option.bind_eq_bind, hvalue, hthird,
    @recvBufferFetch_front socket₃ (by omega) 2046]
  simp only [Except.toOption, Option.getD_some, hshown₃, xmlExtractElement_tag hhref, ok_bind,
    length_tag]

theorem recvBufferFetch_front_cases (buffer : RecvBuffer) (n : Nat) :
    (∃ e, recvBufferFetch buffer 0 (n + 1) = .ok (.error e)) ∨
      recvBufferFetch buffer 0 (n + 1) = .ok (.ok (buffer.data.take n)) := by
  by_cases hlen : 0 < buffer.len
  · exact .inr (recvBufferFetch_front hlen)
  · rw [recvBufferFetch]
    split
    · right
      have hdata : buffer.data = [] := List.eq_nil_of_length_eq_zero (Nat.eq_zero_of_not_pos hlen)
      rw [if_neg (Nat.not_lt_zero _)]
      split <;> simp [hdata]
    · exact .inl ⟨_, rfl⟩

theorem htmlExtractNextLink_none (hat : At page first pos self.socket)
    (hlong : pos + 2 ≤ page.length) (hlinkless : Linkless (page.drop pos))
    (hquiet : quiet (page.drop pos) = true) :
    ∃ self', htmlExtractNextLink self = .ok (self', none) := by
  have hnone : platformStringFindNeedleRaw (page.drop pos) (text "<a") = none := by
    rw [needleRaw_eq_none_iff (by decide)]
    exact hlinkless
  obtain ⟨socket, r, pos', hfirst, hat', hpos, hcomplete⟩ :=
    recvBufferFindAndDitch_none hat (show 2 ≤ (text "<a").length by decide) (by decide) hlong hnone
  obtain ⟨e, hsecond⟩ := @recvBufferFindAndFetch_complete (text "</a>") 2048 socket
    hcomplete (by decide)
  simp only [htmlExtractNextLink, fastForwardToElement, bufferToEndElement,
    show text "<" ++ text "a" = text "<a" from rfl,
    show text "</" ++ text "a" ++ text ">" = text "</a>" from rfl, hfirst, hsecond, ok_bind]
  split
  · exact ⟨_, rfl⟩
  · rcases recvBufferFetch_front_cases socket 2047 with ⟨e', hfetch⟩ | hfetch
    · simp only [hfetch, ok_bind]
      exact ⟨_, rfl⟩
    · have hsuffix : quiet (page.drop pos') = true := by
        obtain ⟨d, rfl⟩ := Nat.exists_eq_add_of_le hpos
        rw [← List.take_append_drop d (page.drop pos), List.drop_drop] at hquiet
        exact quiet_suffix hquiet
      have hwindow : quiet (cString (socket.data.take 2047)) = true := by
        have hstarts : cString (socket.data.take 2047) <+: page.drop pos' := by
          rw [hat'.data_eq]
          exact (List.takeWhile_prefix _).trans ((List.take_prefix _ _).trans (List.take_prefix _ _))
        obtain ⟨more, hmore⟩ := hstarts
        rw [← hmore] at hsuffix
        exact quiet_prefix hsuffix
      simp only [hfetch, ok_bind, xmlFindElement_quiet hwindow, Option.bind_eq_bind,
        Option.bind_none]
      exact ⟨_, rfl⟩

end Steps

section Pages

/-- A link of a page, with the text between it and the next one. -/
structure PageLink where
  href : Bytes
  label : Bytes
  after : Bytes

def PageLink.written (link : PageLink) : Bytes :=
  tag link.href ++ link.label ++ text "</A>" ++ link.after

def PageLink.remainder (link : PageLink) : Bytes := link.label ++ text "</A>" ++ link.after

structure PageLink.Plain (link : PageLink) : Prop where
  href : IsHref link.href
  href_ne_nil : link.href ≠ []
  label : IsLabel link.label
  zero_notMem : (0 : UInt8) ∉ link.label

/-- A page from some point on: a gap in front of each link and one behind the last. -/
def Scannable (gap : Bytes) : List PageLink → Prop
  | [] => Linkless gap ∧ quiet gap = true ∧ 2 ≤ gap.length
  | link :: links => Linkless gap ∧ gap.length ≠ 1 ∧ gap.length + 2 ≤ sbDataSize ∧ link.Plain ∧
      Scannable link.remainder links

/-- The names a link adds to the listing. -/
def listedAs (details : UriDetails) (link : Bytes) : Except Stop (List Bytes) := do
  if ← linkPathIsDirectSub details link then do
    let n ← entryName link
    .ok [n]
  else .ok []

variable {page : Bytes} {first pos : Nat} {self : HttpSite} {details : UriDetails}

theorem listingTurn_link {self' : HttpSite} {href : Bytes} {names : List Bytes} (entry : List Bytes)
    (hextract : htmlExtractNextLink self = .ok (self', some href)) (hhref : IsHref href)
    (hne : href ≠ []) (hlisted : listedAs details href = .ok names) :
    listingTurn details (self, entry) = .ok (.again (self', entry ++ names)) := by
  have hfile : href.takeWhile (· != ascii '?') = href := by
    have hquery : ascii '?' ∉ href := hhref.notMem (by decide)
    simpa using takeWhile_ne_append hquery []
  obtain ⟨direct, hdirect, hnames⟩ := bind_eq_ok_iff.mp hlisted
  simp only [listingTurn, hextract, ok_bind, hfile]
  rw [if_neg (fun h => hne h.1), hdirect, ok_bind]
  cases direct with
  | true =>
      obtain ⟨n, hn, hnames⟩ := bind_eq_ok_iff.mp hnames
      simp only [if_true, hn, ok_bind]
      rw [← Except.ok.inj hnames]
  | false =>
      rw [← Except.ok.inj hnames, List.append_nil]
      rfl

theorem run_listingTurn {links : List PageLink} {gap : Bytes} {names : PageLink → List Bytes}
    (hreach : InReach page first) (hat : At page first pos self.socket)
    (htext : page.drop pos = gap ++ links.flatMap PageLink.written) (hscan : Scannable gap links)
    (hlisted : ∀ link ∈ links, listedAs details link.href = .ok (names link)) {fuel : Nat}
    (hfuel : links.length < fuel) (entry : List Bytes) :
    ∃ self', run (listingTurn details) fuel (self, entry) =
      .ok (self', entry ++ links.flatMap names) := by
  induction links generalizing pos self gap entry fuel with
  | nil =>
      obtain ⟨fuel, rfl⟩ := Nat.exists_eq_add_of_lt hfuel
      obtain ⟨hlinkless, hquiet, hlong⟩ := hscan
      rw [List.flatMap_nil, List.append_nil] at htext
      have hlength := congrArg List.length htext
      rw [List.length_drop] at hlength
      obtain ⟨self', hextract⟩ := htmlExtractNextLink_none hat (by omega) (htext ▸ hlinkless)
        (htext ▸ hquiet)
      have hturn : listingTurn details (self, entry) = .ok (.leave (self', entry)) := by
        simp only [listingTurn, hextract, ok_bind]
      refine ⟨self', ?_⟩
      rw [run_succ_leave _ hturn, List.flatMap_nil, List.append_nil]
  | cons link links ih =>
      obtain ⟨fuel, rfl⟩ := Nat.exists_eq_add_of_lt hfuel
      obtain ⟨hlinkless, hone, hnear, hplain, hscan⟩ := hscan
      obtain ⟨hhere, hlater⟩ := List.forall_mem_cons.mp hlisted
      have hsplit : page.drop pos = gap ++ (tag link.href ++ link.label ++ text "</A>" ++
          (link.after ++ links.flatMap PageLink.written)) := by
        rw [htext, List.flatMap_cons, PageLink.written, List.append_assoc]
      obtain ⟨self', hextract, hat'⟩ := htmlExtractNextLink_link hat hreach hsplit hlinkless hone
        hnear hplain.href hplain.label hplain.zero_notMem
      have hturn := listingTurn_link entry hextract hplain.href hplain.href_ne_nil hhere
      have hnext : page.drop (pos + gap.length + (link.href.length + 11)) =
          link.remainder ++ links.flatMap PageLink.written := by
        rw [← length_tag, ← List.drop_drop, ← List.drop_drop, hsplit, List.drop_left,
          List.append_assoc, List.append_assoc, List.drop_left, PageLink.remainder]
        simp only [List.append_assoc]
      obtain ⟨last, hrun⟩ := @ih _ self' _ hat' hnext hscan hlater (links.length + fuel + 1)
        (by omega) (entry ++ names link)
      refine ⟨last, ?_⟩
      rw [List.length_cons, show links.length + 1 + fuel + 1 = links.length + fuel + 1 + 1 by omega,
        run_succ_again _ hturn, hrun, List.flatMap_cons, List.append_assoc]

theorem Scannable.front {front gap : Bytes} {links : List PageLink} (h : Scannable gap links)
    (hfront : Linkless front) (hhead : gap.head?.map toupper ≠ some (ascii 'A'))
    (hlong : 2 ≤ front.length) (hshort : front.length + gap.length + 2 ≤ sbDataSize)
    (hquiet : links = [] → quiet (front ++ gap) = true) : Scannable (front ++ gap) links := by
  cases links with
  | nil =>
      obtain ⟨hlinkless, -, -⟩ := h
      refine ⟨hfront.append hlinkless hhead, hquiet rfl, ?_⟩
      rw [List.length_append]
      omega
  | cons link links =>
      obtain ⟨hlinkless, -, -, hplain, hscan⟩ := h
      refine ⟨hfront.append hlinkless hhead, ?_, ?_, hplain, hscan⟩
      · rw [List.length_append]
        omega
      · rw [List.length_append]
        exact hshort

theorem length_le_length_written (links : List PageLink) :
    links.length ≤ (links.flatMap PageLink.written).length := by
  induction links with
  | nil => exact Nat.le_refl 0
  | cons link links ih =>
      have hsome : 11 ≤ link.written.length := by
        simp only [PageLink.written, List.length_append, length_tag]
        omega
      rw [List.flatMap_cons, List.length_append, List.length_cons]
      omega

end Pages

section Body

variable {page head lead more : Bytes} {first pos : Nat} {self : HttpSite}

theorem xmlFindElement_of_notMem {element s : Bytes} (hs : ascii '<' ∉ s) :
    xmlFindElement element s = none := by
  have hskip := @ElementFind.xmlFindElement_skip element s hs []
  rwa [List.append_nil] at hskip

theorem xmlExtractElement_body (lead rest : Bytes) :
    xmlExtractElement (text "<BODY>" ++ lead ++ ascii '<' :: rest) (text "body") =
      some (text "<BODY>") := by
  have hsplit : text "<BODY>" ++ lead ++ ascii '<' :: rest =
      ascii '<' :: (text "BODY" ++ ascii '>' :: (lead ++ ascii '<' :: rest)) := by
    simp [text, ascii]
  have hfind : xmlFindElement (text "body") (text "<BODY>" ++ lead ++ ascii '<' :: rest) =
      some (text "<BODY>" ++ lead ++ ascii '<' :: rest) := by
    rw [hsplit, ElementFind.xmlFindElement_tag (by decide) (by decide), if_pos]
    exact ⟨by simp, rfl⟩
  rw [xmlExtractElement, hfind]
  rfl

theorem xmlExtractElement_cut {s : Bytes} (hlead : ascii '<' ∉ lead)
    (hs : s <+: text "<BODY>" ++ lead) : xmlExtractElement s (text "body") = none := by
  have hnone : xmlFindElement (text "body") s = none := by
    cases s with
    | nil => rfl
    | cons c s =>
        have htail : ascii '<' ∉ s := by
          intro hmem
          have hinside := (List.cons_prefix_cons.mp hs).2.subset hmem
          rcases List.mem_append.mp hinside with hmem | hmem
          · exact absurd hmem (by decide)
          · exact hlead hmem
        have hopen : closesBeforeNext s = false := by
          rw [closesBeforeNext, strchr_eq_none htail]
          split
          · contradiction
          · rfl
        rw [xmlFindElement, if_neg, xmlFindElement_of_notMem htail]
        rintro ⟨-, hcloses, -⟩
        rw [hopen] at hcloses
        exact Bool.noConfusion hcloses
  rw [xmlExtractElement, hnone]
  rfl

theorem fastForwardOverElement_body (hat : At page first pos self.socket)
    (htext : page.drop pos = text "<BODY>" ++ lead ++ ascii '<' :: more)
    (hlead : ascii '<' ∉ lead) (hzero : (0 : UInt8) ∉ lead) :
    ∃ self' skipped, fastForwardOverElement self (text "body") = .ok self' ∧
      At page first (pos + skipped) self'.socket ∧ (skipped = 0 ∨ skipped = 6) := by
  have hopen : platformStringFindNeedleRaw (page.drop pos) (text "<body") = some 0 := by
    apply needleRaw_here (by decide)
    rw [htext, List.append_assoc, List.map_append]
    exact (show (text "<body").map toupper <+: (text "<BODY>").map toupper by decide).trans
      (List.prefix_append _ _)
  obtain ⟨socket, r, hfind, hat', hlen, -⟩ :=
    recvBufferFindAndDitch_near hat (show 2 ≤ (text "<body").length by decide) (by decide) hopen
      (by decide) (by rw [sbDataSize]; show 0 + 5 ≤ _; omega)
  have hfive : (text "<body").length = 5 := rfl
  have hfetch := @recvBufferFetch_front socket (by omega) 2046
  simp only [fastForwardOverElement, fastForwardToElement,
    show text "<" ++ text "body" = text "<body" from rfl, hfind, ok_bind, hfetch, Except.toOption,
    Option.getD_some]
  by_cases hwhole : (text "<BODY>" ++ lead ++ [ascii '<']).length ≤ min 2046 socket.len
  · have hfree : (0 : UInt8) ∉ text "<BODY>" ++ lead ++ [ascii '<'] := by
      simp only [List.mem_append, not_or]
      exact ⟨⟨by decide, hzero⟩, by decide⟩
    have hshown : ∃ rest, cString (socket.data.take 2046) =
        text "<BODY>" ++ lead ++ ascii '<' :: rest := by
      have hsplit : text "<BODY>" ++ lead ++ ascii '<' :: more =
          (text "<BODY>" ++ lead ++ [ascii '<']) ++ more := by
        simp
      rw [hat'.data_eq, List.take_take, Nat.add_zero, htext, hsplit, List.take_append,
        List.take_of_length_le hwhole, cString_append hfree]
      refine ⟨cString (more.take
        (min 2046 socket.len - (text "<BODY>" ++ lead ++ [ascii '<']).length)), ?_⟩
      simp
    obtain ⟨rest, hshown⟩ := hshown
    rw [hshown, xmlExtractElement_body]
    have hsix : 6 ≤ socket.len := by
      rw [List.length_append, List.length_append] at hwhole
      have hbody : (text "<BODY>").length = 6 := rfl
      omega
    exact ⟨_, 6, rfl, hat'.ditch hsix, .inr rfl⟩
  · have hcut : cString (socket.data.take 2046) <+: text "<BODY>" ++ lead := by
      rw [hat'.data_eq, List.take_take, Nat.add_zero, htext, List.take_append_of_le_length]
      · exact (List.takeWhile_prefix _).trans (List.take_prefix _ _)
      · rw [List.length_append, List.length_singleton] at hwhole
        omega
    rw [xmlExtractElement_cut hlead hcut]
    exact ⟨_, 0, rfl, hat', .inl rfl⟩

/-- A page whose links are within reach is listed link by link. -/
theorem directoryListing_links {site : HttpSite} {gap : Bytes} {links : List PageLink}
    {names : PageLink → List Bytes} (details : UriDetails) (absPath : Bytes)
    (h : Feeding page site.socket) (hreach : InReach page site.socket.len)
    (htext : page = head ++ (text "<BODY>" ++ (gap ++ links.flatMap PageLink.written)))
    (hopen : gap ++ links.flatMap PageLink.written = lead ++ ascii '<' :: more)
    (hlead : ascii '<' ∉ lead) (hzero : (0 : UInt8) ∉ lead)
    (hhead : ¬ text "<B" <:+: (head ++ text "<").map toupper) (hone : head.length ≠ 1)
    (hnear : head.length + 5 ≤ sbDataSize) (hscan : Scannable gap links)
    (hscan' : Scannable (text "<BODY>" ++ gap) links)
    (hlisted : ∀ link ∈ links, listedAs { details with path := some absPath } link.href =
      .ok (names link)) :
    ∃ site', directoryListing site details absPath = .ok (site',
      if links.flatMap names = [] then none else some (links.flatMap names)) := by
  have hhere : platformStringFindNeedleRaw
      (text "<BODY>" ++ (gap ++ links.flatMap PageLink.written)) (text "<body") = some 0 := by
    apply needleRaw_here (by decide)
    rw [List.map_append]
    exact (show (text "<body").map toupper <+: (text "<BODY>").map toupper by decide).trans
      (List.prefix_append _ _)
  have hbody : platformStringFindNeedleRaw page (text "<body") = some head.length := by
    have hpass : ¬ [ascii '<', ascii 'B'] <:+:
        (head ++ (text "<BODY>" ++ (gap ++ links.flatMap PageLink.written)).take 1).map toupper := hhead
    rw [htext, needleRaw_pass (show (text "<body").map toupper = ascii '<' :: ascii 'B' :: text "ODY"
      from rfl) hpass, hhere]
    rfl
  obtain ⟨socket, r, hfind, hat, -, -⟩ :=
    recvBufferFindAndDitch_near (At.start h) (show 2 ≤ (text "<body").length by decide) (by decide)
      hbody hone (by show head.length + 5 ≤ _; omega)
  rw [Nat.zero_add] at hat
  have hdrop : page.drop head.length = text "<BODY>" ++ (gap ++ links.flatMap PageLink.written) := by
    rw [htext, List.drop_left]
  obtain ⟨self, skipped, hover, hat', hskipped⟩ := @fastForwardOverElement_body page lead more
    site.socket.len head.length { site with socket } hat
    (by rw [hdrop, hopen, List.append_assoc]) hlead hzero
  have hstart : ∃ gap', page.drop (head.length + skipped) =
      gap' ++ links.flatMap PageLink.written ∧ Scannable gap' links := by
    rcases hskipped with rfl | rfl
    · exact ⟨text "<BODY>" ++ gap, by rw [Nat.add_zero, hdrop, List.append_assoc], hscan'⟩
    · refine ⟨gap, ?_, hscan⟩
      rw [← List.drop_drop, hdrop]
      rfl
  obtain ⟨gap', hrest, hscanned⟩ := hstart
  have hfuel : links.length < 2 * (self.socket.len + self.socket.serverSocket.rest.length) + 2 := by
    have hlength := length_le_length_written links
    have hleft := hat'.feeding.length_le
    rw [hrest, List.length_append] at hleft
    omega
  obtain ⟨last, hrun⟩ := run_listingTurn hreach hat' hrest hscanned hlisted hfuel []
  rw [List.nil_append] at hrun
  simp only [directoryListing, fastForwardToElement, show text "<" ++ text "body" = text "<body" from rfl,
    hfind, ok_bind, hover, hrun]
  exact ⟨_, rfl⟩

end Body

end Newth.Client.Links
