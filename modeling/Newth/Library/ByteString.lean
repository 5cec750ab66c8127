import Mathlib.Algebra.Group.Int.Defs
import Mathlib.Algebra.Group.Nat.Defs
import Mathlib.Algebra.GroupWithZero.Nat
import Mathlib.Data.List.Infix
import Mathlib.Data.List.TakeDrop
import Mathlib.Tactic.Common

namespace Newth.Library.ByteString

abbrev Bytes := List UInt8

/-- The byte of an ASCII character. -/
def ascii (c : Char) : UInt8 := c.toNat.toUInt8

/-- The bytes of an ASCII literal. -/
def text (s : String) : Bytes := s.toList.map ascii

theorem text_append (s t : String) : text (s ++ t) = text s ++ text t := by
  rw [text, String.toList_append, List.map_append]
  rfl

theorem forall_byte {P : UInt8 → Prop} (h : ∀ n < 256, P (UInt8.ofNat n)) (c : UInt8) : P c := by
  have hc := h c.toNat c.toNat_lt
  rwa [UInt8.ofNat_toNat] at hc

/-- Decides only the bytes of `s`, where an instance for all bytes may be found first. -/
theorem forall_mem_of_all {s : Bytes} {P : UInt8 → Prop} [DecidablePred P]
    (h : s.all (P ·) = true) : ∀ c ∈ s, P c := by
  simpa using h

/-- `toupper` in the C locale. -/
def toupper (c : UInt8) : UInt8 := if ascii 'a' ≤ c ∧ c ≤ ascii 'z' then c - 32 else c

theorem toupper_eq_iff {c d : UInt8} (hd : d < ascii 'A') : toupper c = d ↔ c = d := by
  have hsmall : d.toNat < 65 := hd
  rw [toupper]
  split
  · rename_i hletter
    have hlow : 97 ≤ c.toNat := hletter.1
    have hupper : (c - 32).toNat = c.toNat - 32 := by
      rw [UInt8.toNat_sub_of_le _ _ (UInt8.le_trans (by decide) hletter.1)]
      rfl
    constructor
    · rintro rfl
      omega
    · rintro rfl
      omega
  · rfl

/-- The C string held by an array: everything before the first NUL. -/
def cString (array : Bytes) : Bytes := array.takeWhile (· != 0)

theorem zero_notMem_cString (array : Bytes) : (0 : UInt8) ∉ cString array := by
  intro hmem
  have hall := List.all_eq_true.mp (List.all_takeWhile (l := array) (p := (· != 0))) 0 hmem
  simp at hall

theorem takeWhile_ne_append {s : Bytes} {c : UInt8} (h : c ∉ s) (rest : Bytes) :
    (s ++ rest).takeWhile (· != c) = s ++ rest.takeWhile (· != c) := by
  rw [List.takeWhile_append_of_pos]
  intro x hx
  have hne : x ≠ c := fun heq => h (heq ▸ hx)
  simpa using hne

theorem cString_append {s : Bytes} (h : (0 : UInt8) ∉ s) (rest : Bytes) :
    cString (s ++ rest) = s ++ cString rest :=
  takeWhile_ne_append h rest

theorem cString_eq_self {s : Bytes} (h : (0 : UInt8) ∉ s) : cString s = s := by
  simpa [cString] using cString_append h []

theorem append_sep_append_inj {α : Type*} {sep : α} {a a' d d' : List α} (hd : sep ∉ d)
    (hd' : sep ∉ d') (h : a ++ [sep] ++ d = a' ++ [sep] ++ d') : a = a' ∧ d = d' := by
  rw [List.append_assoc, List.append_assoc] at h
  rcases List.append_eq_append_iff.mp h with ⟨c, rfl, hc⟩ | ⟨c, rfl, hc⟩
  · cases c with
    | nil => simpa using hc
    | cons x c =>
        obtain ⟨-, rfl⟩ : sep = x ∧ d = c ++ sep :: d' := by simpa using hc
        simp at hd
  · cases c with
    | nil => simpa [eq_comm] using hc
    | cons x c =>
        obtain ⟨-, rfl⟩ : sep = x ∧ d' = c ++ sep :: d := by simpa using hc
        simp at hd'

theorem block_after_of_notMem {α : Type*} {b : α} {a d block before after : List α}
    (hb : b ∉ block) (hshort : a.length < block.length)
    (h : a ++ b :: d = before ++ block ++ after) : ∃ c, d = c ++ block ++ after := by
  have hbefore : a.length < before.length := by
    by_contra hlate
    have hleft : (a ++ b :: d)[a.length]? = some b := by simp
    have hright : (before ++ block ++ after)[a.length]? = block[a.length - before.length]? := by
      rw [List.append_assoc, List.getElem?_append_right (Nat.not_lt.mp hlate),
        List.getElem?_append_left (by omega)]
    exact hb (List.mem_of_getElem? (hright.symm.trans ((congrArg (·[a.length]?) h).symm.trans hleft)))
  have hdrop := congrArg (List.drop (a.length + 1)) h
  rw [List.append_assoc, List.drop_append_of_le_length (by omega : a.length + 1 ≤ before.length)]
    at hdrop
  refine ⟨before.drop (a.length + 1), ?_⟩
  rw [List.append_assoc, ← hdrop]
  simp

theorem prefix_append_cons_iff {α : Type*} {needle a d : List α} {x : α} (hx : x ∉ needle) :
    needle <+: a ++ x :: d ↔ needle <+: a := by
  induction a generalizing needle with
  | nil =>
      cases needle with
      | nil => simp
      | cons y needle =>
          have hne : y ≠ x := fun heq => hx (heq ▸ List.mem_cons_self)
          simp [List.cons_prefix_cons, hne]
  | cons b a ih =>
      cases needle with
      | nil => simp
      | cons y needle =>
          have hrest : x ∉ needle := fun h => hx (List.mem_cons_of_mem y h)
          simp [List.cons_prefix_cons, ih hrest]

theorem infix_append_cons_iff {α : Type*} {needle a d : List α} {x : α} (hx : x ∉ needle) :
    needle <:+: a ++ x :: d ↔ needle <:+: a ∨ needle <:+: d := by
  induction a with
  | nil =>
      rw [List.nil_append, List.infix_cons_iff, List.infix_nil]
      have hfront := prefix_append_cons_iff (a := []) (d := d) hx
      rw [List.nil_append, List.prefix_nil] at hfront
      rw [hfront]
  | cons b a ih =>
      rw [List.cons_append, List.infix_cons_iff, ih, List.infix_cons_iff, ← List.cons_append,
        prefix_append_cons_iff hx, or_assoc]

/-- The index `strchr` finds a character at. -/
def strchr (s : Bytes) (c : UInt8) : Option Nat := s.findIdx? (· == c)

theorem strchr_eq_none {c : UInt8} {s : Bytes} (h : c ∉ s) : strchr s c = none := by
  rw [strchr, List.findIdx?_eq_none_iff]
  intro x hx
  have hne : x ≠ c := fun heq => h (heq ▸ hx)
  simpa using hne

theorem strchr_append {c : UInt8} {s : Bytes} (h : c ∉ s) (rest : Bytes) :
    strchr (s ++ c :: rest) c = some s.length := by
  have hnone := strchr_eq_none h
  rw [strchr] at hnone ⊢
  rw [List.findIdx?_append, hnone]
  simp [List.findIdx?_cons]

theorem eq_append_of_strchr {s : Bytes} {c : UInt8} {i : Nat} (h : strchr s c = some i) :
    s = s.take i ++ c :: s.drop (i + 1) := by
  obtain ⟨hi, hget, -⟩ := List.findIdx?_eq_some_iff_getElem.mp h
  have hc : s[i] = c := by simpa using hget
  rw [← hc, ← List.drop_eq_getElem_cons hi, List.take_append_drop]

theorem notMem_take_of_strchr {s : Bytes} {c : UInt8} {i : Nat} (h : strchr s c = some i) :
    c ∉ s.take i := by
  obtain ⟨hi, -, hfirst⟩ := List.findIdx?_eq_some_iff_getElem.mp h
  intro hmem
  obtain ⟨j, hj, hget⟩ := List.mem_take_iff_getElem.mp hmem
  exact hfirst j (by omega) (by simpa using hget)

theorem length_le_of_strchr {s rest : Bytes} {c : UInt8} (h : c ∉ s) {i : Nat}
    (hfound : strchr (s ++ rest) c = some i) : s.length ≤ i := by
  obtain ⟨hi, hget, -⟩ := List.findIdx?_eq_some_iff_getElem.mp hfound
  by_contra hlt
  rw [List.getElem_append_left (by omega)] at hget
  have hc : s[i] = c := by simpa using hget
  exact h (hc ▸ List.getElem_mem _)

theorem notMem_of_strchr {s : Bytes} {c : UInt8} (h : strchr s c = none) : c ∉ s := by
  intro hmem
  have hne := List.findIdx?_eq_none_iff.mp h c hmem
  simp at hne

theorem exists_last_split {c : UInt8} {s : Bytes} (h : c ∈ s) :
    ∃ front rest, s = front ++ c :: rest ∧ c ∉ rest := by
  obtain ⟨rest, front, hreverse, hrest⟩ := List.eq_append_cons_of_mem (List.mem_reverse.mpr h)
  refine ⟨front.reverse, rest.reverse, ?_, by simpa using hrest⟩
  rw [← List.reverse_reverse s, hreverse]
  simp


/-- The index `strstr` finds a needle at. -/
def strstr : Bytes → Bytes → Option Nat
  | [], needle => if needle = [] then some 0 else none
  | c :: rest, needle =>
      if needle.isPrefixOf (c :: rest) then some 0 else (strstr rest needle).map (· + 1)

theorem strstr_eq_none_iff {hay needle : Bytes} :
    strstr hay needle = none ↔ ¬ needle <:+: hay := by
  induction hay with
  | nil => simp [strstr]
  | cons c rest ih =>
      rw [strstr, List.infix_cons_iff]
      by_cases hpre : needle <+: c :: rest
      · simp [List.isPrefixOf_iff_prefix, hpre]
      · simp [List.isPrefixOf_iff_prefix, hpre, ih]

theorem strstr_eq_some_iff {hay needle : Bytes} {i : Nat} :
    strstr hay needle = some i ↔
      needle <+: hay.drop i ∧ i ≤ hay.length ∧ ∀ j < i, ¬ needle <+: hay.drop j := by
  induction hay generalizing i with
  | nil =>
      simp only [strstr, List.drop_nil, List.prefix_nil, List.length_nil, Nat.le_zero]
      constructor
      · intro h
        split at h
        · rename_i hneedle
          obtain rfl : 0 = i := by simpa using h
          exact ⟨hneedle, rfl, by omega⟩
        · simp at h
      · rintro ⟨hneedle, rfl, -⟩
        simp [hneedle]
  | cons c rest ih =>
      rw [strstr]
      by_cases hpre : needle <+: c :: rest
      · simp only [List.isPrefixOf_iff_prefix, hpre, if_true, Option.some.injEq]
        constructor
        · rintro rfl
          exact ⟨by simpa using hpre, by simp, by omega⟩
        · rintro ⟨-, -, hfirst⟩
          by_contra hne
          exact hfirst 0 (by omega) (by simpa using hpre)
      · simp only [List.isPrefixOf_iff_prefix, hpre, if_false, Option.map_eq_some_iff]
        constructor
        · rintro ⟨k, hk, rfl⟩
          obtain ⟨hat, hle, hfirst⟩ := ih.mp hk
          refine ⟨by simpa using hat, by simpa using hle, ?_⟩
          intro j hj
          cases j with
          | zero => simpa using hpre
          | succ j => simpa using hfirst j (by omega)
        · rintro ⟨hat, hle, hfirst⟩
          cases i with
          | zero => exact absurd (by simpa using hat) hpre
          | succ i =>
              refine ⟨i, ih.mpr ⟨by simpa using hat, by simpa using hle, ?_⟩, rfl⟩
              intro j hj
              simpa using hfirst (j + 1) (by omega)

theorem strstr_nil {needle : Bytes} (hne : needle ≠ []) : strstr [] needle = none := if_neg hne

theorem strstr_append_cons {needle : Bytes} {x : UInt8} (hne : needle ≠ []) (hx : x ∉ needle)
    (a d : Bytes) :
    strstr (a ++ x :: d) needle =
      match strstr a needle with
      | some o => some o
      | none => (strstr d needle).map (a.length + 1 + ·) := by
  induction a with
  | nil =>
      have hpre : ¬ needle <+: x :: d := by
        have hfront := prefix_append_cons_iff (a := []) (d := d) hx
        rw [List.nil_append, List.prefix_nil] at hfront
        rw [hfront]
        exact hne
      rw [← List.isPrefixOf_iff_prefix] at hpre
      rw [List.nil_append, strstr_nil hne, strstr, if_neg hpre]
      simp [Nat.add_comm]
  | cons c a ih =>
      have hfront : needle <+: c :: (a ++ x :: d) ↔ needle <+: c :: a := by
        rw [← List.cons_append, prefix_append_cons_iff hx]
      rw [List.cons_append, strstr, strstr, ih]
      simp only [List.isPrefixOf_iff_prefix, hfront]
      split
      · rfl
      · cases strstr a needle with
        | some o => rfl
        | none =>
            simp only [Option.map_none, Option.map_map, List.length_cons]
            congr 1
            funext n
            simp only [Function.comp]
            omega

theorem strstr_extend {hay hay' needle : Bytes} {i : Nat} (hpre : hay <+: hay')
    (h : strstr hay needle = some i) : strstr hay' needle = some i := by
  obtain ⟨hat, hle, hfirst⟩ := strstr_eq_some_iff.mp h
  have hlen := hpre.length_le
  have hend := hat.length_le
  rw [List.length_drop] at hend
  rw [strstr_eq_some_iff]
  refine ⟨hat.trans (hpre.drop i), hle.trans hlen, fun j hj hat' => ?_⟩
  apply hfirst j hj
  apply List.prefix_of_prefix_length_le hat' (hpre.drop j)
  rw [List.length_drop]
  omega

theorem eq_append_of_strstr {hay needle : Bytes} {i : Nat} (h : strstr hay needle = some i) :
    ∃ pre post, hay = pre ++ needle ++ post ∧ pre.length = i := by
  obtain ⟨⟨post, hpost⟩, hle, -⟩ := strstr_eq_some_iff.mp h
  refine ⟨hay.take i, post, ?_, List.length_take_of_le hle⟩
  rw [List.append_assoc, hpost, List.take_append_drop]

theorem strstr_append {pre needle rest : Bytes}
    (hfirst : ∀ j < pre.length, ¬ needle <+: (pre ++ needle ++ rest).drop j) :
    strstr (pre ++ needle ++ rest) needle = some pre.length := by
  rw [strstr_eq_some_iff]
  refine ⟨?_, by simp, hfirst⟩
  rw [List.append_assoc, List.drop_left]
  exact List.prefix_append _ _

end Newth.Library.ByteString
