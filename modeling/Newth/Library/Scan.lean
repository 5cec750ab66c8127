import Mathlib.Data.List.DropRight
import Newth.Library.Numeral

namespace Newth.Library.Scan

open Newth.Library.ByteString
open Newth.Library.Numeral

/-- The parts of a `sscanf` format: `%3s`, `%d`, white space and a plain character. -/
inductive Directive where
  | word (width : Nat)
  | int
  | blank
  | plain (c : UInt8)
  deriving DecidableEq, Repr

/-- What a conversion stores. -/
inductive Scanned where
  | word (s : Bytes)
  | int (value : Int)
  deriving DecidableEq, Repr

/-- A `long` stored in an `int`. -/
def toInt (value : Int) : Int := (value + 2 ^ 31) % 2 ^ 32 - 2 ^ 31

/-- The text of a `%d` at the start of `s`: a sign, if there is one, and digits. -/
def intText (s : Bytes) : Bytes :=
  match s with
  | sign :: rest =>
      if sign = ascii '-' ∨ sign = ascii '+' then sign :: rest.takeWhile isDecimal
      else s.takeWhile isDecimal
  | [] => []

/-- The conversions `sscanf` makes before the text stops to match. -/
def scan : List Directive → Bytes → List Scanned
  | [], _ => []
  | .blank :: format, s => scan format (s.dropWhile isSpace)
  | .plain c :: format, s => if s.head? = some c then scan format s.tail else []
  | .word width :: format, s =>
      let s := s.dropWhile isSpace
      let word := (s.takeWhile (!isSpace ·)).take width
      if word = [] then [] else .word word :: scan format (s.drop word.length)
  | .int :: format, s =>
      let s := s.dropWhile isSpace
      let number := intText s
      if number.any isDecimal then
        .int (toInt (atol number)) :: scan format (s.drop number.length)
      else []

section Steps

variable (format : List Directive) (rest : Bytes)

theorem dropWhile_isSpace_of_head {s : Bytes} (h : ∀ c ∈ s.head?, isSpace c = false) :
    s.dropWhile isSpace = s := by
  cases s with
  | nil => rfl
  | cons c s => rw [List.dropWhile_cons_of_neg (by simp [h c rfl])]

theorem scan_plain (c : UInt8) : scan (.plain c :: format) (c :: rest) = scan format rest := by
  simp [scan]

theorem scan_blank_int (s : Bytes) :
    scan (.blank :: .int :: format) s = scan (.int :: format) s := by
  rw [scan, scan, scan, List.dropWhile_idempotent]

theorem scan_blank_word (width : Nat) (s : Bytes) :
    scan (.blank :: .word width :: format) s = scan (.word width :: format) s := by
  rw [scan, scan, scan, List.dropWhile_idempotent]

theorem scan_int_space {c : UInt8} (hc : isSpace c = true) (s : Bytes) :
    scan (.int :: format) (c :: s) = scan (.int :: format) s := by
  rw [scan, scan, List.dropWhile_cons_of_pos hc]

theorem scan_word_space {c : UInt8} (hc : isSpace c = true) (width : Nat) (s : Bytes) :
    scan (.word width :: format) (c :: s) = scan (.word width :: format) s := by
  rw [scan, scan, List.dropWhile_cons_of_pos hc]

theorem scan_word {width : Nat} {word : Bytes} (hwidth : word.length = width) (hpos : 0 < width)
    (hword : ∀ c ∈ word, isSpace c = false) :
    scan (.word width :: format) (word ++ rest) = .word word :: scan format rest := by
  have hne : word ≠ [] := List.ne_nil_of_length_pos (hwidth ▸ hpos)
  have hhead : ∀ c ∈ (word ++ rest).head?, isSpace c = false := by
    cases word with
    | nil => exact absurd rfl hne
    | cons c word =>
        intro d hd
        obtain rfl := Option.some.inj hd
        exact hword c List.mem_cons_self
  have htake : ((word ++ rest).takeWhile (!isSpace ·)).take width = word := by
    rw [List.takeWhile_append_of_pos (by simpa using hword), ← hwidth, List.take_left]
  rw [scan]
  simp only [dropWhile_isSpace_of_head hhead, htake, if_neg hne, List.drop_left]

theorem isSpace_of_lt {c : UInt8} (h : ascii ' ' < c) : isSpace c = false := by
  have hc : 32 < c.toNat := h
  simp only [isSpace, Bool.or_eq_false_iff, beq_eq_false_iff_ne, Bool.and_eq_false_imp,
    decide_eq_true_eq, decide_eq_false_iff_not]
  constructor
  · rintro rfl
    simp at hc
  · intro _ hle
    have : c.toNat ≤ 13 := hle
    omega

theorem isSpace_of_isDecimal {c : UInt8} (h : isDecimal c = true) : isSpace c = false := by
  simp only [isDecimal, Bool.and_eq_true, decide_eq_true_eq] at h
  exact isSpace_of_lt (UInt8.lt_of_lt_of_le (by decide : ascii ' ' < ascii '0') h.1)

theorem isSpace_of_letter {c : UInt8} (h : ascii 'A' ≤ c) : isSpace c = false :=
  isSpace_of_lt (UInt8.lt_of_lt_of_le (by decide : ascii ' ' < ascii 'A') h)

theorem sign_of_isDecimal {c : UInt8} (h : isDecimal c = true) :
    ¬ (c = ascii '-' ∨ c = ascii '+') := by
  rintro (rfl | rfl)
  · exact absurd h (by decide)
  · exact absurd h (by decide)

theorem takeWhile_isDecimal {digits s : Bytes} (hdigits : ∀ c ∈ digits, isDecimal c = true)
    (hend : ∀ c ∈ s.head?, isDecimal c = false) : (digits ++ s).takeWhile isDecimal = digits := by
  have hstop : s.takeWhile isDecimal = [] := by
    cases s with
    | nil => rfl
    | cons d s => rw [List.takeWhile_cons_of_neg (by simp [hend d rfl])]
  rw [List.takeWhile_append_of_pos hdigits, hstop, List.append_nil]

theorem scan_int {digits : Bytes} (hne : digits ≠ [])
    (hdigits : ∀ c ∈ digits, isDecimal c = true)
    (hrest : ∀ c ∈ rest.head?, isDecimal c = false) :
    scan (.int :: format) (digits ++ rest) = .int (toInt (atol digits)) :: scan format rest := by
  cases digits with
  | nil => exact absurd rfl hne
  | cons c digits =>
      have hc : isDecimal c = true := hdigits c List.mem_cons_self
      have hhead : ∀ d ∈ (c :: digits ++ rest).head?, isSpace d = false := by
        intro d hd
        obtain rfl := Option.some.inj hd
        exact isSpace_of_isDecimal hc
      have htext : intText (c :: digits ++ rest) = c :: digits := by
        rw [List.cons_append, intText, if_neg (sign_of_isDecimal hc), ← List.cons_append,
          takeWhile_isDecimal hdigits hrest]
      have hany : (c :: digits).any isDecimal = true := by simp [hc]
      rw [scan]
      simp only [dropWhile_isSpace_of_head hhead, htext, hany, if_true, List.drop_left]

end Steps

section Numerals

theorem isDecimal_digit : ∀ d < 10, isDecimal (digit d) = true := by decide

theorem isDecimal_numeral (n : Nat) : ∀ c ∈ numeral 10 n, isDecimal c = true := by
  intro c hc
  obtain ⟨d, hd, rfl⟩ := mem_numeral (by decide) c hc
  exact isDecimal_digit d hd

theorem digits_unsigned {digits : Bytes} (hdigits : ∀ c ∈ digits, isDecimal c = true) :
    digits.dropWhile isSpace = digits ∧ digits.head? ≠ some (ascii '-') ∧
      digits.head? ≠ some (ascii '+') := by
  refine ⟨dropWhile_isSpace_of_head fun c hc => ?_, fun hhead => ?_, fun hhead => ?_⟩
  · exact isSpace_of_isDecimal (hdigits c (List.mem_of_head? hc))
  · exact sign_of_isDecimal (hdigits _ (List.mem_of_head? hhead)) (.inl rfl)
  · exact sign_of_isDecimal (hdigits _ (List.mem_of_head? hhead)) (.inr rfl)

theorem atol_of_digits {digits : Bytes} (hdigits : ∀ c ∈ digits, isDecimal c = true)
    {n : Nat} (hvalue : digits.foldl (fun acc c => 10 * acc + digitValue c) 0 = n)
    (hn : n < 2 ^ 63) : atol digits = n := by
  obtain ⟨hspace, hminus, hplus⟩ := digits_unsigned hdigits
  have hall : digits.takeWhile isDecimal = digits := List.takeWhile_eq_self_iff.mpr hdigits
  simp only [atol, hspace, if_neg hminus, if_neg hplus, hall, hvalue]
  omega

theorem strtoul_of_digits {digits : Bytes} (hdigits : ∀ c ∈ digits, isDecimal c = true)
    {n : Nat} (hvalue : digits.foldl (fun acc c => 10 * acc + digitValue c) 0 = n)
    (hn : n < 2 ^ 64) : strtoul digits = (n, false) := by
  obtain ⟨hspace, hminus, hplus⟩ := digits_unsigned hdigits
  have hnone : ¬ (digits.head? = some (ascii '-') ∨ digits.head? = some (ascii '+')) :=
    not_or.mpr ⟨hminus, hplus⟩
  have hall : digits.takeWhile isDecimal = digits := List.takeWhile_eq_self_iff.mpr hdigits
  simp only [strtoul, hspace, if_neg hnone, hall, hvalue, if_neg hminus, if_neg (Nat.not_le.mpr hn)]

theorem atol_numeral {n : Nat} (hn : n < 2 ^ 63) : atol (numeral 10 n) = n := by
  apply atol_of_digits (isDecimal_numeral n) _ hn
  apply foldl_numeral (by decide)
  intro acc d hd
  rw [digitValue_digit d (by omega)]

theorem toInt_of_bounds {value : Int} (h : -2 ^ 31 ≤ value) (h' : value < 2 ^ 31) :
    toInt value = value := by
  rw [toInt]
  omega

/-- A number below a hundred in two digits. -/
def twoDigits (n : Nat) : Bytes := [digit (n / 10), digit (n % 10)]

theorem isDecimal_twoDigits {n : Nat} (hn : n < 100) :
    ∀ c ∈ twoDigits n, isDecimal c = true := by
  intro c hc
  rcases List.mem_cons.mp hc with rfl | hc
  · exact isDecimal_digit _ (by omega)
  · obtain rfl := List.mem_singleton.mp hc
    exact isDecimal_digit _ (by omega)

theorem atol_twoDigits {n : Nat} (hn : n < 100) : atol (twoDigits n) = n := by
  apply atol_of_digits (isDecimal_twoDigits hn) _ (by omega)
  have htens := digitValue_digit (n / 10) (by omega)
  have hunits := digitValue_digit (n % 10) (by omega)
  simp only [twoDigits, List.foldl_cons, List.foldl_nil, htens, hunits]
  omega

end Numerals

section Matching

/-- What a directive stores, if it stores anything. -/
def Directive.stores : Directive → Bool
  | .word _ | .int => true
  | .blank | .plain _ => false

/-- Digits, behind a sign if there is one. -/
def IsNumber (number : Bytes) : Prop :=
  ∃ sign digits, number = sign ++ digits ∧ sign ∈ [[], text "-", text "+"] ∧ digits ≠ [] ∧
    ∀ c ∈ digits, isDecimal c = true

/-- A format matches the front of a text, with the values it stores and the text it
leaves. A word or a number only ends where it cannot go on. -/
inductive Matches : List Directive → Bytes → List Scanned → Bytes → Prop where
  | done {rest : Bytes} : Matches [] rest [] rest
  | blank {format : List Directive} {gap s rest : Bytes} {values : List Scanned}
      (hgap : ∀ c ∈ gap, isSpace c = true) (hend : ∀ c ∈ s.head?, isSpace c = false)
      (h : Matches format s values rest) : Matches (.blank :: format) (gap ++ s) values rest
  | plain {format : List Directive} {c : UInt8} {s rest : Bytes} {values : List Scanned}
      (h : Matches format s values rest) : Matches (.plain c :: format) (c :: s) values rest
  | word {format : List Directive} {width : Nat} {gap word s rest : Bytes} {values : List Scanned}
      (hgap : ∀ c ∈ gap, isSpace c = true) (hne : word ≠ [])
      (hword : ∀ c ∈ word, isSpace c = false)
      (hend : word.length < width ∧ (∀ c ∈ s.head?, isSpace c = true) ∨ word.length = width)
      (h : Matches format s values rest) :
      Matches (.word width :: format) (gap ++ (word ++ s)) (.word word :: values) rest
  | int {format : List Directive} {gap number s rest : Bytes} {values : List Scanned}
      (hgap : ∀ c ∈ gap, isSpace c = true) (hnumber : IsNumber number)
      (hend : ∀ c ∈ s.head?, isDecimal c = false) (h : Matches format s values rest) :
      Matches (.int :: format) (gap ++ (number ++ s)) (.int (toInt (atol number)) :: values) rest

variable {format : List Directive} {s gap number rest : Bytes} {values : List Scanned}

theorem IsNumber.head (h : IsNumber number) : ∀ c ∈ (number ++ s).head?, isSpace c = false := by
  obtain ⟨sign, digits, rfl, hsign, hne, hdigits⟩ := h
  intro c hc
  simp only [List.mem_cons, List.not_mem_nil, or_false] at hsign
  rcases hsign with rfl | rfl | rfl
  · cases digits with
    | nil => exact absurd rfl hne
    | cons d digits =>
        obtain rfl := Option.some.inj hc
        exact isSpace_of_isDecimal (hdigits _ List.mem_cons_self)
  · obtain rfl := Option.some.inj hc
    rfl
  · obtain rfl := Option.some.inj hc
    rfl

theorem IsNumber.intText (h : IsNumber number) (hend : ∀ c ∈ s.head?, isDecimal c = false) :
    intText (number ++ s) = number := by
  obtain ⟨sign, digits, rfl, hsign, hne, hdigits⟩ := h
  have htake := takeWhile_isDecimal hdigits hend
  simp only [List.mem_cons, List.not_mem_nil, or_false] at hsign
  rcases hsign with rfl | rfl | rfl
  · cases digits with
    | nil => exact absurd rfl hne
    | cons d digits =>
        rw [List.nil_append, List.cons_append, Scan.intText,
          if_neg (sign_of_isDecimal (hdigits d List.mem_cons_self)), ← List.cons_append, htake]
  · show ascii '-' :: (digits ++ s).takeWhile isDecimal = ascii '-' :: digits
    rw [htake]
  · show ascii '+' :: (digits ++ s).takeWhile isDecimal = ascii '+' :: digits
    rw [htake]

theorem IsNumber.any (h : IsNumber number) : number.any isDecimal = true := by
  obtain ⟨sign, digits, rfl, -, hne, hdigits⟩ := h
  obtain ⟨d, digits', rfl⟩ := List.exists_cons_of_ne_nil hne
  rw [List.any_append, List.any_cons, hdigits d List.mem_cons_self]
  simp

theorem intText_split (h : (intText s).any isDecimal = true) :
    IsNumber (intText s) ∧ ∃ rest, s = intText s ++ rest ∧ ∀ c ∈ rest.head?, isDecimal c = false := by
  have hends : ∀ t : Bytes, ∀ c ∈ (t.dropWhile isDecimal).head?, isDecimal c = false := by
    intro t c hc
    have hnot := List.head?_dropWhile_not isDecimal t
    rw [hc] at hnot
    simpa using hnot
  have hdigits : ∀ t : Bytes, ∀ c ∈ t.takeWhile isDecimal, isDecimal c = true :=
    fun t c hc => List.mem_takeWhile_imp hc
  cases s with
  | nil => exact absurd h (by simp [Scan.intText])
  | cons sign t =>
      rw [Scan.intText] at h ⊢
      split at h
      · rename_i hsign
        rw [if_pos hsign]
        have hplain : isDecimal sign = false := by
          rcases hsign with rfl | rfl <;> rfl
        have hne : t.takeWhile isDecimal ≠ [] := by
          intro hnil
          simp [hnil, hplain] at h
        refine ⟨⟨[sign], t.takeWhile isDecimal, rfl, ?_, hne, hdigits t⟩, t.dropWhile isDecimal,
          ?_, hends t⟩
        · rcases hsign with rfl | rfl
          · exact List.mem_cons_of_mem _ List.mem_cons_self
          · exact List.mem_cons_of_mem _ (List.mem_cons_of_mem _ List.mem_cons_self)
        · rw [List.cons_append, List.takeWhile_append_dropWhile]
      · rename_i hsign
        rw [if_neg hsign]
        have hne : (sign :: t).takeWhile isDecimal ≠ [] := by
          intro hnil
          simp [hnil] at h
        exact ⟨⟨[], _, rfl, List.mem_cons_self, hne, hdigits (sign :: t)⟩,
          (sign :: t).dropWhile isDecimal, List.takeWhile_append_dropWhile.symm, hends _⟩

theorem dropWhile_gap (hgap : ∀ c ∈ gap, isSpace c = true) (hend : ∀ c ∈ s.head?, isSpace c = false) :
    (gap ++ s).dropWhile isSpace = s := by
  rw [List.dropWhile_append_of_pos hgap, dropWhile_isSpace_of_head hend]

theorem Matches.scan (h : Matches format s values rest) (more : List Directive) :
    Scan.scan (format ++ more) s = values ++ Scan.scan more rest := by
  induction h with
  | done => rfl
  | blank hgap hend _ ih =>
      rw [List.cons_append, Scan.scan, dropWhile_gap hgap hend]
      exact ih
  | plain _ ih =>
      rw [List.cons_append, scan_plain]
      exact ih
  | @word format width gap word s rest values hgap hne hword hends _ ih =>
      have hhead : ∀ c ∈ (word ++ s).head?, isSpace c = false := by
        obtain ⟨c, word', rfl⟩ := List.exists_cons_of_ne_nil hne
        intro d hd
        obtain rfl := Option.some.inj hd
        exact hword c List.mem_cons_self
      have htake : ((word ++ s).takeWhile (!isSpace ·)).take width = word := by
        rw [List.takeWhile_append_of_pos (by simpa using hword)]
        rcases hends with ⟨hshort, hspace⟩ | hwidth
        · have hstop : s.takeWhile (!isSpace ·) = [] := by
            cases s with
            | nil => rfl
            | cons d s => rw [List.takeWhile_cons_of_neg (by simp [hspace d rfl])]
          rw [hstop, List.append_nil, List.take_of_length_le (Nat.le_of_lt hshort)]
        · rw [← hwidth, List.take_left]
      rw [List.cons_append, Scan.scan]
      simp only [dropWhile_gap hgap hhead, htake, if_neg hne, List.drop_left, ih, List.cons_append]
  | @int format gap number s rest values hgap hnumber hend _ ih =>
      rw [List.cons_append, Scan.scan]
      simp only [dropWhile_gap hgap hnumber.head, hnumber.intText hend, hnumber.any, if_true,
        List.drop_left, ih, List.cons_append]

theorem matches_of_stored {more : List Directive}
    (hlast : ∀ d ∈ format.getLast?, Directive.stores d = true)
    (h : format.countP Directive.stores ≤ (scan (format ++ more) s).length) :
    ∃ values rest, Matches format s values rest := by
  induction format generalizing s with
  | nil => exact ⟨[], s, .done⟩
  | cons d format ih =>
      have hnext : ∀ d ∈ format.getLast?, Directive.stores d = true := by
        cases format with
        | nil => simp
        | cons e format =>
            rw [List.getLast?_cons_cons] at hlast
            exact hlast
      have hsplit : s = s.takeWhile isSpace ++ s.dropWhile isSpace :=
        List.takeWhile_append_dropWhile.symm
      have hgap : ∀ c ∈ s.takeWhile isSpace, isSpace c = true := fun c hc => List.mem_takeWhile_imp hc
      have hhead : ∀ c ∈ (s.dropWhile isSpace).head?, isSpace c = false := by
        intro c hc
        have hnot := List.head?_dropWhile_not isSpace s
        rw [hc] at hnot
        simpa using hnot
      -- a directive that stores nothing is not the last
      have hpositive : d.stores = false → 0 < format.countP Directive.stores := by
        intro hplain
        cases hformat : format.getLast? with
        | none =>
            obtain rfl := List.getLast?_eq_none_iff.mp hformat
            exact absurd (hlast d rfl) (by simp [hplain])
        | some e => exact List.countP_pos_iff.mpr ⟨e, List.mem_of_getLast? hformat, hnext e hformat⟩
      rw [List.cons_append] at h
      cases d with
      | blank =>
          rw [List.countP_cons_of_neg (by simp [Directive.stores])] at h
          obtain ⟨values, rest, hmatch⟩ := ih hnext h
          exact ⟨values, rest, hsplit ▸ .blank hgap hhead hmatch⟩
      | plain c =>
          rw [List.countP_cons_of_neg (by simp [Directive.stores]), scan] at h
          split at h
          · rename_i hc
            obtain ⟨t, rfl⟩ := List.head?_eq_some_iff.mp hc
            obtain ⟨values, rest, hmatch⟩ := ih hnext h
            exact ⟨values, rest, .plain hmatch⟩
          · have hmore := hpositive rfl
            rw [List.length_nil] at h
            omega
      | word width =>
          obtain ⟨t, ht⟩ : ∃ t, t = s.dropWhile isSpace := ⟨_, rfl⟩
          obtain ⟨run, hrun⟩ : ∃ run, run = t.takeWhile (!isSpace ·) := ⟨_, rfl⟩
          have hsplit' : t = run.take width ++ t.drop (run.take width).length := by
            obtain ⟨after, hafter⟩ : run.take width <+: t :=
              (List.take_prefix _ _).trans (hrun ▸ List.takeWhile_prefix _)
            rw [← hafter, List.drop_left]
          rw [List.countP_cons_of_pos rfl, scan] at h
          simp only [← ht, ← hrun] at h
          split at h
          · simp at h
          · rename_i hne
            rw [List.length_cons, Nat.add_le_add_iff_right] at h
            obtain ⟨values, rest, hmatch⟩ := ih hnext h
            have hword : ∀ c ∈ run.take width, isSpace c = false := by
              intro c hc
              have hplain := List.mem_takeWhile_imp (hrun ▸ List.mem_of_mem_take hc)
              simpa using hplain
            rw [hsplit, ← ht, hsplit']
            refine ⟨_, rest, .word hgap hne hword ?_ hmatch⟩
            rcases Nat.lt_or_ge run.length width with hshort | hlong
            · refine .inl ⟨by rw [List.length_take]; omega, ?_⟩
              rw [List.take_of_length_le (Nat.le_of_lt hshort), hrun]
              intro c hc
              have hdrop := @List.drop_left _ (t.takeWhile (!isSpace ·)) (t.dropWhile (!isSpace ·))
              rw [List.takeWhile_append_dropWhile] at hdrop
              rw [hdrop] at hc
              have hnot := List.head?_dropWhile_not (!isSpace ·) t
              rw [hc] at hnot
              simpa using hnot
            · exact .inr (by rw [List.length_take]; omega)
      | int =>
          obtain ⟨t, ht⟩ : ∃ t, t = s.dropWhile isSpace := ⟨_, rfl⟩
          rw [List.countP_cons_of_pos rfl, scan] at h
          simp only [← ht] at h
          split at h
          · rename_i hany
            rw [List.length_cons, Nat.add_le_add_iff_right] at h
            obtain ⟨hnumber, after, hafter, hend⟩ := intText_split hany
            have hdrop := @List.drop_left _ (intText t) after
            rw [← hafter] at hdrop
            rw [hdrop] at h
            obtain ⟨values, rest, hmatch⟩ := ih hnext h
            rw [hsplit, ← ht, hafter]
            exact ⟨_, rest, .int hgap hnumber hend hmatch⟩
          · simp at h

end Matching

end Newth.Library.Scan
