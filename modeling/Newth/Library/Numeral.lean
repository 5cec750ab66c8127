import Newth.Library.ByteString

namespace Newth.Library.Numeral

open Newth.Library.ByteString

/-- The byte of one digit, lower case past nine. -/
def digit (d : Nat) : UInt8 := ascii d.digitChar

/-- A number written out in a base of at most sixteen. -/
def numeral (base n : Nat) : Bytes := (Nat.toDigits base n).map ascii

/-- The value of a digit byte. -/
def digitValue (c : UInt8) : Nat := if c ≤ ascii '9' then c.toNat - 48 else c.toNat - 87

def isSpace (c : UInt8) : Bool := c == 32 || (9 ≤ c && c ≤ 13)

def isDecimal (c : UInt8) : Bool := ascii '0' ≤ c && c ≤ ascii '9'

/-- `atol` with a 64-bit `long`, which `strtol` saturates. -/
def atol (s : Bytes) : Int :=
  let s := s.dropWhile isSpace
  let magnitude (digits : Bytes) : Int :=
    ((digits.takeWhile isDecimal).foldl (fun acc c => 10 * acc + digitValue c) 0 : Nat)
  if s.head? = some (ascii '-') then max (-2 ^ 63) (-magnitude s.tail)
  else if s.head? = some (ascii '+') then min (2 ^ 63 - 1) (magnitude s.tail)
  else min (2 ^ 63 - 1) (magnitude s)

/-- `strtol` with a 64-bit `long`, and whether it sets `errno`. -/
def strtol (s : Bytes) : Int × Bool :=
  let rest := s.dropWhile isSpace
  let magnitude (digits : Bytes) : Nat :=
    (digits.takeWhile isDecimal).foldl (fun acc c => 10 * acc + digitValue c) 0
  (atol s,
    if rest.head? = some (ascii '-') then decide (2 ^ 63 < magnitude rest.tail)
    else if rest.head? = some (ascii '+') then decide (2 ^ 63 ≤ magnitude rest.tail)
    else decide (2 ^ 63 ≤ magnitude rest))

/-- The number that a text of nothing but digits stands for. -/
def wholeNumber (s : Bytes) : Option Nat :=
  if s ≠ [] ∧ s.all isDecimal then some (s.foldl (fun acc c => 10 * acc + digitValue c) 0) else none

/-- `strtoul` with a 64-bit `unsigned long`, and whether it sets `errno`. -/
def strtoul (s : Bytes) : Nat × Bool :=
  let s := s.dropWhile isSpace
  let digits := if s.head? = some (ascii '-') ∨ s.head? = some (ascii '+') then s.tail else s
  let n := (digits.takeWhile isDecimal).foldl (fun acc c => 10 * acc + digitValue c) 0
  if 2 ^ 64 ≤ n then (2 ^ 64 - 1, true)
  else if s.head? = some (ascii '-') then ((2 ^ 64 - n) % 2 ^ 64, false)
  else (n, false)

theorem atol_bounds (s : Bytes) : -2 ^ 63 ≤ atol s ∧ atol s < 2 ^ 63 := by
  simp only [atol]
  split
  · omega
  · split
    · omega
    · omega

theorem strtol_of_wholeNumber {s : Bytes} {n : Nat} (h : wholeNumber s = some n) :
    strtol s = (if n < 2 ^ 63 then (n : Int) else 2 ^ 63 - 1, decide (2 ^ 63 ≤ n)) := by
  rw [wholeNumber] at h
  split at h
  · rename_i hdigits
    obtain ⟨hne, hall⟩ := hdigits
    have hn := Option.some.inj h
    have hdigit : ∀ c ∈ s, isDecimal c = true := List.all_eq_true.mp hall
    obtain ⟨c, rest, rfl⟩ := List.exists_cons_of_ne_nil hne
    have hlow : ascii '0' ≤ c := by
      have hfirst := hdigit c (by simp)
      simp only [isDecimal, Bool.and_eq_true, decide_eq_true_eq] at hfirst
      exact hfirst.1
    have hspace : isSpace c = false := by
      have hlow' : 48 ≤ c.toNat := UInt8.le_iff_toNat_le.mp hlow
      simp only [isSpace, Bool.or_eq_false_iff, beq_eq_false_iff_ne, Bool.and_eq_false_iff,
        decide_eq_false_iff_not, UInt8.le_iff_toNat_le]
      refine ⟨?_, .inr (by simp; omega)⟩
      rintro rfl
      exact absurd hlow' (by decide)
    have hminus : c ≠ ascii '-' := by
      rintro rfl
      exact absurd hlow (by decide)
    have hplus : c ≠ ascii '+' := by
      rintro rfl
      exact absurd hlow (by decide)
    have hdrop : (c :: rest).dropWhile isSpace = c :: rest := by
      rw [List.dropWhile_cons_of_neg (by simp [hspace])]
    have htake : (c :: rest).takeWhile isDecimal = c :: rest := by
      rw [← List.append_nil (c :: rest), List.takeWhile_append_of_pos hdigit, List.takeWhile_nil]
    rw [strtol, atol]
    simp only [hdrop, htake, hn, List.head?_cons, Option.some.injEq, hminus, hplus, if_false]
    congr 1
    split
    · omega
    · omega
  · exact absurd h (by simp)

theorem digitValue_digit : ∀ d < 16, digitValue (digit d) = d := by decide

theorem numeral_of_lt {base n : Nat} (h : n < base) : numeral base n = [digit n] := by
  rw [numeral, Nat.toDigits_of_lt_base h]
  rfl

theorem numeral_of_le {base n : Nat} (hbase : 1 < base) (h : base ≤ n) :
    numeral base n = numeral base (n / base) ++ [digit (n % base)] := by
  rw [numeral, Nat.toDigits_of_base_le hbase h, List.map_append]
  rfl

theorem numeral_ne_nil (base n : Nat) : numeral base n ≠ [] := by
  simp [numeral]

theorem length_numeral_le_iff {base n k : Nat} (hbase : 1 < base) (hk : 0 < k) :
    (numeral base n).length ≤ k ↔ n < base ^ k := by
  rw [numeral, List.length_map]
  exact Nat.length_toDigits_le_iff hbase hk

theorem numeral_induction {base : Nat} (hbase : 1 < base) {motive : Nat → Bytes → Prop}
    (one : ∀ d < base, motive d [digit d])
    (more : ∀ n d, d < base → 0 < n → motive n (numeral base n) →
      motive (base * n + d) (numeral base n ++ [digit d])) (n : Nat) :
    motive n (numeral base n) := by
  induction n using Nat.strong_induction_on with
  | _ n ih =>
      by_cases hn : n < base
      · rw [numeral_of_lt hn]
        exact one n hn
      · have hle : base ≤ n := Nat.not_lt.mp hn
        have hless : n / base < n := Nat.div_lt_self (by omega) hbase
        have hpos : 0 < n / base := Nat.div_pos hle (by omega)
        have := more (n / base) (n % base) (Nat.mod_lt n (by omega)) hpos (ih _ hless)
        rwa [← numeral_of_le hbase hle, Nat.div_add_mod] at this

theorem mem_numeral {base n : Nat} (hbase : 1 < base) :
    ∀ c ∈ numeral base n, ∃ d < base, c = digit d := by
  refine numeral_induction hbase (motive := fun _ s => ∀ c ∈ s, ∃ d < base, c = digit d) ?_ ?_ n
  · intro d hd c hc
    exact ⟨d, hd, List.mem_singleton.mp hc⟩
  · intro n d hd _ ih c hc
    rcases List.mem_append.mp hc with hc | hc
    · exact ih c hc
    · exact ⟨d, hd, List.mem_singleton.mp hc⟩

theorem foldl_numeral {base : Nat} (hbase : 1 < base) {f : Nat → UInt8 → Nat}
    (hf : ∀ acc, ∀ d < base, f acc (digit d) = base * acc + d) (n : Nat) :
    (numeral base n).foldl f 0 = n := by
  refine numeral_induction hbase (motive := fun n s => s.foldl f 0 = n) ?_ ?_ n
  · intro d hd
    simp [hf 0 d hd]
  · intro n d hd _ ih
    simp [ih, hf n d hd]

theorem numeral_inj {base m n : Nat} (hbase : 1 < base) (hle : base ≤ 16)
    (h : numeral base m = numeral base n) : m = n := by
  have hf : ∀ acc, ∀ d < base, base * acc + digitValue (digit d) = base * acc + d := by
    intro acc d hd
    rw [digitValue_digit d (by omega)]
  rw [← foldl_numeral (f := fun acc c => base * acc + digitValue c) hbase hf m, h,
    foldl_numeral hbase hf]

theorem notMem_numeral {base n : Nat} (hbase : 1 < base) (hle : base ≤ 16) {c : UInt8}
    (hc : ∀ d < 16, c ≠ digit d) : c ∉ numeral base n := by
  intro hmem
  obtain ⟨d, hd, rfl⟩ := mem_numeral hbase c hmem
  exact hc d (by omega) rfl

end Newth.Library.Numeral
