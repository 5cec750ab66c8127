import Newth.Client.Recvbufr

namespace Newth.Client.ChunkSize

open Newth.Library.ByteString
open Newth.Library.Numeral
open Newth.Client.Recvbufr hiding ioHttpBodyChunkHexToSize

/-- The loop of `ioHttpBodyChunkHexToSize`, with `*value` as it is left. -/
def hexToSizeFrom (value : UInt64) : Bytes → Option ErrorMessage × UInt64
  | [] => (none, value)
  | c :: hex =>
      if isValidHexCharacter c then
        let v : UInt8 := ((c &&& (0xF : UInt8)) + (c >>> 6)) ||| ((c >>> 3) &&& (0x8 : UInt8))
        hexToSizeFrom ((value <<< 4) ||| v.toUInt64) hex
      else (some .illegalHexCharacter, value)

def ioHttpBodyChunkHexToSize (hex : Bytes) : Option ErrorMessage × UInt64 := hexToSizeFrom 0 hex

section Numbers

/-- The value of a hexadecimal digit of either case. -/
def hexDigit (c : UInt8) : Option Nat :=
  if ascii '0' ≤ c ∧ c ≤ ascii '9' then some (c.toNat - 48)
  else if ascii 'A' ≤ c ∧ c ≤ ascii 'F' then some (c.toNat - 55)
  else if ascii 'a' ≤ c ∧ c ≤ ascii 'f' then some (c.toNat - 87)
  else none

/-- What digits behind a number make of it. -/
def numberFrom (n : Nat) (s : Bytes) : Option Nat :=
  s.foldlM (fun n c => (hexDigit c).map (16 * n + ·)) n

/-- A size written in hexadecimal digits that a `size_t` can hold. -/
def IsSize (s : Bytes) (n : Nat) : Prop := s ≠ [] ∧ numberFrom 0 s = some n ∧ n < 2 ^ 64

theorem numberFrom_cons (n : Nat) (c : UInt8) (s : Bytes) :
    numberFrom n (c :: s) = (hexDigit c).bind fun d => numberFrom (16 * n + d) s := by
  rw [numberFrom, List.foldlM_cons]
  cases hexDigit c with
  | none => rfl
  | some d => rfl

theorem numberFrom_numeral (n : Nat) : numberFrom 0 (numeral 16 n) = some n := by
  have hdigit : ∀ d < 16, hexDigit (digit d) = some d := by decide
  refine numeral_induction (by decide) (motive := fun n s => numberFrom 0 s = some n) ?_ ?_ n
  · intro d hd
    rw [numberFrom_cons, hdigit d hd, Option.bind_some, Nat.mul_zero, Nat.zero_add]
    rfl
  · intro n d hd _ ih
    rw [numberFrom] at ih ⊢
    rw [List.foldlM_append, ih]
    exact (numberFrom_cons n (digit d) []).trans (by rw [hdigit d hd]; rfl)

end Numbers

section Loop

theorem bits_of_digit : ∀ c : UInt8, hexDigit c =
    if isValidHexCharacter c then
      some (((c &&& (0xF : UInt8)) + (c >>> 6)) ||| ((c >>> 3) &&& (0x8 : UInt8))).toNat
    else none :=
  forall_byte (by decide +kernel)

theorem digit_lt {c : UInt8} {d : Nat} (h : hexDigit c = some d) : d < 16 := by
  have hall : ∀ c : UInt8, ∀ d ∈ hexDigit c, d < 16 := forall_byte (by decide +kernel)
  exact hall c d h

theorem shift_in (n : Nat) {v : UInt8} (hv : v.toNat < 16) :
    (UInt64.ofNat n <<< 4) ||| v.toUInt64 = UInt64.ofNat (16 * n + v.toNat) := by
  have hfour : (4 : UInt64).toNat % 64 = 4 := rfl
  have hshift : (UInt64.ofNat n <<< 4).toNat = 2 ^ 4 * (n % 2 ^ 60) := by
    rw [UInt64.toNat_shiftLeft, UInt64.toNat_ofNat', hfour, Nat.shiftLeft_eq]
    omega
  apply UInt64.toNat_inj.mp
  rw [UInt64.toNat_or, hshift, UInt8.toNat_toUInt64, ← Nat.two_pow_add_eq_or_of_lt hv,
    UInt64.toNat_ofNat']
  omega

theorem hexToSizeFrom_of_number {s : Bytes} {n m : Nat} (h : numberFrom n s = some m) :
    hexToSizeFrom (UInt64.ofNat n) s = (none, UInt64.ofNat m) := by
  induction s generalizing n with
  | nil =>
      obtain rfl : n = m := Option.some.inj h
      rfl
  | cons c s ih =>
      rw [numberFrom_cons] at h
      obtain ⟨d, hd, hrest⟩ := Option.bind_eq_some_iff.mp h
      have hbits := bits_of_digit c
      rw [hd] at hbits
      split at hbits
      · rename_i hvalid
        obtain rfl := Option.some.inj hbits
        rw [hexToSizeFrom, if_pos hvalid]
        simp only [shift_in n (digit_lt hd)]
        exact ih hrest
      · contradiction

theorem hexToSizeFrom_of_stray {s : Bytes} {n : Nat} (h : numberFrom n s = none) (value : UInt64) :
    (hexToSizeFrom value s).1 = some .illegalHexCharacter := by
  induction s generalizing n value with
  | nil => exact absurd h (by simp [numberFrom])
  | cons c s ih =>
      rw [numberFrom_cons] at h
      have hbits := bits_of_digit c
      rw [hexToSizeFrom]
      split at hbits
      · rename_i hvalid
        rw [hbits, Option.bind_some] at h
        rw [if_pos hvalid]
        exact ih h _
      · rename_i hstray
        rw [if_neg hstray]

theorem hexToSizeFrom_eq (s : Bytes) (value : UInt64) :
    (match hexToSizeFrom value s with
      | (none, v) => Except.ok v.toNat
      | (some e, _) => Except.error e) =
      if s.all isValidHexCharacter then
        .ok (s.foldl (fun value c => (value * 16 + hexValue c) % 2 ^ 64) value.toNat)
      else .error .illegalHexCharacter := by
  induction s generalizing value with
  | nil => rfl
  | cons c s ih =>
      rw [hexToSizeFrom, List.all_cons, List.foldl_cons]
      by_cases hvalid : isValidHexCharacter c = true
      · have hbits := bits_of_digit c
        rw [if_pos hvalid] at hbits
        have hshift := shift_in value.toNat (digit_lt hbits)
        rw [UInt64.ofNat_toNat] at hshift
        have hnext : (UInt64.ofNat (16 * value.toNat + hexValue c)).toNat =
            (value.toNat * 16 + hexValue c) % 2 ^ 64 := by
          rw [UInt64.toNat_ofNat', Nat.mul_comm]
        rw [if_pos hvalid, hvalid, Bool.true_and, ← hnext]
        simp only [hshift]
        exact ih _
      · rw [if_neg hvalid, Bool.eq_false_iff.mpr hvalid]
        rfl

theorem ioHttpBodyChunkHexToSize_eq (hex : Bytes) : Recvbufr.ioHttpBodyChunkHexToSize hex =
    match ioHttpBodyChunkHexToSize hex with
      | (none, v) => .ok v.toNat
      | (some e, _) => .error e :=
  (hexToSizeFrom_eq hex 0).symm

end Loop

section Results

/-- The string is converted exactly if it is a size, and refused otherwise. -/
def ExactOrRefused (s : Bytes) : Prop :=
  ((ioHttpBodyChunkHexToSize s).1 = none ↔ ∃ n, IsSize s n) ∧
    ∀ n, IsSize s n → (ioHttpBodyChunkHexToSize s).2.toNat = n

theorem hexToSize_exact_iff (s : Bytes) :
    (ExactOrRefused s ↔ s ≠ [] ∧ ∀ n, numberFrom 0 s = some n → n < 2 ^ 64) ∧
      ∀ n < 2 ^ 64, ioHttpBodyChunkHexToSize (numeral 16 n) = (none, UInt64.ofNat n) := by
  refine ⟨?_, fun n _ => hexToSizeFrom_of_number (numberFrom_numeral n)⟩
  have hzero : UInt64.ofNat 0 = 0 := rfl
  cases hnumber : numberFrom 0 s with
  | none =>
      have hrefused : (ioHttpBodyChunkHexToSize s).1 = some .illegalHexCharacter :=
        hexToSizeFrom_of_stray hnumber 0
      have hno : ∀ n, ¬ IsSize s n := by
        rintro n ⟨-, hn, -⟩
        rw [hnumber] at hn
        contradiction
      have hsome : s ≠ [] := by
        rintro rfl
        simp [numberFrom] at hnumber
      refine iff_of_true ⟨?_, fun n h => absurd h (hno n)⟩ ⟨hsome, fun n h => by simp at h⟩
      rw [hrefused]
      exact iff_of_false (by simp) fun ⟨n, h⟩ => hno n h
  | some m =>
      have hcall : ioHttpBodyChunkHexToSize s = (none, UInt64.ofNat m) :=
        hexToSizeFrom_of_number hnumber
      have hsize : ∀ n, IsSize s n ↔ s ≠ [] ∧ m = n ∧ n < 2 ^ 64 := fun n => by
        rw [IsSize, hnumber, Option.some.injEq]
      constructor
      · rintro ⟨hnull, -⟩
        obtain ⟨n, hn⟩ := hnull.mp (by rw [hcall])
        obtain ⟨hne, rfl, hlt⟩ := (hsize n).mp hn
        exact ⟨hne, fun n hn => Option.some.inj hn ▸ hlt⟩
      · rintro ⟨hne, hfits⟩
        have hlt := hfits m rfl
        refine ⟨iff_of_true (by rw [hcall]) ⟨m, (hsize m).mpr ⟨hne, rfl, hlt⟩⟩, fun n hn => ?_⟩
        obtain ⟨-, rfl, -⟩ := (hsize n).mp hn
        rw [hcall]
        exact UInt64.toNat_ofNat_of_lt' hlt

theorem hexToSize_exact_iff_at :
    (ExactOrRefused (text "1F") ↔
      text "1F" ≠ [] ∧ ∀ n, numberFrom 0 (text "1F") = some n → n < 2 ^ 64) ∧
        ioHttpBodyChunkHexToSize (numeral 16 31) = (none, 31) :=
  ⟨(hexToSize_exact_iff (text "1F")).1, (hexToSize_exact_iff (text "1F")).2 31 (by decide)⟩

theorem empty_and_wrapped_converted :
    ¬ ExactOrRefused [] ∧ ¬ ExactOrRefused (text "10000000000000005") ∧
      ioHttpBodyChunkHexToSize [] = (none, 0) ∧
      ioHttpBodyChunkHexToSize (text "10000000000000005") = (none, 5) := by
  have hempty : ioHttpBodyChunkHexToSize [] = (none, 0) := rfl
  have hwrapped : ioHttpBodyChunkHexToSize (text "10000000000000005") = (none, 5) := by decide
  refine ⟨fun h => ?_, fun h => ?_, hempty, hwrapped⟩
  · obtain ⟨n, hne, -⟩ := h.1.mp (by rw [hempty])
    exact hne rfl
  · obtain ⟨n, -, hn, hlt⟩ := h.1.mp (by rw [hwrapped])
    have hnumber : numberFrom 0 (text "10000000000000005") = some (2 ^ 64 + 5) := by decide
    rw [hnumber] at hn
    obtain rfl := Option.some.inj hn
    exact absurd hlt (by decide)

end Results

end Newth.Client.ChunkSize
