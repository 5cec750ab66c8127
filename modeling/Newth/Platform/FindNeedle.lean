import Newth.Library.FixedArray
import Newth.Platform.FindString

namespace Newth.Platform.FindNeedle

open Newth.Library.ByteString
open Newth.Library.Call
open Newth.Library.FixedArray

section Functions

/-- One turn of the inner loop of `platformStringFindNeedleRaw`. -/
def compareTurn (haystack needle : Bytes) : Nat × Nat → Except Stop (Turn (Nat × Nat) Nat)
  | (h, j) => do
      let d ← load needle j
      if d = 0 then .ok (.leave h)
      else do
        let c ← load haystack h
        if toupper c ≠ toupper d then .ok (.leave h) else .ok (.again (h + 1, j + 1))

/-- One turn of the outer loop, whose bound is where the needle still fits. -/
def findTurn (haystack needle : Bytes) (haystackLen needleLen i : Nat) :
    Except Stop (Turn Nat (Option Nat)) :=
  if i < haystackLen then do
    let c ← load haystack i
    let d ← load needle 0
    if toupper c = toupper d then do
      let h ← run (compareTurn haystack needle) (needle.length + 1) (i, 0)
      if h - i = needleLen then .ok (.leave (some i)) else .ok (.again (i + 1))
    else .ok (.again (i + 1))
  else .ok (.leave none)

/-- `platformStringFindNeedleRaw` in the block of the haystack and in the needle with its
terminator; nothing outside the two can be read. -/
def platformStringFindNeedleRaw (haystack needle : Bytes) (haystackLen needleLen : Nat) :
    Except Stop (Option Nat) :=
  if haystackLen = 0 ∨ needleLen = 0 ∨ haystackLen < needleLen then .ok none
  else
    let haystackLen := haystackLen - needleLen + 1
    run (findTurn haystack needle haystackLen needleLen) (haystackLen + 1) 0

end Functions

section Occurrences

variable {haystack needle : Bytes} {i : Nat}

/-- The needle stands at an index, whatever the case of the letters. -/
def OccursAt (haystack needle : Bytes) (i : Nat) : Prop :=
  i + needle.length ≤ haystack.length ∧
    ∀ j < needle.length, toupper (haystack.getD (i + j) 0) = toupper (needle.getD j 0)

instance (haystack needle : Bytes) (i : Nat) : Decidable (OccursAt haystack needle i) :=
  inferInstanceAs (Decidable (_ ∧ ∀ j < needle.length, _))

/-- The least index with a property, or none if there is no such index. -/
def IsFirst (p : Nat → Prop) : Option Nat → Prop
  | some i => p i ∧ ∀ j < i, ¬ p j
  | none => ∀ i, ¬ p i

theorem load_needle {j : Nat} (hj : j ≤ needle.length) :
    load (needle ++ [0]) j = .ok (needle.getD j 0) := by
  rw [load_of_lt (by rw [List.length_append, List.length_singleton]; omega)]
  rcases Nat.lt_or_eq_of_le hj with hj | rfl
  · simp [hj, List.getElem?_append_left hj]
  · simp

/-- The inner loop gets as far as the needle is long exactly where the needle stands. -/
theorem compare_run (htext : (0 : UInt8) ∉ needle) (hfits : i + needle.length ≤ haystack.length) :
    ∃ h, run (compareTurn haystack (needle ++ [0])) ((needle ++ [0]).length + 1) (i, 0) = .ok h ∧
      (h - i = needle.length ↔ OccursAt haystack needle i) := by
  apply run_total
    (fun (h, j) => h = i + j ∧ j ≤ needle.length ∧
      ∀ j' < j, toupper (haystack.getD (i + j') 0) = toupper (needle.getD j' 0))
    (fun s => needle.length - s.2)
  · rintro ⟨h, j⟩ ⟨rfl, hj, hsame⟩
    rcases Nat.lt_or_eq_of_le hj with hlt | rfl
    · have hd : needle.getD j 0 ≠ 0 := by
        intro heq
        have hget : needle.getD j 0 = needle[j] := by simp [hlt]
        exact htext (heq ▸ hget ▸ List.getElem_mem hlt)
      have hc : load haystack (i + j) = .ok (haystack.getD (i + j) 0) := load_of_lt (by omega)
      by_cases hdiffer : toupper (haystack.getD (i + j) 0) ≠ toupper (needle.getD j 0)
      · refine ⟨.leave (i + j), ?_, ?_⟩
        · simp only [compareTurn, load_needle hj, ok_bind, if_neg hd, hc, if_pos hdiffer]
        · rw [Advances]
          refine iff_of_false (by omega) fun hoccurs => hdiffer (hoccurs.2 j hlt)
      · refine ⟨.again (i + j + 1, j + 1), ?_, ⟨by omega, by omega, ?_⟩,
          Nat.sub_lt_sub_left hlt (Nat.lt_succ_self j)⟩
        · simp only [compareTurn, load_needle hj, ok_bind, if_neg hd, hc, if_neg hdiffer]
        · intro j' hj'
          rcases Nat.lt_succ_iff_lt_or_eq.mp hj' with hearlier | rfl
          · exact hsame j' hearlier
          · exact not_not.mp hdiffer
    · refine ⟨.leave (i + needle.length), ?_, ?_⟩
      · simp [compareTurn, load_needle le_rfl]
      · exact iff_of_true (by omega) ⟨hfits, hsame⟩
  · exact ⟨rfl, Nat.zero_le _, fun j' hj' => absurd hj' (Nat.not_lt_zero j')⟩
  · show needle.length - 0 < _
    rw [List.length_append]
    omega

theorem occursAt_iff_stands : OccursAt haystack needle i ↔
    needle.map toupper <+: (haystack.drop i).map toupper ∧ i ≤ haystack.length := by
  have hbyte : i + needle.length ≤ haystack.length → ∀ j < needle.length,
      (toupper (haystack.getD (i + j) 0) = toupper (needle.getD j 0) ↔
        ((haystack.drop i).map toupper)[j]? = (needle.map toupper)[j]?) := by
    intro hfits j hj
    simp [hj, (by omega : i + j < haystack.length)]
  rw [List.prefix_iff_eq_take, List.length_map]
  constructor
  · rintro ⟨hfits, hsame⟩
    refine ⟨List.ext_getElem? fun j => ?_, by omega⟩
    rw [List.getElem?_take]
    split
    · rename_i hj
      exact ((hbyte hfits j hj).mp (hsame j hj)).symm
    · rename_i hj
      rw [List.getElem?_eq_none]
      rw [List.length_map]
      omega
  · rintro ⟨hpre, hle⟩
    have hlength := congrArg List.length hpre
    rw [List.length_map, List.length_take, List.length_map, List.length_drop] at hlength
    have hfits : i + needle.length ≤ haystack.length := by omega
    refine ⟨hfits, fun j hj => (hbyte hfits j hj).mpr ?_⟩
    rw [hpre, List.getElem?_take, if_pos hj]

theorem IsFirst.unique {p : Nat → Prop} {r r' : Option Nat} (h : IsFirst p r) (h' : IsFirst p r') :
    r = r' := by
  cases r with
  | none =>
      cases r' with
      | none => rfl
      | some i => exact absurd h'.1 (h i)
  | some i =>
      cases r' with
      | none => exact absurd h.1 (h' i)
      | some i' =>
          rcases Nat.lt_trichotomy i i' with hlt | rfl | hgt
          · exact absurd h.1 (h'.2 i hlt)
          · rfl
          · exact absurd h'.1 (h.2 i' hgt)

theorem isFirst_needleRaw (hneedle : needle ≠ []) :
    IsFirst (OccursAt haystack needle) (FindString.platformStringFindNeedleRaw haystack needle) := by
  cases hfound : FindString.platformStringFindNeedleRaw haystack needle with
  | none =>
      intro i hoccurs
      refine (FindString.needleRaw_eq_none_iff hneedle).mp hfound ?_
      refine (occursAt_iff_stands.mp hoccurs).1.isInfix.trans (List.IsSuffix.isInfix ?_)
      rw [List.map_drop]
      exact List.drop_suffix _ _
  | some i =>
      obtain ⟨hpre, hle, hfirst⟩ := (FindString.needleRaw_eq_some_iff hneedle).mp hfound
      exact ⟨occursAt_iff_stands.mpr ⟨hpre, hle⟩, fun j hj hoccurs =>
        hfirst j hj (occursAt_iff_stands.mp hoccurs).1⟩

end Occurrences

section Results

variable {haystack needle : Bytes}

theorem findTurn_past {haystackLen needleLen i : Nat} (hi : haystackLen ≤ i) :
    findTurn haystack needle haystackLen needleLen i = .ok (.leave none) :=
  if_neg (Nat.not_lt.mpr hi)

theorem findTurn_fits (hne : needle ≠ []) (htext : (0 : UInt8) ∉ needle) {i : Nat}
    (hfits : i + needle.length ≤ haystack.length) :
    findTurn haystack (needle ++ [0]) (haystack.length - needle.length + 1) needle.length i =
      .ok (if OccursAt haystack needle i then .leave (some i) else .again (i + 1)) := by
  have hpos := List.length_pos_of_ne_nil hne
  have hc : load haystack i = .ok (haystack.getD i 0) := load_of_lt (by omega)
  have hd : load (needle ++ [0]) 0 = .ok (needle.getD 0 0) := load_needle (Nat.zero_le _)
  obtain ⟨h, hrun, hoccurs⟩ := compare_run htext hfits
  rw [findTurn, if_pos (by omega), hc, ok_bind, hd, ok_bind]
  by_cases hfirst : toupper (haystack.getD i 0) = toupper (needle.getD 0 0)
  · rw [if_pos hfirst, hrun, ok_bind]
    by_cases hhere : OccursAt haystack needle i
    · rw [if_pos (hoccurs.mpr hhere), if_pos hhere]
    · rw [if_neg (mt hoccurs.mp hhere), if_neg hhere]
  · have hnot : ¬ OccursAt haystack needle i := fun hhere => hfirst (hhere.2 0 hpos)
    rw [if_neg hfirst, if_neg hnot]

theorem find_run (hne : needle ≠ []) (htext : (0 : UInt8) ∉ needle)
    (hlong : needle.length ≤ haystack.length) :
    ∃ r, run (findTurn haystack (needle ++ [0]) (haystack.length - needle.length + 1) needle.length)
      (haystack.length - needle.length + 1 + 1) 0 = .ok r ∧ IsFirst (OccursAt haystack needle) r := by
  apply run_total
    (fun i => i ≤ haystack.length - needle.length + 1 ∧ ∀ j < i, ¬ OccursAt haystack needle j)
    (fun i => haystack.length - needle.length + 1 - i)
  · rintro i ⟨hi, hearlier⟩
    rcases Nat.lt_or_eq_of_le hi with hlt | rfl
    · refine ⟨_, findTurn_fits hne htext (by omega), ?_⟩
      split
      · rename_i hhere
        exact ⟨hhere, hearlier⟩
      · rename_i hnot
        refine ⟨⟨hlt, fun j hj => ?_⟩, Nat.sub_lt_sub_left hlt (Nat.lt_succ_self i)⟩
        rcases Nat.lt_succ_iff_lt_or_eq.mp hj with hj | rfl
        · exact hearlier j hj
        · exact hnot
    · refine ⟨_, findTurn_past le_rfl, fun i hoccurs => ?_⟩
      have hfits := hoccurs.1
      exact hearlier i (by omega) hoccurs
  · exact ⟨Nat.zero_le _, fun j hj => absurd hj (Nat.not_lt_zero j)⟩
  · exact Nat.lt_succ_self _

theorem platformStringFindNeedleRaw_eq (hne : needle ≠ []) (htext : (0 : UInt8) ∉ needle)
    (haystack : Bytes) :
    platformStringFindNeedleRaw haystack (needle ++ [0]) haystack.length needle.length =
      .ok (FindString.platformStringFindNeedleRaw haystack needle) := by
  have hpos := List.length_pos_of_ne_nil hne
  rw [platformStringFindNeedleRaw]
  split
  · rename_i hshort
    rw [FindString.needleRaw_of_short (by omega)]
  · rename_i hlong
    obtain ⟨r, hrun, hr⟩ := @find_run haystack needle hne htext (by omega)
    rw [hr.unique (isFirst_needleRaw hne)] at hrun
    exact hrun

/-- In a block of arbitrary bytes the first place of the needle is found, and no byte behind the
block is read. -/
theorem platformStringFindNeedleRaw_exact (hne : needle ≠ []) (htext : (0 : UInt8) ∉ needle)
    (haystack : Bytes) :
    ∃ r, platformStringFindNeedleRaw haystack (needle ++ [0]) haystack.length needle.length =
      .ok r ∧ IsFirst (OccursAt haystack needle) r :=
  ⟨_, platformStringFindNeedleRaw_eq hne htext haystack, isFirst_needleRaw hne⟩

theorem platformStringFindNeedleRaw_exact_at :
    ∃ r, platformStringFindNeedleRaw [0, 255, 13, 10, 13, 10] (text "\r\n\r\n" ++ [0]) 6 4 = .ok r ∧
      IsFirst (OccursAt [0, 255, 13, 10, 13, 10] (text "\r\n\r\n")) r :=
  platformStringFindNeedleRaw_exact (by decide) (by decide) _

end Results

end Newth.Platform.FindNeedle
