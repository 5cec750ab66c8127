import Mathlib.Data.List.Basic
import Newth.Library.Call
import Newth.Library.Numeral

namespace Newth.Client.Ipv4

open Newth.Library.ByteString
open Newth.Library.Call
open Newth.Library.Numeral

/-- One turn of the loop of `isValidIpv4Str` with its three `unsigned int` variables, or the end
of the string. -/
def ipv4Turn (str : Bytes) : UInt32 × UInt32 × UInt32 → Except Stop (Turn (UInt32 × UInt32 × UInt32) Bool)
  | (i, j, k) =>
      let c := str.getD i.toNat 0
      if c = 0 then .ok (.leave (k == 3))
      else if isDecimal c then .ok (.again (i + 1, j + UInt32.ofNat (digitValue c), k))
      else if c = ascii '.' then
        if 12 < j then .ok (.leave false) else .ok (.again (i + 1, 0, k + 1))
      else .ok (.leave false)

def isValidIpv4Str (fuel : Nat) (str : Bytes) : Except Stop Bool := run (ipv4Turn str) fuel (0, 0, 0)

section Groups

/-- What stands between the dots of a string. -/
def groups (s : Bytes) : List Bytes := s.splitOnP (· == ascii '.')

def digitSum (group : Bytes) : Nat := (group.map digitValue).sum

/-- A decimal number of one to three digits that is at most 255. -/
def IsOctet (group : Bytes) : Prop := group.length ≤ 3 ∧ ∃ n ∈ wholeNumber group, n ≤ 255

instance (group : Bytes) : Decidable (IsOctet group) :=
  inferInstanceAs (Decidable (_ ∧ ∃ n ∈ wholeNumber group, n ≤ 255))

/-- Four numbers with single dots between them. -/
def IsIpv4 (s : Bytes) : Prop := (groups s).length = 4 ∧ ∀ group ∈ groups s, IsOctet group

instance (s : Bytes) : Decidable (IsIpv4 s) :=
  inferInstanceAs (Decidable (_ ∧ ∀ group ∈ groups s, IsOctet group))

/-- The digits of the group come to at most twelve in an `unsigned int`. -/
def Low (group : Bytes) : Prop := UInt32.ofNat (digitSum group) ≤ 12

instance (group : Bytes) : Decidable (Low group) :=
  inferInstanceAs (Decidable (UInt32.ofNat (digitSum group) ≤ 12))

theorem groups_nil : groups [] = [[]] := rfl

theorem groups_ne_nil (s : Bytes) : groups s ≠ [] := List.splitOnP_ne_nil _ s

theorem groups_dot (s : Bytes) : groups (ascii '.' :: s) = [] :: groups s := by
  rw [groups, List.splitOnP_cons_eq_if_modifyHead, if_pos (by decide)]
  rfl

theorem groups_other {c : UInt8} (hc : c ≠ ascii '.') (s : Bytes) :
    ∃ group rest, groups s = group :: rest ∧ groups (c :: s) = (c :: group) :: rest := by
  obtain ⟨group, rest, hgroups⟩ := List.exists_cons_of_ne_nil (groups_ne_nil s)
  refine ⟨group, rest, hgroups, ?_⟩
  rw [groups] at hgroups
  rw [groups, List.splitOnP_cons_eq_if_modifyHead, if_neg (by simpa using hc), hgroups]
  rfl

theorem length_groups (s : Bytes) :
    ((groups s).map List.length).sum + (groups s).length = s.length + 1 := by
  induction s with
  | nil => rfl
  | cons c s ih =>
      by_cases hc : c = ascii '.'
      · rw [hc, groups_dot, List.map_cons, List.sum_cons, List.length_cons, List.length_cons,
          List.length_nil]
        omega
      · obtain ⟨group, rest, hgroups, hmore⟩ := groups_other hc s
        rw [hgroups] at ih
        rw [hmore]
        simp only [List.map_cons, List.sum_cons, List.length_cons] at ih ⊢
        omega

end Groups

section Loop

variable {str done rest : Bytes} {i j k : UInt32}

/-- What the loop leaves with for the rest of a string. -/
def verdict : Bytes → UInt32 → UInt32 → Bool
  | [], _, k => k == 3
  | c :: rest, j, k =>
      if isDecimal c then verdict rest (j + UInt32.ofNat (digitValue c)) k
      else if c = ascii '.' then if 12 < j then false else verdict rest 0 (k + 1)
      else false

theorem ipv4Turn_end (hlong : done.length < 2 ^ 32) :
    ipv4Turn done (UInt32.ofNat done.length, j, k) = .ok (.leave (k == 3)) := by
  have hindex : (UInt32.ofNat done.length).toNat = done.length := UInt32.toNat_ofNat_of_lt' hlong
  rw [ipv4Turn]
  simp [hindex]

theorem ipv4_run (htext : (0 : UInt8) ∉ rest) (hlong : (done ++ rest).length < 2 ^ 32) {fuel : Nat}
    (hfuel : rest.length < fuel) :
    run (ipv4Turn (done ++ rest)) fuel (UInt32.ofNat done.length, j, k) = .ok (verdict rest j k) := by
  induction rest generalizing done j k fuel with
  | nil =>
      obtain ⟨fuel, rfl⟩ := Nat.exists_eq_succ_of_ne_zero (by omega : fuel ≠ 0)
      rw [List.append_nil] at hlong ⊢
      exact run_succ_leave fuel (ipv4Turn_end hlong)
  | cons c rest ih =>
      obtain ⟨fuel, rfl⟩ := Nat.exists_eq_succ_of_ne_zero (by omega : fuel ≠ 0)
      rw [List.length_cons, Nat.add_lt_add_iff_right] at hfuel
      have hc : c ≠ 0 := fun heq => htext (by simp [heq])
      have hdone : done.length < 2 ^ 32 := by
        rw [List.length_append] at hlong
        omega
      have hindex : (UInt32.ofNat done.length).toNat = done.length := UInt32.toNat_ofNat_of_lt' hdone
      have hget : (done ++ c :: rest).getD (UInt32.ofNat done.length).toNat 0 = c := by
        simp [hindex]
      have hnext : UInt32.ofNat done.length + 1 = UInt32.ofNat (done ++ [c]).length := by
        simp
      have hsplit : done ++ c :: rest = done ++ [c] ++ rest := by simp
      have hmore : ∀ j k, run (ipv4Turn (done ++ c :: rest)) fuel
          (UInt32.ofNat (done ++ [c]).length, j, k) = .ok (verdict rest j k) := by
        intro j k
        rw [hsplit]
        exact ih (fun h => htext (List.mem_cons_of_mem c h)) (hsplit ▸ hlong) hfuel
      rw [verdict]
      by_cases hdigit : isDecimal c = true
      · rw [if_pos hdigit, ← hmore]
        apply run_succ_again
        simp only [ipv4Turn, hget, if_neg hc, if_pos hdigit, hnext]
      · rw [if_neg hdigit]
        by_cases hdot : c = ascii '.'
        · rw [if_pos hdot]
          by_cases hsum : 12 < j
          · rw [if_pos hsum]
            apply run_succ_leave
            simp only [ipv4Turn, hget, if_neg hc, if_neg hdigit, if_pos hdot, if_pos hsum]
          · rw [if_neg hsum, ← hmore]
            apply run_succ_again
            simp only [ipv4Turn, hget, if_neg hc, if_neg hdigit, if_pos hdot, if_neg hsum, hnext]
        · rw [if_neg hdot]
          apply run_succ_leave
          simp only [ipv4Turn, hget, if_neg hc, if_neg hdigit, if_neg hdot]

theorem ipv4_long (htext : (0 : UInt8) ∉ str) (hlong : 2 ^ 32 ≤ str.length) {fuel : Nat} {r : Bool}
    (hrun : isValidIpv4Str fuel str = .ok r) : r = false := by
  refine run_partial (fun _ => True) (fun r => r = false) (fun _ _ _ _ => trivial) ?_ trivial hrun
  rintro ⟨i, j, k⟩ r - hleave
  have hi : i.toNat < str.length := i.toNat_lt.trans_le hlong
  have hc : str.getD i.toNat 0 ≠ 0 := by
    have hget : str.getD i.toNat 0 = str[i.toNat] := by simp [hi]
    exact fun heq => htext (heq ▸ hget ▸ List.getElem_mem hi)
  simp only [ipv4Turn, if_neg hc] at hleave
  split at hleave
  · simp at hleave
  · split at hleave
    · split at hleave
      · exact (Turn.leave.inj (Except.ok.inj hleave)).symm
      · simp at hleave
    · exact (Turn.leave.inj (Except.ok.inj hleave)).symm

/-- The sums of the groups, the first on top of what is there already. -/
def sums (j : UInt32) : List Bytes → List UInt32
  | [] => []
  | group :: rest => (j + UInt32.ofNat (digitSum group)) :: rest.map fun g => UInt32.ofNat (digitSum g)

theorem sums_zero (gs : List Bytes) : sums 0 gs = gs.map fun g => UInt32.ofNat (digitSum g) := by
  cases gs with
  | nil => rfl
  | cons group rest => simp [sums]

theorem sums_dot (j : UInt32) (gs : List Bytes) : sums j ([] :: gs) = j :: sums 0 gs := by
  rw [sums, sums_zero]
  simp [digitSum]

theorem sums_digit (j : UInt32) (c : UInt8) (group : Bytes) (rest : List Bytes) :
    sums j ((c :: group) :: rest) = sums (j + UInt32.ofNat (digitValue c)) (group :: rest) := by
  rw [sums, sums, digitSum, List.map_cons, List.sum_cons, UInt32.ofNat_add, ← UInt32.add_assoc]
  rfl

theorem sums_ne_nil (j : UInt32) {gs : List Bytes} (h : gs ≠ []) : sums j gs ≠ [] := by
  obtain ⟨group, rest, rfl⟩ := List.exists_cons_of_ne_nil h
  simp [sums]

/-- Only what a dot ends is summed up, and the dots are counted. -/
theorem verdict_iff (s : Bytes) (j k : UInt32) :
    verdict s j k = true ↔ (∀ group ∈ groups s, ∀ c ∈ group, isDecimal c = true) ∧
      (∀ n ∈ (sums j (groups s)).dropLast, n ≤ 12) ∧ k + UInt32.ofNat (groups s).length = 4 := by
  induction s generalizing j k with
  | nil =>
      have hcount : k + 1 = 4 ↔ k = 3 := by grind
      simp [verdict, groups_nil, sums, hcount]
  | cons c s ih =>
      rw [verdict]
      by_cases hdot : c = ascii '.'
      · subst hdot
        have hsums := sums_ne_nil 0 (groups_ne_nil s)
        have hcount : k + UInt32.ofNat ((groups s).length + 1) =
            k + 1 + UInt32.ofNat (groups s).length := by
          rw [UInt32.ofNat_add, UInt32.add_comm (UInt32.ofNat _), ← UInt32.add_assoc]
          rfl
        rw [if_neg (by decide), if_pos rfl, groups_dot, sums_dot,
          List.dropLast_cons_of_ne_nil hsums, List.forall_mem_cons, List.forall_mem_cons,
          List.length_cons, hcount]
        by_cases hsum : 12 < j
        · simp [hsum, UInt32.not_le.mpr hsum]
        · rw [if_neg hsum, ih]
          simp [UInt32.not_lt.mp hsum]
      · obtain ⟨group, rest, hgroups, hmore⟩ := groups_other hdot s
        rw [if_neg hdot, hmore]
        by_cases hdigit : isDecimal c = true
        · rw [if_pos hdigit, ih, hgroups, sums_digit]
          simp [hdigit]
        · rw [if_neg hdigit]
          simp [hdigit]

end Loop

section Results

variable {s : Bytes}

/-- The call comes out with what is not zero. -/
def Recognised (s : Bytes) : Prop := ∃ fuel, isValidIpv4Str fuel s = .ok true

theorem isValidIpv4Str_returns (htext : (0 : UInt8) ∉ s) (hlong : s.length < 2 ^ 32) :
    isValidIpv4Str (s.length + 1) s = .ok (verdict s 0 0) :=
  @ipv4_run [] s 0 0 htext hlong _ (Nat.lt_succ_self _)

theorem recognised_iff_groups (htext : (0 : UInt8) ∉ s) :
    Recognised s ↔ s.length < 2 ^ 32 ∧ (groups s).length = 4 ∧
      (∀ group ∈ groups s, ∀ c ∈ group, isDecimal c = true) ∧
      ∀ group ∈ (groups s).dropLast, Low group := by
  by_cases hlong : s.length < 2 ^ 32
  · have hcall := isValidIpv4Str_returns htext hlong
    have hverdict : Recognised s ↔ verdict s 0 0 = true := by
      constructor
      · rintro ⟨fuel, hrun⟩
        have hmore := run_mono (Nat.le_max_left fuel (s.length + 1)) hrun
        have hmore' := run_mono (Nat.le_max_right fuel (s.length + 1)) hcall
        rw [hmore] at hmore'
        exact (Except.ok.inj hmore').symm
      · exact fun h => ⟨_, h ▸ hcall⟩
    have hcount : (0 : UInt32) + UInt32.ofNat (groups s).length = 4 ↔ (groups s).length = 4 := by
      have hlength := length_groups s
      have hfour : (4 : UInt32).toNat = 4 := rfl
      rw [UInt32.zero_add, ← UInt32.toNat_inj, UInt32.toNat_ofNat', hfour]
      omega
    rw [hverdict, verdict_iff, hcount, sums_zero, ← List.map_dropLast, List.forall_mem_map]
    tauto
  · refine iff_of_false ?_ fun h => hlong h.1
    rintro ⟨fuel, hrun⟩
    exact absurd (ipv4_long htext (Nat.not_lt.mp hlong) hrun) (by simp)

theorem digits_of_isOctet {group : Bytes} (h : IsOctet group) : ∀ c ∈ group, isDecimal c = true := by
  obtain ⟨-, n, hn, -⟩ := h
  rw [Option.mem_def, wholeNumber] at hn
  split at hn
  · rename_i hdigits
    exact List.all_eq_true.mp hdigits.2
  · simp at hn

theorem length_of_isIpv4 (h : IsIpv4 s) : s.length ≤ 15 := by
  obtain ⟨hfour, hoctets⟩ := h
  have hlength := length_groups s
  obtain ⟨a, b, c, d, hgroups⟩ := List.length_eq_four.mp hfour
  rw [hgroups] at hlength hoctets
  simp only [List.map_cons, List.map_nil, List.sum_cons, List.sum_nil, List.length_cons,
    List.length_nil] at hlength
  have ha := (hoctets a (by simp)).1
  have hb := (hoctets b (by simp)).1
  have hc := (hoctets c (by simp)).1
  have hd := (hoctets d (by simp)).1
  omega

/-- What decides whether a string of four groups of digits is judged right. -/
def JudgedRight (s : Bytes) : Prop :=
  (groups s).length = 4 → (∀ group ∈ groups s, ∀ c ∈ group, isDecimal c = true) →
    ((∀ group ∈ groups s, IsOctet group) ∧ ∀ group ∈ (groups s).dropLast, Low group) ∨
      (∃ group ∈ groups s, ¬ IsOctet group) ∧
        (2 ^ 32 ≤ s.length ∨ ∃ group ∈ (groups s).dropLast, ¬ Low group)

/-- The value of a group is never looked at, and the last group not at all. -/
theorem recognised_iff (htext : (0 : UInt8) ∉ s) : (Recognised s ↔ IsIpv4 s) ↔ JudgedRight s := by
  rw [recognised_iff_groups htext, JudgedRight]
  by_cases hfour : (groups s).length = 4
  · by_cases hdigits : ∀ group ∈ groups s, ∀ c ∈ group, isDecimal c = true
    · rw [forall_prop_of_true hfour, forall_prop_of_true hdigits]
      have hcode : (s.length < 2 ^ 32 ∧ (groups s).length = 4 ∧
          (∀ group ∈ groups s, ∀ c ∈ group, isDecimal c = true) ∧
          ∀ group ∈ (groups s).dropLast, Low group) ↔
            s.length < 2 ^ 32 ∧ ∀ group ∈ (groups s).dropLast, Low group :=
        ⟨fun h => ⟨h.1, h.2.2.2⟩, fun h => ⟨h.1, hfour, hdigits, h.2⟩⟩
      rw [hcode, IsIpv4, and_iff_right hfour]
      by_cases hoctets : ∀ group ∈ groups s, IsOctet group
      · have hlong := length_of_isIpv4 ⟨hfour, hoctets⟩
        have hshort : s.length < 2 ^ 32 := by omega
        have hnone : ¬ ∃ group ∈ groups s, ¬ IsOctet group := fun ⟨group, hgroup, hno⟩ =>
          hno (hoctets group hgroup)
        rw [iff_true_right hoctets, and_iff_right hshort, and_iff_right hoctets, or_iff_left]
        exact fun h => hnone h.1
      · have hsome : ∃ group ∈ groups s, ¬ IsOctet group := by simpa using hoctets
        rw [iff_false_right hoctets, and_iff_right hsome, or_iff_right fun h => hoctets h.1]
        simp only [not_and_or, Nat.not_lt, not_forall, exists_prop]
    · rw [forall_prop_of_true hfour, forall_prop_of_false hdigits, iff_true]
      exact iff_of_false (fun h => hdigits h.2.2.1)
        fun h => hdigits fun group hgroup => digits_of_isOctet (h.2 group hgroup)
  · rw [forall_prop_of_false hfour, iff_true]
    exact iff_of_false (fun h => hfour h.2.1) fun h => hfour h.1

theorem recognised_iff_at :
    (Recognised (text "127.0.0.1") ↔ IsIpv4 (text "127.0.0.1")) ↔ JudgedRight (text "127.0.0.1") :=
  recognised_iff (by decide)

theorem private_address_refused :
    IsIpv4 (text "192.168.0.1") ∧ ¬ Recognised (text "192.168.0.1") ∧
      ¬ IsIpv4 (text "1.1.1.999") ∧ Recognised (text "1.1.1.999") := by
  refine ⟨by decide, ?_, by decide, ⟨10, by decide⟩⟩
  rw [recognised_iff_groups (by decide)]
  decide +kernel

end Results

end Newth.Client.Ipv4
