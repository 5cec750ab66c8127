import Newth.Client.Search

namespace Newth.Client.BufferFind

open Newth.Library.ByteString
open Newth.Library.Call
open Newth.Platform.FindString
open Newth.Client.Recvbufr
open Newth.Client.Search

variable {data token : Bytes} {pos i : Nat}

/-- The token stands at index `i` of the data, whatever the case of its letters. -/
def StandsAt (data token : Bytes) (i : Nat) : Prop :=
  i + token.length ≤ data.length ∧
    ((data.drop i).take token.length).map toupper = token.map toupper

/-- `r` is the least index from `pos` on where the token stands, if there is one. -/
def FirstFrom (data token : Bytes) (pos : Nat) : Option Nat → Prop
  | some i => pos ≤ i ∧ StandsAt data token i ∧ ∀ j, pos ≤ j → j < i → ¬ StandsAt data token j
  | none => ∀ j, pos ≤ j → ¬ StandsAt data token j

theorem standsAt_iff :
    StandsAt data token i ↔
      token.map toupper <+: (data.drop i).map toupper ∧ i + token.length ≤ data.length := by
  rw [StandsAt, List.prefix_iff_eq_take, List.length_map, ← List.map_take, and_comm, eq_comm]

theorem needleRaw_drop_eq_some_iff (htoken : token ≠ []) (hpos : pos ≤ data.length) {o : Nat} :
    platformStringFindNeedleRaw (data.drop pos) token = some o ↔
      FirstFrom data token pos (some (pos + o)) := by
  rw [needleRaw_eq_some_iff htoken, FirstFrom, List.drop_drop, List.length_drop]
  constructor
  · rintro ⟨hpre, hle, hfirst⟩
    have hbound := hpre.length_le
    rw [List.length_map, List.length_map, List.length_drop] at hbound
    have hlength := List.length_pos_of_ne_nil htoken
    refine ⟨Nat.le_add_right _ _, standsAt_iff.mpr ⟨hpre, by omega⟩, fun j hj hearly hstands => ?_⟩
    obtain ⟨k, rfl⟩ := Nat.exists_eq_add_of_le hj
    apply hfirst k (by omega)
    rw [List.drop_drop]
    exact (standsAt_iff.mp hstands).1
  · rintro ⟨-, hstands, hfirst⟩
    obtain ⟨hpre, hbound⟩ := standsAt_iff.mp hstands
    refine ⟨hpre, by omega, fun j hj hearly => ?_⟩
    rw [List.drop_drop] at hearly
    refine hfirst (pos + j) (Nat.le_add_right _ _) (by omega) (standsAt_iff.mpr ⟨hearly, ?_⟩)
    omega

theorem needleRaw_drop_eq_none_iff (htoken : token ≠ []) (hpos : pos ≤ data.length) :
    platformStringFindNeedleRaw (data.drop pos) token = none ↔ FirstFrom data token pos none := by
  constructor
  · intro hnone j hj hstands
    obtain ⟨k, rfl⟩ := Nat.exists_eq_add_of_le hj
    obtain ⟨hpre, hbound⟩ := standsAt_iff.mp hstands
    rw [← List.drop_drop] at hpre
    refine (needleRaw_eq_none_iff htoken).mp hnone ?_
    refine hpre.isInfix.trans (List.IsSuffix.isInfix ?_)
    rw [List.map_drop]
    exact List.drop_suffix _ _
  · intro hnone
    cases hfound : platformStringFindNeedleRaw (data.drop pos) token with
    | none => rfl
    | some o =>
        obtain ⟨hle, hstands, -⟩ := (needleRaw_drop_eq_some_iff htoken hpos).mp hfound
        exact absurd hstands (hnone _ hle)

theorem breaksOff_drop_iff (hpos : pos ≤ data.length) {k : Nat} :
    BreaksOff (data.drop pos) token k ↔ BreaksOff data token (pos + k) := by
  rw [BreaksOff, BreaksOff, List.drop_drop, List.length_drop]
  constructor <;> rintro ⟨hlong, hshort, hpre⟩ <;> exact ⟨by omega, by omega, hpre⟩

/-- The searches from `pos` that read no byte behind the data and do not overlook
its last byte. -/
structure Searchable (data token : Bytes) (pos : Nat) : Prop where
  inside : pos < data.length
  last : token.length = 1 → StandsAt data token (data.length - 1) →
    ∃ i, pos ≤ i ∧ i + 1 < data.length ∧ StandsAt data token i
  ends : ∀ i, pos ≤ i → BreaksOff data token i → i - pos + token.length ≤ data.length →
    ∃ j, pos ≤ j ∧ StandsAt data token j

theorem recvBufferFind_inside {self : RecvBuffer} (hpos : pos < self.len) :
    recvBufferFind self pos token =
      (findFrom self.len token 0 (self.data.drop pos)).map (Option.map (pos + ·)) := by
  have hsome : self.buffer.isNone = false := by
    cases hbuffer : self.buffer with
    | none => simp [RecvBuffer.len, RecvBuffer.data, hbuffer] at hpos
    | some data => rfl
  rw [recvBufferFind, if_neg (by simp [hsome]; omega), if_neg (by omega)]
  rfl

theorem searchable_iff_inside {self : RecvBuffer} (htoken : token ≠ []) (hpos : pos < self.len) :
    (∃ r, recvBufferFind self pos token = .ok r ∧ FirstFrom self.data token pos r) ↔
      Searchable self.data token pos := by
  have hlength := List.length_pos_of_ne_nil htoken
  have hle : pos ≤ self.data.length := hpos.le
  have hinside : pos < self.data.length := hpos
  have hscanned : Scanned self.len token 0 (self.data.drop pos)
      (findFrom self.len token 0 (self.data.drop pos)) :=
    findFrom_scanned htoken 0 _ (by simp [RecvBuffer.len])
  rw [recvBufferFind_inside hpos]
  rcases hresult : findFrom self.len token 0 (self.data.drop pos) with stop | r | r
  · rw [hresult] at hscanned
    obtain ⟨hnone, k, hbreak, hfits⟩ := hscanned
    rw [needleRaw_drop_eq_none_iff htoken hle] at hnone
    rw [breaksOff_drop_iff hle] at hbreak
    constructor
    · rintro ⟨_, hok, _⟩
      simp [Except.map] at hok
    intro hsearch
    obtain ⟨j, hj, hstands⟩ :=
      hsearch.ends (pos + k) (Nat.le_add_right _ _) hbreak (by rw [RecvBuffer.len] at hfits; omega)
    exact absurd hstands (hnone j hj)
  · rw [hresult] at hscanned
    obtain ⟨hlast, hbreaks⟩ := hscanned
    constructor
    · rintro ⟨r, hok, hfirst⟩
      obtain rfl : none = r := by simpa [Except.map] using hok
      refine ⟨hinside, fun _ hstands => ?_, fun i hi hbreak hfits => ?_⟩
      · exact absurd hstands (hfirst _ (by omega))
      · obtain ⟨k, rfl⟩ := Nat.exists_eq_add_of_le hi
        have hless := hbreaks k ((breaksOff_drop_iff hle).mpr hbreak)
        rw [RecvBuffer.len] at hless
        omega
    · intro hsearch
      refine ⟨none, rfl, (needleRaw_drop_eq_none_iff htoken hle).mp ?_⟩
      -- a match that the loop leaves out is one byte at the very end
      cases hfound : platformStringFindNeedleRaw (self.data.drop pos) token with
      | none => rfl
      | some o =>
          have hend := hlast o hfound
          rw [List.length_drop] at hend
          obtain ⟨-, hstands, hfirst⟩ := (needleRaw_drop_eq_some_iff htoken hle).mp hfound
          have hbound := hstands.1
          have hat : pos + o = self.data.length - 1 := by omega
          rw [hat] at hstands
          obtain ⟨i, hi, hearly, hat'⟩ := hsearch.last (by omega) hstands
          exact absurd hat' (hfirst i hi (by omega))
  · rw [hresult] at hscanned
    obtain ⟨o, rfl, hfound, hearly⟩ := hscanned
    rw [List.length_drop] at hearly
    have hfirst := (needleRaw_drop_eq_some_iff htoken hle).mp hfound
    constructor
    · intro _
      refine ⟨hinside, fun _ _ => ?_, fun _ _ _ _ => ?_⟩
      · exact ⟨pos + o, hfirst.1, by omega, hfirst.2.1⟩
      · exact ⟨pos + o, hfirst.1, hfirst.2.1⟩
    · intro _
      refine ⟨some (pos + o), ?_, hfirst⟩
      simp [Except.map]

/-- A search comes back with the first index where the token stands, and stays in
the data, exactly for a missing buffer and for the searches above. -/
theorem recvBufferFind_exact_iff (self : RecvBuffer) (pos : Nat) (token : Bytes)
    (hpos : pos ≤ self.len) (htoken : token ≠ []) :
    (∃ r, recvBufferFind self pos token = .ok r ∧ FirstFrom self.data token pos r) ↔
      self.buffer = none ∨ Searchable self.data token pos := by
  have hlength := List.length_pos_of_ne_nil htoken
  cases hbuffer : self.buffer with
  | none =>
      refine iff_of_true ⟨none, ?_, fun j hj hstands => ?_⟩ (.inl rfl)
      · rw [recvBufferFind, if_pos (.inl (by simp [hbuffer]))]
      · have hbound := hstands.1
        simp only [RecvBuffer.data, hbuffer, Option.getD_none, List.length_nil] at hbound
        omega
  | some data =>
      simp only [reduceCtorEq, false_or]
      rcases Nat.lt_or_eq_of_le hpos with hinside | hend
      · exact searchable_iff_inside htoken hinside
      · refine iff_of_false ?_ (fun hsearch => absurd hsearch.inside ?_)
        · rintro ⟨r, hok, -⟩
          rw [recvBufferFind, if_neg (by simp [hbuffer, hend]), if_pos hend.symm] at hok
          exact absurd hok (by simp)
        · rw [hend, RecvBuffer.len]
          exact lt_irrefl _

theorem recvBufferFind_exact_hello :
    (∃ r, recvBufferFind ⟨some (text "hello"), .unknown 0 8192, ⟨[], [], .idle⟩⟩ 0 (text "EL") =
        .ok r ∧ FirstFrom (text "hello") (text "EL") 0 r) ↔
      some (text "hello") = none ∨ Searchable (text "hello") (text "EL") 0 :=
  recvBufferFind_exact_iff ⟨some (text "hello"), .unknown 0 8192, ⟨[], [], .idle⟩⟩ 0 (text "EL")
    (by decide) (by decide)

/-- A token of one byte is not found on the last byte of the data. -/
theorem recvBufferFind_misses_last :
    ¬ ∃ r, recvBufferFind ⟨some (text "AB"), .unknown 0 8192, ⟨[], [], .idle⟩⟩ 0 (text "B") =
        .ok r ∧ FirstFrom (text "AB") (text "B") 0 r := by
  rintro ⟨r, hfind, hfirst⟩
  obtain rfl : none = r := by
    have hnone : recvBufferFind ⟨some (text "AB"), .unknown 0 8192, ⟨[], [], .idle⟩⟩ 0 (text "B") =
        .ok none := by decide
    simpa [hnone] using hfind
  exact hfirst 1 (Nat.zero_le _) (by unfold StandsAt; decide)

end Newth.Client.BufferFind
