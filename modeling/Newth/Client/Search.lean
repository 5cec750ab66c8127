import Newth.Client.Recvbufr

namespace Newth.Client.Search

open Newth.Library.ByteString
open Newth.Library.Call
open Newth.Platform.FindString
open Newth.Client.Recvbufr

section Find

variable {token : Bytes}

theorem not_behind {s : Bytes} (hfits : token.length ≤ s.length)
    (hhere : (s.map toupper).take token.length ≠ token.map toupper) :
    ¬ s.map toupper <+: token.map toupper := by
  intro hbehind
  have hsame : s.map toupper = token.map toupper := by
    apply hbehind.eq_of_length_le
    rwa [List.length_map, List.length_map]
  apply hhere
  rw [hsame, ← List.length_map (f := toupper), List.take_length]

theorem not_prefix_of_head {s : Bytes} {c : UInt8} (htoken : token ≠ [])
    (hfirst : ¬ toupper c = toupper (token.headD 0)) :
    ¬ token.map toupper <+: (c :: s).map toupper ∧
      ¬ (c :: s).map toupper <+: token.map toupper := by
  cases token with
  | nil => exact absurd rfl htoken
  | cons t token =>
      refine ⟨fun hpre => hfirst ?_, fun hpre => hfirst ?_⟩
      · exact (List.cons_prefix_cons.mp hpre).1.symm
      · exact (List.cons_prefix_cons.mp hpre).1

/-- From `k` on the data is the beginning of the token and stops before its end. -/
def BreaksOff (data token : Bytes) (k : Nat) : Prop :=
  k + 2 ≤ data.length ∧ data.length < k + token.length ∧
    (data.drop k).map toupper <+: token.map toupper

theorem breaksOff_succ_iff {c : UInt8} {s : Bytes} {k : Nat} :
    BreaksOff (c :: s) token (k + 1) ↔ BreaksOff s token k := by
  simp only [BreaksOff, List.length_cons, List.drop_succ_cons]
  constructor <;> rintro ⟨hlong, hshort, hpre⟩ <;> exact ⟨by omega, by omega, hpre⟩

/-- What the loop of `recvBufferFind` comes to: it stops behind the data where the
data breaks off in the token, and otherwise overlooks a match on the last byte
only. -/
def Scanned (len : Nat) (token : Bytes) (i : Nat) (s : Bytes) :
    Except Stop (Option Nat) → Prop
  | .ok (some r) =>
      ∃ o, r = i + o ∧ platformStringFindNeedleRaw s token = some o ∧ o + 2 ≤ s.length
  | .ok none =>
      (∀ o, platformStringFindNeedleRaw s token = some o → s.length < o + 2) ∧
        ∀ k, BreaksOff s token k → len < i + k + token.length
  | .error _ =>
      platformStringFindNeedleRaw s token = none ∧
        ∃ k, BreaksOff s token k ∧ i + k + token.length ≤ len

theorem Scanned.past {len i : Nat} {c : UInt8} {s : Bytes} {r : Except Stop (Option Nat)}
    (htoken : token ≠ []) (hpre : ¬ token.map toupper <+: (c :: s).map toupper)
    (hbehind : ¬ (c :: s).map toupper <+: token.map toupper)
    (h : Scanned len token (i + 1) s r) : Scanned len token i (c :: s) r := by
  have hneedle : platformStringFindNeedleRaw (c :: s) token =
      (platformStringFindNeedleRaw s token).map (· + 1) := by
    rw [needleRaw_cons htoken, if_neg hpre]
  rcases r with stop | r | r
  · obtain ⟨hnone, k, hbreak, hle⟩ := h
    refine ⟨by rw [hneedle, hnone]; rfl, k + 1, breaksOff_succ_iff.mpr hbreak, ?_⟩
    omega
  · obtain ⟨hlast, hbreaks⟩ := h
    refine ⟨fun o ho => ?_, fun k hbreak => ?_⟩
    · rw [hneedle] at ho
      obtain ⟨o', ho', rfl⟩ := Option.map_eq_some_iff.mp ho
      have hlast := hlast o' ho'
      rw [List.length_cons]
      omega
    · cases k with
      | zero => exact absurd hbreak.2.2 hbehind
      | succ k =>
          have hless := hbreaks k (breaksOff_succ_iff.mp hbreak)
          omega
  · obtain ⟨o, rfl, ho, hle⟩ := h
    refine ⟨o + 1, by omega, by rw [hneedle, ho]; rfl, ?_⟩
    rw [List.length_cons]
    omega

theorem findFrom_scanned {len : Nat} (htoken : token ≠ []) (i : Nat) (s : Bytes)
    (hlen : i + s.length ≤ len) : Scanned len token i s (findFrom len token i s) := by
  fun_induction findFrom len token i s with
  | case1 i c d rest hfirst hshort =>
      refine ⟨fun o ho => ?_, fun k hbreak => by omega⟩
      rw [needleRaw_of_short (by omega)] at ho
      exact absurd ho (by simp)
  | case2 i c d rest hfirst hfits hhere =>
      refine ⟨0, rfl, ?_, by simp⟩
      rw [needleRaw_cons htoken, if_pos]
      rw [← hhere]
      exact List.take_prefix _ _
  | case3 i c d rest hfirst hfits hhere hbehind =>
      have hshort : (c :: d :: rest).length < token.length := by
        by_contra hlong
        exact not_behind (Nat.not_lt.mp hlong) hhere hbehind
      refine ⟨needleRaw_of_short hshort, 0, ⟨by simp, by omega, hbehind⟩, by omega⟩
  | case4 i c d rest hfirst hfits hhere hbehind ih =>
      have hpre : ¬ token.map toupper <+: (c :: d :: rest).map toupper := by
        intro hpre
        apply hhere
        have htake := List.prefix_iff_eq_take.mp hpre
        rw [List.length_map] at htake
        exact htake.symm
      exact (ih (by simp only [List.length_cons] at hlen ⊢; omega)).past htoken hpre hbehind
  | case5 i c d rest hfirst ih =>
      obtain ⟨hpre, hbehind⟩ := not_prefix_of_head (s := d :: rest) htoken hfirst
      exact (ih (by simp only [List.length_cons] at hlen ⊢; omega)).past htoken hpre hbehind
  | case6 s i hend =>
      have hshort : s.length < 2 := by
        rcases s with _ | ⟨c, _ | ⟨d, rest⟩⟩
        · exact Nat.two_pos
        · exact Nat.one_lt_two
        · exact (hend c d rest rfl).elim
      refine ⟨fun o _ => by omega, fun k hbreak => ?_⟩
      have hlong := hbreak.1
      omega

theorem findFrom_eq {len : Nat} (htoken : 2 ≤ token.length) (i : Nat) (s : Bytes)
    (hlen : i + s.length = len) :
    findFrom len token i s = .ok ((platformStringFindNeedleRaw s token).map (i + ·)) := by
  have hne : token ≠ [] := List.ne_nil_of_length_pos (by omega)
  have hscanned := findFrom_scanned hne i s hlen.le
  rcases hresult : findFrom len token i s with stop | r | r
  · rw [hresult] at hscanned
    obtain ⟨-, k, ⟨-, hshort, -⟩, hle⟩ := hscanned
    omega
  · rw [hresult] at hscanned
    cases hfound : platformStringFindNeedleRaw s token with
    | none => rfl
    | some o =>
        have hlast := hscanned.1 o hfound
        have hbound := needleRaw_bound hne hfound
        omega
  · rw [hresult] at hscanned
    obtain ⟨o, rfl, ho, -⟩ := hscanned
    rw [ho]
    rfl

/-- A buffer that holds anything is searched for the first occurrence. -/
theorem recvBufferFind_eq {self : RecvBuffer} (htoken : 2 ≤ token.length) (hlen : 0 < self.len) :
    recvBufferFind self 0 token = .ok (platformStringFindNeedleRaw self.data token) := by
  have hsome : self.buffer.isNone = false := by
    cases hbuffer : self.buffer with
    | none => simp [RecvBuffer.len, RecvBuffer.data, hbuffer] at hlen
    | some data => rfl
  have hscan := findFrom_eq htoken 0 self.data (Nat.zero_add self.len)
  rw [recvBufferFind, if_neg (by simp [hsome]), if_neg (by omega), List.drop_zero, hscan, ok_bind,
    Option.map_map]
  have hsame : ((0 + ·) ∘ (0 + ·) : Nat → Nat) = id := by
    funext n
    simp
  rw [hsame, Option.map_id]
  rfl

end Find

section Prefixes

variable {page token : Bytes} {o : Nat}

theorem needleRaw_take (htoken : token ≠ [])
    (h : platformStringFindNeedleRaw page token = some o) (n : Nat) :
    platformStringFindNeedleRaw (page.take n) token =
      if o + token.length ≤ n then some o else none := by
  obtain ⟨hpre, hle, hfirst⟩ := (needleRaw_eq_some_iff htoken).mp h
  have hcut : ∀ j, ((page.take n).drop j).map toupper <+: (page.drop j).map toupper := by
    intro j
    rw [List.drop_take, List.map_take]
    exact List.take_prefix _ _
  split
  · rename_i hwhole
    rw [needleRaw_eq_some_iff htoken]
    refine ⟨?_, ?_, fun j hj hearly => hfirst j hj (hearly.trans (hcut j))⟩
    · apply List.prefix_of_prefix_length_le hpre (hcut o)
      simp only [List.length_map, List.length_drop, List.length_take]
      have hbound := needleRaw_bound htoken h
      omega
    · rw [List.length_take]
      have hpos := List.length_pos_of_ne_nil htoken
      omega
  · rename_i hpart
    cases hfound : platformStringFindNeedleRaw (page.take n) token with
    | none => rfl
    | some j =>
        have hbound := needleRaw_bound htoken hfound
        obtain ⟨hearly, -, -⟩ := (needleRaw_eq_some_iff htoken).mp hfound
        have hj : ¬ j < o := fun hj => hfirst j hj (hearly.trans (hcut j))
        rw [List.length_take] at hbound
        omega

theorem needleRaw_of_infix {s : Bytes} (htoken : token ≠ []) (hs : s <:+: page)
    (h : platformStringFindNeedleRaw page token = none) :
    platformStringFindNeedleRaw s token = none := by
  rw [needleRaw_eq_none_iff htoken] at h ⊢
  intro hwithin
  obtain ⟨pre, post, rfl⟩ := hs
  apply h
  apply hwithin.trans
  rw [List.map_append, List.map_append]
  exact List.infix_append _ _ _

end Prefixes

section Loops

variable {token : Bytes} {max : Nat} {self : RecvBuffer}

theorem fillTurn_enough {len : Nat} (hpos : 0 < len) (hlen : len ≤ self.len) :
    fillTurn len self = .ok (.leave (self, none)) := by
  have hsome : self.buffer.isNone = false := by
    cases hbuffer : self.buffer with
    | none => simp [RecvBuffer.len, RecvBuffer.data, hbuffer] at hlen; omega
    | some data => rfl
  rw [fillTurn, if_neg]
  simp only [hsome, Bool.false_eq_true, false_or]
  omega

theorem recvBufferFindAndFetch_complete (h : self.length = .complete) (htoken : 2 ≤ token.length) :
    ∃ e, recvBufferFindAndFetch self token max = .ok (self, e) := by
  rw [recvBufferFindAndFetch]
  split
  · exact ⟨_, rfl⟩
  · by_cases hlen : token.length < self.len
    · have hfill := fillTurn_enough (show 0 < token.length by omega) hlen.le
      rw [patience, run_succ_leave _ hfill, ok_bind]
      simp only [Option.isSome_none, Bool.false_eq_true, if_false]
      rw [if_neg (by omega), ok_bind]
      simp only [Option.isSome_none, Bool.false_eq_true, if_false]
      cases hfind : platformStringFindNeedleRaw self.data token with
      | some o =>
          refine ⟨none, run_succ_leave _ ?_⟩
          rw [fetchTurn, recvBufferFind_eq htoken (by omega), hfind]
          rfl
      | none =>
          refine ⟨some .requestCompleted, run_succ_leave _ ?_⟩
          rw [fetchTurn, recvBufferFind_eq htoken (by omega), hfind, ok_bind]
          simp only [recvBufferAppend_complete h, ok_bind]
          rfl
    · by_cases hfull : token.length ≤ self.len
      · have hfill := fillTurn_enough (show 0 < token.length by omega) hfull
        rw [patience, run_succ_leave _ hfill, ok_bind]
        simp only [Option.isSome_none, Bool.false_eq_true, if_false]
        rw [if_pos (by omega), recvBufferAppend_complete h, ok_bind]
        exact ⟨_, rfl⟩
      · have hfill : fillTurn token.length self = .ok (.leave (self, some .requestCompleted)) := by
          rw [fillTurn, if_pos (.inr (by omega)), recvBufferAppend_complete h]
          rfl
        rw [patience, run_succ_leave _ hfill, ok_bind]
        exact ⟨_, rfl⟩

end Loops

end Newth.Client.Search
