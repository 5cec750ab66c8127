import Newth.Library.Call

namespace Newth.Library.Runs

open Newth.Library.Call

section Run

variable {σ ε : Type*} (step : σ → ε → Except Stop σ) (allowed : σ → ε → Prop)

/-- The states a system passes through while it takes allowed events one by one. -/
inductive Run : σ → σ → Prop where
  | refl (s : σ) : Run s s
  | tail {s t u : σ} {e : ε} (before : Run s t) (happens : allowed t e)
      (moves : step t e = .ok u) : Run s u

/-- Take the events one by one as long as they are allowed and come back. -/
def follow [∀ s e, Decidable (allowed s e)] : σ → List ε → Option σ
  | s, [] => some s
  | s, e :: events =>
      if allowed s e then
        match step s e with
        | .ok t => follow t events
        | .error _ => none
      else none

variable {step allowed}

/-- What holds at first and survives every allowed event holds throughout a run. -/
theorem run_invariant (invariant : σ → Prop)
    (hstep : ∀ s e t, invariant s → allowed s e → step s e = .ok t → invariant t)
    {s t : σ} (hrun : Run step allowed s t) (hs : invariant s) : invariant t := by
  induction hrun with
  | refl => exact hs
  | tail before happens moves ih => exact hstep _ _ _ ih happens moves

theorem run_mono {allowed' : σ → ε → Prop} (h : ∀ s e, allowed s e → allowed' s e) {s t : σ}
    (hrun : Run step allowed s t) : Run step allowed' s t := by
  induction hrun with
  | refl => exact .refl _
  | tail before happens moves ih => exact .tail ih (h _ _ happens) moves

theorem run_cons {s t u : σ} {e : ε} (happens : allowed s e) (moves : step s e = .ok t)
    (after : Run step allowed t u) : Run step allowed s u := by
  induction after with
  | refl => exact .tail (.refl s) happens moves
  | tail before happens' moves' ih => exact .tail ih happens' moves'

theorem run_of_follow [∀ s e, Decidable (allowed s e)] {events : List ε} {s t : σ}
    (h : follow step allowed s events = some t) : Run step allowed s t := by
  induction events generalizing s with
  | nil =>
      obtain rfl : s = t := by simpa [follow] using h
      exact .refl s
  | cons e events ih =>
      rw [follow] at h
      split at h
      · rename_i happens
        split at h
        · rename_i s' moves
          exact run_cons happens moves (ih h)
        · simp at h
      · simp at h

theorem run_trans {s t u : σ} (before : Run step allowed s t) (after : Run step allowed t u) :
    Run step allowed s u := by
  induction after with
  | refl => exact before
  | tail _ happens moves ih => exact .tail ih happens moves

theorem follow_one [∀ s e, Decidable (allowed s e)] {s t : σ} {e : ε} (happens : allowed s e)
    (moves : step s e = .ok t) : follow step allowed s [e] = some t := by
  rw [follow, if_pos happens, moves]
  rfl

theorem follow_append [∀ s e, Decidable (allowed s e)] {events later : List ε} {s t u : σ}
    (h : follow step allowed s events = some t) (h' : follow step allowed t later = some u) :
    follow step allowed s (events ++ later) = some u := by
  induction events generalizing s with
  | nil =>
      obtain rfl : s = t := by simpa [follow] using h
      exact h'
  | cons e events ih =>
      rw [follow] at h
      rw [List.cons_append, follow]
      split at h
      · rename_i happens
        rw [if_pos happens]
        split at h
        · rename_i s' moves
          exact ih h
        · simp at h
      · simp at h

/-- A system that counts down whenever a useful event happens has nothing left to count after
so many of them. -/
theorem follow_countdown [∀ s e, Decidable (allowed s e)] (left : Nat → σ → Prop)
    (useful : ε → Bool)
    (hkeep : ∀ n s e t, left n s → allowed s e → step s e = .ok t → left n t)
    (hcount : ∀ n s e t, left (n + 1) s → useful e → allowed s e → step s e = .ok t → left n t)
    {events : List ε} {s t : σ} {n : Nat} (hrun : follow step allowed s events = some t)
    (hs : left n s) (hmany : n ≤ events.countP useful) : left 0 t := by
  induction events generalizing s n with
  | nil =>
      obtain rfl : s = t := by simpa [follow] using hrun
      obtain rfl : n = 0 := by simpa using hmany
      exact hs
  | cons e events ih =>
      rw [follow] at hrun
      split at hrun
      · rename_i happens
        split at hrun
        · rename_i s' moves
          cases n with
          | zero => exact ih hrun (hkeep 0 s e s' hs happens moves) (Nat.zero_le _)
          | succ n =>
              rw [List.countP_cons] at hmany
              by_cases huseful : useful e = true
              · rw [if_pos huseful] at hmany
                exact ih hrun (hcount n s e s' hs huseful happens moves) (by omega)
              · rw [if_neg huseful] at hmany
                exact ih hrun (hkeep (n + 1) s e s' hs happens moves) (by omega)
        · simp at hrun
      · simp at hrun

/-- A system that answers every event of another one with some of its own, and is alike
afterwards, answers a whole run. -/
theorem follow_answered {τ ε' : Type*} {step' : τ → ε' → Except Stop τ} {allowed' : τ → ε' → Prop}
    [∀ s e, Decidable (allowed s e)] [∀ t e, Decidable (allowed' t e)] (alike : σ → τ → Prop)
    (answers : List ε → List ε' → Prop) (hnil : answers [] [])
    (hstep : ∀ s e s' t, alike s t → allowed s e → step s e = .ok s' →
      ∃ own t', follow step' allowed' t own = some t' ∧ alike s' t' ∧
        ∀ events later, answers events later → answers (e :: events) (own ++ later))
    {events : List ε} {s s' : σ} {t : τ} (hrun : follow step allowed s events = some s')
    (h : alike s t) :
    ∃ own t', answers events own ∧ follow step' allowed' t own = some t' ∧ alike s' t' := by
  induction events generalizing s t with
  | nil =>
      obtain rfl : s = s' := by simpa [follow] using hrun
      exact ⟨[], t, hnil, rfl, h⟩
  | cons e events ih =>
      rw [follow] at hrun
      split at hrun
      · rename_i happens
        split at hrun
        · rename_i next moves
          obtain ⟨own, mid, hown, hmid, hanswers⟩ := hstep s e next t h happens moves
          obtain ⟨later, t', hlater, hrun', halike⟩ := ih hrun hmid
          exact ⟨own ++ later, t', hanswers events later hlater, follow_append hown hrun', halike⟩
        · simp at hrun
      · simp at hrun

end Run

end Newth.Library.Runs
