import Mathlib.Algebra.Group.Int.Defs
import Mathlib.Algebra.Group.Nat.Defs
import Mathlib.Algebra.GroupWithZero.Nat
import Mathlib.Data.List.Infix
import Mathlib.Logic.Relation
import Mathlib.Tactic.Common

namespace Newth.Library.Call

/-- Why a call does not come back with a value: it touches memory outside the
object it was given, it waits for something that never happens, or it goes round
a loop for ever. -/
inductive Stop where
  | outOfBounds
  | blocked
  | endless
  deriving DecidableEq, Repr

section Sequencing

variable {ε α β : Type}

@[simp]
theorem ok_bind (a : α) (f : α → Except ε β) : (Except.ok a >>= f) = f a := rfl

@[simp]
theorem error_bind (e : ε) (f : α → Except ε β) : (Except.error e >>= f) = .error e := rfl

theorem bind_eq_ok_iff {x : Except ε α} {f : α → Except ε β} {b : β} :
    (x >>= f) = .ok b ↔ ∃ a, x = .ok a ∧ f a = .ok b := by
  cases x with
  | error e => simp
  | ok a => simp

theorem map_eq_ok_iff {x : Except ε α} {f : α → β} {b : β} :
    x.map f = .ok b ↔ ∃ a, x = .ok a ∧ f a = b := by
  cases x with
  | error e => simp [Except.map]
  | ok a => simp [Except.map]

theorem toOption_eq_some_iff {x : Except ε α} {a : α} : x.toOption = some a ↔ x = .ok a := by
  cases x with
  | error e => simp [Except.toOption]
  | ok a => simp [Except.toOption]

theorem mem_of_mapM_eq_ok {f : α → Except ε β} {xs : List α} {ys : List β}
    (h : xs.mapM f = .ok ys) {y : β} (hy : y ∈ ys) : ∃ x ∈ xs, f x = .ok y := by
  induction xs generalizing ys with
  | nil =>
      obtain rfl : [] = ys := by simpa [pure, Except.pure] using h
      simp at hy
  | cons x xs ih =>
      rw [List.mapM_cons, bind_eq_ok_iff] at h
      obtain ⟨y', hy', h⟩ := h
      obtain ⟨ys', hys', h⟩ := bind_eq_ok_iff.mp h
      obtain rfl : y' :: ys' = ys := by simpa [pure, Except.pure] using h
      rcases List.mem_cons.mp hy with rfl | hy
      · exact ⟨x, by simp, hy'⟩
      · obtain ⟨x', hx', hfx'⟩ := ih hys' hy
        exact ⟨x', by simp [hx'], hfx'⟩

theorem exists_mapM_eq_ok {f g : α → Except ε β} {xs : List α}
    (h : ∀ x ∈ xs, ∃ y, f x = .ok y ∧ g x = .ok y) :
    ∃ ys, xs.mapM f = .ok ys ∧ xs.mapM g = .ok ys := by
  induction xs with
  | nil => exact ⟨[], rfl, rfl⟩
  | cons x xs ih =>
      obtain ⟨⟨y, hf, hg⟩, hrest⟩ := List.forall_mem_cons.mp h
      obtain ⟨ys, hfs, hgs⟩ := ih hrest
      refine ⟨y :: ys, ?_, ?_⟩
      · rw [List.mapM_cons, hf, ok_bind, hfs]
        rfl
      · rw [List.mapM_cons, hg, ok_bind, hgs]
        rfl

theorem eq_map_of_mapM_eq_ok {f : α → Except ε β} {g : α → β} {xs : List α} {ys : List β}
    (h : xs.mapM f = .ok ys) (hf : ∀ x ∈ xs, ∀ y, f x = .ok y → y = g x) : ys = xs.map g := by
  induction xs generalizing ys with
  | nil =>
      obtain rfl : [] = ys := by simpa [pure, Except.pure] using h
      rfl
  | cons x xs ih =>
      rw [List.mapM_cons, bind_eq_ok_iff] at h
      obtain ⟨y, hy, h⟩ := h
      obtain ⟨ys', hys', h⟩ := bind_eq_ok_iff.mp h
      obtain rfl : y :: ys' = ys := by simpa [pure, Except.pure] using h
      have hhead := hf x List.mem_cons_self y hy
      have htail := ih hys' fun x' hx' => hf x' (List.mem_cons_of_mem x hx')
      rw [List.map_cons, hhead, htail]

end Sequencing

/-- One turn of a loop: round again from a new state, or out with a result. -/
inductive Turn (σ ρ : Type*) where
  | again (s : σ)
  | leave (r : ρ)

/-- Run a loop body at most `fuel` times. -/
def run {σ ρ : Type*} (body : σ → Except Stop (Turn σ ρ)) : Nat → σ → Except Stop ρ
  | 0, _ => .error .endless
  | fuel + 1, s =>
      match body s with
      | .error stop => .error stop
      | .ok (.leave r) => .ok r
      | .ok (.again s') => run body fuel s'

section Rules

variable {σ ρ : Type*} {body : σ → Except Stop (Turn σ ρ)}

theorem run_succ_leave {s : σ} {r : ρ} (fuel : Nat) (h : body s = .ok (.leave r)) :
    run body (fuel + 1) s = .ok r := by
  simp only [run, h]

theorem run_succ_again {s s' : σ} (fuel : Nat) (h : body s = .ok (.again s')) :
    run body (fuel + 1) s = run body fuel s' := by
  simp only [run, h]

theorem run_succ_error {s : σ} {stop : Stop} (fuel : Nat) (h : body s = .error stop) :
    run body (fuel + 1) s = .error stop := by
  simp only [run, h]

theorem run_eq_ok {s : σ} {r : ρ} {fuel : Nat} (h : run body fuel s = .ok r) :
    body s = .ok (.leave r) ∨
      ∃ s' less, body s = .ok (.again s') ∧ run body less s' = .ok r := by
  cases fuel with
  | zero => simp [run] at h
  | succ less =>
      rw [run] at h
      split at h
      · simp at h
      · rename_i r' hbody
        exact .inl (Except.ok.inj h ▸ hbody)
      · rename_i s' hbody
        exact .inr ⟨s', less, hbody, h⟩

theorem eq_of_run_leave {s : σ} {r r' : ρ} {fuel : Nat} (hturn : body s = .ok (.leave r))
    (hrun : run body fuel s = .ok r') : r = r' := by
  rcases run_eq_ok hrun with hleave | ⟨s', less, hagain, -⟩
  · rw [hturn] at hleave
    exact Turn.leave.inj (Except.ok.inj hleave)
  · simp [hturn] at hagain

/-- What a turn must do for an invariant and a measure: keep the invariant while
the measure drops, or leave with an acceptable result. -/
def Advances (invariant : σ → Prop) (measure : σ → Nat) (post : ρ → Prop) (s : σ) :
    Turn σ ρ → Prop
  | .again s' => invariant s' ∧ measure s' < measure s
  | .leave r => post r

/-- Total correctness: an invariant with a decreasing measure brings the loop to
an acceptable result. -/
theorem run_total (invariant : σ → Prop) (measure : σ → Nat) {post : ρ → Prop}
    (hbody : ∀ s, invariant s →
      ∃ turn, body s = .ok turn ∧ Advances invariant measure post s turn)
    {s : σ} (hs : invariant s) {fuel : Nat} (hfuel : measure s < fuel) :
    ∃ r, run body fuel s = .ok r ∧ post r := by
  induction fuel generalizing s with
  | zero => omega
  | succ fuel ih =>
      obtain ⟨turn, hturn, hadvance⟩ := hbody s hs
      cases turn with
      | again s' =>
          obtain ⟨hinv, hless⟩ := hadvance
          rw [run_succ_again fuel hturn]
          exact ih hinv (by omega)
      | leave r =>
          exact ⟨r, run_succ_leave fuel hturn, hadvance⟩

/-- A loop whose measure drops with every turn does the same whatever fuel it has beyond the
measure. -/
theorem run_fuel (invariant : σ → Prop) (measure : σ → Nat)
    (hbody : ∀ s s', invariant s → body s = .ok (.again s') →
      invariant s' ∧ measure s' < measure s)
    {s : σ} (hs : invariant s) {fuel fuel' : Nat} (hfuel : measure s < fuel)
    (hfuel' : measure s < fuel') : run body fuel s = run body fuel' s := by
  induction fuel generalizing s fuel' with
  | zero => omega
  | succ fuel ih =>
      obtain ⟨fuel', rfl⟩ := Nat.exists_eq_add_one_of_ne_zero (Nat.ne_zero_of_lt hfuel')
      rw [run, run]
      cases hturn : body s with
      | error stop => rfl
      | ok turn =>
          cases turn with
          | leave r => rfl
          | again s' =>
              obtain ⟨hinv, hless⟩ := hbody s s' hs hturn
              exact ih hinv (by omega) (by omega)

theorem run_endless (invariant : σ → Prop)
    (hbody : ∀ s, invariant s → ∃ s', body s = .ok (.again s') ∧ invariant s')
    {s : σ} (hs : invariant s) (fuel : Nat) : run body fuel s = .error .endless := by
  induction fuel generalizing s with
  | zero => rfl
  | succ fuel ih =>
      obtain ⟨s', hturn, hinv⟩ := hbody s hs
      rw [run_succ_again fuel hturn]
      exact ih hinv

/-- Partial correctness: whatever result comes out satisfies the postcondition. -/
theorem run_partial (invariant : σ → Prop) (post : ρ → Prop)
    (hagain : ∀ s s', invariant s → body s = .ok (.again s') → invariant s')
    (hleave : ∀ s r, invariant s → body s = .ok (.leave r) → post r)
    {s : σ} (hs : invariant s) {fuel : Nat} {r : ρ} (hrun : run body fuel s = .ok r) :
    post r := by
  induction fuel generalizing s with
  | zero => simp [run] at hrun
  | succ fuel ih =>
      rw [run] at hrun
      split at hrun
      · simp at hrun
      · rename_i r' hbody
        obtain rfl : r' = r := by simpa using hrun
        exact hleave s r' hs hbody
      · rename_i s' hbody
        exact ih (hagain s s' hs hbody) hrun

theorem run_mono {s : σ} {r : ρ} {fuel fuel' : Nat} (hle : fuel ≤ fuel')
    (hrun : run body fuel s = .ok r) : run body fuel' s = .ok r := by
  induction fuel generalizing s fuel' with
  | zero => simp [run] at hrun
  | succ fuel ih =>
      obtain ⟨fuel', rfl⟩ : ∃ more, fuel' = more + 1 := ⟨fuel' - 1, by omega⟩
      rw [run] at hrun ⊢
      split at hrun
      · simp at hrun
      · exact hrun
      · exact ih (by omega) hrun

/-- The states a loop goes through from a state on. -/
def Passes (body : σ → Except Stop (Turn σ ρ)) : σ → σ → Prop :=
  Relation.ReflTransGen fun s s' => body s = .ok (.again s')

theorem run_of_passes {s s' : σ} {r : ρ} {fuel : Nat} (h : Passes body s s')
    (hrun : run body fuel s = .ok r) : run body fuel s' = .ok r := by
  induction h with
  | refl => exact hrun
  | tail _ hturn ih =>
      cases fuel with
      | zero => simp [run] at ih
      | succ fuel =>
          rw [run_succ_again fuel hturn] at ih
          exact run_mono (Nat.le_succ fuel) ih

theorem run_ok_iff {s : σ} {r : ρ} :
    (∃ fuel, run body fuel s = .ok r) ↔ ∃ s', Passes body s s' ∧ body s' = .ok (.leave r) := by
  constructor
  · rintro ⟨fuel, hrun⟩
    induction fuel generalizing s with
    | zero => simp [run] at hrun
    | succ fuel ih =>
        rw [run] at hrun
        split at hrun
        · simp at hrun
        · rename_i r' hleave
          exact ⟨s, .refl, Except.ok.inj hrun ▸ hleave⟩
        · rename_i t hturn
          obtain ⟨s', hpasses, hleave⟩ := ih hrun
          exact ⟨s', .head hturn hpasses, hleave⟩
  · rintro ⟨s', hpasses, hleave⟩
    induction hpasses using Relation.ReflTransGen.head_induction_on with
    | refl => exact ⟨1, run_succ_leave 0 hleave⟩
    | head hturn _ ih =>
        obtain ⟨fuel, hrun⟩ := ih
        exact ⟨fuel + 1, (run_succ_again fuel hturn).trans hrun⟩

/-- Two ways to come out of a call: the same failure, or related results. -/
def Agree {α β : Type*} (post : α → β → Prop) : Except Stop α → Except Stop β → Prop
  | .ok a, .ok b => post a b
  | .error stop, .error stop' => stop = stop'
  | _, _ => False

/-- Two turns that go on in related states or leave with related results. -/
def InStep {τ ρ' : Type*} (rel : σ → τ → Prop) (post : ρ → ρ' → Prop) :
    Turn σ ρ → Turn τ ρ' → Prop
  | .again s, .again t => rel s t
  | .leave r, .leave r' => post r r'
  | _, _ => False

/-- Loops whose bodies keep in step agree on how they come out. -/
theorem run_simulation {τ ρ' : Type*} {body' : τ → Except Stop (Turn τ ρ')} (rel : σ → τ → Prop)
    (post : ρ → ρ' → Prop) (hturn : ∀ s t, rel s t → Agree (InStep rel post) (body s) (body' t))
    {s : σ} {t : τ} (hrel : rel s t) (fuel : Nat) :
    Agree post (run body fuel s) (run body' fuel t) := by
  induction fuel generalizing s t with
  | zero => rfl
  | succ fuel ih =>
      have hagree := hturn s t hrel
      rw [run, run]
      revert hagree
      rcases body s with stop | ⟨s' | r⟩ <;> rcases body' t with stop' | ⟨t' | r'⟩ <;>
        intro hagree
      · exact hagree
      · exact hagree.elim
      · exact hagree.elim
      · exact hagree.elim
      · exact ih hagree
      · exact hagree.elim
      · exact hagree.elim
      · exact hagree.elim
      · exact hagree

end Rules

end Newth.Library.Call
