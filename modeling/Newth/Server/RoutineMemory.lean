import Newth.Server.Routines

namespace Newth.Server.RoutineMemory

open Newth.Library.ByteString
open Newth.Library.Call
open Newth.Server.HttpBody
open Newth.Server.Routines
open Newth.Server.Sendbufr

section Memory

/-- The routine array with the block of memory its `array` points to. -/
structure RoutineArray where
  block : Nat
  array : List Routine
  deriving DecidableEq, Repr

/-- Where a `Routine *` points: into which block, and at which routine of it. -/
structure RoutinePointer where
  block : Nat
  slot : Nat
  deriving DecidableEq, Repr

/-- `*routine`; a block that `realloc` has given back is not there. -/
def RoutineArray.at (self : RoutineArray) (p : RoutinePointer) : Except Stop Routine :=
  match self.array[p.slot]? with
  | some routine => if p.block = self.block then .ok routine else .error .outOfBounds
  | none => .error .outOfBounds

/-- `p` is what `realloc` returns. -/
def platformHeapResize (heap : Nat) (p : Option Nat) : Nat := p.getD heap

def routineArrayDelIdx (self : RoutineArray) (idx : Nat) (p : Option Nat) : RoutineArray :=
  let array := self.array.eraseIdx idx
  -- `free` when none is left
  if array = [] then { self with array := array }
  else ⟨platformHeapResize self.block p, array⟩

/-- The routine is looked up by its address. It tells whether it was found. -/
def routineArrayDel (self : RoutineArray) (routine : RoutinePointer) (p : Option Nat) :
    RoutineArray × Bool :=
  if routine.block = self.block ∧ routine.slot < self.array.length then
    (routineArrayDelIdx self routine.slot p, true)
  else (self, false)

/-- What `RoutineTick` works on, and the routines whose file or directory it has released. -/
structure Ticking where
  self : RoutineArray
  deferred : List Nat
  net : Network
  released : List Routine

/-- The body of the loop for the routine at index `i`, with `routines` the copy of the array's
pointer made before the loop. -/
def tickBody (routines : Nat) (realloc : Nat → Option Nat) (i : Nat) (s : Ticking) :
    Except Stop Ticking := do
  let routine ← s.self.at ⟨routines, i⟩
  let socket := routine.socketBuffer.clientSocket
  let ticked ← advance s.deferred routine (s.net socket)
  let net := Function.update s.net socket ticked.channel
  let self := { s.self with array := s.self.array.set i ticked.routine }
  if ticked.kept then .ok ⟨self, ticked.deferred, net, s.released⟩
  else
    let (self, found) := routineArrayDel self ⟨routines, i⟩ (realloc i)
    .ok ⟨self, ticked.deferred, net, s.released ++ if found then [ticked.routine] else []⟩

/-- The loop of `RoutineTick` from index `i` on. -/
def tickLoop (routines : Nat) (realloc : Nat → Option Nat) : Nat → Nat → Ticking →
    Except Stop Ticking
  | 0, _, s => .ok s
  | fuel + 1, i, s =>
      if i < s.self.array.length then do
        let s ← tickBody routines realloc i s
        tickLoop routines realloc fuel (i + 1) s
      else .ok s

/-- `RoutineTick`, with `realloc` what `realloc` returns in the round at each index. -/
def routineTick (self : RoutineArray) (deferred : List Nat) (net : Network)
    (realloc : Nat → Option Nat) : Except Stop Ticking :=
  tickLoop self.block realloc self.array.length 0 ⟨self, deferred, net, []⟩

end Memory

section Fates

/-- What one tick does to a routine. -/
inductive Fate where
  | waits (routine : Routine)
  | advances (t : Ticked)

/-- A routine is left alone, or advanced once. -/
inductive Meets (routine : Routine) : Fate → Prop where
  | waits : Meets routine (.waits routine)
  | advances {deferred : List Nat} {channel : Channel} {t : Ticked}
      (h : advance deferred routine channel = .ok t) : Meets routine (.advances t)

/-- What remains of a routine in the array. -/
def Fate.remains : Fate → Option Routine
  | .waits routine => some routine
  | .advances t => if t.kept then some t.routine else none

/-- The routine whose file or directory is released. -/
def Fate.releases : Fate → Option Routine
  | .waits _ => none
  | .advances t => if t.kept then none else some t.routine

/-- Every routine meets one fate; those that are done go, with what they hold released once,
and the others keep their order. -/
def Swept (routines : List Routine) (s : Ticking) : Prop :=
  ∃ fates, List.Forall₂ Meets routines fates ∧ s.self.array = fates.filterMap Fate.remains ∧
    s.released = fates.filterMap Fate.releases

/-- No round of the tick from index `i` on faults, and when a removal moves the array
from its block, no routine is left to be examined. -/
def Steady (block : Nat) (realloc : Nat → Option Nat) : Nat → List Routine → List Nat →
    Network → Prop
  | _, [], _, _ => True
  | i, routine :: rest, deferred, net =>
      let socket := routine.socketBuffer.clientSocket
      ∃ t, advance deferred routine (net socket) = .ok t ∧
        let net := Function.update net socket t.channel
        if t.kept then Steady block realloc (i + 1) rest t.deferred net
        else
          match rest with
          | [] => True
          | _ :: rest =>
              (rest = [] ∨ platformHeapResize block (realloc i) = block) ∧
                Steady block realloc (i + 1) rest t.deferred net

end Fates

section Loop

variable {block : Nat} {realloc : Nat → Option Nat}

/-- The block the array is in once the routine at index `i` is gone. -/
def blockLeft (block : Nat) (realloc : Nat → Option Nat) (i : Nat) (left : List Routine) : Nat :=
  if left = [] then block else platformHeapResize block (realloc i)

theorem tickBody_eq (finished : List Routine) (routine : Routine) (rest : List Routine)
    (deferred : List Nat) (net : Network) (released : List Routine) :
    tickBody block realloc finished.length
        ⟨⟨block, finished ++ routine :: rest⟩, deferred, net, released⟩ =
      (advance deferred routine (net routine.socketBuffer.clientSocket) >>= fun t =>
        let net := Function.update net routine.socketBuffer.clientSocket t.channel
        if t.kept then .ok ⟨⟨block, finished ++ t.routine :: rest⟩, t.deferred, net, released⟩
        else .ok ⟨⟨blockLeft block realloc finished.length (finished ++ rest), finished ++ rest⟩,
          t.deferred, net, released ++ [t.routine]⟩) := by
  have hat : RoutineArray.at ⟨block, finished ++ routine :: rest⟩ ⟨block, finished.length⟩ =
      .ok routine := by
    simp [RoutineArray.at]
  have hset (r : Routine) : (finished ++ routine :: rest).set finished.length r =
      finished ++ r :: rest := by
    simp
  have herase (r : Routine) : (finished ++ r :: rest).eraseIdx finished.length =
      finished ++ rest := by
    rw [List.eraseIdx_append_of_length_le (Nat.le_refl _), Nat.sub_self, List.eraseIdx_cons_zero]
  rw [tickBody, hat, ok_bind]
  dsimp only
  congr 1
  funext t
  simp only [hset]
  by_cases hkept : t.kept = true
  · rw [if_pos hkept, if_pos hkept]
  · have hin : finished.length < (finished ++ t.routine :: rest).length := by simp
    rw [if_neg hkept, if_neg hkept]
    simp only [routineArrayDel, hin, and_self, if_true, routineArrayDelIdx, herase, blockLeft]
    split <;> rfl

theorem tickLoop_moved {fuel i : Nat} {s : Ticking} (hmoved : block ≠ s.self.block)
    (hi : i < s.self.array.length) {final : Ticking} :
    tickLoop block realloc (fuel + 1) i s ≠ .ok final := by
  rw [tickLoop, if_pos hi]
  have hat : s.self.at ⟨block, i⟩ = .error .outOfBounds := by
    simp [RoutineArray.at, List.getElem?_eq_getElem hi, hmoved]
  rw [tickBody, hat]
  simp

theorem tickLoop_end {fuel i : Nat} {s : Ticking} (hi : s.self.array.length ≤ i) :
    tickLoop block realloc fuel i s = .ok s := by
  cases fuel with
  | zero => rfl
  | succ fuel => rw [tickLoop, if_neg (by omega)]

theorem steady_of_tickLoop {rest : List Routine} {finished : List Routine} {deferred : List Nat}
    {net : Network} {released : List Routine} {fuel : Nat} {final : Ticking}
    (hfuel : rest.length ≤ fuel)
    (h : tickLoop block realloc fuel finished.length
      ⟨⟨block, finished ++ rest⟩, deferred, net, released⟩ = .ok final) :
    Steady block realloc finished.length rest deferred net := by
  induction hlen : rest.length using Nat.strong_induction_on
    generalizing rest finished deferred net released fuel with
  | _ n ih =>
      cases rest with
      | nil => trivial
      | cons routine rest =>
          obtain ⟨fuel, rfl⟩ : ∃ f, fuel = f + 1 := by
            cases fuel with
            | zero => simp at hfuel
            | succ f => exact ⟨f, rfl⟩
          rw [List.length_cons] at hfuel hlen
          rw [tickLoop, if_pos (by simp), tickBody_eq] at h
          obtain ⟨s, hs, h⟩ := bind_eq_ok_iff.mp h
          obtain ⟨t, hadvance, hs⟩ := bind_eq_ok_iff.mp hs
          rw [Steady]
          refine ⟨t, hadvance, ?_⟩
          simp only at hs ⊢
          by_cases hkept : t.kept = true
          · rw [if_pos hkept] at hs ⊢
            obtain rfl := Except.ok.inj hs
            rw [List.append_cons] at h
            have hnext : finished.length + 1 = (finished ++ [t.routine]).length := by simp
            rw [hnext] at h ⊢
            exact ih rest.length (by omega) (by omega) h rfl
          · rw [if_neg hkept] at hs ⊢
            obtain rfl := Except.ok.inj hs
            cases rest with
            | nil => trivial
            | cons skipped rest =>
                have hleft : finished ++ skipped :: rest ≠ [] := by simp
                simp only [blockLeft, if_neg hleft] at h
                have hstay : rest = [] ∨
                    platformHeapResize block (realloc finished.length) = block := by
                  by_contra hnot
                  rw [not_or] at hnot
                  obtain ⟨fuel, rfl⟩ : ∃ f, fuel = f + 1 := by
                    cases fuel with
                    | zero => simp at hfuel
                    | succ f => exact ⟨f, rfl⟩
                  refine tickLoop_moved (Ne.symm hnot.2) ?_ h
                  have hpos := List.length_pos_of_ne_nil hnot.1
                  simp only [List.length_append, List.length_cons]
                  omega
                refine ⟨hstay, ?_⟩
                rw [List.length_cons] at hfuel hlen
                rw [List.append_cons] at h
                have hnext : finished.length + 1 = (finished ++ [skipped]).length := by simp
                rw [hnext] at h ⊢
                rcases hstay with rfl | hstay
                · trivial
                · rw [hstay] at h
                  exact ih rest.length (by omega) (by omega) h rfl

/-- A steady tick comes to its end: every routine meets its fate, and the array is left as
by the tick that knows nothing of its memory. -/
theorem tickLoop_of_steady {rest : List Routine} {finished : List Routine} {deferred : List Nat}
    {net : Network} {released : List Routine} {fuel : Nat} (hfuel : rest.length ≤ fuel)
    (h : Steady block realloc finished.length rest deferred net) :
    ∃ final routines, tickLoop block realloc fuel finished.length
        ⟨⟨block, finished ++ rest⟩, deferred, net, released⟩ = .ok final ∧
      final.self.array = finished ++ routines ∧
      tickFrom rest deferred net = .ok (routines, final.deferred, final.net) ∧
      ∃ fates, List.Forall₂ Meets rest fates ∧ routines = fates.filterMap Fate.remains ∧
        final.released = released ++ fates.filterMap Fate.releases := by
  induction hlen : rest.length using Nat.strong_induction_on
    generalizing rest finished deferred net released fuel with
  | _ n ih =>
      cases rest with
      | nil => exact ⟨_, [], tickLoop_end (by simp), rfl, rfl, [], .nil, rfl, by simp⟩
      | cons routine rest =>
          obtain ⟨fuel, rfl⟩ : ∃ f, fuel = f + 1 := by
            cases fuel with
            | zero => simp at hfuel
            | succ f => exact ⟨f, rfl⟩
          rw [List.length_cons] at hfuel hlen
          rw [Steady] at h
          obtain ⟨t, hadvance, h⟩ := h
          have hfate : Meets routine (.advances t) := .advances hadvance
          rw [tickLoop, if_pos (by simp), tickBody_eq, hadvance, ok_bind, tickFrom, hadvance,
            ok_bind]
          simp only at h ⊢
          by_cases hkept : t.kept = true
          · rw [if_pos hkept] at h
            simp only [if_pos hkept]
            have hnext : finished.length + 1 = (finished ++ [t.routine]).length := by simp
            rw [hnext] at h
            rw [ok_bind, hnext, List.append_cons finished t.routine rest]
            obtain ⟨final, routines, hfinal, harray, hfrom, fates, hfates, hremain, hreleased⟩ :=
              @ih rest.length (by omega) rest (finished ++ [t.routine]) t.deferred _ released fuel
                (by omega) h rfl
            refine ⟨final, t.routine :: routines, hfinal, ?_, ?_, .advances t :: fates,
              .cons hfate hfates, ?_, ?_⟩
            · rw [harray, List.append_assoc, List.singleton_append]
            · rw [hfrom]
              rfl
            · rw [hremain]
              simp [Fate.remains, hkept]
            · rw [hreleased]
              simp [Fate.releases, hkept]
          · rw [if_neg hkept] at h
            simp only [if_neg hkept, ok_bind]
            cases rest with
            | nil =>
                refine ⟨_, [], tickLoop_end (by simp), by simp, rfl, [.advances t],
                  .cons hfate .nil, ?_, ?_⟩
                · simp [Fate.remains, hkept]
                · simp [Fate.releases, hkept]
            | cons skipped rest =>
                obtain ⟨hstay, h⟩ := h
                rw [List.length_cons] at hfuel hlen
                have hnext : finished.length + 1 = (finished ++ [skipped]).length := by simp
                have hleft : finished ++ skipped :: rest ≠ [] := by simp
                rw [hnext] at h
                rw [hnext, blockLeft, if_neg hleft, List.append_cons finished skipped rest]
                rcases hstay with rfl | hstay
                · refine ⟨_, [skipped], tickLoop_end (by simp), by simp, rfl,
                    [.advances t, .waits skipped], .cons hfate (.cons .waits .nil), ?_, ?_⟩
                  · simp [Fate.remains, hkept]
                  · simp [Fate.releases, hkept]
                · rw [hstay]
                  obtain ⟨final, routines, hfinal, harray, hfrom, fates, hfates, hremain,
                    hreleased⟩ := @ih rest.length (by omega) rest (finished ++ [skipped])
                      t.deferred _ (released ++ [t.routine]) fuel (by omega) h rfl
                  refine ⟨final, skipped :: routines, hfinal, ?_, ?_,
                    .advances t :: .waits skipped :: fates,
                    .cons hfate (.cons .waits hfates), ?_, ?_⟩
                  · rw [harray, List.append_assoc, List.singleton_append]
                  · simp only [hfrom]
                    rfl
                  · rw [hremain]
                    simp [Fate.remains, hkept]
                  · rw [hreleased]
                    simp [List.filterMap_cons, Fate.releases, hkept]

/-- The tick that knows nothing of the array's memory does what the tick does that comes
to its end. -/
theorem routineTick_refines {self : RoutineArray} {deferred : List Nat} {net : Network}
    {realloc : Nat → Option Nat} {final : Ticking}
    (h : routineTick self deferred net realloc = .ok final) :
    Routines.routineTick ⟨self.array, deferred, net⟩ =
      .ok ⟨final.self.array, final.deferred, final.net⟩ := by
  have hsteady := @steady_of_tickLoop self.block realloc self.array [] deferred net [] _ final
    (Nat.le_refl _) h
  obtain ⟨final', routines, hfinal, harray, hfrom, -⟩ :=
    @tickLoop_of_steady self.block realloc self.array [] deferred net [] _ (Nat.le_refl _) hsteady
  obtain rfl := Except.ok.inj (h.symm.trans hfinal)
  rw [Routines.routineTick, hfrom, harray]
  rfl

/-- A tick sweeps the array as it should exactly when it is steady. -/
theorem routineTick_sweeps_iff (self : RoutineArray) (deferred : List Nat) (net : Network)
    (realloc : Nat → Option Nat) :
    (∃ final, routineTick self deferred net realloc = .ok final ∧ Swept self.array final) ↔
      Steady self.block realloc 0 self.array deferred net := by
  constructor
  · rintro ⟨final, hfinal, -⟩
    exact @steady_of_tickLoop self.block realloc self.array [] deferred net [] _ final
      (Nat.le_refl _) hfinal
  · intro h
    obtain ⟨final, routines, hfinal, harray, -, fates, hfates, hremain, hreleased⟩ :=
      @tickLoop_of_steady self.block realloc self.array [] deferred net [] _ (Nat.le_refl _) h
    exact ⟨final, hfinal, fates, hfates, harray.trans hremain, hreleased⟩

/-- A routine without a file or directory that is done. -/
def donePlain (clientSocket : Nat) : Routine :=
  ⟨.stateFinish, sendBufferNew clientSocket 0, text "/", .plain⟩

def threeDone : RoutineArray := ⟨0, [donePlain 3, donePlain 4, donePlain 5]⟩

/-- When the first of three is removed and the array moves, the third is looked for in the
block given back. -/
theorem routineTick_not_sweeps :
    ¬ ∀ (self : RoutineArray) (deferred : List Nat) (net : Network) (realloc : Nat → Option Nat),
      ∃ final, routineTick self deferred net realloc = .ok final ∧ Swept self.array final := by
  intro h
  obtain ⟨final, hfinal, -⟩ := h threeDone [] (fun _ => ⟨[], []⟩) (fun _ => some 1)
  have hfault : routineTick threeDone [] (fun _ => ⟨[], []⟩) (fun _ => some 1) =
      .error .outOfBounds := rfl
  rw [hfault] at hfinal
  contradiction

end Loop

end Newth.Server.RoutineMemory
