import Newth.Client.Mounts
import Newth.Client.QueueMemory

namespace Newth.Exchange.OutOfMemory

open Newth.Library.Blocks
open Newth.Library.ByteString
open Newth.Library.Call
open Newth.Client.Mounts
open Newth.Client.QueueMemory

section Queue

variable {σ : Type} {m m' : Memory σ} {q : Option Nat} {items : List (Item σ)}

/-- The queue holds these entries, and the strings of each are there. -/
def Whole (m : Memory σ) (q : Option Nat) (items : List (Item σ)) : Prop :=
  ∃ place, q = place.map Prod.fst ∧ Stores m place items ∧ ∀ x ∈ items, x.Readable m

/-- The call comes back, and the queue is as before or as a call that succeeds leaves it. -/
def AllOrNothing (result : Except Stop (Memory σ × Option Nat × Option QueueError))
    (before after : List (Item σ)) : Prop :=
  ∃ m' q' e, result = .ok (m', q', e) ∧ (Whole m' q' before ∨ Whole m' q' after)

/-- One of the allocations of `queueEntryArrayAppend` fails. -/
def Starved (m : Memory σ) (q : Option Nat) (arrayGrant : Option (Grant QueueEntryArray))
    (entryGrant : Option (Grant (Entry σ))) : Prop :=
  (q = none ∧ arrayGrant = none) ∨ (q = none → Granted m.arrays none arrayGrant) ∧ entryGrant = none

variable [DecidableEq σ] {s : Session σ} {l : Ledger σ} {it : Item σ}

theorem append_allOrNothing (h : Agrees s l) (hit : it.Readable s.memory)
    {arrayGrant : Option (Grant QueueEntryArray)} {entryGrant : Option (Grant (Entry σ))}
    (hstarved : Starved s.memory s.queueEntryArray arrayGrant entryGrant) :
    AllOrNothing (queueEntryArrayAppend s.memory s.queueEntryArray it.entry arrayGrant entryGrant)
      l.stored (appended l.stored it) := by
  obtain ⟨place, hplace, hstores⟩ := h.stores
  have hwhole : Whole s.memory s.queueEntryArray l.stored := ⟨place, hplace, hstores, h.readable⟩
  rw [hplace] at hwhole hstarved ⊢
  cases place with
  | none =>
      have hempty : l.stored = [] := hstores
      have hnothing : ∀ m : Memory σ, Whole m none l.stored :=
        fun m => ⟨none, rfl, hempty, by simp [hempty]⟩
      cases arrayGrant with
      | none => exact ⟨s.memory, none, some .outOfMemory, rfl, .inl (hnothing _)⟩
      | some grant =>
          obtain ⟨hgranted, rfl⟩ : Granted s.memory.arrays none (some grant) ∧ entryGrant = none := by
            rcases hstarved with ⟨-, hnone⟩ | ⟨hgranted, hnone⟩
            · exact absurd hnone (by simp)
            · exact ⟨hgranted rfl, hnone⟩
          have hfresh : s.memory.arrays grant.address = none := by simpa [Granted] using hgranted
          have hback : ∀ block, Function.update (Function.update s.memory.arrays grant.address block)
              grant.address none = s.memory.arrays := by
            intro block
            rw [Function.update_idem, ← hfresh, Function.update_eq_self]
          refine ⟨s.memory, none, some .outOfMemory, ?_, .inl (hnothing _)⟩
          simp only [Option.map_none, queueEntryArrayAppend, realloc, ok_bind, free,
            Function.update_self, hback]
  | some place =>
      obtain ⟨a, p⟩ := place
      have hentry : entryGrant = none := by
        rcases hstarved with ⟨hnone, -⟩ | ⟨-, hnone⟩
        · exact absurd hnone (by simp)
        · exact hnone
      subst hentry
      obtain ⟨ha, hp, -⟩ := hstores
      have hload : load s.memory.arrays a 0 = .ok ⟨l.stored.length, some p⟩ := by
        rw [load, ha]
        rfl
      have hfind := findNth_eq hp h.readable hit
      refine ⟨s.memory, some a, if (l.stored.findIdx? (·.same it)).isSome then none
        else some .outOfMemory, ?_, .inl hwhole⟩
      simp only [Option.map_some, queueEntryArrayAppend, hload, ok_bind, hfind]
      cases l.stored.findIdx? (·.same it) <;> rfl

theorem remove_allOrNothing_iff (h : Agrees s l) (hit : it.Readable s.memory) :
    AllOrNothing (queueEntryArrayRemove s.memory s.queueEntryArray it.entry none)
      l.stored (l.stored.filter (!·.same it)) ↔ l.stored.any (·.same it) = false := by
  obtain ⟨place, hplace, hholding⟩ := h.holding
  have hstores := hholding.stores
  rw [hplace, ← List.findIdx?_isSome, Option.isSome_eq_false_iff, Option.isNone_iff_eq_none]
  constructor
  · rintro ⟨m', q', e, hremove, hafter⟩
    by_contra hfound
    obtain ⟨i, hfind⟩ := Option.ne_none_iff_exists'.mp hfound
    obtain ⟨front, x, rest, hsplit, rfl, hx, hkept, -⟩ := exists_split h.distinct hfind
    have hreadable := h.readable
    have howned := h.owned
    rw [hkept] at hafter
    rw [hsplit] at hreadable howned hfind hstores hafter
    cases place with
    | none => exact absurd hstores (by simp [Stores])
    | some place =>
        obtain ⟨a, p⟩ := place
        have hpaths := hholding.paths_ne (by rw [hsplit]; simp : x ∈ l.stored)
        by_cases hmore : front ++ rest = []
        · obtain ⟨rfl, rfl⟩ := List.append_eq_nil_iff.mp hmore
          rw [Option.map_some, remove_only hstores (hreadable x (by simp)) hit hpaths hx] at hremove
          simp at hremove
        · obtain ⟨last, hfound⟩ := remove_found hstores hreadable hit hpaths hmore hfind none
          rw [Option.map_some, hfound] at hremove
          simp only [shrinkTo, realloc, ok_bind, Except.ok.injEq, Prod.mk.injEq] at hremove
          obtain ⟨rfl, rfl, -⟩ := hremove
          rcases hafter with ⟨place', -, -, hreadable'⟩ | ⟨place', hplace', hstores', -⟩
          · -- the strings of the entry that was asked for are gone
            have hgone := (hreadable' x (by simp)).destination
            have hnone : (released s.memory x).strings x.destinationPath = none :=
              (Function.update_of_ne hpaths.symm _ _).trans (Function.update_self ..)
            exact absurd (hnone.symm.trans hgone) (by simp)
          · -- and it is still counted
            cases place' with
            | none => simp at hplace'
            | some place' =>
                obtain ⟨a', p'⟩ := place'
                obtain rfl : a = a' := by simpa using hplace'
                have hsame := hstores.1.symm.trans hstores'.1
                simp at hsame
  · intro habsent
    exact ⟨s.memory, _, some .noSuchEntry, remove_absent hstores h.readable hit habsent none,
      .inl ⟨place, rfl, hstores, h.readable⟩⟩

end Queue

section Routines

variable {ρ : Type}

/-- The `RoutineArray`. -/
structure RoutineArray where
  size : Nat
  array : Option Nat

/-- It tells whether memory has run out. -/
def routineArrayAdd (heap : Heap ρ) (self : RoutineArray) (fileRoutine : ρ)
    (grant : Option (Grant ρ)) : Except Stop (Heap ρ × RoutineArray × Bool) := do
  let size := self.size + 1
  let (heap, array) ←
    if size = 1 then realloc heap none 1 grant else platformHeapResize heap self.array size grant
  match array with
  -- `malloc` leaves a null pointer behind, `platformHeapResize` the one it was handed
  | none => .ok (heap, ⟨size, if size = 1 then none else self.array⟩, true)
  | some p => do
      let heap ← store heap p (size - 1) fileRoutine
      .ok (heap, ⟨size, some p⟩, false)

/-- These routines are counted and stored. -/
def Counts (heap : Heap ρ) (self : RoutineArray) (routines : List ρ) : Prop :=
  self.size = routines.length ∧
    (routines ≠ [] → ∃ p, self.array = some p ∧ heap p = some routines)

theorem routineArrayAdd_spec {heap : Heap ρ} {self : RoutineArray} {routines : List ρ}
    (h : Counts heap self routines) (fileRoutine : ρ) {grant : Option (Grant ρ)}
    (hgrant : Granted heap (if routines = [] then none else self.array) grant) :
    ∃ heap' self', routineArrayAdd heap self fileRoutine grant = .ok (heap', self', false) ∧
      Counts heap' self' (routines ++ [fileRoutine]) := by
  obtain ⟨hsize, hstored⟩ := h
  cases routines with
  | nil =>
      have hholds : Holds heap none ([] : List ρ) := rfl
      rw [if_pos rfl] at hgrant
      obtain ⟨grown, heap', p, hrealloc, hstore, hholds', -⟩ := hholds.push hgrant fileRoutine
      refine ⟨heap', ⟨1, some p⟩, ?_, rfl, fun _ => ⟨p, rfl, hholds'.1⟩⟩
      rw [List.length_nil] at hsize hrealloc hstore
      simp only [routineArrayAdd, hsize, Nat.zero_add, if_true, hrealloc, ok_bind, Nat.sub_self, hstore]
  | cons routine routines =>
      obtain ⟨p, hp, hblock⟩ := hstored (List.cons_ne_nil _ _)
      have hholds : Holds heap (some p) (routine :: routines) := ⟨hblock, List.cons_ne_nil _ _⟩
      rw [if_neg (List.cons_ne_nil _ _), hp] at hgrant
      obtain ⟨grown, heap', q, hrealloc, hstore, hholds', -⟩ := hholds.push hgrant fileRoutine
      refine ⟨heap', ⟨self.size + 1, some q⟩, ?_, by simp [hsize], fun _ => ⟨q, rfl, hholds'.1⟩⟩
      have hmany : self.size + 1 ≠ 1 := by simp [hsize]
      rw [← hsize] at hrealloc hstore
      have hresize : platformHeapResize heap (some p) (self.size + 1) grant = .ok (grown, some q) := by
        rw [platformHeapResize, if_pos ⟨rfl, Nat.succ_ne_zero _⟩, hrealloc]
      simp only [routineArrayAdd, hmany, if_false, hp, hresize, ok_bind, Nat.add_sub_cancel, hstore]

theorem routineArrayAdd_counts {heap : Heap ρ} {self : RoutineArray} {routines : List ρ}
    (h : Counts heap self routines) (fileRoutine : ρ) :
    ∃ self', routineArrayAdd heap self fileRoutine none = .ok (heap, self', true) ∧
      ¬ Counts heap self' routines ∧ ¬ Counts heap self' (routines ++ [fileRoutine]) := by
  obtain ⟨hsize, hstored⟩ := h
  refine ⟨⟨self.size + 1, if self.size + 1 = 1 then none else self.array⟩, ?_, ?_, ?_⟩
  · rw [routineArrayAdd, platformHeapResize]
    split
    · rfl
    · split <;> rfl
  · rintro ⟨hsize', -⟩
    simp only at hsize'
    omega
  · rintro ⟨-, hstored'⟩
    obtain ⟨p, hp, hblock⟩ := hstored' (by simp)
    simp only at hp
    split at hp
    · simp at hp
    · rename_i hmany
      have hne : routines ≠ [] := by
        rintro rfl
        exact hmany (by simp [hsize])
      obtain ⟨p', hp', hblock'⟩ := hstored hne
      obtain rfl : p' = p := Option.some.inj (hp'.symm.trans hp)
      rw [hblock] at hblock'
      simp at hblock'

end Routines

section Sites

variable {σ : Type}

theorem siteArrayAdd_unchanged (self : MountArray σ) (site : σ) :
    siteArrayAdd self site none = (self, some .outOfMemory) := rfl

theorem siteArrayRemoveNth_iff (self : MountArray σ) (n : Int) :
    (siteArrayRemoveNth self n none = .ok self ∨
      siteArrayRemoveNth self n none = siteArrayRemoveNth self n (some self.block)) ↔
    (0 ≤ n → n < self.array.length → self.activeRead ≠ n ∧ self.activeWrite ≠ n) := by
  simp only [siteArrayRemoveNth]
  by_cases hbehind : n ≤ self.array.length - 1
  · by_cases hneg : n < 0
    · simp only [hbehind, hneg, if_true]
      exact iff_of_true (.inr trivial) fun hpos => absurd hneg (by omega)
    · simp only [hbehind, hneg, if_true, if_false]
      rw [forall_prop_of_true (by omega), forall_prop_of_true (by omega)]
      have hcursor : ∀ cursor : Int, cursor = (if cursor = n then -1 else cursor) ↔ cursor ≠ n := by
        intro cursor
        split
        · rename_i hsame
          exact iff_of_false (by omega) (not_not_intro hsame)
        · rename_i hother
          exact iff_of_true rfl hother
      have hshort : self.array.eraseIdx n.toNat ≠ self.array := by
        intro hsame
        have hlength := congrArg List.length hsame
        rw [List.length_eraseIdx_of_lt (by omega)] at hlength
        omega
      constructor
      · rintro (hsame | hsame)
        · exact absurd (congrArg MountArray.array (Except.ok.inj hsame)) hshort
        · have hcursors := Except.ok.inj hsame
          exact ⟨(hcursor _).mp (congrArg MountArray.activeRead hcursors),
            (hcursor _).mp (congrArg MountArray.activeWrite hcursors)⟩
      · rintro ⟨hread, hwrite⟩
        right
        rw [← (hcursor _).mpr hread, ← (hcursor _).mpr hwrite]
  · simp only [hbehind, if_false]
    exact iff_of_true (.inr trivial) fun _ hless => absurd hless (by omega)

end Sites

section Results

variable {σ ρ μ : Type} [DecidableEq σ]

/-- What a failed allocation leaves behind. -/
theorem failed_allocation {s : Session σ} {l : Ledger σ} (hqueue : Agrees s l) {it gone : Item σ}
    (hit : it.Readable s.memory) (hgone : gone.Readable s.memory) {arrayGrant : Option (Grant QueueEntryArray)}
    {entryGrant : Option (Grant (Entry σ))}
    (hstarved : Starved s.memory s.queueEntryArray arrayGrant entryGrant)
    {heap : Heap ρ} {self : RoutineArray} {routines : List ρ} (hroutines : Counts heap self routines)
    (fileRoutine : ρ) (sites : MountArray μ) (site : μ) (n : Int) :
    AllOrNothing (queueEntryArrayAppend s.memory s.queueEntryArray it.entry arrayGrant entryGrant)
        l.stored (appended l.stored it) ∧
      (AllOrNothing (queueEntryArrayRemove s.memory s.queueEntryArray gone.entry none)
        l.stored (l.stored.filter (!·.same gone)) ↔ l.stored.any (·.same gone) = false) ∧
      (∃ self', routineArrayAdd heap self fileRoutine none = .ok (heap, self', true) ∧
        ¬ Counts heap self' routines ∧ ¬ Counts heap self' (routines ++ [fileRoutine])) ∧
      siteArrayAdd sites site none = (sites, some .outOfMemory) ∧
      ((siteArrayRemoveNth sites n none = .ok sites ∨
          siteArrayRemoveNth sites n none = siteArrayRemoveNth sites n (some sites.block)) ↔
        (0 ≤ n → n < sites.array.length → sites.activeRead ≠ n ∧ sites.activeWrite ≠ n)) :=
  ⟨append_allOrNothing hqueue hit hstarved, remove_allOrNothing_iff hqueue hgone,
    routineArrayAdd_counts hroutines fileRoutine, siteArrayAdd_unchanged sites site,
    siteArrayRemoveNth_iff sites n⟩

def otherEntry : Item Nat := ⟨0, 1, 3, 4, text "/c", text "/d", ⟨true, false, false⟩⟩

def newEntry : Item Nat := ⟨0, 1, 5, 6, text "/e", text "/f", ⟨true, false, false⟩⟩

/-- Two entries are queued, and the strings of a third are there. -/
def twoEntries : Session Nat :=
  let memory : Memory Nat :=
    { arrays := Function.update (fun _ => none) 10 (some [⟨2, some 20⟩])
      entries := Function.update (fun _ => none) 20 (some [someEntry.entry, otherEntry.entry])
      strings := fun _ => none
      freed := [] }
  ⟨handed (handed (handed memory someEntry) otherEntry) newEntry, some 10, none⟩

def twoStored : Ledger Nat := ⟨[someEntry, otherEntry], [], none⟩

theorem agrees_twoEntries : Agrees twoEntries twoStored := by
  refine ⟨⟨some (10, 20), rfl, rfl, rfl, by simp [twoStored]⟩, by decide, ?_, by decide, rfl, rfl⟩
  simp only [twoStored, List.forall_mem_cons]
  exact ⟨⟨rfl, rfl⟩, ⟨rfl, rfl⟩, by simp⟩

theorem failed_allocation_sample :
    AllOrNothing (queueEntryArrayAppend twoEntries.memory twoEntries.queueEntryArray
          newEntry.entry none none)
        twoStored.stored (appended twoStored.stored newEntry) ∧
      (AllOrNothing (queueEntryArrayRemove twoEntries.memory twoEntries.queueEntryArray
          someEntry.entry none) twoStored.stored (twoStored.stored.filter (!·.same someEntry)) ↔
        twoStored.stored.any (·.same someEntry) = false) ∧
      (∃ self', routineArrayAdd (fun _ => none) ⟨0, none⟩ (7 : Nat) none =
          .ok (fun _ => none, self', true) ∧
        ¬ Counts (fun _ => none) self' ([] : List Nat) ∧
        ¬ Counts (fun _ => none) self' ([] ++ [7] : List Nat)) ∧
      siteArrayAdd threeMounts 13 none = (threeMounts, some .outOfMemory) ∧
      ((siteArrayRemoveNth threeMounts 2 none = .ok threeMounts ∨
          siteArrayRemoveNth threeMounts 2 none =
            siteArrayRemoveNth threeMounts 2 (some threeMounts.block)) ↔
        (0 ≤ (2 : Int) → (2 : Int) < threeMounts.array.length →
          threeMounts.activeRead ≠ 2 ∧ threeMounts.activeWrite ≠ 2)) := by
  have hstarved : Starved twoEntries.memory twoEntries.queueEntryArray none none :=
    .inr ⟨fun hnone => absurd hnone (Option.some_ne_none 10), rfl⟩
  exact failed_allocation agrees_twoEntries ⟨rfl, rfl⟩ ⟨rfl, rfl⟩ hstarved
    ⟨rfl, fun hne => absurd rfl hne⟩ 7 threeMounts 13 2

/-- The first routine is counted, and there is none. -/
theorem first_routine_counted :
    Counts (fun _ => none) ⟨0, none⟩ ([] : List Nat) ∧
      routineArrayAdd (fun _ => none) ⟨0, none⟩ (7 : Nat) none =
        .ok (fun _ => none, ⟨1, none⟩, true) ∧
      ¬ Counts (fun _ => none) ⟨1, none⟩ ([] : List Nat) ∧
      ¬ Counts (fun _ => none) ⟨1, none⟩ [7] := by
  refine ⟨⟨rfl, fun hne => absurd rfl hne⟩, rfl, ?_, ?_⟩
  · rintro ⟨hsize, -⟩
    exact absurd hsize (by decide)
  · rintro ⟨-, hstored⟩
    obtain ⟨p, hp, -⟩ := hstored (by simp)
    exact absurd hp (by simp)

end Results

end Newth.Exchange.OutOfMemory
