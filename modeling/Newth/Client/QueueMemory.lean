import Newth.Client.Queue
import Newth.Library.Blocks
import Newth.Library.Runs

namespace Newth.Client.QueueMemory

open Newth.Library.ByteString
open Newth.Library.Blocks
open Newth.Library.Call
open Newth.Library.Runs
open Newth.Client.Queue (QueueState)

section Resizing

variable {α : Type}

/-- `platformHeapResize`: the new address, or none where it returns 1 and leaves `*heap`. -/
def platformHeapResize (heap : Heap α) (p : Option Nat) (elementNumber : Nat)
    (grant : Option (Grant α)) : Except Stop (Heap α × Option Nat) :=
  if p.isSome ∧ elementNumber ≠ 0 then realloc heap p elementNumber grant
  else .ok (heap, none)

end Resizing

section Functions

/-- A `QueueEntry`, with pointers to sites in `σ`. -/
structure Entry (σ : Type) where
  sourceSite : σ
  destinationSite : σ
  sourcePath : Option Nat
  destinationPath : Option Nat
  state : QueueState
  deriving DecidableEq

structure QueueEntryArray where
  len : Nat
  entry : Option Nat
  deriving DecidableEq

/-- The memory of the queue, and the strings that were freed so far. -/
structure Memory (σ : Type) where
  strings : Heap UInt8
  entries : Heap (Entry σ)
  arrays : Heap QueueEntryArray
  freed : List Nat

inductive QueueError where
  | noSuchEntry
  | outOfMemory
  deriving DecidableEq, Repr

variable {σ : Type} [DecidableEq σ]

/-- The string a `char *` leads to. -/
def stringAt (m : Memory σ) (path : Option Nat) : Except Stop Bytes :=
  match path.bind m.strings with
  | none => .error .outOfBounds
  | some s => .ok s

/-- `array->entry[i]` -/
def entryAt (m : Memory σ) (array : QueueEntryArray) (i : Nat) : Except Stop (Entry σ) :=
  match array.entry with
  | none => .error .outOfBounds
  | some p => load m.entries p i

/-- The comparison of `queueEntryArrayFindNth`. -/
def sameEntry (m : Memory σ) (it entry : Entry σ) : Except Stop Bool :=
  if it.destinationSite = entry.destinationSite ∧ it.sourceSite = entry.sourceSite then do
    let destination ← stringAt m it.destinationPath
    let destination' ← stringAt m entry.destinationPath
    if destination = destination' then do
      let source ← stringAt m it.sourcePath
      let source' ← stringAt m entry.sourcePath
      .ok (source = source')
    else .ok false
  else .ok false

/-- The loop of `queueEntryArrayFindNth` with some turns left, from `i` on. -/
def findNthFrom (m : Memory σ) (array : QueueEntryArray) (entry : Entry σ) :
    Nat → Nat → Except Stop (Option Nat)
  | 0, _ => .ok none
  | turns + 1, i => do
      let it ← entryAt m array i
      if ← sameEntry m it entry then .ok (some i) else findNthFrom m array entry turns (i + 1)

/-- None where it returns -1. -/
def queueEntryArrayFindNth (m : Memory σ) (array : QueueEntryArray) (entry : Entry σ) :
    Except Stop (Option Nat) :=
  findNthFrom m array entry array.len 0

def freePath (m : Memory σ) : Option Nat → Except Stop (Memory σ)
  | none => .ok m
  | some p => do
      let strings ← free m.strings p
      .ok { m with strings := strings, freed := m.freed ++ [p] }

def queueEntryFree (m : Memory σ) (queueEntry : Entry σ) : Except Stop (Memory σ) := do
  let m ← freePath m queueEntry.destinationPath
  freePath m queueEntry.sourcePath

/-- The value of `*queueEntryArray` is handed in and out. -/
def queueEntryArrayFreeArrayOnly (m : Memory σ) :
    Option Nat → Except Stop (Memory σ × Option Nat)
  | none => .ok (m, none)
  | some a => do
      let array ← load m.arrays a 0
      let entries ← match array.entry with
        | none => .ok m.entries
        | some p => free m.entries p
      let arrays ← free m.arrays a
      .ok ({ m with entries := entries, arrays := arrays }, none)

/-- The loop of `queueEntryArrayFree`. -/
def freeEntriesFrom (array : QueueEntryArray) : Nat → Nat → Memory σ → Except Stop (Memory σ)
  | 0, _, m => .ok m
  | turns + 1, i, m => do
      let it ← entryAt m array i
      let m ← queueEntryFree m it
      freeEntriesFrom array turns (i + 1) m

def queueEntryArrayFree (m : Memory σ) : Option Nat → Except Stop (Memory σ × Option Nat)
  | none => .ok (m, none)
  | some a => do
      let array ← load m.arrays a 0
      let m ← if array.entry.isSome then freeEntriesFrom array array.len 0 m else .ok m
      queueEntryArrayFreeArrayOnly m (some a)

/-- `for (; i < m; ++i) array->entry[i] = array->entry[i + 1];` -/
def moveUpFrom (p : Nat) : Nat → Nat → Heap (Entry σ) → Except Stop (Heap (Entry σ))
  | 0, _, entries => .ok entries
  | turns + 1, i, entries => do
      let next ← load entries p (i + 1)
      let entries ← store entries p i next
      moveUpFrom p turns (i + 1) entries

def queueEntryArrayRemove (m : Memory σ) (queueEntryArray : Option Nat) (entry : Entry σ)
    (grant : Option (Grant (Entry σ))) :
    Except Stop (Memory σ × Option Nat × Option QueueError) :=
  match queueEntryArray with
  | none => .ok (m, none, some .noSuchEntry)
  | some a => do
      let array ← load m.arrays a 0
      match array.entry with
      | none => .ok (m, some a, some .noSuchEntry)
      | some p => do
          match ← queueEntryArrayFindNth m array entry with
          | none => .ok (m, some a, some .noSuchEntry)
          | some i => do
              let len := array.len - 1
              let it ← load m.entries p i
              let m ← queueEntryFree m it
              if len ≠ 0 then do
                let entries ← moveUpFrom p (len - i) i m.entries
                let (entries, q) ← platformHeapResize entries (some p) len grant
                match q with
                | none => .ok ({ m with entries := entries }, some a, some .outOfMemory)
                | some q => do
                    let arrays ← store m.arrays a 0 ⟨len, some q⟩
                    .ok ({ m with entries := entries, arrays := arrays }, some a, none)
              else do
                let (m, queueEntryArray) ← queueEntryArrayFree m (some a)
                .ok (m, queueEntryArray, none)

def queueEntryArrayAppend (m : Memory σ) (queueEntryArray : Option Nat) (entry : Entry σ)
    (arrayGrant : Option (Grant QueueEntryArray)) (entryGrant : Option (Grant (Entry σ))) :
    Except Stop (Memory σ × Option Nat × Option QueueError) :=
  match queueEntryArray with
  | none => do
      let (arrays, a) ← realloc m.arrays none 1 arrayGrant
      match a with
      | none => .ok (m, none, some .outOfMemory)
      | some a => do
          let (entries, p) ← realloc m.entries none 1 entryGrant
          match p with
          | none => do
              let arrays ← free arrays a
              .ok ({ m with arrays := arrays }, none, some .outOfMemory)
          | some p => do
              let entries ← store entries p 0 entry
              let arrays ← store arrays a 0 ⟨1, some p⟩
              .ok ({ m with entries := entries, arrays := arrays }, some a, none)
  | some a => do
      let array ← load m.arrays a 0
      match ← queueEntryArrayFindNth m array entry with
      | some _ => .ok (m, some a, none)
      | none => do
          let (entries, p) ← platformHeapResize m.entries array.entry (array.len + 1) entryGrant
          match p with
          | none => .ok (m, some a, some .outOfMemory)
          | some p => do
              let entries ← store entries p array.len entry
              let arrays ← store m.arrays a 0 ⟨array.len + 1, some p⟩
              .ok ({ m with entries := entries, arrays := arrays }, some a, none)

end Functions

section Items

/-- An entry with the strings its paths lead to. -/
structure Item (σ : Type) where
  sourceSite : σ
  destinationSite : σ
  sourcePath : Nat
  destinationPath : Nat
  source : Bytes
  destination : Bytes
  state : QueueState
  deriving DecidableEq

variable {σ : Type} {m : Memory σ} {it it' : Item σ} {items : List (Item σ)}

def Item.entry (it : Item σ) : Entry σ :=
  ⟨it.sourceSite, it.destinationSite, some it.sourcePath, some it.destinationPath, it.state⟩

/-- The strings, in the order in which they are freed. -/
def Item.paths (it : Item σ) : List Nat := [it.destinationPath, it.sourcePath]

/-- Equal in both sites and both paths. -/
def Item.Same (it it' : Item σ) : Prop :=
  (it.destinationSite = it'.destinationSite ∧ it.sourceSite = it'.sourceSite) ∧
    it.destination = it'.destination ∧ it.source = it'.source

/-- The strings are there. -/
structure Item.Readable (m : Memory σ) (it : Item σ) : Prop where
  source : m.strings it.sourcePath = some it.source
  destination : m.strings it.destinationPath = some it.destination

/-- What is in the array with the struct at one address and the entries at another. -/
def Stores (m : Memory σ) : Option (Nat × Nat) → List (Item σ) → Prop
  | none, items => items = []
  | some (a, p), items =>
      m.arrays a = some [⟨items.length, some p⟩] ∧ m.entries p = some (items.map Item.entry) ∧
        items ≠ []

theorem stringAt_eq {p : Nat} {s : Bytes} (h : m.strings p = some s) :
    stringAt m (some p) = .ok s := by
  rw [stringAt, Option.bind_some, h]

variable [DecidableEq σ]

instance (it it' : Item σ) : Decidable (it.Same it') := inferInstanceAs (Decidable (_ ∧ _))

def Item.same (it it' : Item σ) : Bool := decide (it.Same it')

theorem sameEntry_eq (h : it.Readable m) (h' : it'.Readable m) :
    sameEntry m it.entry it'.entry = .ok (it.same it') := by
  simp only [sameEntry, Item.entry, stringAt_eq h.source, stringAt_eq h.destination,
    stringAt_eq h'.source, stringAt_eq h'.destination, ok_bind, Item.same, Item.Same]
  by_cases hsites : it.destinationSite = it'.destinationSite ∧ it.sourceSite = it'.sourceSite
  · by_cases hdestination : it.destination = it'.destination
    · simp [hsites, hdestination]
    · simp [hsites, hdestination]
  · simp [hsites]

theorem findNthFrom_eq {p : Nat} (done rest : List (Item σ))
    (hp : m.entries p = some ((done ++ rest).map Item.entry)) (hrest : ∀ x ∈ rest, x.Readable m)
    (hit : it.Readable m) (len : Nat) :
    findNthFrom m ⟨len, some p⟩ it.entry rest.length done.length =
      .ok ((rest.findIdx? (·.same it)).map (· + done.length)) := by
  induction rest generalizing done with
  | nil => rfl
  | cons x rest ih =>
      obtain ⟨hx, hrest⟩ := List.forall_mem_cons.mp hrest
      have hload : entryAt m ⟨len, some p⟩ done.length = .ok x.entry := by
        show load m.entries p done.length = .ok x.entry
        rw [load, hp]
        simp
      have hnext := ih (done ++ [x]) (by simpa using hp) hrest
      rw [List.length_append, List.length_singleton] at hnext
      rw [List.length_cons, findNthFrom, hload, ok_bind, sameEntry_eq hx hit, ok_bind,
        List.findIdx?_cons]
      cases x.same it with
      | true => simp
      | false =>
          rw [hnext]
          simp [Function.comp_def, Nat.add_assoc, Nat.add_comm]

theorem findNth_eq {p : Nat} (hp : m.entries p = some (items.map Item.entry))
    (hitems : ∀ x ∈ items, x.Readable m) (hit : it.Readable m) :
    queueEntryArrayFindNth m ⟨items.length, some p⟩ it.entry = .ok (items.findIdx? (·.same it)) := by
  have hfind := findNthFrom_eq [] items hp hitems hit items.length
  simpa [queueEntryArrayFindNth] using hfind

end Items

section Appending

variable {σ : Type} [DecidableEq σ] {m : Memory σ} {it : Item σ} {items : List (Item σ)}
  {place : Option (Nat × Nat)}

/-- What the queue holds behind an append. -/
def appended (items : List (Item σ)) (it : Item σ) : List (Item σ) :=
  if items.any (·.same it) then items else items ++ [it]

/-- Memory is left for one more entry. -/
def Supplied (m : Memory σ) : Option (Nat × Nat) → Option (Grant QueueEntryArray) →
    Option (Grant (Entry σ)) → Prop
  | none, arrayGrant, entryGrant =>
      Granted m.arrays none arrayGrant ∧ Granted m.entries none entryGrant
  | some (_, p), _, entryGrant => Granted m.entries (some p) entryGrant

/-- Two arrays with no memory in common. -/
def Apart : Option (Nat × Nat) → Option (Nat × Nat) → Prop
  | some (a, p), some (a', p') => a ≠ a' ∧ p ≠ p'
  | _, _ => True

/-- Arrays that have no memory in common with the queue are still there, and still have none. -/
def Spares (m m' : Memory σ) (place place' : Option (Nat × Nat)) : Prop :=
  ∀ other items', Apart place other → Stores m other items' →
    Apart place' other ∧ Stores m' other items'

theorem append_new (it : Item σ) {arrayGrant : Option (Grant QueueEntryArray)}
    {entryGrant : Option (Grant (Entry σ))} (hsupplied : Supplied m none arrayGrant entryGrant) :
    ∃ m' place', queueEntryArrayAppend m none it.entry arrayGrant entryGrant =
        .ok (m', place'.map Prod.fst, none) ∧ Stores m' place' [it] ∧
      m'.strings = m.strings ∧ m'.freed = m.freed ∧ Spares m m' none place' := by
  obtain ⟨harray, hentry⟩ := hsupplied
  have hnoEntries : Holds m.entries none [] := rfl
  have hnoArrays : Holds m.arrays none [] := rfl
  obtain ⟨grown, entries, p, hrealloc, hstore, hholds, hframe⟩ := hnoEntries.push hentry it.entry
  obtain ⟨grown', arrays, a, hrealloc', hstore', hholds', hframe'⟩ :=
    hnoArrays.push harray ⟨1, some p⟩
  rw [List.length_nil, Nat.zero_add] at hrealloc hrealloc'
  rw [List.length_nil] at hstore hstore'
  refine ⟨{ m with entries := entries, arrays := arrays }, some (a, p), ?_, ?_, rfl, rfl, ?_⟩
  · simp only [queueEntryArrayAppend, hrealloc, hrealloc', hstore, hstore', ok_bind]
    rfl
  · exact ⟨hholds'.1, hholds.1, List.cons_ne_nil _ _⟩
  · intro other items' _ hother
    cases other with
    | none => exact ⟨trivial, hother⟩
    | some other =>
        obtain ⟨a', p'⟩ := other
        obtain ⟨ha, hp, hne⟩ := hother
        obtain ⟨hapart, hsame⟩ := hframe p' (by simp [hp]) (by simp)
        obtain ⟨hapart', hsame'⟩ := hframe' a' (by simp [ha]) (by simp)
        exact ⟨⟨hapart', hapart⟩, hsame'.trans ha, hsame.trans hp, hne⟩

theorem append_more {a p : Nat} (hstores : Stores m (some (a, p)) items)
    (hitems : ∀ x ∈ items, x.Readable m) (hit : it.Readable m)
    (hnew : items.findIdx? (·.same it) = none) {arrayGrant : Option (Grant QueueEntryArray)}
    {entryGrant : Option (Grant (Entry σ))}
    (hsupplied : Supplied m (some (a, p)) arrayGrant entryGrant) :
    ∃ m' place', queueEntryArrayAppend m (some a) it.entry arrayGrant entryGrant =
        .ok (m', place'.map Prod.fst, none) ∧ Stores m' place' (items ++ [it]) ∧
      m'.strings = m.strings ∧ m'.freed = m.freed ∧ Spares m m' (some (a, p)) place' := by
  obtain ⟨ha, hp, hne⟩ := hstores
  have hholds : Holds m.entries (some p) (items.map Item.entry) := ⟨hp, by simpa using hne⟩
  obtain ⟨grown, entries, q, hrealloc, hstore, hholds', hframe⟩ := hholds.push hsupplied it.entry
  rw [List.length_map] at hrealloc hstore
  have hload : load m.arrays a 0 = .ok ⟨items.length, some p⟩ := by
    rw [load, ha]
    rfl
  have hstoreArray : store m.arrays a 0 ⟨items.length + 1, some q⟩ =
      .ok (Function.update m.arrays a (some [⟨items.length + 1, some q⟩])) := by
    rw [store, ha]
    rfl
  have hresize : platformHeapResize m.entries (some p) (items.length + 1) entryGrant =
      .ok (grown, some q) := by
    rw [platformHeapResize, if_pos ⟨rfl, Nat.succ_ne_zero _⟩, hrealloc]
  refine ⟨{ m with
    entries := entries
    arrays := Function.update m.arrays a (some [⟨items.length + 1, some q⟩]) },
    some (a, q), ?_, ?_, rfl, rfl, ?_⟩
  · simp only [queueEntryArrayAppend, hload, ok_bind, findNth_eq hp hitems hit, hnew, hresize,
      hstore, hstoreArray]
    rfl
  · refine ⟨?_, ?_, by simp⟩
    · rw [List.length_append]
      exact Function.update_self ..
    · rw [List.map_append]
      exact hholds'.1
  · intro other items' hapart hother
    cases other with
    | none => exact ⟨trivial, hother⟩
    | some other =>
        obtain ⟨a', p'⟩ := other
        obtain ⟨ha', hp', hne'⟩ := hother
        obtain ⟨hq, hsame⟩ := hframe p' (by simp [hp']) (by simpa using hapart.2)
        refine ⟨⟨hapart.1, hq⟩, ?_, hsame.trans hp', hne'⟩
        exact (Function.update_of_ne hapart.1.symm _ _).trans ha'

theorem append_spec (hstores : Stores m place items) (hitems : ∀ x ∈ items, x.Readable m)
    (hit : it.Readable m) {arrayGrant : Option (Grant QueueEntryArray)}
    {entryGrant : Option (Grant (Entry σ))} (hsupplied : Supplied m place arrayGrant entryGrant) :
    ∃ m' place', queueEntryArrayAppend m (place.map Prod.fst) it.entry arrayGrant entryGrant =
        .ok (m', place'.map Prod.fst, none) ∧ Stores m' place' (appended items it) ∧
      m'.strings = m.strings ∧ m'.freed = m.freed ∧ Spares m m' place place' := by
  cases place with
  | none =>
      obtain rfl : items = [] := hstores
      exact append_new it hsupplied
  | some place =>
      obtain ⟨a, p⟩ := place
      cases hfind : items.findIdx? (·.same it) with
      | none =>
          have hany : items.any (·.same it) = false := by
            rw [← List.findIdx?_isSome, hfind]
            rfl
          rw [appended, if_neg (by simp [hany])]
          exact append_more hstores hitems hit hfind hsupplied
      | some i =>
          have hany : items.any (·.same it) = true := by
            rw [← List.findIdx?_isSome, hfind]
            rfl
          rw [appended, if_pos hany]
          obtain ⟨ha, hp, -⟩ := id hstores
          have hload : load m.arrays a 0 = .ok ⟨items.length, some p⟩ := by
            rw [load, ha]
            rfl
          refine ⟨m, some (a, p), ?_, hstores, rfl, rfl, fun _ _ hapart hother => ⟨hapart, hother⟩⟩
          simp only [Option.map_some, queueEntryArrayAppend, hload, ok_bind,
            findNth_eq hp hitems hit, hfind]

end Appending

section Removing

variable {σ : Type} [DecidableEq σ] {m : Memory σ} {it x : Item σ} {items front rest : List (Item σ)}

/-- The memory without the strings of an entry. -/
def released (m : Memory σ) (x : Item σ) : Memory σ :=
  { m with
    strings := Function.update (Function.update m.strings x.destinationPath none) x.sourcePath none
    freed := m.freed ++ x.paths }

omit [DecidableEq σ] in
theorem queueEntryFree_eq (h : x.Readable m) (hpaths : x.sourcePath ≠ x.destinationPath) :
    queueEntryFree m x.entry = .ok (released m x) := by
  have hsource : Function.update m.strings x.destinationPath none x.sourcePath = some x.source := by
    rw [Function.update_of_ne hpaths, h.source]
  simp only [queueEntryFree, Item.entry, freePath, free, h.destination, hsource, ok_bind, released,
    List.append_assoc, Item.paths]
  rfl

omit [DecidableEq σ] in
/-- The entries behind the one that goes move up, and the last one is there twice. -/
theorem moveUpFrom_eq {p : Nat} {entries : Heap (Entry σ)} (rest front : List (Entry σ))
    {x : Entry σ} (hp : entries p = some (front ++ x :: rest)) :
    moveUpFrom p rest.length front.length entries =
      .ok (Function.update entries p
        (some (front ++ rest ++ [(x :: rest).getLast (List.cons_ne_nil _ _)]))) := by
  induction rest generalizing front x entries with
  | nil =>
      rw [List.append_nil, List.getLast_singleton, ← hp, Function.update_eq_self]
      rfl
  | cons y rest ih =>
      have hload : load entries p (front.length + 1) = .ok y := by
        rw [load, hp]
        simp
      have hstore : store entries p front.length y =
          .ok (Function.update entries p (some (front ++ [y] ++ y :: rest))) := by
        rw [store, hp]
        simp
      have hset : Function.update entries p (some (front ++ [y] ++ y :: rest)) p =
          some (front ++ [y] ++ y :: rest) := Function.update_self ..
      have hnext := ih (front ++ [y]) hset
      rw [List.length_append, List.length_singleton] at hnext
      rw [List.length_cons, moveUpFrom, hload, ok_bind, hstore, ok_bind, hnext,
        Function.update_idem, List.getLast_cons (List.cons_ne_nil _ _)]
      simp

theorem remove_absent {place : Option (Nat × Nat)} (hstores : Stores m place items)
    (hitems : ∀ x ∈ items, x.Readable m) (hit : it.Readable m)
    (habsent : items.findIdx? (·.same it) = none) (grant : Option (Grant (Entry σ))) :
    queueEntryArrayRemove m (place.map Prod.fst) it.entry grant =
      .ok (m, place.map Prod.fst, some .noSuchEntry) := by
  cases place with
  | none => rfl
  | some place =>
      obtain ⟨a, p⟩ := place
      obtain ⟨ha, hp, -⟩ := hstores
      have hload : load m.arrays a 0 = .ok ⟨items.length, some p⟩ := by
        rw [load, ha]
        rfl
      simp only [Option.map_some, queueEntryArrayRemove, hload, ok_bind, findNth_eq hp hitems hit,
        habsent]

omit [DecidableEq σ] in
/-- The end of a removal, when the entries that are kept stand in front and the last one
behind them once more. -/
def shrinkTo (m : Memory σ) (a p : Nat) (kept : List (Entry σ)) (last : Entry σ)
    (grant : Option (Grant (Entry σ))) :
    Except Stop (Memory σ × Option Nat × Option QueueError) := do
  let (entries, q) ← realloc (Function.update m.entries p (some (kept ++ [last]))) (some p)
    kept.length grant
  match q with
  | none => .ok ({ m with entries := entries }, some a, some .outOfMemory)
  | some q => do
      let arrays ← store m.arrays a 0 ⟨kept.length, some q⟩
      .ok ({ m with entries := entries, arrays := arrays }, some a, none)

theorem remove_found {a p : Nat} (hstores : Stores m (some (a, p)) (front ++ x :: rest))
    (hitems : ∀ y ∈ front ++ x :: rest, y.Readable m) (hit : it.Readable m)
    (hpaths : x.sourcePath ≠ x.destinationPath) (hmore : front ++ rest ≠ [])
    (hfound : (front ++ x :: rest).findIdx? (·.same it) = some front.length)
    (grant : Option (Grant (Entry σ))) :
    ∃ last, queueEntryArrayRemove m (some a) it.entry grant =
      shrinkTo (released m x) a p ((front ++ rest).map Item.entry) last grant := by
  obtain ⟨ha, hp, -⟩ := hstores
  have hload : load m.arrays a 0 = .ok ⟨(front ++ x :: rest).length, some p⟩ := by
    rw [load, ha]
    rfl
  have hentry : load m.entries p front.length = .ok x.entry := by
    rw [load, hp]
    simp
  have hlength : (front ++ x :: rest).length - 1 = (front ++ rest).length := by
    simp
  have hturns : (front ++ rest).length - front.length = rest.length := by simp
  have hpos : (front ++ rest).length ≠ 0 := by simpa using hmore
  have hmove := @moveUpFrom_eq σ p (released m x).entries (rest.map Item.entry)
    (front.map Item.entry) x.entry (by simpa [released] using hp)
  rw [List.length_map, List.length_map, ← List.map_append] at hmove
  refine ⟨(x.entry :: rest.map Item.entry).getLast (List.cons_ne_nil _ _), ?_⟩
  simp only [queueEntryArrayRemove, hload, ok_bind, findNth_eq hp hitems hit, hfound, hentry,
    queueEntryFree_eq (hitems x (by simp)) hpaths, hlength, hturns, hpos, ne_eq, not_false_eq_true,
    if_true, hmove, platformHeapResize, Option.isSome_some, and_self, shrinkTo, List.length_map]

theorem remove_more {a p : Nat} (hstores : Stores m (some (a, p)) (front ++ x :: rest))
    (hitems : ∀ y ∈ front ++ x :: rest, y.Readable m) (hit : it.Readable m)
    (hpaths : x.sourcePath ≠ x.destinationPath) (hmore : front ++ rest ≠ [])
    (hfound : (front ++ x :: rest).findIdx? (·.same it) = some front.length)
    {grant : Option (Grant (Entry σ))} (hgrant : Granted m.entries (some p) grant) :
    ∃ m' place', queueEntryArrayRemove m (some a) it.entry grant =
        .ok (m', place'.map Prod.fst, none) ∧ Stores m' place' (front ++ rest) ∧
      m'.strings = (released m x).strings ∧ m'.freed = (released m x).freed ∧
      Spares m m' (some (a, p)) place' := by
  obtain ⟨last, hremove⟩ := remove_found hstores hitems hit hpaths hmore hfound grant
  obtain ⟨ha, hp, -⟩ := hstores
  have hkept : (front ++ rest).map Item.entry ≠ [] := by simpa using hmore
  have hholds : Holds (Function.update m.entries p (some ((front ++ rest).map Item.entry ++ [last])))
      (some p) ((front ++ rest).map Item.entry ++ [last]) :=
    ⟨Function.update_self .., by simp⟩
  have hgranted : Granted (Function.update m.entries p
      (some ((front ++ rest).map Item.entry ++ [last]))) (some p) grant := by
    cases grant with
    | none => exact hgrant
    | some grant =>
        by_cases hsame : grant.address = p
        · exact .inr (congrArg some hsame.symm)
        · refine .inl ?_
          rcases hgrant with hfree | hsame'
          · rw [Function.update_of_ne hsame, hfree]
          · exact absurd (Option.some.inj hsame').symm hsame
  obtain ⟨entries, q, hrealloc, hholds', hframe⟩ := hholds.shrink hkept hgranted
  have hstore : store m.arrays a 0 ⟨((front ++ rest).map Item.entry).length, some q⟩ =
      .ok (Function.update m.arrays a (some [⟨((front ++ rest).map Item.entry).length, some q⟩])) := by
    rw [store, ha]
    rfl
  refine ⟨{ released m x with
    entries := entries
    arrays := Function.update m.arrays a
      (some [⟨((front ++ rest).map Item.entry).length, some q⟩]) }, some (a, q), ?_, ?_, rfl, rfl, ?_⟩
  · have hentries : (released m x).entries = m.entries := rfl
    have harrays : (released m x).arrays = m.arrays := rfl
    simp only [hremove, shrinkTo, hentries, harrays, hrealloc, hstore, ok_bind]
    rfl
  · refine ⟨?_, hholds'.1, hmore⟩
    rw [← List.length_map (f := Item.entry)]
    exact Function.update_self ..
  · intro other items' hapart hother
    cases other with
    | none => exact ⟨trivial, hother⟩
    | some other =>
        obtain ⟨a', p'⟩ := other
        obtain ⟨ha', hp', hne'⟩ := hother
        have hold := Function.update_of_ne hapart.2.symm
          (some ((front ++ rest).map Item.entry ++ [last])) m.entries
        obtain ⟨hq, hsame⟩ := hframe p' (by rw [hold, hp']; exact Option.some_ne_none _) hapart.2
        refine ⟨⟨hapart.1, hq⟩, ?_, hsame.trans (hold.trans hp'), hne'⟩
        exact (Function.update_of_ne hapart.1.symm _ _).trans ha'

theorem remove_only {a p : Nat} (hstores : Stores m (some (a, p)) [x]) (hx : x.Readable m)
    (hit : it.Readable m) (hpaths : x.sourcePath ≠ x.destinationPath) (hsame : x.same it = true)
    (grant : Option (Grant (Entry σ))) :
    queueEntryArrayRemove m (some a) it.entry grant = .error .outOfBounds := by
  obtain ⟨ha, hp, -⟩ := hstores
  have hload : load m.arrays a 0 = .ok ⟨1, some p⟩ := by
    rw [load, ha]
    rfl
  have hentry : load m.entries p 0 = .ok x.entry := by
    rw [load, hp]
    rfl
  have hfound : queueEntryArrayFindNth m ⟨1, some p⟩ it.entry = .ok (some 0) := by
    have hfind := findNth_eq hp (List.forall_mem_singleton.mpr hx) hit
    rw [List.findIdx?_cons, hsame] at hfind
    exact hfind
  have hagain : queueEntryFree (released m x) x.entry = .error .outOfBounds := by
    have hgone : (released m x).strings x.destinationPath = none :=
      (Function.update_of_ne hpaths.symm _ _).trans (Function.update_self ..)
    simp only [queueEntryFree, Item.entry, freePath, free, hgone, error_bind]
  have hfree := queueEntryFree_eq hx hpaths
  have hload' : load (released m x).arrays a 0 = .ok ⟨1, some p⟩ := hload
  have hentry' : entryAt (released m x) ⟨1, some p⟩ 0 = .ok x.entry := hentry
  simp only [queueEntryArrayRemove, hload, ok_bind, hfound, hentry, hfree, Nat.sub_self, ne_eq,
    not_true_eq_false, if_false, queueEntryArrayFree, hload', Option.isSome_some, if_true,
    freeEntriesFrom, hentry', hagain, error_bind]

end Removing

section Sessions

variable {σ : Type} [DecidableEq σ]

/-- The queue between two calls, and what the last one reported. -/
structure Session (σ : Type) where
  memory : Memory σ
  queueEntryArray : Option Nat
  reported : Option QueueError

/-- A call with the memory it is given. The strings of an entry that is appended are new. -/
inductive Call (σ : Type) where
  | append (it : Item σ) (arrayGrant : Option (Grant QueueEntryArray))
      (entryGrant : Option (Grant (Entry σ)))
  | remove (it : Item σ) (grant : Option (Grant (Entry σ)))

/-- The caller makes the strings of an entry. -/
def handed (m : Memory σ) (it : Item σ) : Memory σ :=
  { m with
    strings := Function.update (Function.update m.strings it.sourcePath (some it.source))
      it.destinationPath (some it.destination) }

def Session.call (s : Session σ) : Call σ → Except Stop (Session σ)
  | .append it arrayGrant entryGrant => do
      let (memory, queueEntryArray, reported) ← queueEntryArrayAppend (handed s.memory it)
        s.queueEntryArray it.entry arrayGrant entryGrant
      .ok ⟨memory, queueEntryArray, reported⟩
  | .remove it grant => do
      let (memory, queueEntryArray, reported) ← queueEntryArrayRemove s.memory s.queueEntryArray
        it.entry grant
      .ok ⟨memory, queueEntryArray, reported⟩

/-- What has become of the entries that were appended, and what the last call is to report. -/
structure Ledger (σ : Type) where
  stored : List (Item σ)
  removed : List (Item σ)
  reported : Option QueueError

def Ledger.call (l : Ledger σ) : Call σ → Ledger σ
  | .append it _ _ => ⟨appended l.stored it, l.removed, none⟩
  | .remove it _ =>
      ⟨l.stored.filter (!·.same it), l.removed ++ l.stored.filter (·.same it),
        if l.stored.any (·.same it) then none else some .noSuchEntry⟩

/-- A call takes the session and its ledger on. -/
def step : Session σ × Ledger σ → Call σ → Except Stop (Session σ × Ledger σ)
  | (s, l), c => do
      let s ← s.call c
      .ok (s, l.call c)

/-- The array holds what the ledger says, in memory that is all its own, and the strings
that were freed are those of the entries that were removed, each once. -/
structure Agrees (s : Session σ) (l : Ledger σ) : Prop where
  stores : ∃ place, s.queueEntryArray = place.map Prod.fst ∧ Stores s.memory place l.stored
  distinct : l.stored.Pairwise fun x y => x.same y = false
  readable : ∀ x ∈ l.stored, x.Readable s.memory
  owned : (l.stored.flatMap Item.paths).Nodup
  freed : s.memory.freed = l.removed.flatMap Item.paths
  reported : s.reported = l.reported

/-- The allocator has memory for the entries. -/
def Resizable (s : Session σ) (grant : Option (Grant (Entry σ))) : Prop :=
  ∀ a array, s.queueEntryArray = some a → s.memory.arrays a = some [array] →
    Granted s.memory.entries array.entry grant

/-- What a caller sees to: new strings for an entry that is appended, strings that are there
for one that is removed, and memory enough. -/
def Given : Session σ × Ledger σ → Call σ → Prop
  | (s, _), .append it arrayGrant entryGrant =>
      s.memory.strings it.sourcePath = none ∧ s.memory.strings it.destinationPath = none ∧
        it.sourcePath ≠ it.destinationPath ∧ Resizable s entryGrant ∧
        (s.queueEntryArray = none →
          Granted s.memory.arrays none arrayGrant ∧ Granted s.memory.entries none entryGrant)
  | (s, _), .remove it grant => it.Readable s.memory ∧ Resizable s grant

/-- The entry that is removed is not the only one. -/
def Harmless : Session σ × Ledger σ → Call σ → Prop
  | _, .append _ _ _ => True
  | (_, l), .remove it _ => ∀ x, l.stored = [x] → x.same it = false

variable {s : Session σ} {l : Ledger σ} {it x : Item σ}

omit [DecidableEq σ] in
theorem strings_handed (m : Memory σ) (it : Item σ) :
    (handed m it).strings = Function.update (Function.update m.strings it.sourcePath (some it.source))
      it.destinationPath (some it.destination) := rfl

omit [DecidableEq σ] in
theorem strings_released (m : Memory σ) (x : Item σ) :
    (released m x).strings =
      Function.update (Function.update m.strings x.destinationPath none) x.sourcePath none := rfl

omit [DecidableEq σ] in
theorem Item.Readable.congr {m m' : Memory σ} (h : x.Readable m)
    (hsame : ∀ p ∈ x.paths, m'.strings p = m.strings p) : x.Readable m' := by
  constructor
  · rw [hsame _ (by simp [Item.paths]), h.source]
  · rw [hsame _ (by simp [Item.paths]), h.destination]

omit [DecidableEq σ] in
theorem Item.Readable.ne_none {m : Memory σ} (h : x.Readable m) : ∀ p ∈ x.paths, m.strings p ≠ none := by
  intro p hp
  rcases List.mem_pair.mp hp with rfl | rfl
  · simp [h.destination]
  · simp [h.source]

omit [DecidableEq σ] in
theorem strings_handed_of_ne_none {m : Memory σ} (hsource : m.strings it.sourcePath = none)
    (hdestination : m.strings it.destinationPath = none) {p : Nat} (hp : m.strings p ≠ none) :
    (handed m it).strings p = m.strings p := by
  have hne : p ≠ it.sourcePath := fun heq => hp (heq ▸ hsource)
  have hne' : p ≠ it.destinationPath := fun heq => hp (heq ▸ hdestination)
  rw [strings_handed, Function.update_of_ne hne', Function.update_of_ne hne]

omit [DecidableEq σ] in
theorem readable_handed (m : Memory σ) (hpaths : it.sourcePath ≠ it.destinationPath) :
    it.Readable (handed m it) := by
  constructor
  · rw [strings_handed, Function.update_of_ne hpaths, Function.update_self]
  · rw [strings_handed, Function.update_self]

theorem Agrees.append (h : Agrees s l) {arrayGrant : Option (Grant QueueEntryArray)}
    {entryGrant : Option (Grant (Entry σ))} (hgiven : Given (s, l) (.append it arrayGrant entryGrant)) :
    ∃ s', s.call (.append it arrayGrant entryGrant) = .ok s' ∧
      Agrees s' (l.call (.append it arrayGrant entryGrant)) := by
  obtain ⟨hsource, hdestination, hpaths, hresize, hnew⟩ := hgiven
  obtain ⟨place, hplace, hstores⟩ := h.stores
  have hsupplied : Supplied (handed s.memory it) place arrayGrant entryGrant := by
    cases place with
    | none => exact hnew hplace
    | some place => exact hresize _ _ hplace hstores.1
  have hitems : ∀ x ∈ l.stored, x.Readable (handed s.memory it) := fun x hx =>
    (h.readable x hx).congr fun p hp =>
      strings_handed_of_ne_none hsource hdestination ((h.readable x hx).ne_none p hp)
  have hstores' : Stores (handed s.memory it) place l.stored := by
    cases place <;> exact hstores
  have hit := readable_handed s.memory hpaths
  obtain ⟨m', place', hcall, hstored, hstrings, hfreed, -⟩ :=
    append_spec hstores' hitems hit hsupplied
  have hsame : ∀ x : Item σ, x.Readable (handed s.memory it) → x.Readable m' :=
    fun x hx => hx.congr fun p _ => by rw [hstrings]
  refine ⟨⟨m', place'.map Prod.fst, none⟩, ?_, ⟨place', rfl, hstored⟩, ?_, ?_, ?_, ?_, rfl⟩
  · rw [Session.call, hplace, hcall]
    rfl
  · rw [Ledger.call, appended]
    split
    · exact h.distinct
    · rename_i hany
      refine List.pairwise_append.mpr ⟨h.distinct, List.pairwise_singleton _ _, ?_⟩
      intro x hx y hy
      rw [List.mem_singleton.mp hy]
      by_contra hxit
      exact hany (List.any_eq_true.mpr ⟨x, hx, by simpa using hxit⟩)
  · rw [Ledger.call, appended]
    split
    · exact fun x hx => hsame x (hitems x hx)
    · intro x hx
      rcases List.mem_append.mp hx with hx | hx
      · exact hsame x (hitems x hx)
      · rw [List.mem_singleton.mp hx]
        exact hsame it hit
  · rw [Ledger.call, appended]
    split
    · exact h.owned
    · rw [List.flatMap_append, List.nodup_append]
      refine ⟨h.owned, by simp [Item.paths, hpaths.symm], ?_⟩
      intro p hp q hq
      obtain ⟨x, hx, hpx⟩ := List.mem_flatMap.mp hp
      have hthere := (h.readable x hx).ne_none p hpx
      rintro rfl
      rw [List.flatMap_singleton] at hq
      rcases List.mem_pair.mp hq with rfl | rfl
      · exact hthere hdestination
      · exact hthere hsource
  · rw [hfreed]
    exact h.freed

theorem Item.same_of_same {y : Item σ} (hx : x.same it = true) (hy : y.same it = true) :
    x.same y = true := by
  obtain ⟨⟨h1, h2⟩, h3, h4⟩ := of_decide_eq_true hx
  obtain ⟨⟨h1', h2'⟩, h3', h4'⟩ := of_decide_eq_true hy
  exact decide_eq_true
    ⟨⟨h1.trans h1'.symm, h2.trans h2'.symm⟩, h3.trans h3'.symm, h4.trans h4'.symm⟩

theorem exists_split {items : List (Item σ)} (hdistinct : items.Pairwise fun x y => x.same y = false)
    {i : Nat} (hfind : items.findIdx? (·.same it) = some i) :
    ∃ front x rest, items = front ++ x :: rest ∧ front.length = i ∧ x.same it = true ∧
      items.filter (!·.same it) = front ++ rest ∧ items.filter (·.same it) = [x] := by
  obtain ⟨hi, hx, hfirst⟩ := List.findIdx?_eq_some_iff_getElem.mp hfind
  obtain ⟨front, x, rest, rfl, rfl, hx, hfront⟩ : ∃ front x rest, items = front ++ x :: rest ∧
      front.length = i ∧ x.same it = true ∧ ∀ y ∈ front, y.same it = false := by
    refine ⟨items.take i, items[i], items.drop (i + 1), by simp, by simp; omega, hx, ?_⟩
    intro y hy
    obtain ⟨j, hj, rfl⟩ := List.mem_take_iff_getElem.mp hy
    simpa using hfirst j (by omega)
  have hrest : ∀ y ∈ rest, y.same it = false := by
    intro y hy
    have hbehind := (List.pairwise_cons.mp (List.pairwise_append.mp hdistinct).2.1).1 y hy
    by_contra hsame
    rw [Item.same_of_same hx (by simpa using hsame)] at hbehind
    exact absurd hbehind (by simp)
  refine ⟨front, x, rest, rfl, rfl, hx, ?_, ?_⟩
  · rw [List.filter_append, List.filter_cons_of_neg (by simp [hx]),
      List.filter_eq_self.mpr (by simpa using hfront), List.filter_eq_self.mpr (by simpa using hrest)]
  · rw [List.filter_append, List.filter_cons_of_pos (by simp [hx]),
      List.filter_eq_nil_iff.mpr (by simpa using hfront),
      List.filter_eq_nil_iff.mpr (by simpa using hrest), List.nil_append]

/-- A queue as its owner sees it: distinct entries with strings of their own. -/
structure Holding (m : Memory σ) (place : Option (Nat × Nat)) (items : List (Item σ)) : Prop where
  stores : Stores m place items
  distinct : items.Pairwise fun x y => x.same y = false
  readable : ∀ x ∈ items, x.Readable m
  owned : (items.flatMap Item.paths).Nodup

theorem Holding.paths_ne {m : Memory σ} {place : Option (Nat × Nat)} {items : List (Item σ)}
    (h : Holding m place items) (hx : x ∈ items) : x.sourcePath ≠ x.destinationPath := by
  obtain ⟨front, rest, hsplit⟩ := List.append_of_mem hx
  have howned := h.owned
  rw [hsplit, List.flatMap_append, List.flatMap_cons] at howned
  have hpair := (List.nodup_append.mp (List.nodup_append.mp howned).2.1).1
  simpa [Item.paths, eq_comm] using hpair

theorem Agrees.holding (h : Agrees s l) :
    ∃ place, s.queueEntryArray = place.map Prod.fst ∧ Holding s.memory place l.stored := by
  obtain ⟨place, hplace, hstores⟩ := h.stores
  exact ⟨place, hplace, hstores, h.distinct, h.readable, h.owned⟩

theorem Holding.remove {m : Memory σ} {a p i : Nat} {items : List (Item σ)}
    (h : Holding m (some (a, p)) items) (hit : it.Readable m)
    (hfind : items.findIdx? (·.same it) = some i) (hmore : items.filter (!·.same it) ≠ [])
    {grant : Option (Grant (Entry σ))} (hgranted : Granted m.entries (some p) grant) :
    ∃ x m' place', queueEntryArrayRemove m (some a) it.entry grant =
        .ok (m', place'.map Prod.fst, none) ∧ items.filter (·.same it) = [x] ∧
      Holding m' place' (items.filter (!·.same it)) ∧ m'.strings = (released m x).strings ∧
      m'.freed = m.freed ++ x.paths ∧ Spares m m' (some (a, p)) place' := by
  obtain ⟨front, x, rest, rfl, rfl, -, hkept, hgone⟩ := exists_split h.distinct hfind
  rw [hkept] at hmore ⊢
  have hsub : (front ++ rest).Sublist (front ++ x :: rest) :=
    (List.sublist_cons_self x rest).append_left front
  have hseparate : (x.paths ++ (front ++ rest).flatMap Item.paths).Nodup := by
    rw [← List.flatMap_cons]
    exact (List.perm_middle.flatMap_right Item.paths).nodup_iff.mp h.owned
  obtain ⟨-, hothers, hapart⟩ := List.nodup_append.mp hseparate
  have hpaths := h.paths_ne (by simp : x ∈ front ++ x :: rest)
  obtain ⟨m', place', hremove, hstored, hstrings, hfreed, hspares⟩ :=
    remove_more h.stores h.readable hit hpaths hmore hfind hgranted
  refine ⟨x, m', place', hremove, hgone, ⟨hstored, h.distinct.sublist hsub, ?_, hothers⟩, hstrings,
    hfreed, hspares⟩
  intro y hy
  refine (h.readable y (hsub.subset hy)).congr fun q hq => ?_
  have hother : ∀ r ∈ x.paths, q ≠ r := by
    rintro r hr rfl
    exact hapart q hr q (List.mem_flatMap.mpr ⟨y, hy, hq⟩) rfl
  rw [hstrings, strings_released, Function.update_of_ne (hother _ (by simp [Item.paths])),
    Function.update_of_ne (hother _ (by simp [Item.paths]))]

theorem Agrees.remove (h : Agrees s l) {grant : Option (Grant (Entry σ))}
    (hgiven : Given (s, l) (.remove it grant)) (hharmless : Harmless (s, l) (.remove it grant)) :
    ∃ s', s.call (.remove it grant) = .ok s' ∧ Agrees s' (l.call (.remove it grant)) := by
  obtain ⟨hit, hresize⟩ := hgiven
  obtain ⟨place, hplace, hholding⟩ := h.holding
  cases hfind : l.stored.findIdx? (·.same it) with
  | none =>
      have hremove := remove_absent hholding.stores h.readable hit hfind grant
      have hnone : ∀ x ∈ l.stored, x.same it = false := by simpa using hfind
      have hall : l.stored.filter (!·.same it) = l.stored :=
        List.filter_eq_self.mpr fun x hx => by simp [hnone x hx]
      have hgone : l.stored.filter (·.same it) = [] :=
        List.filter_eq_nil_iff.mpr fun x hx => by simp [hnone x hx]
      have hany : l.stored.any (·.same it) = false := by
        rw [← List.findIdx?_isSome, hfind]
        rfl
      refine ⟨⟨s.memory, place.map Prod.fst, some .noSuchEntry⟩, ?_, ?_⟩
      · rw [Session.call, hplace, hremove]
        rfl
      · rw [Ledger.call, hall, hgone, hany, List.append_nil]
        exact ⟨⟨place, rfl, hholding.stores⟩, h.distinct, h.readable, h.owned, h.freed, rfl⟩
  | some i =>
      have hany : l.stored.any (·.same it) = true := by
        rw [← List.findIdx?_isSome, hfind]
        rfl
      have hmore : l.stored.filter (!·.same it) ≠ [] := by
        obtain ⟨front, x, rest, hsplit, -, hx, hkept, -⟩ := exists_split h.distinct hfind
        rw [hkept]
        intro hnil
        obtain ⟨rfl, rfl⟩ := List.append_eq_nil_iff.mp hnil
        rw [hharmless x hsplit] at hx
        exact absurd hx Bool.false_ne_true
      cases place with
      | none =>
          obtain hnil : l.stored = [] := hholding.stores
          rw [hnil] at hfind
          exact absurd hfind (by simp)
      | some place =>
          obtain ⟨a, p⟩ := place
          obtain ⟨x, m', place', hremove, hgone, hholding', -, hfreed, -⟩ :=
            hholding.remove hit hfind hmore (hresize _ _ hplace hholding.stores.1)
          refine ⟨⟨m', place'.map Prod.fst, none⟩, ?_, ?_⟩
          · rw [Session.call, hplace, Option.map_some, hremove]
            rfl
          · rw [Ledger.call, hgone, hany]
            refine ⟨⟨place', rfl, hholding'.stores⟩, hholding'.distinct, hholding'.readable,
              hholding'.owned, ?_, rfl⟩
            show m'.freed = (l.removed ++ [x]).flatMap Item.paths
            rw [hfreed, List.flatMap_append, ← h.freed, List.flatMap_singleton]

/-- Only the removal of the only entry does not come back. -/
theorem call_ok_iff (h : Agrees s l) {c : Call σ} (hgiven : Given (s, l) c) :
    (∃ t, step (s, l) c = .ok t) ↔ Harmless (s, l) c := by
  constructor
  · rintro ⟨t, hstep⟩
    cases c with
    | append it arrayGrant entryGrant => trivial
    | remove it grant =>
        intro x hsingle
        by_contra hsame
        obtain ⟨place, hplace, hholding⟩ := h.holding
        have hx := h.readable x (by simp [hsingle])
        have hpaths := hholding.paths_ne (by simp [hsingle] : x ∈ l.stored)
        have hstores := hholding.stores
        rw [hsingle] at hstores
        cases place with
        | none => exact absurd hstores (by simp [Stores])
        | some place =>
            have hremove := remove_only hstores hx hgiven.1 hpaths (by simpa using hsame) grant
            rw [step, Session.call, hplace, Option.map_some, hremove, error_bind, error_bind] at hstep
            exact absurd hstep (by simp)
  · intro hharmless
    cases c with
    | append it arrayGrant entryGrant =>
        obtain ⟨s', hcall, -⟩ := h.append hgiven
        exact ⟨(s', _), by rw [step, hcall]; rfl⟩
    | remove it grant =>
        obtain ⟨s', hcall, -⟩ := h.remove hgiven hharmless
        exact ⟨(s', _), by rw [step, hcall]; rfl⟩

theorem agrees_step {t : Session σ × Ledger σ} {c : Call σ} (h : Agrees s l) (hgiven : Given (s, l) c)
    (hharmless : Harmless (s, l) c) (hstep : step (s, l) c = .ok t) : Agrees t.1 t.2 := by
  have hnext : ∃ s', s.call c = .ok s' ∧ Agrees s' (l.call c) := by
    cases c with
    | append it arrayGrant entryGrant => exact h.append hgiven
    | remove it grant => exact h.remove hgiven hharmless
  obtain ⟨s', hcall, hagrees⟩ := hnext
  rw [step, hcall] at hstep
  obtain rfl := Except.ok.inj hstep
  exact hagrees

/-- No array yet, and nothing freed. -/
def Fresh (t : Session σ × Ledger σ) : Prop :=
  t.1.queueEntryArray = none ∧ t.1.reported = none ∧ t.1.memory.freed = [] ∧ t.2 = ⟨[], [], none⟩

theorem agrees_of_fresh {t : Session σ × Ledger σ} (h : Fresh t) : Agrees t.1 t.2 := by
  obtain ⟨⟨memory, array, reported⟩, l⟩ := t
  obtain ⟨rfl, rfl, hfreed, rfl⟩ := h
  exact ⟨⟨none, rfl, rfl⟩, List.Pairwise.nil, by simp, by simp, hfreed, rfl⟩

/-- As long as the only entry is not removed, the queue keeps its ledger, and every other
call comes back. -/
theorem queue_keeps_ledger {s t : Session σ × Ledger σ} (hfresh : Fresh s)
    (hrun : Run step (fun s c => Given s c ∧ Harmless s c) s t) :
    Agrees t.1 t.2 ∧ ∀ c, Given t c → ((∃ u, step t c = .ok u) ↔ Harmless t c) := by
  have hagrees : Agrees t.1 t.2 := by
    refine run_invariant (fun t => Agrees t.1 t.2) ?_ hrun (agrees_of_fresh hfresh)
    intro s c t h hallowed hstep
    exact agrees_step h hallowed.1 hallowed.2 hstep
  exact ⟨hagrees, fun c hgiven => call_ok_iff hagrees hgiven⟩

def noQueue : Session Nat × Ledger Nat :=
  (⟨⟨fun _ => none, fun _ => none, fun _ => none, []⟩, none, none⟩, ⟨[], [], none⟩)

def someEntry : Item Nat := ⟨0, 1, 1, 2, text "/a", text "/b", ⟨true, false, false⟩⟩

def appendSomeEntry : Call Nat :=
  .append someEntry (some ⟨10, fun _ => ⟨0, none⟩⟩) (some ⟨20, fun _ => someEntry.entry⟩)

def oneEntry : Session Nat × Ledger Nat := ((step noQueue appendSomeEntry).toOption).getD noQueue

theorem fresh_noQueue : Fresh noQueue := ⟨rfl, rfl, rfl, rfl⟩

theorem given_appendSomeEntry : Given noQueue appendSomeEntry := by
  refine ⟨rfl, rfl, by decide, ?_, fun _ => ⟨.inl rfl, .inl rfl⟩⟩
  intro a array hnone
  exact absurd hnone (by simp)

theorem step_appendSomeEntry : step noQueue appendSomeEntry = .ok oneEntry := rfl

theorem queue_keeps_ledger_oneEntry :
    Agrees oneEntry.1 oneEntry.2 ∧
      ∀ c, Given oneEntry c → ((∃ u, step oneEntry c = .ok u) ↔ Harmless oneEntry c) :=
  queue_keeps_ledger fresh_noQueue
    (.tail (.refl noQueue) ⟨given_appendSomeEntry, trivial⟩ step_appendSomeEntry)

def removeSomeEntry : Call Nat := .remove someEntry (some ⟨21, fun _ => someEntry.entry⟩)

theorem only_entry_freed_twice :
    Fresh noQueue ∧ Run step Given noQueue oneEntry ∧ Given oneEntry removeSomeEntry ∧
      step oneEntry removeSomeEntry = .error .outOfBounds := by
  refine ⟨fresh_noQueue, .tail (.refl noQueue) given_appendSomeEntry step_appendSomeEntry,
    ⟨⟨rfl, rfl⟩, ?_⟩, rfl⟩
  intro a array ha harray
  obtain rfl : 10 = a := Option.some.inj ha
  have hblock : oneEntry.1.memory.arrays 10 = some [⟨1, some 20⟩] := rfl
  obtain rfl : ⟨1, some 20⟩ = array :=
    (List.cons.inj (Option.some.inj (hblock.symm.trans harray))).1
  exact .inl rfl

end Sessions

end Newth.Client.QueueMemory
