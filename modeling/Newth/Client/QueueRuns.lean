import Newth.Client.Mounts
import Newth.Client.QueueUri
import Newth.Library.Runs

namespace Newth.Client.QueueRuns

open Newth.Library.ByteString
open Newth.Library.Call
open Newth.Library.Runs
open Newth.Client.Mounts
open Newth.Client.Queue
open Newth.Client.QueueUri
open Newth.Client.Site (Mounted SiteArray SitePointer HttpScheme siteArrayUserPathResolve)

section Entries

variable {η : Type}

/-- A mounted site and where the strings it owns lie. -/
structure Site (η : Type) where
  memory : Nat
  mounted : Mounted η
  deriving DecidableEq

/-- The array as the functions see it that only read sites. -/
def sitesOf (self : MountArray (Site η)) : SiteArray η :=
  ⟨self.block, self.array.map Site.mounted, self.activeRead, self.activeWrite⟩

/-- A queue entry, with the sites its pointers led to when it was made. No function of the
queue looks at these. -/
structure Queued (η : Type) extends QueueEntry where
  sourceMade : Option (Site η)
  destinationMade : Option (Site η)

inductive QueueError where
  | noSuchEntry
  | outOfMemory
  deriving DecidableEq, Repr

/-- The comparison of `queueEntryArrayFindNth`. -/
def sameEntry (it entry : QueueEntry) : Except Stop Bool :=
  if it.destinationSite = entry.destinationSite ∧ it.sourceSite = entry.sourceSite then do
    let destination ← given it.destinationPath
    let destination' ← given entry.destinationPath
    if destination = destination' then do
      let source ← given it.sourcePath
      let source' ← given entry.sourcePath
      .ok (source = source')
    else .ok false
  else .ok false

/-- `queueEntryArrayFindNth`, from the `i`-th entry on. -/
def findNthFrom (i : Nat) (entry : QueueEntry) : List (Queued η) → Except Stop (Option Nat)
  | [] => .ok none
  | it :: rest => do
      if ← sameEntry it.toQueueEntry entry then .ok (some i) else findNthFrom (i + 1) entry rest

def queueEntryArrayFindNth (array : List (Queued η)) (entry : QueueEntry) :
    Except Stop (Option Nat) := findNthFrom 0 entry array

/-- A null `*queueEntryArray` is an empty one. `allocated` tells whether there is memory. -/
def queueEntryArrayAppend (array : List (Queued η)) (entry : Queued η) (allocated : Bool) :
    Except Stop (List (Queued η) × Option QueueError) := do
  let i ← if array = [] then .ok none else queueEntryArrayFindNth array entry.toQueueEntry
  if i.isSome then .ok (array, none)
  else if allocated then .ok (array ++ [entry], none)
  else .ok (array, some .outOfMemory)

def queueEntryArrayRemove (array : List (Queued η)) (entry : QueueEntry) (allocated : Bool) :
    Except Stop (List (Queued η) × Option QueueError) := do
  match ← queueEntryArrayFindNth array entry with
  | none => .ok (array, some .noSuchEntry)
  | some i =>
      if array.length - 1 = 0 then .ok ([], none)
      else if allocated then .ok (array.eraseIdx i, none)
      -- the entries have moved up and `len` has not changed
      else .ok (array.eraseIdx i ++ array.getLast?.toList, some .outOfMemory)

theorem queueEntryArrayAppend_cases {array array' : List (Queued η)} {entry : Queued η}
    {allocated : Bool} {e : Option QueueError}
    (h : queueEntryArrayAppend array entry allocated = .ok (array', e)) :
    array' = array ∨ array' = array ++ [entry] := by
  have hfound : ∃ i : Option Nat, (if i.isSome then .ok (array, none)
      else if allocated then .ok (array ++ [entry], none)
      else .ok (array, some .outOfMemory)) = (.ok (array', e) : Except Stop _) := by
    rw [queueEntryArrayAppend] at h
    split at h
    · exact ⟨none, h⟩
    · obtain ⟨i, -, h⟩ := bind_eq_ok_iff.mp h
      exact ⟨i, h⟩
  obtain ⟨i, h⟩ := hfound
  split at h
  · obtain ⟨rfl, -⟩ := Prod.mk.inj (Except.ok.inj h)
    exact .inl rfl
  · split at h
    · obtain ⟨rfl, -⟩ := Prod.mk.inj (Except.ok.inj h)
      exact .inr rfl
    · obtain ⟨rfl, -⟩ := Prod.mk.inj (Except.ok.inj h)
      exact .inl rfl

theorem queueEntryArrayRemove_subset {array array' : List (Queued η)} {entry : QueueEntry}
    {allocated : Bool} {e : Option QueueError}
    (h : queueEntryArrayRemove array entry allocated = .ok (array', e)) : array' ⊆ array := by
  obtain ⟨i, -, h⟩ := bind_eq_ok_iff.mp h
  cases i with
  | none =>
      obtain ⟨rfl, -⟩ := Prod.mk.inj (Except.ok.inj h)
      exact List.Subset.refl _
  | some i =>
      simp only at h
      split at h
      · obtain ⟨rfl, -⟩ := Prod.mk.inj (Except.ok.inj h)
        exact List.nil_subset _
      · split at h
        · obtain ⟨rfl, -⟩ := Prod.mk.inj (Except.ok.inj h)
          exact List.eraseIdx_subset
        · obtain ⟨rfl, -⟩ := Prod.mk.inj (Except.ok.inj h)
          rw [List.append_subset]
          refine ⟨List.eraseIdx_subset, ?_⟩
          intro x hx
          rw [Option.mem_toList] at hx
          exact List.mem_of_getLast? hx

end Entries

section Session

variable {η : Type} {http : HttpScheme η} {gethostbyname : Bytes → Option Bytes}

/-- What the commands work on. -/
structure Session (η : Type) where
  sites : MountArray (Site η)
  queue : List (Queued η)

/-- `p` is what `malloc` or `realloc` returns. -/
inductive Command (η : Type) where
  | mount (site : Site η) (p : Option Nat)
  | unmountNth (n : Int) (p : Option Nat)
  | unmount (site : Site η) (p : Option Nat)
  | copy (source : Bytes) (destination : Option Bytes) (allocated : Bool)
  | remove (entry : QueueEntry) (allocated : Bool)

/-- The site behind a pointer into the array. -/
def siteAt (sites : MountArray (Site η)) (p : Option SitePointer) : Option (Site η) :=
  p.bind fun p => if p.block = sites.block then sites.array[p.slot]? else none

def queued (sites : MountArray (Site η)) (entry : QueueEntry) : Queued η :=
  { entry with
    sourceMade := siteAt sites entry.sourceSite
    destinationMade := siteAt sites entry.destinationSite }

/-- A pointer leads to a site of the array, the one that was there when the entry was made. -/
def Holds (sites : MountArray (Site η)) (p : Option SitePointer) (made : Option (Site η)) : Prop :=
  ∃ slot site, p = some ⟨sites.block, slot⟩ ∧ sites.array[slot]? = some site ∧ made = some site

/-- Every entry means what the user queued. -/
def Meaningful (s : Session η) : Prop :=
  ∀ q ∈ s.queue, Holds s.sites q.sourceSite q.sourceMade ∧
    Holds s.sites q.destinationSite q.destinationMade

/-- No entry points at the slot. -/
def Unused (s : Session η) (slot : Nat) : Prop :=
  ∀ q ∈ s.queue, q.sourceSite ≠ some ⟨s.sites.block, slot⟩ ∧
    q.destinationSite ≠ some ⟨s.sites.block, slot⟩

/-- The array stays where it is, or nothing points into it. -/
def StaysPut (s : Session η) (p : Option Nat) : Prop :=
  p = none ∨ p = some s.sites.block ∨ s.queue = []

/-- Entries point only at slots below. -/
def PointBelow (s : Session η) (slot : Nat) : Prop :=
  ∀ q ∈ s.queue, ∀ p, q.sourceSite = some p ∨ q.destinationSite = some p → p.slot < slot

/-- Some mounted site serves what a text resolves to. -/
def ServedText (http : HttpScheme η) (gethostbyname : Bytes → Option Bytes) (s : Session η)
    (path : Bytes) (write : Bool) : Prop :=
  ∀ u, siteArrayUserPathResolve http (sitesOf s.sites) path write = .ok (some u) →
    ∃ site ∈ s.sites.array, servesUri http gethostbyname u site.mounted = true

theorem Holds.mono {sites sites' : MountArray (Site η)} {p : Option SitePointer}
    {made : Option (Site η)} (h : Holds sites p made) (hblock : sites'.block = sites.block)
    (hkept : ∀ slot site, p = some ⟨sites.block, slot⟩ → sites.array[slot]? = some site →
      sites'.array[slot]? = some site) : Holds sites' p made := by
  obtain ⟨slot, site, rfl, hslot, rfl⟩ := h
  exact ⟨slot, site, by rw [hblock], hkept slot site rfl hslot, rfl⟩

theorem meaningful_of_empty {s : Session η} (h : s.queue = []) : Meaningful s := by
  intro q hq
  rw [h] at hq
  simp at hq

theorem Meaningful.mono {s : Session η} (h : Meaningful s) {sites' : MountArray (Site η)}
    (hblock : sites'.block = s.sites.block)
    (hkept : ∀ q ∈ s.queue, ∀ slot site,
      q.sourceSite = some ⟨s.sites.block, slot⟩ ∨ q.destinationSite = some ⟨s.sites.block, slot⟩ →
        s.sites.array[slot]? = some site → sites'.array[slot]? = some site) :
    Meaningful { s with sites := sites' } := by
  intro q hq
  obtain ⟨hsource, hdestination⟩ := h q hq
  constructor
  · exact hsource.mono hblock fun slot site hp => hkept q hq slot site (.inl hp)
  · exact hdestination.mono hblock fun slot site hp => hkept q hq slot site (.inr hp)

theorem Meaningful.mount {s : Session η} (h : Meaningful s) (site : Site η) {p : Option Nat}
    (hput : StaysPut s p) : Meaningful { s with sites := (siteArrayAdd s.sites site p).1 } := by
  rcases hput with rfl | rfl | hempty
  · exact h
  · refine h.mono ?_ ?_
    · rfl
    intro q _ slot site' _ hslot
    simp only [siteArrayAdd]
    rw [List.getElem?_append_left (List.getElem?_eq_some_iff.mp hslot).1]
    exact hslot
  · exact meaningful_of_empty hempty

theorem Meaningful.unmount {s : Session η} (h : Meaningful s) {n : Nat} {p : Option Nat}
    {sites' : MountArray (Site η)} (hn : n < s.sites.array.length) (hput : StaysPut s p)
    (hbelow : PointBelow s n) (hremoved : siteArrayRemoveNth s.sites n p = .ok sites') :
    Meaningful { s with sites := sites' } := by
  by_cases hempty : s.queue = []
  · exact meaningful_of_empty hempty
  rw [siteArrayRemoveNth, if_pos (by omega), if_neg (by omega), Int.toNat_natCast] at hremoved
  have hsame : sites'.block = s.sites.block ∧ sites'.array = s.sites.array.eraseIdx n := by
    rcases hput with rfl | rfl | hput
    · obtain rfl := Except.ok.inj hremoved
      exact ⟨rfl, rfl⟩
    · obtain rfl := Except.ok.inj hremoved
      exact ⟨rfl, rfl⟩
    · exact absurd hput hempty
  apply h.mono hsame.1
  intro q hq slot site hp hslot
  rw [hsame.2, List.getElem?_eraseIdx_of_lt (hbelow q hq ⟨s.sites.block, slot⟩ hp)]
  exact hslot

theorem Meaningful.queue {s : Session η} (h : Meaningful s) {queue : List (Queued η)}
    (hqueue : ∀ q ∈ queue, q ∈ s.queue ∨ Holds s.sites q.sourceSite q.sourceMade ∧
      Holds s.sites q.destinationSite q.destinationMade) :
    Meaningful { s with queue := queue } := by
  intro q hq
  rcases hqueue q hq with hold | hnew
  · exact h q hold
  · exact hnew

theorem holds_of_at {sites : MountArray (Site η)} {p : Option SitePointer} {site : Mounted η}
    (h : (sitesOf sites).at p = .ok site) : Holds sites p (siteAt sites p) := by
  cases p with
  | none => simp [SiteArray.at] at h
  | some p =>
      obtain ⟨block, slot⟩ := p
      simp only [SiteArray.at, sitesOf, List.getElem?_map] at h
      cases hslot : sites.array[slot]? with
      | none => simp [hslot] at h
      | some site' =>
          by_cases hblock : block = sites.block
          · refine ⟨slot, site', by rw [hblock], hslot, ?_⟩
            simp [siteAt, hblock, hslot]
          · simp [hslot, hblock] at h

theorem at_of_served {s : Session η} {path uri : Bytes} {write : Bool} {p : Option SitePointer}
    (hserved : ServedText http gethostbyname s path write)
    (hresolved : siteArrayUserPathResolve http (sitesOf s.sites) path write = .ok (some uri))
    (h : Site.siteArrayGetByUriHost http gethostbyname (sitesOf s.sites) uri = .ok p) :
    ∃ site, (sitesOf s.sites).at p = .ok site := by
  obtain ⟨site, hmem, hserves⟩ := hserved uri hresolved
  have hp := siteArrayGetByUriHost_eq h
  cases hfound : (sitesOf s.sites).array.findIdx? (servesUri http gethostbyname uri) with
  | none =>
      rw [List.findIdx?_eq_none_iff] at hfound
      have hnot := hfound site.mounted (List.mem_map_of_mem hmem)
      rw [hserves] at hnot
      contradiction
  | some i =>
      rw [hfound, Option.map_some] at hp
      obtain ⟨site', hat, -⟩ := at_of_findIdx hfound
      exact ⟨site', hp ▸ hat⟩

end Session

section Commands

variable {η : Type} [DecidableEq η]

variable (http : HttpScheme η) (gethostbyname : Bytes → Option Bytes)

def step (s : Session η) : Command η → Except Stop (Session η)
  | .mount site p => .ok { s with sites := (siteArrayAdd s.sites site p).1 }
  | .unmountNth n p => do
      let sites ← siteArrayRemoveNth s.sites n p
      .ok { s with sites := sites }
  | .unmount site p => do
      let sites ← siteArrayRemove s.sites site p
      .ok { s with sites := sites }
  | .copy source destination allocated => do
      match ← queueEntryNewFromPath http gethostbyname (sitesOf s.sites) source destination with
      | .error _ => .ok s
      | .ok entry => do
          let (queue, _) ← queueEntryArrayAppend s.queue (queued s.sites entry) allocated
          .ok { s with queue := queue }
  | .remove entry allocated => do
      let (queue, _) ← queueEntryArrayRemove s.queue entry allocated
      .ok { s with queue := queue }

/-- The commands a user may give: only sites that no entry uses are unmounted. -/
def Given (s : Session η) : Command η → Prop
  | .unmountNth n _ => 0 ≤ n ∧ n < s.sites.array.length ∧ Unused s n.toNat
  | .unmount site _ => ∀ i, firstSame s.sites site = some i → Unused s i
  | _ => True

/-- The commands that leave the entries their meaning. -/
def Harmless (s : Session η) : Command η → Prop
  | .mount _ p => StaysPut s p
  | .unmountNth n p => 0 ≤ n ∧ n < s.sites.array.length ∧ StaysPut s p ∧ PointBelow s n.toNat
  | .unmount site p => ∀ i, firstSame s.sites site = some i → StaysPut s p ∧ PointBelow s i
  | .copy source destination _ => ServedText http gethostbyname s source false ∧
      ∀ d, destination = some d → ServedText http gethostbyname s d true
  | .remove _ _ => True

variable {http gethostbyname}

theorem Meaningful.copy {s t : Session η} (h : Meaningful s) {source : Bytes}
    {destination : Option Bytes} {allocated : Bool}
    (hsource : ServedText http gethostbyname s source false)
    (hdestination : ∀ d, destination = some d → ServedText http gethostbyname s d true)
    (hstep : step http gethostbyname s (.copy source destination allocated) = .ok t) :
    Meaningful t := by
  rw [step] at hstep
  obtain ⟨made, hmade, hstep⟩ := bind_eq_ok_iff.mp hstep
  cases made with
  | error e =>
      obtain rfl := Except.ok.inj hstep
      exact h
  | ok entry =>
      obtain ⟨⟨queue, e⟩, hqueue, hstep⟩ := bind_eq_ok_iff.mp hstep
      obtain rfl := Except.ok.inj hstep
      obtain ⟨⟨u, hu, hsrc, -⟩, hdst⟩ := newFromPath_ok hmade
      obtain ⟨site, hsite⟩ := at_of_served hsource hu hsrc
      have hdstSite : ∃ site, (sitesOf s.sites).at entry.destinationSite = .ok site := by
        rcases hdst with ⟨d, v, hd, hv, hdst, -⟩ | ⟨-, hat⟩
        · exact at_of_served (hdestination d hd) hv hdst
        · exact hat
      obtain ⟨site', hsite'⟩ := hdstSite
      apply h.queue
      intro q hq
      rcases queueEntryArrayAppend_cases hqueue with rfl | rfl
      · exact .inl hq
      · rcases List.mem_append.mp hq with hold | hnew
        · exact .inl hold
        · obtain rfl := List.mem_singleton.mp hnew
          exact .inr ⟨holds_of_at hsite, holds_of_at hsite'⟩

theorem meaningful_step {s t : Session η} {c : Command η} (h : Meaningful s)
    (hharmless : Harmless http gethostbyname s c) (hstep : step http gethostbyname s c = .ok t) :
    Meaningful t := by
  cases c with
  | mount site p =>
      obtain rfl := Except.ok.inj hstep
      exact h.mount site hharmless
  | unmountNth n p =>
      obtain ⟨hpos, hlt, hput, hbelow⟩ := hharmless
      obtain ⟨i, rfl⟩ := Int.eq_ofNat_of_zero_le hpos
      obtain ⟨sites, hsites, hstep⟩ := bind_eq_ok_iff.mp hstep
      obtain rfl := Except.ok.inj hstep
      exact h.unmount (by omega) hput hbelow hsites
  | unmount site p =>
      obtain ⟨sites, hsites, hstep⟩ := bind_eq_ok_iff.mp hstep
      obtain rfl := Except.ok.inj hstep
      rw [siteArrayRemove] at hsites
      cases hfirst : firstSame s.sites site with
      | none =>
          rw [hfirst] at hsites
          obtain rfl := Except.ok.inj hsites
          exact h
      | some i =>
          rw [hfirst] at hsites
          obtain ⟨hput, hbelow⟩ := hharmless i hfirst
          exact h.unmount (firstSame_lt hfirst) hput hbelow hsites
  | copy source destination allocated =>
      exact h.copy hharmless.1 hharmless.2 hstep
  | remove entry allocated =>
      obtain ⟨⟨queue, e⟩, hqueue, hstep⟩ := bind_eq_ok_iff.mp hstep
      obtain rfl := Except.ok.inj hstep
      apply h.queue
      intro q hq
      exact .inl (queueEntryArrayRemove_subset hqueue hq)

/-- Entries keep their meaning throughout a run of harmless commands. -/
theorem entries_meaningful {s t : Session η} (hempty : s.queue = [])
    (hrun : Run (step http gethostbyname) (Harmless http gethostbyname) s t) : Meaningful t :=
  run_invariant Meaningful (fun _ _ _ h hharmless hstep => meaningful_step h hharmless hstep) hrun
    (meaningful_of_empty hempty)

/-- One file site, and nothing in the queue. -/
def home : Session Bytes :=
  ⟨⟨0, [⟨0, .file ⟨text "file:///home", none, SiteFile.noMeta⟩⟩], 0, 0⟩, []⟩

def otherSite : Site Bytes := ⟨1, .http (text "http://host/")⟩

def entryOfFile : QueueEntry :=
  ⟨some ⟨0, 0⟩, some ⟨0, 0⟩, some (text "/a"), some (text "/home"), ⟨true, false, false⟩⟩

/-- After `COPY file:///a`. -/
def copied : Session Bytes := { home with queue := [queued home.sites entryOfFile] }

/-- After a `MOUNT` for which `realloc` returns the block `p`. -/
def mounted (p : Nat) : Session Bytes :=
  { copied with sites := ⟨p, home.sites.array ++ [otherSite], 0, 0⟩ }

theorem copied_step : step plainHttp oneAddress home (.copy (text "file:///a") none true) =
    .ok copied := rfl

theorem served_home : ServedText plainHttp oneAddress home (text "file:///a") false := by
  intro u hu
  have hresolved : siteArrayUserPathResolve plainHttp (sitesOf home.sites) (text "file:///a")
      false = .ok (some (text "file:///a")) := rfl
  obtain rfl := Option.some.inj (Except.ok.inj (hresolved.symm.trans hu))
  exact ⟨⟨0, .file ⟨text "file:///home", none, SiteFile.noMeta⟩⟩, by simp [home], by decide +kernel⟩

theorem entries_meaningful_sample : Meaningful (mounted 0) :=
  entries_meaningful rfl (.tail (e := .mount otherSite (some 0))
    (.tail (e := .copy (text "file:///a") none true) (.refl home)
      ⟨served_home, by simp⟩ copied_step)
    (.inr (.inl rfl)) rfl)

/-- When a `MOUNT` moves the array, the entry of a `COPY` before it points into no site. -/
theorem entries_not_meaningful :
    ¬ ∀ s t : Session Bytes, s.queue = [] → Run (step plainHttp oneAddress) Given s t →
      Meaningful t := by
  intro h
  have hrun : Run (step plainHttp oneAddress) Given home (mounted 1) :=
    .tail (e := .mount otherSite (some 1))
      (.tail (e := .copy (text "file:///a") none true) (.refl home) trivial copied_step) trivial rfl
  obtain ⟨⟨slot, site, hp, -⟩, -⟩ := h home (mounted 1) rfl hrun
    (queued home.sites entryOfFile) (by simp [mounted, copied])
  simp [queued, entryOfFile, mounted] at hp

end Commands

end Newth.Client.QueueRuns
