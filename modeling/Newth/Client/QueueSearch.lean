import Mathlib.Data.List.Nodup
import Mathlib.Data.List.Pairwise
import Newth.Client.QueueMemory
import Newth.Client.QueueUri
import Newth.Client.Search

namespace Newth.Client.QueueSearch

open Newth.Library.ByteString
open Newth.Library.Numeral
open Newth.Library.Blocks
open Newth.Library.Call
open Newth.Platform.FindString
open Newth.Client.Site
open Newth.Client.Queue
open Newth.Client.QueueUri
open Newth.Client.QueueMemory

/-- A `Site *`. -/
abbrev SiteRef := Option SitePointer

/-- What `malloc` and `realloc` come back with, for the array at an address or for a new one. -/
abbrev Allocator :=
  Memory SiteRef → Option Nat → Option (Grant QueueEntryArray) × Option (Grant (Entry SiteRef))

/-- The search of `ProcessCommand` between two words: `searchQuery`, and whether `errno` is
other than 0. -/
structure Query where
  memory : Memory SiteRef
  found : Option Nat
  errno : Bool

section Functions

variable {η : Type} (http : HttpScheme η) (sites : SiteArray η) (alloc : Allocator)

def pathAt (m : Memory SiteRef) : Option Nat → Except Stop (Option Bytes)
  | none => .ok none
  | some p => do
      let path ← stringAt m (some p)
      .ok (some path)

/-- `queueEntryGetUri` of one end of an entry, and whether the search text is in it. -/
def mentions (m : Memory SiteRef) (site : SiteRef) (path : Option Nat) (search : Bytes) :
    Except Stop Bool := do
  let path ← pathAt m path
  let uri ← queueEntryGetUri http sites site path
  .ok (uri.any fun uri => (platformStringFindNeedleRaw uri search).isSome)

/-- The test in the loop of `queueEntryArraySearch`. -/
def entryMentions (m : Memory SiteRef) (entry : Entry SiteRef) (search : Bytes) :
    Except Stop Bool := do
  if ← mentions http sites m entry.sourceSite entry.sourcePath search then .ok true
  else mentions http sites m entry.destinationSite entry.destinationPath search

def appendFound (q : Query) (entry : Entry SiteRef) : Except Stop (Query × Option QueueError) := do
  let grants := alloc q.memory q.found
  let (memory, found, e) ← queueEntryArrayAppend q.memory q.found entry grants.1 grants.2
  .ok ({ q with memory := memory, found := found }, e)

/-- The loop of `queueEntryArraySearch` with some turns left, from `i` on. -/
def searchFrom (search : Bytes) (array : QueueEntryArray) :
    Nat → Nat → Query → Except Stop (Query × Option QueueError)
  | 0, _, q => .ok (q, none)
  | turns + 1, i, q => do
      let entry ← entryAt q.memory array i
      if ← entryMentions http sites q.memory entry search then
        match ← appendFound alloc q entry with
        | (q, some e) => .ok (q, some e)
        | (q, none) => searchFrom search array turns (i + 1) q
      else searchFrom search array turns (i + 1) q

/-- A negative number is a large one as an `unsigned long`. -/
def queueEntryArraySearch (array : Option Nat) (search : Bytes) (q : Query) :
    Except Stop (Query × Option QueueError) :=
  let (n, range) := strtol search
  let i := (n % 2 ^ 64).toNat
  let q := { q with errno := q.errno || range }
  match array with
  | none => .error .outOfBounds
  | some a => do
      let array ← load q.memory.arrays a 0
      if i ≠ 0 ∧ q.errno = false then
        if i < array.len then do
          let entry ← entryAt q.memory array i
          appendFound alloc q entry
        else .ok (q, none)
      else searchFrom http sites alloc search array array.len 0 q

/-- The first loop of `QUEUE FIND` and of `QUEUE REMOVE`. -/
def searchWords (array : Option Nat) : List Bytes → Query → Except Stop (Query × Option QueueError)
  | [], q => .ok (q, none)
  | w :: rest, q => do
      match ← queueEntryArraySearch http sites alloc array w q with
      | (q, some e) => .ok (q, some e)
      | (q, none) => searchWords array rest q

/-- The second loop of `QUEUE REMOVE`, with the value of `queueEntryArray` handed in and out. -/
def removeFrom (searchQuery : QueueEntryArray) :
    Nat → Nat → Memory SiteRef → Option Nat → Except Stop (Memory SiteRef × Option Nat)
  | 0, _, m, queue => .ok (m, queue)
  | turns + 1, v, m, queue => do
      let entry ← entryAt m searchQuery v
      let (m, queue, _) ← queueEntryArrayRemove m queue entry (alloc m queue).2
      removeFrom searchQuery turns (v + 1) m queue

/-- `QUEUE REMOVE`. -/
def queueRemove (m : Memory SiteRef) (queue : Option Nat) (words : List Bytes) (errno : Bool) :
    Except Stop (Memory SiteRef × Option Nat) := do
  match ← searchWords http sites alloc queue words ⟨m, none, errno⟩ with
  | (q, some _) => .ok (q.memory, queue)
  | (q, none) =>
      match q.found with
      | none => .error .outOfBounds
      | some f => do
          let searchQuery ← load q.memory.arrays f 0
          let (m, queue) ← removeFrom alloc searchQuery searchQuery.len 0 q.memory queue
          let (m, _) ← queueEntryArrayFreeArrayOnly m (some f)
          .ok (m, queue)

end Functions

section Merging

variable {items found xs : List (Item SiteRef)} {it : Item SiteRef}

theorem same_iff (hdistinct : items.Pairwise fun x y => x.same y = false) {x y : Item SiteRef}
    (hx : x ∈ items) (hy : y ∈ items) : x.same y = true ↔ x = y := by
  constructor
  · intro hsame
    by_contra hne
    have hsymm : Std.Symm fun x y : Item SiteRef => x.same y = false := by
      constructor
      intro x y hxy
      by_contra hyx
      rw [Item.same_of_same (decide_eq_true ⟨⟨rfl, rfl⟩, rfl, rfl⟩) (by simpa using hyx)] at hxy
      exact absurd hxy (by simp)
    rw [hdistinct.forall hx hy hne] at hsame
    exact absurd hsame (by simp)
  · rintro rfl
    exact decide_eq_true ⟨⟨rfl, rfl⟩, rfl, rfl⟩

theorem appended_eq (hdistinct : items.Pairwise fun x y => x.same y = false) (hfound : found ⊆ items)
    (hit : it ∈ items) : appended found it = if it ∈ found then found else found ++ [it] := by
  have hany : found.any (·.same it) = true ↔ it ∈ found := by
    rw [List.any_eq_true]
    constructor
    · rintro ⟨x, hx, hsame⟩
      rwa [← (same_iff hdistinct (hfound hx) hit).mp hsame]
    · intro hmem
      exact ⟨it, hmem, (same_iff hdistinct hit hit).mpr rfl⟩
  simp only [appended, hany]

theorem appended_subset (hfound : found ⊆ items) (hit : it ∈ items) : appended found it ⊆ items := by
  rw [appended]
  split
  · exact hfound
  · exact List.append_subset.mpr ⟨hfound, by simpa using hit⟩

theorem appended_ne_nil (found : List (Item SiteRef)) (it : Item SiteRef) : appended found it ≠ [] := by
  rw [appended]
  split
  · rintro rfl
    simp_all
  · simp

theorem mem_merged (hdistinct : items.Pairwise fun x y => x.same y = false) (hfound : found ⊆ items)
    (hxs : xs ⊆ items) : it ∈ xs.foldl appended found ↔ it ∈ found ∨ it ∈ xs := by
  induction xs generalizing found with
  | nil => simp
  | cons x xs ih =>
      obtain ⟨hx, hxs⟩ := List.cons_subset.mp hxs
      rw [List.foldl_cons, ih (appended_subset hfound hx) hxs, appended_eq hdistinct hfound hx]
      split
      · rename_i hmem
        rw [List.mem_cons]
        constructor
        · rintro (h | h)
          · exact .inl h
          · exact .inr (.inr h)
        · rintro (h | rfl | h)
          · exact .inl h
          · exact .inl hmem
          · exact .inr h
      · simp [or_assoc]

theorem nodup_merged (hdistinct : items.Pairwise fun x y => x.same y = false) (hfound : found ⊆ items)
    (hxs : xs ⊆ items) (hnodup : found.Nodup) : (xs.foldl appended found).Nodup := by
  induction xs generalizing found with
  | nil => exact hnodup
  | cons x xs ih =>
      obtain ⟨hx, hxs⟩ := List.cons_subset.mp hxs
      refine ih (appended_subset hfound hx) hxs ?_
      rw [appended_eq hdistinct hfound hx]
      split
      · exact hnodup
      · rename_i hnew
        simpa using List.Nodup.concat hnew hnodup

theorem merged_eq (hdistinct : items.Pairwise fun x y => x.same y = false)
    (hall : found ++ xs ⊆ items) (hnodup : (found ++ xs).Nodup) :
    xs.foldl appended found = found ++ xs := by
  induction xs generalizing found with
  | nil => simp
  | cons x xs ih =>
      obtain ⟨hfound, hxs⟩ := List.append_subset.mp hall
      have hnew : x ∉ found := fun hx =>
        (List.nodup_append.mp hnodup).2.2 x hx x (by simp) rfl
      have hsplit : found ++ x :: xs = found ++ [x] ++ xs := by simp
      rw [List.foldl_cons, appended_eq hdistinct hfound (List.cons_subset.mp hxs).1, if_neg hnew]
      rw [hsplit] at hall hnodup ⊢
      exact ih hall hnodup

end Merging

section Selection

variable {η : Type} (http : HttpScheme η) (sites : SiteArray η)

/-- The URI of one end of an entry, if it has one. -/
def uriOf (site : SiteRef) (path : Bytes) : Option Bytes :=
  (queueEntryGetUri http sites site (some path)).toOption.join

def uris (it : Item SiteRef) : List Bytes :=
  (uriOf http sites it.sourceSite it.source).toList ++
    (uriOf http sites it.destinationSite it.destination).toList

/-- The entries with a text in one of their URIs, in either case of its letters. -/
def mentioning (items : List (Item SiteRef)) (w : Bytes) : List (Item SiteRef) :=
  items.filter fun it => (uris http sites it).any fun uri => w.map toupper <:+: uri.map toupper

/-- The entries a word asks for. -/
def asked (items : List (Item SiteRef)) (w : Bytes) : List (Item SiteRef) :=
  match wholeNumber w with
  | some n => items[n]?.toList
  | none => mentioning http sites items w

/-- The sites of an entry are mounted. -/
def Placed (it : Item SiteRef) : Prop :=
  (∃ site, sites.at it.sourceSite = .ok site) ∧ ∃ site, sites.at it.destinationSite = .ok site

end Selection

section Searching

variable {η : Type} {http : HttpScheme η} {sites : SiteArray η} {alloc : Allocator}
  {m : Memory SiteRef} {it : Item SiteRef} {items found : List (Item SiteRef)} {q : Query}
  {w : Bytes} {a p : Nat}

theorem mentions_eq {site : SiteRef} {path : Bytes} (hpath : m.strings p = some path)
    (hsite : ∃ s, sites.at site = .ok s) (w : Bytes) :
    mentions http sites m site (some p) w =
      .ok ((uriOf http sites site path).toList.any fun uri =>
        (platformStringFindNeedleRaw uri w).isSome) := by
  obtain ⟨s, hs⟩ := hsite
  have huri : queueEntryGetUri http sites site (some path) = .ok (uriOf http sites site path) := by
    simp only [uriOf, queueEntryGetUri, hs, ok_bind]
    rfl
  simp only [mentions, pathAt, stringAt_eq hpath, ok_bind, huri]
  cases uriOf http sites site path <;> simp

theorem entryMentions_eq (hit : it.Readable m) (hplaced : Placed sites it) (w : Bytes) :
    entryMentions http sites m it.entry w =
      .ok ((uris http sites it).any fun uri => (platformStringFindNeedleRaw uri w).isSome) := by
  simp only [entryMentions, Item.entry, mentions_eq hit.source hplaced.1,
    mentions_eq hit.destination hplaced.2, ok_bind, uris, List.any_append]
  cases (uriOf http sites it.sourceSite it.source).toList.any fun uri =>
      (platformStringFindNeedleRaw uri w).isSome with
  | true => rfl
  | false => rfl

/-- What the loop of the search selects: nothing at all for an empty text. -/
def byText (http : HttpScheme η) (sites : SiteArray η) (items : List (Item SiteRef)) (w : Bytes) :
    List (Item SiteRef) :=
  items.filter fun it => (uris http sites it).any fun uri => (platformStringFindNeedleRaw uri w).isSome

theorem byText_nil : byText http sites items [] = [] := by
  simp [byText, platformStringFindNeedleRaw]

theorem byText_eq (hw : w ≠ []) : byText http sites items w = mentioning http sites items w := by
  rw [byText, mentioning]
  congr 1
  funext it
  congr 1
  funext uri
  rw [Bool.eq_iff_iff, decide_eq_true_iff, Option.isSome_iff_ne_none, ne_eq,
    needleRaw_eq_none_iff hw, not_not]

/-- What a search selects. -/
def selected (http : HttpScheme η) (sites : SiteArray η) (items : List (Item SiteRef)) (w : Bytes)
    (errno : Bool) : List (Item SiteRef) :=
  let i := ((strtol w).1 % 2 ^ 64).toNat
  if i ≠ 0 ∧ (errno || (strtol w).2) = false then items[i]?.toList else byText http sites items w

theorem selected_sublist (w : Bytes) (errno : Bool) :
    (selected http sites items w errno).Sublist items := by
  simp only [selected]
  split
  · cases hi : items[((strtol w).1 % 2 ^ 64).toNat]? with
    | none => exact List.nil_sublist items
    | some x => exact List.singleton_sublist.mpr (List.mem_of_getElem? hi)
  · exact List.filter_sublist

/-- There is memory for an array of results, and for each entry that it gets. -/
structure Ample (alloc : Allocator) (m : Memory SiteRef) : Prop where
  first : Granted m.arrays none (alloc m none).1 ∧ Granted m.entries none (alloc m none).2
  more : ∀ m' a len p, m'.arrays a = some [⟨len, some p⟩] →
    Granted m'.entries (some p) (alloc m' (some a)).2

/-- What is so between two appends: the queue is as it was, and the array of results has
memory of its own. -/
structure Looking (m : Memory SiteRef) (queue : Option (Nat × Nat))
    (items found : List (Item SiteRef)) (q : Query) : Prop where
  holding : Holding q.memory queue items
  stores : ∃ place, q.found = place.map Prod.fst ∧ Stores q.memory place found ∧ Apart place queue
  subset : found ⊆ items
  untouched : found = [] → q.memory = m

theorem Looking.append {queue : Option (Nat × Nat)} (h : Looking m queue items found q)
    (hample : Ample alloc m) (hit : it ∈ items) :
    ∃ q', appendFound alloc q it.entry = .ok (q', none) ∧
      Looking m queue items (appended found it) q' ∧ q'.errno = q.errno := by
  obtain ⟨place, hfound, hstores, hapart⟩ := h.stores
  have hreadable : ∀ x ∈ found, x.Readable q.memory := fun x hx =>
    h.holding.readable x (h.subset hx)
  have hsupplied : Supplied q.memory place (alloc q.memory q.found).1 (alloc q.memory q.found).2 := by
    rw [hfound]
    cases place with
    | none =>
        rw [h.untouched hstores]
        exact hample.first
    | some place => exact hample.more _ _ _ _ hstores.1
  obtain ⟨m', place', hcall, hstores', hstrings, -, hspares⟩ :=
    append_spec hstores hreadable (h.holding.readable it hit) hsupplied
  obtain ⟨hapart', hqueue⟩ := hspares _ _ hapart h.holding.stores
  rw [← hfound] at hcall
  refine ⟨{ q with memory := m', found := place'.map Prod.fst }, ?_, ⟨?_, ?_, ?_, ?_⟩, rfl⟩
  · simp only [appendFound, hcall, ok_bind]
  · refine ⟨hqueue, h.holding.distinct, fun x hx => ?_, h.holding.owned⟩
    exact (h.holding.readable x hx).congr fun _ _ => by rw [hstrings]
  · exact ⟨place', rfl, hstores', hapart'⟩
  · exact appended_subset h.subset hit
  · exact fun hnil => absurd hnil (appended_ne_nil found it)

theorem Looking.entryAt (h : Looking m (some (a, p)) items found q) {i : Nat} (hi : i < items.length)
    (len : Nat) : QueueMemory.entryAt q.memory ⟨len, some p⟩ i = .ok items[i].entry := by
  show load q.memory.entries p i = .ok items[i].entry
  rw [load, h.holding.stores.2.1]
  simp [hi]

theorem searchFrom_spec (done rest : List (Item SiteRef))
    (h : Looking m (some (a, p)) (done ++ rest) found q) (hample : Ample alloc m)
    (hplaced : ∀ x ∈ done ++ rest, Placed sites x) (len : Nat) :
    ∃ q', searchFrom http sites alloc w ⟨len, some p⟩ rest.length done.length q = .ok (q', none) ∧
      Looking m (some (a, p)) (done ++ rest) ((byText http sites rest w).foldl appended found) q' ∧
      q'.errno = q.errno := by
  induction rest generalizing done found q with
  | nil => exact ⟨q, rfl, h, rfl⟩
  | cons x rest ih =>
      have hx : x ∈ done ++ x :: rest := by simp
      have hentry := h.entryAt (by simp : done.length < (done ++ x :: rest).length) len
      rw [List.getElem_append_right (Nat.le_refl _)] at hentry
      simp only [Nat.sub_self, List.getElem_cons_zero] at hentry
      have hsplit : done ++ x :: rest = done ++ [x] ++ rest := by simp
      have hmentions := @entryMentions_eq η http sites q.memory x (h.holding.readable x hx)
        (hplaced x hx) w
      simp only [List.length_cons, searchFrom, hentry, ok_bind, hmentions]
      have hnext : ∀ found q, Looking m (some (a, p)) (done ++ x :: rest) found q →
          ∃ q', searchFrom http sites alloc w ⟨len, some p⟩ rest.length (done.length + 1) q =
              .ok (q', none) ∧
            Looking m (some (a, p)) (done ++ x :: rest)
              ((byText http sites rest w).foldl appended found) q' ∧ q'.errno = q.errno := by
        intro found q h
        rw [hsplit] at h hplaced ⊢
        have hrest := ih (done ++ [x]) h hplaced
        rwa [List.length_append, List.length_singleton] at hrest
      cases hany : (uris http sites x).any fun uri => (platformStringFindNeedleRaw uri w).isSome with
      | false =>
          have hskip : byText http sites (x :: rest) w = byText http sites rest w :=
            List.filter_cons_of_neg (by simp [hany])
          rw [if_neg Bool.false_ne_true, hskip]
          exact hnext found q h
      | true =>
          have htake : byText http sites (x :: rest) w = x :: byText http sites rest w :=
            List.filter_cons_of_pos hany
          obtain ⟨q', hcall, hlooking, herrno⟩ := h.append hample hx
          rw [if_pos rfl, htake, hcall, ok_bind, List.foldl_cons, ← herrno]
          exact hnext _ q' hlooking

theorem search_spec (h : Looking m (some (a, p)) items found q) (hample : Ample alloc m)
    (hplaced : ∀ x ∈ items, Placed sites x) (w : Bytes) :
    ∃ q', queueEntryArraySearch http sites alloc (some a) w q = .ok (q', none) ∧
      Looking m (some (a, p)) items ((selected http sites items w q.errno).foldl appended found) q' ∧
      q'.errno = (q.errno || (strtol w).2) := by
  have hload : load q.memory.arrays a 0 = .ok ⟨items.length, some p⟩ := by
    rw [load, h.holding.stores.1]
    rfl
  have hstart : Looking m (some (a, p)) items found { q with errno := q.errno || (strtol w).2 } :=
    ⟨h.holding, h.stores, h.subset, h.untouched⟩
  simp only [queueEntryArraySearch, hload, ok_bind, selected]
  split
  · split
    · rename_i hi
      rw [List.getElem?_eq_getElem hi, hstart.entryAt hi, ok_bind]
      exact hstart.append hample (List.getElem_mem hi)
    · rename_i hi
      rw [List.getElem?_eq_none (Nat.not_lt.mp hi)]
      exact ⟨_, rfl, hstart, rfl⟩
  · exact searchFrom_spec [] items hstart hample hplaced items.length

/-- Each word with what `errno` is when its turn comes. -/
def turns (errno : Bool) : List Bytes → List (Bytes × Bool)
  | [] => []
  | w :: rest => (w, errno) :: turns (errno || (strtol w).2) rest

theorem map_fst_turns (words : List Bytes) (errno : Bool) :
    (turns errno words).map Prod.fst = words := by
  induction words generalizing errno with
  | nil => rfl
  | cons w rest ih => rw [turns, List.map_cons, ih]

theorem searchWords_spec (h : Looking m (some (a, p)) items found q) (hample : Ample alloc m)
    (hplaced : ∀ x ∈ items, Placed sites x) (words : List Bytes) :
    ∃ q', searchWords http sites alloc (some a) words q = .ok (q', none) ∧
      Looking m (some (a, p)) items
        (((turns q.errno words).flatMap fun t => selected http sites items t.1 t.2).foldl appended
          found) q' := by
  induction words generalizing found q with
  | nil => exact ⟨q, rfl, h⟩
  | cons w rest ih =>
      obtain ⟨q', hcall, hlooking, herrno⟩ := search_spec h hample hplaced w
      rw [searchWords, hcall, ok_bind, turns, List.flatMap_cons, List.foldl_append, ← herrno]
      exact ih hlooking

end Searching

section Removing

variable {alloc : Allocator} {m : Memory SiteRef} {it : Item SiteRef}
  {found kept : List (Item SiteRef)} {a p f r : Nat}

theorem apart_comm {place place' : Option (Nat × Nat)} : Apart place place' ↔ Apart place' place := by
  cases place with
  | none => cases place' <;> exact Iff.rfl
  | some place =>
      cases place' with
      | none => exact Iff.rfl
      | some place' => exact and_congr ne_comm ne_comm

theorem filter_same (h : Holding m (some (a, p)) kept) (hit : it ∈ kept) :
    kept.filter (!·.same it) = kept.filter (· ≠ it) := by
  refine List.filter_congr fun x hx => ?_
  rw [Bool.eq_iff_iff, Bool.not_eq_true', Bool.eq_false_iff, ne_eq, same_iff h.distinct hx hit,
    decide_eq_true_iff]

theorem remove_one (h : Holding m (some (a, p)) kept)
    (hgranted : Granted m.entries (some p) (alloc m (some a)).2) (hit : it ∈ kept)
    (hmore : kept.filter (· ≠ it) ≠ []) :
    ∃ m' place', queueEntryArrayRemove m (some a) it.entry (alloc m (some a)).2 =
        .ok (m', place'.map Prod.fst, none) ∧ Holding m' place' (kept.filter (· ≠ it)) ∧
      Spares m m' (some (a, p)) place' := by
  have hsome : (kept.findIdx? (·.same it)).isSome = true := by
    rw [List.findIdx?_isSome]
    exact List.any_eq_true.mpr ⟨it, hit, (same_iff h.distinct hit hit).mpr rfl⟩
  obtain ⟨i, hfind⟩ := Option.isSome_iff_exists.mp hsome
  rw [← filter_same h hit] at hmore ⊢
  obtain ⟨-, m', place', hremove, -, hholding, -, -, hspares⟩ :=
    h.remove (h.readable it hit) hfind hmore hgranted
  exact ⟨m', place', hremove, hholding, hspares⟩

theorem remove_last (h : Holding m (some (a, p)) kept) (hit : it ∈ kept)
    (hlast : kept.filter (· ≠ it) = []) (grant : Option (Grant (Entry SiteRef))) :
    queueEntryArrayRemove m (some a) it.entry grant = .error .outOfBounds := by
  have hall : ∀ x ∈ kept, x = it := by simpa using hlast
  obtain ⟨x, rest, rfl⟩ := List.exists_cons_of_ne_nil (List.ne_nil_of_mem hit)
  obtain rfl := hall x (by simp)
  have hrest : rest = [] := by
    refine List.eq_nil_iff_forall_not_mem.mpr fun y hy => ?_
    have hapart := (List.pairwise_cons.mp h.distinct).1 y hy
    rw [hall y (by simp [hy])] at hapart
    rw [(same_iff h.distinct hit hit).mpr rfl] at hapart
    exact absurd hapart (by simp)
  subst hrest
  have hx := h.readable x hit
  exact remove_only h.stores hx hx (h.paths_ne hit) ((same_iff h.distinct hit hit).mpr rfl) grant

theorem filter_filter_ne (kept rest : List (Item SiteRef)) (x : Item SiteRef) :
    (kept.filter (· ≠ x)).filter (· ∉ rest) = kept.filter (· ∉ x :: rest) := by
  rw [List.filter_filter]
  refine List.filter_congr fun y _ => ?_
  simp [Bool.and_comm]

theorem removeFrom_spec {queue : Option (Nat × Nat)} (front rest : List (Item SiteRef))
    (hmore : ∀ m' a len p, m'.arrays a = some [⟨len, some p⟩] →
      Granted m'.entries (some p) (alloc m' (some a)).2)
    (hfound : Stores m (some (f, r)) (front ++ rest)) (hapart : Apart queue (some (f, r)))
    (h : Holding m queue kept) (hrest : rest ⊆ kept) (hnodup : rest.Nodup) (len : Nat) :
    (kept.filter (· ∉ rest) ≠ [] → ∃ m' queue',
      removeFrom alloc ⟨len, some r⟩ rest.length front.length m (queue.map Prod.fst) =
          .ok (m', queue'.map Prod.fst) ∧ Holding m' queue' (kept.filter (· ∉ rest)) ∧
        Stores m' (some (f, r)) (front ++ rest) ∧ Apart queue' (some (f, r))) ∧
    (rest ≠ [] → kept.filter (· ∉ rest) = [] →
      removeFrom alloc ⟨len, some r⟩ rest.length front.length m (queue.map Prod.fst) =
        .error .outOfBounds) := by
  induction rest generalizing front kept m queue with
  | nil =>
      refine ⟨fun _ => ⟨m, queue, rfl, ?_, hfound, hapart⟩, fun hne => absurd rfl hne⟩
      rwa [List.filter_eq_self.mpr (by simp)]
  | cons x rest ih =>
      obtain ⟨hx, hrest⟩ := List.cons_subset.mp hrest
      obtain ⟨hnew, hnodup⟩ := List.nodup_cons.mp hnodup
      have hentry : entryAt m ⟨len, some r⟩ front.length = .ok x.entry := by
        show load m.entries r front.length = .ok x.entry
        rw [load, hfound.2.1]
        simp
      cases queue with
      | none =>
          obtain rfl : kept = [] := h.stores
          exact absurd hx List.not_mem_nil
      | some queue =>
          obtain ⟨a, p⟩ := queue
          rw [← filter_filter_ne]
          simp only [List.length_cons, removeFrom, hentry, ok_bind, Option.map_some]
          by_cases hlast : kept.filter (· ≠ x) = []
          · rw [hlast, remove_last h hx hlast]
            exact ⟨fun hne => absurd List.filter_nil hne, fun _ _ => rfl⟩
          · obtain ⟨m', queue', hremove, hholding, hspares⟩ := remove_one h (hmore _ _ _ _ h.stores.1) hx hlast
            obtain ⟨hapart', hfound'⟩ := hspares _ _ hapart hfound
            have hsplit : front ++ x :: rest = front ++ [x] ++ rest := by simp
            rw [hsplit] at hfound'
            have hrest' : rest ⊆ kept.filter (· ≠ x) := by
              intro y hy
              refine List.mem_filter.mpr ⟨hrest hy, decide_eq_true ?_⟩
              rintro rfl
              exact hnew hy
            obtain ⟨hok, herror⟩ := ih (front ++ [x]) hfound' hapart' hholding hrest' hnodup
            rw [List.length_append, List.length_singleton] at hok herror
            simp only [hremove, ok_bind, hsplit]
            refine ⟨hok, fun _ hgone => herror ?_ hgone⟩
            rintro rfl
            rw [List.filter_eq_self.mpr (by simp)] at hgone
            exact hlast hgone

theorem freeArrayOnly_eq (hfound : Stores m (some (f, r)) found) :
    queueEntryArrayFreeArrayOnly m (some f) =
      .ok ({ m with
        entries := Function.update m.entries r none
        arrays := Function.update m.arrays f none }, none) := by
  have hload : load m.arrays f 0 = .ok ⟨found.length, some r⟩ := by
    rw [load, hfound.1]
    rfl
  simp only [queueEntryArrayFreeArrayOnly, hload, ok_bind, free, hfound.1, hfound.2.1]

end Removing

section Properties

variable {η : Type} (http : HttpScheme η) (sites : SiteArray η) (alloc : Allocator)

/-- An array of these entries, or none. -/
def Finds (m : Memory SiteRef) (found : Option Nat) (items : List (Item SiteRef)) : Prop :=
  ∃ place, found = place.map Prod.fst ∧ Stores m place items

/-- Each word by itself selects what it asks for, and together they find each entry that one
of them asks for once. -/
structure SelectsRight (m : Memory SiteRef) (queue : Option Nat) (items : List (Item SiteRef))
    (words : List Bytes) (errno : Bool) : Prop where
  each : ∀ t ∈ turns errno words, ∃ q,
    queueEntryArraySearch http sites alloc queue t.1 ⟨m, none, t.2⟩ = .ok (q, none) ∧
      Finds q.memory q.found (asked http sites items t.1)
  all : ∃ q found, searchWords http sites alloc queue words ⟨m, none, errno⟩ = .ok (q, none) ∧
    Finds q.memory q.found found ∧ found.Nodup ∧
      ∀ x, x ∈ found ↔ ∃ w ∈ words, x ∈ asked http sites items w

/-- The queue is left with the entries that no word asks for. -/
def RemovesRight (m : Memory SiteRef) (queue : Option Nat) (items : List (Item SiteRef))
    (words : List Bytes) (errno : Bool) : Prop :=
  ∃ m' queue', queueRemove http sites alloc m queue words errno = .ok (m', queue') ∧
    Finds m' queue' (items.filter fun x => ∀ w ∈ words, x ∉ asked http sites items w)

/-- The word is taken for what it is, or what is selected is the same either way. -/
def Told (items : List (Item SiteRef)) (w : Bytes) (errno : Bool) : Prop :=
  match wholeNumber w with
  | some n => (n ≠ 0 ∧ n < 2 ^ 63 ∧ errno = false) ∨ mentioning http sites items w = items[n]?.toList
  | none =>
      if w = [] then mentioning http sites items w = []
      else (strtol w).1 = 0 ∨ errno = true ∨ (strtol w).2 = true ∨
        items[((strtol w).1 % 2 ^ 64).toNat]?.toList = mentioning http sites items w

/-- There is a queue to search, and every word is told right when its turn comes. -/
def Answered (items : List (Item SiteRef)) (words : List Bytes) (errno : Bool) : Prop :=
  (words = [] ∨ items ≠ []) ∧ ∀ t ∈ turns errno words, Told http sites items t.1 t.2

variable {http sites alloc} {m : Memory SiteRef} {items found : List (Item SiteRef)}
  {words : List Bytes} {errno : Bool} {queue : Option (Nat × Nat)}

theorem selected_eq_asked_iff (items : List (Item SiteRef)) (w : Bytes) (errno : Bool) :
    selected http sites items w errno = asked http sites items w ↔
      Told http sites items w errno := by
  have hbounds := atol_bounds w
  cases hn : wholeNumber w with
  | some n =>
      have hw : w ≠ [] := by
        rintro rfl
        simp [wholeNumber] at hn
      simp only [selected, asked, Told, hn, byText_eq hw, strtol_of_wholeNumber hn]
      by_cases hsmall : n < 2 ^ 63
      · have hi : ((n : Int) % 2 ^ 64).toNat = n := by omega
        simp only [if_pos hsmall, hi, decide_eq_false (Nat.not_le.mpr hsmall), Bool.or_false]
        split
        · rename_i hnumber
          exact iff_of_true rfl (.inl ⟨hnumber.1, hsmall, hnumber.2⟩)
        · rename_i htext
          exact ⟨.inr, fun h => h.resolve_left fun hnumber => htext ⟨hnumber.1, hnumber.2.2⟩⟩
      · have hlarge : (errno || decide (2 ^ 63 ≤ n)) = true := by
          rw [decide_eq_true (Nat.not_lt.mp hsmall), Bool.or_true]
        simp only [hlarge, Bool.true_eq_false, and_false, if_false]
        exact ⟨.inr, fun h => h.resolve_left fun hnumber => hsmall hnumber.2.1⟩
  | none =>
      simp only [selected, asked, Told, hn]
      by_cases hw : w = []
      · subst hw
        have hnumber : strtol [] = (0, false) := rfl
        rw [hnumber, if_neg (fun h => h.1 rfl), if_pos rfl, byText_nil, eq_comm]
      · have hzero : ((strtol w).1 % 2 ^ 64).toNat = 0 ↔ (strtol w).1 = 0 := by
          show (atol w % 2 ^ 64).toNat = 0 ↔ atol w = 0
          omega
        simp only [byText_eq hw, ne_eq, hzero, if_neg hw]
        split
        · rename_i hnumber
          simp [hnumber.1, Bool.or_eq_false_iff.mp hnumber.2]
        · rename_i htext
          refine iff_of_true rfl ?_
          by_contra hnot
          simp only [not_or] at hnot
          exact htext ⟨hnot.1, by simp [hnot.2.1, hnot.2.2.1]⟩

theorem item_eq_of_entry {x y : Item SiteRef} (hx : x.Readable m) (hy : y.Readable m)
    (h : x.entry = y.entry) : x = y := by
  obtain ⟨sourceSite, destinationSite, sourcePath, destinationPath, source, destination, state⟩ := x
  obtain ⟨sourceSite', destinationSite', sourcePath', destinationPath', source', destination',
    state'⟩ := y
  simp only [Item.entry, Entry.mk.injEq, Option.some.injEq] at h
  obtain ⟨rfl, rfl, rfl, rfl, rfl⟩ := h
  obtain rfl := Option.some.inj (hx.source.symm.trans hy.source)
  obtain rfl := Option.some.inj (hx.destination.symm.trans hy.destination)
  rfl

theorem entries_inj {xs ys : List (Item SiteRef)} (hxs : ∀ x ∈ xs, x.Readable m)
    (hys : ∀ y ∈ ys, y.Readable m) (h : xs.map Item.entry = ys.map Item.entry) : xs = ys := by
  induction xs generalizing ys with
  | nil => exact (List.map_eq_nil_iff.mp h.symm).symm
  | cons x xs ih =>
      cases ys with
      | nil => simp at h
      | cons y ys =>
          obtain ⟨hx, hxs⟩ := List.forall_mem_cons.mp hxs
          obtain ⟨hy, hys⟩ := List.forall_mem_cons.mp hys
          obtain ⟨hentry, hrest⟩ := List.cons.inj h
          rw [item_eq_of_entry hx hy hentry, ih hxs hys hrest]

theorem Finds.unique {pointer : Option Nat} {found' : List (Item SiteRef)} (h : Finds m pointer found)
    (h' : Finds m pointer found') (hitems : ∀ x ∈ items, x.Readable m) (hfound : found ⊆ items)
    (hfound' : found' ⊆ items) : found = found' := by
  obtain ⟨place, rfl, hstores⟩ := h
  obtain ⟨place', hplace, hstores'⟩ := h'
  cases place with
  | none =>
      cases place' with
      | none => exact hstores.trans hstores'.symm
      | some place' => simp at hplace
  | some place =>
      cases place' with
      | none => simp at hplace
      | some place' =>
          obtain ⟨a, p⟩ := place
          obtain ⟨a', p'⟩ := place'
          obtain rfl : a = a' := Option.some.inj hplace
          have hstruct := Option.some.inj (hstores.1.symm.trans hstores'.1)
          obtain ⟨-, rfl⟩ : found.length = found'.length ∧ p = p' := by simpa using hstruct
          have hentries := Option.some.inj (hstores.2.1.symm.trans hstores'.2.1)
          exact entries_inj (fun x hx => hitems x (hfound hx)) (fun x hx => hitems x (hfound' hx))
            hentries

theorem asked_subset (items : List (Item SiteRef)) (w : Bytes) : asked http sites items w ⊆ items := by
  rw [asked]
  split
  · rename_i n _
    intro x hx
    exact List.mem_of_getElem? (by simpa using hx)
  · exact List.filter_sublist.subset

theorem Looking.start (h : Holding m queue items) (errno : Bool) :
    Looking m queue items [] ⟨m, none, errno⟩ :=
  ⟨h, ⟨none, rfl, rfl, trivial⟩, List.nil_subset _, fun _ => rfl⟩

theorem Looking.finds {q : Query} (h : Looking m queue items found q) :
    Finds q.memory q.found found := by
  obtain ⟨place, hplace, hstores, -⟩ := h.stores
  exact ⟨place, hplace, hstores⟩

theorem nodup_of_distinct (h : items.Pairwise fun x y => x.same y = false) : items.Nodup := by
  refine h.imp ?_
  rintro x y hxy rfl
  rw [Item.same, decide_eq_false_iff_not] at hxy
  exact hxy ⟨⟨rfl, rfl⟩, rfl, rfl⟩

theorem each_iff (h : Holding m queue items) (hplaced : ∀ x ∈ items, Placed sites x)
    (hample : Ample alloc m) (w : Bytes) (errno : Bool) :
    (∃ q, queueEntryArraySearch http sites alloc (queue.map Prod.fst) w ⟨m, none, errno⟩ =
        .ok (q, none) ∧ Finds q.memory q.found (asked http sites items w)) ↔
      items ≠ [] ∧ Told http sites items w errno := by
  cases queue with
  | none =>
      obtain rfl : items = [] := h.stores
      simp [queueEntryArraySearch]
  | some queue =>
      obtain ⟨a, p⟩ := queue
      obtain ⟨q, hcall, hlooking, -⟩ := search_spec (Looking.start h errno) hample hplaced w
      have hsub : (selected http sites items w errno).Sublist items := selected_sublist w errno
      have hfinds := hlooking.finds
      rw [merged_eq h.distinct (by simpa using hsub.subset)
        (by simpa using (nodup_of_distinct h.distinct).sublist hsub), List.nil_append] at hfinds
      rw [← selected_eq_asked_iff, Option.map_some, hcall]
      constructor
      · rintro ⟨q', hsame, hasked⟩
        obtain rfl : q = q' := congrArg Prod.fst (Except.ok.inj hsame)
        exact ⟨h.stores.2.2, hfinds.unique hasked hlooking.holding.readable hsub.subset
          (asked_subset items w)⟩
      · rintro ⟨-, hsame⟩
        exact ⟨q, rfl, hsame ▸ hfinds⟩

theorem all_of_answered (h : Holding m queue items) (hplaced : ∀ x ∈ items, Placed sites x)
    (hample : Ample alloc m) (hanswered : Answered http sites items words errno) :
    ∃ q found, searchWords http sites alloc (queue.map Prod.fst) words ⟨m, none, errno⟩ =
        .ok (q, none) ∧ Looking m queue items found q ∧ found.Nodup ∧
      ∀ x, x ∈ found ↔ ∃ w ∈ words, x ∈ asked http sites items w := by
  obtain ⟨hsome, htold⟩ := hanswered
  cases queue with
  | none =>
      obtain rfl : words = [] := hsome.resolve_right fun hne => hne h.stores
      exact ⟨⟨m, none, errno⟩, [], rfl, Looking.start h errno, List.nodup_nil, by simp⟩
  | some queue =>
      obtain ⟨a, p⟩ := queue
      obtain ⟨q, hcall, hlooking⟩ := searchWords_spec (Looking.start h errno) hample hplaced words
      have hselected : (turns errno words).flatMap
          (fun t => selected http sites items t.1 t.2) ⊆ items := by
        intro x hx
        obtain ⟨t, -, hx⟩ := List.mem_flatMap.mp hx
        exact (selected_sublist t.1 t.2).subset hx
      refine ⟨q, _, hcall, hlooking,
        nodup_merged h.distinct (List.nil_subset _) hselected List.nodup_nil, fun x => ?_⟩
      rw [mem_merged h.distinct (List.nil_subset _) hselected, List.mem_flatMap]
      constructor
      · rintro (hx | ⟨t, ht, hx⟩)
        · exact absurd hx List.not_mem_nil
        · refine ⟨t.1, ?_, ?_⟩
          · rw [← map_fst_turns words errno]
            exact List.mem_map_of_mem ht
          · rwa [← (selected_eq_asked_iff items t.1 t.2).mpr (htold t ht)]
      · rintro ⟨w, hw, hx⟩
        rw [← map_fst_turns words errno] at hw
        obtain ⟨t, ht, rfl⟩ := List.mem_map.mp hw
        exact .inr ⟨t, ht, by rwa [(selected_eq_asked_iff items t.1 t.2).mpr (htold t ht)]⟩

theorem selectsRight_iff (h : Holding m queue items) (hplaced : ∀ x ∈ items, Placed sites x)
    (hample : Ample alloc m) :
    SelectsRight http sites alloc m (queue.map Prod.fst) items words errno ↔
      Answered http sites items words errno := by
  constructor
  · rintro ⟨heach, -⟩
    refine ⟨?_, fun t ht => ((each_iff h hplaced hample t.1 t.2).mp (heach t ht)).2⟩
    cases words with
    | nil => exact .inl rfl
    | cons w rest =>
        exact .inr ((each_iff h hplaced hample w errno).mp (heach (w, errno) (by simp [turns]))).1
  · intro hanswered
    obtain ⟨q, found, hcall, hlooking, hnodup, hmem⟩ := all_of_answered h hplaced hample hanswered
    refine ⟨fun t ht => (each_iff h hplaced hample t.1 t.2).mpr ⟨?_, hanswered.2 t ht⟩,
      q, found, hcall, hlooking.finds, hnodup, hmem⟩
    rcases hanswered.1 with rfl | hitems
    · exact absurd ht List.not_mem_nil
    · exact hitems

theorem queueRemove_iff {q : Query} (hample : Ample alloc m)
    (hcall : searchWords http sites alloc (queue.map Prod.fst) words ⟨m, none, errno⟩ =
      .ok (q, none)) (hlooking : Looking m queue items found q) (hnodup : found.Nodup) :
    (∃ m' queue', queueRemove http sites alloc m (queue.map Prod.fst) words errno =
        .ok (m', queue') ∧ Finds m' queue' (items.filter (· ∉ found))) ↔
      found ≠ [] ∧ items.filter (· ∉ found) ≠ [] := by
  obtain ⟨place, hfound, hstores, hapart⟩ := hlooking.stores
  cases place with
  | none =>
      obtain rfl : found = [] := hstores
      simp [queueRemove, hcall, hfound]
  | some place =>
      obtain ⟨f, r⟩ := place
      have hload : load q.memory.arrays f 0 = .ok ⟨found.length, some r⟩ := by
        rw [load, hstores.1]
        rfl
      obtain ⟨hok, herror⟩ := removeFrom_spec [] found hample.more hstores (apart_comm.mp hapart)
        hlooking.holding hlooking.subset hnodup found.length
      rw [List.length_nil] at hok herror
      simp only [queueRemove, hcall, hfound, hload, Option.map_some, ok_bind]
      constructor
      · rintro ⟨m', queue', hremove, -⟩
        refine ⟨hstores.2.2, fun hnone => ?_⟩
        rw [herror hstores.2.2 hnone, error_bind] at hremove
        exact absurd hremove (by simp)
      · rintro ⟨-, hmore⟩
        obtain ⟨m', queue', hremove, hholding, hstores', hapart'⟩ := hok hmore
        simp only [hremove, freeArrayOnly_eq hstores', ok_bind]
        refine ⟨_, _, rfl, queue', rfl, ?_⟩
        cases queue' with
        | none => exact hholding.stores
        | some queue' =>
            obtain ⟨ha, hp, hne⟩ := hholding.stores
            exact ⟨(Function.update_of_ne hapart'.1 _ _).trans ha,
              (Function.update_of_ne hapart'.2 _ _).trans hp, hne⟩

/-- `QUEUE FIND` selects what is asked for exactly when there is a queue and every word is told
right, and `QUEUE REMOVE` when, besides, some but not all of the entries are asked for. -/
theorem selects_iff (h : Holding m queue items) (hplaced : ∀ x ∈ items, Placed sites x)
    (hample : Ample alloc m) :
    (SelectsRight http sites alloc m (queue.map Prod.fst) items words errno ↔
      Answered http sites items words errno) ∧
    (SelectsRight http sites alloc m (queue.map Prod.fst) items words errno ∧
        RemovesRight http sites alloc m (queue.map Prod.fst) items words errno ↔
      Answered http sites items words errno ∧
        (∃ x ∈ items, ∃ w ∈ words, x ∈ asked http sites items w) ∧
        ∃ x ∈ items, ∀ w ∈ words, x ∉ asked http sites items w) := by
  refine ⟨selectsRight_iff h hplaced hample, ?_⟩
  rw [selectsRight_iff h hplaced hample]
  refine and_congr_right fun hanswered => ?_
  obtain ⟨q, found, hcall, hlooking, hnodup, hmem⟩ := all_of_answered h hplaced hample hanswered
  have hrest : (items.filter fun x => ∀ w ∈ words, x ∉ asked http sites items w) =
      items.filter (· ∉ found) := by
    refine List.filter_congr fun x _ => ?_
    simp [hmem]
  rw [RemovesRight, hrest, queueRemove_iff hample hcall hlooking hnodup]
  refine and_congr ?_ ?_
  · constructor
    · intro hne
      obtain ⟨x, hx⟩ := List.exists_mem_of_ne_nil found hne
      exact ⟨x, hlooking.subset hx, (hmem x).mp hx⟩
    · rintro ⟨x, -, hx⟩
      exact List.ne_nil_of_mem ((hmem x).mpr hx)
  · rw [← hrest]
    simp

def firstEntry : Item SiteRef :=
  ⟨some ⟨0, 1⟩, some ⟨0, 0⟩, 1, 2, text "/a", text "/b", ⟨true, false, false⟩⟩

def secondEntry : Item SiteRef :=
  ⟨some ⟨0, 1⟩, some ⟨0, 0⟩, 3, 4, text "/c", text "/d", ⟨true, false, false⟩⟩

/-- A queue of two entries. -/
def twoEntries : Memory SiteRef :=
  ⟨fun p => [(1, text "/a"), (2, text "/b"), (3, text "/c"), (4, text "/d")].lookup p,
    fun p => if p = 20 then some [firstEntry.entry, secondEntry.entry] else none,
    fun p => if p = 10 then some [⟨2, some 20⟩] else none, []⟩

/-- An array grows and shrinks where it is. -/
def inPlace : Allocator := fun m array =>
  match array with
  | none => (some ⟨11, fun _ => ⟨0, none⟩⟩, some ⟨21, fun _ => firstEntry.entry⟩)
  | some a =>
      (none, ((m.arrays a).bind (·[0]?)).bind fun array =>
        array.entry.map fun p => ⟨p, fun _ => firstEntry.entry⟩)

theorem holding_twoEntries : Holding twoEntries (some (10, 20)) [firstEntry, secondEntry] := by
  refine ⟨⟨rfl, rfl, by simp⟩, by decide, fun x hx => ?_, by decide⟩
  rcases List.mem_pair.mp hx with rfl | rfl
  · exact ⟨rfl, rfl⟩
  · exact ⟨rfl, rfl⟩

theorem placed_twoEntries : ∀ x ∈ [firstEntry, secondEntry], Placed alternatePort x := by
  intro x hx
  rcases List.mem_pair.mp hx with rfl | rfl
  · exact ⟨⟨_, rfl⟩, _, rfl⟩
  · exact ⟨⟨_, rfl⟩, _, rfl⟩

theorem ample_inPlace : Ample inPlace twoEntries := by
  refine ⟨⟨.inl rfl, .inl rfl⟩, fun m' a len p harray => ?_⟩
  simp only [inPlace, harray]
  exact .inr rfl

theorem selects_iff_at :
    (SelectsRight plainHttp alternatePort inPlace twoEntries (some 10) [firstEntry, secondEntry]
        [text "1"] false ↔
      Answered plainHttp alternatePort [firstEntry, secondEntry] [text "1"] false) ∧
    (SelectsRight plainHttp alternatePort inPlace twoEntries (some 10) [firstEntry, secondEntry]
          [text "1"] false ∧
        RemovesRight plainHttp alternatePort inPlace twoEntries (some 10) [firstEntry, secondEntry]
          [text "1"] false ↔
      Answered plainHttp alternatePort [firstEntry, secondEntry] [text "1"] false ∧
        (∃ x ∈ [firstEntry, secondEntry], ∃ w ∈ [text "1"],
          x ∈ asked plainHttp alternatePort [firstEntry, secondEntry] w) ∧
        ∃ x ∈ [firstEntry, secondEntry], ∀ w ∈ [text "1"],
          x ∉ asked plainHttp alternatePort [firstEntry, secondEntry] w) :=
  selects_iff holding_twoEntries placed_twoEntries ample_inPlace

/-- The word `0` is searched for as a text, and both entries have it in their ports. -/
theorem zeroth_not_selected :
    Holding twoEntries (some (10, 20)) [firstEntry, secondEntry] ∧
      (∀ x ∈ [firstEntry, secondEntry], Placed alternatePort x) ∧ Ample inPlace twoEntries ∧
      ¬ SelectsRight plainHttp alternatePort inPlace twoEntries (some 10) [firstEntry, secondEntry]
        [text "0"] false := by
  refine ⟨holding_twoEntries, placed_twoEntries, ample_inPlace, fun h => ?_⟩
  obtain ⟨-, htold⟩ :=
    (selectsRight_iff holding_twoEntries placed_twoEntries ample_inPlace).mp h
  rcases htold (text "0", false) (by simp [turns]) with ⟨hzero, -⟩ | hsame
  · exact hzero rfl
  · exact absurd hsame (by decide)

end Properties

end Newth.Client.QueueSearch
