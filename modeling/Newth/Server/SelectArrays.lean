import Mathlib.Data.Finset.Card
import Newth.Server.BackEnds

namespace Newth.Server.SelectArrays

open Newth.Library.Blocks
open Newth.Library.Call
open Newth.Library.Runs
open Newth.Server.BackEnds

section SelectBackEnd

/-- The turns of a loop from no descriptor up to `serverMaxSocket`. -/
def turns (self : Select) : Nat := (self.serverMaxSocket + 1).toNat

/-- The loop of `GetFdSetSize`, from `i` on for so many turns. -/
def sizeFrom (set : Finset Socket) : Nat → Socket → Socket → Except Stop Socket
  | 0, _, r => .ok r
  | n + 1, i, r => do
      let isset ← fdIsset i set
      sizeFrom set n (i + 1) (if isset then r + 1 else r)

def getFdSetSize (self : Select) (set : Finset Socket) : Except Stop Socket :=
  sizeFrom set (turns self) 0 0

/-- The loop of `GetFdSetAsArray`, from `i` on for so many turns. -/
def fillFrom (set : Finset Socket) (r : Nat) :
    Nat → Socket → Nat → Heap Socket → Except Stop (Heap Socket)
  | 0, _, _, heap => .ok heap
  | n + 1, i, j, heap => do
      let isset ← fdIsset i set
      if isset then do
        let heap ← store heap r j i
        fillFrom set r n (i + 1) (j + 1) heap
      else fillFrom set r n (i + 1) j heap

/-- The size is that of `serverReadSockets`, whatever the set. -/
def getFdSetAsArray (self : Select) (heap : Heap Socket) (set : Finset Socket)
    (grant : Option (Grant Socket)) : Except Stop (Heap Socket × Option Nat) := do
  let size ← getFdSetSize self self.serverReadSockets
  let (heap, r) ← realloc heap none (size + 1).toNat grant
  match r with
  | none => .ok (heap, none)
  | some r => do
      let heap ← store heap r 0 size
      let heap ← fillFrom set r (turns self) 0 1 heap
      .ok (heap, some r)

def Select.serverGetListenSocketArray (self : Select) (heap : Heap Socket)
    (grant : Option (Grant Socket)) : Except Stop (Heap Socket × Option Nat) :=
  getFdSetAsArray self heap self.serverListenSockets grant

def Select.serverGetReadSocketArray (self : Select) (heap : Heap Socket)
    (grant : Option (Grant Socket)) : Except Stop (Heap Socket × Option Nat) :=
  getFdSetAsArray self heap self.serverReadSockets grant

def Select.serverGetWriteSocketArray (self : Select) (heap : Heap Socket)
    (grant : Option (Grant Socket)) : Except Stop (Heap Socket × Option Nat) :=
  getFdSetAsArray self heap self.serverWriteSockets grant

/-- The loop of `fdSetToSocketArray`, from `i` on for so many turns. -/
def setFrom (heap : Heap Socket) (array : Nat) :
    Nat → Nat → Finset Socket → Except Stop (Finset Socket)
  | 0, _, set => .ok set
  | n + 1, i, set => do
      let socket ← load heap array i
      let set ← fdSet socket set
      setFrom heap array n (i + 1) set

def fdSetToSocketArray (heap : Heap Socket) (array : Nat) (set : Finset Socket) :
    Except Stop (Finset Socket) := do
  let size ← load heap array 0
  setFrom heap array size.toNat 1 set

/-- The loop of `serverSetup` that looks for the highest descriptor. -/
def maxFrom (heap : Heap Socket) (sockets : Nat) : Nat → Nat → Socket → Except Stop Socket
  | 0, _, maxSocket => .ok maxSocket
  | n + 1, i, maxSocket => do
      let socket ← load heap sockets i
      maxFrom heap sockets n (i + 1) (if maxSocket < socket then socket else maxSocket)

def Select.serverSetup (self : Select) (heap : Heap Socket) (sockets : Nat) :
    Except Stop Select := do
  let listening ← fdSetToSocketArray heap sockets self.serverListenSockets
  let reading ← fdSetToSocketArray heap sockets ∅
  let size ← load heap sockets 0
  let maxSocket ← maxFrom heap sockets size.toNat 1 self.serverMaxSocket
  .ok ⟨listening, reading, ∅, maxSocket⟩

end SelectBackEnd

section Members

variable {set : Finset Socket} {n r : Nat} {i : Int} {heap : Heap Socket}
variable {front rest : List Socket}

/-- The descriptors from `i` on that are in a set, in the order the loops come to them. -/
def members (set : Finset Socket) : Nat → Socket → List Socket
  | 0, _ => []
  | n + 1, i => if i ∈ set then i :: members set n (i + 1) else members set n (i + 1)

theorem mem_members {socket : Int} :
    socket ∈ members set n i ↔ socket ∈ set ∧ i ≤ socket ∧ socket < i + n := by
  induction n generalizing i with
  | zero =>
      simp only [members, List.not_mem_nil, false_iff]
      omega
  | succ n ih =>
      rw [members]
      split
      · rename_i hmem
        rw [List.mem_cons, ih]
        constructor
        · rintro (rfl | ⟨hset, hlow, hhigh⟩)
          · exact ⟨hmem, by omega, by omega⟩
          · exact ⟨hset, by omega, by omega⟩
        · rintro ⟨hset, hlow, hhigh⟩
          by_cases hsame : socket = i
          · exact .inl hsame
          · exact .inr ⟨hset, by omega, by omega⟩
      · rename_i hother
        rw [ih]
        constructor
        · rintro ⟨hset, hlow, hhigh⟩
          exact ⟨hset, by omega, by omega⟩
        · rintro ⟨hset, hlow, hhigh⟩
          have hne : socket ≠ i := by
            rintro rfl
            exact hother hset
          exact ⟨hset, by omega, by omega⟩

theorem nodup_members : (members set n i).Nodup := by
  induction n generalizing i with
  | zero => exact List.nodup_nil
  | succ n ih =>
      rw [members]
      split
      · refine List.nodup_cons.mpr ⟨fun hmem => ?_, ih⟩
        have hlow := (mem_members.mp hmem).2.1
        omega
      · exact ih

theorem coe_members (hset : ∀ socket : Int, socket ∈ set → i ≤ socket ∧ socket < i + n) :
    (members set n i : Multiset Socket) = set.val := by
  refine (Multiset.Nodup.ext (Multiset.coe_nodup.mpr nodup_members) set.nodup).mpr fun socket => ?_
  rw [Multiset.mem_coe, mem_members, Finset.mem_val]
  exact ⟨And.left, fun h => ⟨h, hset socket h⟩⟩

theorem length_members (hset : ∀ socket : Int, socket ∈ set → i ≤ socket ∧ socket < i + n) :
    (members set n i).length = set.card :=
  congrArg Multiset.card (coe_members hset)

theorem sizeFrom_eq (hrange : ∀ socket : Int, i ≤ socket → socket < i + n → InRange socket) (r : Int) :
    sizeFrom set n i r = .ok (r + (members set n i).length) := by
  induction n generalizing i r with
  | zero => simp [sizeFrom, members]
  | succ n ih =>
      have hhere : InRange i := hrange i (by omega) (by omega)
      have hlater : ∀ socket : Int, i + 1 ≤ socket → socket < i + 1 + n → InRange socket :=
        fun socket hlow hhigh => hrange socket (by omega) (by omega)
      rw [sizeFrom, fdIsset_eq hhere, ok_bind, ih hlater, members]
      by_cases hmem : i ∈ set
      · have hcount : r + 1 + ((members set n (i + 1)).length : Int) =
            r + ((i :: members set n (i + 1)).length : Int) := by
          rw [List.length_cons]
          omega
        simp only [hmem, decide_true, if_true]
        exact congrArg Except.ok hcount
      · simp [hmem]

theorem fillFrom_eq (hrange : ∀ socket : Int, i ≤ socket → socket < i + n → InRange socket)
    (hblock : heap r = some (front ++ rest)) :
    fillFrom set r n i front.length heap =
      if (members set n i).length ≤ rest.length then
        .ok (Function.update heap r
          (some (front ++ members set n i ++ rest.drop (members set n i).length)))
      else .error .outOfBounds := by
  induction n generalizing i front rest heap with
  | zero =>
      rw [fillFrom, members, List.length_nil, if_pos (Nat.zero_le _), List.append_nil,
        List.drop_zero, ← hblock, Function.update_eq_self]
  | succ n ih =>
      have hhere : InRange i := hrange i (by omega) (by omega)
      have hlater : ∀ socket : Int, i + 1 ≤ socket → socket < i + 1 + n → InRange socket :=
        fun socket hlow hhigh => hrange socket (by omega) (by omega)
      rw [fillFrom, fdIsset_eq hhere, ok_bind, members]
      by_cases hmem : i ∈ set
      · simp only [hmem, decide_true, if_true]
        cases rest with
        | nil =>
            have hfull : store heap r front.length i = .error .outOfBounds := by
              rw [store, hblock]
              simp
            rw [hfull, List.length_cons, if_neg (by simp)]
            rfl
        | cons old rest =>
            have hnext := @ih (i + 1) (Function.update heap r (some (front ++ i :: rest)))
              (front ++ [i]) rest hlater (by rw [Function.update_self]; simp)
            rw [List.length_append, List.length_singleton] at hnext
            rw [store_behind hblock, ok_bind, hnext]
            simp [Function.update_idem]
      · simp only [hmem, decide_false, Bool.false_eq_true, if_false]
        exact ih hlater hblock

end Members

/-- A call comes back with an array of its own that says how many sockets there are, and which. -/
def Lists (call : Except Stop (Heap Socket × Option Nat)) (sockets : Multiset Socket) : Prop :=
  ∃ heap r listed, call = .ok (heap, some r) ∧
    heap r = some ((listed.length : Socket) :: listed) ∧ (listed : Multiset Socket) = sockets

section SelectArrays

variable {now start : Select} {set : Finset Socket} {heap : Heap Socket} {array n i : Nat}

/-- Every socket of a set is one the loops come to. -/
def Within (now : Select) (set : Finset Socket) : Prop :=
  ∀ socket : Int, socket ∈ set → 0 ≤ socket ∧ socket ≤ now.serverMaxSocket

/-- What holds of the static variables of `select.c` throughout. -/
structure Bounded (now : Select) : Prop where
  inRange : InRange now.serverMaxSocket
  reads : Within now now.serverReadSockets
  writes : Within now now.serverWriteSockets
  listens : now.serverListenSockets ⊆ now.serverReadSockets

theorem Bounded.turns_eq (h : Bounded now) : ((turns now : Nat) : Int) = now.serverMaxSocket + 1 :=
  Int.toNat_of_nonneg (Int.add_nonneg h.inRange.1 (by decide))

theorem Bounded.inRange_turns (h : Bounded now) :
    ∀ socket : Int, 0 ≤ socket → socket < 0 + turns now → InRange socket := by
  intro socket hlow hhigh
  rw [h.turns_eq, Int.zero_add] at hhigh
  exact ⟨hlow, lt_of_le_of_lt (Int.lt_add_one_iff.mp hhigh) h.inRange.2⟩

theorem Bounded.turns_within (h : Bounded now) (hset : Within now set) :
    ∀ socket : Int, socket ∈ set → 0 ≤ socket ∧ socket < 0 + turns now := by
  intro socket hmem
  obtain ⟨hlow, hhigh⟩ := hset socket hmem
  rw [h.turns_eq, Int.zero_add]
  exact ⟨hlow, Int.lt_add_one_iff.mpr hhigh⟩

theorem Bounded.getFdSetAsArray_eq (h : Bounded now) (hset : Within now set)
    (heap : Heap Socket) (grant : Grant Socket) :
    ∃ stray : List Socket, stray.length = now.serverReadSockets.card ∧
      getFdSetAsArray now heap set (some grant) =
        if set.card ≤ now.serverReadSockets.card then
          .ok (Function.update heap grant.address
            (some ((now.serverReadSockets.card : Socket) ::
              (members set (turns now) 0 ++ stray.drop set.card))), some grant.address)
        else .error .outOfBounds := by
  obtain ⟨stray, hstray, hstore⟩ := store_new heap grant.address now.serverReadSockets.card
    grant.stray (now.serverReadSockets.card : Socket)
  refine ⟨stray, hstray, ?_⟩
  have hsize : getFdSetSize now now.serverReadSockets = .ok (now.serverReadSockets.card : Int) := by
    rw [getFdSetSize, sizeFrom_eq h.inRange_turns, length_members (h.turns_within h.reads)]
    exact congrArg Except.ok (Int.zero_add _)
  have hfill := @fillFrom_eq set (turns now) grant.address 0
    (Function.update heap grant.address (some ((now.serverReadSockets.card : Socket) :: stray)))
    [(now.serverReadSockets.card : Socket)] stray h.inRange_turns (Function.update_self ..)
  rw [length_members (h.turns_within hset), hstray, Function.update_idem, List.length_singleton,
    List.append_assoc, List.singleton_append] at hfill
  have hroom : ((now.serverReadSockets.card : Int) + 1).toNat = now.serverReadSockets.card + 1 := by
    omega
  have hmalloc : realloc heap none (now.serverReadSockets.card + 1) (some grant) =
      .ok (Function.update heap grant.address
        (some (resized [] (now.serverReadSockets.card + 1) grant.stray)), some grant.address) := rfl
  rw [getFdSetAsArray, hsize, ok_bind, hroom, hmalloc, ok_bind]
  simp only [hstore, ok_bind]
  rw [hfill]
  split
  · rfl
  · rfl

theorem Bounded.lists_iff (h : Bounded now) (hset : Within now set) (heap : Heap Socket)
    (grant : Grant Socket) :
    Lists (getFdSetAsArray now heap set (some grant)) set.val ↔
      set.card = now.serverReadSockets.card := by
  obtain ⟨stray, hstray, hcall⟩ := h.getFdSetAsArray_eq hset heap grant
  have hlength := length_members (h.turns_within hset)
  constructor
  · rintro ⟨heap', r, listed, hlists, hblock, hlisted⟩
    have hcount : listed.length = set.card := congrArg Multiset.card hlisted
    rw [hcall] at hlists
    split at hlists
    · obtain ⟨rfl, heq⟩ := Prod.mk.inj (Except.ok.inj hlists)
      obtain rfl := Option.some.inj heq
      rw [Function.update_self] at hblock
      have hhead := (List.cons.inj (Option.some.inj hblock)).1
      rw [← hcount]
      exact (Int.ofNat_inj.mp hhead).symm
    · contradiction
  · intro hcard
    refine ⟨_, _, members set (turns now) 0, hcall.trans (if_pos hcard.le), ?_,
      coe_members (h.turns_within hset)⟩
    rw [Function.update_self, hlength, hcard, ← hstray, List.drop_length, List.append_nil]

end SelectArrays

section SelectRuns

variable {now next start : Select} {heap : Heap Socket} {array n i : Nat}

theorem setFrom_ok {set set' : Finset Socket} (h : setFrom heap array n i set = .ok set') :
    ∀ socket ∈ set', socket ∈ set ∨
      InRange socket ∧ ∃ k, k < n ∧ load heap array (i + k) = .ok socket := by
  induction n generalizing i set with
  | zero =>
      obtain rfl := Except.ok.inj h
      exact fun socket hmem => .inl hmem
  | succ n ih =>
      obtain ⟨first, hload, h⟩ := bind_eq_ok_iff.mp h
      obtain ⟨set₁, hset, h⟩ := bind_eq_ok_iff.mp h
      rw [fdSet] at hset
      split at hset
      · rename_i hrange
        obtain rfl := Except.ok.inj hset
        intro socket hmem
        rcases ih h socket hmem with hold | ⟨hinRange, k, hk, hlater⟩
        · rcases Finset.mem_insert.mp hold with rfl | hold
          · exact .inr ⟨hrange, 0, Nat.succ_pos n, hload⟩
          · exact .inl hold
        · refine .inr ⟨hinRange, k + 1, Nat.succ_lt_succ hk, ?_⟩
          rwa [Nat.add_comm k, ← Nat.add_assoc]
      · contradiction

theorem inRange_of_setFrom {set set' : Finset Socket} {k : Nat} {socket : Socket}
    (h : setFrom heap array n i set = .ok set') (hk : k < n)
    (hload : load heap array (i + k) = .ok socket) : InRange socket := by
  induction n generalizing i k set with
  | zero => exact absurd hk (Nat.not_lt_zero k)
  | succ n ih =>
      obtain ⟨first, hfirst, h⟩ := bind_eq_ok_iff.mp h
      obtain ⟨set₁, hset, h⟩ := bind_eq_ok_iff.mp h
      cases k with
      | zero =>
          obtain rfl := Except.ok.inj (hfirst.symm.trans hload)
          rw [fdSet] at hset
          split at hset
          · assumption
          · contradiction
      | succ k =>
          rw [Nat.add_comm k, ← Nat.add_assoc] at hload
          exact ih h (Nat.lt_of_succ_lt_succ hk) hload

theorem maxFrom_ok {least most : Int} (h : maxFrom heap array n i least = .ok most) :
    least ≤ most ∧ (∀ k < n, ∀ socket : Int, load heap array (i + k) = .ok socket → socket ≤ most) ∧
      (most = least ∨ ∃ k < n, load heap array (i + k) = .ok most) := by
  induction n generalizing i least with
  | zero =>
      obtain rfl := Except.ok.inj h
      exact ⟨le_rfl, fun k hk => absurd hk (Nat.not_lt_zero k), .inl rfl⟩
  | succ n ih =>
      obtain ⟨first, hload, h⟩ := bind_eq_ok_iff.mp h
      obtain ⟨hleast, hmost, hfrom⟩ := ih h
      have hboth : least ≤ most ∧ (first : Int) ≤ most := by
        split at hleast
        · rename_i hless
          exact ⟨(le_of_lt hless).trans hleast, hleast⟩
        · rename_i hmore
          exact ⟨hleast, (not_lt.mp hmore).trans hleast⟩
      refine ⟨hboth.1, fun k hk socket hsocket => ?_, ?_⟩
      · cases k with
        | zero =>
            obtain rfl : first = socket := Except.ok.inj (hload.symm.trans hsocket)
            exact hboth.2
        | succ k =>
            rw [Nat.add_comm k, ← Nat.add_assoc] at hsocket
            exact hmost k (Nat.lt_of_succ_lt_succ hk) socket hsocket
      · rcases hfrom with heq | ⟨k, hk, hlater⟩
        · split at heq
          · exact .inr ⟨0, Nat.succ_pos n, heq ▸ hload⟩
          · exact .inl heq
        · rw [Nat.add_assoc, Nat.add_comm 1] at hlater
          exact .inr ⟨k + 1, Nat.succ_lt_succ hk, hlater⟩

theorem bounded_setup (h : Select.serverSetup ⟨∅, ∅, ∅, 0⟩ heap array = .ok start) :
    Bounded start := by
  obtain ⟨listening, hlistening, h⟩ := bind_eq_ok_iff.mp h
  obtain ⟨reading, hreading, h⟩ := bind_eq_ok_iff.mp h
  obtain ⟨size, hsize, h⟩ := bind_eq_ok_iff.mp h
  obtain ⟨most, hmost, h⟩ := bind_eq_ok_iff.mp h
  obtain rfl := Except.ok.inj h
  obtain rfl : listening = reading := Except.ok.inj (hlistening.symm.trans hreading)
  have hset : setFrom heap array size.toNat 1 ∅ = .ok listening := by
    rw [fdSetToSocketArray, hsize, ok_bind] at hreading
    exact hreading
  obtain ⟨hleast, hhigh, hfrom⟩ := maxFrom_ok hmost
  have hreads : ∀ socket : Int, socket ∈ listening → 0 ≤ socket ∧ socket ≤ most := by
    intro socket hmem
    rcases setFrom_ok hset socket hmem with hnone | ⟨hrange, k, hk, hload⟩
    · exact absurd hnone (Finset.notMem_empty socket)
    · exact ⟨hrange.1, hhigh k hk socket hload⟩
  refine ⟨?_, hreads, fun socket hmem => absurd hmem (Finset.notMem_empty socket), subset_rfl⟩
  have hinRange : 0 ≤ most ∧ most < fdSetSize := by
    rcases hfrom with hnone | ⟨k, hk, hload⟩
    · rw [hnone]
      decide
    · exact inRange_of_setFrom hset hk hload
  exact hinRange

/-- An `fd_set` has room for the socket, `serverTick` looks at it, and only sockets that have been
accepted are deferred. -/
def Served (now : Select) (c : Command) : Prop :=
  InRange c.socket ∧
  match c with
  | .close socket _ => socket ∉ now.serverListenSockets
  | .deferredAdd socket _ => socket ≤ now.serverMaxSocket
  | .accept _ _ | .deferredRemove _ _ | .deferredExists _ | .writable _ _ => True

instance (now : Select) : (c : Command) → Decidable (Served now c)
  | .close _ _ => inferInstanceAs (Decidable (_ ∧ _ ∉ _))
  | .deferredAdd _ _ => inferInstanceAs (Decidable (_ ∧ _ ≤ _))
  | .accept _ _ => inferInstanceAs (Decidable (_ ∧ True))
  | .deferredRemove _ _ => inferInstanceAs (Decidable (_ ∧ True))
  | .deferredExists _ => inferInstanceAs (Decidable (_ ∧ True))
  | .writable _ _ => inferInstanceAs (Decidable (_ ∧ True))

def selectMoves (now : Select) (c : Command) : Except Stop Select := do
  let (now, _) ← selectStep now c
  .ok now

theorem fdSet_ok {socket : Socket} {set set' : Finset Socket} (h : fdSet socket set = .ok set') :
    InRange socket ∧ set' = insert socket set := by
  rw [fdSet] at h
  split at h
  · rename_i hrange
    exact ⟨hrange, (Except.ok.inj h).symm⟩
  · contradiction

theorem fdClr_ok {socket : Socket} {set set' : Finset Socket} (h : fdClr socket set = .ok set') :
    set' = set.erase socket := by
  rw [fdClr] at h
  split at h
  · exact (Except.ok.inj h).symm
  · contradiction

theorem within_erase {set : Finset Socket} (h : Within now set) (socket : Socket) :
    Within now (set.erase socket) := fun x hmem => h x (Finset.mem_of_mem_erase hmem)

/-- What a command does to the sets of `select.c`. -/
def SelectMoves (now next : Select) : Command → Prop
  | .accept socket _ => InRange socket ∧ next = { now with
      serverMaxSocket := max now.serverMaxSocket socket
      serverReadSockets := insert socket now.serverReadSockets }
  | .close socket _ => next = { now with
      serverReadSockets := now.serverReadSockets.erase socket
      serverWriteSockets := now.serverWriteSockets.erase socket }
  | .deferredAdd socket _ => InRange socket ∧ next = { now with
      serverWriteSockets := insert socket now.serverWriteSockets }
  | .deferredRemove socket _ | .writable socket _ => next = { now with
      serverWriteSockets := now.serverWriteSockets.erase socket }
  | .deferredExists _ => next = now

theorem selectStep_ok {c : Command} {answer : Option Bool}
    (h : selectStep now c = .ok (next, answer)) : SelectMoves now next c := by
  cases c with
  | accept socket grant =>
      obtain ⟨after, hafter, h⟩ := bind_eq_ok_iff.mp h
      obtain ⟨rfl, -⟩ := Prod.mk.inj (Except.ok.inj h)
      obtain ⟨set, hset, hafter⟩ := bind_eq_ok_iff.mp hafter
      obtain rfl := Except.ok.inj hafter
      obtain ⟨hrange, rfl⟩ := fdSet_ok hset
      exact ⟨hrange, rfl⟩
  | close socket grant =>
      obtain ⟨after, hafter, h⟩ := bind_eq_ok_iff.mp h
      obtain ⟨rfl, -⟩ := Prod.mk.inj (Except.ok.inj h)
      obtain ⟨reading, hreading, hafter⟩ := bind_eq_ok_iff.mp hafter
      obtain ⟨writing, hwriting, hafter⟩ := bind_eq_ok_iff.mp hafter
      obtain rfl := Except.ok.inj hafter
      obtain rfl := fdClr_ok hreading
      obtain rfl := fdClr_ok hwriting
      rfl
  | deferredAdd socket grant =>
      obtain ⟨⟨after, failed⟩, hafter, h⟩ := bind_eq_ok_iff.mp h
      obtain ⟨rfl, -⟩ := Prod.mk.inj (Except.ok.inj h)
      obtain ⟨set, hset, hafter⟩ := bind_eq_ok_iff.mp hafter
      obtain ⟨rfl, -⟩ := Prod.mk.inj (Except.ok.inj hafter)
      obtain ⟨hrange, rfl⟩ := fdSet_ok hset
      exact ⟨hrange, rfl⟩
  | deferredRemove socket grant | writable socket grant =>
      obtain ⟨after, hafter, h⟩ := bind_eq_ok_iff.mp h
      obtain ⟨rfl, -⟩ := Prod.mk.inj (Except.ok.inj h)
      obtain ⟨set, hset, hafter⟩ := bind_eq_ok_iff.mp hafter
      obtain rfl := Except.ok.inj hafter
      obtain rfl := fdClr_ok hset
      rfl
  | deferredExists socket =>
      obtain ⟨found, -, h⟩ := bind_eq_ok_iff.mp h
      obtain ⟨rfl, -⟩ := Prod.mk.inj (Except.ok.inj h)
      rfl

theorem bounded_step {c : Command} (h : Bounded now) (hserved : Served now c)
    (hstep : selectMoves now c = .ok next) : Bounded next := by
  obtain ⟨⟨after, answer⟩, hmoves, hstep⟩ := bind_eq_ok_iff.mp hstep
  obtain rfl := Except.ok.inj hstep
  have hafter := selectStep_ok hmoves
  cases c with
  | accept socket grant =>
      obtain ⟨hrange, rfl⟩ := hafter
      have hgrows : ∀ set, Within now set → ∀ x : Int, x ∈ set →
          0 ≤ x ∧ x ≤ max now.serverMaxSocket socket := fun set hset x hmem =>
        ⟨(hset x hmem).1, (hset x hmem).2.trans (le_max_left _ _)⟩
      refine ⟨?_, ?_, hgrows _ h.writes, h.listens.trans (Finset.subset_insert _ _)⟩
      · change InRange (max now.serverMaxSocket socket)
        rcases max_choice now.serverMaxSocket socket with heq | heq
        · rw [heq]
          exact h.inRange
        · rw [heq]
          exact hrange
      · intro x hmem
        rcases Finset.mem_insert.mp hmem with rfl | hmem
        · exact ⟨hrange.1, le_max_right _ _⟩
        · exact hgrows _ h.reads x hmem
  | close socket grant =>
      obtain rfl := hafter
      refine ⟨h.inRange, within_erase h.reads socket, within_erase h.writes socket, ?_⟩
      exact Finset.subset_erase.mpr ⟨h.listens, hserved.2⟩
  | deferredAdd socket grant =>
      obtain ⟨hrange, rfl⟩ := hafter
      refine ⟨h.inRange, h.reads, fun x hmem => ?_, h.listens⟩
      rcases Finset.mem_insert.mp hmem with rfl | hmem
      · exact ⟨hrange.1, hserved.2⟩
      · exact h.writes x hmem
  | deferredRemove socket grant | writable socket grant =>
      obtain rfl := hafter
      exact ⟨h.inRange, h.reads, within_erase h.writes socket, h.listens⟩
  | deferredExists socket =>
      obtain rfl := hafter
      exact h

theorem selectMoves_served {c : Command} (h : Served now c) : ∃ next, selectMoves now c = .ok next := by
  have hrange := h.1
  cases c with
  | accept socket grant =>
      replace hrange : InRange socket := hrange
      exact ⟨_, by simp only [selectMoves, selectStep, Select.accepts, fdSet_eq hrange, ok_bind]; rfl⟩
  | close socket grant =>
      replace hrange : InRange socket := hrange
      exact ⟨_, by
        simp only [selectMoves, selectStep, Select.serves, fdClr_eq hrange, ok_bind, if_true]; rfl⟩
  | deferredAdd socket grant =>
      replace hrange : InRange socket := hrange
      exact ⟨_, by
        simp only [selectMoves, selectStep, Select.serverDeferredSocketAdd, fdSet_eq hrange, ok_bind]
        rfl⟩
  | deferredRemove socket grant =>
      replace hrange : InRange socket := hrange
      exact ⟨_, by
        simp only [selectMoves, selectStep, Select.serverDeferredSocketRemove, fdClr_eq hrange,
          ok_bind]
        rfl⟩
  | deferredExists socket =>
      replace hrange : InRange socket := hrange
      exact ⟨_, by
        simp only [selectMoves, selectStep, Select.serverDeferredSocketExists, fdIsset_eq hrange,
          ok_bind]
        rfl⟩
  | writable socket grant =>
      replace hrange : InRange socket := hrange
      exact ⟨_, by simp only [selectMoves, selectStep, Select.drains, fdClr_eq hrange, ok_bind]; rfl⟩

theorem select_arrays (hsetup : Select.serverSetup ⟨∅, ∅, ∅, 0⟩ heap array = .ok start)
    (hrun : Run selectMoves Served start now) (heap' : Heap Socket) (grant : Grant Socket) :
    Lists (Select.serverGetReadSocketArray now heap' (some grant)) now.serverReadSockets.val ∧
      (Lists (Select.serverGetListenSocketArray now heap' (some grant)) now.serverListenSockets.val ↔
        now.serverReadSockets = now.serverListenSockets) ∧
      (Lists (Select.serverGetWriteSocketArray now heap' (some grant)) now.serverWriteSockets.val ↔
        now.serverWriteSockets.card = now.serverReadSockets.card) ∧
      ∀ c, Served now c → ∃ next, selectMoves now c = .ok next := by
  have hbounded : Bounded now :=
    run_invariant Bounded (fun _ _ _ h hserved hstep => bounded_step h hserved hstep) hrun
      (bounded_setup hsetup)
  have hlistens : Within now now.serverListenSockets := fun socket hmem =>
    hbounded.reads socket (hbounded.listens hmem)
  refine ⟨(hbounded.lists_iff hbounded.reads heap' grant).mpr rfl, ?_,
    hbounded.lists_iff hbounded.writes heap' grant, fun c => selectMoves_served⟩
  refine (hbounded.lists_iff hlistens heap' grant).trans ⟨fun hcard => ?_, fun heq => by rw [heq]⟩
  exact (Finset.eq_of_subset_of_card_le hbounded.listens hcard.ge).symm

end SelectRuns

end Newth.Server.SelectArrays
