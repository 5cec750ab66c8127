import Newth.Server.SelectArrays

namespace Newth.Server.PollArrays

open Newth.Library.Blocks
open Newth.Library.Call
open Newth.Library.Runs
open Newth.Server.BackEnds
open Newth.Server.SelectArrays

section PollBackEnd

/-- The static variables of `poll.c`, with the array of the sockets that listen. -/
structure Listener where
  poll : Poll
  listenPoll : Option Nat
  listenPollCount : Nat

/-- The loops of `serverSetup` and `pollFdToSocketArray`: `dest[j] = source[i]` for so many turns. -/
def copySockets (source dest : Nat) : Nat → Nat → Nat → Heap Socket → Except Stop (Heap Socket)
  | 0, _, _, heap => .ok heap
  | n + 1, i, j, heap => do
      let socket ← load heap source i
      let heap ← store heap dest j socket
      copySockets source dest n (i + 1) (j + 1) heap

/-- `calloc`, of `n` elements. -/
def calloc (heap : Heap Socket) (n : Nat) (grant : Option (Grant Socket)) :
    Except Stop (Heap Socket × Option Nat) :=
  realloc heap none n (grant.map fun grant => ⟨grant.address, fun _ => 0⟩)

def Listener.serverSetup (self : Listener) (sockets : Nat) (grant : Option (Grant Socket)) :
    Except Stop Listener := do
  let size ← load self.poll.heap sockets 0
  let (heap, listenPoll) ← calloc self.poll.heap (size + 1).toNat grant
  match listenPoll with
  | none =>
      if 0 < size then .error .outOfBounds
      else .ok ⟨{ self.poll with heap := heap }, none, size.toNat⟩
  | some p => do
      let heap ← copySockets sockets p size.toNat 1 0 heap
      .ok ⟨{ self.poll with heap := heap }, some p, size.toNat⟩

def pollFdToSocketArray (heap : Heap Socket) (poll : Option Nat) (count : Nat)
    (grant : Option (Grant Socket)) : Except Stop (Heap Socket × Option Nat) := do
  let (heap, r) ← realloc heap none (count + 1) grant
  match r with
  | none => .ok (heap, none)
  | some r => do
      let heap ← store heap r 0 (count : Socket)
      let heap ← match poll with
        | none => if 0 < count then .error .outOfBounds else .ok heap
        | some p => copySockets p r count 0 1 heap
      .ok (heap, some r)

def Listener.serverGetListenSocketArray (self : Listener) (grant : Option (Grant Socket)) :
    Except Stop (Heap Socket × Option Nat) :=
  pollFdToSocketArray self.poll.heap self.listenPoll self.listenPollCount grant

def Listener.serverGetReadSocketArray (self : Listener) (grant : Option (Grant Socket)) :
    Except Stop (Heap Socket × Option Nat) :=
  pollFdToSocketArray self.poll.heap (self.poll.pointer .servePoll) (self.poll.count .servePoll)
    grant

def Listener.serverGetWriteSocketArray (self : Listener) (grant : Option (Grant Socket)) :
    Except Stop (Heap Socket × Option Nat) :=
  pollFdToSocketArray self.poll.heap (self.poll.pointer .deferredPoll)
    (self.poll.count .deferredPoll) grant

end PollBackEnd

section PollArrays

variable {heap : Heap Socket} {p r q : Nat} {front seen more rest listed block : List Socket}

theorem copySockets_eq (hne : r ≠ p) (hsource : heap p = some (seen ++ (more ++ rest)))
    (hdest : heap r = some (front ++ block)) (hroom : more.length ≤ block.length) :
    copySockets p r more.length seen.length front.length heap =
      .ok (Function.update heap r (some (front ++ more ++ block.drop more.length))) := by
  induction more generalizing seen front block heap with
  | nil =>
      rw [List.length_nil, copySockets, List.append_nil, List.drop_zero, ← hdest,
        Function.update_eq_self]
  | cons fd more ih =>
      cases block with
      | nil => simp at hroom
      | cons old block =>
          have hnext := @ih (Function.update heap r (some (front ++ fd :: block))) (front ++ [fd])
            (seen ++ [fd]) block
            (by rw [Function.update_of_ne hne.symm, hsource]; simp)
            (by rw [Function.update_self]; simp)
            (Nat.le_of_succ_le_succ hroom)
          rw [List.length_append, List.length_append, List.length_singleton] at hnext
          rw [List.length_cons, copySockets, load_behind hsource, ok_bind, store_behind hdest,
            ok_bind, hnext, Function.update_idem]
          simp

/-- The sockets of an array, in a block that may be longer. -/
def Stored (heap : Heap Socket) (poll : Option Nat) (listed : List Socket) : Prop :=
  match poll with
  | none => listed = []
  | some p => ∃ rest, heap p = some (listed ++ rest)

theorem lists_of_stored {poll : Option Nat} {count : Nat} (h : Stored heap poll listed)
    (hcount : count = listed.length) {grant : Grant Socket} (hfree : heap grant.address = none) :
    Lists (pollFdToSocketArray heap poll count (some grant)) listed := by
  subst hcount
  obtain ⟨stray, hstray, hstore⟩ := store_new heap grant.address listed.length grant.stray
    (listed.length : Socket)
  have hmalloc : realloc heap none (listed.length + 1) (some grant) =
      .ok (Function.update heap grant.address
        (some (resized [] (listed.length + 1) grant.stray)), some grant.address) := rfl
  refine ⟨Function.update heap grant.address (some ((listed.length : Socket) :: listed)),
    grant.address, listed, ?_, Function.update_self .., rfl⟩
  rw [pollFdToSocketArray, hmalloc, ok_bind]
  simp only [hstore, ok_bind]
  cases poll with
  | none =>
      obtain rfl : listed = [] := h
      obtain rfl := List.eq_nil_of_length_eq_zero hstray
      rfl
  | some p =>
      obtain ⟨rest, hblock⟩ := h
      have hne : grant.address ≠ p := by
        rintro rfl
        rw [hfree] at hblock
        contradiction
      have hcopy := @copySockets_eq (Function.update heap grant.address
        (some ((listed.length : Socket) :: stray))) p grant.address
        [(listed.length : Socket)] [] listed rest stray hne
        (by rw [Function.update_of_ne hne.symm, hblock]; rfl) (Function.update_self ..) hstray.ge
      rw [List.length_nil, List.length_singleton, Function.update_idem, ← hstray, List.drop_length,
        List.append_nil, hstray, List.singleton_append] at hcopy
      simp only [hcopy, ok_bind]

end PollArrays

section PollRuns

variable {self self' : Poll} {poll : PollArray} {q : Nat} {socket : Socket}
variable {grant : Option (Grant Socket)} {sockets : PollArray → List Socket}

/-- A block that is none of the two arrays'. -/
structure Apart (now : Poll) (q : Nat) : Prop where
  live : now.heap q ≠ none
  other : ∀ poll, now.pointer poll ≠ some q

theorem Apart.update {heap : Heap Socket} {p : Option Nat} {count : PollArray → Nat}
    (h : Apart self q) (hheap : heap q = self.heap q) (hp : p ≠ some q) :
    Apart ⟨heap, Function.update self.pointer poll p, count⟩ q := by
  refine ⟨fun hnone => h.live (hheap.symm.trans hnone), fun other => ?_⟩
  change Function.update self.pointer poll p other ≠ _
  by_cases hsame : other = poll
  · rw [hsame, Function.update_self]
    exact hp
  · rw [Function.update_of_ne hsame]
    exact h.other other

theorem pollArrayAdd_apart {failed : Bool} (h : Apart self q)
    (hgrant : Granted self.heap
      (if (self.pointer poll).isSome then self.pointer .servePoll else none) grant)
    (hadd : pollArrayAdd self poll socket grant = .ok (self', failed)) :
    self'.heap q = self.heap q ∧ Apart self' q := by
  obtain ⟨⟨heap, new⟩, hblock, hadd⟩ := bind_eq_ok_iff.mp hadd
  have hnew : heap q = self.heap q ∧ new ≠ some q := by
    rw [blockForOneMore] at hblock
    split at hblock
    · rename_i hsome
      rw [if_pos hsome] at hgrant
      exact realloc_other hgrant h.live (h.other .servePoll) hblock
    · rename_i hnone
      rw [if_neg hnone] at hgrant
      exact realloc_other hgrant h.live (Option.some_ne_none q).symm hblock
  cases new with
  | none =>
      obtain ⟨rfl, -⟩ := Prod.mk.inj (Except.ok.inj hadd)
      exact ⟨hnew.1, fun hnone => h.live (hnew.1.symm.trans hnone), h.other⟩
  | some p =>
      obtain ⟨stored, hstore, hadd⟩ := bind_eq_ok_iff.mp hadd
      obtain ⟨rfl, -⟩ := Prod.mk.inj (Except.ok.inj hadd)
      have hne : q ≠ p := fun heq => hnew.2 (congrArg some heq.symm)
      have hheap : stored q = self.heap q := (store_other hne hstore).trans hnew.1
      exact ⟨hheap, h.update hheap hnew.2⟩

theorem delTurn_ok {i : Nat} {turn : Turn (Poll × Nat) Poll}
    (h : delTurn poll socket grant (self, i) = .ok turn) :
    turn = .leave self ∨ ∃ next, turn = .again (next, i + 1) ∧ i = 0 ∧ (next = self ∨
      (∃ p heap count, self.pointer poll = some p ∧ free self.heap p = .ok heap ∧
        next = ⟨heap, Function.update self.pointer poll none, count⟩) ∨
      ∃ heap new n count, realloc self.heap (self.pointer .servePoll) n grant = .ok (heap, new) ∧
        next = ⟨heap, if new.isSome then Function.update self.pointer .servePoll new
          else self.pointer, count⟩) := by
  rw [delTurn] at h
  split at h
  · obtain ⟨p, hp, h⟩ := bind_eq_ok_iff.mp h
    obtain ⟨rfl, hpointer⟩ : i = 0 ∧ self.pointer poll = some p := by
      cases i with
      | zero =>
          cases hsome : self.pointer poll with
          | none => simp [pointerAt, hsome] at hp
          | some p' => simpa [pointerAt, hsome] using hp
      | succ i => simp [pointerAt] at hp
    obtain ⟨fd, -, h⟩ := bind_eq_ok_iff.mp h
    split at h
    · exact .inr ⟨self, (Except.ok.inj h).symm, rfl, .inl rfl⟩
    · split at h
      · contradiction
      · dsimp only at h
        split at h
        · obtain ⟨heap, hfree, h⟩ := bind_eq_ok_iff.mp h
          exact .inr ⟨_, (Except.ok.inj h).symm, rfl, .inr (.inl ⟨p, heap, _, hpointer, hfree, rfl⟩)⟩
        · obtain ⟨⟨heap, new⟩, hrealloc, h⟩ := bind_eq_ok_iff.mp h
          exact .inr ⟨_, (Except.ok.inj h).symm, rfl,
            .inr (.inr ⟨heap, new, _, _, hrealloc, rfl⟩)⟩
  · exact .inl (Except.ok.inj h).symm

theorem pollArrayDel_apart (h : Apart self q)
    (hgrant : Granted self.heap (self.pointer .servePoll) grant)
    (hdel : pollArrayDel self poll socket grant = .ok self') :
    self'.heap q = self.heap q ∧ Apart self' q := by
  rw [pollArrayDel] at hdel
  split at hdel
  · obtain rfl := Except.ok.inj hdel
    exact ⟨rfl, h⟩
  · refine run_partial (fun s => (s.1.heap q = self.heap q ∧ Apart s.1 q) ∧ (s.2 = 0 → s.1 = self))
      (fun out => out.heap q = self.heap q ∧ Apart out q) ?_ ?_ ⟨⟨rfl, h⟩, fun _ => rfl⟩ hdel
    · rintro ⟨now, i⟩ ⟨next, i'⟩ ⟨hkept, hfirst⟩ hturn
      rcases delTurn_ok hturn with hleave | ⟨next', hagain, rfl, hcases⟩
      · simp at hleave
      · obtain ⟨rfl, rfl⟩ := Prod.mk.inj (Turn.again.inj hagain)
        obtain rfl : now = self := hfirst rfl
        refine ⟨?_, fun hzero => absurd hzero (by omega)⟩
        rcases hcases with rfl | ⟨p, heap, count, hpointer, hfree, rfl⟩ |
          ⟨heap, new, n, count, hrealloc, rfl⟩
        · exact ⟨rfl, h⟩
        · have hne : q ≠ p := by
            rintro rfl
            exact h.other poll hpointer
          have hheap := free_other hne hfree
          exact ⟨hheap, h.update hheap (Option.some_ne_none q).symm⟩
        · obtain ⟨hheap, hnew⟩ := realloc_other hgrant h.live (h.other .servePoll) hrealloc
          refine ⟨hheap, ?_⟩
          split
          · exact h.update hheap hnew
          · exact ⟨fun hnone => h.live (hheap.symm.trans hnone), h.other⟩
    · rintro ⟨now, i⟩ out ⟨hkept, -⟩ hturn
      rcases delTurn_ok hturn with hleave | ⟨next', hagain, -, -⟩
      · obtain rfl := Turn.leave.inj hleave
        exact hkept
      · simp at hagain

/-- The back end, and what its arrays should hold. -/
structure Polled where
  server : Listener
  sockets : PollArray → List Socket

def pollMoves (now : Polled) (c : Command) : Except Stop Polled := do
  let (poll, _) ← pollStep now.server.poll c
  .ok ⟨{ now.server with poll := poll }, track now.sockets c⟩

/-- There is memory that is not in use, `accept` does not fail, only the last connection is
closed, and a socket is deferred only while none is. -/
def Spared (now : Polled) : Command → Prop
  | .accept socket grant =>
      0 ≤ socket ∧ Granted now.server.poll.heap (now.server.poll.pointer .servePoll) grant
  | .close socket grant => now.sockets .servePoll = [socket] ∧
      Granted now.server.poll.heap (now.server.poll.pointer .servePoll) grant
  | .deferredAdd _ grant =>
      now.sockets .deferredPoll = [] ∧ Granted now.server.poll.heap none grant
  | .deferredRemove _ grant | .writable _ grant =>
      Granted now.server.poll.heap (now.server.poll.pointer .servePoll) grant
  | .deferredExists _ => True

instance (now : Polled) : (c : Command) → Decidable (Spared now c)
  | .accept _ _ => inferInstanceAs (Decidable (_ ∧ _))
  | .close _ _ => inferInstanceAs (Decidable (_ ∧ _))
  | .deferredAdd _ _ => inferInstanceAs (Decidable (_ ∧ _))
  | .deferredRemove _ _ => inferInstanceAs (Decidable (Granted _ _ _))
  | .deferredExists _ => inferInstanceAs (Decidable True)
  | .writable _ _ => inferInstanceAs (Decidable (Granted _ _ _))

theorem Spared.manages {now : Polled} {c : Command} (h : Spared now c) :
    Manages now.server.poll now.sockets c := by
  cases c with
  | accept socket grant => exact h.2
  | close socket grant => exact h.1
  | deferredAdd socket grant => exact h
  | deferredRemove socket grant => trivial
  | deferredExists socket => trivial
  | writable socket grant => trivial

/-- The arrays hold what they should, and `listenPoll` stands apart from them. -/
structure Standing (listening : List Socket) (now : Polled) : Prop where
  keeps : Keeps now.server.poll now.sockets
  few : (now.sockets .deferredPoll).length ≤ 1
  stored : Stored now.server.poll.heap now.server.listenPoll listening
  count : now.server.listenPollCount = listening.length
  apart : ∀ q, now.server.listenPoll = some q → Apart now.server.poll q

/-- What a command does to the arrays of `poll.c`. -/
def PollMoves (now next : Poll) : Command → Prop
  | .accept socket grant => ∃ failed, pollArrayAdd now .servePoll socket grant = .ok (next, failed)
  | .close socket grant => pollArrayDel now .servePoll socket grant = .ok next
  | .deferredAdd socket grant =>
      ∃ failed, pollArrayAdd now .deferredPoll socket grant = .ok (next, failed)
  | .deferredRemove socket grant | .writable socket grant =>
      pollArrayDel now .deferredPoll socket grant = .ok next
  | .deferredExists _ => next = now

theorem pollStep_ok {c : Command} {answer : Option Bool}
    (h : pollStep self c = .ok (self', answer)) : PollMoves self self' c := by
  cases c with
  | accept socket grant =>
      obtain ⟨next, hnext, h⟩ := bind_eq_ok_iff.mp h
      obtain ⟨rfl, -⟩ := Prod.mk.inj (Except.ok.inj h)
      rw [processListeningPoll, if_pos rfl] at hnext
      obtain ⟨⟨next', failed⟩, hadd, hnext⟩ := bind_eq_ok_iff.mp hnext
      obtain rfl := Except.ok.inj hnext
      exact ⟨failed, hadd⟩
  | deferredAdd socket grant =>
      obtain ⟨⟨next, failed⟩, hadd, h⟩ := bind_eq_ok_iff.mp h
      obtain ⟨rfl, -⟩ := Prod.mk.inj (Except.ok.inj h)
      exact ⟨failed, hadd⟩
  | close socket grant | deferredRemove socket grant | writable socket grant =>
      obtain ⟨next, hdel, h⟩ := bind_eq_ok_iff.mp h
      obtain ⟨rfl, -⟩ := Prod.mk.inj (Except.ok.inj h)
      exact hdel
  | deferredExists socket =>
      obtain ⟨found, -, h⟩ := bind_eq_ok_iff.mp h
      obtain ⟨rfl, -⟩ := Prod.mk.inj (Except.ok.inj h)
      rfl

theorem apart_step {now : Polled} {c : Command} {answer : Option Bool}
    (hkeeps : Keeps now.server.poll now.sockets) (h : Apart now.server.poll q)
    (hspared : Spared now c) (hstep : pollStep now.server.poll c = .ok (self', answer)) :
    self'.heap q = now.server.poll.heap q ∧ Apart self' q := by
  have hmoves := pollStep_ok hstep
  cases c with
  | accept socket grant =>
      obtain ⟨failed, hadd⟩ := hmoves
      refine pollArrayAdd_apart h ?_ hadd
      split
      · exact hspared.2
      · rename_i hnone
        rw [Option.not_isSome_iff_eq_none] at hnone
        exact hnone ▸ hspared.2
  | deferredAdd socket grant =>
      obtain ⟨failed, hadd⟩ := hmoves
      have hnone : now.server.poll.pointer .deferredPoll = none :=
        (hkeeps.holds .deferredPoll).eq_nil_iff.mpr hspared.1
      refine pollArrayAdd_apart h ?_ hadd
      rw [hnone]
      exact hspared.2
  | close socket grant => exact pollArrayDel_apart h hspared.2 hmoves
  | deferredRemove socket grant | writable socket grant =>
      exact pollArrayDel_apart h hspared hmoves
  | deferredExists socket =>
      obtain rfl := hmoves
      exact ⟨rfl, h⟩

theorem standing_step {listening : List Socket} {now : Polled} {c : Command}
    (h : Standing listening now) (hspared : Spared now c) :
    ∃ next, pollMoves now c = .ok next ∧ Standing listening next := by
  obtain ⟨poll, hmoves, hkeeps⟩ := h.keeps.step h.few hspared.manages
  refine ⟨⟨{ now.server with poll := poll }, track now.sockets c⟩, ?_, ?_⟩
  · rw [pollMoves, hmoves, ok_bind]
  · have hothers := fun q hq => apart_step h.keeps (h.apart q hq) hspared hmoves
    refine ⟨hkeeps, few_track h.few hspared.manages, ?_, h.count, fun q hq => (hothers q hq).2⟩
    have hstored := h.stored
    change Stored poll.heap now.server.listenPoll listening
    cases hlisten : now.server.listenPoll with
    | none =>
        rw [hlisten] at hstored
        exact hstored
    | some q =>
        rw [hlisten] at hstored
        obtain ⟨rest, hblock⟩ := hstored
        exact ⟨rest, (hothers q hlisten).1.trans hblock⟩

/-- `poll.c` before `serverSetup`. -/
def unstarted (heap : Heap Socket) : Listener := ⟨⟨heap, fun _ => none, fun _ => 0⟩, none, 0⟩

theorem standing_setup {heap : Heap Socket} {array : Nat} {listening spare : List Socket}
    {start : Listener}
    (harray : heap array = some ((listening.length : Socket) :: (listening ++ spare)))
    (hgrant : ∀ given, grant = some given → heap given.address = none)
    (hsetup : (unstarted heap).serverSetup array grant = .ok start) :
    Standing listening ⟨start, fun _ => []⟩ := by
  have hkeeps (heap : Heap Socket) :
      Keeps ⟨heap, fun _ => none, fun _ => 0⟩ fun _ => ([] : List Socket) :=
    ⟨fun _ => rfl, fun _ => rfl, fun _ _ _ h => by simp at h⟩
  have hsize : load heap array 0 = .ok (listening.length : Socket) := @load_behind _ _ _ [] _ _ harray
  have hroom : ((listening.length : Int) + 1).toNat = listening.length + 1 := by omega
  rw [Listener.serverSetup, unstarted, hsize, ok_bind, hroom] at hsetup
  cases grant with
  | none =>
      rw [calloc, Option.map_none, realloc, ok_bind] at hsetup
      dsimp only at hsetup
      split at hsetup
      · contradiction
      · rename_i hnone
        obtain rfl := Except.ok.inj hsetup
        have hempty : listening = [] :=
          List.eq_nil_of_length_eq_zero (Nat.eq_zero_of_not_pos fun hpos =>
            hnone (Int.natCast_pos.mpr hpos))
        exact ⟨hkeeps heap, Nat.zero_le _, hempty, Int.toNat_natCast _, fun q hq => by simp at hq⟩
  | some given =>
      have hne : given.address ≠ array := by
        rintro rfl
        rw [hgrant given rfl] at harray
        contradiction
      have hblock : calloc heap (listening.length + 1) (some given) =
          .ok (Function.update heap given.address
            (some (resized [] (listening.length + 1) fun _ => 0)), some given.address) := rfl
      have hcopy := @copySockets_eq (Function.update heap given.address
        (some (resized [] (listening.length + 1) fun _ => 0))) array given.address []
        [(listening.length : Socket)] listening spare _ hne
        (by rw [Function.update_of_ne hne.symm, harray]; rfl) (Function.update_self ..)
        (by simp)
      rw [List.length_singleton, List.length_nil, Function.update_idem] at hcopy
      simp only [hblock, ok_bind, Int.toNat_natCast, hcopy] at hsetup
      obtain rfl := Except.ok.inj hsetup
      refine ⟨hkeeps _, Nat.zero_le _, ⟨_, Function.update_self ..⟩, rfl, ?_⟩
      rintro q hq
      obtain rfl := Option.some.inj hq
      exact ⟨by simp, fun poll => (Option.some_ne_none _).symm⟩

theorem stored_of_holds {heap : Heap Socket} {p : Option Nat} {listed : List Socket}
    (h : Holds heap p listed) : Stored heap p listed := by
  cases p with
  | none => exact h
  | some p => exact ⟨[], h.1.trans (congrArg some (List.append_nil listed).symm)⟩

/-- All three arrays are right as long as one socket is deferred at a time and one connection
open when it is closed, and the next step of that kind can be made. -/
theorem poll_arrays {heap : Heap Socket} {array : Nat} {listening spare : List Socket}
    {start : Listener} {now : Polled} {given : Grant Socket}
    (harray : heap array = some ((listening.length : Socket) :: (listening ++ spare)))
    (hgrant : ∀ given, grant = some given → heap given.address = none)
    (hsetup : (unstarted heap).serverSetup array grant = .ok start)
    (hrun : Run pollMoves Spared ⟨start, fun _ => []⟩ now)
    (hfree : now.server.poll.heap given.address = none) :
    (Lists (now.server.serverGetListenSocketArray (some given)) listening ∧
      Lists (now.server.serverGetReadSocketArray (some given)) (now.sockets .servePoll) ∧
      Lists (now.server.serverGetWriteSocketArray (some given)) (now.sockets .deferredPoll)) ∧
    ∀ c, Spared now c → ∃ next, pollMoves now c = .ok next := by
  have h : Standing listening now := by
    apply run_invariant (Standing listening) _ hrun (standing_setup harray hgrant hsetup)
    intro now c next h hspared hstep
    obtain ⟨next', hstep', hnext⟩ := standing_step h hspared
    rw [hstep] at hstep'
    rwa [Except.ok.inj hstep']
  refine ⟨⟨lists_of_stored h.stored h.count hfree,
    lists_of_stored (stored_of_holds (h.keeps.holds .servePoll)) (h.keeps.counts .servePoll) hfree,
    lists_of_stored (stored_of_holds (h.keeps.holds .deferredPoll)) (h.keeps.counts .deferredPoll)
      hfree⟩, fun c hspared => ?_⟩
  obtain ⟨next, hstep, -⟩ := standing_step h hspared
  exact ⟨next, hstep⟩

end PollRuns

end Newth.Server.PollArrays
