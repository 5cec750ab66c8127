import Mathlib.Data.Finset.Basic
import Newth.Library.Blocks
import Newth.Library.Runs

namespace Newth.Server.BackEnds

open Newth.Library.Blocks
open Newth.Library.Call
open Newth.Library.Runs

/-- `SOCKET` -/
abbrev Socket := Int

section PollBackEnd

/-- The arrays whose pointers the functions of `poll.c` are handed the addresses of. -/
inductive PollArray where
  | servePoll
  | deferredPoll
  deriving DecidableEq, Repr

/-- The static variables of `poll.c`, and the memory its arrays of sockets stand in. -/
structure Poll where
  heap : Heap Socket
  pointer : PollArray → Option Nat
  count : PollArray → Nat

/-- The memory `PollArrayAdd` gets for one more socket. -/
def blockForOneMore (self : Poll) (poll : PollArray) (grant : Option (Grant Socket)) :
    Except Stop (Heap Socket × Option Nat) :=
  if (self.pointer poll).isSome then
    -- `servePoll`, whichever array is meant
    realloc self.heap (self.pointer .servePoll) (self.count poll + 1) grant
  else realloc self.heap none 1 grant

/-- It tells whether memory has run out. -/
def pollArrayAdd (self : Poll) (poll : PollArray) (socket : Socket)
    (grant : Option (Grant Socket)) : Except Stop (Poll × Bool) := do
  let (heap, new) ← blockForOneMore self poll grant
  match new with
  | none => .ok ({ self with heap := heap }, true)
  | some p => do
      let heap ← store heap p (self.count poll) socket
      .ok (⟨heap, Function.update self.pointer poll (some p),
        Function.update self.count poll (self.count poll + 1)⟩, false)

/-- `poll[i]`: behind the pointer `poll` points to there is no other. -/
def pointerAt (self : Poll) (poll : PollArray) (i : Nat) : Except Stop Nat :=
  match i, self.pointer poll with
  | 0, some p => .ok p
  | _, _ => .error .outOfBounds

/-- One turn of the loop of `PollArrayDel`. -/
def delTurn (poll : PollArray) (socket : Socket) (grant : Option (Grant Socket)) :
    Poll × Nat → Except Stop (Turn (Poll × Nat) Poll)
  | (self, i) =>
      if i < self.count poll then do
        let p ← pointerAt self poll i
        let fd ← load self.heap p 0
        if fd ≠ socket then .ok (.again (self, i + 1))
        -- `memmove` from `&poll[i + 1]`
        else if i + 1 < self.count poll then .error .outOfBounds
        else
          let count := Function.update self.count poll (self.count poll - 1)
          if count poll = 0 then do
            let heap ← free self.heap p
            .ok (.again (⟨heap, Function.update self.pointer poll none, count⟩, i + 1))
          else do
            let (heap, new) ← realloc self.heap (self.pointer .servePoll) (count poll) grant
            let pointer := if new.isSome then Function.update self.pointer .servePoll new
              else self.pointer
            .ok (.again (⟨heap, pointer, count⟩, i + 1))
      else .ok (.leave self)

def pollArrayDel (self : Poll) (poll : PollArray) (socket : Socket)
    (grant : Option (Grant Socket)) : Except Stop Poll :=
  if (self.pointer poll).isNone then .ok self
  else run (delTurn poll socket grant) (self.count poll + 1) (self, 0)

/-- One turn of the loop of `PollArrayContains`. -/
def containsTurn (self : Poll) (poll : PollArray) (socket : Socket) (i : Nat) :
    Except Stop (Turn Nat Bool) :=
  if i < self.count poll then do
    let p ← pointerAt self poll i
    let fd ← load self.heap p 0
    .ok (if fd = socket then .leave true else .again (i + 1))
  else .ok (.leave false)

def pollArrayContains (self : Poll) (poll : PollArray) (socket : Socket) : Except Stop Bool :=
  if (self.pointer poll).isNone then .ok false
  else run (containsTurn self poll socket) (self.count poll + 1) 0

def Poll.serverDeferredSocketAdd (self : Poll) (socket : Socket) (grant : Option (Grant Socket)) :
    Except Stop (Poll × Bool) :=
  pollArrayAdd self .deferredPoll socket grant

def Poll.serverDeferredSocketRemove (self : Poll) (socket : Socket)
    (grant : Option (Grant Socket)) : Except Stop Poll :=
  pollArrayDel self .deferredPoll socket grant

def Poll.serverDeferredSocketExists (self : Poll) (socket : Socket) : Except Stop Bool :=
  pollArrayContains self .deferredPoll socket

/-- `ready` is what `poll` has put into `revents`. -/
def processListeningPoll (self : Poll) (ready : Bool) (clientSocket : Socket)
    (grant : Option (Grant Socket)) : Except Stop Poll := do
  if ready then do
    let (self, _) ← pollArrayAdd self .servePoll clientSocket grant
    .ok self
  else .ok self

/-- `finished` is what `handleConnection` returns. -/
def processServePoll (self : Poll) (ready finished : Bool) (fd : Socket)
    (grant : Option (Grant Socket)) : Except Stop Poll :=
  if ready && finished then pollArrayDel self .servePoll fd grant else .ok self

def processDeferredPoll (self : Poll) (ready : Bool) (fd : Socket)
    (grant : Option (Grant Socket)) : Except Stop Poll :=
  if ready then pollArrayDel self .deferredPoll fd grant else .ok self

/-- The sockets in an array of `poll.c`, none when it has no memory of that size. -/
def Poll.sockets (self : Poll) (poll : PollArray) : Option (List Socket) :=
  match self.pointer poll with
  | none => if self.count poll = 0 then some [] else none
  | some p =>
      match self.heap p with
      | none => none
      | some block => if self.count poll ≤ block.length then some (block.take (self.count poll))
          else none

end PollBackEnd

section SelectBackEnd

/-- `FD_SETSIZE` -/
def fdSetSize : Nat := 1024

/-- An `fd_set` has a bit for each of the first sockets only. -/
def InRange (socket : Socket) : Prop := 0 ≤ socket ∧ socket < fdSetSize

instance (socket : Socket) : Decidable (InRange socket) :=
  inferInstanceAs (Decidable (0 ≤ socket ∧ socket < fdSetSize))

def fdSet (socket : Socket) (set : Finset Socket) : Except Stop (Finset Socket) :=
  if InRange socket then .ok (insert socket set) else .error .outOfBounds

def fdClr (socket : Socket) (set : Finset Socket) : Except Stop (Finset Socket) :=
  if InRange socket then .ok (set.erase socket) else .error .outOfBounds

def fdIsset (socket : Socket) (set : Finset Socket) : Except Stop Bool :=
  if InRange socket then .ok (decide (socket ∈ set)) else .error .outOfBounds

theorem fdSet_eq {socket : Socket} (h : InRange socket) (set : Finset Socket) :
    fdSet socket set = .ok (insert socket set) := if_pos h

theorem fdClr_eq {socket : Socket} (h : InRange socket) (set : Finset Socket) :
    fdClr socket set = .ok (set.erase socket) := if_pos h

theorem fdIsset_eq {socket : Socket} (h : InRange socket) (set : Finset Socket) :
    fdIsset socket set = .ok (decide (socket ∈ set)) := if_pos h

/-- The static variables of `select.c`. -/
structure Select where
  serverListenSockets : Finset Socket
  serverReadSockets : Finset Socket
  serverWriteSockets : Finset Socket
  serverMaxSocket : Socket
  deriving DecidableEq

def Select.serverDeferredSocketAdd (self : Select) (socket : Socket) :
    Except Stop (Select × Bool) := do
  let sockets ← fdSet socket self.serverWriteSockets
  .ok ({ self with serverWriteSockets := sockets }, false)

def Select.serverDeferredSocketRemove (self : Select) (socket : Socket) : Except Stop Select := do
  let sockets ← fdClr socket self.serverWriteSockets
  .ok { self with serverWriteSockets := sockets }

def Select.serverDeferredSocketExists (self : Select) (socket : Socket) : Except Stop Bool :=
  fdIsset socket self.serverWriteSockets

/-- The branch of `serverTick` for a socket that listens. -/
def Select.accepts (self : Select) (clientSocket : Socket) : Except Stop Select := do
  let sockets ← fdSet clientSocket self.serverReadSockets
  .ok { self with
    serverMaxSocket := max self.serverMaxSocket clientSocket
    serverReadSockets := sockets }

/-- The branch of `serverTick` for a connection, with what `handleConnection` returns. -/
def Select.serves (self : Select) (finished : Bool) (i : Socket) : Except Stop Select := do
  if finished then do
    let reading ← fdClr i self.serverReadSockets
    let writing ← fdClr i self.serverWriteSockets
    .ok { self with serverReadSockets := reading, serverWriteSockets := writing }
  else .ok self

/-- The branch of `serverTick` for a socket that can be written to. -/
def Select.drains (self : Select) (i : Socket) : Except Stop Select := do
  let sockets ← fdClr i self.serverWriteSockets
  .ok { self with serverWriteSockets := sockets }

end SelectBackEnd

section Arrays

/-- An array of `poll.c` with each of its sockets in a block that is not the other's. -/
structure Keeps (now : Poll) (sockets : PollArray → List Socket) : Prop where
  holds : ∀ poll, Holds now.heap (now.pointer poll) (sockets poll)
  counts : ∀ poll, now.count poll = (sockets poll).length
  apart : ∀ poll poll' p, now.pointer poll = some p → now.pointer poll' = some p → poll = poll'

theorem Keeps.sockets_eq {self : Poll} {sockets : PollArray → List Socket} (h : Keeps self sockets)
    (poll : PollArray) : self.sockets poll = some (sockets poll) := by
  have hholds := h.holds poll
  have hcount := h.counts poll
  rw [Poll.sockets]
  cases hp : self.pointer poll with
  | none =>
      rw [hp] at hholds
      have hnil : sockets poll = [] := hholds
      rw [hnil] at hcount ⊢
      simp [hcount]
  | some p =>
      rw [hp] at hholds
      simp [hholds.1, hcount]

theorem Keeps.other {self : Poll} {sockets : PollArray → List Socket} (h : Keeps self sockets)
    {poll poll' : PollArray} (hne : poll' ≠ poll) {p : Nat} (hp : self.pointer poll' = some p) :
    self.heap p ≠ none ∧ self.pointer poll ≠ some p := by
  have hholds := h.holds poll'
  rw [hp] at hholds
  constructor
  · rw [hholds.1]
    simp
  · intro hsame
    exact hne (h.apart _ _ _ hp hsame)

theorem Keeps.update {self : Poll} {sockets : PollArray → List Socket} (h : Keeps self sockets)
    {poll : PollArray} {heap : Heap Socket} {p : Option Nat} {xs : List Socket}
    (hholds : Holds heap p xs)
    (hothers : ∀ q, self.heap q ≠ none → self.pointer poll ≠ some q →
      p ≠ some q ∧ heap q = self.heap q) :
    Keeps ⟨heap, Function.update self.pointer poll p, Function.update self.count poll xs.length⟩
      (Function.update sockets poll xs) := by
  constructor
  · intro poll'
    show Holds heap (Function.update self.pointer poll p poll') _
    by_cases hsame : poll' = poll
    · rw [hsame, Function.update_self, Function.update_self]
      exact hholds
    · rw [Function.update_of_ne hsame, Function.update_of_ne hsame]
      apply (h.holds poll').congr
      intro q hq
      obtain ⟨hlive, hapart⟩ := h.other hsame hq
      exact (hothers q hlive hapart).2
  · intro poll'
    show Function.update self.count poll xs.length poll' = _
    by_cases hsame : poll' = poll
    · rw [hsame, Function.update_self, Function.update_self]
    · rw [Function.update_of_ne hsame, Function.update_of_ne hsame]
      exact h.counts poll'
  · intro a b q ha hb
    simp only at ha hb
    by_cases hsame : a = poll
    · by_cases hsame' : b = poll
      · rw [hsame, hsame']
      · rw [hsame, Function.update_self] at ha
        rw [Function.update_of_ne hsame'] at hb
        obtain ⟨hlive, hapart⟩ := h.other hsame' hb
        exact absurd ha (hothers q hlive hapart).1
    · rw [Function.update_of_ne hsame] at ha
      by_cases hsame' : b = poll
      · rw [hsame', Function.update_self] at hb
        obtain ⟨hlive, hapart⟩ := h.other hsame ha
        exact absurd hb (hothers q hlive hapart).1
      · rw [Function.update_of_ne hsame'] at hb
        exact h.apart _ _ _ ha hb

theorem Keeps.add {self : Poll} {sockets : PollArray → List Socket} (h : Keeps self sockets)
    {poll : PollArray} (hpoll : poll = .servePoll ∨ sockets poll = []) (socket : Socket)
    {grant : Option (Grant Socket)} (hgrant : Granted self.heap (self.pointer poll) grant) :
    ∃ self', pollArrayAdd self poll socket grant = .ok (self', false) ∧
      Keeps self' (Function.update sockets poll (sockets poll ++ [socket])) := by
  have hholds := h.holds poll
  obtain ⟨grown, heap, q, hrealloc, hstore, hpushed, hothers⟩ := hholds.push hgrant socket
  refine ⟨⟨heap, Function.update self.pointer poll (some q),
    Function.update self.count poll (self.count poll + 1)⟩, ?_, ?_⟩
  · have hblock : blockForOneMore self poll grant = .ok (grown, some q) := by
      rw [← hrealloc, blockForOneMore]
      cases hp : self.pointer poll with
      | none =>
          have hnil := hholds.eq_nil_iff.mp hp
          rw [if_neg (by simp), hnil]
          rfl
      | some p =>
          have hserve : poll = .servePoll := by
            apply hpoll.resolve_right
            rw [← hholds.eq_nil_iff, hp]
            simp
          rw [if_pos (by rfl), ← h.counts, ← hp, hserve]
    rw [pollArrayAdd, hblock, ok_bind]
    simp only [h.counts, hstore, ok_bind]
  · have hlen : self.count poll + 1 = (sockets poll ++ [socket]).length := by
      rw [h.counts, List.length_append, List.length_singleton]
    rw [hlen]
    apply h.update hpushed
    intro r hr hp
    obtain ⟨hne, hsame⟩ := hothers r hr hp
    exact ⟨fun heq => hne (Option.some.inj heq), hsame⟩

theorem Keeps.single {self : Poll} {sockets : PollArray → List Socket} (h : Keeps self sockets)
    {poll : PollArray} (hfew : (sockets poll).length ≤ 1) {p : Nat}
    (hp : self.pointer poll = some p) :
    ∃ x, sockets poll = [x] ∧ self.count poll = 1 ∧ pointerAt self poll 0 = .ok p ∧
      load self.heap p 0 = .ok x := by
  have hholds := h.holds poll
  rw [hp] at hholds
  obtain ⟨x, hx⟩ : ∃ x, sockets poll = [x] := by
    apply List.length_eq_one_iff.mp
    have hpos := List.length_pos_iff.mpr hholds.2
    omega
  have hload : load self.heap p 0 = .ok x := by
    rw [hholds.load (by rw [hx]; exact Nat.one_pos)]
    simp [hx]
  refine ⟨x, hx, ?_, by simp only [pointerAt, hp], hload⟩
  rw [h.counts, hx, List.length_singleton]

/-- With a second socket in the array `PollArrayDel` moves sockets from behind the first pointer,
or reads the pointer behind it. -/
theorem Keeps.del_behind {self : Poll} {sockets : PollArray → List Socket} (h : Keeps self sockets)
    {poll : PollArray} (hmany : 2 ≤ (sockets poll).length) (socket : Socket)
    (grant : Option (Grant Socket)) :
    pollArrayDel self poll socket grant = .error .outOfBounds := by
  have hholds := h.holds poll
  have hcount := h.counts poll
  cases hp : self.pointer poll with
  | none =>
      rw [hholds.eq_nil_iff.mp hp, List.length_nil] at hmany
      omega
  | some p =>
      rw [hp] at hholds
      have hload := hholds.load (show 0 < (sockets poll).length by omega)
      have hat : pointerAt self poll 0 = .ok p := by simp only [pointerAt, hp]
      have hmore : 0 + 1 < self.count poll := by omega
      have hsome : 0 < self.count poll := by omega
      rw [pollArrayDel, hp, if_neg (by simp)]
      by_cases hsame : (sockets poll)[0] = socket
      · apply run_succ_error
        simp only [delTurn, hsome, if_true, hat, ok_bind, hload, hsame, ne_eq, not_true_eq_false,
          if_false, hmore]
      · have hturn : delTurn poll socket grant (self, 0) = .ok (.again (self, 1)) := by
          simp [delTurn, hsome, hat, hload, hsame]
        rw [run_succ_again _ hturn, show self.count poll = (self.count poll - 1) + 1 by omega]
        apply run_succ_error
        simp [delTurn, hmore, pointerAt]

theorem Keeps.del {self : Poll} {sockets : PollArray → List Socket} (h : Keeps self sockets)
    {poll : PollArray} (hfew : (sockets poll).length ≤ 1) (socket : Socket)
    (grant : Option (Grant Socket)) :
    ∃ self', pollArrayDel self poll socket grant = .ok self' ∧
      Keeps self' (Function.update sockets poll ((sockets poll).erase socket)) := by
  cases hp : self.pointer poll with
  | none =>
      have hnil := (h.holds poll).eq_nil_iff.mp hp
      refine ⟨self, ?_, ?_⟩
      · rw [pollArrayDel, hp]
        rfl
      · rw [hnil, List.erase_nil, ← hnil, Function.update_eq_self]
        exact h
  | some p =>
      obtain ⟨x, hx, hcount, hat, hload⟩ := h.single hfew hp
      have hdone (now : Poll) (hless : ¬ 1 < now.count poll) :
          delTurn poll socket grant (now, 1) = .ok (.leave now) := by
        rw [delTurn, if_neg hless]
      rw [pollArrayDel, hp, if_neg (by simp), hcount]
      by_cases hsame : x = socket
      · -- the only socket goes, and the memory with it
        let now : Poll := ⟨Function.update self.heap p none, Function.update self.pointer poll none,
          Function.update self.count poll 0⟩
        have hfree : free self.heap p = .ok (Function.update self.heap p none) := by
          have hholds := h.holds poll
          rw [hp] at hholds
          exact hholds.free
        have hturn : delTurn poll socket grant (self, 0) = .ok (.again (now, 1)) := by
          simp only [delTurn, hcount, Nat.one_pos, if_true, hat, ok_bind, hload, hsame, ne_eq,
            not_true_eq_false, if_false, Nat.zero_add, Nat.lt_irrefl, Nat.sub_self,
            Function.update_self, hfree]
          rfl
        refine ⟨now, ?_, ?_⟩
        · rw [run_succ_again _ hturn]
          exact run_succ_leave _ (hdone now (by simp [now]))
        · have hgone : (sockets poll).erase socket = [] := by
            rw [hx, hsame, List.erase_cons_head]
          have hempty : Holds (Function.update self.heap p none) none ([] : List Socket) := rfl
          rw [hgone]
          apply h.update hempty
          intro q _ hq
          refine ⟨by simp, Function.update_of_ne ?_ _ _⟩
          rintro rfl
          exact hq hp
      · have hturn : delTurn poll socket grant (self, 0) = .ok (.again (self, 1)) := by
          simp [delTurn, hcount, hat, hload, hsame]
        refine ⟨self, ?_, ?_⟩
        · rw [run_succ_again _ hturn]
          exact run_succ_leave _ (hdone self (by simp [hcount]))
        · have hkept : (sockets poll).erase socket = sockets poll := by
            apply List.erase_of_not_mem
            rw [hx, List.mem_singleton]
            exact fun heq => hsame heq.symm
          rw [hkept, Function.update_eq_self]
          exact h

theorem Keeps.contains {self : Poll} {sockets : PollArray → List Socket} (h : Keeps self sockets)
    {poll : PollArray} (hfew : (sockets poll).length ≤ 1) (socket : Socket) :
    pollArrayContains self poll socket = .ok (decide (socket ∈ sockets poll)) := by
  cases hp : self.pointer poll with
  | none =>
      have hnil := (h.holds poll).eq_nil_iff.mp hp
      rw [pollArrayContains, hp, hnil]
      rfl
  | some p =>
      obtain ⟨x, hx, hcount, hat, hload⟩ := h.single hfew hp
      rw [pollArrayContains, hp, if_neg (by simp), hcount, hx]
      by_cases hsame : x = socket
      · have hturn : containsTurn self poll socket 0 = .ok (.leave true) := by
          simp [containsTurn, hcount, hat, hload, hsame]
        rw [run_succ_leave _ hturn, hsame]
        simp
      · have hturn : containsTurn self poll socket 0 = .ok (.again 1) := by
          simp [containsTurn, hcount, hat, hload, hsame]
        have hdone : containsTurn self poll socket 1 = .ok (.leave false) := by
          rw [containsTurn, if_neg (by simp [hcount])]
        rw [run_succ_again _ hturn, run_succ_leave _ hdone]
        have hother : socket ∉ [x] := by
          rw [List.mem_singleton]
          exact fun heq => hsame heq.symm
        rw [decide_eq_false hother]

end Arrays

section Commands

/-- What happens to the sockets of the server. A grant is what `malloc` or `realloc` comes
back with, should it be called. -/
inductive Command where
  | accept (socket : Socket) (grant : Option (Grant Socket))
  | close (socket : Socket) (grant : Option (Grant Socket))
  | deferredAdd (socket : Socket) (grant : Option (Grant Socket))
  | deferredRemove (socket : Socket) (grant : Option (Grant Socket))
  | deferredExists (socket : Socket)
  | writable (socket : Socket) (grant : Option (Grant Socket))

def Command.socket : Command → Socket
  | .accept socket _ | .close socket _ | .deferredAdd socket _ | .deferredRemove socket _
  | .deferredExists socket | .writable socket _ => socket

/-- The array a command is about. -/
def Command.poll : Command → PollArray
  | .accept _ _ | .close _ _ => .servePoll
  | .deferredAdd _ _ | .deferredRemove _ _ | .deferredExists _ | .writable _ _ => .deferredPoll

/-- `poll.c`, with the answer if there is one. -/
def pollStep (self : Poll) : Command → Except Stop (Poll × Option Bool)
  | .accept socket grant => do
      let self ← processListeningPoll self true socket grant
      .ok (self, none)
  | .close socket grant => do
      let self ← processServePoll self true true socket grant
      .ok (self, none)
  | .deferredAdd socket grant => do
      let (self, answer) ← self.serverDeferredSocketAdd socket grant
      .ok (self, some answer)
  | .deferredRemove socket grant => do
      let self ← self.serverDeferredSocketRemove socket grant
      .ok (self, none)
  | .deferredExists socket => do
      let answer ← self.serverDeferredSocketExists socket
      .ok (self, some answer)
  | .writable socket grant => do
      let self ← processDeferredPoll self true socket grant
      .ok (self, none)

/-- `select.c`, with the answer if there is one. -/
def selectStep (self : Select) : Command → Except Stop (Select × Option Bool)
  | .accept socket _ => do
      let self ← self.accepts socket
      .ok (self, none)
  | .close socket _ => do
      let self ← self.serves true socket
      .ok (self, none)
  | .deferredAdd socket _ => do
      let (self, answer) ← self.serverDeferredSocketAdd socket
      .ok (self, some answer)
  | .deferredRemove socket _ => do
      let self ← self.serverDeferredSocketRemove socket
      .ok (self, none)
  | .deferredExists socket => do
      let answer ← self.serverDeferredSocketExists socket
      .ok (self, some answer)
  | .writable socket _ => do
      let self ← self.drains socket
      .ok (self, none)

/-- The connections accepted and not closed since, and the sockets added and not removed
since. -/
def track (sockets : PollArray → List Socket) (c : Command) : PollArray → List Socket :=
  let listed := sockets c.poll
  Function.update sockets c.poll
    (match c with
    | .accept socket _ | .deferredAdd socket _ => listed ++ [socket]
    | .close socket _ | .deferredRemove socket _ | .writable socket _ => listed.erase socket
    | .deferredExists _ => listed)

/-- The two back ends and the history, under the same commands. -/
structure Compared where
  poll : Poll
  select : Select
  sockets : PollArray → List Socket

def step (self : Compared) (c : Command) : Except Stop Compared := do
  let (poll, _) ← pollStep self.poll c
  let (select, _) ← selectStep self.select c
  .ok ⟨poll, select, track self.sockets c⟩

/-- Nothing has been accepted yet, and `serverSetup` has been called. -/
def started (listening : Finset Socket) (maxSocket : Socket) : Compared :=
  ⟨⟨fun _ => none, fun _ => none, fun _ => 0⟩, ⟨listening, listening, ∅, maxSocket⟩, fun _ => []⟩

/-- What the system and the callers see to: a new connection gets a descriptor that is not in use,
only an accepted connection is closed, no socket is added twice, and there is memory. -/
def Legal (self : Compared) : Command → Prop
  | .accept socket grant => socket ∉ self.select.serverListenSockets ∧
      socket ∉ self.sockets .servePoll ∧
      Granted self.poll.heap (self.poll.pointer .servePoll) grant
  | .close socket grant => socket ∈ self.sockets .servePoll ∧
      Granted self.poll.heap (self.poll.pointer .servePoll) grant
  | .deferredAdd socket grant => socket ∉ self.sockets .deferredPoll ∧
      Granted self.poll.heap (if (self.poll.pointer .deferredPoll).isSome then
        self.poll.pointer .servePoll else none) grant
  | .deferredRemove _ grant => Granted self.poll.heap (self.poll.pointer .servePoll) grant
  | .deferredExists _ => True
  | .writable socket grant => socket ∈ self.sockets .deferredPoll ∧
      Granted self.poll.heap (self.poll.pointer .servePoll) grant

/-- An `fd_set` has room for the socket, one socket is deferred at a time, and a connection is
closed only when it is the last one and not deferred. -/
def Careful (self : Compared) (c : Command) : Prop :=
  InRange c.socket ∧
  match c with
  | .close socket _ => self.sockets .servePoll = [socket] ∧ socket ∉ self.sockets .deferredPoll
  | .deferredAdd _ _ => self.sockets .deferredPoll = []
  | .accept _ _ | .deferredRemove _ _ | .deferredExists _ | .writable _ _ => True

instance (self : Compared) : (c : Command) → Decidable (Legal self c)
  | .accept _ _ => inferInstanceAs (Decidable (_ ∧ _ ∧ _))
  | .close _ _ => inferInstanceAs (Decidable (_ ∧ _))
  | .deferredAdd _ _ => inferInstanceAs (Decidable (_ ∧ _))
  | .deferredRemove _ _ => inferInstanceAs (Decidable (Granted _ _ _))
  | .deferredExists _ => inferInstanceAs (Decidable True)
  | .writable _ _ => inferInstanceAs (Decidable (_ ∧ _))

instance (self : Compared) : (c : Command) → Decidable (Careful self c)
  | .accept _ _ => inferInstanceAs (Decidable (_ ∧ True))
  | .close _ _ => inferInstanceAs (Decidable (_ ∧ _ ∧ _))
  | .deferredAdd _ _ => inferInstanceAs (Decidable (_ ∧ _))
  | .deferredRemove _ _ => inferInstanceAs (Decidable (_ ∧ True))
  | .deferredExists _ => inferInstanceAs (Decidable (_ ∧ True))
  | .writable _ _ => inferInstanceAs (Decidable (_ ∧ True))

end Commands

section Commands

variable {self : Poll} {sockets : PollArray → List Socket} {c : Command}

/-- The answer to a command, from the history. -/
def answerOf (sockets : PollArray → List Socket) : Command → Option Bool
  | .deferredAdd _ _ => some false
  | .deferredExists socket => some (decide (socket ∈ sockets .deferredPoll))
  | .accept _ _ | .close _ _ | .deferredRemove _ _ | .writable _ _ => none

/-- There is memory for one more socket, only the last connection is closed, and a socket is
deferred only while none is. -/
def Manages (self : Poll) (sockets : PollArray → List Socket) : Command → Prop
  | .accept _ grant => Granted self.heap (self.pointer .servePoll) grant
  | .close socket _ => sockets .servePoll = [socket]
  | .deferredAdd _ grant => sockets .deferredPoll = [] ∧ Granted self.heap none grant
  | .deferredRemove _ _ | .deferredExists _ | .writable _ _ => True

theorem Keeps.step (h : Keeps self sockets) (hfew : (sockets .deferredPoll).length ≤ 1)
    (hmanages : Manages self sockets c) :
    ∃ poll, pollStep self c = .ok (poll, answerOf sockets c) ∧ Keeps poll (track sockets c) := by
  cases c with
  | accept socket grant =>
      obtain ⟨poll, hadd, hkeeps⟩ := h.add (Or.inl rfl) socket hmanages
      refine ⟨poll, ?_, hkeeps⟩
      simp only [pollStep, processListeningPoll, if_true, hadd, ok_bind]
      rfl
  | close socket grant =>
      have hlast : (sockets .servePoll).length ≤ 1 := by
        rw [show sockets .servePoll = [socket] from hmanages, List.length_singleton]
      obtain ⟨poll, hdel, hkeeps⟩ := h.del hlast socket grant
      refine ⟨poll, ?_, hkeeps⟩
      simp only [pollStep, processServePoll, Bool.and_self, if_true, hdel, ok_bind]
      rfl
  | deferredAdd socket grant =>
      have hnone : self.pointer .deferredPoll = none :=
        (h.holds .deferredPoll).eq_nil_iff.mpr hmanages.1
      obtain ⟨poll, hadd, hkeeps⟩ := h.add (Or.inr hmanages.1) socket (hnone.symm ▸ hmanages.2)
      refine ⟨poll, ?_, hkeeps⟩
      simp only [pollStep, Poll.serverDeferredSocketAdd, hadd, ok_bind]
      rfl
  | deferredRemove socket grant =>
      obtain ⟨poll, hdel, hkeeps⟩ := h.del hfew socket grant
      refine ⟨poll, ?_, hkeeps⟩
      simp only [pollStep, Poll.serverDeferredSocketRemove, hdel, ok_bind]
      rfl
  | deferredExists socket =>
      have hasked : self.serverDeferredSocketExists socket =
          .ok (decide (socket ∈ sockets .deferredPoll)) := h.contains hfew socket
      refine ⟨self, ?_, ?_⟩
      · simp only [pollStep, hasked, ok_bind]
        rfl
      · have hsame : track sockets (.deferredExists socket) = sockets :=
          Function.update_eq_self _ _
        rwa [hsame]
  | writable socket grant =>
      obtain ⟨poll, hdel, hkeeps⟩ := h.del hfew socket grant
      refine ⟨poll, ?_, hkeeps⟩
      simp only [pollStep, processDeferredPoll, if_true, hdel, ok_bind]
      rfl

theorem few_track (hfew : (sockets .deferredPoll).length ≤ 1) (hmanages : Manages self sockets c) :
    (track sockets c .deferredPoll).length ≤ 1 := by
  cases c with
  | accept socket grant => exact hfew
  | close socket grant => exact hfew
  | deferredAdd socket grant =>
      show (sockets .deferredPoll ++ [socket]).length ≤ 1
      rw [hmanages.1, List.nil_append, List.length_singleton]
  | deferredRemove socket grant => exact List.length_erase_le.trans hfew
  | deferredExists socket => exact hfew
  | writable socket grant => exact List.length_erase_le.trans hfew

end Commands

section Runs

/-- `servePoll` holds the connections, `deferredPoll` is asked for what was added, and `select.c`
gives the same answers. -/
structure Tracks (now : Compared) : Prop where
  arrays : ∀ poll, now.poll.sockets poll = some (now.sockets poll)
  asked : ∀ socket, now.poll.serverDeferredSocketExists socket =
    .ok (decide (socket ∈ now.sockets .deferredPoll))
  answers : ∀ socket, InRange socket →
    now.select.serverDeferredSocketExists socket = now.poll.serverDeferredSocketExists socket
  reads : ∀ socket, socket ∈ now.select.serverReadSockets ↔
    socket ∈ now.select.serverListenSockets ∨ socket ∈ now.sockets .servePoll

/-- What careful commands keep. -/
structure Sound (now : Compared) : Prop where
  keeps : Keeps now.poll now.sockets
  few : (now.sockets .deferredPoll).length ≤ 1
  foreign : ∀ socket ∈ now.sockets .servePoll, socket ∉ now.select.serverListenSockets
  reads : ∀ socket, socket ∈ now.select.serverReadSockets ↔
    socket ∈ now.select.serverListenSockets ∨ socket ∈ now.sockets .servePoll
  writes : ∀ socket, socket ∈ now.select.serverWriteSockets ↔ socket ∈ now.sockets .deferredPoll

theorem Sound.tracks {now : Compared} (h : Sound now) : Tracks now := by
  have hasked (socket : Socket) : now.poll.serverDeferredSocketExists socket =
      .ok (decide (socket ∈ now.sockets .deferredPoll)) := h.keeps.contains h.few socket
  constructor
  · exact h.keeps.sockets_eq
  · exact hasked
  · intro socket hrange
    rw [hasked, Select.serverDeferredSocketExists, fdIsset_eq hrange]
    simp only [h.writes]
  · exact h.reads

theorem Sound.manages {now : Compared} (h : Sound now) {c : Command} (hlegal : Legal now c)
    (hcareful : Careful now c) : Manages now.poll now.sockets c := by
  cases c with
  | accept socket grant => exact hlegal.2.2
  | close socket grant => exact hcareful.2.1
  | deferredAdd socket grant =>
      have hnone : now.poll.pointer .deferredPoll = none :=
        (h.keeps.holds .deferredPoll).eq_nil_iff.mpr hcareful.2
      have hgrant := hlegal.2
      rw [hnone] at hgrant
      exact ⟨hcareful.2, hgrant⟩
  | deferredRemove socket grant => trivial
  | deferredExists socket => trivial
  | writable socket grant => trivial

theorem Sound.mem_erase {now : Compared} (h : Sound now) (socket x : Socket) :
    x ∈ (now.sockets .deferredPoll).erase socket ↔
      x ∈ now.select.serverWriteSockets.erase socket := by
  have honce : (now.sockets .deferredPoll).Nodup := by
    have hfew := h.few
    rcases hlist : now.sockets .deferredPoll with _ | ⟨y, _ | ⟨z, ys⟩⟩
    · exact List.nodup_nil
    · exact List.nodup_singleton y
    · rw [hlist, List.length_cons, List.length_cons] at hfew
      omega
  rw [honce.mem_erase_iff, Finset.mem_erase, h.writes]

theorem Sound.selectStep {now : Compared} (h : Sound now) {c : Command} (hlegal : Legal now c)
    (hcareful : Careful now c) :
    ∃ select, selectStep now.select c = .ok (select, answerOf now.sockets c) ∧
      select.serverListenSockets = now.select.serverListenSockets ∧
      (∀ socket, socket ∈ select.serverReadSockets ↔
        socket ∈ now.select.serverListenSockets ∨ socket ∈ track now.sockets c .servePoll) ∧
      (∀ socket, socket ∈ select.serverWriteSockets ↔
        socket ∈ track now.sockets c .deferredPoll) := by
  have hrange : InRange c.socket := hcareful.1
  cases c with
  | accept socket grant =>
      replace hrange : InRange socket := hrange
      refine ⟨{ now.select with
        serverMaxSocket := max now.select.serverMaxSocket socket
        serverReadSockets := insert socket now.select.serverReadSockets }, ?_, rfl, ?_, ?_⟩
      · rw [BackEnds.selectStep, Select.accepts, fdSet_eq hrange]
        rfl
      · intro x
        show x ∈ insert socket now.select.serverReadSockets ↔
          _ ∨ x ∈ now.sockets .servePoll ++ [socket]
        rw [Finset.mem_insert, h.reads, List.mem_append, List.mem_singleton]
        tauto
      · exact h.writes
  | close socket grant =>
      replace hrange : InRange socket := hrange
      refine ⟨{ now.select with
        serverReadSockets := now.select.serverReadSockets.erase socket
        serverWriteSockets := now.select.serverWriteSockets.erase socket }, ?_, rfl, ?_, ?_⟩
      · rw [BackEnds.selectStep, Select.serves, fdClr_eq hrange, fdClr_eq hrange]
        rfl
      · intro x
        show x ∈ now.select.serverReadSockets.erase socket ↔
          _ ∨ x ∈ (now.sockets .servePoll).erase socket
        have hforeign := h.foreign socket hlegal.1
        rw [Finset.mem_erase, h.reads, hcareful.2.1, List.erase_cons_head, List.mem_singleton]
        constructor
        · rintro ⟨hne, hlisten | hsame⟩
          · exact Or.inl hlisten
          · exact absurd hsame hne
        · rintro (hlisten | hnil)
          · refine ⟨?_, Or.inl hlisten⟩
            rintro rfl
            exact hforeign hlisten
          · simp at hnil
      · intro x
        show x ∈ now.select.serverWriteSockets.erase socket ↔ x ∈ now.sockets .deferredPoll
        rw [Finset.erase_eq_of_notMem, h.writes]
        rw [h.writes]
        exact hcareful.2.2
  | deferredAdd socket grant =>
      replace hrange : InRange socket := hrange
      refine ⟨{ now.select with
        serverWriteSockets := insert socket now.select.serverWriteSockets }, ?_, rfl, h.reads, ?_⟩
      · rw [BackEnds.selectStep, Select.serverDeferredSocketAdd, fdSet_eq hrange]
        rfl
      · intro x
        show x ∈ insert socket now.select.serverWriteSockets ↔
          x ∈ now.sockets .deferredPoll ++ [socket]
        rw [Finset.mem_insert, h.writes, List.mem_append, List.mem_singleton]
        exact Or.comm
  | deferredRemove socket grant =>
      replace hrange : InRange socket := hrange
      refine ⟨{ now.select with
        serverWriteSockets := now.select.serverWriteSockets.erase socket }, ?_, rfl, h.reads, ?_⟩
      · rw [BackEnds.selectStep, Select.serverDeferredSocketRemove, fdClr_eq hrange]
        rfl
      · exact fun x => (h.mem_erase socket x).symm
  | deferredExists socket =>
      replace hrange : InRange socket := hrange
      refine ⟨now.select, ?_, rfl, h.reads, h.writes⟩
      rw [BackEnds.selectStep, Select.serverDeferredSocketExists, fdIsset_eq hrange]
      simp only [h.writes, ok_bind]
      rfl
  | writable socket grant =>
      replace hrange : InRange socket := hrange
      refine ⟨{ now.select with
        serverWriteSockets := now.select.serverWriteSockets.erase socket }, ?_, rfl, h.reads, ?_⟩
      · rw [BackEnds.selectStep, Select.drains, fdClr_eq hrange]
        rfl
      · exact fun x => (h.mem_erase socket x).symm

theorem Sound.foreign_next {now : Compared} (h : Sound now) {c : Command} (hlegal : Legal now c) :
    ∀ socket ∈ track now.sockets c .servePoll, socket ∉ now.select.serverListenSockets := by
  intro x hx
  cases c with
  | accept socket grant =>
      have hx : x ∈ now.sockets .servePoll ++ [socket] := hx
      rcases List.mem_append.mp hx with hold | hnew
      · exact h.foreign x hold
      · rw [List.mem_singleton.mp hnew]
        exact hlegal.1
  | close socket grant => exact h.foreign x (List.mem_of_mem_erase hx)
  | deferredAdd socket grant => exact h.foreign x hx
  | deferredRemove socket grant => exact h.foreign x hx
  | deferredExists socket => exact h.foreign x hx
  | writable socket grant => exact h.foreign x hx

theorem Sound.step {now : Compared} (h : Sound now) {c : Command} (hlegal : Legal now c)
    (hcareful : Careful now c) :
    ∃ poll select answer, BackEnds.pollStep now.poll c = .ok (poll, answer) ∧
      BackEnds.selectStep now.select c = .ok (select, answer) ∧
      Sound ⟨poll, select, track now.sockets c⟩ := by
  have hmanages := h.manages hlegal hcareful
  obtain ⟨poll, hpoll, hkeeps⟩ := h.keeps.step h.few hmanages
  obtain ⟨select, hselect, hlisten, hreads, hwrites⟩ := h.selectStep hlegal hcareful
  refine ⟨poll, select, _, hpoll, hselect, hkeeps, few_track h.few hmanages, ?_, ?_, hwrites⟩
  · rw [hlisten]
    exact h.foreign_next hlegal
  · intro socket
    rw [hlisten]
    exact hreads socket

theorem sound_started (listening : Finset Socket) (maxSocket : Socket) :
    Sound (started listening maxSocket) := by
  refine ⟨⟨fun _ => rfl, fun _ => rfl, fun _ _ _ h => ?_⟩, Nat.zero_le _, ?_, ?_, ?_⟩
  · simp [started] at h
  · intro socket hsocket
    simp [started] at hsocket
  · intro socket
    simp [started]
  · intro socket
    simp [started]

/-- In every run of careful commands the back ends track the same sockets, and the next
careful command changes one array only and gets the same answer from both. -/
theorem poll_tracks_select {listening : Finset Socket} {maxSocket : Socket} {now : Compared}
    (hrun : Run step (fun now c => Legal now c ∧ Careful now c) (started listening maxSocket) now) :
    Tracks now ∧ ∀ c, Legal now c → Careful now c →
      ∃ poll select answer, pollStep now.poll c = .ok (poll, answer) ∧
        selectStep now.select c = .ok (select, answer) ∧
        ∀ other ≠ c.poll, poll.sockets other = now.poll.sockets other := by
  have hsound : Sound now := by
    apply run_invariant Sound _ hrun (sound_started listening maxSocket)
    intro now c next h ⟨hlegal, hcareful⟩ hstep
    obtain ⟨poll, select, answer, hpoll, hselect, hnext⟩ := h.step hlegal hcareful
    rw [step, hpoll, ok_bind] at hstep
    simp only [hselect, ok_bind] at hstep
    rw [← Except.ok.inj hstep]
    exact hnext
  refine ⟨hsound.tracks, fun c hlegal hcareful => ?_⟩
  obtain ⟨poll, select, answer, hpoll, hselect, hnext⟩ := hsound.step hlegal hcareful
  refine ⟨poll, select, answer, hpoll, hselect, fun other hother => ?_⟩
  rw [hnext.keeps.sockets_eq, hsound.keeps.sockets_eq]
  exact congrArg some (Function.update_of_ne hother _ _)

def grantAt (address : Nat) : Option (Grant Socket) := some ⟨address, fun _ => 0⟩

theorem poll_tracks_one : ∃ now,
    follow step (fun now c => Legal now c ∧ Careful now c) (started {3} 3)
      [.accept 4 (grantAt 1), .deferredAdd 4 (grantAt 2), .deferredExists 4,
        .writable 4 (grantAt 1), .close 4 (grantAt 1)] = some now ∧ Tracks now := by
  obtain ⟨now, hfollow⟩ : ∃ now,
      follow step (fun now c => Legal now c ∧ Careful now c) (started {3} 3)
        [.accept 4 (grantAt 1), .deferredAdd 4 (grantAt 2), .deferredExists 4,
          .writable 4 (grantAt 1), .close 4 (grantAt 1)] = some now := ⟨_, rfl⟩
  exact ⟨now, hfollow, (poll_tracks_select (run_of_follow hfollow)).1⟩

/-- The second socket to be deferred is written over the second connection. -/
theorem deferred_overwrites_connection : ∃ now, Run step Legal (started {3} 3) now ∧
    now.sockets .servePoll = [4, 5] ∧ now.poll.sockets .servePoll = some [4, 7] ∧
    now.poll.serverDeferredSocketExists 6 = .error .outOfBounds := by
  obtain ⟨now, hfollow, hafter⟩ : ∃ now, follow step Legal (started {3} 3)
      [.accept 4 (grantAt 1), .accept 5 (grantAt 1), .deferredAdd 6 (grantAt 2),
        .deferredAdd 7 (grantAt 1)] = some now ∧
      now.sockets .servePoll = [4, 5] ∧ now.poll.sockets .servePoll = some [4, 7] ∧
      now.poll.serverDeferredSocketExists 6 = .error .outOfBounds := ⟨_, rfl, rfl, rfl, rfl⟩
  exact ⟨now, run_of_follow hfollow, hafter⟩

end Runs

end Newth.Server.BackEnds
