import Newth.Server.Multiplex
import Newth.Server.Ticks
import Newth.Server.BackEnds

namespace Newth.Server.SelectLoop

open Newth.Library.ByteString
open Newth.Library.Call
open Newth.Library.Runs
open Newth.Server.BackEnds (fdSetSize)
open Newth.Server.Handlers
open Newth.Server.Multiplex
open Newth.Server.Routines
open Newth.Server.Sendbufr
open Newth.Server.Ticks

section Model

/-- The variables of `select.c` beside the routines and the network: `serverListenSockets`,
`serverReadSockets` and `serverMaxSocket`. `serverWriteSockets` is `serving.deferred`. -/
structure Selecting where
  serving : Serving
  listenSockets : List Nat
  readSockets : List Nat
  maxSocket : Nat

/-- `FD_SET`; a descriptor behind the last one a set has room for is written beside the set. -/
def fdSet (socket : Nat) (set : List Nat) : Except Stop (List Nat) :=
  if socket < fdSetSize then .ok (set.insert socket) else .error .outOfBounds

/-- What `select`, `accept` and the calls of `recv` come back with in one round. -/
structure Round where
  readyToRead : List Nat
  readyToWrite : List Nat
  /-- What `accept` on a listening socket returns while these descriptors are open. -/
  accept : Nat → List Nat → Option (Nat × Channel)
  world : Nat → World
  received : Nat → List Received

/-- A connection is accepted; the descriptor -1 of a failing `accept` is not looked at. -/
def acceptTurn (round : Round) (i : Nat) (server : Selecting) : Except Stop Selecting :=
  match round.accept i server.readSockets with
  | none => .error .outOfBounds
  | some (clientSocket, channel) => do
      let maxSocket := if server.maxSocket < clientSocket then clientSocket else server.maxSocket
      let readSockets ← fdSet clientSocket server.readSockets
      let net := Function.update server.serving.net clientSocket channel
      .ok { server with
        serving := { server.serving with net := net }
        readSockets := readSockets
        maxSocket := maxSocket }

/-- The part of the loop body for a socket that can be read. -/
def readTurn (round : Round) (i : Nat) (server : Selecting) : Except Stop Selecting :=
  if i ∈ round.readyToRead then
    if i ∈ server.listenSockets then acceptTurn round i server
    else do
      let served ← serveRequest ⟨server.serving, server.readSockets⟩ i (round.world i)
        (round.received i)
      .ok { server with serving := served.serving, readSockets := served.readSockets }
  else .ok server

def Selecting.writable (server : Selecting) (socket : Nat) : Selecting :=
  { server with serving :=
      { server.serving with deferred := server.serving.deferred.filter (· ≠ socket) } }

/-- The loop over the descriptors; `serverMaxSocket` may grow on the way. -/
def loopTurn (round : Round) (s : Nat × Selecting) :
    Except Stop (Turn (Nat × Selecting) Selecting) :=
  if s.2.maxSocket < s.1 then .ok (.leave s.2)
  else do
    let server ← readTurn round s.1 s.2
    .ok (.again (s.1 + 1, if s.1 ∈ round.readyToWrite then server.writable s.1 else server))

/-- The routines have their tick, if there are any. -/
def routinesTurn (serving : Serving) : Except Stop Serving :=
  if serving.routines = [] then .ok serving else routineTick serving

/-- One round of `serverTick`. A descriptor is below `FD_SETSIZE`, so the fuel lasts. -/
def serverTick (server : Selecting) (round : Round) : Except Stop Selecting := do
  let serving ← routinesTurn server.serving
  run (loopTurn round) (fdSetSize + 1) (0, { server with serving := serving })

/-- `fdSetToSocketArray`, for the sockets the server listens on. -/
def fdSetAll (set : List Nat) : List Nat → Except Stop (List Nat)
  | [] => .ok set
  | socket :: sockets => do
      let set ← fdSet socket set
      fdSetAll set sockets

def maxOf (maxSocket : Nat) : List Nat → Nat
  | [] => maxSocket
  | socket :: sockets => maxOf (if maxSocket < socket then socket else maxSocket) sockets

def serverSetup (sockets : List Nat) (net : Network) : Except Stop Selecting := do
  let listenSockets ← fdSetAll [] sockets
  let readSockets ← fdSetAll [] sockets
  .ok ⟨⟨[], [], net⟩, listenSockets, readSockets, maxOf 0 sockets⟩

end Model

section Promises

/-- What the kernel promises of a round: `select` reports sockets it was asked about, and
`accept` hands out descriptors that are not open. -/
structure Promised (server : Selecting) (round : Round) : Prop where
  asked : ∀ socket ∈ round.readyToRead, socket ∈ server.readSockets
  fresh : ∀ i sockets clientSocket channel,
    round.accept i sockets = some (clientSocket, channel) → clientSocket ∉ sockets

/-- The connections, as `Multiplexer` sees the server. -/
def Selecting.clients (server : Selecting) : Multiplexer :=
  ⟨server.serving, server.readSockets.filter (· ∉ server.listenSockets)⟩

/-- The loop comes to every descriptor the server knows of. -/
structure InReach (server : Selecting) : Prop where
  listening : ∀ socket ∈ server.listenSockets, socket ∈ server.readSockets
  reading : ∀ socket ∈ server.readSockets, socket ≤ server.maxSocket
  serving : ∀ socket ∈ sockets server.serving.routines, socket ≤ server.maxSocket
  writing : ∀ socket ∈ server.serving.deferred, socket ≤ server.maxSocket
  bounded : server.maxSocket < fdSetSize

/-- What there is to read at a descriptor. -/
inductive ReadsAt (round : Round) (listenSockets : List Nat) (i : Nat) : List Event → Prop
  | idle (unready : i ∉ round.readyToRead) : ReadsAt round listenSockets i []
  | accepts {sockets : List Nat} {clientSocket : Nat} {channel : Channel}
      (ready : i ∈ round.readyToRead) (listens : i ∈ listenSockets)
      (accepted : round.accept i sockets = some (clientSocket, channel)) :
      ReadsAt round listenSockets i [.accept clientSocket channel]
  | serves (ready : i ∈ round.readyToRead) (client : i ∉ listenSockets) :
      ReadsAt round listenSockets i [.readable i (round.world i) (round.received i)]

/-- The events at a descriptor: first what there is to read, and then that it can be written,
which is an event only for a socket that is waited on. -/
inductive EventsAt (round : Round) (listenSockets : List Nat) (i : Nat) : List Event → Prop
  | reads {events : List Event} (read : ReadsAt round listenSockets i events) :
      EventsAt round listenSockets i events
  | drains {events : List Event} (read : ReadsAt round listenSockets i events)
      (ready : i ∈ round.readyToWrite) : EventsAt round listenSockets i (events ++ [.writable i])

/-- The events of a round: the tick, unless there is nothing to tick, and a group for each
descriptor in ascending order. -/
def roundEvents (serving : Serving) (turns : List (List Event)) : List Event :=
  (if serving.routines = [] then [] else [.tick]) ++ turns.flatten

/-- The sockets whose requests a round serves, in its order. -/
def served (round : Round) (listenSockets : List Nat) (n : Nat) : List Nat :=
  (List.range n).filter fun i => i ∈ round.readyToRead ∧ i ∉ listenSockets

theorem EventsAt.served {round : Round} {listenSockets : List Nat} {i : Nat}
    {events : List Event} (h : EventsAt round listenSockets i events) :
    events.filterMap Event.reads =
      if i ∈ round.readyToRead ∧ i ∉ listenSockets then [i] else [] := by
  have hread {events : List Event} (hread : ReadsAt round listenSockets i events) :
      events.filterMap Event.reads =
        if i ∈ round.readyToRead ∧ i ∉ listenSockets then [i] else [] := by
    cases hread with
    | idle unready =>
        rw [if_neg fun hserves => unready hserves.1]
        rfl
    | accepts ready listens accepted =>
        rw [if_neg fun hserves => hserves.2 listens]
        rfl
    | serves ready client =>
        rw [if_pos ⟨ready, client⟩]
        rfl
  cases h with
  | reads read => exact hread read
  | drains read ready =>
      rw [List.filterMap_append, hread read]
      exact List.append_nil _

theorem turns_served {round : Round} {listenSockets : List Nat} {sockets : List Nat}
    {turns : List (List Event)}
    (h : List.Forall₂ (EventsAt round listenSockets) sockets turns) :
    turns.flatten.filterMap Event.reads =
      sockets.filter fun i => i ∈ round.readyToRead ∧ i ∉ listenSockets := by
  induction h with
  | nil => rfl
  | cons hfirst hrest ih =>
      rw [List.flatten_cons, List.filterMap_append, hfirst.served, ih, List.filter_cons]
      split <;> simp_all

end Promises

section Turns

variable {round : Round} {server server' : Selecting} {i : Nat}

theorem serveRequest_outcome {serving : Serving} {readSockets : List Nat} {socket : Nat}
    {world : World} {received : List Received} {next : Multiplexer}
    (h : serveRequest ⟨serving, readSockets⟩ socket world received = .ok next) :
    (∀ other ∈ sockets next.serving.routines, other ∈ sockets serving.routines ∨ other = socket) ∧
      (∀ other ∈ next.serving.deferred, other ∈ serving.deferred) ∧
      ((next.readSockets = readSockets ∧ ∀ others,
          serveRequest ⟨serving, others⟩ socket world received = .ok ⟨next.serving, others⟩) ∨
        (next.readSockets = readSockets.filter (· ≠ socket) ∧ ∀ others,
          serveRequest ⟨serving, others⟩ socket world received =
            .ok ⟨next.serving, others.filter (· ≠ socket)⟩)) := by
  rw [serveRequest] at h
  obtain ⟨handled, hhandled, h⟩ := bind_eq_ok_iff.mp h
  have howned := handleConnection_owned hhandled
  have hadded : ∀ other ∈ sockets (serving.routines ++ handled.added.toList),
      other ∈ sockets serving.routines ∨ other = socket := by
    intro other hmem
    rw [sockets_append, List.mem_append] at hmem
    refine hmem.imp_right fun hmem => ?_
    obtain ⟨routine, hroutine, rfl⟩ := List.mem_map.mp hmem
    exact (howned routine (Option.mem_toList.mp hroutine)).1
  simp only [serveRequest, hhandled, ok_bind]
  by_cases hcode : handled.code = 0
  · simp only [hcode, if_true] at h ⊢
    obtain rfl := Except.ok.inj h
    exact ⟨hadded, fun _ hmem => hmem, .inl ⟨rfl, fun _ => rfl⟩⟩
  · simp only [hcode, if_false] at h ⊢
    obtain ⟨routines, hroutines, h⟩ := bind_eq_ok_iff.mp h
    obtain rfl := Except.ok.inj h
    refine ⟨fun other hmem => ?_, fun other hmem => (List.mem_filter.mp hmem).1, .inr ⟨rfl, ?_⟩⟩
    · exact hadded other ((routineArrayDelSocket_sublist hroutines).mem hmem)
    · intro others
      rw [hroutines]
      rfl

/-- What a turn does to the sets, and the events it is. -/
structure Turned (round : Round) (i : Nat) (server server' : Selecting) : Prop where
  reach : InReach server'
  listens : server'.listenSockets = server.listenSockets
  stays : ∀ socket, socket ≠ i → socket ∈ server.readSockets → socket ∈ server'.readSockets
  fewer : ∀ socket ∈ server'.serving.deferred, socket ∈ server.serving.deferred
  grows : server.maxSocket ≤ server'.maxSocket
  events : ∃ events, ReadsAt round server.listenSockets i events ∧
    follow serverEvent Possible server.clients events = some server'.clients

theorem fdSet_ok {socket : Nat} {set set' : List Nat} (h : fdSet socket set = .ok set') :
    socket < fdSetSize ∧ set' = set.insert socket := by
  rw [fdSet] at h
  split at h
  · rename_i hsmall
    exact ⟨hsmall, (Except.ok.inj h).symm⟩
  · simp at h

theorem acceptTurn_turned (hready : i ∈ round.readyToRead)
    (hfresh : ∀ i sockets clientSocket channel,
      round.accept i sockets = some (clientSocket, channel) → clientSocket ∉ sockets)
    (hreach : InReach server) (hlistens : i ∈ server.listenSockets)
    (h : acceptTurn round i server = .ok server') : Turned round i server server' := by
  rw [acceptTurn] at h
  split at h
  · simp at h
  · rename_i clientSocket channel haccept
    have hnew := hfresh _ _ _ _ haccept
    obtain ⟨readSockets, hset, h⟩ := bind_eq_ok_iff.mp h
    obtain ⟨hsmall, rfl⟩ := fdSet_ok hset
    obtain rfl := Except.ok.inj h
    have hlater : ∀ socket, socket ≤ server.maxSocket →
        socket ≤ if server.maxSocket < clientSocket then clientSocket else server.maxSocket := by
      intro socket hle
      split
      · omega
      · exact hle
    rw [List.insert_of_not_mem hnew]
    refine ⟨⟨?_, ?_, ?_, ?_, ?_⟩, rfl, ?_, fun _ hmem => hmem, hlater _ (Nat.le_refl _), ?_⟩
    · exact fun socket hmem => List.mem_cons_of_mem _ (hreach.listening socket hmem)
    · intro socket hmem
      rcases List.mem_cons.mp hmem with rfl | hmem
      · simp only
        split <;> omega
      · exact hlater socket (hreach.reading socket hmem)
    · exact fun socket hmem => hlater socket (hreach.serving socket hmem)
    · exact fun socket hmem => hlater socket (hreach.writing socket hmem)
    · have hbound := hreach.bounded
      simp only
      split
      · exact hsmall
      · exact hbound
    · exact fun socket _ hmem => List.mem_cons_of_mem _ hmem
    · refine ⟨[.accept clientSocket channel], .accepts hready hlistens haccept,
        follow_one ?_ ?_⟩
      · exact fun hmem => hnew (List.mem_filter.mp hmem).1
      · have hout : clientSocket ∉ server.listenSockets := fun hmem =>
          hnew (hreach.listening _ hmem)
        simp only [serverEvent, Selecting.clients]
        rw [List.filter_cons_of_pos (by simpa using hout)]

theorem readTurn_turned (hfresh : ∀ i sockets clientSocket channel,
      round.accept i sockets = some (clientSocket, channel) → clientSocket ∉ sockets)
    (hreach : InReach server) (hopen : i ∈ round.readyToRead → i ∈ server.readSockets)
    (h : readTurn round i server = .ok server') : Turned round i server server' := by
  rw [readTurn] at h
  split at h
  · rename_i hready
    split at h
    · rename_i hlistens
      exact acceptTurn_turned hready hfresh hreach hlistens h
    · rename_i hclient
      obtain ⟨next, hserved, h⟩ := bind_eq_ok_iff.mp h
      obtain rfl := Except.ok.inj h
      obtain ⟨hsockets, hdeferred, hcases⟩ := serveRequest_outcome hserved
      have hin := hopen hready
      have hpossible : Possible server.clients (.readable i (round.world i) (round.received i)) :=
        List.mem_filter.mpr ⟨hin, by simpa using hclient⟩
      have hserves : ∀ socket ∈ sockets next.serving.routines, socket ≤ server.maxSocket := by
        intro socket hmem
        rcases hsockets socket hmem with hmem | rfl
        · exact hreach.serving socket hmem
        · exact hreach.reading socket hin
      have hwrites : ∀ socket ∈ next.serving.deferred, socket ≤ server.maxSocket :=
        fun socket hmem => hreach.writing socket (hdeferred socket hmem)
      rcases hcases with ⟨hsame, hother⟩ | ⟨hcloses, hother⟩
      · refine ⟨⟨?_, ?_, hserves, hwrites, hreach.bounded⟩, rfl, ?_, hdeferred, Nat.le_refl _, ?_⟩
        · simpa only [hsame] using hreach.listening
        · simpa only [hsame] using hreach.reading
        · intro socket _ hmem
          simpa only [hsame] using hmem
        · refine ⟨[.readable i (round.world i) (round.received i)], .serves hready hclient,
            follow_one hpossible ?_⟩
          simp only [serverEvent, Selecting.clients, hother, hsame]
      · refine ⟨⟨?_, ?_, hserves, hwrites, hreach.bounded⟩, rfl, ?_, hdeferred, Nat.le_refl _, ?_⟩
        · intro socket hmem
          simp only [hcloses, List.mem_filter, ne_eq, decide_not, Bool.not_eq_true',
            decide_eq_false_iff_not]
          refine ⟨hreach.listening socket hmem, ?_⟩
          rintro rfl
          exact hclient hmem
        · intro socket hmem
          rw [hcloses] at hmem
          exact hreach.reading socket (List.mem_filter.mp hmem).1
        · intro socket hne hmem
          rw [hcloses]
          exact List.mem_filter.mpr ⟨hmem, by simpa using hne⟩
        · refine ⟨[.readable i (round.world i) (round.received i)], .serves hready hclient,
            follow_one hpossible ?_⟩
          simp only [serverEvent, Selecting.clients, hother, hcloses, List.filter_filter,
            Bool.and_comm]
  · rename_i hidle
    obtain rfl := Except.ok.inj h
    exact ⟨hreach, rfl, fun _ _ hmem => hmem, fun _ hmem => hmem, Nat.le_refl _, [],
      .idle hidle, rfl⟩

theorem writable_follows {listenSockets : List Nat} {events : List Event}
    (hread : ReadsAt round listenSockets i events) (hready : i ∈ round.readyToWrite)
    {start : Multiplexer}
    (hevents : follow serverEvent Possible start events = some server.clients) :
    ∃ events, EventsAt round listenSockets i events ∧
      follow serverEvent Possible start events = some (server.writable i).clients := by
  by_cases hmem : i ∈ server.serving.deferred
  · have hdrain : follow serverEvent Possible server.clients [.writable i] =
        some (server.writable i).clients := follow_one hmem rfl
    exact ⟨events ++ [.writable i], .drains hread hready, follow_append hevents hdrain⟩
  · have hsame : server.serving.deferred.filter (· ≠ i) = server.serving.deferred := by
      refine List.filter_eq_self.mpr fun socket hsocket => ?_
      simp only [ne_eq, decide_not, Bool.not_eq_true', decide_eq_false_iff_not]
      rintro rfl
      exact hmem hsocket
    refine ⟨events, .reads hread, hevents.trans ?_⟩
    simp only [Selecting.writable, Selecting.clients, hsame]

/-- The loop at the descriptor it has come to. -/
structure Passed (round : Round) (start : Selecting) (s : Nat × Selecting) : Prop where
  reach : InReach s.2
  listens : s.2.listenSockets = start.listenSockets
  near : s.1 ≤ s.2.maxSocket + 1
  ahead : ∀ socket ∈ round.readyToRead, s.1 ≤ socket → socket ∈ s.2.readSockets
  written : ∀ socket ∈ round.readyToWrite, socket < s.1 → socket ∉ s.2.serving.deferred
  grows : start.maxSocket ≤ s.2.maxSocket
  events : ∃ turns, List.Forall₂ (EventsAt round start.listenSockets) (List.range s.1) turns ∧
    follow serverEvent Possible start.clients turns.flatten = some s.2.clients

theorem Passed.next {start server : Selecting} {s : Nat × Selecting} (hs : Passed round start s)
    {events : List Event} (hevents : EventsAt round start.listenSockets s.1 events)
    (hfollow : follow serverEvent Possible s.2.clients events = some server.clients) :
    ∃ turns, List.Forall₂ (EventsAt round start.listenSockets) (List.range (s.1 + 1)) turns ∧
      follow serverEvent Possible start.clients turns.flatten = some server.clients := by
  obtain ⟨turns, hturns, hbefore⟩ := hs.events
  refine ⟨turns ++ [events], ?_, ?_⟩
  · rw [List.range_succ]
    exact List.rel_append hturns (.cons hevents .nil)
  · rw [List.flatten_append, List.flatten_singleton]
    exact follow_append hbefore hfollow

theorem loopTurn_passed {start : Selecting} {s s' : Nat × Selecting}
    (hfresh : ∀ i sockets clientSocket channel,
      round.accept i sockets = some (clientSocket, channel) → clientSocket ∉ sockets)
    (hs : Passed round start s) (h : loopTurn round s = .ok (.again s')) :
    Passed round start s' := by
  rw [loopTurn] at h
  split at h
  · simp at h
  · rename_i hmore
    obtain ⟨server, hread, h⟩ := bind_eq_ok_iff.mp h
    obtain rfl := Turn.again.inj (Except.ok.inj h)
    have hturned := readTurn_turned hfresh hs.reach
      (fun hready => hs.ahead s.1 hready (Nat.le_refl _)) hread
    obtain ⟨events, hread, hevents⟩ := hturned.events
    rw [hs.listens] at hread
    have hlisten : server.listenSockets = start.listenSockets :=
      hturned.listens.trans hs.listens
    have hgrows := hturned.grows
    by_cases hwritable : s.1 ∈ round.readyToWrite
    · rw [if_pos hwritable]
      obtain ⟨events', hturn, hevents'⟩ := writable_follows hread hwritable hevents
      refine ⟨⟨hturned.reach.listening, hturned.reach.reading, hturned.reach.serving, ?_,
        hturned.reach.bounded⟩, hlisten, ?_, ?_, ?_, hs.grows.trans hgrows,
        hs.next hturn hevents'⟩
      · exact fun socket hmem => hturned.reach.writing socket (List.mem_filter.mp hmem).1
      · show s.1 + 1 ≤ server.maxSocket + 1
        omega
      · intro socket hready hlater
        exact hturned.stays socket (by omega) (hs.ahead socket hready (by omega))
      · intro socket hready hbefore hmem
        obtain ⟨hmem, hne⟩ := List.mem_filter.mp hmem
        have hne : socket ≠ s.1 := by simpa using hne
        exact hs.written socket hready (by omega) (hturned.fewer socket hmem)
    · rw [if_neg hwritable]
      refine ⟨hturned.reach, hlisten, ?_, ?_, ?_, hs.grows.trans hgrows,
        hs.next (.reads hread) hevents⟩
      · show s.1 + 1 ≤ server.maxSocket + 1
        omega
      · intro socket hready hlater
        exact hturned.stays socket (by omega) (hs.ahead socket hready (by omega))
      · intro socket hready hbefore hmem
        have hne : socket ≠ s.1 := by
          rintro rfl
          exact hwritable hready
        exact hs.written socket hready (by omega) (hturned.fewer socket hmem)

end Turns

section Rounds

theorem ticked_passed {server : Selecting} {round : Round} (hreach : InReach server)
    (hpromised : Promised server round) {serving : Serving}
    (h : routinesTurn server.serving = .ok serving) :
    follow serverEvent Possible server.clients (roundEvents server.serving []) =
        some { server with serving := serving }.clients ∧
      Passed round { server with serving := serving } (0, { server with serving := serving }) := by
  have hpassed : InReach { server with serving := serving } →
      Passed round { server with serving := serving } (0, { server with serving := serving }) := by
    intro hreach'
    refine ⟨hreach', rfl, Nat.zero_le _, fun socket hready _ => hpromised.asked socket hready, ?_,
      Nat.le_refl _, [], .nil, rfl⟩
    intro socket _ hless
    exact absurd hless (Nat.not_lt_zero socket)
  rw [routinesTurn] at h
  split at h
  · rename_i hnone
    obtain rfl := Except.ok.inj h
    rw [roundEvents, if_pos hnone]
    exact ⟨rfl, hpassed hreach⟩
  · rename_i hsome
    have hevent : serverEvent server.clients .tick =
        .ok { server with serving := serving }.clients := by
      change (routineTick server.serving >>= fun serving =>
        Except.ok { server.clients with serving := serving }) = _
      rw [h]
      rfl
    rw [roundEvents, if_neg hsome]
    refine ⟨follow_one trivial hevent, hpassed ?_⟩
    obtain ⟨result, hresult, h⟩ := bind_eq_ok_iff.mp h
    obtain rfl := Except.ok.inj h
    have hsub := rounds_sockets (tickFrom_rounds hresult)
    refine ⟨hreach.listening, hreach.reading, ?_, ?_, hreach.bounded⟩
    · exact fun socket hmem => hreach.serving socket (hsub.mem hmem)
    · intro socket hmem
      by_cases hbusy : socket ∈ sockets server.serving.routines
      · exact hreach.serving socket hbusy
      · exact hreach.writing socket ((tickFrom_other hresult hbusy).mp hmem)

theorem serverTick_turns {server next : Selecting} {round : Round} (hreach : InReach server)
    (hpromised : Promised server round) (h : serverTick server round = .ok next) :
    InReach next ∧ next.listenSockets = server.listenSockets ∧
      (∀ socket ∈ round.readyToWrite, socket ∉ next.serving.deferred) ∧
      (∀ socket ∈ round.readyToRead, socket ≤ next.maxSocket) ∧
      ∃ turns, List.Forall₂ (EventsAt round server.listenSockets)
          (List.range (next.maxSocket + 1)) turns ∧
        follow serverEvent Possible server.clients (roundEvents server.serving turns) =
          some next.clients := by
  obtain ⟨serving, hserving, h⟩ := bind_eq_ok_iff.mp h
  obtain ⟨htick, hstart⟩ := ticked_passed hreach hpromised hserving
  have hpassed : ∃ i, next.maxSocket < i ∧
      Passed round { server with serving := serving } (i, next) := by
    refine run_partial (Passed round { server with serving := serving })
      (fun next => ∃ i, next.maxSocket < i ∧
        Passed round { server with serving := serving } (i, next)) ?_ ?_ hstart h
    · exact fun s s' hs hturn => loopTurn_passed hpromised.fresh hs hturn
    · intro s r hs hturn
      rw [loopTurn] at hturn
      split at hturn
      · rename_i hlast
        obtain rfl := Turn.leave.inj (Except.ok.inj hturn)
        exact ⟨s.1, hlast, hs⟩
      · obtain ⟨server', -, hturn⟩ := bind_eq_ok_iff.mp hturn
        simp at hturn
  obtain ⟨i, hlast, hpassed⟩ := hpassed
  have hend : i = next.maxSocket + 1 := Nat.le_antisymm hpassed.near hlast
  subst hend
  obtain ⟨turns, hturns, hevents⟩ := hpassed.events
  refine ⟨hpassed.reach, hpassed.listens, ?_, ?_, turns, hturns, ?_⟩
  · intro socket hready hmem
    have hle := hpassed.reach.writing socket hmem
    exact hpassed.written socket hready (Nat.lt_succ_of_le hle) hmem
  · intro socket hready
    exact (hreach.reading socket (hpromised.asked socket hready)).trans hpassed.grows
  · rw [roundEvents, List.flatten_nil, List.append_nil] at htick
    exact follow_append htick hevents

/-- The fuel of the loop is no bound on it. -/
theorem serverTick_fuel {server : Selecting} {round : Round} (hreach : InReach server)
    (hpromised : Promised server round) {serving : Serving}
    (hserving : routinesTurn server.serving = .ok serving) {fuel : Nat} (hfuel : fdSetSize < fuel) :
    serverTick server round =
      run (loopTurn round) fuel (0, { server with serving := serving }) := by
  obtain ⟨-, hstart⟩ := ticked_passed hreach hpromised hserving
  rw [serverTick, hserving, ok_bind]
  refine run_fuel (Passed round { server with serving := serving })
    (fun s => fdSetSize - s.1) ?_ hstart (Nat.lt_succ_self fdSetSize) hfuel
  intro s s' hs hturn
  refine ⟨loopTurn_passed hpromised.fresh hs hturn, ?_⟩
  have hbound := hs.reach.bounded
  rw [loopTurn] at hturn
  split at hturn
  · simp at hturn
  · obtain ⟨server', -, hturn⟩ := bind_eq_ok_iff.mp hturn
    obtain rfl := Turn.again.inj (Except.ok.inj hturn)
    simp only
    omega

theorem fdSetAll_mem {set set' sockets : List Nat} (h : fdSetAll set sockets = .ok set') :
    (∀ socket ∈ sockets, socket < fdSetSize) ∧
      ∀ socket ∈ set', socket ∈ set ∨ socket ∈ sockets := by
  induction sockets generalizing set with
  | nil =>
      obtain rfl := Except.ok.inj h
      exact ⟨by simp, fun socket hmem => .inl hmem⟩
  | cons first rest ih =>
      obtain ⟨added, hadded, h⟩ := bind_eq_ok_iff.mp h
      obtain ⟨hsmall, rfl⟩ := fdSet_ok hadded
      obtain ⟨hrest, hmem⟩ := ih h
      refine ⟨List.forall_mem_cons.mpr ⟨hsmall, hrest⟩, fun socket hin => ?_⟩
      rcases hmem socket hin with hin | hin
      · rcases List.mem_insert_iff.mp hin with rfl | hin
        · exact .inr List.mem_cons_self
        · exact .inl hin
      · exact .inr (List.mem_cons_of_mem _ hin)

theorem le_maxOf (maxSocket : Nat) (sockets : List Nat) :
    maxSocket ≤ maxOf maxSocket sockets ∧ ∀ socket ∈ sockets, socket ≤ maxOf maxSocket sockets := by
  induction sockets generalizing maxSocket with
  | nil => exact ⟨Nat.le_refl _, by simp⟩
  | cons first rest ih =>
      obtain ⟨hmax, hrest⟩ := ih (if maxSocket < first then first else maxSocket)
      rw [maxOf]
      have hboth : maxSocket ≤ (if maxSocket < first then first else maxSocket) ∧
          first ≤ if maxSocket < first then first else maxSocket := by
        split <;> omega
      exact ⟨hboth.1.trans hmax, List.forall_mem_cons.mpr ⟨hboth.2.trans hmax, hrest⟩⟩

theorem maxOf_lt {bound maxSocket : Nat} {sockets : List Nat} (hmax : maxSocket < bound)
    (hall : ∀ socket ∈ sockets, socket < bound) : maxOf maxSocket sockets < bound := by
  induction sockets generalizing maxSocket with
  | nil => exact hmax
  | cons first rest ih =>
      obtain ⟨hfirst, hrest⟩ := List.forall_mem_cons.mp hall
      refine ih ?_ hrest
      split
      · exact hfirst
      · exact hmax

theorem serverSetup_reach {sockets : List Nat} {net : Network} {start : Selecting}
    (h : serverSetup sockets net = .ok start) :
    InReach start ∧ start.clients = Multiplex.serverSetup net := by
  obtain ⟨listenSockets, hlisten, h⟩ := bind_eq_ok_iff.mp h
  obtain ⟨readSockets, hread, h⟩ := bind_eq_ok_iff.mp h
  obtain rfl := Except.ok.inj (hlisten.symm.trans hread)
  obtain rfl := Except.ok.inj h
  obtain ⟨hsmall, hmem⟩ := fdSetAll_mem hread
  constructor
  · refine ⟨fun _ hin => hin, ?_, by simp [Routines.sockets], by simp, maxOf_lt (by decide) hsmall⟩
    intro socket hin
    rcases hmem socket hin with hin | hin
    · simp at hin
    · exact (le_maxOf 0 sockets).2 socket hin
  · simp [Selecting.clients, Multiplex.serverSetup]

theorem run_clients {start server : Selecting} (hreach : InReach start)
    (hrun : Run serverTick Promised start server) :
    InReach server ∧ server.listenSockets = start.listenSockets ∧
      Run serverEvent Possible start.clients server.clients := by
  induction hrun with
  | refl => exact ⟨hreach, rfl, .refl _⟩
  | tail before hpromised hnext ih =>
      obtain ⟨hreach', hlistens, hclients⟩ := ih
      obtain ⟨hin, hsame, -, -, turns, -, hevents⟩ := serverTick_turns hreach' hpromised hnext
      exact ⟨hin, hsame.trans hlistens, run_trans hclients (run_of_follow hevents)⟩

/-- The select loop is the event system it was taken for: every round is a tick and then, for
one descriptor after the other in ascending order, the connection accepted or the request
served there and the end of the wait on it. -/
theorem serverTick_refines {sockets : List Nat} {net : Network} {start server next : Selecting}
    {round : Round} (hsetup : serverSetup sockets net = .ok start)
    (hrun : Run serverTick Promised start server) (hpromised : Promised server round)
    (h : serverTick server round = .ok next) :
    Run serverEvent Possible (Multiplex.serverSetup net) server.clients ∧
      (∀ socket ∈ round.readyToWrite, socket ∉ next.serving.deferred) ∧
      (∀ socket ∈ round.readyToRead, socket ≤ next.maxSocket) ∧
      ∃ turns, List.Forall₂ (EventsAt round start.listenSockets)
          (List.range (next.maxSocket + 1)) turns ∧
        follow serverEvent Possible server.clients (roundEvents server.serving turns) =
          some next.clients ∧
        turns.flatten.filterMap Event.reads =
          served round start.listenSockets (next.maxSocket + 1) := by
  obtain ⟨hreach, hclients⟩ := serverSetup_reach hsetup
  obtain ⟨hreach', hlistens, hran⟩ := run_clients hreach hrun
  obtain ⟨-, -, hwritten, hread, turns, hturns, hevents⟩ := serverTick_turns hreach' hpromised h
  rw [hclients] at hran
  rw [hlistens] at hturns
  exact ⟨hran, hwritten, hread, turns, hturns, hevents, turns_served hturns⟩

/-- Connections come in as descriptor 5 while that is free. -/
def acceptFive (_ : Nat) (sockets : List Nat) : Option (Nat × Channel) :=
  if 5 ∈ sockets then none else some (5, ⟨[], []⟩)

/-- A round in which the socket listened on has a connection waiting. -/
def connecting : Round := ⟨[3], [], acceptFive, fun _ => tenDigits, fun _ => []⟩

/-- A round in which the connection has sent a request. -/
def asking : Round :=
  ⟨[5], [], acceptFive, fun _ => tenDigits, fun _ => [.bytes (text "GET /a HTTP/1.1\r\n\r\n")]⟩

theorem acceptFive_fresh (i : Nat) (sockets : List Nat) (clientSocket : Nat) (channel : Channel)
    (h : acceptFive i sockets = some (clientSocket, channel)) : clientSocket ∉ sockets := by
  rw [acceptFive] at h
  split at h
  · simp at h
  · rename_i hfree
    obtain ⟨rfl, -⟩ := Prod.mk.inj (Option.some.inj h)
    exact hfree

theorem serverTick_refines_asking : ∃ start server next,
    serverSetup [3] (fun _ => ⟨[], []⟩) = .ok start ∧ serverTick start connecting = .ok server ∧
      serverTick server asking = .ok next ∧
      Run serverEvent Possible (Multiplex.serverSetup fun _ => ⟨[], []⟩) server.clients ∧
      (∀ socket ∈ asking.readyToWrite, socket ∉ next.serving.deferred) ∧
      (∀ socket ∈ asking.readyToRead, socket ≤ next.maxSocket) ∧
      ∃ turns, List.Forall₂ (EventsAt asking start.listenSockets)
          (List.range (next.maxSocket + 1)) turns ∧
        follow serverEvent Possible server.clients (roundEvents server.serving turns) =
          some next.clients ∧
        turns.flatten.filterMap Event.reads =
          served asking start.listenSockets (next.maxSocket + 1) := by
  have hran : ((serverSetup [3] fun _ => ⟨[], []⟩).toOption.any fun start =>
      (serverTick start connecting).toOption.any fun server =>
        3 ∈ start.readSockets ∧ 5 ∈ server.readSockets ∧
          (serverTick server asking).toOption.isSome) = true := by
    decide +kernel
  obtain ⟨start, hstart, hran⟩ := (Option.any_eq_true _ _).mp hran
  obtain ⟨server, hserver, hran⟩ := (Option.any_eq_true _ _).mp hran
  obtain ⟨hthree, hfive, hsome⟩ := of_decide_eq_true hran
  obtain ⟨next, hnext⟩ := Option.isSome_iff_exists.mp hsome
  rw [toOption_eq_some_iff] at hstart hserver hnext
  have hconnecting : Promised start connecting :=
    ⟨by simpa [connecting] using hthree, acceptFive_fresh⟩
  have hasking : Promised server asking := ⟨by simpa [asking] using hfive, acceptFive_fresh⟩
  exact ⟨start, server, next, hstart, hserver, hnext,
    serverTick_refines hstart (.tail (.refl start) hconnecting hserver) hasking hnext⟩

end Rounds

end Newth.Server.SelectLoop
