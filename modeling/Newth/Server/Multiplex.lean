import Newth.Library.Runs
import Newth.Server.Handlers

namespace Newth.Server.Multiplex

open Newth.Library.ByteString
open Newth.Library.Call
open Newth.Library.Runs
open Newth.Server.Handlers
open Newth.Server.HttpBody
open Newth.Server.HttpHeader
open Newth.Server.Routines
open Newth.Server.Sendbufr

/-- What goes round in `serverTick`: the routines with the sockets they wait on, and
the client sockets in `serverReadSockets`. -/
structure Multiplexer where
  serving : Serving
  readSockets : List Nat

def serverSetup (net : Network) : Multiplexer := ⟨⟨[], [], net⟩, []⟩

/-- What `select` reports, or the tick before it. -/
inductive Event where
  | tick
  | accept (clientSocket : Nat) (channel : Channel)
  | readable (socket : Nat) (world : World) (received : List Received)
  | writable (socket : Nat)

/-- The socket an event receives from. -/
def Event.reads : Event → Option Nat
  | .readable socket _ _ => some socket
  | _ => none

/-- The kernel reports sockets that are open, and hands out numbers that are not in use. -/
def Possible (server : Multiplexer) : Event → Prop
  | .tick => True
  | .accept clientSocket _ => clientSocket ∉ server.readSockets
  | .readable socket _ _ => socket ∈ server.readSockets
  | .writable socket => socket ∈ server.serving.deferred

/-- A request is handled; a nonzero return value closes the connection. -/
def serveRequest (server : Multiplexer) (socket : Nat) (world : World) (received : List Received) :
    Except Stop Multiplexer := do
  let serving := server.serving
  let handled ← handleConnection world socket (serving.net socket) received
  let routines := serving.routines ++ handled.added.toList
  let net := Function.update serving.net socket handled.link.channel
  if handled.code = 0 then .ok ⟨⟨routines, serving.deferred, net⟩, server.readSockets⟩
  else do
    let routines ← routineArrayDelSocket socket routines
    .ok ⟨⟨routines, serving.deferred.filter (· ≠ socket), net⟩,
      server.readSockets.filter (· ≠ socket)⟩

def serverEvent (server : Multiplexer) : Event → Except Stop Multiplexer
  | .tick => do
      let serving ← routineTick server.serving
      .ok { server with serving := serving }
  | .accept clientSocket channel =>
      let net := Function.update server.serving.net clientSocket channel
      .ok ⟨{ server.serving with net := net }, clientSocket :: server.readSockets⟩
  | .readable socket world received => serveRequest server socket world received
  | .writable socket =>
      let deferred := server.serving.deferred.filter (· ≠ socket)
      .ok { server with serving := { server.serving with deferred := deferred } }

/-- Nothing more is received on a socket while a routine still writes to it. -/
def Orderly (server : Multiplexer) : Event → Prop
  | .readable socket _ received =>
      socket ∈ sockets server.serving.routines → ∀ result ∈ received, result.isBytes = false
  | _ => True

/-- The events of an orderly run. -/
def Allowed (server : Multiplexer) (event : Event) : Prop :=
  Possible server event ∧ Orderly server event

instance (server : Multiplexer) (event : Event) : Decidable (Possible server event) :=
  match event with
  | .tick => .isTrue trivial
  | .accept clientSocket _ => inferInstanceAs (Decidable (clientSocket ∉ server.readSockets))
  | .readable socket _ _ => inferInstanceAs (Decidable (socket ∈ server.readSockets))
  | .writable socket => inferInstanceAs (Decidable (socket ∈ server.serving.deferred))

instance (server : Multiplexer) (event : Event) : Decidable (Orderly server event) :=
  match event with
  | .tick => .isTrue trivial
  | .accept _ _ => .isTrue trivial
  | .readable socket _ received => inferInstanceAs (Decidable
      (socket ∈ sockets server.serving.routines → ∀ result ∈ received, result.isBytes = false))
  | .writable _ => .isTrue trivial

instance (server : Multiplexer) (event : Event) : Decidable (Allowed server event) :=
  inferInstanceAs (Decidable (Possible server event ∧ Orderly server event))

/-- One routine a socket, and none on a socket that is not open. -/
structure Tidy (server : Multiplexer) : Prop where
  single : (sockets server.serving.routines).Nodup
  opened : ∀ socket ∈ sockets server.serving.routines, socket ∈ server.readSockets

theorem routineArrayDelSocket_sublist {socket : Nat} {routines routines' : List Routine}
    (h : routineArrayDelSocket socket routines = .ok routines') :
    (sockets routines').Sublist (sockets routines) := by
  induction routines generalizing routines' with
  | nil =>
      obtain rfl := Except.ok.inj h
      exact List.Sublist.refl _
  | cons routine rest ih =>
      rw [routineArrayDelSocket] at h
      split at h
      · obtain ⟨rest', hrest, h⟩ := bind_eq_ok_iff.mp h
        obtain rfl := Except.ok.inj h
        exact (ih hrest).cons_cons _
      · obtain ⟨u, -, h⟩ := bind_eq_ok_iff.mp h
        obtain rfl := Except.ok.inj h
        exact (List.Sublist.refl _).cons _

theorem notMem_routineArrayDelSocket {socket : Nat} {routines routines' : List Routine}
    (hnodup : (sockets routines).Nodup)
    (h : routineArrayDelSocket socket routines = .ok routines') : socket ∉ sockets routines' := by
  induction routines generalizing routines' with
  | nil =>
      obtain rfl := Except.ok.inj h
      simp [sockets]
  | cons routine rest ih =>
      simp only [sockets, List.map_cons, List.nodup_cons] at hnodup
      rw [routineArrayDelSocket] at h
      split at h
      · rename_i hne
        obtain ⟨rest', hrest, h⟩ := bind_eq_ok_iff.mp h
        obtain rfl := Except.ok.inj h
        simp only [sockets, List.map_cons, List.mem_cons, not_or]
        exact ⟨Ne.symm hne, ih hnodup.2 hrest⟩
      · rename_i heq
        obtain ⟨u, -, h⟩ := bind_eq_ok_iff.mp h
        obtain rfl := Except.ok.inj h
        rw [not_not] at heq
        rw [← heq]
        exact hnodup.1

theorem mem_routineArrayDelSocket {socket : Nat} {routines routines' : List Routine}
    (h : routineArrayDelSocket socket routines = .ok routines') {routine : Routine}
    (hmem : routine ∈ routines) (hne : routine.socketBuffer.clientSocket ≠ socket) :
    routine ∈ routines' := by
  induction routines generalizing routines' with
  | nil => simp at hmem
  | cons first rest ih =>
      rw [routineArrayDelSocket] at h
      split at h
      · obtain ⟨rest', hrest, h⟩ := bind_eq_ok_iff.mp h
        obtain rfl := Except.ok.inj h
        rcases List.mem_cons.mp hmem with rfl | hmem
        · simp
        · simp [ih hrest hmem]
      · rename_i heq
        obtain ⟨u, -, h⟩ := bind_eq_ok_iff.mp h
        obtain rfl := Except.ok.inj h
        rcases List.mem_cons.mp hmem with rfl | hmem
        · exact absurd hne heq
        · exact hmem

theorem sockets_append (routines routines' : List Routine) :
    sockets (routines ++ routines') = sockets routines ++ sockets routines' := List.map_append

theorem serveRequest_cases {server next : Multiplexer} {socket : Nat} {world : World}
    {received : List Received} (horderly : Orderly server (.readable socket world received))
    (h : serveRequest server socket world received = .ok next) :
    ∃ channel, next.serving.net = Function.update server.serving.net socket channel ∧
      (socket ∈ sockets server.serving.routines → channel = server.serving.net socket) ∧
      ((∃ added : Option Routine,
          next.serving.routines = server.serving.routines ++ added.toList ∧
          next.readSockets = server.readSockets ∧ socket ∉ sockets server.serving.routines ∧
          ∀ routine, added = some routine → routine.socketBuffer.clientSocket = socket) ∨
        (routineArrayDelSocket socket server.serving.routines = .ok next.serving.routines ∧
          next.readSockets = server.readSockets.filter (· ≠ socket))) := by
  rw [serveRequest] at h
  obtain ⟨handled, hhandled, h⟩ := bind_eq_ok_iff.mp h
  have howned := handleConnection_owned hhandled
  have hbusy : socket ∈ sockets server.serving.routines →
      handled = ⟨1, none, ⟨sendBufferNew socket 0, server.serving.net socket⟩⟩ := by
    intro hmem
    rw [handleConnection_silent world socket _ (horderly hmem)] at hhandled
    exact (Except.ok.inj hhandled).symm
  refine ⟨handled.link.channel, ?_⟩
  by_cases hcode : handled.code = 0
  · rw [if_pos hcode] at h
    obtain rfl := Except.ok.inj h
    refine ⟨rfl, fun hmem => by rw [hbusy hmem], .inl ⟨handled.added, rfl, rfl, ?_, ?_⟩⟩
    · intro hmem
      rw [hbusy hmem] at hcode
      simp at hcode
    · intro routine hadded
      exact (howned routine hadded).1
  · rw [if_neg hcode] at h
    obtain ⟨routines, hroutines, h⟩ := bind_eq_ok_iff.mp h
    obtain rfl := Except.ok.inj h
    have hnone : handled.added = none := by
      cases hadded : handled.added with
      | none => rfl
      | some routine => exact absurd (howned routine hadded).2 hcode
    rw [hnone, Option.toList_none, List.append_nil] at hroutines
    exact ⟨rfl, fun hmem => by rw [hbusy hmem], .inr ⟨hroutines, rfl⟩⟩

theorem serverEvent_tick {server next : Multiplexer} (h : serverEvent server .tick = .ok next) :
    Rounds server.serving.routines server.serving.net next.serving.routines next.serving.net ∧
      next.readSockets = server.readSockets := by
  obtain ⟨serving, hserving, h⟩ := bind_eq_ok_iff.mp h
  obtain rfl := Except.ok.inj h
  obtain ⟨result, hresult, hserving⟩ := bind_eq_ok_iff.mp hserving
  obtain rfl := Except.ok.inj hserving
  exact ⟨tickFrom_rounds hresult, rfl⟩

theorem serverEvent_tidy {server next : Multiplexer} {event : Event} (htidy : Tidy server)
    (hallowed : Allowed server event) (h : serverEvent server event = .ok next) : Tidy next := by
  obtain ⟨hpossible, horderly⟩ := hallowed
  cases event with
  | tick =>
      obtain ⟨hrounds, hopen⟩ := serverEvent_tick h
      have hsub := rounds_sockets hrounds
      exact ⟨htidy.single.sublist hsub, fun socket hmem =>
        hopen ▸ htidy.opened socket (hsub.mem hmem)⟩
  | accept clientSocket channel =>
      obtain rfl := Except.ok.inj h
      exact ⟨htidy.single, fun socket hmem => List.mem_cons_of_mem _ (htidy.opened socket hmem)⟩
  | readable socket world received =>
      obtain ⟨channel, -, -, hcases⟩ := serveRequest_cases horderly h
      rcases hcases with ⟨added, hroutines, hopen, hidle, hsocket⟩ | ⟨hroutines, hopen⟩
      · constructor
        · rw [hroutines, sockets_append]
          cases added with
          | none => simpa [sockets] using htidy.single
          | some routine =>
              rw [List.nodup_append]
              refine ⟨htidy.single, by simp [sockets], ?_⟩
              rintro a ha b hb rfl
              obtain rfl : a = socket := by simpa [sockets, hsocket routine rfl] using hb
              exact hidle ha
        · intro other hmem
          rw [hroutines, sockets_append, List.mem_append] at hmem
          rw [hopen]
          rcases hmem with hmem | hmem
          · exact htidy.opened other hmem
          · cases added with
            | none => simp [sockets] at hmem
            | some routine =>
                obtain rfl : other = socket := by simpa [sockets, hsocket routine rfl] using hmem
                exact hpossible
      · have hsub := routineArrayDelSocket_sublist hroutines
        refine ⟨htidy.single.sublist hsub, ?_⟩
        intro other hmem
        have hne : other ≠ socket := by
          rintro rfl
          exact notMem_routineArrayDelSocket htidy.single hroutines hmem
        rw [hopen]
        exact List.mem_filter.mpr ⟨htidy.opened other (hsub.mem hmem), by simpa using hne⟩
  | writable socket =>
      obtain rfl := Except.ok.inj h
      exact ⟨htidy.single, htidy.opened⟩

/-- What an event does to one routine and its socket. -/
inductive Fate (server next : Multiplexer) (routine : Routine) : Event → Prop where
  | untouched {event : Event} (stays : routine ∈ next.serving.routines)
      (same : next.serving.net routine.socketBuffer.clientSocket
        = server.serving.net routine.socketBuffer.clientSocket) :
      Fate server next routine event
  | advanced {deferred : List Nat} {t : Ticked}
      (moves : advance deferred routine
        (server.serving.net routine.socketBuffer.clientSocket) = .ok t)
      (channel : next.serving.net routine.socketBuffer.clientSocket = t.channel)
      (out : (t.kept = true ∧ t.routine ∈ next.serving.routines) ∨
        (t.kept = false ∧
          routine.socketBuffer.clientSocket ∉ sockets next.serving.routines)) :
      Fate server next routine .tick
  | closed {world : World} {received : List Received}
      (same : next.serving.net routine.socketBuffer.clientSocket
        = server.serving.net routine.socketBuffer.clientSocket)
      (gone : routine.socketBuffer.clientSocket ∉ sockets next.serving.routines) :
      Fate server next routine (.readable routine.socketBuffer.clientSocket world received)

theorem serverEvent_fate {server next : Multiplexer} {event : Event} (htidy : Tidy server)
    (hallowed : Allowed server event) (h : serverEvent server event = .ok next)
    {routine : Routine} (hroutine : routine ∈ server.serving.routines) :
    Fate server next routine event := by
  obtain ⟨hpossible, horderly⟩ := hallowed
  have hbusy : routine.socketBuffer.clientSocket ∈ sockets server.serving.routines :=
    List.mem_map_of_mem hroutine
  cases event with
  | tick =>
      rcases rounds_focus (serverEvent_tick h).1 htidy.single hroutine rfl with
        ⟨hstays, hsame, -⟩ | ⟨deferred, t, hmoves, hchannel, hout⟩
      · exact .untouched hstays hsame
      · exact .advanced hmoves hchannel hout
  | accept clientSocket channel =>
      obtain rfl := Except.ok.inj h
      refine .untouched hroutine (Function.update_of_ne ?_ _ _)
      rintro rfl
      exact hpossible (htidy.opened _ hbusy)
  | readable socket world received =>
      obtain ⟨channel, hnet, hchannel, hcases⟩ := serveRequest_cases horderly h
      by_cases hsocket : routine.socketBuffer.clientSocket = socket
      · subst hsocket
        have hsame := hchannel hbusy
        rcases hcases with ⟨added, -, -, hidle, -⟩ | ⟨hroutines, -⟩
        · exact absurd hbusy hidle
        · refine .closed ?_ (notMem_routineArrayDelSocket htidy.single hroutines)
          rw [hnet, Function.update_self, hsame]
      · have hsame : next.serving.net routine.socketBuffer.clientSocket
            = server.serving.net routine.socketBuffer.clientSocket := by
          rw [hnet, Function.update_of_ne hsocket]
        rcases hcases with ⟨added, hroutines, -, -, -⟩ | ⟨hroutines, -⟩
        · exact .untouched (by simp [hroutines, hroutine]) hsame
        · exact .untouched (mem_routineArrayDelSocket hroutines hroutine hsocket) hsame
  | writable socket =>
      obtain rfl := Except.ok.inj h
      exact .untouched hroutine rfl

theorem mem_sockets_of_serverEvent {server next : Multiplexer} {event : Event}
    (horderly : Orderly server event) (h : serverEvent server event = .ok next) {socket : Nat}
    (hmem : socket ∈ sockets next.serving.routines) :
    socket ∈ sockets server.serving.routines ∨ event.reads = some socket := by
  cases event with
  | tick =>
      exact .inl ((rounds_sockets (serverEvent_tick h).1).mem hmem)
  | accept clientSocket channel =>
      obtain rfl := Except.ok.inj h
      exact .inl hmem
  | readable other world received =>
      obtain ⟨channel, -, -, hcases⟩ := serveRequest_cases horderly h
      rcases hcases with ⟨added, hroutines, -, -, hsocket⟩ | ⟨hroutines, -⟩
      · rw [hroutines, sockets_append, List.mem_append] at hmem
        rcases hmem with hmem | hmem
        · exact .inl hmem
        · right
          cases added with
          | none => simp [sockets] at hmem
          | some routine =>
              obtain rfl : socket = other := by simpa [sockets, hsocket routine rfl] using hmem
              rfl
      · exact .inl ((routineArrayDelSocket_sublist hroutines).mem hmem)
  | writable other =>
      obtain rfl := Except.ok.inj h
      exact .inl hmem

theorem serverSetup_tidy (net : Network) : Tidy (serverSetup net) :=
  ⟨List.nodup_nil, by simp [serverSetup, sockets]⟩

/-- As long as nothing is received on a socket that is still being written to, a
socket has one routine, deleting the first match deletes it, and only that routine
writes to the socket. -/
theorem routines_single {net : Network} {server : Multiplexer}
    (hrun : Run serverEvent Allowed (serverSetup net) server) :
    (sockets server.serving.routines).Nodup ∧
      (∀ socket routines,
        routineArrayDelSocket socket server.serving.routines = .ok routines →
          socket ∉ sockets routines) ∧
      ∀ routine ∈ server.serving.routines, ∀ event next, Allowed server event →
        serverEvent server event = .ok next → Fate server next routine event := by
  have htidy : Tidy server :=
    run_invariant Tidy (fun _ _ _ hs happens moves => serverEvent_tidy hs happens moves) hrun
      (serverSetup_tidy net)
  refine ⟨htidy.single, ?_, ?_⟩
  · intro socket routines h
    exact notMem_routineArrayDelSocket htidy.single h
  · intro routine hroutine event next hallowed hnext
    exact serverEvent_fate htidy hallowed hnext hroutine

def digitsRequest : Event := .readable 3 tenDigits [.bytes (text "GET /a HTTP/1.1\r\n\r\n")]

/-- The first request is answered before the second one arrives. -/
def inTurn : List Event :=
  [.accept 3 ⟨[], []⟩, digitsRequest] ++ List.replicate 6 .tick ++ [digitsRequest]

theorem routines_single_inTurn :
    ∃ server, follow serverEvent Allowed (serverSetup fun _ => ⟨[], []⟩) inTurn = some server ∧
      (sockets server.serving.routines).Nodup ∧
      (∀ socket routines,
        routineArrayDelSocket socket server.serving.routines = .ok routines →
          socket ∉ sockets routines) ∧
      ∀ routine ∈ server.serving.routines, ∀ event next, Allowed server event →
        serverEvent server event = .ok next → Fate server next routine event := by
  have hsome : (follow serverEvent Allowed (serverSetup fun _ => ⟨[], []⟩) inTurn).isSome := by
    decide +kernel
  obtain ⟨server, hserver⟩ := Option.isSome_iff_exists.mp hsome
  exact ⟨server, hserver, routines_single (run_of_follow hserver)⟩

/-- The second request finds the first one's routine still there, and deleting the
socket's routine leaves the other. -/
theorem routines_pipelined :
    ∃ server, Run serverEvent Possible (serverSetup fun _ => ⟨[], []⟩) server ∧
      ¬ (sockets server.serving.routines).Nodup ∧
      (routineArrayDelSocket 3 server.serving.routines).map sockets = .ok [3] := by
  have htwo : (follow serverEvent Possible (serverSetup fun _ => ⟨[], []⟩)
      [.accept 3 ⟨[], []⟩, digitsRequest, .tick, digitsRequest]).any fun server =>
        ¬ (sockets server.serving.routines).Nodup ∧
          (routineArrayDelSocket 3 server.serving.routines).map sockets = .ok [3] := by
    decide +kernel
  obtain ⟨server, hserver, htwice⟩ := (Option.any_eq_true _ _).mp htwo
  exact ⟨server, run_of_follow hserver, of_decide_eq_true htwice⟩

end Newth.Server.Multiplex
