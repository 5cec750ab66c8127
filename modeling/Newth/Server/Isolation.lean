import Newth.Server.Multiplex
import Newth.Server.Ticks

namespace Newth.Server.Isolation

open Newth.Library.ByteString
open Newth.Library.Call
open Newth.Library.Runs
open Newth.Server.Handlers
open Newth.Server.Multiplex
open Newth.Server.Routines
open Newth.Server.Sendbufr
open Newth.Server.Ticks

section Alike

/-- The socket an event is about; a tick is about all of them. -/
def about : Event → Option Nat
  | .tick => none
  | .accept clientSocket _ => some clientSocket
  | .readable socket _ _ => some socket
  | .writable socket => some socket

/-- What is left of the events when there is nobody but the client on the socket: all that is
about it, and some of the ticks. -/
def OwnEvents (socket : Nat) (events own : List Event) : Prop :=
  own.filter (about · = some socket) = events.filter (about · = some socket) ∧
    own.Sublist (events.filter fun event => about event = none ∨ about event = some socket)

def writesTo (socket : Nat) (routine : Routine) : Bool :=
  routine.socketBuffer.clientSocket = socket

theorem writesTo_iff {socket : Nat} {routine : Routine} :
    writesTo socket routine = true ↔ routine.socketBuffer.clientSocket = socket :=
  decide_eq_true_iff

/-- Two servers that no client on the socket can tell apart. The first may have other clients,
the second has none. -/
structure Alike (socket : Nat) (server alone : Multiplexer) : Prop where
  routines : alone.serving.routines = server.serving.routines.filter (writesTo socket)
  channel : alone.serving.net socket = server.serving.net socket
  deferred : socket ∈ alone.serving.deferred ↔ socket ∈ server.serving.deferred
  listed : socket ∈ alone.readSockets ↔ socket ∈ server.readSockets

variable {socket : Nat} {server next alone : Multiplexer}

theorem mem_sockets_iff {routines : List Routine} :
    socket ∈ sockets routines ↔ ∃ r ∈ routines, r.socketBuffer.clientSocket = socket :=
  List.mem_map

theorem filter_of_notMem {routines : List Routine} (h : socket ∉ sockets routines) :
    routines.filter (writesTo socket) = [] := by
  rw [List.filter_eq_nil_iff]
  intro r hr hwrites
  exact h (mem_sockets_iff.mpr ⟨r, hr, writesTo_iff.mp hwrites⟩)

theorem filter_of_mem {routines : List Routine} (hnodup : (sockets routines).Nodup) {r : Routine}
    (hr : r ∈ routines) (hs : r.socketBuffer.clientSocket = socket) :
    routines.filter (writesTo socket) = [r] := by
  induction routines with
  | nil => simp at hr
  | cons first rest ih =>
      simp only [sockets, List.map_cons, List.nodup_cons] at hnodup
      rcases List.mem_cons.mp hr with rfl | hr
      · rw [hs] at hnodup
        rw [List.filter_cons_of_pos (writesTo_iff.mpr hs), filter_of_notMem hnodup.1]
      · have hother : ¬ writesTo socket first := by
          intro hfirst
          have hsame : first.socketBuffer.clientSocket = socket := writesTo_iff.mp hfirst
          exact hnodup.1 (hsame ▸ hs ▸ List.mem_map_of_mem hr)
        rw [List.filter_cons_of_neg hother, ih hnodup.2 hr]

theorem Alike.sockets_iff (h : Alike socket server alone) :
    socket ∈ sockets alone.serving.routines ↔ socket ∈ sockets server.serving.routines := by
  rw [h.routines, mem_sockets_iff, mem_sockets_iff]
  simp [writesTo]

theorem Alike.allowed (h : Alike socket server alone) {event : Event}
    (habout : about event = some socket) (hallowed : Allowed server event) :
    Allowed alone event := by
  obtain ⟨hpossible, horderly⟩ := hallowed
  cases event with
  | tick => simp [about] at habout
  | accept clientSocket channel =>
      obtain rfl := Option.some.inj habout
      exact ⟨mt h.listed.mp hpossible, trivial⟩
  | readable other world received =>
      obtain rfl := Option.some.inj habout
      exact ⟨h.listed.mpr hpossible, fun hbusy => horderly (h.sockets_iff.mp hbusy)⟩
  | writable other =>
      obtain rfl := Option.some.inj habout
      exact ⟨h.deferred.mpr hpossible, trivial⟩

end Alike

section Steps

variable {socket : Nat} {server next alone : Multiplexer}

theorem routineArrayDelSocket_other {other : Nat} {routines routines' : List Routine}
    (h : routineArrayDelSocket other routines = .ok routines') (hne : other ≠ socket) :
    routines'.filter (writesTo socket) = routines.filter (writesTo socket) := by
  induction routines generalizing routines' with
  | nil =>
      obtain rfl := Except.ok.inj h
      rfl
  | cons first rest ih =>
      rw [routineArrayDelSocket] at h
      split at h
      · obtain ⟨rest', hrest, h⟩ := bind_eq_ok_iff.mp h
        obtain rfl := Except.ok.inj h
        rw [List.filter_cons, List.filter_cons, ih hrest]
      · rename_i hsame
        obtain ⟨u, -, h⟩ := bind_eq_ok_iff.mp h
        obtain rfl := Except.ok.inj h
        have hfirst : ¬ writesTo socket first := fun hwrites =>
          hne ((not_not.mp hsame).symm.trans (writesTo_iff.mp hwrites))
        rw [List.filter_cons_of_neg hfirst]

theorem routineArrayDelSocket_own {routines routines' : List Routine}
    (h : routineArrayDelSocket socket routines = .ok routines') :
    routineArrayDelSocket socket (routines.filter (writesTo socket)) =
      .ok (routines'.filter (writesTo socket)) := by
  induction routines generalizing routines' with
  | nil =>
      obtain rfl := Except.ok.inj h
      rfl
  | cons first rest ih =>
      rw [routineArrayDelSocket] at h
      split at h
      · rename_i hother
        obtain ⟨rest', hrest, h⟩ := bind_eq_ok_iff.mp h
        obtain rfl := Except.ok.inj h
        have hfirst : ¬ writesTo socket first := fun hwrites => hother (writesTo_iff.mp hwrites)
        rw [List.filter_cons_of_neg hfirst, List.filter_cons_of_neg hfirst]
        exact ih hrest
      · rename_i hsame
        obtain ⟨u, hfree, h⟩ := bind_eq_ok_iff.mp h
        obtain rfl := Except.ok.inj h
        rw [List.filter_cons_of_pos (writesTo_iff.mpr (not_not.mp hsame)), routineArrayDelSocket,
          if_neg hsame, hfree, ok_bind]

/-- A request of the client is handled as it would be if there were no others. -/
theorem Alike.own_request (h : Alike socket server alone) {world : World}
    {received : List Received} (hserved : serveRequest server socket world received = .ok next) :
    ∃ alone', serveRequest alone socket world received = .ok alone' ∧
      Alike socket next alone' := by
  obtain ⟨handled, hhandled, hserved⟩ := bind_eq_ok_iff.mp hserved
  have hadded : handled.added.toList.filter (writesTo socket) = handled.added.toList := by
    rw [List.filter_eq_self]
    intro routine hmem
    exact writesTo_iff.mpr ((handleConnection_owned hhandled) routine (Option.mem_toList.mp hmem)).1
  have hroutines : alone.serving.routines ++ handled.added.toList =
      (server.serving.routines ++ handled.added.toList).filter (writesTo socket) := by
    rw [List.filter_append, hadded, h.routines]
  rw [serveRequest, h.channel, hhandled, ok_bind]
  simp only at hserved ⊢
  by_cases hcode : handled.code = 0
  · rw [if_pos hcode] at hserved ⊢
    obtain rfl := Except.ok.inj hserved
    refine ⟨_, rfl, hroutines, ?_, h.deferred, h.listed⟩
    simp only [Function.update_self]
  · rw [if_neg hcode] at hserved ⊢
    obtain ⟨routines, hdel, hserved⟩ := bind_eq_ok_iff.mp hserved
    obtain rfl := Except.ok.inj hserved
    rw [hroutines, routineArrayDelSocket_own hdel, ok_bind]
    refine ⟨_, rfl, rfl, ?_, by simp, by simp⟩
    simp only [Function.update_self]

theorem Alike.other_request (h : Alike socket server alone) {other : Nat} {world : World}
    {received : List Received} (hne : other ≠ socket)
    (hserved : serveRequest server other world received = .ok next) :
    Alike socket next alone := by
  obtain ⟨handled, hhandled, hserved⟩ := bind_eq_ok_iff.mp hserved
  have hadded : handled.added.toList.filter (writesTo socket) = [] := by
    rw [List.filter_eq_nil_iff]
    intro routine hmem hwrites
    have howned := (handleConnection_owned hhandled) routine (Option.mem_toList.mp hmem)
    exact hne (howned.1.symm.trans (writesTo_iff.mp hwrites))
  have hroutines : (server.serving.routines ++ handled.added.toList).filter (writesTo socket) =
      alone.serving.routines := by
    rw [List.filter_append, hadded, List.append_nil, h.routines]
  have hnet : alone.serving.net socket =
      Function.update server.serving.net other handled.link.channel socket := by
    rw [Function.update_of_ne hne.symm, h.channel]
  simp only at hserved
  by_cases hcode : handled.code = 0
  · rw [if_pos hcode] at hserved
    obtain rfl := Except.ok.inj hserved
    exact ⟨hroutines.symm, hnet, h.deferred, h.listed⟩
  · rw [if_neg hcode] at hserved
    obtain ⟨routines, hdel, hserved⟩ := bind_eq_ok_iff.mp hserved
    obtain rfl := Except.ok.inj hserved
    refine ⟨?_, hnet, ?_, ?_⟩
    · rw [routineArrayDelSocket_other hdel hne, hroutines]
    · simp only [List.mem_filter, h.deferred]
      simp [hne.symm]
    · simp only [List.mem_filter, h.listed]
      simp [hne.symm]

theorem tickFrom_single {deferred : List Nat} {net : Network} {r : Routine} {t : Ticked}
    (h : advance deferred r (net r.socketBuffer.clientSocket) = .ok t) :
    tickFrom [r] deferred net = .ok (if t.kept then [t.routine] else [], t.deferred,
      Function.update net r.socketBuffer.clientSocket t.channel) := by
  rw [tickFrom, h, ok_bind]
  by_cases hkept : t.kept = true
  · simp only [if_pos hkept]
    rfl
  · simp only [if_neg hkept]

theorem Alike.tick (h : Alike socket server alone) (htidy : Tidy server)
    (hticked : serverEvent server .tick = .ok next) :
    Alike socket next alone ∨
      ∃ alone', serverEvent alone .tick = .ok alone' ∧ Alike socket next alone' := by
  obtain ⟨serving, hserving, hticked⟩ := bind_eq_ok_iff.mp hticked
  obtain rfl := Except.ok.inj hticked
  obtain ⟨result, hresult, hserving⟩ := bind_eq_ok_iff.mp hserving
  obtain rfl := Except.ok.inj hserving
  have hrounds := tickFrom_rounds hresult
  have hnodup := htidy.single.sublist (rounds_sockets hrounds)
  by_cases hbusy : socket ∈ sockets server.serving.routines
  · obtain ⟨r, hr, hs⟩ := mem_sockets_iff.mp hbusy
    have hlone : alone.serving.routines = [r] := by
      rw [h.routines, filter_of_mem htidy.single hr hs]
    rcases tickFrom_focus hresult htidy.single hr hs with
      ⟨hmem, hnet, hwait, -⟩ | ⟨t, hround, hnet, hwait, hout⟩
    · left
      refine ⟨?_, h.channel.trans hnet.symm, h.deferred.trans hwait.symm, h.listed⟩
      rw [hlone, filter_of_mem hnodup hmem hs]
    · right
      obtain ⟨t', hround', hroutine, hchannel, hkept, hdeferred⟩ :=
        advance_congr hround (hs ▸ h.deferred)
      rw [hs] at hdeferred
      have hturn : advance alone.serving.deferred r
          (alone.serving.net r.socketBuffer.clientSocket) = .ok t' := by
        rw [hs, h.channel]
        exact hround'
      have hsame : Function.update alone.serving.net r.socketBuffer.clientSocket t'.channel socket =
          result.2.2 socket := by
        rw [hs, Function.update_self, hchannel, hnet]
      have htick : serverEvent alone .tick = .ok ⟨⟨if t'.kept then [t'.routine] else [],
          t'.deferred, Function.update alone.serving.net r.socketBuffer.clientSocket t'.channel⟩,
          alone.readSockets⟩ := by
        rw [serverEvent, routineTick, hlone, tickFrom_single hturn]
        rfl
      refine ⟨_, htick, ?_, hsame, hdeferred.trans hwait.symm, h.listed⟩
      rw [hkept, hroutine]
      rcases hout with ⟨htrue, hmem⟩ | ⟨hfalse, hgone⟩
      · rw [if_pos htrue, filter_of_mem hnodup hmem ((advance_clientSocket hround).trans hs)]
      · rw [if_neg (by rw [hfalse]; decide), filter_of_notMem hgone]
  · left
    refine ⟨?_, ?_, h.deferred.trans (tickFrom_other hresult hbusy).symm, h.listed⟩
    · rw [h.routines, filter_of_notMem hbusy,
        filter_of_notMem fun hmem => hbusy ((rounds_sockets hrounds).mem hmem)]
    · exact h.channel.trans (rounds_other hrounds hbusy).symm

end Steps

section Runs

variable {socket : Nat} {server next alone : Multiplexer} {events own : List Event}
  {event : Event}

theorem OwnEvents.mine (h : OwnEvents socket events own) (habout : about event = some socket) :
    OwnEvents socket (event :: events) (event :: own) := by
  obtain ⟨hall, hsub⟩ := h
  refine ⟨?_, ?_⟩
  · rw [List.filter_cons_of_pos (by simpa using habout),
      List.filter_cons_of_pos (by simpa using habout), hall]
  · rw [List.filter_cons_of_pos (by simp [habout])]
    exact hsub.cons_cons event

theorem OwnEvents.without (h : OwnEvents socket events own) (habout : about event ≠ some socket) :
    OwnEvents socket (event :: events) own := by
  obtain ⟨hall, hsub⟩ := h
  refine ⟨?_, ?_⟩
  · rw [List.filter_cons_of_neg (by simpa using habout), hall]
  · rw [List.filter_cons]
    split
    · exact hsub.cons event
    · exact hsub

theorem OwnEvents.ticked (h : OwnEvents socket events own) :
    OwnEvents socket (.tick :: events) (.tick :: own) := by
  obtain ⟨hall, hsub⟩ := h
  refine ⟨?_, ?_⟩
  · rw [List.filter_cons_of_neg (by simp [about]), List.filter_cons_of_neg (by simp [about]), hall]
  · rw [List.filter_cons_of_pos (by simp [about])]
    exact hsub.cons_cons _

theorem Alike.own_event (h : Alike socket server alone) (habout : about event = some socket)
    (hmoves : serverEvent server event = .ok next) :
    ∃ alone', serverEvent alone event = .ok alone' ∧ Alike socket next alone' := by
  cases event with
  | tick => simp [about] at habout
  | accept clientSocket channel =>
      obtain rfl := Option.some.inj habout
      obtain rfl := Except.ok.inj hmoves
      refine ⟨_, rfl, h.routines, ?_, h.deferred, by simp⟩
      simp only [Function.update_self]
  | readable other world received =>
      obtain rfl := Option.some.inj habout
      exact h.own_request hmoves
  | writable other =>
      obtain rfl := Option.some.inj habout
      obtain rfl := Except.ok.inj hmoves
      exact ⟨_, rfl, h.routines, h.channel, by simp, h.listed⟩

theorem Alike.other_event (h : Alike socket server alone) {other : Nat}
    (habout : about event = some other) (hne : other ≠ socket)
    (hmoves : serverEvent server event = .ok next) : Alike socket next alone := by
  cases event with
  | tick => simp [about] at habout
  | accept clientSocket channel =>
      obtain rfl := Option.some.inj habout
      obtain rfl := Except.ok.inj hmoves
      refine ⟨h.routines, ?_, h.deferred, ?_⟩
      · exact h.channel.trans (Function.update_of_ne hne.symm _ _).symm
      · rw [h.listed, List.mem_cons, or_iff_right hne.symm]
  | readable reads world received =>
      obtain rfl := Option.some.inj habout
      exact h.other_request hne hmoves
  | writable writes =>
      obtain rfl := Option.some.inj habout
      obtain rfl := Except.ok.inj hmoves
      refine ⟨h.routines, h.channel, ?_, h.listed⟩
      simp only [List.mem_filter, h.deferred]
      simp [hne.symm]

/-- The server with no other client answers an event of its own client with the same event, one
of another client with none, and a tick with one or none. -/
theorem Alike.step (h : Alike socket server alone) (htidy : Tidy server)
    (hallowed : Allowed server event) (hmoves : serverEvent server event = .ok next) :
    ∃ own alone', follow serverEvent Allowed alone own = some alone' ∧ Alike socket next alone' ∧
      ∀ events later, OwnEvents socket events later →
        OwnEvents socket (event :: events) (own ++ later) := by
  cases habout : about event with
  | none =>
      obtain rfl : event = .tick := by
        cases event with
        | tick => rfl
        | accept clientSocket channel => simp [about] at habout
        | readable reads world received => simp [about] at habout
        | writable writes => simp [about] at habout
      rcases h.tick htidy hmoves with halike | ⟨alone', hticked, halike⟩
      · exact ⟨[], alone, rfl, halike, fun _ _ hlater => hlater.without (by simp [about])⟩
      · exact ⟨[.tick], alone', follow_one ⟨trivial, trivial⟩ hticked, halike,
          fun _ _ hlater => hlater.ticked⟩
  | some other =>
      by_cases hsame : other = socket
      · subst hsame
        obtain ⟨alone', hmoves', halike⟩ := h.own_event habout hmoves
        exact ⟨[event], alone', follow_one (h.allowed habout hallowed) hmoves', halike,
          fun _ _ hlater => hlater.mine habout⟩
      · refine ⟨[], alone, rfl, h.other_event habout hsame hmoves,
          fun _ _ hlater => hlater.without ?_⟩
        simp [habout, hsame]

/-- However the clients' requests are mixed, and whatever the others ask for and take, a client
is served as by a server that has no other: the same bytes have gone out to it, the same routine
is left, and it is waited on or closed alike, after all of its own events in their order and no
more ticks than there were. -/
theorem served_alone {net : Network} (socket : Nat)
    (hrun : follow serverEvent Allowed (serverSetup net) events = some server) :
    ∃ own alone, OwnEvents socket events own ∧
      follow serverEvent Allowed (serverSetup net) own = some alone ∧
      Alike socket server alone := by
  have hstart : Tidy (serverSetup net) ∧ Alike socket (serverSetup net) (serverSetup net) :=
    ⟨serverSetup_tidy net, rfl, rfl, Iff.rfl, Iff.rfl⟩
  have hnil : OwnEvents socket [] [] := ⟨rfl, List.Sublist.refl _⟩
  obtain ⟨own, alone, hown, hrun', -, halike⟩ := follow_answered
    (fun server alone => Tidy server ∧ Alike socket server alone) (OwnEvents socket) hnil
    (by
      rintro server event next alone ⟨htidy, halike⟩ hallowed hmoves
      obtain ⟨own, alone', hown, halike', hanswers⟩ := halike.step htidy hallowed hmoves
      exact ⟨own, alone', hown, ⟨serverEvent_tidy htidy hallowed hmoves, halike'⟩, hanswers⟩)
    hrun hstart
  exact ⟨own, alone, hown, hrun', halike⟩

/-- Two clients, of which the second asks while the first is being served. -/
def twoClients : List Event :=
  [.accept 3 ⟨[], []⟩, .accept 4 ⟨[], []⟩, digitsRequest, .tick,
    .readable 4 tenDigits [.bytes (text "GET /a HTTP/1.1\r\n\r\n")]] ++ List.replicate 5 .tick

theorem served_alone_twoClients :
    ∃ server, follow serverEvent Allowed (serverSetup fun _ => ⟨[], []⟩) twoClients = some server ∧
      ∃ own alone, OwnEvents 4 twoClients own ∧
        follow serverEvent Allowed (serverSetup fun _ => ⟨[], []⟩) own = some alone ∧
        Alike 4 server alone := by
  have hsome : (follow serverEvent Allowed (serverSetup fun _ => ⟨[], []⟩) twoClients).isSome := by
    decide +kernel
  obtain ⟨server, hserver⟩ := Option.isSome_iff_exists.mp hsome
  exact ⟨server, hserver, served_alone 4 hserver⟩

end Runs

end Newth.Server.Isolation
