import Newth.Client.Recvbufr
import Newth.Server.Sendbufr

namespace Newth.Client.Send

open Newth.Library.ByteString
open Newth.Library.Call
open Newth.Client.Recvbufr
open Newth.Server.Sendbufr (SendResult)

/-- How a socket takes the sends behind those that are listed. -/
inductive OutletEnding where
  | takesAll
  | blocks
  | fails
  deriving DecidableEq, Repr

/-- The sending side of a socket: how it answers the sends still to come. -/
structure Outlet where
  sends : List SendResult
  ending : OutletEnding
  deriving DecidableEq, Repr

/-- Both sides of a descriptor that has been closed. -/
def Outlet.closed : Outlet := ⟨[], .fails⟩

def closedSocket : Socket := ⟨[], [], .failed⟩

/-- What comes of closing the socket and connecting a new one: `refused` is a new socket that
`recvBufferConnect` gives a message about, and `noSocket` leaves the closed one in place. -/
inductive Reconnect where
  | connected (socket : Socket) (outlet : Outlet)
  | refused (socket : Socket) (outlet : Outlet)
  | noSocket
  deriving DecidableEq, Repr

/-- A receive buffer with the sending side of its socket, what has been sent on that socket
in the call that runs, and what will come of reconnecting. -/
structure Sending where
  self : RecvBuffer
  outlet : Outlet
  accepted : Bytes
  reconnects : List Reconnect
  deriving DecidableEq, Repr

section Model

def recvBufferReconnect (s : Sending) : Sending × Option ErrorMessage :=
  match s.reconnects with
  | .connected socket outlet :: rest =>
      (⟨{ s.self with serverSocket := socket }, outlet, [], rest⟩, none)
  | .refused socket outlet :: rest =>
      (⟨{ s.self with serverSocket := socket }, outlet, [], rest⟩, some .socketError)
  | .noSocket :: rest =>
      (⟨{ s.self with serverSocket := closedSocket }, .closed, s.accepted, rest⟩,
        some .socketError)
  | [] =>
      (⟨{ s.self with serverSocket := closedSocket }, .closed, s.accepted, []⟩, some .socketError)

/-- The loop at `recvBufferSend_keepSending`: the counter `sent` when all is sent, or when
`send` has failed. -/
def keepSending (data : Bytes) (s : Sending) : List SendResult → Bytes → Nat →
    Except Stop (Sending × Nat × Bool)
  | [], accepted, sent =>
      let s := { s with outlet := { s.outlet with sends := [] } }
      match s.outlet.ending with
      | .takesAll => .ok ({ s with accepted := accepted ++ data.drop sent }, data.length, true)
      | .blocks => .error .endless
      | .fails => .ok ({ s with accepted := accepted }, sent, false)
  | .wouldBlock :: sends, accepted, sent => keepSending data s sends accepted sent
  | .fails :: sends, accepted, sent =>
      .ok ({ s with outlet := { s.outlet with sends := sends }, accepted := accepted }, sent, false)
  | .accepts m :: sends, accepted, sent =>
      let accepted := accepted ++ (data.drop sent).take m
      let sent := sent + min m (data.length - sent)
      if sent = data.length then
        .ok ({ s with outlet := { s.outlet with sends := sends }, accepted := accepted }, sent, true)
      else keepSending data s sends accepted sent

/-- One attempt: send what is left of the data, then look for a byte of the reply. The flag says
that there is one; otherwise `sent` is what the next attempt starts from. -/
def attempt (data : Bytes) (s : Sending) (sent : Nat) : Except Stop (Sending × Nat × Bool) := do
  let (s, sent, whole) ← keepSending data s s.outlet.sends s.accepted sent
  if whole then
    let (socket, reply) ← recv s.self.serverSocket sbDataSize true
    let s := { s with self := { s.self with serverSocket := socket } }
    match reply with
    | some (_ :: _) => .ok (s, sent, true)
    | _ => .ok (s, 0, false)
  else .ok (s, sent, false)

/-- The attempts from `recvBufferSend_reattempt` on, with so many left behind this one; `e` is
what the last reconnect came back with. -/
def attempts (data : Bytes) : Nat → Option ErrorMessage → Sending → Nat →
    Except Stop (Sending × Option ErrorMessage)
  | left, e, s, sent => do
      let (s, sent, replied) ← attempt data s sent
      if replied then .ok (s, none)
      else
        match left with
        | 0 => .ok (s, e)
        | left + 1 =>
            let (s, e) := recvBufferReconnect s
            attempts data left e s sent

/-- What `recvBufferSend` does before its first attempt: a connection with a response that has
not been read to its end is given up. -/
def prepare (s : Sending) : Sending :=
  let s :=
    match s.self.length with
    | .unknown _ _ | .complete => s
    | _ =>
        let s := (recvBufferReconnect s).1
        { s with self := recvBufferClear s.self }
  { s with self := recvBufferSetLengthUnknown s.self sbDataSize }

def recvBufferSend (s : Sending) (data : Bytes) : Except Stop (Sending × Option ErrorMessage) :=
  attempts data 2 none (prepare { s with accepted := [] }) 0

end Model

section Attempts

/-- How an outlet takes `left` bytes: all of them, or up to a failure, or never all. -/
inductive SendEnd where
  | whole
  | breaks (left : Nat)
  | hangs
  deriving DecidableEq, Repr

def sendEnd (ending : OutletEnding) : List SendResult → Nat → SendEnd
  | [], left =>
      match ending with
      | .takesAll => .whole
      | .blocks => .hangs
      | .fails => .breaks left
  | .fails :: _, left => .breaks left
  | result :: sends, left =>
      if left ≤ result.sent then .whole else sendEnd ending sends (left - result.sent)

theorem keepSending_spec {data : Bytes} {s : Sending} (sends : List SendResult) (accepted : Bytes)
    {sent : Nat} (hsent : sent < data.length) :
    match sendEnd s.outlet.ending sends (data.length - sent) with
    | .hangs => keepSending data s sends accepted sent = .error .endless
    | .breaks left => 0 < left ∧ left ≤ data.length - sent ∧ ∃ s', s'.self = s.self ∧
        s'.reconnects = s.reconnects ∧
        s'.accepted.length + left = accepted.length + (data.length - sent) ∧
        keepSending data s sends accepted sent = .ok (s', data.length - left, false)
    | .whole => ∃ s', s'.self = s.self ∧ s'.reconnects = s.reconnects ∧
        s'.accepted = accepted ++ data.drop sent ∧
        keepSending data s sends accepted sent = .ok (s', data.length, true) := by
  induction sends generalizing accepted sent with
  | nil =>
      simp only [sendEnd, keepSending]
      cases s.outlet.ending with
      | takesAll =>
          exact ⟨⟨s.self, ⟨[], .takesAll⟩, accepted ++ data.drop sent, s.reconnects⟩,
            rfl, rfl, rfl, rfl⟩
      | blocks => rfl
      | fails =>
          refine ⟨by omega, le_rfl, ⟨s.self, ⟨[], .fails⟩, accepted, s.reconnects⟩, rfl, rfl,
            rfl, ?_⟩
          rw [Nat.sub_sub_self hsent.le]
  | cons result sends ih =>
      cases result with
      | wouldBlock =>
          have hfew : ¬ data.length - sent ≤ SendResult.wouldBlock.sent := by
            simp only [SendResult.sent]
            omega
          simp only [sendEnd, keepSending, if_neg hfew]
          exact ih accepted hsent
      | fails =>
          simp only [sendEnd, keepSending]
          refine ⟨by omega, le_rfl, ⟨s.self, ⟨sends, s.outlet.ending⟩, accepted, s.reconnects⟩,
            rfl, rfl, rfl, ?_⟩
          rw [Nat.sub_sub_self hsent.le]
      | accepts m =>
          by_cases hall : data.length - sent ≤ m
          · have hend : sendEnd s.outlet.ending (.accepts m :: sends) (data.length - sent) =
                .whole := if_pos hall
            have hcount : sent + min m (data.length - sent) = data.length := by omega
            have htake : (data.drop sent).take m = data.drop sent := by
              rw [List.take_of_length_le]
              rwa [List.length_drop]
            simp only [hend, keepSending, hcount, htake, if_true]
            exact ⟨⟨s.self, ⟨sends, s.outlet.ending⟩, accepted ++ data.drop sent, s.reconnects⟩,
              rfl, rfl, rfl, rfl⟩
          · have hend : sendEnd s.outlet.ending (.accepts m :: sends) (data.length - sent) =
                sendEnd s.outlet.ending sends (data.length - sent - m) := if_neg hall
            have hcount : sent + min m (data.length - sent) = sent + m := by omega
            have hmore : sent + m < data.length := by omega
            have hsplit : accepted ++ (data.drop sent).take m ++ data.drop (sent + m) =
                accepted ++ data.drop sent := by
              rw [List.append_assoc, ← List.drop_drop, List.take_append_drop]
            have hrest := ih (accepted ++ (data.drop sent).take m) hmore
            rw [hsplit] at hrest
            simp only [hend, keepSending, hcount, if_neg hmore.ne, Nat.sub_sub]
            split at hrest
            · exact hrest
            · obtain ⟨hpos, hle, s', hself, hsame, hcount', hbreaks⟩ := hrest
              refine ⟨hpos, by omega, s', hself, hsame, ?_, hbreaks⟩
              rw [hcount', List.length_append, List.length_take, List.length_drop]
              omega
            · exact hrest

/-- The call comes back, and when it comes back with no message, all of the data stands on the
socket and a byte of the reply can be read. -/
def SendsWhole (data : Bytes) (outcome : Except Stop (Sending × Option ErrorMessage)) : Prop :=
  ∃ s e, outcome = .ok (s, e) ∧
    (e = none → s.accepted = data ∧ s.self.serverSocket.ready ≠ [])

/-- What comes of the next reconnect: whether it succeeds, and the socket it leaves. -/
def nextLine : List Reconnect → Bool × Socket × Outlet × List Reconnect
  | .connected socket outlet :: rest => (true, socket, outlet, rest)
  | .refused socket outlet :: rest => (false, socket, outlet, rest)
  | .noSocket :: rest => (false, closedSocket, .closed, rest)
  | [] => (false, closedSocket, .closed, [])

/-- The condition on an attempt that starts with so many of `n` bytes counted as sent: one that
gets its reply has to start from the first byte, and `again` is the condition on what follows
one that fails. -/
def AttemptMeets (n sent : Nat) (socket : Socket) (outlet : Outlet) (again : Nat → Prop) : Prop :=
  match sendEnd outlet.ending outlet.sends (n - sent) with
  | .hangs => False
  | .breaks unsent => again (n - unsent)
  | .whole =>
      if socket.rest ≠ [] then sent = 0
      else if socket.ending = .idle then False
      else again 0

/-- The condition on the attempts from one on that has so many behind it; `connected` says how
the reconnect before it went. The last attempt may fail only when that reconnect had failed. -/
def Meets (n : Nat) : Nat → Bool → Nat → Socket → Outlet → List Reconnect → Prop
  | 0, connected, sent, socket, outlet, _ =>
      AttemptMeets n sent socket outlet fun _ => connected = false
  | left + 1, _, sent, socket, outlet, reconnects =>
      AttemptMeets n sent socket outlet fun sent =>
        let (connected, socket, outlet, reconnects) := nextLine reconnects
        Meets n left connected sent socket outlet reconnects

/-- The peek behind the last send sees a byte of the reply, or the end of a connection that
brings none, or waits for ever. -/
theorem peek_spec (socket : Socket) :
    if socket.rest ≠ [] then
      ∃ c reply socket', socket'.ready ≠ [] ∧
        recv socket sbDataSize true = .ok (socket', some (c :: reply))
    else if socket.ending = .idle then recv socket sbDataSize true = .error .endless
    else ∃ socket' reply, socket'.ready = [] ∧
      recv socket sbDataSize true = .ok (socket', reply) ∧
      ∀ c rest, reply ≠ some (c :: rest) := by
  split
  · rename_i hrest
    obtain ⟨ready, later, hready, -, hrecv⟩ := recv_of_rest sbDataSize true hrest
    obtain ⟨c, ready, rfl⟩ := List.exists_cons_of_ne_nil hready
    refine ⟨c, ready.take 8191, ⟨c :: ready, later, socket.ending⟩, by simp, ?_⟩
    rw [hrecv]
    rfl
  · rename_i hnone
    have hdone : (awaitByte socket.ready socket.arrivals).1 = [] := by
      have hflat := (awaitByte_spec socket.ready socket.arrivals).1
      have hempty : socket.ready ++ socket.arrivals.flatten = [] := not_not.mp hnone
      rw [hempty] at hflat
      exact (List.append_eq_nil_iff.mp hflat).1
    obtain ⟨later, hawait⟩ : ∃ later, awaitByte socket.ready socket.arrivals = ([], later) :=
      ⟨_, Prod.ext hdone rfl⟩
    cases hending : socket.ending with
    | idle => simp [recv, hawait, hending]
    | closed =>
        rw [if_neg (by simp)]
        exact ⟨⟨[], later, socket.ending⟩, some [], rfl, by simp [recv, hawait, hending], by simp⟩
    | failed =>
        rw [if_neg (by simp)]
        exact ⟨⟨[], later, socket.ending⟩, none, rfl, by simp [recv, hawait, hending], by simp⟩

/-- Where an attempt leaves the call: the flag, and what the next attempt starts from. -/
theorem attempt_spec {data : Bytes} {s : Sending} {sent : Nat} (hsent : sent < data.length) :
    match sendEnd s.outlet.ending s.outlet.sends (data.length - sent) with
    | .hangs => attempt data s sent = .error .endless
    | .breaks left => 0 < left ∧ left ≤ data.length - sent ∧ ∃ s', s'.reconnects = s.reconnects ∧
        s'.accepted.length + left = s.accepted.length + (data.length - sent) ∧
        attempt data s sent = .ok (s', data.length - left, false)
    | .whole =>
        if s.self.serverSocket.rest ≠ [] then
          ∃ s', s'.accepted = s.accepted ++ data.drop sent ∧ s'.self.serverSocket.ready ≠ [] ∧
            attempt data s sent = .ok (s', data.length, true)
        else if s.self.serverSocket.ending = .idle then attempt data s sent = .error .endless
        else ∃ s', s'.reconnects = s.reconnects ∧ s'.self.serverSocket.ready = [] ∧
          attempt data s sent = .ok (s', 0, false) := by
  have hsends := keepSending_spec (s := s) s.outlet.sends s.accepted hsent
  split at hsends
  · rw [attempt, hsends]
    rfl
  · obtain ⟨hpos, hle, s', -, hsame, hcount, hkeep⟩ := hsends
    refine ⟨hpos, hle, s', hsame, hcount, ?_⟩
    rw [attempt, hkeep]
    rfl
  · obtain ⟨s', hself, hsame, haccepted, hkeep⟩ := hsends
    have hpeek := peek_spec s.self.serverSocket
    rw [attempt, hkeep]
    simp only [ok_bind, if_true, hself]
    split
    · rename_i hrest
      rw [if_pos hrest] at hpeek
      obtain ⟨c, reply, socket, hready, hrecv⟩ := hpeek
      rw [hrecv]
      exact ⟨⟨{ s.self with serverSocket := socket }, s'.outlet, s'.accepted, s'.reconnects⟩,
        haccepted, hready, rfl⟩
    · rename_i hnone
      rw [if_neg hnone] at hpeek
      split
      · rename_i hidle
        rw [if_pos hidle] at hpeek
        rw [hpeek]
        rfl
      · rename_i hends
        rw [if_neg hends] at hpeek
        obtain ⟨socket, reply, hready, hrecv, hnot⟩ := hpeek
        rw [hrecv]
        refine ⟨⟨{ s.self with serverSocket := socket }, s'.outlet, s'.accepted, s'.reconnects⟩,
          hsame, hready, ?_⟩
        rcases reply with _ | _ | ⟨c, rest⟩
        · rfl
        · rfl
        · exact absurd rfl (hnot c rest)

/-- Before an attempt nothing has been sent on the socket, or it is closed. -/
def Unused (connected : Bool) (s : Sending) : Prop :=
  s.accepted = [] ∨ (connected = false ∧ s.outlet = .closed)

theorem recvBufferReconnect_line {s : Sending} {connected : Bool} {socket : Socket}
    {outlet : Outlet} {rest : List Reconnect}
    (h : nextLine s.reconnects = (connected, socket, outlet, rest)) :
    ∃ s', recvBufferReconnect s = (s', if connected then none else some .socketError) ∧
      s'.self.serverSocket = socket ∧ s'.outlet = outlet ∧ s'.reconnects = rest ∧
      Unused connected s' := by
  rw [recvBufferReconnect]
  cases hnext : s.reconnects with
  | nil =>
      rw [hnext] at h
      obtain ⟨rfl, rfl, rfl, rfl⟩ := h
      exact ⟨_, rfl, rfl, rfl, rfl, .inr ⟨rfl, rfl⟩⟩
  | cons answer later =>
      rw [hnext] at h
      cases answer with
      | connected socket' outlet' =>
          obtain ⟨rfl, rfl, rfl, rfl⟩ := h
          exact ⟨_, rfl, rfl, rfl, rfl, .inl rfl⟩
      | refused socket' outlet' =>
          obtain ⟨rfl, rfl, rfl, rfl⟩ := h
          exact ⟨_, rfl, rfl, rfl, rfl, .inl rfl⟩
      | noSocket =>
          obtain ⟨rfl, rfl, rfl, rfl⟩ := h
          exact ⟨_, rfl, rfl, rfl, rfl, .inr ⟨rfl, rfl⟩⟩

/-- What an attempt that fails leaves behind when no other follows. -/
def Unsent (data : Bytes) (s : Sending) : Prop :=
  s.accepted.length < data.length ∨ s.self.serverSocket.ready = []

theorem sendsWhole_giveUp_iff {data : Bytes} {connected : Bool} {s : Sending}
    (hunsent : connected = true → Unsent data s) :
    SendsWhole data (.ok (s, if connected then none else some .socketError)) ↔
      connected = false := by
  cases connected with
  | false => exact ⟨fun _ => rfl, fun _ => ⟨s, _, rfl, by simp⟩⟩
  | true =>
      simp only [Bool.true_eq_false, iff_false]
      rintro ⟨s', e, hsame, hwhole⟩
      obtain ⟨rfl, rfl⟩ := Prod.mk.inj (Except.ok.inj hsame)
      obtain ⟨haccepted, hready⟩ := hwhole rfl
      rcases hunsent rfl with hshort | hnone
      · rw [haccepted] at hshort
        omega
      · exact hready hnone

theorem sendsWhole_replied_iff {data accepted : Bytes} {s : Sending} {sent : Nat}
    (hsent : sent < data.length) (hstart : accepted = [])
    (haccepted : s.accepted = accepted ++ data.drop sent)
    (hready : s.self.serverSocket.ready ≠ []) : SendsWhole data (.ok (s, none)) ↔ sent = 0 := by
  constructor
  · rintro ⟨s', e, hsame, hwhole⟩
    obtain ⟨rfl, rfl⟩ := Prod.mk.inj (Except.ok.inj hsame)
    have hlength := congrArg List.length (hwhole rfl).1
    rw [haccepted, hstart, List.nil_append, List.length_drop] at hlength
    omega
  · rintro rfl
    refine ⟨s, none, rfl, fun _ => ⟨?_, hready⟩⟩
    rw [haccepted, hstart, List.nil_append, List.drop_zero]

/-- What follows an attempt that fails. -/
def retry (data : Bytes) (left : Nat) (e : Option ErrorMessage) (s : Sending) (sent : Nat) :
    Except Stop (Sending × Option ErrorMessage) :=
  match left with
  | 0 => .ok (s, e)
  | left + 1 => attempts data left (recvBufferReconnect s).2 (recvBufferReconnect s).1 sent

theorem attempts_eq (data : Bytes) (left : Nat) (e : Option ErrorMessage) (s : Sending)
    (sent : Nat) :
    attempts data left e s sent = (attempt data s sent).bind fun r =>
      if r.2.2 then .ok (r.1, none) else retry data left e r.1 r.2.1 := by
  cases left with
  | zero => rfl
  | succ left => rfl

theorem attempts_iff_of_retry {data : Bytes} {left : Nat} {connected : Bool} {s : Sending}
    {sent : Nat} (hsent : sent < data.length) (hunused : Unused connected s) {again : Nat → Prop}
    (hagain : ∀ s' next, next < data.length → s'.reconnects = s.reconnects →
      (connected = true → Unsent data s') →
      (SendsWhole data (retry data left (if connected then none else some .socketError) s' next) ↔
        again next)) :
    SendsWhole data (attempts data left (if connected then none else some .socketError) s sent) ↔
      AttemptMeets data.length sent s.self.serverSocket s.outlet again := by
  have hendless : ¬ SendsWhole data (.error .endless) := by
    rintro ⟨s', e, h, -⟩
    simp at h
  have hattempt := attempt_spec (s := s) hsent
  rw [attempts_eq, AttemptMeets]
  split at hattempt
  · rw [hattempt]
    exact iff_of_false hendless id
  · rename_i unsent _
    obtain ⟨hpos, hle, s', hsame, hcount, hfails⟩ := hattempt
    have hnext : data.length - unsent < data.length := by omega
    rw [hfails]
    refine hagain s' _ hnext hsame ?_
    intro hconnected
    left
    rcases hunused with hnew | ⟨hfailed, -⟩
    · rw [hnew, List.length_nil] at hcount
      omega
    · simp [hconnected] at hfailed
  · rename_i hend
    split at hattempt
    · rename_i hrest
      obtain ⟨s', haccepted, hready, hreplied⟩ := hattempt
      rw [hreplied, if_pos hrest]
      have hnew : s.accepted = [] := by
        rcases hunused with hnew | ⟨-, hclosed⟩
        · exact hnew
        · simp [hclosed, Outlet.closed, sendEnd] at hend
      exact sendsWhole_replied_iff hsent hnew haccepted hready
    · rename_i hnone
      rw [if_neg hnone]
      split at hattempt
      · rename_i hidle
        rw [hattempt, if_pos hidle]
        exact iff_of_false hendless id
      · rename_i hends
        obtain ⟨s', hsame, hready, hfails⟩ := hattempt
        rw [hfails, if_neg hends]
        exact hagain s' 0 (by omega) hsame fun _ => .inr hready

theorem attempts_sendsWhole_iff {data : Bytes} (left : Nat) (connected : Bool) {s : Sending}
    {sent : Nat} (hsent : sent < data.length) (hunused : Unused connected s) :
    SendsWhole data (attempts data left (if connected then none else some .socketError) s sent) ↔
      Meets data.length left connected sent s.self.serverSocket s.outlet s.reconnects := by
  induction left generalizing connected s sent with
  | zero =>
      rw [Meets]
      refine attempts_iff_of_retry hsent hunused ?_
      intro s' next hnext hsame hunsent
      exact sendsWhole_giveUp_iff hunsent
  | succ left ih =>
      rw [Meets]
      refine attempts_iff_of_retry hsent hunused ?_
      intro s' next hnext hsame _
      obtain ⟨line, hline⟩ : ∃ line, nextLine s.reconnects = line := ⟨_, rfl⟩
      obtain ⟨again, socket, outlet, rest⟩ := line
      rw [← hsame] at hline
      obtain ⟨s'', hreconnect, hsocket, houtlet, hrest, hunused'⟩ := recvBufferReconnect_line hline
      have hmeets := ih again hnext hunused'
      rw [hsocket, houtlet, hrest] at hmeets
      rw [hsame] at hline
      simp only [retry, hreconnect, hline]
      exact hmeets

end Attempts

theorem prepare_accepted {s : Sending} (h : s.accepted = []) : (prepare s).accepted = [] := by
  have hreconnect : (recvBufferReconnect s).1.accepted = [] := by
    rw [recvBufferReconnect]
    split <;> simp [h]
  simp only [prepare]
  split
  · exact h
  · exact h
  · exact hreconnect

/-- A send gets the whole request onto the connection, or reports that it could not, exactly when
the attempt that gets its reply starts from the first byte, a third failure comes with the
message of a failed reconnect, and no socket blocks for ever. -/
theorem recvBufferSend_whole_iff {data : Bytes} (hdata : 0 < data.length) (s : Sending) :
    SendsWhole data (recvBufferSend s data) ↔
      let start := prepare { s with accepted := [] }
      Meets data.length 2 true 0 start.self.serverSocket start.outlet start.reconnects :=
  attempts_sendsWhole_iff 2 true hdata (.inl (prepare_accepted rfl))

/-- A receive buffer that has read its last response to the end, on a socket that is answered. -/
def answered (sends : List SendResult) (reconnects : List Reconnect) : Sending :=
  ⟨⟨none, .complete, ⟨text "HTTP", [], .idle⟩⟩, ⟨sends, .takesAll⟩, [], reconnects⟩

theorem recvBufferSend_whole_once :
    SendsWhole (text "GET / HTTP/1.1") (recvBufferSend (answered [.accepts 3, .wouldBlock] [])
        (text "GET / HTTP/1.1")) ↔
      let start := prepare { answered [.accepts 3, .wouldBlock] [] with accepted := [] }
      Meets (text "GET / HTTP/1.1").length 2 true 0 start.self.serverSocket start.outlet
        start.reconnects :=
  recvBufferSend_whole_iff (by decide) (answered [.accepts 3, .wouldBlock] [])

/-- A send that fails behind three bytes goes on with the fourth on the new connection, and a
third failure behind a reconnect that succeeded is no failure. -/
theorem recvBufferSend_part_sent :
    (¬ SendsWhole (text "GET / HTTP/1.1") (recvBufferSend
        (answered [.accepts 3, .fails] [.connected ⟨text "HTTP", [], .idle⟩ ⟨[], .takesAll⟩])
        (text "GET / HTTP/1.1"))) ∧
      ¬ SendsWhole (text "GET / HTTP/1.1") (recvBufferSend
        (answered [.fails] [.connected ⟨[], [], .closed⟩ ⟨[], .takesAll⟩,
          .connected ⟨[], [], .closed⟩ ⟨[], .takesAll⟩]) (text "GET / HTTP/1.1")) := by
  constructor
  · rintro ⟨s, e, hsame, hwhole⟩
    obtain ⟨rfl, rfl⟩ := Prod.mk.inj (Except.ok.inj hsame)
    exact absurd (hwhole rfl).1 (by decide)
  · rintro ⟨s, e, hsame, hwhole⟩
    obtain ⟨rfl, rfl⟩ := Prod.mk.inj (Except.ok.inj hsame)
    exact absurd (hwhole rfl).2 (by decide)

end Newth.Client.Send
