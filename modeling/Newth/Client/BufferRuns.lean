import Newth.Library.Runs
import Newth.Client.BufferFind
import Newth.Client.SearchEnds

namespace Newth.Client.BufferRuns

open Newth.Library.ByteString
open Newth.Library.Call
open Newth.Library.Chunked (crlf)
open Newth.Library.Runs
open Newth.Client.Recvbufr
open Newth.Client.BufferFind (StandsAt)
open Newth.Client.SearchEnds (Plain)

section Model

/-- The calls on a receive buffer, but for those that send a request or start a chunked body. -/
inductive BufferCall where
  | append (len : Nat)
  | clear
  | ditch (len : Nat)
  | fetch (pos len : Nat)
  | find (pos : Nat) (token : Bytes)
  | findAndDitch (token : Bytes)
  | findAndFetch (token : Bytes) (max : Nat)
  | setLengthComplete
  | setLengthKnown (length : Nat)
  | setLengthToken (token : Bytes) (length : Nat)
  | setLengthUnknown (limit : Nat)
  deriving DecidableEq, Repr

/-- What a call tells its caller. -/
inductive Reply where
  | nothing
  | status (e : Option ErrorMessage)
  | ditched (result : Except ErrorMessage Nat)
  | found (index : Option Nat)
  | fetched (result : Except ErrorMessage Bytes)

def BufferCall.run (self : RecvBuffer) : BufferCall → Except Stop (RecvBuffer × Reply)
  | .append len => do
      let (self, e) ← recvBufferAppend self len
      .ok (self, .status e)
  | .clear => .ok (recvBufferClear self, .nothing)
  | .ditch len => .ok (recvBufferDitch self len, .nothing)
  | .fetch pos len => do
      let result ← recvBufferFetch self pos len
      .ok (self, .fetched result)
  | .find pos token => do
      let index ← recvBufferFind self pos token
      .ok (self, .found index)
  | .findAndDitch token => do
      let (self, result) ← recvBufferFindAndDitch self token
      .ok (self, .ditched result)
  | .findAndFetch token max => do
      let (self, e) ← recvBufferFindAndFetch self token max
      .ok (self, .status e)
  | .setLengthComplete => .ok (recvBufferSetLengthComplete self, .nothing)
  | .setLengthKnown length => .ok (recvBufferSetLengthKnown self length, .nothing)
  | .setLengthToken token length => .ok (recvBufferSetLengthToken self token length, .nothing)
  | .setLengthUnknown limit => .ok (recvBufferSetLengthUnknown self limit, .nothing)

/-- The bytes of the connection that are still to be had. -/
def left (self : RecvBuffer) : Bytes := self.data ++ self.serverSocket.rest

/-- A call and its reply, with the place of the first byte to be had before it and after it. -/
structure Answer where
  place : Nat
  call : BufferCall
  reply : Reply
  placeAfter : Nat

/-- A receive buffer, the bytes its caller has been through and the answers so far. -/
structure Session where
  buffer : RecvBuffer
  gone : Bytes
  answers : List Answer

def step (session : Session) (call : BufferCall) : Except Stop Session := do
  let (buffer, reply) ← call.run session.buffer
  let before := left session.buffer
  let gone := session.gone ++ before.take (before.length - (left buffer).length)
  .ok ⟨buffer, gone, session.answers ++ [⟨session.gone.length, call, reply, gone.length⟩]⟩

/-- What an answer says about the bytes of the connection is so. -/
def Answer.Holds (stream : Bytes) (answer : Answer) : Prop :=
  match answer.call, answer.reply with
  | .clear, _ => True
  | .ditch len, _ => answer.placeAfter ≤ answer.place + len
  | .findAndDitch token, .ditched (.ok n) =>
      answer.placeAfter = answer.place + n ∧
        ∃ o ≤ 1, StandsAt stream token (answer.placeAfter + o)
  | .findAndDitch _, _ => True
  | .find pos token, .found (some i) =>
      answer.placeAfter = answer.place ∧ pos ≤ i ∧ StandsAt stream token (answer.place + i)
  | .fetch pos _, .fetched (.ok data) =>
      answer.placeAfter = answer.place ∧ data <+: stream.drop (answer.place + pos)
  | _, _ => answer.placeAfter = answer.place

end Model

section Found

variable {data token : Bytes} {i : Nat}

theorem standsAt_append (h : StandsAt data token i) (rest : Bytes) :
    StandsAt (data ++ rest) token i := by
  obtain ⟨hlen, hsame⟩ := h
  refine ⟨by rw [List.length_append]; omega, ?_⟩
  rw [List.drop_append_of_le_length (by omega), List.take_append_of_le_length, hsame]
  rw [List.length_drop]
  omega

theorem standsAt_behind (gone : Bytes) (h : StandsAt data token i) :
    StandsAt (gone ++ data) token (gone.length + i) := by
  obtain ⟨hlen, hsame⟩ := h
  refine ⟨by rw [List.length_append]; omega, ?_⟩
  rw [← List.drop_drop, List.drop_left, hsame]

theorem findFrom_stands {len r : Nat} {s : Bytes}
    (h : findFrom len token i s = .ok (some r)) : ∃ o, r = i + o ∧ StandsAt s token o := by
  fun_induction findFrom len token i s with
  | case1 => simp at h
  | case2 i c d rest hfirst hfits hhere =>
      obtain rfl := Option.some.inj (Except.ok.inj h)
      refine ⟨0, rfl, ?_, by rw [List.drop_zero, List.map_take, hhere]⟩
      have hlength := congrArg List.length hhere
      rw [List.length_take, List.length_map, List.length_map] at hlength
      omega
  | case3 => simp at h
  | case4 i c d rest hfirst hfits hhere hbehind ih =>
      obtain ⟨o, rfl, hstands⟩ := ih h
      refine ⟨1 + o, by omega, standsAt_behind [c] hstands⟩
  | case5 i c d rest hfirst ih =>
      obtain ⟨o, rfl, hstands⟩ := ih h
      refine ⟨1 + o, by omega, standsAt_behind [c] hstands⟩
  | case6 => simp at h

theorem recvBufferFind_stands {self : RecvBuffer} {pos i : Nat}
    (h : recvBufferFind self pos token = .ok (some i)) :
    pos ≤ i ∧ StandsAt self.data token i := by
  rw [recvBufferFind] at h
  split at h
  · simp at h
  · rename_i hinside
    split at h
    · simp at h
    · obtain ⟨found, hfrom, h⟩ := bind_eq_ok_iff.mp h
      obtain ⟨r, rfl, rfl⟩ := Option.map_eq_some_iff.mp (Except.ok.inj h)
      obtain ⟨o, rfl, hstands⟩ := findFrom_stands hfrom
      refine ⟨Nat.le_add_right _ _, ?_⟩
      have hpos : pos ≤ self.data.length := by
        by_contra hout
        exact hinside (Or.inr (Nat.not_le.mp hout))
      have hbehind := standsAt_behind (self.data.take pos) hstands
      rwa [List.take_append_drop, List.length_take, Nat.min_eq_left hpos,
        ← Nat.zero_add o] at hbehind

end Found

section Reads

variable {start self self' : RecvBuffer} {len : Nat}

theorem recv_rest {self socket : Socket} {n : Nat} {data : Option Bytes}
    (h : recv self n false = .ok (socket, data)) : data.getD [] ++ socket.rest = self.rest := by
  by_cases hrest : self.rest = []
  · obtain ⟨hflat, -⟩ := awaitByte_spec self.ready self.arrivals
    rw [show self.ready ++ self.arrivals.flatten = [] from hrest] at hflat
    obtain ⟨hready, hlater⟩ := List.append_eq_nil_iff.mp hflat
    cases hawait : awaitByte self.ready self.arrivals with
    | mk ready later =>
        rw [hawait] at hready hlater
        obtain rfl : ready = [] := hready
        simp only [recv, hawait] at h
        cases hending : self.ending with
        | idle => simp [hending] at h
        | closed =>
            simp only [hending] at h
            obtain ⟨rfl, rfl⟩ := Prod.mk.inj (Except.ok.inj h)
            exact hlater.trans hrest.symm
        | failed =>
            simp only [hending] at h
            obtain ⟨rfl, rfl⟩ := Prod.mk.inj (Except.ok.inj h)
            exact hlater.trans hrest.symm
  · obtain ⟨ready, later, -, hflat, hrecv⟩ := recv_of_rest n false hrest
    rw [hrecv] at h
    obtain ⟨rfl, rfl⟩ := Prod.mk.inj (Except.ok.inj h)
    rw [← hflat]
    simp [Socket.rest, ← List.append_assoc]

/-- Nothing has been lost, and the body is still not chunked. -/
def Keeps (start self : RecvBuffer) : Prop := left self = left start ∧ Plain self

theorem appendTurn_keeps {s : RecvBuffer × Nat}
    {turn : Turn (RecvBuffer × Nat) (RecvBuffer × Option ErrorMessage)} (hs : Keeps start s.1)
    (h : appendTurn len s = .ok turn) :
    (∀ s', turn = .again s' → Keeps start s'.1) ∧ (∀ r, turn = .leave r → Keeps start r.1) := by
  obtain ⟨self, i⟩ := s
  obtain ⟨(hleft : left self = left start), (hplain : Plain self)⟩ := hs
  rw [appendTurn] at h
  split at h
  · obtain ⟨⟨socket, data⟩, hrecv, h⟩ := bind_eq_ok_iff.mp h
    have hrest := recv_rest hrecv
    cases data with
    | none =>
        obtain rfl := Except.ok.inj h
        refine ⟨by simp, ?_⟩
        rintro _ ⟨⟩
        exact ⟨(congrArg (self.data ++ ·) hrest).trans hleft, hplain⟩
    | some data =>
        cases data with
        | nil =>
            obtain rfl := Except.ok.inj h
            refine ⟨by simp, ?_⟩
            rintro _ ⟨⟩
            exact ⟨(congrArg (self.data ++ ·) hrest).trans hleft, hplain⟩
        | cons c data =>
            have happended :
                Plain (bufferAppend { self with serverSocket := socket } (c :: data)) := hplain
            obtain ⟨mode, hmode, hafter⟩ := happended.dataIncrement (c :: data).length
            have hkeeps : Keeps start (dataIncrement
                (bufferAppend { self with serverSocket := socket } (c :: data))
                (c :: data).length).1 := by
              rw [hafter]
              refine ⟨?_, hmode⟩
              rw [← hleft, left, left, ← hrest, ← List.append_assoc]
              rfl
            simp only at h
            split at h
            · rename_i after hincrement
              rw [hincrement] at hkeeps
              obtain rfl := Except.ok.inj h
              refine ⟨by simp, ?_⟩
              rintro _ ⟨⟩
              exact hkeeps
            · rename_i after hincrement
              rw [hincrement] at hkeeps
              obtain rfl := Except.ok.inj h
              refine ⟨?_, by simp⟩
              rintro _ ⟨⟩
              exact hkeeps
  · obtain rfl := Except.ok.inj h
    refine ⟨by simp, ?_⟩
    rintro _ ⟨⟩
    exact ⟨hleft, hplain⟩

theorem recvBufferAppend_keeps {r : RecvBuffer × Option ErrorMessage} (hself : Keeps start self)
    (h : recvBufferAppend self len = .ok r) : Keeps start r.1 := by
  by_cases hmode : self.length = .complete
  · rw [recvBufferAppend, hmode] at h
    obtain rfl := Except.ok.inj h
    exact hself
  · rw [Newth.Client.SearchEnds.recvBufferAppend_plain hself.2 hmode] at h
    refine run_partial (fun s => Keeps start s.1) (fun r => Keeps start r.1) ?_ ?_ hself h
    · exact fun s s' hs hturn => (appendTurn_keeps hs hturn).1 s' rfl
    · exact fun s r hs hturn => (appendTurn_keeps hs hturn).2 r rfl

theorem fillTurn_keeps {turn : Turn RecvBuffer (RecvBuffer × Option ErrorMessage)}
    (hself : Keeps start self) (h : fillTurn len self = .ok turn) :
    (∀ self', turn = .again self' → Keeps start self') ∧
      (∀ r, turn = .leave r → Keeps start r.1) := by
  rw [fillTurn] at h
  split at h
  · obtain ⟨⟨self', e⟩, happend, h⟩ := bind_eq_ok_iff.mp h
    have hkeeps := recvBufferAppend_keeps hself happend
    obtain rfl := Except.ok.inj h
    cases e with
    | none =>
        refine ⟨?_, by simp⟩
        rintro _ ⟨⟩
        exact hkeeps
    | some e =>
        refine ⟨by simp, ?_⟩
        rintro _ ⟨⟩
        exact hkeeps
  · obtain rfl := Except.ok.inj h
    refine ⟨by simp, ?_⟩
    rintro _ ⟨⟩
    exact hself

theorem fill_keeps {fuel : Nat} {r : RecvBuffer × Option ErrorMessage} (hself : Keeps start self)
    (h : run (fillTurn len) fuel self = .ok r) : Keeps start r.1 := by
  refine run_partial (Keeps start) (fun r => Keeps start r.1) ?_ ?_ hself h
  · exact fun s s' hs hturn => (fillTurn_keeps hs hturn).1 s' rfl
  · exact fun s r hs hturn => (fillTurn_keeps hs hturn).2 r rfl

theorem fetchTurn_keeps {token : Bytes} {max : Nat}
    {turn : Turn RecvBuffer (RecvBuffer × Option ErrorMessage)}
    (hself : Keeps start self) (h : fetchTurn token max self = .ok turn) :
    (∀ self', turn = .again self' → Keeps start self') ∧
      (∀ r, turn = .leave r → Keeps start r.1) := by
  obtain ⟨found, -, h⟩ := bind_eq_ok_iff.mp h
  cases found with
  | some i =>
      obtain rfl := Except.ok.inj h
      refine ⟨by simp, ?_⟩
      rintro _ ⟨⟩
      exact hself
  | none =>
      obtain ⟨⟨self', e⟩, happend, h⟩ := bind_eq_ok_iff.mp h
      have hkeeps := recvBufferAppend_keeps hself happend
      obtain rfl := Except.ok.inj h
      constructor
      · intro self'' hagain
        split at hagain
        · simp at hagain
        · split at hagain
          · simp at hagain
          · obtain rfl := Turn.again.inj hagain
            exact hkeeps
      · intro r hleave
        split at hleave
        · obtain rfl := Turn.leave.inj hleave
          exact hkeeps
        · split at hleave
          · obtain rfl := Turn.leave.inj hleave
            exact hkeeps
          · simp at hleave

theorem recvBufferFindAndFetch_keeps {token : Bytes} {max : Nat}
    {r : RecvBuffer × Option ErrorMessage} (hself : Keeps start self)
    (h : recvBufferFindAndFetch self token max = .ok r) : Keeps start r.1 := by
  rw [recvBufferFindAndFetch] at h
  split at h
  · obtain rfl := Except.ok.inj h
    exact hself
  · obtain ⟨⟨self₁, e₁⟩, hfill, h⟩ := bind_eq_ok_iff.mp h
    have hkeeps₁ := fill_keeps hself hfill
    simp only at h
    split at h
    · obtain rfl := Except.ok.inj h
      exact hkeeps₁
    · have hmore : ∀ {self₂ : RecvBuffer} {e₂ : Option ErrorMessage}, Keeps start self₂ →
          (if e₂.isSome then .ok (self₂, e₂)
            else Library.Call.run (fetchTurn token max) (patience self₂) self₂) = .ok r →
          Keeps start r.1 := by
        intro self₂ e₂ hkeeps₂ h
        split at h
        · obtain rfl := Except.ok.inj h
          exact hkeeps₂
        · refine run_partial (Keeps start) (fun r => Keeps start r.1) ?_ ?_ hkeeps₂ h
          · exact fun s s' hs hturn => (fetchTurn_keeps hs hturn).1 s' rfl
          · exact fun s r hs hturn => (fetchTurn_keeps hs hturn).2 r rfl
      split at h
      · obtain ⟨⟨self₂, e₂⟩, happend, h⟩ := bind_eq_ok_iff.mp h
        exact hmore (recvBufferAppend_keeps hkeeps₁ happend) h
      · exact @hmore self₁ none hkeeps₁ h

end Reads

section Ditches

variable {start self : RecvBuffer} {token : Bytes}

/-- The first `d` of the bytes there were are gone, and the body is still not chunked. -/
structure Gone (start : RecvBuffer) (d : Nat) (now : RecvBuffer) : Prop where
  bound : d ≤ (left start).length
  left_eq : left now = (left start).drop d
  plain : Plain now

theorem Keeps.gone {d : Nat} {now : RecvBuffer} (h : Gone start d self) (hkeeps : Keeps self now) :
    Gone start d now :=
  ⟨h.bound, hkeeps.1.trans h.left_eq, hkeeps.2⟩

theorem Gone.ditch {d n : Nat} (h : Gone start d self) (hn : n ≤ self.len) :
    Gone start (d + n) (recvBufferDitch self n) := by
  have hlen : self.len ≤ (left start).length - d := by
    rw [← List.length_drop, ← h.left_eq, left, List.length_append]
    exact Nat.le_add_right _ _
  have hbound := h.bound
  refine ⟨by omega, ?_, ?_⟩
  · rw [← List.drop_drop, ← h.left_eq, left, left, recvBufferDitch_data,
      recvBufferDitch_serverSocket, List.drop_append_of_le_length hn]
  · intro next total
    rw [recvBufferDitch_length]
    exact h.plain next total

/-- What the search for a token has come to: where the token stands, or an error. -/
def Searched (start : RecvBuffer) (token : Bytes)
    (r : RecvBuffer × Except ErrorMessage (Nat × Nat)) : Prop :=
  ∃ d, Gone start d r.1 ∧ ∀ o d', r.2 = .ok (o, d') → d' = d ∧ StandsAt r.1.data token o

theorem ditchTurn_gone {d : Nat}
    {turn : Turn (RecvBuffer × Nat) (RecvBuffer × Except ErrorMessage (Nat × Nat))}
    (hself : Gone start d self) (h : ditchTurn token (self, d) = .ok turn) :
    (∀ s, turn = .again s → Gone start s.2 s.1) ∧
      (∀ r, turn = .leave r → Searched start token r) := by
  obtain ⟨found, hfind, h⟩ := bind_eq_ok_iff.mp h
  cases found with
  | some o =>
      obtain rfl := Except.ok.inj h
      refine ⟨by simp, ?_⟩
      rintro _ ⟨⟩
      refine ⟨d, hself, ?_⟩
      rintro _ _ ⟨⟩
      exact ⟨rfl, (recvBufferFind_stands hfind).2⟩
  | none =>
      obtain ⟨⟨now, e⟩, happend, h⟩ := bind_eq_ok_iff.mp h
      have hnow := Keeps.gone hself (recvBufferAppend_keeps ⟨rfl, hself.plain⟩ happend)
      cases e with
      | some e =>
          obtain rfl := Except.ok.inj h
          refine ⟨by simp, ?_⟩
          rintro _ ⟨⟩
          exact ⟨d, hnow, by simp⟩
      | none =>
          obtain ⟨found, hfind, h⟩ := bind_eq_ok_iff.mp h
          cases found with
          | some o =>
              obtain rfl := Except.ok.inj h
              refine ⟨by simp, ?_⟩
              rintro _ ⟨⟩
              refine ⟨d, hnow, ?_⟩
              rintro _ _ ⟨⟩
              exact ⟨rfl, (recvBufferFind_stands hfind).2⟩
          | none =>
              obtain rfl := Except.ok.inj h
              refine ⟨?_, by simp⟩
              rintro _ ⟨⟩
              exact hnow.ditch (Nat.sub_le _ _)

/-- A search that comes to its end has given up as many bytes as it says, and the token stands at
the front of what is left or one byte behind it. -/
theorem recvBufferFindAndDitch_gone {r : RecvBuffer × Except ErrorMessage Nat}
    (hplain : Plain self) (h : recvBufferFindAndDitch self token = .ok r) :
    ∃ d, Gone self d r.1 ∧
      ∀ n, r.2 = .ok n → n = d ∧ ∃ o ≤ 1, StandsAt (left r.1) token o := by
  obtain ⟨⟨self₁, e₁⟩, hfill, h⟩ := bind_eq_ok_iff.mp h
  have hstart : Gone self 0 self := ⟨Nat.zero_le _, rfl, hplain⟩
  have hgone₁ := Keeps.gone hstart (fill_keeps ⟨rfl, hplain⟩ hfill)
  cases e₁ with
  | some e =>
      obtain rfl := Except.ok.inj h
      exact ⟨0, hgone₁, by simp⟩
  | none =>
      obtain ⟨⟨self₂, found⟩, hsearch, h⟩ := bind_eq_ok_iff.mp h
      have hsearched : Searched self token (self₂, found) := by
        refine run_partial (fun s => Gone self s.2 s.1) (Searched self token) ?_ ?_ hgone₁ hsearch
        · exact fun s s' hs hturn => (ditchTurn_gone hs hturn).1 s' rfl
        · exact fun s r hs hturn => (ditchTurn_gone hs hturn).2 r rfl
      obtain ⟨d, hgone₂, hfound⟩ := hsearched
      cases found with
      | error e =>
          obtain rfl := Except.ok.inj h
          exact ⟨d, hgone₂, by simp⟩
      | ok found =>
          obtain ⟨o, d'⟩ := found
          obtain ⟨rfl, hstands⟩ := hfound o d' rfl
          simp only at h
          split at h
          · obtain rfl := Except.ok.inj h
            have hbound : o + token.length ≤ self₂.data.length := hstands.1
            have ho : o ≤ self₂.len := (Nat.le_add_right _ _).trans hbound
            refine ⟨d' + o, hgone₂.ditch ho, ?_⟩
            rintro n ⟨⟩
            refine ⟨rfl, 0, Nat.zero_le _, ?_⟩
            have hlength := List.length_drop (i := o) (l := self₂.data)
            refine standsAt_append ⟨?_, ?_⟩ _
            · rw [recvBufferDitch_data]
              omega
            · rw [recvBufferDitch_data, List.drop_zero]
              exact hstands.2
          · rename_i hfront
            obtain rfl := Except.ok.inj h
            refine ⟨d', hgone₂, ?_⟩
            rintro n ⟨⟩
            exact ⟨rfl, o, Nat.not_lt.mp hfront, standsAt_append hstands _⟩

end Ditches

section Runs

variable {session session' : Session} {stream : Bytes}

/-- Every byte is gone or still to be had, in the order it came, and every answer was true. -/
structure InOrder (stream : Bytes) (session : Session) : Prop where
  stream_eq : session.gone ++ left session.buffer = stream
  plain : Plain session.buffer
  answers : ∀ answer ∈ session.answers, answer.Holds stream

theorem run_gone {self self' : RecvBuffer} {call : BufferCall} {reply : Reply}
    (hplain : Plain self) (h : call.run self = .ok (self', reply)) :
    ∃ d, Gone self d self' ∧ ∀ gone : Bytes,
      Answer.Holds (gone ++ left self) ⟨gone.length, call, reply, gone.length + d⟩ := by
  have hstart : Gone self 0 self := ⟨Nat.zero_le _, rfl, hplain⟩
  cases call with
  | append len =>
      obtain ⟨⟨now, e⟩, happend, h⟩ := bind_eq_ok_iff.mp h
      obtain ⟨rfl, rfl⟩ := Prod.mk.inj (Except.ok.inj h)
      exact ⟨0, Keeps.gone hstart (recvBufferAppend_keeps ⟨rfl, hplain⟩ happend), fun gone => rfl⟩
  | clear =>
      obtain ⟨rfl, rfl⟩ := Prod.mk.inj (Except.ok.inj h)
      refine ⟨self.len, ⟨?_, ?_, hplain⟩, fun gone => trivial⟩
      · rw [left, List.length_append]
        exact Nat.le_add_right _ _
      · exact List.drop_left.symm
  | ditch len =>
      obtain ⟨rfl, rfl⟩ := Prod.mk.inj (Except.ok.inj h)
      refine ⟨min len self.len, ?_, fun gone => ?_⟩
      · have hditch := hstart.ditch (Nat.min_le_right len self.len)
        rw [Nat.zero_add] at hditch
        refine ⟨hditch.bound, ?_, ?_⟩
        · rw [← hditch.left_eq, left, left, recvBufferDitch_data, recvBufferDitch_data,
            recvBufferDitch_serverSocket, recvBufferDitch_serverSocket]
          by_cases hle : len ≤ self.len
          · rw [Nat.min_eq_left hle]
          · have hle := Nat.le_of_not_le hle
            rw [Nat.min_eq_right hle, show self.data.drop self.len = [] from List.drop_length,
              List.drop_eq_nil_of_le hle]
        · intro next total
          rw [recvBufferDitch_length]
          exact hplain next total
      · exact Nat.add_le_add_left (Nat.min_le_left _ _) _
  | fetch pos len =>
      obtain ⟨result, hfetch, h⟩ := bind_eq_ok_iff.mp h
      obtain ⟨rfl, rfl⟩ := Prod.mk.inj (Except.ok.inj h)
      refine ⟨0, hstart, fun gone => ?_⟩
      cases result with
      | error e => rfl
      | ok data =>
          refine ⟨rfl, ?_⟩
          have hdata : data <+: self.data.drop pos ∧ pos ≤ self.data.length := by
            rw [recvBufferFetch] at hfetch
            split at hfetch
            · split at hfetch
              · simp at hfetch
              · rename_i hpos
                refine ⟨?_, Nat.not_lt.mp hpos⟩
                split at hfetch
                · obtain rfl := Except.ok.inj (Except.ok.inj hfetch)
                  exact List.prefix_rfl
                · obtain rfl := Except.ok.inj (Except.ok.inj hfetch)
                  exact List.take_prefix _ _
            · simp at hfetch
          rw [← List.drop_drop, List.drop_left, left, List.drop_append_of_le_length hdata.2]
          exact hdata.1.trans (List.prefix_append _ _)
  | find pos token =>
      obtain ⟨index, hfind, h⟩ := bind_eq_ok_iff.mp h
      obtain ⟨rfl, rfl⟩ := Prod.mk.inj (Except.ok.inj h)
      refine ⟨0, hstart, fun gone => ?_⟩
      cases index with
      | none => rfl
      | some i =>
          obtain ⟨hle, hstands⟩ := recvBufferFind_stands hfind
          exact ⟨rfl, hle, standsAt_behind gone (standsAt_append hstands _)⟩
  | findAndDitch token =>
      obtain ⟨⟨now, result⟩, hsearch, h⟩ := bind_eq_ok_iff.mp h
      obtain ⟨rfl, rfl⟩ := Prod.mk.inj (Except.ok.inj h)
      obtain ⟨d, hgone, hfound⟩ := recvBufferFindAndDitch_gone hplain hsearch
      refine ⟨d, hgone, fun gone => ?_⟩
      cases result with
      | error e => trivial
      | ok n =>
          obtain ⟨rfl, o, ho, hstands⟩ := hfound n rfl
          refine ⟨rfl, o, ho, ?_⟩
          rw [hgone.left_eq] at hstands
          have hbehind := standsAt_behind ((left self).take n) hstands
          rw [List.take_append_drop, List.length_take, Nat.min_eq_left hgone.bound] at hbehind
          have hstream := standsAt_behind gone hbehind
          rwa [← Nat.add_assoc] at hstream
  | findAndFetch token max =>
      obtain ⟨⟨now, e⟩, hfetch, h⟩ := bind_eq_ok_iff.mp h
      obtain ⟨rfl, rfl⟩ := Prod.mk.inj (Except.ok.inj h)
      have hkeeps := recvBufferFindAndFetch_keeps ⟨rfl, hplain⟩ hfetch
      exact ⟨0, Keeps.gone hstart hkeeps, fun gone => rfl⟩
  | setLengthComplete =>
      obtain ⟨rfl, rfl⟩ := Prod.mk.inj (Except.ok.inj h)
      exact ⟨0, ⟨Nat.zero_le _, rfl, by simp [Plain, recvBufferSetLengthComplete]⟩, fun gone => rfl⟩
  | setLengthKnown length =>
      obtain ⟨rfl, rfl⟩ := Prod.mk.inj (Except.ok.inj h)
      exact ⟨0, ⟨Nat.zero_le _, rfl, by simp [Plain, recvBufferSetLengthKnown]⟩, fun gone => rfl⟩
  | setLengthToken token length =>
      obtain ⟨rfl, rfl⟩ := Prod.mk.inj (Except.ok.inj h)
      exact ⟨0, ⟨Nat.zero_le _, rfl, by simp [Plain, recvBufferSetLengthToken]⟩, fun gone => rfl⟩
  | setLengthUnknown limit =>
      obtain ⟨rfl, rfl⟩ := Prod.mk.inj (Except.ok.inj h)
      exact ⟨0, ⟨Nat.zero_le _, rfl, by simp [Plain, recvBufferSetLengthUnknown]⟩, fun gone => rfl⟩

theorem step_inOrder {call : BufferCall} (h : InOrder stream session)
    (hstep : step session call = .ok session') : InOrder stream session' := by
  obtain ⟨⟨buffer, reply⟩, hrun, hstep⟩ := bind_eq_ok_iff.mp hstep
  obtain rfl := Except.ok.inj hstep
  obtain ⟨d, hgone, hholds⟩ := run_gone h.plain hrun
  have htake : (left session.buffer).length - (left buffer).length = d := by
    have hbound := hgone.bound
    rw [hgone.left_eq, List.length_drop]
    omega
  refine ⟨?_, hgone.plain, fun answer hanswer => ?_⟩
  · simp only [htake]
    rw [List.append_assoc, hgone.left_eq, List.take_append_drop, h.stream_eq]
  · rcases List.mem_append.mp hanswer with hearlier | hnow
    · exact h.answers answer hearlier
    · obtain rfl := List.mem_singleton.mp hnow
      have hthis := hholds session.gone
      rw [h.stream_eq] at hthis
      rwa [htake, List.length_append, List.length_take, Nat.min_eq_left hgone.bound]

/-- However the calls follow one another and however the bytes arrive between them: no byte is
lost, repeated or put out of its place, and every answer is true of the bytes of the connection. -/
theorem calls_inOrder {self : RecvBuffer} (hplain : Plain self)
    (hrun : Run step (fun _ _ => True) ⟨self, [], []⟩ session) : InOrder (left self) session :=
  run_invariant (InOrder (left self)) (fun _ _ _ h _ hstep => step_inOrder h hstep) hrun
    ⟨rfl, hplain, by simp⟩

/-- A connection on which two arrivals follow what can be read at once. -/
def twoArrivals : RecvBuffer :=
  ⟨none, .unknown 0 sbDataSize, ⟨text "Hel", [text "lo\r", text "\nworld"], .closed⟩⟩

def searchAndFetch : List BufferCall := [.findAndDitch crlf, .fetch 2 4, .ditch 3]

theorem calls_inOrder_twoArrivals :
    ∃ session, follow step (fun _ _ => True) ⟨twoArrivals, [], []⟩ searchAndFetch = some session ∧
      session.gone = text "Hello\r\nw" ∧ InOrder (left twoArrivals) session := by
  have hgone : (follow step (fun _ _ => True) ⟨twoArrivals, [], []⟩ searchAndFetch).map
      Session.gone = some (text "Hello\r\nw") := by decide +kernel
  obtain ⟨session, hfollow, hgone⟩ := Option.map_eq_some_iff.mp hgone
  have hplain : Plain twoArrivals := by simp [Plain, twoArrivals]
  exact ⟨session, hfollow, hgone, calls_inOrder hplain (run_of_follow hfollow)⟩

end Runs

end Newth.Client.BufferRuns
