import Newth.Library.ByteString
import Newth.Library.Call

namespace Newth.Server.Sendbufr

open Newth.Library.ByteString
open Newth.Library.Call

/-- `SB_DATA_SIZE`, which is `BUFSIZ`. -/
def sbDataSize : Nat := 8192

/-- The temporary file behind `platformMemoryStreamNew`; all of its writes are accepted. -/
structure MemoryStream where
  data : Bytes
  pos : Nat
  deriving DecidableEq, Repr

namespace MemoryStream

def new : MemoryStream := ⟨[], 0⟩

def seekSet (stream : MemoryStream) (offset : Nat) : MemoryStream := { stream with pos := offset }

def seekEnd (stream : MemoryStream) : MemoryStream := { stream with pos := stream.data.length }

def seekBack (stream : MemoryStream) (offset : Nat) : MemoryStream :=
  { stream with pos := stream.pos - offset }

def read (stream : MemoryStream) (max : Nat) : MemoryStream × Bytes :=
  let block := (stream.data.drop stream.pos).take max
  ({ stream with pos := stream.pos + block.length }, block)

def write (stream : MemoryStream) (bytes : Bytes) : MemoryStream :=
  { data := stream.data.take stream.pos ++ bytes ++ stream.data.drop (stream.pos + bytes.length)
    pos := stream.pos + bytes.length }

end MemoryStream

/-- What one `send` does: accept a prefix of at most so many bytes, ask to try
again, or fail for good. -/
inductive SendResult where
  | accepts (n : Nat)
  | wouldBlock
  | fails
  deriving DecidableEq, Repr

def SendResult.sent : SendResult → Nat
  | .accepts n => n
  | _ => 0

/-- The kernel's side of a client socket: what it has accepted, and how it takes
the sends still to come. Once the list is used up it accepts everything. -/
structure Channel where
  accepted : Bytes
  sends : List SendResult
  deriving DecidableEq, Repr

def Channel.send (channel : Channel) (data : Bytes) : Channel × SendResult :=
  match channel.sends with
  | [] => ({ channel with accepted := channel.accepted ++ data }, .accepts data.length)
  | .accepts n :: rest =>
      ({ accepted := channel.accepted ++ data.take n, sends := rest },
        .accepts (min n data.length))
  | result :: rest => ({ channel with sends := rest }, result)

structure SendBuffer where
  idx : Nat
  buffer : Option MemoryStream
  clientSocket : Nat
  options : UInt8
  deriving DecidableEq, Repr

/-- `SOC_BUF_ERR_FULL` and `SOC_BUF_ERR_FAIL`. -/
def errFull : UInt8 := 4

def errFail : UInt8 := 8

def SendBuffer.has (self : SendBuffer) (option : UInt8) : Bool := self.options &&& option != 0

/-- A send buffer together with the socket it writes to. -/
structure Link where
  self : SendBuffer
  channel : Channel
  deriving DecidableEq, Repr

def sendBufferNew (clientSocket : Nat) (options : UInt8) : SendBuffer :=
  { idx := 0, buffer := none, clientSocket := clientSocket, options := options }

/-- The loop variables of `sendBufferFlush`; `stream` is `self->buffer`. -/
structure Flushing where
  link : Link
  stream : MemoryStream
  bytesFlushed : Nat

def flushTurn (s : Flushing) : Except Stop (Turn Flushing (Link × Nat)) :=
  let (stream, data) := s.stream.read sbDataSize
  if data = [] then
    .ok (.leave
      ({ s.link with self := { s.link.self with buffer := none, idx := 0 } }, s.bytesFlushed))
  else
    match s.link.channel.send data with
    | (channel, .wouldBlock) =>
        .ok (.leave (⟨{ s.link.self with buffer := some stream }, channel⟩, s.bytesFlushed))
    | (channel, .fails) =>
        .ok (.leave
          (⟨{ s.link.self with buffer := some stream, options := errFail }, channel⟩, 0))
    | (channel, .accepts flush) =>
        let self := { s.link.self with idx := s.link.self.idx + flush }
        if flush < data.length then
          .ok (.leave (⟨{ self with buffer := some (stream.seekBack (data.length - flush)) },
            channel⟩, s.bytesFlushed + flush))
        else
          .ok (.again ⟨⟨self, channel⟩, stream, s.bytesFlushed + flush⟩)

/-- The fuel is never used up: `flush_ends`. -/
def sendBufferFlush (link : Link) : Link × Nat :=
  match link.self.buffer with
  | none => (link, 0)
  | some stream =>
      let start : Flushing := ⟨link, stream.seekSet link.self.idx, 0⟩
      match run flushTurn (stream.data.length + 1) start with
      | .ok result => result
      | .error _ => (link, 0)

def sendBufferWriteData (link : Link) (data : Bytes) : Link × Nat :=
  match link.self.buffer with
  | some stream =>
      ({ link with self := { link.self with buffer := some (stream.seekEnd.write data) } },
        data.length)
  | none =>
      match link.channel.send data with
      | (channel, .fails) => (⟨{ link.self with options := errFail }, channel⟩, 0)
      | (channel, result) =>
          let bytesSent := result.sent
          if bytesSent < data.length then
            (⟨{ link.self with buffer := some (MemoryStream.new.write (data.drop bytesSent)) },
              channel⟩, data.length)
          else (⟨link.self, channel⟩, bytesSent)

def sendBufferWriteText (link : Link) (data : Bytes) : Link × Nat :=
  sendBufferWriteData link (cString data)

/-- What a format and its arguments print, and the size of the block `sendBufferPrintf`
prints it into when nothing is buffered. -/
structure Message where
  max : Nat
  text : Bytes
  deriving DecidableEq, Repr

/-- The block is taken to be large enough. -/
def sendBufferPrintf (link : Link) (message : Message) : Link :=
  match link.self.buffer with
  | none => (sendBufferWriteText link message.text).1
  | some stream =>
      { link with self :=
          { link.self with buffer := some (stream.seekEnd.write message.text) } }

/-- What waits in the memory stream from `idx` on. -/
def Link.pending (link : Link) : Bytes :=
  match link.self.buffer with
  | none => []
  | some stream => stream.data.drop link.self.idx

/-- Everything written so far, whether accepted or waiting. -/
def Link.carried (link : Link) : Bytes := link.channel.accepted ++ link.pending

/-- A memory stream is kept only while something in it waits. -/
def SendBuffer.Coherent (self : SendBuffer) : Prop :=
  match self.buffer with
  | none => self.idx = 0
  | some stream => self.idx < stream.data.length

/-- A coherent send buffer on a socket without a fatal error to come. -/
structure Link.Sound (link : Link) : Prop where
  coherent : link.self.Coherent
  lasting : SendResult.fails ∉ link.channel.sends

/-- A send buffer seen from outside: how many bytes wait, and how the socket will
answer. -/
structure Backlog where
  sends : List SendResult
  waiting : Nat
  deriving DecidableEq, Repr

/-- One direct send if nothing waits, otherwise none. -/
def Backlog.write (b : Backlog) (n : Nat) : Backlog :=
  if b.waiting ≠ 0 then { b with waiting := b.waiting + n }
  else ⟨b.sends.tail, n - b.sends.head?.elim n SendResult.sent⟩

/-- Block after block is offered, up to the first that is not taken whole. -/
def flushAnswers : List SendResult → Nat → Backlog
  | [], _ => ⟨[], 0⟩
  | result :: rest, n =>
      if n = 0 then ⟨result :: rest, 0⟩
      else if result.sent < min sbDataSize n then ⟨rest, n - result.sent⟩
      else flushAnswers rest (n - min sbDataSize n)

def Backlog.flush (b : Backlog) : Backlog := flushAnswers b.sends b.waiting

def Link.backlog (link : Link) : Backlog := ⟨link.channel.sends, link.pending.length⟩

/-- `link'` is `link` with `bytes` written to it. -/
structure Writes (bytes : Bytes) (link link' : Link) : Prop where
  carried : link'.carried = link.carried ++ bytes
  sound : link'.Sound
  clientSocket : link'.self.clientSocket = link.self.clientSocket
  options : link'.self.options = link.self.options

theorem Writes.refl {link : Link} (h : link.Sound) : Writes [] link link :=
  ⟨by simp, h, rfl, rfl⟩

theorem Writes.trans {a b : Bytes} {link link' link'' : Link} (h : Writes a link link')
    (h' : Writes b link' link'') : Writes (a ++ b) link link'' := by
  refine ⟨?_, h'.sound, h'.clientSocket.trans h.clientSocket, h'.options.trans h.options⟩
  rw [h'.carried, h.carried, List.append_assoc]

theorem pending_eq_nil_iff {link : Link} (h : link.self.Coherent) :
    link.pending = [] ↔ link.self.buffer = none := by
  rw [SendBuffer.Coherent] at h
  rw [Link.pending]
  cases hbuffer : link.self.buffer with
  | none => simp
  | some stream =>
      simp only [hbuffer] at h
      simpa using h

theorem send_spec {channel channel' : Channel} {data : Bytes} {result : SendResult}
    (h : channel.send data = (channel', result)) :
    channel'.accepted = channel.accepted ++ data.take result.sent ∧
      channel'.sends = channel.sends.tail ∧
      result.sent = channel.sends.head?.elim data.length (fun r => min r.sent data.length) ∧
      (result = .fails → SendResult.fails ∈ channel.sends) := by
  rw [Channel.send] at h
  split at h
  · rename_i hsends
    obtain ⟨rfl, rfl⟩ := Prod.mk.inj h
    simp [hsends, SendResult.sent]
  · rename_i n rest hsends
    obtain ⟨rfl, rfl⟩ := Prod.mk.inj h
    simp [hsends, SendResult.sent, ← List.take_eq_take_min]
  · rename_i result rest hnot hsends
    obtain ⟨rfl, rfl⟩ := Prod.mk.inj h
    have hsent : result.sent = 0 := by
      cases result with
      | accepts n => exact (hnot n rfl).elim
      | wouldBlock => rfl
      | fails => rfl
    refine ⟨by simp [hsent], by simp [hsends], by simp [hsends, hsent], ?_⟩
    rintro rfl
    simp [hsends]

theorem send_sent_le {channel channel' : Channel} {data : Bytes} {result : SendResult}
    (h : channel.send data = (channel', result)) : result.sent ≤ data.length := by
  rw [(send_spec h).2.2.1]
  cases channel.sends with
  | nil => simp
  | cons r rest => exact Nat.min_le_right _ _

theorem fails_notMem_tail {sends : List SendResult} (h : SendResult.fails ∉ sends) :
    SendResult.fails ∉ sends.tail := fun hmem => h (List.mem_of_mem_tail hmem)

@[simp]
theorem write_seekEnd_data (stream : MemoryStream) (bytes : Bytes) :
    (stream.seekEnd.write bytes).data = stream.data ++ bytes := by
  simp [MemoryStream.seekEnd, MemoryStream.write]

@[simp]
theorem write_new_data (bytes : Bytes) : (MemoryStream.new.write bytes).data = bytes := by
  simp [MemoryStream.new, MemoryStream.write]

theorem append_writes {link : Link} (h : link.Sound) {stream : MemoryStream}
    (hbuffer : link.self.buffer = some stream) (bytes : Bytes) :
    Writes bytes link
      { link with self := { link.self with buffer := some (stream.seekEnd.write bytes) } } := by
  have hidx : link.self.idx < stream.data.length := by
    have := h.coherent
    simpa only [SendBuffer.Coherent, hbuffer] using this
  refine ⟨?_, ⟨?_, h.lasting⟩, rfl, rfl⟩
  · simp only [Link.carried, Link.pending, hbuffer, write_seekEnd_data, List.append_assoc]
    rw [List.drop_append_of_le_length hidx.le]
  · simp only [SendBuffer.Coherent, write_seekEnd_data, List.length_append]
    omega

theorem sendBufferWriteData_writes {link : Link} (h : link.Sound) (data : Bytes) :
    Writes data link (sendBufferWriteData link data).1 ∧
      (sendBufferWriteData link data).2 = data.length := by
  rw [sendBufferWriteData]
  cases hbuffer : link.self.buffer with
  | some stream => exact ⟨append_writes h hbuffer data, rfl⟩
  | none =>
      have hidx : link.self.idx = 0 := by
        have := h.coherent
        simpa only [SendBuffer.Coherent, hbuffer] using this
      obtain ⟨⟨channel, result⟩, hsend⟩ : ∃ r, link.channel.send data = r := ⟨_, rfl⟩
      obtain ⟨haccepted, htail, hsent, hfails⟩ := send_spec hsend
      have hlasting : SendResult.fails ∉ channel.sends := htail ▸ fails_notMem_tail h.lasting
      have hcarried : link.carried = link.channel.accepted := by
        simp [Link.carried, Link.pending, hbuffer]
      simp only [hsend]
      split
      · rename_i channel' heq
        obtain ⟨rfl, rfl⟩ := Prod.mk.inj heq
        exact absurd (hfails rfl) h.lasting
      · rename_i channel' result' hnot heq
        obtain ⟨rfl, rfl⟩ := Prod.mk.inj heq
        split
        · refine ⟨⟨?_, ⟨?_, hlasting⟩, rfl, rfl⟩, rfl⟩
          · rw [hcarried]
            simp [Link.carried, Link.pending, hidx, haccepted]
          · simp only [SendBuffer.Coherent, write_new_data, hidx, List.length_drop]
            omega
        · rename_i hall
          have hle := send_sent_le hsend
          refine ⟨⟨?_, ⟨h.coherent, hlasting⟩, rfl, rfl⟩, by omega⟩
          rw [hcarried]
          simp [Link.carried, Link.pending, hbuffer, haccepted,
            List.take_of_length_le (Nat.not_lt.mp hall)]

theorem sendBufferWriteData_backlog {link : Link} (h : link.Sound) (data : Bytes) :
    (sendBufferWriteData link data).1.backlog = link.backlog.write data.length := by
  have hcoherent := h.coherent
  rw [SendBuffer.Coherent] at hcoherent
  rw [sendBufferWriteData]
  cases hbuffer : link.self.buffer with
  | some stream =>
      simp only [hbuffer] at hcoherent
      have hwaiting : link.pending.length = stream.data.length - link.self.idx := by
        simp [Link.pending, hbuffer]
      rw [Backlog.write, if_pos (by simp only [Link.backlog]; omega)]
      simp only [Link.backlog, Link.pending, hbuffer, write_seekEnd_data, List.length_drop,
        List.length_append, Backlog.mk.injEq, true_and]
      omega
  | none =>
      simp only [hbuffer] at hcoherent
      have hwaiting : link.pending.length = 0 := by simp [Link.pending, hbuffer]
      rw [Backlog.write, if_neg (by simp only [Link.backlog]; omega)]
      obtain ⟨channel, result, hsend⟩ :
          ∃ channel result, link.channel.send data = (channel, result) := ⟨_, _, rfl⟩
      obtain ⟨-, htail, hsent, hfails⟩ := send_spec hsend
      have hleft : data.length - result.sent =
          data.length - link.channel.sends.head?.elim data.length SendResult.sent := by
        rw [hsent]
        cases link.channel.sends with
        | nil => rfl
        | cons r rest =>
            simp only [List.head?_cons, Option.elim_some]
            omega
      simp only [hsend]
      split
      · rename_i channel' heq
        obtain ⟨rfl, rfl⟩ := Prod.mk.inj heq
        exact absurd (hfails rfl) h.lasting
      · rename_i channel' result' hnot heq
        obtain ⟨rfl, rfl⟩ := Prod.mk.inj heq
        split
        · simp [Link.backlog, Link.pending, hcoherent, htail, hleft]
        · simp only [Link.backlog, Link.pending, hbuffer, htail, ← hleft, List.length_nil,
            Backlog.mk.injEq, true_and]
          omega

theorem sendBufferWriteText_writes {link : Link} (h : link.Sound) (data : Bytes) :
    Writes (cString data) link (sendBufferWriteText link data).1 ∧
      (sendBufferWriteText link data).2 = (cString data).length :=
  sendBufferWriteData_writes h (cString data)

theorem sendBufferPrintf_writes {link : Link} (h : link.Sound) (message : Message)
    (htext : (0 : UInt8) ∉ message.text) :
    Writes message.text link (sendBufferPrintf link message) := by
  rw [sendBufferPrintf]
  cases hbuffer : link.self.buffer with
  | some stream => exact append_writes h hbuffer message.text
  | none =>
      have := (sendBufferWriteText_writes h message.text).1
      rwa [cString_eq_self htext] at this

@[simp]
theorem flushAnswers_zero (sends : List SendResult) : flushAnswers sends 0 = ⟨sends, 0⟩ := by
  cases sends with
  | nil => rfl
  | cons result rest => simp [flushAnswers]

theorem flushAnswers_waiting_le (sends : List SendResult) (n : Nat) :
    (flushAnswers sends n).waiting ≤ n := by
  induction sends generalizing n with
  | nil => exact Nat.zero_le n
  | cons result rest ih =>
      rw [flushAnswers]
      split
      · exact Nat.zero_le n
      · split
        · exact Nat.sub_le n _
        · exact (ih _).trans (Nat.sub_le n _)

theorem flushAnswers_block {sends : List SendResult} {n sent : Nat} (hn : 0 < n)
    (hsent : sent = sends.head?.elim (min sbDataSize n) (fun r => min r.sent (min sbDataSize n))) :
    flushAnswers sends n =
      if sent < min sbDataSize n then ⟨sends.tail, n - sent⟩
      else flushAnswers sends.tail (n - sent) := by
  cases sends with
  | nil =>
      simp only [List.head?_nil, Option.elim_none] at hsent
      simp [hsent, flushAnswers]
  | cons result rest =>
      simp only [List.head?_cons, Option.elim_some] at hsent
      rw [flushAnswers, if_neg (by omega), List.tail_cons]
      by_cases hshort : result.sent < min sbDataSize n
      · obtain rfl : sent = result.sent := by omega
        rw [if_pos hshort, if_pos hshort]
      · obtain rfl : sent = min sbDataSize n := by omega
        rw [if_neg hshort, if_neg (Nat.lt_irrefl _)]

theorem flushTurn_cases {s : Flushing} (h : SendResult.fails ∉ s.link.channel.sends) :
    (s.stream.data.drop s.stream.pos = [] ∧
        flushTurn s = .ok (.leave
          ({ s.link with self := { s.link.self with buffer := none, idx := 0 } },
            s.bytesFlushed))) ∨
      ∃ channel n,
        channel.accepted = s.link.channel.accepted ++ (s.stream.data.drop s.stream.pos).take n ∧
        SendResult.fails ∉ channel.sends ∧
        ((∃ stream, stream.data = s.stream.data ∧ s.stream.pos + n < s.stream.data.length ∧
            flushAnswers s.link.channel.sends (s.stream.data.length - s.stream.pos)
              = ⟨channel.sends, s.stream.data.length - (s.stream.pos + n)⟩ ∧
            flushTurn s = .ok (.leave
              (⟨{ s.link.self with idx := s.link.self.idx + n, buffer := some stream }, channel⟩,
                s.bytesFlushed + n))) ∨
          (0 < n ∧ s.stream.pos + n ≤ s.stream.data.length ∧
            flushAnswers s.link.channel.sends (s.stream.data.length - s.stream.pos)
              = flushAnswers channel.sends (s.stream.data.length - (s.stream.pos + n)) ∧
            flushTurn s = .ok (.again
              ⟨⟨{ s.link.self with idx := s.link.self.idx + n }, channel⟩,
                { s.stream with pos := s.stream.pos + n }, s.bytesFlushed + n⟩))) := by
  obtain ⟨rest, hrest⟩ : ∃ rest, s.stream.data.drop s.stream.pos = rest := ⟨_, rfl⟩
  have hlength : rest.length = s.stream.data.length - s.stream.pos := by
    rw [← hrest, List.length_drop]
  have hread : s.stream.read sbDataSize =
      ({ s.stream with pos := s.stream.pos + (rest.take sbDataSize).length },
        rest.take sbDataSize) := by
    rw [MemoryStream.read, hrest]
  rw [hrest]
  simp only [flushTurn, hread]
  by_cases hnil : rest = []
  · subst hnil
    simp
  · right
    have hlong : 0 < rest.length := List.length_pos_of_ne_nil hnil
    have hblock : (rest.take sbDataSize).length = min sbDataSize rest.length := List.length_take
    have hpositive : 0 < sbDataSize := by decide
    have hne : rest.take sbDataSize ≠ [] := List.ne_nil_of_length_pos (by omega)
    obtain ⟨channel, result, hsend⟩ :
        ∃ channel result, s.link.channel.send (rest.take sbDataSize) = (channel, result) :=
      ⟨_, _, rfl⟩
    obtain ⟨haccepted, htail, hsent, hfails⟩ := send_spec hsend
    have hle := send_sent_le hsend
    have hanswers := flushAnswers_block hlong (hblock ▸ hsent)
    rw [← hblock, ← htail] at hanswers
    obtain ⟨pos, hpos⟩ : ∃ pos, s.stream.pos + (rest.take sbDataSize).length = pos := ⟨_, rfl⟩
    rw [if_neg hne, hsend, hpos]
    rw [List.take_take, Nat.min_eq_left (hle.trans (List.length_take_le _ _))] at haccepted
    refine ⟨channel, result.sent, haccepted, htail ▸ fails_notMem_tail h, ?_⟩
    rw [Nat.sub_add_eq, ← hlength]
    cases result with
    | fails => exact absurd (hfails rfl) h
    | wouldBlock =>
        left
        simp only [SendResult.sent] at hanswers ⊢
        have hblocked : 0 < (rest.take sbDataSize).length := by omega
        simp only [hblocked, if_true] at hanswers
        exact ⟨⟨s.stream.data, pos⟩, rfl, by omega, hanswers, rfl⟩
    | accepts n =>
        simp only [SendResult.sent] at hanswers hle ⊢
        split
        · rename_i hshort
          left
          simp only [hshort, if_true] at hanswers
          exact ⟨MemoryStream.seekBack ⟨s.stream.data, pos⟩ _, rfl, by omega, hanswers, rfl⟩
        · rename_i hwhole
          right
          obtain rfl : n = (rest.take sbDataSize).length := by omega
          simp only [Nat.lt_irrefl, if_false] at hanswers
          exact ⟨by omega, by omega, hanswers, by rw [hpos]⟩

/-- What holds each time round the loop of `sendBufferFlush`, compared with the
link it was called on. -/
structure FlushInvariant (link : Link) (s : Flushing) : Prop where
  carried : s.link.channel.accepted ++ s.stream.data.drop s.stream.pos = link.carried
  pos : s.stream.pos = s.link.self.idx
  bound : s.stream.pos ≤ s.stream.data.length
  lasting : SendResult.fails ∉ s.link.channel.sends
  clientSocket : s.link.self.clientSocket = link.self.clientSocket
  options : s.link.self.options = link.self.options
  flushed : s.link.channel.accepted.length = link.channel.accepted.length + s.bytesFlushed
  answers : flushAnswers s.link.channel.sends (s.stream.data.length - s.stream.pos)
    = link.backlog.flush

/-- What `sendBufferFlush` hands back. -/
structure Flushed (link : Link) (result : Link × Nat) : Prop where
  writes : Writes [] link result.1
  flushed : result.1.channel.accepted.length = link.channel.accepted.length + result.2
  backlog : result.1.backlog = link.backlog.flush

theorem flushTurn_advances {link : Link} {s : Flushing} (hs : FlushInvariant link s) :
    ∃ turn, flushTurn s = .ok turn ∧
      Advances (FlushInvariant link) (fun s => s.stream.data.length - s.stream.pos)
        (Flushed link) s turn := by
  have hpos := hs.pos
  have hanswers := hs.answers
  rcases flushTurn_cases hs.lasting with ⟨hdone, hturn⟩ | ⟨channel, n, haccepted, hlasting, hsome⟩
  · have hend : s.stream.data.length - s.stream.pos = 0 := by
      rw [← List.length_drop, hdone, List.length_nil]
    refine ⟨_, hturn, ⟨⟨?_, ⟨rfl, hs.lasting⟩, hs.clientSocket, hs.options⟩, hs.flushed, ?_⟩⟩
    · rw [List.append_nil, ← hs.carried, hdone]
      rfl
    · rw [← hanswers, hend, flushAnswers_zero]
      rfl
  · have hmoves : channel.accepted ++ s.stream.data.drop (s.stream.pos + n) = link.carried := by
      rw [haccepted, ← hs.carried, ← List.drop_drop, List.append_assoc, List.take_append_drop]
    have hcount : n ≤ s.stream.data.length - s.stream.pos →
        channel.accepted.length = link.channel.accepted.length + (s.bytesFlushed + n) := by
      intro hn
      rw [haccepted, List.length_append, List.length_take, List.length_drop, hs.flushed]
      omega
    rcases hsome with ⟨stream, hstream, hshort, hstops, hturn⟩ | ⟨hn, hfit, hgoes, hturn⟩
    · refine ⟨_, hturn, ⟨⟨?_, ⟨?_, hlasting⟩, hs.clientSocket, hs.options⟩, hcount (by omega), ?_⟩⟩
      · simp only [Link.carried, Link.pending, hstream, List.append_nil, ← hpos]
        exact hmoves
      · simp only [SendBuffer.Coherent, hstream]
        omega
      · rw [← hanswers, hstops]
        simp only [Link.backlog, Link.pending, hstream, List.length_drop, hpos]
    · refine ⟨_, hturn, ⟨hmoves, ?_, hfit, hlasting, hs.clientSocket, hs.options,
        hcount (by omega), ?_⟩, ?_⟩
      · simp only [hpos]
      · simp only [← hanswers, hgoes]
      · simp only
        omega

/-- A flush always comes back, and moves bytes from the memory stream to the socket
without changing their order. -/
theorem flush_ends {link : Link} (h : link.Sound) {stream : MemoryStream}
    (hbuffer : link.self.buffer = some stream) :
    ∃ result, run flushTurn (stream.data.length + 1)
        ⟨link, stream.seekSet link.self.idx, 0⟩ = .ok result ∧ Flushed link result := by
  have hidx : link.self.idx < stream.data.length := by
    have := h.coherent
    simpa only [SendBuffer.Coherent, hbuffer] using this
  refine run_total _ _ (fun s => flushTurn_advances) ?_ ?_
  · refine ⟨?_, rfl, hidx.le, h.lasting, rfl, rfl, rfl, ?_⟩
    · simp only [MemoryStream.seekSet, Link.carried, Link.pending, hbuffer]
    · simp only [MemoryStream.seekSet, Backlog.flush, Link.backlog, Link.pending, hbuffer,
        List.length_drop]
  · simp only [MemoryStream.seekSet]
    omega

theorem sendBufferFlush_flushed {link : Link} (h : link.Sound) :
    Flushed link (sendBufferFlush link) := by
  rw [sendBufferFlush]
  cases hbuffer : link.self.buffer with
  | none =>
      refine ⟨Writes.refl h, rfl, ?_⟩
      simp [Link.backlog, Link.pending, hbuffer, Backlog.flush]
  | some stream =>
      obtain ⟨result, hrun, hflushed⟩ := flush_ends h hbuffer
      simp only [hrun]
      exact hflushed

@[simp]
theorem sendBufferWriteData_clientSocket (link : Link) (data : Bytes) :
    (sendBufferWriteData link data).1.self.clientSocket = link.self.clientSocket := by
  rw [sendBufferWriteData]
  split
  · rfl
  · split
    · rfl
    · simp only
      split <;> rfl

theorem flushTurn_clientSocket {s : Flushing} {turn : Turn Flushing (Link × Nat)}
    (h : flushTurn s = .ok turn) :
    match turn with
    | .again s' => s'.link.self.clientSocket = s.link.self.clientSocket
    | .leave result => result.1.self.clientSocket = s.link.self.clientSocket := by
  simp only [flushTurn] at h
  split at h
  · obtain rfl := Except.ok.inj h
    rfl
  · split at h
    · obtain rfl := Except.ok.inj h
      rfl
    · obtain rfl := Except.ok.inj h
      rfl
    · split at h
      · obtain rfl := Except.ok.inj h
        rfl
      · obtain rfl := Except.ok.inj h
        rfl

@[simp]
theorem sendBufferWriteText_clientSocket (link : Link) (data : Bytes) :
    (sendBufferWriteText link data).1.self.clientSocket = link.self.clientSocket :=
  sendBufferWriteData_clientSocket link (cString data)

@[simp]
theorem sendBufferPrintf_clientSocket (link : Link) (message : Message) :
    (sendBufferPrintf link message).self.clientSocket = link.self.clientSocket := by
  rw [sendBufferPrintf]
  split
  · exact sendBufferWriteText_clientSocket link message.text
  · rfl

@[simp]
theorem sendBufferFlush_clientSocket (link : Link) :
    (sendBufferFlush link).1.self.clientSocket = link.self.clientSocket := by
  rw [sendBufferFlush]
  split
  · rfl
  · simp only
    split
    · rename_i result hrun
      refine run_partial (fun s => s.link.self.clientSocket = link.self.clientSocket)
        (fun r => r.1.self.clientSocket = link.self.clientSocket) ?_ ?_ rfl hrun
      · intro s s' hs hturn
        exact (flushTurn_clientSocket hturn).trans hs
      · intro s r hs hturn
        exact (flushTurn_clientSocket hturn).trans hs
    · rfl

section Failure

/-- What holds each time round the loop of `sendBufferFlush`, whatever `send` does. -/
structure FlushKeeps (link : Link) (s : Flushing) : Prop where
  carried : s.link.channel.accepted ++ s.stream.data.drop s.stream.pos = link.carried
  pos : s.stream.pos = s.link.self.idx
  options : s.link.self.options = link.self.options

/-- A flush that may meet a fatal error: nothing is lost, and the error is on record. -/
structure FlushReports (link : Link) (result : Link × Nat) : Prop where
  coherent : result.1.self.Coherent
  carried : result.1.carried = link.carried
  options : result.1.self.options = link.self.options ∨
    (result.1.self.options = errFail ∧ result.2 = 0)

theorem flushTurn_keeps {link : Link} {s : Flushing} (hs : FlushKeeps link s)
    {turn : Turn Flushing (Link × Nat)} (h : flushTurn s = .ok turn) :
    match turn with
    | .again s' => FlushKeeps link s'
    | .leave result => FlushReports link result := by
  obtain ⟨rest, hrest⟩ : ∃ rest, s.stream.data.drop s.stream.pos = rest := ⟨_, rfl⟩
  have hlength : rest.length = s.stream.data.length - s.stream.pos := by
    rw [← hrest, List.length_drop]
  have hcarried := hs.carried
  have hpos := hs.pos
  rw [hrest] at hcarried
  simp only [flushTurn, MemoryStream.read, hrest] at h
  split at h
  · rename_i hnil
    obtain rfl := Except.ok.inj h
    have hdone : rest = [] := by
      simpa [sbDataSize] using hnil
    refine ⟨rfl, ?_, .inl hs.options⟩
    simpa [Link.carried, Link.pending, hdone] using hcarried
  · rename_i hsome
    have hlong : 0 < rest.length := by
      apply List.length_pos_of_ne_nil
      rintro rfl
      simp at hsome
    obtain ⟨channel, result, hsend⟩ :
        ∃ channel result, s.link.channel.send (rest.take sbDataSize) = (channel, result) :=
      ⟨_, _, rfl⟩
    obtain ⟨haccepted, -, -, -⟩ := send_spec hsend
    have hle := send_sent_le hsend
    rw [List.take_take, Nat.min_eq_left (hle.trans (List.length_take_le _ _))] at haccepted
    have hmoves : channel.accepted ++ s.stream.data.drop (s.stream.pos + result.sent)
        = link.carried := by
      rw [haccepted, ← hcarried, ← List.drop_drop, hrest, List.append_assoc,
        List.take_append_drop]
    rw [hsend] at h
    have hblock : (rest.take sbDataSize).length ≤ rest.length := List.length_take_le' _ _
    cases result with
    | fails =>
        obtain rfl := Except.ok.inj h
        refine ⟨?_, ?_, .inr ⟨rfl, rfl⟩⟩
        · simp only [SendBuffer.Coherent]
          omega
        · simpa [Link.carried, Link.pending, ← hpos, SendResult.sent] using hmoves
    | wouldBlock =>
        obtain rfl := Except.ok.inj h
        refine ⟨?_, ?_, .inl hs.options⟩
        · simp only [SendBuffer.Coherent]
          omega
        · simpa [Link.carried, Link.pending, ← hpos, SendResult.sent] using hmoves
    | accepts n =>
        simp only [SendResult.sent] at hmoves hle
        simp only at h
        split at h
        · obtain rfl := Except.ok.inj h
          refine ⟨?_, ?_, .inl hs.options⟩
          · simp only [SendBuffer.Coherent, MemoryStream.seekBack]
            omega
          · simpa [Link.carried, Link.pending, ← hpos, MemoryStream.seekBack] using hmoves
        · obtain rfl := Except.ok.inj h
          have hwhole : n = (rest.take sbDataSize).length := by omega
          rw [hwhole] at hmoves
          exact ⟨hmoves, by simp only [hpos, hwhole], hs.options⟩

theorem sendBufferFlush_reports {link : Link} (h : link.self.Coherent) :
    FlushReports link (sendBufferFlush link) := by
  have hsame : FlushReports link (link, 0) := ⟨h, rfl, .inl rfl⟩
  rw [sendBufferFlush]
  split
  · exact hsame
  · rename_i stream hbuffer
    simp only
    split
    · rename_i result hrun
      refine run_partial (FlushKeeps link) (FlushReports link) ?_ ?_ ?_ hrun
      · intro s s' hs hturn
        exact flushTurn_keeps hs hturn
      · intro s r hs hturn
        exact flushTurn_keeps hs hturn
      · refine ⟨?_, rfl, rfl⟩
        simp only [MemoryStream.seekSet, Link.carried, Link.pending, hbuffer]
    · exact hsame

theorem sendBufferWriteData_reports {link : Link} (h : link.self.Coherent) (data : Bytes) :
    (sendBufferWriteData link data).1.self.Coherent ∧
      (((sendBufferWriteData link data).1.carried = link.carried ++ data ∧
          (sendBufferWriteData link data).1.self.options = link.self.options ∧
          (sendBufferWriteData link data).2 = data.length) ∨
        ((sendBufferWriteData link data).1.carried = link.carried ∧
          (sendBufferWriteData link data).1.self.options = errFail ∧
          (sendBufferWriteData link data).2 = 0)) := by
  rw [sendBufferWriteData]
  cases hbuffer : link.self.buffer with
  | some stream =>
      have hidx : link.self.idx < stream.data.length := by
        simpa only [SendBuffer.Coherent, hbuffer] using h
      refine ⟨?_, .inl ⟨?_, rfl, rfl⟩⟩
      · simp only [SendBuffer.Coherent, write_seekEnd_data, List.length_append]
        omega
      · simp only [Link.carried, Link.pending, hbuffer, write_seekEnd_data, List.append_assoc]
        rw [List.drop_append_of_le_length hidx.le]
  | none =>
      have hidx : link.self.idx = 0 := by simpa only [SendBuffer.Coherent, hbuffer] using h
      obtain ⟨channel, result, hsend⟩ :
          ∃ channel result, link.channel.send data = (channel, result) := ⟨_, _, rfl⟩
      obtain ⟨haccepted, -, -, -⟩ := send_spec hsend
      have hle := send_sent_le hsend
      have hcarried : link.carried = link.channel.accepted := by
        simp [Link.carried, Link.pending, hbuffer]
      simp only [hsend]
      split
      · rename_i channel' heq
        obtain ⟨rfl, rfl⟩ := Prod.mk.inj heq
        refine ⟨?_, .inr ⟨?_, rfl, rfl⟩⟩
        · simpa only [SendBuffer.Coherent, hbuffer] using hidx
        · rw [hcarried]
          simp [Link.carried, Link.pending, hbuffer, haccepted, SendResult.sent]
      · rename_i channel' result' hnot heq
        obtain ⟨rfl, rfl⟩ := Prod.mk.inj heq
        split
        · refine ⟨?_, .inl ⟨?_, rfl, rfl⟩⟩
          · simp only [SendBuffer.Coherent, write_new_data, hidx, List.length_drop]
            omega
          · rw [hcarried]
            simp [Link.carried, Link.pending, hidx, haccepted]
        · rename_i hall
          refine ⟨h, .inl ⟨?_, rfl, by omega⟩⟩
          rw [hcarried]
          simp [Link.carried, Link.pending, hbuffer, haccepted,
            List.take_of_length_le (Nat.not_lt.mp hall)]

theorem sendBufferPrintf_coherent {link : Link} (h : link.self.Coherent) (message : Message) :
    (sendBufferPrintf link message).self.Coherent := by
  rw [sendBufferPrintf]
  cases hbuffer : link.self.buffer with
  | none => exact (sendBufferWriteData_reports h (cString message.text)).1
  | some stream =>
      have hidx : link.self.idx < stream.data.length := by
        simpa only [SendBuffer.Coherent, hbuffer] using h
      simp only [SendBuffer.Coherent, write_seekEnd_data, List.length_append]
      omega

theorem sendBufferFlush_drains {link : Link} (h : link.self.Coherent)
    (hsends : link.channel.sends = []) :
    (sendBufferFlush link).1.self.buffer = none ∧
      (link.self.buffer.isSome = true → (sendBufferFlush link).2 ≠ 0) := by
  have hsound : link.Sound := ⟨h, by simp [hsends]⟩
  obtain ⟨hwrites, hflushed, hbacklog⟩ := sendBufferFlush_flushed hsound
  have hdrained : (sendBufferFlush link).1.pending = [] := by
    have hwaiting := congrArg Backlog.waiting hbacklog
    simpa only [Link.backlog, Backlog.flush, hsends, flushAnswers, List.length_eq_zero_iff]
      using hwaiting
  refine ⟨(pending_eq_nil_iff hwrites.sound.coherent).mp hdrained, ?_⟩
  intro hbuffer hzero
  have hcarried := congrArg List.length hwrites.carried
  simp only [Link.carried, hdrained, List.append_nil, List.length_append, hflushed, hzero]
    at hcarried
  have hempty : link.pending = [] := List.eq_nil_of_length_eq_zero (by omega)
  simp [(pending_eq_nil_iff h).mp hempty] at hbuffer

theorem sendBufferFlush_eq_zero_iff {link : Link} (h : link.Sound)
    (hbuffer : link.self.buffer.isSome = true) :
    (sendBufferFlush link).2 = 0 ↔ ∃ answer ∈ link.channel.sends.head?, answer.sent = 0 := by
  obtain ⟨hwrites, hflushed, hbacklog⟩ := sendBufferFlush_flushed h
  have hcarried := congrArg List.length hwrites.carried
  simp only [Link.carried, List.append_nil, List.length_append, hflushed] at hcarried
  have hwaiting := congrArg Backlog.waiting hbacklog
  have hpending : 0 < link.pending.length := by
    apply List.length_pos_of_ne_nil
    intro hnil
    simp [(pending_eq_nil_iff h.coherent).mp hnil] at hbuffer
  have hblock : 0 < min sbDataSize link.pending.length := by
    have hsmall : 0 < sbDataSize := by decide
    omega
  simp only [Link.backlog, Backlog.flush] at hwaiting
  cases hsends : link.channel.sends with
  | nil =>
      simp only [hsends, flushAnswers] at hwaiting
      simp
      omega
  | cons answer rest =>
      have hrest : (flushAnswers rest (link.pending.length - min sbDataSize link.pending.length)).waiting
          ≤ link.pending.length - min sbDataSize link.pending.length := flushAnswers_waiting_le _ _
      rw [hsends, flushAnswers, if_neg (by omega)] at hwaiting
      simp only [List.head?_cons, Option.mem_some_iff, exists_eq_left']
      split at hwaiting
      · simp only at hwaiting
        omega
      · omega

end Failure

/-- The calls made on one send buffer. No format of the program prints a NUL. -/
inductive Call where
  | writeData (data : Bytes)
  | writeText (data : Bytes)
  | printf (message : Message) (textual : (0 : UInt8) ∉ message.text)
  | flush

def Call.written : Call → Bytes
  | .writeData data => data
  | .writeText data => cString data
  | .printf message _ => message.text
  | .flush => []

def Call.perform (link : Link) : Call → Link
  | .writeData data => (sendBufferWriteData link data).1
  | .writeText data => (sendBufferWriteText link data).1
  | .printf message _ => sendBufferPrintf link message
  | .flush => (sendBufferFlush link).1

theorem perform_writes {link : Link} (h : link.Sound) (call : Call) :
    Writes call.written link (call.perform link) := by
  cases call with
  | writeData data => exact (sendBufferWriteData_writes h data).1
  | writeText data => exact (sendBufferWriteText_writes h data).1
  | printf message textual => exact sendBufferPrintf_writes h message textual
  | flush => exact (sendBufferFlush_flushed h).writes

theorem calls_writes {link : Link} (h : link.Sound) (calls : List Call) :
    Writes (calls.flatMap Call.written) link (calls.foldl Call.perform link) := by
  induction calls generalizing link with
  | nil => exact Writes.refl h
  | cons call calls ih =>
      have hfirst := perform_writes h call
      exact hfirst.trans (ih hfirst.sound)

/-- The send buffer is a lossless queue. -/
theorem sendBuffer_lossless (clientSocket : Nat) (options : UInt8) {sends : List SendResult}
    (hsends : SendResult.fails ∉ sends) (calls : List Call) :
    let link := calls.foldl Call.perform ⟨sendBufferNew clientSocket options, ⟨[], sends⟩⟩
    link.channel.accepted ++ link.pending = calls.flatMap Call.written ∧
      (link.self.buffer = none → link.channel.accepted = calls.flatMap Call.written) := by
  intro link
  have hnew : Link.Sound ⟨sendBufferNew clientSocket options, ⟨[], sends⟩⟩ := ⟨rfl, hsends⟩
  have hwrites : Writes (calls.flatMap Call.written) _ link := calls_writes hnew calls
  have hcarried : link.channel.accepted ++ link.pending = calls.flatMap Call.written :=
    hwrites.carried
  refine ⟨hcarried, ?_⟩
  intro hnone
  rw [← hcarried, (pending_eq_nil_iff hwrites.sound.coherent).mpr hnone, List.append_nil]

theorem sendBuffer_lossless_hello :
    let link := [Call.writeText (text "hello"), .flush, .writeData (text "!"), .flush].foldl
      Call.perform ⟨sendBufferNew 3 0, ⟨[], [.accepts 2, .wouldBlock, .accepts 1]⟩⟩
    link.channel.accepted ++ link.pending = text "hello!" ∧
      (link.self.buffer = none → link.channel.accepted = text "hello!") :=
  sendBuffer_lossless 3 0 (by decide)
    [.writeText (text "hello"), .flush, .writeData (text "!"), .flush]

end Newth.Server.Sendbufr
