import Newth.Library.Call
import Newth.Library.Chunked
import Newth.Platform.FindString

namespace Newth.Client.Recvbufr

open Newth.Library.ByteString
open Newth.Library.Call
open Newth.Library.Chunked
open Newth.Platform.FindString

section Sockets

/-- How a connection goes on once everything the remote sent has arrived. -/
inductive Ending where
  | idle
  | closed
  | failed
  deriving DecidableEq, Repr

/-- A connection: the bytes that can be read now, and what arrives by each later
poll, an empty arrival for a poll that finds nothing new. -/
structure Socket where
  ready : Bytes
  arrivals : List Bytes
  ending : Ending
  deriving DecidableEq, Repr

def Socket.rest (self : Socket) : Bytes := self.ready ++ self.arrivals.flatten

/-- Poll until there is a byte to read or nothing arrives any more. -/
def awaitByte : Bytes → List Bytes → Bytes × List Bytes
  | ready, [] => (ready, [])
  | ready, arrival :: later =>
      if ready ++ arrival = [] then awaitByte [] later else (ready ++ arrival, later)

/-- `recv` of at most `n` bytes, asked again as long as it would block; `none` is
any other error, and no bytes mean that the remote closed. -/
def recv (self : Socket) (n : Nat) (peek : Bool) : Except Stop (Socket × Option Bytes) :=
  match awaitByte self.ready self.arrivals with
  | ([], later) =>
      match self.ending with
      | .idle => .error .endless
      | .closed => .ok ({ self with ready := [], arrivals := later }, some [])
      | .failed => .ok ({ self with ready := [], arrivals := later }, none)
  | (ready, later) =>
      let kept := if peek then ready else ready.drop n
      .ok ({ self with ready := kept, arrivals := later }, some (ready.take n))

theorem awaitByte_spec (ready : Bytes) (arrivals : List Bytes) :
    (awaitByte ready arrivals).1 ++ (awaitByte ready arrivals).2.flatten =
      ready ++ arrivals.flatten ∧
    ((awaitByte ready arrivals).1 = [] → ready ++ arrivals.flatten = []) := by
  induction arrivals generalizing ready with
  | nil => simp [awaitByte]
  | cons arrival later ih =>
      rw [awaitByte]
      split
      · rename_i hnothing
        obtain ⟨rfl, rfl⟩ := List.append_eq_nil_iff.mp hnothing
        simpa using ih []
      · rename_i hsomething
        refine ⟨by simp, fun h => ?_⟩
        exact absurd h hsomething

theorem recv_of_rest {self : Socket} (n : Nat) (peek : Bool) (hrest : self.rest ≠ []) :
    ∃ ready later, ready ≠ [] ∧ ready ++ later.flatten = self.rest ∧
      recv self n peek =
        .ok (⟨if peek then ready else ready.drop n, later, self.ending⟩, some (ready.take n)) := by
  obtain ⟨hflat, hnil⟩ := awaitByte_spec self.ready self.arrivals
  cases hawait : awaitByte self.ready self.arrivals with
  | mk ready later =>
      rw [hawait] at hflat hnil
      have hready : ready ≠ [] := fun h => hrest (hnil h)
      refine ⟨ready, later, hready, hflat, ?_⟩
      cases ready with
      | nil => exact absurd rfl hready
      | cons c ready => simp only [recv, hawait]

theorem recv_takes {self : Socket} {n : Nat} (hn : 0 < n) (hrest : self.rest ≠ []) :
    ∃ data socket, data ≠ [] ∧ data.length ≤ n ∧ data ++ socket.rest = self.rest ∧
      socket.ending = self.ending ∧ recv self n false = .ok (socket, some data) := by
  obtain ⟨ready, later, hready, hflat, hrecv⟩ := recv_of_rest n false hrest
  refine ⟨ready.take n, ⟨ready.drop n, later, self.ending⟩, ?_, ?_, ?_, rfl, by simpa using hrecv⟩
  · simpa [List.take_eq_nil_iff, hready] using hn.ne'
  · rw [List.length_take]
    exact Nat.min_le_left _ _
  · rw [Socket.rest, ← List.append_assoc, List.take_append_drop, hflat]

end Sockets

/-- The error messages the receive buffer comes back with; `socketError` is the
system's text for a failed `recv`. -/
inductive ErrorMessage where
  | malformedChunkEncoding
  | illegalHexCharacter
  | noBufferedData
  | noDataToBeRetrieved
  | requestCompleted
  | exceededMaximumAllowedBufferSize
  | tokenBiggerThenBufferLimits
  | socketError
  deriving DecidableEq, Repr

inductive RecvBufferLength where
  | unknown (escape limit : Nat)
  | chunk (next total : Nat)
  | known (escape total : Nat)
  | token (token : Bytes) (length : Nat)
  | complete
  deriving DecidableEq, Repr

structure RecvBuffer where
  buffer : Option Bytes
  length : RecvBufferLength
  serverSocket : Socket
  deriving DecidableEq, Repr

/-- `SB_DATA_SIZE`. -/
def sbDataSize : Nat := 8192

/-- `-1` in `length.chunk.next`: no chunk has been read yet. Chunk counters are
kept modulo `2 ^ 64`, as comparisons with a `size_t` see them. -/
def noChunk : Nat := 2 ^ 64 - 1

section Contents

def RecvBuffer.data (self : RecvBuffer) : Bytes := self.buffer.getD []

def RecvBuffer.len (self : RecvBuffer) : Nat := self.data.length

def recvBufferClear (self : RecvBuffer) : RecvBuffer := { self with buffer := none }

def recvBufferDitch (self : RecvBuffer) (len : Nat) : RecvBuffer :=
  if len = 0 then self
  else if len < self.len then { self with buffer := some (self.data.drop len) }
  else { self with buffer := none }

/-- What lands in `buf`, or the error; a position behind the data reads past it. -/
def recvBufferFetch (self : RecvBuffer) (pos len : Nat) : Except Stop (Except ErrorMessage Bytes) :=
  if self.buffer.isSome ∧ len ≠ 0 then
    if self.len < pos then .error .outOfBounds
    else if self.len - pos < len then .ok (.ok (self.data.drop pos))
    else .ok (.ok ((self.data.drop pos).take (len - 1)))
  else .ok (.error .noBufferedData)

def bufferAppend (self : RecvBuffer) (data : Bytes) : RecvBuffer :=
  { self with buffer := some (self.data ++ data) }

@[simp]
theorem recvBufferDitch_data (self : RecvBuffer) (len : Nat) :
    (recvBufferDitch self len).data = self.data.drop len := by
  rw [recvBufferDitch]
  split
  · rename_i h
    simp [h]
  · split
    · rfl
    · rename_i hle
      exact (List.drop_eq_nil_of_le (Nat.not_lt.mp hle)).symm

@[simp]
theorem recvBufferDitch_len (self : RecvBuffer) (len : Nat) :
    (recvBufferDitch self len).len = self.len - len := by
  rw [RecvBuffer.len, recvBufferDitch_data, List.length_drop, RecvBuffer.len]

@[simp]
theorem recvBufferDitch_length (self : RecvBuffer) (len : Nat) :
    (recvBufferDitch self len).length = self.length := by
  rw [recvBufferDitch]
  split
  · rfl
  · split <;> rfl

@[simp]
theorem recvBufferDitch_serverSocket (self : RecvBuffer) (len : Nat) :
    (recvBufferDitch self len).serverSocket = self.serverSocket := by
  rw [recvBufferDitch]
  split
  · rfl
  · split <;> rfl

@[simp]
theorem bufferAppend_data (self : RecvBuffer) (data : Bytes) :
    (bufferAppend self data).data = self.data ++ data := rfl

end Contents

section Modes

def recvBufferSetLengthComplete (self : RecvBuffer) : RecvBuffer := { self with length := .complete }

def recvBufferSetLengthKnown (self : RecvBuffer) (length : Nat) : RecvBuffer :=
  { self with length := .known 0 length }

def recvBufferSetLengthUnknown (self : RecvBuffer) (limit : Nat) : RecvBuffer :=
  { self with length := .unknown 0 limit }

def recvBufferSetLengthToken (self : RecvBuffer) (token : Bytes) (length : Nat) : RecvBuffer :=
  { self with length := .token token length }

/-- `DataIncrement`; the flag asks the caller to stop. -/
def dataIncrement (self : RecvBuffer) (added : Nat) : RecvBuffer × Bool :=
  match self.length with
  | .known escape total =>
      if total ≤ escape + added then (recvBufferSetLengthComplete self, true)
      else ({ self with length := .known (escape + added) total }, false)
  | .token token length =>
      if (platformStringFindNeedleRaw self.data token).isSome then
        (recvBufferSetLengthComplete self, true)
      else ({ self with length := .token token (length + added) }, false)
  | .unknown escape limit =>
      ({ self with length := .unknown (escape + added) limit }, decide (limit ≤ escape + added))
  -- `recvBufferAppend` never counts in the other modes
  | .chunk _ _ | .complete => (self, false)

end Modes

section Append

/-- One turn of the loop of `recvBufferAppend`; `i` bytes have been appended. -/
def appendTurn (len : Nat) :
    RecvBuffer × Nat → Except Stop (Turn (RecvBuffer × Nat) (RecvBuffer × Option ErrorMessage))
  | (self, i) =>
      if i < len then do
        let (socket, l) ← recv self.serverSocket (min (len - i) sbDataSize) false
        let self := { self with serverSocket := socket }
        match l with
        | none => .ok (.leave (self, some .socketError))
        | some [] => .ok (.leave (self, if i = 0 then some .noDataToBeRetrieved else none))
        | some data =>
            match dataIncrement (bufferAppend self data) data.length with
            | (self, true) => .ok (.leave (self, none))
            | (self, false) => .ok (.again (self, i + data.length))
      else .ok (.leave (self, none))

/-- Where `recvBufferAppendChunk` stands: it copies the bytes of a chunk, or it
reads the size line of the next one. -/
inductive ChunkLabel where
  | iterate
  | parse
  deriving DecidableEq, Repr

/-- `IsValidHexCharacter`. -/
def isValidHexCharacter (c : UInt8) : Bool :=
  (ascii '0' ≤ c && c ≤ ascii '9') || (ascii 'A' ≤ c && c ≤ ascii 'F') ||
    (ascii 'a' ≤ c && c ≤ ascii 'f')

/-- The value of a hexadecimal digit of either case. -/
def hexValue (c : UInt8) : Nat :=
  let v : UInt8 := ((c &&& (0xF : UInt8)) + (c >>> 6)) ||| ((c >>> 3) &&& (0x8 : UInt8))
  v.toNat

def ioHttpBodyChunkHexToSize (hex : Bytes) : Except ErrorMessage Nat :=
  if hex.all isValidHexCharacter then
    .ok (hex.foldl (fun value c => (value * 16 + hexValue c) % 2 ^ 64) 0)
  else .error .illegalHexCharacter

/-- The size line at the start of `b`, behind the line end of the previous chunk
if there is one: its digits and where it ends. -/
def chunkSizeLine (first : Bool) (b : Bytes) : Option (Bytes × Nat) :=
  if first then (strstr b crlf).map fun finish => (b.take finish, finish + 2)
  else do
    let hex ← strstr b crlf
    let finish ← strstr (b.drop (hex + 2)) crlf
    some ((b.drop (hex + 2)).take finish, hex + 2 + finish + 2)

/-- One turn of `recvBufferAppendChunk`. `recv` hands out no more than it is asked
for, and it is asked for no more than the rest of the chunk. -/
def appendChunkTurn :
    RecvBuffer × Nat × Nat × Nat × ChunkLabel →
      Except Stop (Turn (RecvBuffer × Nat × Nat × Nat × ChunkLabel)
        (RecvBuffer × Option ErrorMessage))
  | (self, next, total, len, .iterate) =>
      if 0 < len ∧ 0 < next then do
        let s := min (min next len) sbDataSize
        let (socket, l) ← recv self.serverSocket s true
        match l with
        | none => .ok (.leave ({ self with serverSocket := socket }, some .socketError))
        | some data => do
            let self := { bufferAppend self data with length := .chunk (next - data.length) total }
            let (socket, read) ← recv socket data.length false
            let self := { self with serverSocket := socket }
            if read.isNone then .ok (.leave (self, some .socketError))
            else if data.length < s then .ok (.leave (self, none))
            else .ok (.again (self, next - data.length, total, len - data.length, .iterate))
      else if len = 0 then .ok (.leave (self, none))
      else .ok (.again (self, next, total, len, .parse))
  | (self, next, total, len, .parse) => do
      let (socket, k) ← recv self.serverSocket 19 true
      let self := { self with serverSocket := socket }
      match k with
      | none => .ok (.leave (self, some .socketError))
      | some b =>
          if b.length < (if next = noChunk then 3 else 5) then .ok (.leave (self, none))
          else
            match chunkSizeLine (next = noChunk) (cString b) with
            | none => .ok (.leave (self, some .malformedChunkEncoding))
            | some (hex, j) =>
                match ioHttpBodyChunkHexToSize hex with
                | .error e => .ok (.leave (self, some e))
                | .ok l => do
                    let (socket, read) ← recv self.serverSocket j false
                    let self := { self with serverSocket := socket }
                    if read.isNone then .ok (.leave (self, some .socketError))
                    else if 0 < l then
                      .ok (.again ({ self with length := .chunk l total }, l, total, len, .iterate))
                    else .ok (.leave (recvBufferSetLengthComplete self, none))

/-- Each turn but one in two takes bytes off what the caller still asks for. -/
def recvBufferAppendChunk (self : RecvBuffer) (next total len : Nat) :
    Except Stop (RecvBuffer × Option ErrorMessage) :=
  run appendChunkTurn (3 * len + 3)
    (self, next, total, len, if next = noChunk then .parse else .iterate)

def recvBufferAppend (self : RecvBuffer) (len : Nat) :
    Except Stop (RecvBuffer × Option ErrorMessage) :=
  match self.length with
  | .complete => .ok (self, some .requestCompleted)
  | mode =>
      let self := { self with buffer := some self.data }
      match mode with
      | .chunk next total => recvBufferAppendChunk self next total len
      | _ => run (appendTurn len) (len + 1) (self, 0)

end Append

section Search

/-- The loop of `recvBufferFind` at position `i`, over the bytes from there on. The
last byte is never the first of a match. -/
def findFrom (len : Nat) (token : Bytes) : Nat → Bytes → Except Stop (Option Nat)
  | i, c :: d :: rest =>
      if toupper c = toupper (token.headD 0) then
        if len < i + token.length then .ok none
        else if ((c :: d :: rest).map toupper).take token.length = token.map toupper then
          .ok (some i)
        -- the comparison goes on behind the data
        else if (c :: d :: rest).map toupper <+: token.map toupper then .error .outOfBounds
        else findFrom len token (i + 1) (d :: rest)
      else findFrom len token (i + 1) (d :: rest)
  | _, _ => .ok none

def recvBufferFind (self : RecvBuffer) (pos : Nat) (token : Bytes) :
    Except Stop (Option Nat) :=
  if self.buffer.isNone ∨ self.len < pos then .ok none
  -- `len - pos - 1` wraps
  else if self.len = pos then .error .outOfBounds
  else do
    let i ← findFrom self.len token 0 (self.data.drop pos)
    .ok (i.map (pos + ·))

/-- `while (self->len < len)`, and the append for a missing buffer before it. -/
def fillTurn (len : Nat) (self : RecvBuffer) :
    Except Stop (Turn RecvBuffer (RecvBuffer × Option ErrorMessage)) :=
  if self.buffer.isNone ∨ self.len < len then do
    let (self, e) ← recvBufferAppend self sbDataSize
    .ok (if e.isSome then .leave (self, e) else .again self)
  else .ok (.leave (self, none))

/-- Enough turns for every append to take a byte or an arrival off the connection. -/
def patience (self : RecvBuffer) : Nat :=
  self.serverSocket.rest.length + self.serverSocket.arrivals.length + 2

/-- One turn of the search of `recvBufferFindAndDitch`; `d` bytes have been ditched. -/
def ditchTurn (token : Bytes) :
    RecvBuffer × Nat →
      Except Stop (Turn (RecvBuffer × Nat) (RecvBuffer × Except ErrorMessage (Nat × Nat)))
  | (self, d) => do
      match ← recvBufferFind self 0 token with
      | some o => .ok (.leave (self, .ok (o, d)))
      | none => do
          let (self, e) ← recvBufferAppend self sbDataSize
          match e with
          | some e => .ok (.leave (self, .error e))
          | none =>
              match ← recvBufferFind self 0 token with
              | some o => .ok (.leave (self, .ok (o, d)))
              | none =>
                  let ditch := self.len - token.length
                  .ok (.again (recvBufferDitch self ditch, d + ditch))

/-- The number of bytes ditched, or the error. -/
def recvBufferFindAndDitch (self : RecvBuffer) (token : Bytes) :
    Except Stop (RecvBuffer × Except ErrorMessage Nat) := do
  let (self, e) ← run (fillTurn token.length) (patience self) self
  match e with
  | some e => .ok (self, .error e)
  | none => do
      let (self, found) ← run (ditchTurn token) (patience self) (self, 0)
      match found with
      | .error e => .ok (self, .error e)
      | .ok (o, d) =>
          -- a token one byte into the buffer is left there
          if 1 < o then .ok (recvBufferDitch self o, .ok (d + o)) else .ok (self, .ok d)

/-- One turn of the search of `recvBufferFindAndFetch`. -/
def fetchTurn (token : Bytes) (max : Nat) (self : RecvBuffer) :
    Except Stop (Turn RecvBuffer (RecvBuffer × Option ErrorMessage)) := do
  match ← recvBufferFind self 0 token with
  | some _ => .ok (.leave (self, none))
  | none => do
      let (self, e) ← recvBufferAppend self sbDataSize
      .ok (if e.isSome then .leave (self, e)
        else if max < self.len then .leave (self, some .exceededMaximumAllowedBufferSize)
        else .again self)

def recvBufferFindAndFetch (self : RecvBuffer) (token : Bytes) (max : Nat) :
    Except Stop (RecvBuffer × Option ErrorMessage) :=
  if max < token.length then .ok (self, some .tokenBiggerThenBufferLimits)
  else do
    let (self, e) ← run (fillTurn token.length) (patience self) self
    if e.isSome then .ok (self, e)
    else do
      let (self, e) ← if self.len ≤ token.length then recvBufferAppend self sbDataSize
        else .ok (self, none)
      if e.isSome then .ok (self, e)
      else run (fetchTurn token max) (patience self) self

end Search

section PreBuffered

/-- A C array after the first bytes have been written over. -/
def overwrite (array bytes : Bytes) : Bytes := bytes ++ array.drop bytes.length

/-- One turn of `HttpChunkParseExistingBuffer`; `total` counts the data of the
chunks found so far, and `none` is the way out that drops the connection. -/
def parseExistingTurn :
    RecvBuffer × Nat → Except Stop (Turn (RecvBuffer × Nat) (Option (RecvBuffer × Nat)))
  | (self, total) =>
      if total < self.len then do
        let fetched ← recvBufferFetch self (if total = 0 then 0 else total + 2) 20
        let hex := overwrite (List.replicate 20 0) (fetched.toOption.getD [])
        match strstr (cString hex) crlf with
        | some finish =>
            match ioHttpBodyChunkHexToSize (hex.take finish) with
            | .ok s =>
                let l := total + finish + if total = 0 then 2 else 4
                .ok (.again ({ self with buffer := some (self.data.take total ++ self.data.drop l) },
                  (total + s) % 2 ^ 64))
            | .error _ => .ok (.again (self, total))
        | none => do
            let (socket, l) ← recv self.serverSocket 19 true
            match l with
            | none => .ok (.leave none)
            | some peeked =>
                let hex := overwrite hex peeked
                match strstr (cString hex) crlf with
                | none => .ok (.leave none)
                | some p => do
                    let (socket, _) ← recv socket (p + 2) false
                    .ok (.again ({ bufferAppend self (hex.take (p + 2)) with
                      serverSocket := socket }, total))
      else .ok (.leave (some (self, total)))

/-- `HttpChunkParseExistingBuffer`. A turn takes two bytes off the buffer at least,
or moves bytes from the socket to the buffer. -/
def httpChunkParseExistingBuffer (self : RecvBuffer) : Except Stop RecvBuffer := do
  match ← run parseExistingTurn (21 * self.serverSocket.rest.length + self.len + 1) (self, 0) with
  | some (self, total) =>
      .ok { self with length := .chunk ((total + (2 ^ 64 - self.len)) % 2 ^ 64) total }
  | none =>
      .ok (recvBufferSetLengthUnknown
        ⟨none, self.length, ⟨[], [], .failed⟩⟩ 0)

def recvBufferSetLengthChunk (self : RecvBuffer) : Except Stop RecvBuffer :=
  if self.data ≠ [] then httpChunkParseExistingBuffer self
  else .ok { self with length := .chunk noChunk 0 }

end PreBuffered

section KnownLength

/-- The bytes of `body` are what is left to hand out: all of them are buffered, or
the rest is still to come and the count in `length.known` says how much. -/
inductive Reading (body : Bytes) (self : RecvBuffer) : Prop where
  | delivered (hmode : self.length = .complete) (hbody : self.data = body)
  | coming {escape total : Nat} (hmode : self.length = .known escape total)
      (hrest : self.serverSocket.rest ≠ [])
      (hcount : escape + self.serverSocket.rest.length = total)
      (hbody : self.data ++ self.serverSocket.rest = body)

theorem Reading.ditch {body : Bytes} {self : RecvBuffer} (h : Reading body self) {n : Nat}
    (hn : n ≤ self.len) : Reading (body.drop n) (recvBufferDitch self n) := by
  cases h with
  | delivered hmode hbody =>
      apply Reading.delivered
      · rw [recvBufferDitch_length, hmode]
      · rw [recvBufferDitch_data, hbody]
  | coming hmode hrest hcount hbody =>
      apply Reading.coming
      · rw [recvBufferDitch_length, hmode]
      · rwa [recvBufferDitch_serverSocket]
      · rwa [recvBufferDitch_serverSocket]
      · rw [recvBufferDitch_data, recvBufferDitch_serverSocket, ← hbody,
          List.drop_append_of_le_length hn]

theorem appendTurn_coming {self : RecvBuffer} {escape total len i : Nat} (hi : i < len)
    (hmode : self.length = .known escape total) (hrest : self.serverSocket.rest ≠ [])
    (hcount : escape + self.serverSocket.rest.length = total) :
    ∃ data socket, data ≠ [] ∧ data.length ≤ len - i ∧
      data ++ socket.rest = self.serverSocket.rest ∧
      appendTurn len (self, i) = .ok
        (if socket.rest = [] then .leave (⟨some (self.data ++ data), .complete, socket⟩, none)
        else .again (⟨some (self.data ++ data), .known (escape + data.length) total, socket⟩,
          i + data.length)) := by
  have hpos : 0 < min (len - i) sbDataSize := by
    rw [sbDataSize]
    omega
  obtain ⟨data, socket, hdata, hless, hflat, -, hrecv⟩ := recv_takes hpos hrest
  refine ⟨data, socket, hdata, hless.trans (Nat.min_le_left _ _), hflat, ?_⟩
  have hsplit : data.length + socket.rest.length = self.serverSocket.rest.length := by
    rw [← List.length_append, hflat]
  cases data with
  | nil => exact absurd rfl hdata
  | cons c data =>
      simp only [appendTurn, hi, if_true, hrecv, ok_bind]
      by_cases hend : socket.rest = []
      · rw [hend, List.length_nil] at hsplit
        have hdone : total ≤ escape + (c :: data).length := by omega
        simp only [dataIncrement, bufferAppend, hmode, hdone, hend, if_true]
        rfl
      · have hmore : 0 < socket.rest.length := List.length_pos_iff.mpr hend
        have hdone : ¬ total ≤ escape + (c :: data).length := by omega
        simp only [dataIncrement, bufferAppend, hmode, hdone, hend, if_false]
        rfl

theorem Reading.len_le {body : Bytes} {self : RecvBuffer} (h : Reading body self) :
    self.len ≤ body.length := by
  cases h with
  | delivered hmode hbody => rw [RecvBuffer.len, hbody]
  | coming hmode hrest hcount hbody =>
      rw [RecvBuffer.len, ← hbody, List.length_append]
      exact Nat.le_add_right _ _

theorem Reading.complete_iff {body : Bytes} {self : RecvBuffer} (h : Reading body self) :
    self.length = .complete ↔ self.len = body.length := by
  cases h with
  | delivered hmode hbody => simp [hmode, RecvBuffer.len, hbody]
  | coming hmode hrest hcount hbody =>
      have hmore := List.length_pos_iff.mpr hrest
      simp only [hmode, RecvBuffer.len, ← hbody, List.length_append]
      constructor
      · intro hcomplete
        contradiction
      · intro hlen
        omega

theorem Reading.data_eq {body : Bytes} {self : RecvBuffer} (h : Reading body self) :
    self.data = body.take self.len := by
  cases h with
  | delivered hmode hbody => rw [RecvBuffer.len, hbody, List.take_length]
  | coming hmode hrest hcount hbody => rw [RecvBuffer.len, ← hbody, List.take_left]

theorem Reading.rest_length {body : Bytes} {self : RecvBuffer} (h : Reading body self)
    (hmore : self.len < body.length) :
    self.len + self.serverSocket.rest.length = body.length := by
  cases h with
  | delivered hmode hbody =>
      rw [RecvBuffer.len, hbody] at hmore
      exact absurd hmore (lt_irrefl _)
  | coming hmode hrest hcount hbody => rw [RecvBuffer.len, ← hbody, List.length_append]

theorem recvBufferAppend_complete {self : RecvBuffer} (hmode : self.length = .complete)
    (len : Nat) : recvBufferAppend self len = .ok (self, some .requestCompleted) := by
  rw [recvBufferAppend, hmode]

theorem Reading.append {body : Bytes} {self : RecvBuffer} (h : Reading body self)
    (hmore : self.len < body.length) (len : Nat) :
    ∃ self', recvBufferAppend self len = .ok (self', none) ∧ Reading body self' ∧
      self'.len = min (self.len + len) body.length := by
  cases h with
  | delivered hmode hbody =>
      rw [RecvBuffer.len, hbody] at hmore
      exact absurd hmore (lt_irrefl _)
  | coming hmode hrest hcount hbody =>
  rename_i escape total
  have happend : recvBufferAppend self len =
      run (appendTurn len) (len + 1) ({ self with buffer := some self.data }, 0) := by
    rw [recvBufferAppend, hmode]
  let invariant : RecvBuffer × Nat → Prop := fun s =>
    s.1.data ++ s.1.serverSocket.rest = body ∧ s.1.len = self.len + s.2 ∧ s.2 ≤ len ∧
      s.1.serverSocket.rest ≠ [] ∧
      ∃ escape, s.1.length = .known escape total ∧ escape + s.1.serverSocket.rest.length = total
  let post : RecvBuffer × Option ErrorMessage → Prop := fun r =>
    r.2 = none ∧ Reading body r.1 ∧ r.1.len = min (self.len + len) body.length
  obtain ⟨⟨self', e⟩, hrun, he, hreading, henough⟩ : ∃ r, run (appendTurn len) (len + 1)
      ({ self with buffer := some self.data }, 0) = .ok r ∧ post r := by
    apply run_total invariant (fun s => len - s.2)
    · rintro ⟨s, i⟩ ⟨hdata, hsize, hle, hcoming, escape, hknown, htotal⟩
      simp only at hdata hsize hle hcoming hknown htotal
      by_cases hi : i < len
      · obtain ⟨data, socket, hne, hless, hflat, hturn⟩ :=
          appendTurn_coming hi hknown hcoming htotal
        refine ⟨_, hturn, ?_⟩
        have hpos : 0 < data.length := List.length_pos_iff.mpr hne
        have hall : s.data ++ data ++ socket.rest = body := by
          rw [List.append_assoc, hflat, hdata]
        have hsize' : (s.data ++ data).length = self.len + (i + data.length) := by
          rw [RecvBuffer.len] at hsize
          rw [List.length_append, hsize, Nat.add_assoc]
        split
        · rename_i hend
          rw [hend, List.append_nil] at hall
          refine ⟨rfl, .delivered rfl hall, ?_⟩
          show (s.data ++ data).length = _
          rw [← hall, hsize']
          omega
        · rename_i hmore'
          refine ⟨⟨hall, hsize', by simp only; omega, hmore', escape + data.length, rfl, ?_⟩,
            by simp only; omega⟩
          rw [← htotal, ← hflat, List.length_append, Nat.add_assoc]
      · have hfull : s.len = self.len + len := by omega
        have hreading : Reading body s := .coming hknown hcoming htotal hdata
        refine ⟨.leave (s, none), by simp [appendTurn, hi], rfl, hreading, ?_⟩
        have hbound := hreading.len_le
        simp only [hfull] at hbound ⊢
        omega
    · exact ⟨hbody, rfl, Nat.zero_le _, hrest, escape, hmode, hcount⟩
    · simp only
      omega
  simp only at he
  subst he
  exact ⟨self', happend.trans hrun, hreading, henough⟩

end KnownLength

end Newth.Client.Recvbufr
