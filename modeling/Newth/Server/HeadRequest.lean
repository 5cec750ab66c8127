import Newth.Server.DirectoryListing
import Newth.Server.ModifiedSince
import Newth.Server.Ticks

namespace Newth.Server.HeadRequest

open Newth.Library.ByteString
open Newth.Library.Call
open Newth.Library.Chunked
open Newth.Library.Runs
open Newth.Platform.HttpTime
open Newth.Platform.WebPath
open Newth.Server.DirectoryListing
open Newth.Server.Handlers
open Newth.Server.HttpBody
open Newth.Server.HttpHeader
open Newth.Server.ModifiedSince
open Newth.Server.Routines
open Newth.Server.Sendbufr
open Newth.Server.Ticks

section Lines

/-- The backlog behind lines that are written one by one. -/
def writeLines (b : Backlog) (lines : List Bytes) : Backlog :=
  lines.foldl (fun b line => b.write line.length) b

/-- Every send takes the line it is offered whole. -/
def TakesWhole : List SendResult → List Bytes → Prop
  | [], _ => True
  | _, [] => True
  | result :: rest, line :: lines => line.length ≤ result.sent ∧ TakesWhole rest lines

/-- The lines have been written one by one. -/
structure WritesLines (lines : List Bytes) (link link' : Link) : Prop where
  writes : Writes lines.flatten link link'
  backlog : link'.backlog = writeLines link.backlog lines

theorem WritesLines.nil {link : Link} (h : link.Sound) : WritesLines [] link link :=
  ⟨Writes.refl h, rfl⟩

theorem WritesLines.snoc {lines : List Bytes} {line : Bytes} {link link' link'' : Link}
    (h : WritesLines lines link link') (hwrites : Writes line link' link'')
    (hbacklog : link''.backlog = link'.backlog.write line.length) :
    WritesLines (lines ++ [line]) link link'' := by
  constructor
  · have hall := h.writes.trans hwrites
    simpa using hall
  · rw [hbacklog, h.backlog, writeLines, writeLines, List.foldl_append]
    rfl

theorem sendBufferPrintf_eq {message : Message} (htext : (0 : UInt8) ∉ message.text)
    (link : Link) : sendBufferPrintf link message = (sendBufferWriteData link message.text).1 := by
  cases hbuffer : link.self.buffer with
  | none =>
      simp only [sendBufferPrintf, hbuffer, sendBufferWriteText]
      rw [cString_eq_self htext]
  | some stream => simp only [sendBufferPrintf, sendBufferWriteData, hbuffer]

theorem WritesLines.printf {lines : List Bytes} {link link' : Link} {m : Message}
    (h : WritesLines lines link link') (htext : (0 : UInt8) ∉ m.text) :
    WritesLines (lines ++ [m.text]) link (sendBufferPrintf link' m) := by
  refine h.snoc (sendBufferPrintf_writes h.writes.sound m htext) ?_
  rw [sendBufferPrintf_eq htext, sendBufferWriteData_backlog h.writes.sound]

theorem WritesLines.text {lines : List Bytes} {line : Bytes} {link link' : Link}
    (h : WritesLines lines link link') (htext : (0 : UInt8) ∉ line) :
    WritesLines (lines ++ [line]) link (sendBufferWriteText link' line).1 := by
  have hwrites := (sendBufferWriteText_writes h.writes.sound line).1
  rw [cString_eq_self htext] at hwrites
  refine h.snoc hwrites ?_
  rw [sendBufferWriteText, cString_eq_self htext, sendBufferWriteData_backlog h.writes.sound]

theorem writeLines_waiting (lines : List Bytes) {b : Backlog} (h : b.waiting ≠ 0) :
    (writeLines b lines).waiting ≠ 0 := by
  induction lines generalizing b with
  | nil => exact h
  | cons line lines ih =>
      apply ih (b := b.write line.length)
      simp only [Backlog.write, if_pos h]
      omega

theorem writeLines_waiting_iff (sends : List SendResult) (lines : List Bytes) :
    (writeLines ⟨sends, 0⟩ lines).waiting = 0 ↔ TakesWhole sends lines := by
  induction lines generalizing sends with
  | nil => cases sends <;> simp [writeLines, TakesWhole]
  | cons line lines ih =>
      have hfirst : writeLines ⟨sends, 0⟩ (line :: lines) =
          writeLines ⟨sends.tail, line.length - sends.head?.elim line.length SendResult.sent⟩
            lines := rfl
      rw [hfirst]
      cases sends with
      | nil =>
          have hrest := ih []
          simp only [TakesWhole, iff_true] at hrest ⊢
          simpa using hrest
      | cons result rest =>
          simp only [List.tail_cons, List.head?_cons, Option.elim_some, TakesWhole]
          by_cases hwhole : line.length ≤ result.sent
          · rw [Nat.sub_eq_zero_of_le hwhole, ih]
            simp [hwhole]
          · have hleft : line.length - result.sent ≠ 0 := by omega
            simp [hwhole, writeLines_waiting lines (b := ⟨rest, line.length - result.sent⟩) hleft]

theorem WritesLines.pending_iff {lines : List Bytes} {clientSocket : Nat} {channel : Channel}
    {link : Link} (h : WritesLines lines ⟨sendBufferNew clientSocket 0, channel⟩ link) :
    link.pending = [] ↔ TakesWhole channel.sends lines := by
  have hwaiting : link.pending.length = link.backlog.waiting := rfl
  rw [← List.length_eq_zero_iff, hwaiting, h.backlog]
  exact writeLines_waiting_iff channel.sends lines

theorem WritesLines.carried {lines : List Bytes} {clientSocket : Nat} {sends : List SendResult}
    {link : Link} (h : WritesLines lines ⟨sendBufferNew clientSocket 0, ⟨[], sends⟩⟩ link) :
    link.carried = lines.flatten := by
  simpa [Link.carried, Link.pending, sendBufferNew] using h.writes.carried

end Lines

section Heads

def dirLines (world : World) (st : FileStat) : List Bytes :=
  [statusLine (httpHeaderGetResponse 200), dateLine world.clock,
    lastModifiedLine world.clock st, contentTypeLine (text "text/html") [], chunkedLine, httpEol]

def fileLines (world : World) (header webPath : Bytes) (st : FileStat) : List Bytes :=
  let range := httpHeaderReadRange header 0 0 st.size
  [statusLine (httpHeaderGetResponse (if range.isNone then 200 else 206)), dateLine world.clock,
    fileNameLine webPath, lastModifiedLine world.clock st, acceptRangesLine] ++
  match range with
  | none => [contentLengthLine st.size, httpEol]
  | some (start, finish) =>
      let finish := rangeEnd finish st.size
      [contentLengthLine (finish - start),
        contentRangeLine start (if finish = st.size then finish - 1 else finish) st.size, httpEol]

/-- The lines of the head of the answer to a request for a file or a directory. -/
def headLines (world : World) (header webPath : Bytes) (st : FileStat) : List Bytes :=
  match st.kind with
  | .directory => dirLines world st
  | _ => fileLines world header webPath st

theorem dirHead_writesLines (world : World) {link : Link} (h : link.Sound) (st : FileStat) :
    WritesLines (dirLines world st) link (dirHead world link st) := by
  have hstatus : WritesLines _ link (httpHeaderWriteResponse link 200) :=
    (WritesLines.nil h).printf (zero_notMem_statusLine 200)
  have hdate := hstatus.printf (m := ⟨40, dateLine world.clock⟩) (zero_notMem_dateLine _)
  have hmodified := hdate.printf (m := ⟨50, lastModifiedLine world.clock st⟩)
    (zero_notMem_lastModifiedLine _ _)
  have htype := hmodified.printf (m := ⟨27, contentTypeLine (text "text/html") []⟩)
    (zero_notMem_contentTypeLine _ _)
  have hchunked := htype.text (by decide : (0 : UInt8) ∉ chunkedLine)
  exact hchunked.text (by decide : (0 : UInt8) ∉ httpEol)

theorem fileHead_writesLines (world : World) {link : Link} (h : link.Sound)
    (header webPath : Bytes) (st : FileStat) :
    WritesLines (fileLines world header webPath st) link
      (fileHead world link header webPath st).1 := by
  obtain ⟨range, hrange⟩ : ∃ range, httpHeaderReadRange header 0 0 st.size = range := ⟨_, rfl⟩
  have hstatus : WritesLines _ link
      (httpHeaderWriteResponse link (if range.isNone then 200 else 206)) :=
    (WritesLines.nil h).printf (zero_notMem_statusLine _)
  have hdate := hstatus.printf (m := ⟨40, dateLine world.clock⟩) (zero_notMem_dateLine _)
  have hname := hdate.printf (m := ⟨(fileName webPath).length + 40, fileNameLine webPath⟩)
    (zero_notMem_fileNameLine _)
  have hmodified := hname.printf (m := ⟨50, lastModifiedLine world.clock st⟩)
    (zero_notMem_lastModifiedLine _ _)
  have haccept := hmodified.text (by decide : (0 : UInt8) ∉ acceptRangesLine)
  simp only [fileLines, fileHead, hrange]
  cases range with
  | none =>
      have hlength := haccept.printf (m := ⟨80, contentLengthLine st.size⟩)
        (zero_notMem_contentLengthLine _)
      exact hlength.text (by decide : (0 : UInt8) ∉ httpEol)
  | some bounds =>
      obtain ⟨start, finish⟩ := bounds
      have hlength := haccept.printf
        (m := ⟨80, contentLengthLine (rangeEnd finish st.size - start)⟩)
        (zero_notMem_contentLengthLine _)
      have hcontent := hlength.printf (m := ⟨sbDataSize, contentRangeLine start
        (if rangeEnd finish st.size = st.size then rangeEnd finish st.size - 1
          else rangeEnd finish st.size) st.size⟩) (zero_notMem_contentRangeLine _ _ _)
      exact hcontent.text (by decide : (0 : UInt8) ∉ httpEol)

theorem answer304_writesLines (world : World) {clientSocket : Nat} {channel : Channel}
    (webPath : Bytes) (hsends : SendResult.fails ∉ channel.sends) :
    WritesLines [statusLine (httpHeaderGetResponse 304), dateLine world.clock, httpEol]
      ⟨sendBufferNew clientSocket 0, channel⟩
      (answer304 world clientSocket channel webPath).link := by
  have hnew := new_sound hsends clientSocket channel.accepted
  have hstatus : WritesLines _ _
      (httpHeaderWriteResponse ⟨sendBufferNew clientSocket 0, channel⟩ 304) :=
    (WritesLines.nil hnew).printf (zero_notMem_statusLine 304)
  have hdate := hstatus.printf (m := ⟨40, dateLine world.clock⟩) (zero_notMem_dateLine _)
  exact hdate.text (by decide : (0 : UInt8) ∉ httpEol)

/-- What the server puts on a socket that takes everything in answer to a `GET` request, up to
the end of the head. -/
def getHead (world : World) (header webPath : Bytes) (st : FileStat) : Bytes :=
  let link : Link := ⟨sendBufferNew 0 0, ⟨[], []⟩⟩
  if world.notModified header st then (answer304 world 0 ⟨[], []⟩ webPath).link.channel.accepted
  else
    match st.kind with
    | .directory => (dirHead world link st).channel.accepted
    | _ => (fileHead world link header webPath st).1.channel.accepted

theorem WritesLines.accepted {lines : List Bytes} {clientSocket : Nat} {link : Link}
    (h : WritesLines lines ⟨sendBufferNew clientSocket 0, ⟨[], []⟩⟩ link) :
    link.channel.accepted = lines.flatten := by
  have hnone : link.pending = [] := h.pending_iff.mpr (by simp [TakesWhole])
  rw [← h.carried, Link.carried, hnone, List.append_nil]

theorem getHead_modified {world : World} {header webPath : Bytes} {st : FileStat}
    (h : world.notModified header st = false) :
    getHead world header webPath st = (headLines world header webPath st).flatten := by
  have hnew : Link.Sound ⟨sendBufferNew 0 0, ⟨[], []⟩⟩ := new_sound (by simp) 0 []
  simp only [getHead, h, headLines]
  cases st.kind with
  | directory => exact (dirHead_writesLines world hnew st).accepted
  | file => exact (fileHead_writesLines world hnew header webPath st).accepted
  | other => exact (fileHead_writesLines world hnew header webPath st).accepted

theorem strstr_drop_front {front rest needle : Bytes} {c : UInt8} (hneedle : needle.head? = some c)
    (hfront : c ∉ front) :
    strstr (front ++ rest) needle = (strstr rest needle).map (front.length + ·) := by
  induction front with
  | nil => simp
  | cons d front ih =>
      simp only [List.mem_cons, not_or] at hfront
      have hnot : needle.isPrefixOf (d :: (front ++ rest)) = false := by
        obtain ⟨needle, rfl⟩ : ∃ tail, needle = c :: tail := List.head?_eq_some_iff.mp hneedle
        simp [List.isPrefixOf, hfront.1]
      rw [List.cons_append, strstr, hnot, ih hfront.2]
      cases strstr rest needle with
      | none => rfl
      | some i =>
          simp only [Option.map_some, Option.some.injEq, List.length_cons, Bool.false_eq_true,
            if_false]
          omega

theorem method_irrelevant (front : Bytes) (hrange : ascii 'R' ∉ front) (hdate : ascii 'I' ∉ front)
    (rest : Bytes) (tm : Tm) (st : FileStat) :
    httpHeaderReadRange (front ++ rest) 0 0 st.size = httpHeaderReadRange rest 0 0 st.size ∧
      notModified tm (front ++ rest) st = notModified tm rest st := by
  have hdrop : ∀ {n i : Nat}, (front ++ rest).drop (front.length + i + n) = rest.drop (i + n) := by
    intro n i
    rw [Nat.add_assoc, List.drop_length_add_append]
  constructor
  · rw [httpHeaderReadRange, httpHeaderReadRange,
      strstr_drop_front (c := ascii 'R') (by decide) hrange]
    cases strstr rest (text "Range") with
    | none => rfl
    | some i => simp only [Option.map_some, hdrop]
  · rw [notModified, notModified, httpHeaderReadIfModifiedSince, httpHeaderReadIfModifiedSince,
      strstr_drop_front (c := ascii 'I') (by decide) hdate]
    cases strstr rest ifModifiedSince with
    | none => rfl
    | some i => simp only [Option.map_some, hdrop]

end Heads

section Answers

/-- A server that ticks on from what a handler leaves on a socket. -/
structure Starts (handled : Handled) (socket : Nat) (first : Serving) : Prop where
  single : (sockets first.routines).Nodup
  channel : first.net socket = handled.link.channel
  routine : match handled.added with
    | none => socket ∉ sockets first.routines
    | some routine => routine ∈ first.routines

/-- Ticking from one server to the other with these answers about deferral. -/
def Ticks (first : Serving) (answers : List (List Nat)) (last : Serving) : Prop :=
  follow tickAnswering (fun _ _ => True) first answers = some last

/-- A request is answered with `head`: nothing else is put on the socket in any run of the
ticks, and all of it is there once there were enough of them. -/
def AnswersWith (outcome : Except Stop Handled) (socket : Nat) (head : Bytes) : Prop :=
  ∃ handled, outcome = .ok handled ∧ ∃ enough, ∀ first answers last,
    Starts handled socket first → Ticks first answers last →
      (last.net socket).accepted <+: head ∧
      (enough + first.routines.length ≤ answers.length → (last.net socket).accepted = head)

theorem ticks_other {first last : Serving} {answers : List (List Nat)} {socket : Nat}
    (h : Ticks first answers last) (hsocket : socket ∉ sockets first.routines) :
    last.net socket = first.net socket := by
  have hlast : socket ∉ sockets last.routines ∧ last.net socket = first.net socket := by
    refine run_invariant (fun server => socket ∉ sockets server.routines ∧
      server.net socket = first.net socket) ?_ (run_of_follow h) ⟨hsocket, rfl⟩
    rintro server deferred server' ⟨hout, hsame⟩ - htick
    have hrounds := tickAnswering_rounds htick
    refine ⟨fun hmem => hout ((rounds_sockets hrounds).mem hmem), ?_⟩
    rw [rounds_other hrounds hout, hsame]
  exact hlast.2

theorem ticks_idle (net : Network) (answers : List (List Nat)) :
    ∃ last, Ticks ⟨[], [], net⟩ answers last ∧ last.net = net := by
  have hall : ∀ deferred, ∃ last, Ticks ⟨[], deferred, net⟩ answers last ∧ last.net = net := by
    induction answers with
    | nil => exact fun deferred => ⟨_, rfl, rfl⟩
    | cons answer answers ih => exact fun deferred => ih answer
  exact hall []

theorem answersWith_none_iff {handled : Handled} (hnone : handled.added = none) (socket : Nat)
    (head : Bytes) :
    AnswersWith (.ok handled) socket head ↔ handled.link.channel.accepted = head := by
  constructor
  · rintro ⟨handled', hsame, enough, hruns⟩
    obtain rfl := Except.ok.inj hsame
    obtain ⟨last, hticks, hnet⟩ :=
      ticks_idle (fun _ => handled.link.channel) (List.replicate enough [])
    have hstarts : Starts handled socket ⟨[], [], fun _ => handled.link.channel⟩ :=
      ⟨List.nodup_nil, rfl, by simp [hnone, sockets]⟩
    have hend := (hruns _ _ last hstarts hticks).2 (by simp)
    rwa [hnet] at hend
  · intro hhead
    refine ⟨handled, rfl, 0, ?_⟩
    rintro first answers last ⟨hsingle, hchannel, hroutine⟩ hticks
    rw [hnone] at hroutine
    rw [ticks_other hticks hroutine, hchannel, hhead]
    exact ⟨List.prefix_rfl, fun _ => rfl⟩

theorem flushAnswers_uses {sends : List SendResult} {n : Nat}
    (h : (flushAnswers sends n).waiting ≠ 0) :
    (flushAnswers sends n).sends.length < sends.length := by
  induction sends generalizing n with
  | nil => exact absurd rfl h
  | cons result rest ih =>
      rw [flushAnswers] at h ⊢
      split at h
      · exact absurd rfl h
      · rename_i hsome
        rw [if_neg hsome]
        split at h
        · rename_i hshort
          rw [if_pos hshort]
          exact Nat.lt_succ_self _
        · rename_i hwhole
          rw [if_neg hwhole]
          have hrest := ih h
          simp only [List.length_cons]
          omega

theorem advance_flush (deferred : List Nat) {routine : Routine} {channel : Channel}
    (hstate : routine.state = .stateFlush) (hbuffer : routine.socketBuffer.buffer.isSome = true)
    (hsound : Link.Sound ⟨routine.socketBuffer, channel⟩)
    (hoptions : routine.socketBuffer.options = 0) :
    let link := (sendBufferFlush ⟨routine.socketBuffer, channel⟩).1
    advance deferred routine channel =
      .ok ⟨{ routine with socketBuffer := link.self }, link.channel, deferred, true⟩ := by
  intro link
  have hflushed := sendBufferFlush_flushed hsound
  have hsame : link.self.options = 0 := hflushed.writes.options.trans hoptions
  have hfine : link.self.has errFail = false := by
    rw [SendBuffer.has, hsame]
    rfl
  simp only [advance, hstate, hbuffer, if_true]
  rw [if_neg]
  rintro ⟨-, hfail⟩
  rw [hfine] at hfail
  simp at hfail

/-- What is left to a routine that only flushes: it has written `head`. -/
structure Flushing (head : Bytes) (routine : Routine) (channel : Channel) : Prop where
  type : routine.type = .plain
  sound : Link.Sound ⟨routine.socketBuffer, channel⟩
  carried : Link.carried ⟨routine.socketBuffer, channel⟩ = head
  options : routine.socketBuffer.options = 0
  state : routine.state = .stateFlush ∨
    (routine.state = .stateContinue ∨ routine.state = .stateFinish) ∧
      routine.socketBuffer.buffer = none

/-- A bound on the rounds such a routine has left. -/
def roundsLeft (routine : Routine) (channel : Channel) : Nat :=
  match routine.state with
  | .stateFlush => if routine.socketBuffer.buffer.isSome then channel.sends.length + 4 else 3
  | .stateContinue => 2
  | _ => 1

theorem accepted_of_unbuffered {link : Link} (h : link.self.buffer = none) :
    link.channel.accepted = link.carried := by
  simp [Link.carried, Link.pending, h]

theorem flush_shortens {link : Link} (hsound : link.Sound)
    (hbuffer : (sendBufferFlush link).1.self.buffer.isSome = true) :
    (sendBufferFlush link).1.channel.sends.length < link.channel.sends.length := by
  have hflushed := sendBufferFlush_flushed hsound
  have hsome : (sendBufferFlush link).1.pending ≠ [] := by
    intro hnil
    rw [(pending_eq_nil_iff hflushed.writes.sound.coherent).mp hnil] at hbuffer
    simp at hbuffer
  have hwaiting : (flushAnswers link.channel.sends link.pending.length).waiting ≠ 0 := by
    have hsame := congrArg Backlog.waiting hflushed.backlog
    change (sendBufferFlush link).1.pending.length = _ at hsame
    change (link.backlog.flush).waiting ≠ 0
    rw [← hsame]
    exact fun hzero => hsome (List.eq_nil_of_length_eq_zero hzero)
  have huses := flushAnswers_uses hwaiting
  have hsends : (sendBufferFlush link).1.channel.sends =
      (flushAnswers link.channel.sends link.pending.length).sends :=
    congrArg Backlog.sends hflushed.backlog
  rwa [hsends]

theorem advance_flushing {head : Bytes} {deferred : List Nat} {routine : Routine}
    {channel : Channel} {t : Ticked} (hflushing : Flushing head routine channel)
    (h : advance deferred routine channel = .ok t) :
    (t.kept = true → Flushing head t.routine t.channel ∧
      roundsLeft t.routine t.channel < roundsLeft routine channel) ∧
    (t.kept = false → t.channel.accepted = head) := by
  obtain ⟨htype, hsound, hcarried, hoptions, hstate⟩ := hflushing
  rcases hstate with hflush | ⟨hcontinue | hfinish, hempty⟩
  · by_cases hbuffer : routine.socketBuffer.buffer.isSome = true
    · rw [advance_flush _ hflush hbuffer hsound hoptions] at h
      obtain rfl := Except.ok.inj h
      have hflushed := sendBufferFlush_flushed hsound
      have hsame : (sendBufferFlush ⟨routine.socketBuffer, channel⟩).1.carried = head := by
        rw [hflushed.writes.carried, List.append_nil, hcarried]
      refine ⟨fun _ => ⟨⟨htype, hflushed.writes.sound, hsame,
        hflushed.writes.options.trans hoptions, .inl hflush⟩, ?_⟩, by simp⟩
      simp only [roundsLeft, hflush, hbuffer, if_true]
      split
      · rename_i hbuffer'
        have hless := flush_shortens hsound hbuffer'
        simp only at hless
        omega
      · omega
    · have hempty : routine.socketBuffer.buffer = none := by simpa using hbuffer
      simp only [advance, hflush, hempty, Option.isSome_none] at h
      obtain rfl := Except.ok.inj h
      refine ⟨fun _ => ⟨⟨htype, hsound, hcarried, hoptions, .inr ⟨.inl rfl, hempty⟩⟩, ?_⟩, by simp⟩
      simp [roundsLeft, hflush, hempty]
  · simp only [advance, hcontinue, htype] at h
    obtain rfl := Except.ok.inj h
    refine ⟨fun _ => ⟨⟨rfl, hsound, hcarried, hoptions, .inr ⟨.inr rfl, hempty⟩⟩, ?_⟩, by simp⟩
    simp [roundsLeft, hcontinue]
  · simp only [advance, hfinish] at h
    obtain ⟨-, hchannel, hremoved⟩ := retire_eq h
    refine ⟨by simp [hremoved], fun _ => ?_⟩
    rw [hchannel, ← hcarried]
    exact @accepted_of_unbuffered ⟨routine.socketBuffer, channel⟩ hempty

theorem answersWith_flushing {handled : Handled} {routine : Routine} {head : Bytes}
    {socket : Nat} (hadded : handled.added = some routine)
    (hsocket : routine.socketBuffer.clientSocket = socket)
    (hflushing : Flushing head routine handled.link.channel) :
    AnswersWith (.ok handled) socket head := by
  refine ⟨handled, rfl, roundsLeft routine handled.link.channel, ?_⟩
  rintro first answers last ⟨hsingle, hchannel, hmem⟩ hticks
  rw [hadded] at hmem
  have hstart : Flushing head routine (first.net socket) := by
    rwa [hchannel]
  constructor
  · have hround : ∀ deferred current channel t, Flushing head current channel →
        advance deferred current channel = .ok t →
        (t.kept = true → Flushing head t.routine t.channel) ∧
          (t.kept = false → t.channel.accepted = head) := by
      intro deferred current channel t hcurrent hadvance
      obtain ⟨hkeeps, hleaves⟩ := advance_flushing hcurrent hadvance
      exact ⟨fun hkept => (hkeeps hkept).1, hleaves⟩
    rcases ticks_routine (Flushing head) (fun channel => channel.accepted = head) hround
        (run_of_follow hticks) hsingle hmem hsocket hstart with
      ⟨current, -, -, hcurrent, -⟩ | ⟨-, haccepted⟩
    · rw [← hcurrent.carried]
      exact List.prefix_append _ _
    · rw [haccepted]
  · intro hlong
    refine (ticks_end (Flushing head) (fun channel => channel.accepted = head) roundsLeft
      (fun deferred current channel t hcurrent hadvance => advance_flushing hcurrent hadvance)
      hticks hsingle hmem hsocket hstart ?_).2
    rwa [hchannel]

theorem ticks_drain {routine : Routine} (net : Network) (deferred : List Nat)
    (hstate : routine.state = .stateFlush) (hoptions : routine.socketBuffer.options = 0)
    (hsound : Link.Sound ⟨routine.socketBuffer, net routine.socketBuffer.clientSocket⟩) :
    ∃ answers last, Ticks ⟨[routine], deferred, net⟩ answers last ∧
      (last.net routine.socketBuffer.clientSocket).accepted =
        Link.carried ⟨routine.socketBuffer, net routine.socketBuffer.clientSocket⟩ := by
  induction hlength : (net routine.socketBuffer.clientSocket).sends.length
    using Nat.strong_induction_on generalizing routine net deferred with
  | _ n ih =>
      obtain ⟨socket, hsocket⟩ : ∃ socket, routine.socketBuffer.clientSocket = socket := ⟨_, rfl⟩
      rw [hsocket] at hsound hlength ⊢
      by_cases hbuffer : routine.socketBuffer.buffer.isSome = true
      · have hflushed := sendBufferFlush_flushed hsound
        have hadvance := advance_flush [] hstate hbuffer hsound hoptions
        obtain ⟨link, hlink⟩ : ∃ link,
            (sendBufferFlush ⟨routine.socketBuffer, net socket⟩).1 = link := ⟨_, rfl⟩
        have hcarried : link.carried = Link.carried ⟨routine.socketBuffer, net socket⟩ := by
          rw [← hlink, hflushed.writes.carried, List.append_nil]
        have hsame : link.self.clientSocket = socket := by
          rw [← hlink, sendBufferFlush_clientSocket, hsocket]
        have htick : tickAnswering ⟨[routine], deferred, net⟩ [] =
            .ok ⟨[{ routine with socketBuffer := link.self }], [],
              Function.update net socket link.channel⟩ := by
          simp only [tickAnswering, routineTick, tickFrom, hsocket, hadvance, hlink, ok_bind,
            if_true]
        by_cases hbuffer' : link.self.buffer.isSome = true
        · have hless := flush_shortens hsound (by rwa [hlink])
          rw [hlink] at hless
          obtain ⟨answers, last, hticks, haccepted⟩ := @ih _ (by rw [← hlength]; exact hless)
            { routine with socketBuffer := link.self }
            (Function.update net socket link.channel) [] hstate
            (by rw [← hoptions, ← hlink]; exact hflushed.writes.options)
            (by simp only [hsame, Function.update_self]; rw [← hlink]; exact hflushed.writes.sound)
            (by simp only [hsame, Function.update_self])
          simp only [hsame, Function.update_self] at haccepted
          refine ⟨[] :: answers, last, ?_, haccepted.trans hcarried⟩
          rw [Ticks, follow, if_pos trivial, htick]
          exact hticks
        · refine ⟨[[]], ⟨[{ routine with socketBuffer := link.self }], [],
            Function.update net socket link.channel⟩, ?_, ?_⟩
          · rw [Ticks, follow, if_pos trivial, htick]
            rfl
          · simp only [Function.update_self]
            rw [← hcarried]
            exact accepted_of_unbuffered (by simpa using hbuffer')
      · exact ⟨[], _, rfl, @accepted_of_unbuffered ⟨routine.socketBuffer, net socket⟩
          (by simpa using hbuffer)⟩

end Answers

section HeadRequests

variable {world : World} {clientSocket : Nat} {sends : List SendResult}
  {header webPath absolutePath : Bytes} {st : FileStat}

theorem handleFile_head_answers_iff {content : Bytes}
    (hopen : world.fileOpen absolutePath = some content) (hsends : SendResult.fails ∉ sends) :
    AnswersWith (.ok (handleFile world clientSocket ⟨[], sends⟩ header webPath absolutePath
        .httpHead st)) clientSocket (fileLines world header webPath st).flatten ↔
      TakesWhole sends (fileLines world header webPath st) := by
  have hlines := fileHead_writesLines world (new_sound hsends clientSocket []) header webPath st
  have hhandled : handleFile world clientSocket ⟨[], sends⟩ header webPath absolutePath .httpHead
      st = ⟨0, none, (fileHead world ⟨sendBufferNew clientSocket 0, ⟨[], sends⟩⟩ header webPath
        st).1⟩ := by
    simp only [handleFile, hopen, if_true]
  rw [hhandled, answersWith_none_iff rfl, ← hlines.pending_iff, ← hlines.carried, Link.carried]
  simp

/-- A `HEAD` request for a directory ends with the head when nothing of it waits. Otherwise one
flush decides: it sends nothing and the rest is dropped, or the listing follows. -/
theorem handleDir_head_cases {entries : List Entry} {handled : Handled}
    (hopen : world.dirOpen absolutePath = some entries) (hpath : (0 : UInt8) ∉ webPath)
    (hsends : SendResult.fails ∉ sends)
    (h : handleDir world clientSocket ⟨[], sends⟩ webPath absolutePath .httpHead st = .ok handled) :
    let link := dirHead world ⟨sendBufferNew clientSocket 0, ⟨[], sends⟩⟩ st
    (handled.added = none ∧ handled.link = (sendBufferFlush link).1 ∧
        (sendBufferFlush link).2 = 0) ∨
      ∃ routine, handled.added = some routine := by
  intro link
  have hsound := (dirHead_writes world (new_sound hsends clientSocket []) st).sound
  have hflushed := (sendBufferFlush_flushed hsound).writes
  have htitle : (0 : UInt8) ∉ (if webPath = [] then text "/" else webPath) := by
    split
    · decide
    · exact hpath
  rw [handleDir] at h
  simp only [hopen, if_true] at h
  generalize (if webPath = [] then text "/" else webPath) = title at h htitle
  split at h
  · rename_i hzero
    obtain rfl := Except.ok.inj h
    exact .inl ⟨rfl, rfl, hzero⟩
  · obtain ⟨hpage, hsome⟩ := httpBodyWriteChunk_writes hflushed.sound (zero_notMem_page htitle)
    rw [if_neg (Nat.ne_of_gt hsome)] at h
    obtain ⟨crumbs, hcrumbs, h⟩ := bind_eq_ok_iff.mp h
    have hlist : (0 : UInt8) ∉ htmlListStart crumbs := by
      have hzero := zero_notMem_htmlBreadCrumbWrite htitle hcrumbs
      simp only [htmlListStart, List.mem_append, not_or]
      exact ⟨hzero, by decide⟩
    have hsome' := (httpBodyWriteChunk_writes (sendBufferFlush_flushed hpage.sound).writes.sound
      hlist).2
    rw [if_neg (Nat.ne_of_gt hsome')] at h
    obtain rfl := Except.ok.inj h
    exact .inr ⟨_, rfl⟩

theorem handleDir_head_answers_iff {entries : List Entry}
    (hopen : world.dirOpen absolutePath = some entries) (hpath : (0 : UInt8) ∉ webPath)
    (hsends : SendResult.fails ∉ sends) :
    AnswersWith (handleDir world clientSocket ⟨[], sends⟩ webPath absolutePath .httpHead st)
        clientSocket (dirLines world st).flatten ↔
      TakesWhole sends (dirLines world st) := by
  have hnew := new_sound hsends clientSocket []
  have hlines := dirHead_writesLines world hnew st
  obtain ⟨link, hlink⟩ : ∃ link,
      dirHead world ⟨sendBufferNew clientSocket 0, ⟨[], sends⟩⟩ st = link := ⟨_, rfl⟩
  rw [hlink] at hlines
  have hflushed := sendBufferFlush_flushed hlines.writes.sound
  rw [← hlines.pending_iff]
  constructor
  · rintro ⟨handled, hok, enough, hruns⟩
    by_contra hwaits
    rcases handleDir_head_cases hopen hpath hsends hok with ⟨hnone, hleft, hzero⟩ | ⟨routine, hadded⟩
    · -- nothing was flushed, and what waits is lost
      rw [hlink] at hleft hzero
      have hanswers : AnswersWith (.ok handled) clientSocket (dirLines world st).flatten :=
        ⟨handled, rfl, enough, hruns⟩
      rw [answersWith_none_iff hnone, hleft, ← hlines.carried] at hanswers
      have hlength := hflushed.flushed
      rw [hanswers, hzero, Link.carried, List.length_append] at hlength
      exact hwaits (List.eq_nil_of_length_eq_zero (by omega))
    · -- the routine gets the head of the page onto the socket
      obtain ⟨listed, crumbs, -, -, -, hlisted⟩ := handleDir_listed hpath hsends hok hadded
      obtain ⟨howner, -⟩ := handleDir_owned hok routine hadded
      have hstate : routine.state = .stateFlush := by
        obtain ⟨entries', crumbs', head, -, -, -, -, -, rfl⟩ := handleDir_added hok hadded
        rfl
      obtain ⟨answers, last, hticks, haccepted⟩ := ticks_drain
        (fun _ => handled.link.channel) [] hstate hlisted.options hlisted.sound
      rw [howner] at haccepted
      have hstarts : Starts handled clientSocket ⟨[routine], [], fun _ => handled.link.channel⟩ := by
        refine ⟨by simp [sockets], rfl, ?_⟩
        rw [hadded]
        exact List.mem_singleton.mpr rfl
      have hfront := (hruns _ answers last hstarts hticks).1
      obtain ⟨done, rest, live, -, -, hcarried⟩ := hlisted.progress
      rw [haccepted, hcarried] at hfront
      have hlong := hfront.length_le
      have hhead : (dirLines world st).flatten = listingHead world.clock st := by
        rw [← hlines.carried, ← hlink,
          (dirHead_writes world hnew st).carried]
        simp [Link.carried, Link.pending, sendBufferNew]
      have hchunk : 0 < (chunk (htmlHeaderWrite [] (pageTitle webPath))).length := by
        simp [chunk, crlf]
      rw [hhead] at hlong
      simp only [List.length_append, List.length_nil] at hlong
      omega
  · intro hnone
    have hempty : link.self.buffer = none :=
      (pending_eq_nil_iff hlines.writes.sound.coherent).mp hnone
    have hhandled : handleDir world clientSocket ⟨[], sends⟩ webPath absolutePath .httpHead st =
        .ok ⟨1, none, link⟩ := by
      rw [handleDir]
      simp only [hopen, if_true, hlink, sendBufferFlush, hempty]
    rw [hhandled, answersWith_none_iff rfl, ← hlines.carried]
    exact accepted_of_unbuffered hempty

/-- The path leads to a directory or a regular file that can be opened. -/
def Opens (world : World) (absolutePath : Bytes) (st : FileStat) : Prop :=
  match st.kind with
  | .directory => (world.dirOpen absolutePath).isSome = true
  | .file => (world.fileOpen absolutePath).isSome = true
  | .other => False

theorem handlePath_head_answers_iff (htype : httpClientReadType header = .httpHead)
    (hpath : Posix01.platformPathWebToSystem filenameMax world.rootPath webPath =
      .ok (.ok absolutePath))
    (hstat : world.stat absolutePath = some st) (hopens : Opens world absolutePath st)
    (htext : (0 : UInt8) ∉ webPath) (hsends : SendResult.fails ∉ sends)
    (hmodified : world.notModified header st = false) :
    AnswersWith (handlePath world clientSocket ⟨[], sends⟩ header webPath) clientSocket
        (headLines world header webPath st).flatten ↔
      TakesWhole sends (headLines world header webPath st) := by
  simp only [headLines, handlePath, hpath, ok_bind, hstat, hmodified, htype]
  simp only [Opens] at hopens
  cases hkind : st.kind with
  | directory =>
      simp only [hkind] at hopens
      obtain ⟨entries, hopen⟩ := Option.isSome_iff_exists.mp hopens
      exact handleDir_head_answers_iff hopen htext hsends
  | file =>
      simp only [hkind] at hopens
      obtain ⟨content, hopen⟩ := Option.isSome_iff_exists.mp hopens
      exact handleFile_head_answers_iff hopen hsends
  | other => simp [hkind] at hopens

/-- A `HEAD` request is answered with exactly the head of the answer to `GET` when nothing has
been modified, and otherwise just when every send of the head takes its line whole. -/
theorem head_answered_iff {tm : Tm} {rest : Bytes} (hhead : header = text "HEAD" ++ rest)
    (hpath : Posix01.platformPathWebToSystem filenameMax world.rootPath webPath =
      .ok (.ok absolutePath))
    (hstat : world.stat absolutePath = some st) (hopens : Opens world absolutePath st)
    (htext : (0 : UInt8) ∉ webPath) (hsends : SendResult.fails ∉ sends) :
    AnswersWith (handlePath (timed world tm) clientSocket ⟨[], sends⟩ header webPath) clientSocket
        (getHead (timed world tm) (text "GET" ++ rest) webPath st) ↔
      notModified tm header st = true ∨
        TakesWhole sends (headLines (timed world tm) header webPath st) := by
  have hpath' : Posix01.platformPathWebToSystem filenameMax (timed world tm).rootPath webPath =
      .ok (.ok absolutePath) := hpath
  have hstat' : (timed world tm).stat absolutePath = some st := hstat
  have htype : httpClientReadType header = .httpHead := by
    rw [hhead]
    rfl
  obtain ⟨hrange, hdate⟩ := method_irrelevant (text "HEAD") (by decide) (by decide) rest
    tm st
  obtain ⟨hrange', hdate'⟩ := method_irrelevant (text "GET") (by decide) (by decide) rest
    tm st
  rw [← hhead] at hrange hdate
  rw [← hrange] at hrange'
  rw [← hdate] at hdate'
  have hmodified : (timed world tm).notModified header st = notModified tm header st := rfl
  cases hold : notModified tm header st with
  | true =>
      have hget : getHead (timed world tm) (text "GET" ++ rest) webPath st =
          (answer304 (timed world tm) 0 ⟨[], []⟩ webPath).link.channel.accepted :=
        if_pos (hdate'.trans hold)
      have hlines := @answer304_writesLines (timed world tm) clientSocket ⟨[], sends⟩ webPath hsends
      have hhandled : handlePath (timed world tm) clientSocket ⟨[], sends⟩ header webPath =
          .ok (answer304 (timed world tm) clientSocket ⟨[], sends⟩ webPath) := by
        rw [handlePath, hpath']
        simp only [ok_bind, hstat', hmodified, hold, if_true]
        rfl
      rw [hhandled]
      simp only [true_or, iff_true]
      refine answersWith_flushing rfl hlines.writes.clientSocket ⟨rfl, hlines.writes.sound, ?_,
        hlines.writes.options, .inl rfl⟩
      rw [hget, (answer304_writesLines (timed world tm) webPath (by simp)).accepted]
      exact hlines.carried
  | false =>
      rw [getHead_modified (hdate'.trans hold)]
      have hsame : headLines (timed world tm) (text "GET" ++ rest) webPath st =
          headLines (timed world tm) header webPath st := by
        simp only [headLines, fileLines, hrange']
      rw [hsame]
      simp only [Bool.false_eq_true, false_or]
      exact handlePath_head_answers_iff htype hpath' hstat' hopens htext hsends
        (hmodified.trans hold)

end HeadRequests

/-- A server with ten digits in its folder, which can be listed as well. -/
def digitsFolder (kind : FileKind) : World :=
  { tenDigits with stat := fun _ => some ⟨10, 0, kind⟩, dirOpen := fun _ => some [] }

theorem head_answered_cut :
    AnswersWith (handlePath (timed (digitsFolder .file) ⟨⟨0, 0, 0, 0, 0, 0⟩, 0⟩) 5
        ⟨[], [.accepts 17, .wouldBlock]⟩ (text "HEAD /a HTTP/1.1\r\n\r") (text "/a")) 5
        (getHead (timed (digitsFolder .file) ⟨⟨0, 0, 0, 0, 0, 0⟩, 0⟩)
          (text "GET" ++ text " /a HTTP/1.1\r\n\r") (text "/a") ⟨10, 0, .file⟩) ↔
      notModified ⟨⟨0, 0, 0, 0, 0, 0⟩, 0⟩ (text "HEAD /a HTTP/1.1\r\n\r") ⟨10, 0, .file⟩ = true ∨
        TakesWhole [.accepts 17, .wouldBlock]
          (headLines (timed (digitsFolder .file) ⟨⟨0, 0, 0, 0, 0, 0⟩, 0⟩)
            (text "HEAD /a HTTP/1.1\r\n\r") (text "/a") ⟨10, 0, .file⟩) :=
  @head_answered_iff (digitsFolder .file) 5 [.accepts 17, .wouldBlock]
    (text "HEAD /a HTTP/1.1\r\n\r") (text "/a") (text "/srv/a") ⟨10, 0, .file⟩
    ⟨⟨0, 0, 0, 0, 0, 0⟩, 0⟩ (text " /a HTTP/1.1\r\n\r") rfl (by decide +kernel) rfl rfl (by decide)
    (by decide)

/-- `HEAD /a` is answered with the head of `GET /a` on a socket that takes 17 bytes first. -/
def AnswersDigits (kind : FileKind) : Prop :=
  AnswersWith (handlePath (timed (digitsFolder kind) ⟨⟨0, 0, 0, 0, 0, 0⟩, 0⟩) 5
      ⟨[], [.accepts 17, .wouldBlock]⟩ (text "HEAD /a HTTP/1.1\r\n\r") (text "/a")) 5
    (getHead (timed (digitsFolder kind) ⟨⟨0, 0, 0, 0, 0, 0⟩, 0⟩)
      (text "GET /a HTTP/1.1\r\n\r") (text "/a") ⟨10, 0, kind⟩)

theorem answersDigits_iff {kind : FileKind} (hkind : kind = .file ∨ kind = .directory) :
    AnswersDigits kind ↔ TakesWhole [.accepts 17, .wouldBlock]
      (headLines (timed (digitsFolder kind) ⟨⟨0, 0, 0, 0, 0, 0⟩, 0⟩)
        (text "HEAD /a HTTP/1.1\r\n\r") (text "/a") ⟨10, 0, kind⟩) := by
  have hopens : Opens (timed (digitsFolder kind) ⟨⟨0, 0, 0, 0, 0, 0⟩, 0⟩) (text "/srv/a")
      ⟨10, 0, kind⟩ := by
    rcases hkind with rfl | rfl
    · rfl
    · rfl
  have hget : getHead (timed (digitsFolder kind) ⟨⟨0, 0, 0, 0, 0, 0⟩, 0⟩)
        (text "GET /a HTTP/1.1\r\n\r") (text "/a") ⟨10, 0, kind⟩ =
      (headLines (timed (digitsFolder kind) ⟨⟨0, 0, 0, 0, 0, 0⟩, 0⟩)
        (text "HEAD /a HTTP/1.1\r\n\r") (text "/a") ⟨10, 0, kind⟩).flatten := by
    rw [getHead_modified]
    · rfl
    · rfl
  have hpath : Posix01.platformPathWebToSystem filenameMax (text "/srv") (text "/a") =
      .ok (.ok (text "/srv/a")) := by decide
  rw [AnswersDigits, hget,
    handlePath_head_answers_iff rfl hpath rfl hopens (by decide) (by decide) rfl]

/-- A head that is cut off by the socket is not answered with for a file, which loses the rest,
nor for a directory. -/
theorem head_cut_short : ¬ AnswersDigits .file ∧ ¬ AnswersDigits .directory := by
  rw [answersDigits_iff (.inl rfl), answersDigits_iff (.inr rfl)]
  constructor
  · intro hwhole
    exact absurd hwhole.2.1 (by decide +kernel)
  · intro hwhole
    exact absurd hwhole.2.1 (by decide +kernel)

end Newth.Server.HeadRequest
