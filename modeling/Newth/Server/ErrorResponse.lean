import Newth.Server.Handlers

namespace Newth.Server.ErrorResponse

open Newth.Library.ByteString
open Newth.Library.Call
open Newth.Server.Handlers
open Newth.Server.HttpBody
open Newth.Server.HttpHeader
open Newth.Server.Sendbufr

section Flush

/-- How many of `n` waiting bytes a flush moves, block after block; `none` when a
fatal error is met, which hides the blocks before it. -/
def flushedBy : List SendResult → Nat → Option Nat
  | [], n => some n
  | result :: rest, n =>
      if n = 0 then some 0
      else if result = .fails then none
      else if result.sent < min sbDataSize n then some result.sent
      else (flushedBy rest (n - min sbDataSize n)).map (min sbDataSize n + ·)

theorem flushedBy_zero (sends : List SendResult) : flushedBy sends 0 = some 0 := by
  cases sends <;> simp [flushedBy]

theorem flushedBy_send {channel channel' : Channel} {data : Bytes} {result : SendResult} {n : Nat}
    (hn : 0 < n) (hdata : data.length = min sbDataSize n)
    (hsend : channel.send data = (channel', result)) :
    flushedBy channel.sends n =
      if result = .fails then none
      else if result.sent < data.length then some result.sent
      else (flushedBy channel'.sends (n - data.length)).map (data.length + ·) := by
  rw [Channel.send] at hsend
  split at hsend
  · rename_i hsends
    obtain ⟨rfl, rfl⟩ := Prod.mk.inj hsend
    simp only [hsends, flushedBy, SendResult.sent, reduceCtorEq, if_false, Nat.lt_irrefl,
      Option.map_some]
    congr 1
    omega
  · rename_i m rest hsends
    obtain ⟨rfl, rfl⟩ := Prod.mk.inj hsend
    rw [hsends, flushedBy, if_neg (by omega), ← hdata]
    simp only [SendResult.sent, reduceCtorEq, if_false]
    by_cases hshort : m < data.length
    · simp only [Nat.min_eq_left hshort.le, hshort, if_true]
    · simp only [Nat.min_eq_right (Nat.not_lt.mp hshort), hshort, Nat.lt_irrefl, if_false]
  · rename_i result rest hnot hsends
    obtain ⟨rfl, rfl⟩ := Prod.mk.inj hsend
    rw [hsends, flushedBy, if_neg (by omega), ← hdata]

/-- What holds each time round the loop of `sendBufferFlush`. -/
structure FlushCounts (link : Link) (s : Flushing) : Prop where
  bound : s.stream.pos ≤ s.stream.data.length
  pos : s.stream.pos = s.link.self.idx
  counted : s.bytesFlushed + (s.stream.data.length - s.stream.pos) = link.pending.length
  answers : flushedBy link.channel.sends link.pending.length =
    (flushedBy s.link.channel.sends (s.stream.data.length - s.stream.pos)).map (s.bytesFlushed + ·)

/-- What a flush returns, and when nothing is left behind. -/
structure FlushCounted (link : Link) (result : Link × Nat) : Prop where
  count : result.2 = (flushedBy link.channel.sends link.pending.length).getD 0
  drained : result.1.pending = [] ↔
    flushedBy link.channel.sends link.pending.length = some link.pending.length

theorem flushTurn_counts {link : Link} {s : Flushing} (hs : FlushCounts link s) :
    ∃ turn, flushTurn s = .ok turn ∧
      Advances (FlushCounts link) (fun s => s.stream.data.length - s.stream.pos)
        (FlushCounted link) s turn := by
  obtain ⟨rest, hrest⟩ : ∃ rest, s.stream.data.drop s.stream.pos = rest := ⟨_, rfl⟩
  have hlength : rest.length = s.stream.data.length - s.stream.pos := by
    rw [← hrest, List.length_drop]
  have hcounted := hs.counted
  have hanswers := hs.answers
  have hpos := hs.pos
  have hbound := hs.bound
  rw [← hlength] at hcounted hanswers
  simp only [flushTurn, MemoryStream.read, hrest]
  have hblock : (rest.take sbDataSize).length = min sbDataSize rest.length := List.length_take
  have hsb : 0 < sbDataSize := by decide
  by_cases hnil : rest.take sbDataSize = []
  · rw [if_pos hnil]
    have hzero : rest.length = 0 := by
      rw [hnil, List.length_nil] at hblock
      omega
    rw [hzero, flushedBy_zero] at hanswers
    refine ⟨_, rfl, ?_, ?_⟩
    · rw [hanswers]
      rfl
    · refine iff_of_true rfl ?_
      rw [hanswers, ← hcounted, hzero]
      rfl
  · rw [if_neg hnil]
    have hlong : 0 < rest.length := by
      apply List.length_pos_of_ne_nil
      rintro rfl
      simp at hnil
    obtain ⟨channel, result, hsend⟩ :
        ∃ channel result, s.link.channel.send (rest.take sbDataSize) = (channel, result) :=
      ⟨_, _, rfl⟩
    have hstep := flushedBy_send hlong hblock hsend
    have hle := send_sent_le hsend
    rw [hstep] at hanswers
    rw [hsend]
    cases result with
    | fails =>
        simp only [if_true, Option.map_none] at hanswers
        refine ⟨_, rfl, ?_, ?_⟩
        · rw [hanswers]
          rfl
        · rw [hanswers]
          refine iff_of_false ?_ (by simp)
          rw [← List.length_eq_zero_iff]
          simp only [Link.pending, List.length_drop]
          omega
    | wouldBlock =>
        have hsome : 0 < (rest.take sbDataSize).length := by omega
        simp only [reduceCtorEq, if_false, SendResult.sent, hsome, if_true, Option.map_some,
          Nat.add_zero] at hanswers
        refine ⟨_, rfl, ?_, ?_⟩
        · rw [hanswers]
          rfl
        · rw [hanswers]
          refine iff_of_false ?_ (by simp; omega)
          rw [← List.length_eq_zero_iff]
          simp only [Link.pending, List.length_drop]
          omega
    | accepts m =>
        simp only [SendResult.sent] at hanswers hle
        simp only
        by_cases hshort : m < (rest.take sbDataSize).length
        · rw [if_pos hshort]
          simp only [reduceCtorEq, if_false, hshort, if_true, Option.map_some] at hanswers
          refine ⟨_, rfl, ?_, ?_⟩
          · rw [hanswers]
            rfl
          · rw [hanswers]
            refine iff_of_false ?_ (by simp; omega)
            rw [← List.length_eq_zero_iff]
            simp only [Link.pending, MemoryStream.seekBack, List.length_drop]
            omega
        · rw [if_neg hshort]
          obtain rfl : m = (rest.take sbDataSize).length := by omega
          simp only [reduceCtorEq, if_false, Nat.lt_irrefl, Option.map_map] at hanswers
          refine ⟨_, rfl, ⟨?_, ?_, ?_, ?_⟩, ?_⟩
          · simp only
            omega
          · simp only [hpos]
          · simp only
            omega
          · simp only
            rw [hanswers, hlength, ← Nat.sub_add_eq]
            congr 1
            funext k
            simp only [Function.comp]
            omega
          · simp only
            omega

theorem sendBufferFlush_counted {link : Link} (h : link.self.Coherent) {stream : MemoryStream}
    (hbuffer : link.self.buffer = some stream) : FlushCounted link (sendBufferFlush link) := by
  have hidx : link.self.idx < stream.data.length := by
    simpa only [SendBuffer.Coherent, hbuffer] using h
  have hwaiting : link.pending.length = stream.data.length - link.self.idx := by
    simp only [Link.pending, hbuffer, List.length_drop]
  obtain ⟨result, hrun, hcounted⟩ :
      ∃ result, run flushTurn (stream.data.length + 1)
        ⟨link, stream.seekSet link.self.idx, 0⟩ = .ok result ∧ FlushCounted link result := by
    refine run_total _ _ (fun s => flushTurn_counts) ?_ ?_
    · refine ⟨hidx.le, rfl, ?_, ?_⟩
      · simp only [MemoryStream.seekSet, hwaiting, Nat.zero_add]
      · simp only [MemoryStream.seekSet, hwaiting, Nat.zero_add, Option.map_id']
    · simp only [MemoryStream.seekSet]
      omega
  simp only [sendBufferFlush, hbuffer, hrun]
  exact hcounted

end Flush

section Writes

/-- Writes to a fresh send buffer seen from outside: the answers to come, how many
bytes wait, and whether a write met a fatal error. -/
structure Offered where
  sends : List SendResult
  waiting : Nat
  lost : Bool
  deriving DecidableEq, Repr

/-- One direct send if nothing waits, otherwise none. -/
def Offered.write (o : Offered) (n : Nat) : Offered :=
  if o.waiting ≠ 0 then { o with waiting := o.waiting + n }
  else
    match o.sends with
    | [] => o
    | .fails :: rest => ⟨rest, 0, true⟩
    | result :: rest => ⟨rest, n - result.sent, o.lost⟩

def offered (sends : List SendResult) (writes : List Bytes) : Offered :=
  (writes.map List.length).foldl Offered.write ⟨sends, 0, false⟩

/-- `link` stands where the offers stand, `written` having been written to a socket
that had accepted `before`. -/
structure Tracks (before written : Bytes) (link : Link) (o : Offered) : Prop where
  coherent : link.self.Coherent
  sends : link.channel.sends = o.sends
  waiting : link.pending.length = o.waiting
  kept : o.lost = false → link.carried = before ++ written
  lost : o.lost = true → link.carried.length < (before ++ written).length

def writeAll (link : Link) (writes : List Bytes) : Link :=
  writes.foldl (fun link data => (sendBufferWriteData link data).1) link

theorem sendBufferPrintf_eq {line : Bytes} (h : (0 : UInt8) ∉ line) (link : Link) (max : Nat) :
    sendBufferPrintf link ⟨max, line⟩ = (sendBufferWriteData link line).1 := by
  rw [sendBufferPrintf, sendBufferWriteData]
  cases hbuffer : link.self.buffer with
  | none => rw [sendBufferWriteText, cString_eq_self h, sendBufferWriteData, hbuffer]
  | some stream => rfl

theorem write_offered {link : Link} (h : link.self.Coherent) {data : Bytes} (hdata : data ≠ [])
    (lost : Bool) :
    Offered.write ⟨link.channel.sends, link.pending.length, lost⟩ data.length =
      ⟨(sendBufferWriteData link data).1.channel.sends,
        (sendBufferWriteData link data).1.pending.length,
        if (sendBufferWriteData link data).2 = 0 then true else lost⟩ := by
  have hlength := List.length_pos_of_ne_nil hdata
  have hne : data.length ≠ 0 := hlength.ne'
  cases hbuffer : link.self.buffer with
  | some stream =>
      have hidx : link.self.idx < stream.data.length := by
        simpa only [SendBuffer.Coherent, hbuffer] using h
      have hpending : link.pending.length = stream.data.length - link.self.idx := by
        simp only [Link.pending, hbuffer, List.length_drop]
      rw [Offered.write, if_pos (by simp only; omega)]
      simp only [sendBufferWriteData, hbuffer, if_neg hne, Link.pending, write_seekEnd_data,
        List.length_drop, List.length_append, Offered.mk.injEq, true_and, and_true]
      omega
  | none =>
      have hidx : link.self.idx = 0 := by simpa only [SendBuffer.Coherent, hbuffer] using h
      have hpending : link.pending.length = 0 := by simp [Link.pending, hbuffer]
      rw [Offered.write, if_neg (by simp [hpending])]
      simp only [sendBufferWriteData, hbuffer, Channel.send]
      cases hsends : link.channel.sends with
      | nil =>
          simp only [SendResult.sent, Nat.lt_irrefl, if_false, if_neg hne, Link.pending, hbuffer,
            List.length_nil]
      | cons answer rest =>
          cases answer with
          | fails => simp [Link.pending]
          | wouldBlock =>
              simp [SendResult.sent, hlength, hne, Link.pending, hidx]
          | accepts m =>
              by_cases hshort : m < data.length
              · have hmin : min m data.length = m := Nat.min_eq_left hshort.le
                simp [SendResult.sent, hmin, hshort, hdata, Link.pending, hidx]
              · have hmin : min m data.length = data.length :=
                  Nat.min_eq_right (Nat.not_lt.mp hshort)
                simp [SendResult.sent, hmin, hne, Link.pending, hbuffer]
                omega

theorem Tracks.write {before written : Bytes} {link : Link} {o : Offered}
    (h : Tracks before written link o) {data : Bytes} (hdata : data ≠ []) :
    Tracks before (written ++ data) (sendBufferWriteData link data).1 (o.write data.length) := by
  have hlength := List.length_pos_of_ne_nil hdata
  have hwrite := write_offered h.coherent hdata o.lost
  rw [h.sends, h.waiting] at hwrite
  obtain ⟨hcoherent, hreport⟩ := sendBufferWriteData_reports h.coherent data
  rw [hwrite]
  have hgrown :
      (before ++ (written ++ data)).length = (before ++ written).length + data.length := by
    rw [← List.append_assoc, List.length_append]
  rcases hreport with ⟨hcarried, -, hcount⟩ | ⟨hcarried, -, hcount⟩
  · rw [hcount, if_neg hlength.ne']
    refine ⟨hcoherent, rfl, rfl, fun hkept => ?_, fun hlost => ?_⟩
    · rw [hcarried, h.kept hkept, List.append_assoc]
    · have hless := h.lost hlost
      rw [hcarried, hgrown, List.length_append]
      omega
  · rw [hcount, if_pos rfl]
    refine ⟨hcoherent, rfl, rfl, fun hkept => absurd hkept (by simp), fun _ => ?_⟩
    rw [hcarried, hgrown]
    cases hlost : o.lost with
    | false =>
        rw [h.kept hlost]
        omega
    | true =>
        have hless := h.lost hlost
        omega

theorem Tracks.writeAll {before written : Bytes} {link : Link} {o : Offered}
    (h : Tracks before written link o) {writes : List Bytes}
    (hwrites : ∀ data ∈ writes, data ≠ []) :
    Tracks before (written ++ writes.flatten) (writeAll link writes)
      ((writes.map List.length).foldl Offered.write o) := by
  induction writes generalizing link o written with
  | nil => simpa [ErrorResponse.writeAll] using h
  | cons data writes ih =>
      simp only [List.mem_cons, forall_eq_or_imp] at hwrites
      have hrest := ih (h.write hwrites.1) hwrites.2
      rw [List.append_assoc] at hrest
      exact hrest

end Writes

section Response

def errorHead (world : World) (error : Nat) : List Bytes :=
  [statusLine (httpHeaderGetResponse error), dateLine world.clock,
    contentLengthLine (httpHeaderGetResponse error).length, httpEol]

/-- The writes of an error response, its body last. -/
def errorWrites (world : World) (error : Nat) : List Bytes :=
  errorHead world error ++ [httpHeaderGetResponse error]

/-- Either nothing waits at the flush and a write was lost before, or the flush moves
nothing, or everything and no write was lost. -/
def Settled (o : Offered) : Prop :=
  if o.waiting = 0 then o.lost = true
  else (flushedBy o.sends o.waiting).getD 0 = 0 ∨
    (o.lost = false ∧ flushedBy o.sends o.waiting = some o.waiting)

theorem httpHeaderGetResponse_textual (error : Nat) :
    httpHeaderGetResponse error ≠ [] ∧ (0 : UInt8) ∉ httpHeaderGetResponse error := by
  unfold httpHeaderGetResponse
  split <;> decide

theorem errorHead_ne_nil (world : World) (error : Nat) :
    ∀ data ∈ errorHead world error, data ≠ [] := by
  simp only [errorHead, List.mem_cons, List.not_mem_nil, or_false, forall_eq_or_imp, forall_eq]
  refine ⟨?_, ?_, ?_, by decide⟩
  · simp [statusLine, text]
  · simp [dateLine, text]
  · simp [contentLengthLine, text]

theorem httpHeaderHandleError_eq (world : World) (link : Link) (error : Nat) :
    httpHeaderHandleError world link error =
      let last := sendBufferWriteData (writeAll link (errorHead world error))
        (httpHeaderGetResponse error)
      if last.2 = 0 then ⟨1, none, last.1⟩
      else ⟨if (sendBufferFlush last.1).2 = 0 then 1 else 0, none, (sendBufferFlush last.1).1⟩ := by
  have hbody := cString_eq_self (httpHeaderGetResponse_textual error).2
  simp only [httpHeaderHandleError, httpHeaderWriteResponseStr, httpHeaderWriteDate,
    httpHeaderWriteContentLength, httpHeaderWriteEnd, httpBodyWriteText, sendBufferWriteText,
    sendBufferPrintf_eq (zero_notMem_statusLine error),
    sendBufferPrintf_eq (zero_notMem_dateLine world.clock),
    sendBufferPrintf_eq (zero_notMem_contentLengthLine _), hbody,
    cString_eq_self (show (0 : UInt8) ∉ httpEol by decide)]
  rfl

theorem Tracks.accepted_iff {before written : Bytes} {link : Link} {o : Offered}
    (h : Tracks before written link o) {accepted pending : Bytes}
    (hcarried : accepted ++ pending = link.carried) :
    accepted = before ++ written ↔ o.lost = false ∧ pending = [] := by
  cases hlost : o.lost with
  | false =>
      rw [h.kept hlost] at hcarried
      rw [← hcarried]
      simp
  | true =>
      have hless := h.lost hlost
      rw [← hcarried, List.length_append] at hless
      refine iff_of_false (fun hall => ?_) (by simp)
      rw [hall] at hless
      omega

/-- Only a direct send loses what it is given. -/
theorem buffer_of_write_zero {link : Link} {data : Bytes} (hdata : data ≠ [])
    (hzero : (sendBufferWriteData link data).2 = 0) :
    (sendBufferWriteData link data).1.self.buffer = none := by
  have hlength := List.length_pos_of_ne_nil hdata
  rw [sendBufferWriteData] at hzero ⊢
  cases hbuffer : link.self.buffer with
  | some stream =>
      rw [hbuffer] at hzero
      exact absurd hzero hlength.ne'
  | none =>
      obtain ⟨channel, result, hsend⟩ :
          ∃ channel result, link.channel.send data = (channel, result) := ⟨_, _, rfl⟩
      rw [hbuffer, hsend] at hzero
      rw [hsend]
      cases result with
      | fails => exact hbuffer
      | wouldBlock => simp [SendResult.sent, hlength, hdata] at hzero
      | accepts m =>
          by_cases hshort : m < data.length
          · simp [SendResult.sent, hshort, hdata] at hzero
          · simp [SendResult.sent, hshort] at hzero
            omega

theorem Tracks.flush_iff {before written : Bytes} {link : Link} {o : Offered}
    (h : Tracks before written link o) :
    ((if (sendBufferFlush link).2 = 0 then 1 else 0) = 0 ↔
        (sendBufferFlush link).1.channel.accepted = before ++ written) ↔ Settled o := by
  have hcode : (if (sendBufferFlush link).2 = 0 then 1 else 0) = 0 ↔
      (sendBufferFlush link).2 ≠ 0 := by
    split <;> simp [*]
  have hreports := sendBufferFlush_reports h.coherent
  have haccepted := h.accepted_iff hreports.carried
  rw [hcode, haccepted, Settled]
  cases hbuffer : link.self.buffer with
  | none =>
      have hpending : link.pending = [] := (pending_eq_nil_iff h.coherent).mpr hbuffer
      have hwaiting : o.waiting = 0 := by
        rw [← h.waiting, hpending]
        rfl
      have hflush : sendBufferFlush link = (link, 0) := by
        simp only [sendBufferFlush, hbuffer]
      rw [hflush, if_pos hwaiting]
      simp [hpending]
  | some stream =>
      have hcounted := sendBufferFlush_counted h.coherent hbuffer
      have hcount := hcounted.count
      have hdrained := hcounted.drained
      rw [h.sends, h.waiting] at hcount hdrained
      have hwaiting : o.waiting ≠ 0 := by
        rw [← h.waiting]
        intro hzero
        have hnil := (pending_eq_nil_iff h.coherent).mp (List.eq_nil_of_length_eq_zero hzero)
        simp [hbuffer] at hnil
      rw [hcount, hdrained, if_neg hwaiting]
      by_cases hall : flushedBy o.sends o.waiting = some o.waiting
      · simp [hall, hwaiting]
      · simp [hall]

theorem Tracks.finish_iff {before written : Bytes} {link : Link} {o : Offered}
    (h : Tracks before written link o) {data : Bytes} (hdata : data ≠ []) :
    let last := sendBufferWriteData link data
    let handled : Handled := if last.2 = 0 then ⟨1, none, last.1⟩
      else ⟨if (sendBufferFlush last.1).2 = 0 then 1 else 0, none, (sendBufferFlush last.1).1⟩
    (handled.code = 0 ↔ handled.link.channel.accepted = before ++ (written ++ data)) ↔
      Settled (o.write data.length) := by
  have hlast := h.write hdata
  intro last handled
  by_cases hzero : last.2 = 0
  · have hnil : last.1.pending = [] :=
      (pending_eq_nil_iff hlast.coherent).mpr (buffer_of_write_zero hdata hzero)
    have hlost : (o.write data.length).lost = true := by
      have hwrite := write_offered h.coherent hdata o.lost
      rw [h.sends, h.waiting] at hwrite
      rw [hwrite]
      exact if_pos hzero
    have hwaiting : (o.write data.length).waiting = 0 := by
      rw [← hlast.waiting, hnil]
      rfl
    have hhandled : handled = ⟨1, none, last.1⟩ := if_pos hzero
    have haccepted : last.1.channel.accepted = before ++ (written ++ data) ↔ _ :=
      hlast.accepted_iff rfl
    rw [hhandled, Settled, if_pos hwaiting]
    simp only [haccepted, hlost]
    simp
  · have hhandled : handled = ⟨if (sendBufferFlush last.1).2 = 0 then 1 else 0, none,
      (sendBufferFlush last.1).1⟩ := if_neg hzero
    rw [hhandled]
    exact hlast.flush_iff

/-- The return value tells whether the response was accepted whole exactly when the
answers of the socket settle it. -/
theorem httpHeaderHandleError_complete_iff (world : World) (clientSocket : Nat) (channel : Channel)
    (error : Nat) :
    ((httpHeaderHandleError world ⟨sendBufferNew clientSocket 0, channel⟩ error).code = 0 ↔
        (httpHeaderHandleError world ⟨sendBufferNew clientSocket 0, channel⟩
          error).link.channel.accepted = channel.accepted ++ (errorWrites world error).flatten) ↔
      Settled (offered channel.sends (errorWrites world error)) := by
  have hnew : Tracks channel.accepted [] ⟨sendBufferNew clientSocket 0, channel⟩
      ⟨channel.sends, 0, false⟩ := ⟨rfl, rfl, rfl, fun _ => rfl, fun h => by simp at h⟩
  have hhead := hnew.writeAll (errorHead_ne_nil world error)
  have hoffered : offered channel.sends (errorWrites world error) =
      Offered.write (((errorHead world error).map List.length).foldl Offered.write
        ⟨channel.sends, 0, false⟩) (httpHeaderGetResponse error).length := by
    rw [offered, errorWrites, List.map_append, List.foldl_append]
    rfl
  have hflatten : (errorWrites world error).flatten =
      [] ++ (errorHead world error).flatten ++ httpHeaderGetResponse error := by
    rw [errorWrites, List.flatten_append]
    simp
  rw [httpHeaderHandleError_eq, hoffered, hflatten]
  exact hhead.finish_iff (httpHeaderGetResponse_textual error).1

/-- A response that is cut short after its first byte is reported as complete. -/
theorem httpHeaderHandleError_cut_short :
    (httpHeaderHandleError tenDigits
        ⟨sendBufferNew 3 0, ⟨[], [.wouldBlock, .accepts 1]⟩⟩ 404).code = 0 ∧
      (httpHeaderHandleError tenDigits
        ⟨sendBufferNew 3 0, ⟨[], [.wouldBlock, .accepts 1]⟩⟩ 404).link.channel.accepted =
          text "H" ∧
      (errorWrites tenDigits 404).flatten ≠ text "H" := by
  decide +kernel

end Response

end Newth.Server.ErrorResponse
