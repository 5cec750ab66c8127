import Newth.Client.Search

namespace Newth.Client.ResponseHead

open Newth.Library.ByteString
open Newth.Library.Call
open Newth.Library.Chunked
open Newth.Platform.FindString
open Newth.Client.Recvbufr
open Newth.Client.Search

section Read

inductive HeadError where
  | recvBuffer (e : ErrorMessage)
  | noTokenFound
  deriving DecidableEq, Repr

/-- The end of a head. -/
def headEnd : Bytes := crlf ++ crlf

/-- `ioHttpResponseHeaderRead`: the head up to the first of its two last line ends. -/
def ioHttpResponseHeaderRead (socket : RecvBuffer) :
    Except Stop (RecvBuffer × Except HeadError Bytes) := do
  let socket := recvBufferSetLengthToken socket headEnd 4
  let (socket, e) ← recvBufferFindAndFetch socket headEnd 4096
  match e with
  | some e => .ok (socket, .error (.recvBuffer e))
  | none => do
      match ← recvBufferFetch socket 0 (socket.len + 1) with
      | .error e => .ok (socket, .error (.recvBuffer e))
      | .ok data =>
          let header := cString data
          match strstr header headEnd with
          | none => .ok (socket, .error .noTokenFound)
          | some t =>
              let len := t + 2
              .ok (recvBufferDitch socket (len + 2), .ok (header.take len))

variable {stream token : Bytes} {o : Nat}

/-- The bytes of a stream, a front of them buffered. -/
structure Streaming (stream : Bytes) (buffer : RecvBuffer) : Prop where
  whole : buffer.data ++ buffer.serverSocket.rest = stream

theorem Streaming.data_eq {self : RecvBuffer} (h : Streaming stream self) :
    self.data = stream.take self.len := by
  rw [← h.whole, RecvBuffer.len, List.take_left]

theorem Streaming.needleRaw {self : RecvBuffer} (h : Streaming stream self) (htoken : token ≠ [])
    (hfind : platformStringFindNeedleRaw stream token = some o) :
    platformStringFindNeedleRaw self.data token =
      if o + token.length ≤ self.len then some o else none := by
  rw [h.data_eq]
  exact needleRaw_take htoken hfind self.len

theorem appendTurn_token {self : RecvBuffer} {n len i : Nat} (h : Streaming stream self)
    (htoken : token ≠ []) (hfind : platformStringFindNeedleRaw stream token = some o)
    (hmode : self.length = .token token n) (hi : i < len) (hshort : self.len < o + token.length) :
    ∃ self' added, Streaming stream self' ∧ 0 < added ∧ self'.len = self.len + added ∧
      appendTurn len (self, i) = .ok
        (if o + token.length ≤ self'.len then .leave (recvBufferSetLengthComplete self', none)
        else .again ({ self' with length := .token token (n + added) }, i + added)) := by
  have hbound := needleRaw_bound htoken hfind
  have hrest : self.serverSocket.rest ≠ [] := by
    intro hnothing
    have hlength := congrArg List.length h.whole
    rw [hnothing, List.append_nil, ← RecvBuffer.len] at hlength
    omega
  have hpos : 0 < min (len - i) sbDataSize := by
    rw [sbDataSize]
    omega
  obtain ⟨data, socket, hdata, -, hflat, -, hrecv⟩ := recv_takes hpos hrest
  let self' := bufferAppend { self with serverSocket := socket } data
  have hself' : self'.data = self.data ++ data := rfl
  have hstream : Streaming stream self' := by
    constructor
    rw [hself', List.append_assoc]
    show self.data ++ (data ++ socket.rest) = stream
    rw [hflat, h.whole]
  have hlen : self'.len = self.len + data.length := by
    rw [RecvBuffer.len, hself', List.length_append, RecvBuffer.len]
  refine ⟨self', data.length, hstream, List.length_pos_iff.mpr hdata, hlen, ?_⟩
  have hneedle := hstream.needleRaw htoken hfind
  cases data with
  | nil => exact absurd rfl hdata
  | cons c data =>
      simp only [appendTurn, hi, if_true, hrecv, ok_bind]
      have hlength : self'.length = .token token n := hmode
      rw [show bufferAppend { self with serverSocket := socket } (c :: data) = self' from rfl]
      simp only [dataIncrement, hlength, hneedle]
      by_cases hthere : o + token.length ≤ self'.len
      · simp [hthere]
      · simp [hthere]

/-- An append that may ask for enough brings the token and stops right there. -/
theorem recvBufferAppend_token {self : RecvBuffer} {n len : Nat} (h : Streaming stream self)
    (htoken : token ≠ []) (hfind : platformStringFindNeedleRaw stream token = some o)
    (hmode : self.length = .token token n) (hshort : self.len < o + token.length)
    (hnear : o + token.length ≤ self.len + len) :
    ∃ self', recvBufferAppend self len = .ok (self', none) ∧ Streaming stream self' ∧
      o + token.length ≤ self'.len := by
  have happend : recvBufferAppend self len =
      run (appendTurn len) (len + 1) ({ self with buffer := some self.data }, 0) := by
    rw [recvBufferAppend, hmode]
  let invariant : RecvBuffer × Nat → Prop := fun s =>
    Streaming stream s.1 ∧ s.1.len = self.len + s.2 ∧ s.1.len < o + token.length ∧
      ∃ n, s.1.length = .token token n
  let post : RecvBuffer × Option ErrorMessage → Prop := fun r =>
    r.2 = none ∧ Streaming stream r.1 ∧ o + token.length ≤ r.1.len
  obtain ⟨⟨self', e⟩, hrun, he, hstream, hthere⟩ : ∃ r, run (appendTurn len) (len + 1)
      ({ self with buffer := some self.data }, 0) = .ok r ∧ post r := by
    apply run_total invariant (fun s => o + token.length - s.1.len)
    · rintro ⟨s, i⟩ ⟨hstream, hlen, hless, n, hlength⟩
      simp only at hstream hlen hless hlength
      obtain ⟨s', added, hstream', hpos, hlen', hturn⟩ :=
        appendTurn_token hstream htoken hfind hlength (show i < len by omega) hless
      refine ⟨_, hturn, ?_⟩
      split
      · rename_i hthere
        exact ⟨rfl, ⟨hstream'.whole⟩, hthere⟩
      · rename_i hmissing
        have hless' : s'.len < o + token.length := Nat.not_le.mp hmissing
        refine ⟨⟨⟨hstream'.whole⟩, ?_, hless', n + added, rfl⟩, ?_⟩
        · show s'.len = self.len + (i + added)
          omega
        · show o + token.length - s'.len < o + token.length - s.len
          omega
    · exact ⟨⟨h.whole⟩, rfl, hshort, n, hmode⟩
    · show o + token.length - self.len < len + 1
      omega
  simp only at he
  subst he
  exact ⟨self', happend.trans hrun, hstream, hthere⟩

theorem recvBufferFindAndFetch_token {self : RecvBuffer} {n max : Nat} (h : Streaming stream self)
    (htoken : 2 ≤ token.length) (hmax : token.length ≤ max)
    (hfind : platformStringFindNeedleRaw stream token = some o) (hpos : 0 < o)
    (hmode : self.length = .token token n) (hempty : self.data = [])
    (hnear : o + token.length ≤ sbDataSize) :
    ∃ self', recvBufferFindAndFetch self token max = .ok (self', none) ∧ Streaming stream self' ∧
      o + token.length ≤ self'.len := by
  have hne : token ≠ [] := List.ne_nil_of_length_pos (by omega)
  have hlen : self.len = 0 := by rw [RecvBuffer.len, hempty, List.length_nil]
  obtain ⟨self', happend, hstream, hthere⟩ :=
    recvBufferAppend_token h hne hfind hmode (by omega)
      (by omega : o + token.length ≤ self.len + sbDataSize)
  have hfirst : fillTurn token.length self = .ok (.again self') := by
    rw [fillTurn, if_pos (.inr (by omega)), happend]
    rfl
  have hsecond : fillTurn token.length self' = .ok (.leave (self', none)) :=
    fillTurn_enough (by omega) (by omega)
  have hfound : fetchTurn token max self' = .ok (.leave (self', none)) := by
    rw [fetchTurn, recvBufferFind_eq htoken (by omega), hstream.needleRaw hne hfind,
      if_pos hthere]
    rfl
  refine ⟨self', ?_, hstream, hthere⟩
  rw [recvBufferFindAndFetch, if_neg (by omega), patience, run_succ_again _ hfirst,
    run_succ_leave _ hsecond, ok_bind]
  simp only [Option.isSome_none, Bool.false_eq_true, if_false]
  rw [if_neg (by omega), ok_bind]
  simp only [Option.isSome_none, Bool.false_eq_true, if_false]
  exact run_succ_leave _ hfound

end Read

section Head

theorem headEnd_prefix_map_iff (s : Bytes) :
    headEnd.map toupper <+: s.map toupper ↔ headEnd <+: s := by
  have hupper : headEnd.map toupper = headEnd := by decide
  have hcr : ∀ c, 13 = toupper c ↔ 13 = c := by
    intro c
    rw [eq_comm, toupper_eq_iff (by decide), eq_comm]
  have hlf : ∀ c, 10 = toupper c ↔ 10 = c := by
    intro c
    rw [eq_comm, toupper_eq_iff (by decide), eq_comm]
  rw [hupper]
  match s with
  | [] => rfl
  | [a] => simp [headEnd, crlf, List.cons_prefix_cons]
  | [a, b] => simp [headEnd, crlf, List.cons_prefix_cons]
  | [a, b, c] => simp [headEnd, crlf, List.cons_prefix_cons]
  | a :: b :: c :: d :: rest => simp [headEnd, crlf, List.cons_prefix_cons, hcr, hlf]

variable {head top body : Bytes}

theorem headEnd_first (hend : head = top ++ headEnd)
    (hfirst : ∀ j < top.length, ¬ headEnd <+: head.drop j) (body : Bytes) :
    headEnd <+: (head ++ body).drop top.length ∧ top.length ≤ (head ++ body).length ∧
      ∀ j < top.length, ¬ headEnd <+: (head ++ body).drop j := by
  have hlength : head.length = top.length + 4 := by rw [hend, List.length_append]; rfl
  refine ⟨?_, by rw [List.length_append]; omega, ?_⟩
  · rw [hend, List.append_assoc, List.drop_left]
    exact List.prefix_append _ _
  · intro j hj hearly
    apply hfirst j hj
    rw [List.drop_append_of_le_length (by omega)] at hearly
    apply List.prefix_of_prefix_length_le hearly (List.prefix_append _ _)
    rw [List.length_drop, hlength]
    show 4 ≤ _
    omega

/-- Reading a response head leaves the body, whatever comes with the head. -/
theorem ioHttpResponseHeaderRead_splits {self : RecvBuffer} (hempty : self.data = [])
    (hstream : self.serverSocket.rest = head ++ body) (hend : head = top ++ headEnd)
    (hfirst : ∀ j < top.length, ¬ headEnd <+: head.drop j) (htext : 0 ∉ head)
    (hshort : 5 ≤ head.length) (hlong : head.length ≤ min 4096 sbDataSize) :
    ∃ self' header, ioHttpResponseHeaderRead self = .ok (self', .ok header) ∧
      header ++ crlf = head ∧ self'.data ++ self'.serverSocket.rest = body := by
  have hlength : head.length = top.length + 4 := by rw [hend, List.length_append]; rfl
  have hneedle : platformStringFindNeedleRaw (head ++ body) headEnd = some top.length := by
    rw [needleRaw_eq_some_iff (by decide)]
    simpa only [headEnd_prefix_map_iff] using headEnd_first hend hfirst body
  have hstart : Streaming (head ++ body) (recvBufferSetLengthToken self headEnd 4) := by
    constructor
    show self.data ++ self.serverSocket.rest = _
    rw [hempty, List.nil_append, hstream]
  obtain ⟨self', hfetch, hstream', hthere⟩ :=
    recvBufferFindAndFetch_token hstart (by decide) (by decide : headEnd.length ≤ 4096) hneedle
      (by omega) rfl hempty (show top.length + 4 ≤ sbDataSize by omega)
  have hwhole : head.length ≤ self'.len := by
    rw [hlength]
    exact hthere
  have hdata : self'.data = head ++ body.take (self'.len - head.length) := by
    rw [hstream'.data_eq, List.take_append, List.take_of_length_le hwhole]
  have hsome : self'.buffer.isSome = true := by
    cases hbuffer : self'.buffer with
    | none =>
        have hnone : self'.len = 0 := by
          rw [RecvBuffer.len, RecvBuffer.data, hbuffer]
          rfl
        omega
    | some data => rfl
  have hget : recvBufferFetch self' 0 (self'.len + 1) = .ok (.ok self'.data) := by
    rw [recvBufferFetch, if_pos ⟨hsome, by omega⟩, if_neg (by omega), if_pos (by omega)]
    rfl
  have hcut : cString self'.data = head ++ cString (body.take (self'.len - head.length)) := by
    rw [hdata, cString_append htext]
  have hfind : strstr (cString self'.data) headEnd = some top.length := by
    rw [hcut, strstr_eq_some_iff]
    exact headEnd_first hend hfirst _
  have hlines : top ++ crlf ++ crlf = head := by
    rw [hend, List.append_assoc]
    rfl
  have hheader : (cString self'.data).take (top.length + 2) = top ++ crlf := by
    rw [hcut, ← hlines, List.append_assoc]
    exact List.take_left' (by rw [List.length_append]; rfl)
  refine ⟨recvBufferDitch self' (top.length + 2 + 2), top ++ crlf, ?_, hlines, ?_⟩
  · simp only [ioHttpResponseHeaderRead, hfetch, ok_bind, hget, hfind, hheader]
  · rw [recvBufferDitch_data, recvBufferDitch_serverSocket,
      show top.length + 2 + 2 = head.length by omega]
    have hdrop : (self'.data ++ self'.serverSocket.rest).drop head.length = body := by
      rw [hstream'.whole, List.drop_left]
    rwa [List.drop_append_of_le_length hwhole] at hdrop

theorem ioHttpResponseHeaderRead_sample :
    ∃ self' header, ioHttpResponseHeaderRead ⟨none, .complete,
        ⟨text "HTTP/1.1 200 OK\r", [[], text "\n\r\nab", text "c"], .idle⟩⟩ =
        .ok (self', .ok header) ∧
      header ++ crlf = text "HTTP/1.1 200 OK\r\n\r\n" ∧
      self'.data ++ self'.serverSocket.rest = text "abc" :=
  @ioHttpResponseHeaderRead_splits _ (text "HTTP/1.1 200 OK") (text "abc") _ rfl (by decide)
    (by decide) (by decide +kernel) (by decide) (by decide) (by decide)

end Head

end Newth.Client.ResponseHead
