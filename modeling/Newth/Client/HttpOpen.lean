import Newth.Client.Headers
import Newth.Client.Io
import Newth.Client.ResponseHead
import Newth.Client.Send
import Newth.Client.Site

namespace Newth.Client.HttpOpen

open Newth.Library.ByteString
open Newth.Library.Call
open Newth.Library.Chunked
open Newth.Platform.FindString
open Newth.Platform.HttpTime
open Newth.Client.Headers
open Newth.Client.Io
open Newth.Client.Recvbufr
open Newth.Client.ResponseHead
open Newth.Client.Search
open Newth.Client.Send
open Newth.Client.Site
open Newth.Client.SiteFile
open Newth.Client.SiteHttp (HttpSite headersCompute)
open Newth.Client.Uri

section Model

/-- An HTTP site that is mounted, with its connection; `file` is the `meta` of the file that is
open on it. -/
structure HttpConnection where
  fullUri : Bytes
  sending : Sending
  file : Option SiteFileMeta
  deriving DecidableEq, Repr

def HttpConnection.socket (self : HttpConnection) : RecvBuffer := self.sending.self

def HttpConnection.setSocket (self : HttpConnection) (socket : RecvBuffer) : HttpConnection :=
  { self with sending := { self.sending with self := socket } }

/-- What the reads see of the connection. -/
def HttpConnection.site (self : HttpConnection) : HttpSite := ⟨some self.fullUri, self.socket⟩

inductive OpenError where
  | uriWasNotUnderstood
  | send (e : ErrorMessage)
  | head (e : HeadError)
  | notAValidHeaderLine
  deriving DecidableEq, Repr

/-- The header `GenerateHostHeader` leaves, a null pointer when there is no host. -/
def generateHostHeader (details : UriDetails) : Option Bytes :=
  details.host.map fun host => text "Host: " ++ (host ++ crlf)

def generateConnectionHeader (self : Option Bytes) : Bytes :=
  self.getD [] ++ (text "Connection: Keep-Alive" ++ crlf)

/-- The scheme and the response of the first line. -/
def ioHttpResponseHeaderEssential (headerFile : Bytes) : Option (Bytes × Bytes) := do
  let len ← strstr headerFile crlf
  let s := headerFile.take len
  let p ← strchr s (ascii ' ')
  some (s.take p, s.drop (p + 1))

/-- What `httpSiteSchemeStatOpenMeta` and `httpSiteSchemeFileOpenRead` begin with: the path is
asked for, and the head of the response is read. -/
def requestHead (self : HttpConnection) (path : Bytes) :
    Except Stop (HttpConnection × Except OpenError (Bytes × Bytes)) :=
  let d := uriDetailsNewFrom self.fullUri
  match d.path with
  | none => .ok (self, .error .uriWasNotUnderstood)
  | some currentPath => do
      match ← uriPathAbsoluteAppend currentPath path with
      -- `strlen` of a null pointer
      | none => .error .outOfBounds
      | some resolvedPath => do
          let extra := generateConnectionHeader (generateHostHeader d)
          let request := ioHttpRequestGenerateGet resolvedPath (some extra)
          let self := self.setSocket (recvBufferClear self.socket)
          let (sending, e) ← recvBufferSend self.sending request
          let self := { self with sending := sending }
          match e with
          | some e => .ok (self, .error (.send e))
          | none => do
              let (socket, header) ← ioHttpResponseHeaderRead self.socket
              let self := self.setSocket socket
              match header with
              | .error e => .ok (self, .error (.head e))
              | .ok header => .ok (self, .ok (resolvedPath, header))

/-- The name `httpSiteSchemeFileOpenRead` gives the file. A name in the path counts as the one
of the head when the two differ by a character in front. -/
def openedName (resolvedPath : Bytes) (fileName : Option Bytes) : Option Bytes :=
  match fileName with
  | none => uriPathLast resolvedPath
  | some fileName =>
      match uriPathLast resolvedPath with
      | none => some fileName
      | some p =>
          if resolvedPath.getLast? ≠ some (ascii '/') ∧ p.drop 1 = fileName then some p
          else some fileName

/-- `httpSiteSchemeFileOpenRead` for the whole file. -/
def httpSiteSchemeFileOpenRead (self : HttpConnection) (path : Bytes) :
    Except Stop (HttpConnection × Option OpenError) := do
  match ← requestHead self path with
  | (self, .error e) => .ok (self, some e)
  | (self, .ok (resolvedPath, header)) =>
      match ioHttpResponseHeaderEssential header with
      | none => .ok (self, some .notAValidHeaderLine)
      | some _ => do
          let headerResponse ← headersPopulate header noHeader
          let site ← headersCompute self.site headerResponse.toHttpResponseHeader (text "GET")
          let opened : SiteFileMeta := {
            modifiedDate := headerResponse.modifiedDate.map (·.toPlatformTimeStruct)
            name := openedName resolvedPath headerResponse.fileName
            path := some resolvedPath
            type := if headerResponse.attachment then .file else .directory }
          .ok ({ self.setSocket site.socket with file := some opened }, none)

/-- `httpSiteSchemeStatOpenMeta`; the request is a `GET` all the same. -/
def httpSiteSchemeStatOpenMeta (self : HttpConnection) (path : Bytes) :
    Except Stop (HttpConnection × Option SiteFileMeta) := do
  match ← requestHead self path with
  | (self, .error _) => .ok (self, none)
  | (self, .ok (resolvedPath, header)) =>
      match ioHttpResponseHeaderEssential header with
      | none => .ok (self, none)
      | some _ => do
          let headerResponse ← headersPopulate header noHeader
          let site ← headersCompute self.site headerResponse.toHttpResponseHeader (text "HEAD")
          let self := self.setSocket site.socket
          match headerResponse.fileName.or (uriPathLast resolvedPath) with
          | none => .ok (self, none)
          | some name => .ok (self, some {
              modifiedDate := headerResponse.modifiedDate.map (·.toPlatformTimeStruct)
              name := some name
              path := some resolvedPath
              type := if headerResponse.fileName.isSome then .file else .directory })

/-- `httpSiteSchemeFileAtEnd`. `RECV_BUFFER_DATA_LENGTH_UNKNOWN` is 0, so that its test for an
unknown length never holds. -/
def httpSiteSchemeFileAtEnd (self : HttpConnection) : Bool :=
  self.socket.length = .complete ∧ self.socket.len = 0

def httpSiteSchemeFileRead (self : HttpConnection) (size : Nat) :
    Except Stop (HttpConnection × Option Bytes) := do
  let (site, data) ← SiteHttp.httpSiteSchemeFileRead self.site size
  .ok (self.setSocket site.socket, data)

def httpSiteSchemeFileClose (self : HttpConnection) : HttpConnection := { self with file := none }

/-- The functions of an HTTP site. What a message of the open says is left to its caller. -/
def httpScheme : HttpScheme HttpConnection where
  fullUri := HttpConnection.fullUri
  statOpenMeta := httpSiteSchemeStatOpenMeta
  fileOpenRead := fun self path => do
    let (self, e) ← httpSiteSchemeFileOpenRead self path
    .ok (self, e.map fun _ => .failed)
  fileOpenMeta := HttpConnection.file
  fileRead := httpSiteSchemeFileRead
  fileAtEnd := httpSiteSchemeFileAtEnd
  fileClose := httpSiteSchemeFileClose

end Model

section Head

/-- A head as `ioHttpResponseHeaderRead` gives it, without the last of its line ends, and of a
length that it can read. -/
structure Readable (header : Bytes) : Prop where
  lines : ∃ top, top ≠ [] ∧ header = top ++ crlf ∧
    ∀ j < top.length, ¬ headEnd <+: (header ++ crlf).drop j
  text : 0 ∉ header
  fits : header.length + 2 ≤ sbDataSize

theorem recv_ready {ready : Bytes} (h : ready ≠ []) (arrivals : List Bytes) (ending : Ending)
    (n : Nat) (peek : Bool) :
    recv ⟨ready, [] :: arrivals, ending⟩ n peek =
      .ok (⟨if peek then ready else ready.drop n, arrivals, ending⟩, some (ready.take n)) := by
  have hawait : awaitByte ready ([] :: arrivals) = (ready, arrivals) := by
    rw [awaitByte, List.append_nil, if_neg h]
  cases ready with
  | nil => exact absurd rfl h
  | cons c ready => simp only [recv, hawait]

theorem ioHttpResponseHeaderRead_ready {header : Bytes} (h : Readable header)
    (length : RecvBufferLength) (arrivals : List Bytes) (ending : Ending) :
    ioHttpResponseHeaderRead ⟨none, length, ⟨header ++ crlf, [] :: arrivals, ending⟩⟩ =
      .ok (⟨none, .complete, ⟨[], arrivals, ending⟩⟩, .ok header) := by
  obtain ⟨⟨top, htop, rfl, hfirst⟩, htext, hfits⟩ := h
  let head := top ++ crlf ++ crlf
  have hpos := List.length_pos_iff.mpr htop
  have hlength : head.length = top.length + 4 := by
    simp only [head, List.length_append, show crlf.length = 2 from rfl]
  have hend : head = top ++ headEnd := List.append_assoc _ _ _
  have hbound : top.length + 4 ≤ 8192 := by
    rwa [List.length_append, show crlf.length = 2 from rfl] at hfits
  obtain ⟨hthere, hle, hnone⟩ := headEnd_first hend hfirst []
  rw [List.append_nil] at hthere hle hnone
  have hneedle : platformStringFindNeedleRaw head headEnd = some top.length := by
    rw [needleRaw_eq_some_iff (by decide)]
    simpa only [headEnd_prefix_map_iff] using ⟨hthere, hle, hnone⟩
  let filled : RecvBuffer := ⟨some head, .complete, ⟨[], arrivals, ending⟩⟩
  have hlen : filled.len = top.length + 4 := hlength
  have happend : recvBufferAppend ⟨none, .token headEnd 4, ⟨head, [] :: arrivals, ending⟩⟩
      sbDataSize = .ok (filled, none) := by
    have hne : head ≠ [] := List.ne_nil_of_length_pos (by omega)
    have hall : head.length ≤ min (sbDataSize - 0) sbDataSize := by
      rw [hlength]
      exact hbound
    obtain ⟨c, rest, hcons⟩ := List.exists_cons_of_ne_nil hne
    have hrecv : recv ⟨head, [] :: arrivals, ending⟩ (min (sbDataSize - 0) sbDataSize) false =
        .ok (⟨[], arrivals, ending⟩, some (c :: rest)) := by
      rw [recv_ready hne, List.take_of_length_le hall, if_neg Bool.false_ne_true,
        List.drop_eq_nil_of_le hall, hcons]
    rw [hcons] at hneedle
    apply run_succ_leave
    simp only [appendTurn, show 0 < sbDataSize by decide, if_true, hrecv, ok_bind, dataIncrement,
      bufferAppend, RecvBuffer.data, Option.getD_some, Option.getD_none, List.nil_append, hneedle,
      Option.isSome_some]
    rw [← hcons]
    rfl
  have hfill : fillTurn headEnd.length ⟨none, .token headEnd 4, ⟨head, [] :: arrivals, ending⟩⟩ =
      .ok (.again filled) := by
    simp only [fillTurn, Option.isNone_none, true_or, if_true, happend]
    rfl
  have henough : fillTurn headEnd.length filled = .ok (.leave (filled, none)) :=
    fillTurn_enough (by decide) (by rw [hlen]; exact Nat.le_add_left _ _)
  have hfound : fetchTurn headEnd 4096 filled = .ok (.leave (filled, none)) := by
    rw [fetchTurn, recvBufferFind_eq (by decide) (by omega)]
    rw [show filled.data = head from rfl, hneedle]
    rfl
  have hfetch : recvBufferFindAndFetch ⟨none, .token headEnd 4,
      ⟨head, [] :: arrivals, ending⟩⟩ headEnd 4096 = .ok (filled, none) := by
    have hmore : ¬ filled.len ≤ headEnd.length := by
      rw [hlen, show headEnd.length = 4 from rfl]
      omega
    rw [recvBufferFindAndFetch, if_neg (by decide), patience, run_succ_again _ hfill,
      run_succ_leave _ henough, ok_bind]
    simp only [Option.isSome_none, Bool.false_eq_true, if_false]
    rw [if_neg hmore, ok_bind]
    simp only [Option.isSome_none, Bool.false_eq_true, if_false]
    exact run_succ_leave _ hfound
  have hget : recvBufferFetch filled 0 (filled.len + 1) = .ok (.ok head) := by
    rw [recvBufferFetch, if_pos ⟨rfl, by omega⟩, if_neg (by omega), if_pos (by omega)]
    rfl
  have hstring : cString head = head := by
    apply cString_eq_self
    simp only [head, List.mem_append, not_or] at htext ⊢
    exact ⟨htext, by decide⟩
  have hfind : strstr head headEnd = some top.length :=
    strstr_eq_some_iff.mpr ⟨hthere, hle, hnone⟩
  have htake : head.take (top.length + 2) = top ++ crlf :=
    List.take_left' (by rw [List.length_append]; rfl)
  have hditch : recvBufferDitch filled (top.length + 2 + 2) =
      ⟨none, .complete, ⟨[], arrivals, ending⟩⟩ := by
    rw [recvBufferDitch, if_neg (by omega), if_neg (by omega)]
  simp only [ioHttpResponseHeaderRead, recvBufferSetLengthToken, hfetch, ok_bind, hget, hstring,
    hfind, htake, hditch, head]

/-- A site that has no file open, whose server answers with `response` at once. -/
def awaiting (response : Bytes) (arrivals : List Bytes) (ending : Ending) : HttpConnection where
  fullUri := text "http://h/"
  sending := ⟨⟨none, .complete, ⟨response, [] :: [] :: arrivals, ending⟩⟩, ⟨[], .takesAll⟩, [], []⟩
  file := none

/-- What the reads see of such a site once the head has been read. -/
def answered (arrivals : List Bytes) (ending : Ending) : HttpSite :=
  ⟨some (text "http://h/"), ⟨none, .complete, ⟨[], arrivals, ending⟩⟩⟩

theorem requestHead_awaiting {header : Bytes} (h : Readable header) (arrivals : List Bytes)
    (ending : Ending) :
    ∃ conn, requestHead (awaiting (header ++ crlf) arrivals ending) (text "a") =
        .ok (conn, .ok (text "/a", header)) ∧ conn.site = answered arrivals ending := by
  have hne : header ++ crlf ≠ [] := by simp [crlf]
  obtain ⟨c, rest, hcons⟩ := List.exists_cons_of_ne_nil hne
  let request := ioHttpRequestGenerateGet (text "/a")
    (some (generateConnectionHeader (some (text "Host: h" ++ crlf))))
  let replied : RecvBuffer :=
    ⟨none, .unknown 0 sbDataSize, ⟨header ++ crlf, [] :: arrivals, ending⟩⟩
  have hsend : recvBufferSend (awaiting (header ++ crlf) arrivals ending).sending request =
      .ok (⟨replied, ⟨[], .takesAll⟩, request, []⟩, none) := by
    have hpeek : recv ⟨header ++ crlf, [] :: [] :: arrivals, ending⟩ sbDataSize true =
        .ok (replied.serverSocket, some (c :: rest)) := by
      have hall : (header ++ crlf).length ≤ sbDataSize := by
        rw [List.length_append]
        exact h.fits
      rw [recv_ready hne, List.take_of_length_le hall, if_pos rfl]
      simp only [replied, hcons]
    let prepared : Sending := ⟨⟨none, .unknown 0 sbDataSize,
      ⟨header ++ crlf, [] :: [] :: arrivals, ending⟩⟩, ⟨[], .takesAll⟩, [], []⟩
    have hattempt : attempt request prepared 0 =
        .ok (⟨replied, ⟨[], .takesAll⟩, request, []⟩, request.length, true) := by
      simp only [attempt, prepared, keepSending, ok_bind, if_true, List.nil_append, List.drop_zero,
        hpeek]
      rfl
    show attempts request 2 none prepared 0 = _
    rw [attempts, hattempt, ok_bind]
    rfl
  have hread := ioHttpResponseHeaderRead_ready h (.unknown 0 sbDataSize) arrivals ending
  refine ⟨⟨text "http://h/",
      ⟨⟨none, .complete, ⟨[], arrivals, ending⟩⟩, ⟨[], .takesAll⟩, request, []⟩,
    none⟩, ?_, rfl⟩
  have hdetails : uriDetailsNewFrom (text "http://h/") =
      ⟨some (text "http"), some (text "h"), none, some (text "/"), none⟩ := rfl
  have happend : uriPathAbsoluteAppend (text "/") (text "a") = .ok (some (text "/a")) := rfl
  have hrequest : ioHttpRequestGenerateGet (text "/a") (some (generateConnectionHeader
      (generateHostHeader ⟨some (text "http"), some (text "h"), none, some (text "/"), none⟩))) =
      request := rfl
  have hclear : ((awaiting (header ++ crlf) arrivals ending).setSocket
      (recvBufferClear (awaiting (header ++ crlf) arrivals ending).socket)).sending =
      (awaiting (header ++ crlf) arrivals ending).sending := rfl
  simp only [requestHead, show (awaiting (header ++ crlf) arrivals ending).fullUri =
    text "http://h/" from rfl, hdetails, happend, ok_bind, hrequest, hclear, hsend]
  simp only [HttpConnection.socket, replied, hread, ok_bind]
  rfl

end Head

end Newth.Client.HttpOpen
