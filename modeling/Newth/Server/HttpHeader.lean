import Newth.Common.Hex
import Newth.Library.Numeral
import Newth.Server.Sendbufr

namespace Newth.Server.HttpHeader

open Newth.Common.Hex
open Newth.Library.ByteString
open Newth.Library.Call
open Newth.Library.Numeral
open Newth.Server.Sendbufr

def httpEol : Bytes := [13, 10]

inductive HttpType where
  | httpGet
  | httpHead
  | httpPost
  | httpUnknown
  deriving DecidableEq, Repr

inductive FileKind where
  | directory
  | file
  | other
  deriving DecidableEq, Repr

/-- What the handlers read of a `struct stat`. -/
structure FileStat where
  size : Int
  mtime : Int
  kind : FileKind
  deriving DecidableEq, Repr

/-- `platformGetCurrentTime` at the moment of the response, and `platformGetTime`. -/
structure Clock where
  currentTime : Bytes
  time : Int → Bytes

/-- A 64-bit offset as `%lu` prints it. -/
def pfOffset (offset : Int) : Bytes := numeral 10 (offset % 2 ^ 64).toNat

def httpHeaderGetResponse (response : Nat) : Bytes :=
  match response with
  | 200 => text "200 OK"
  | 204 => text "204 No Content"
  | 206 => text "206 Partial Content"
  | 304 => text "304 Not Modified"
  | 404 => text "404 Not Found"
  | 431 => text "431 Request Header Fields Too Large"
  | _ => text "500 Internal Server Error"

def statusLine (response : Bytes) : Bytes := text "HTTP/1.1 " ++ response ++ httpEol

def httpHeaderWriteResponseStr (link : Link) (response : Bytes) : Link :=
  let len := (text "HTTP/1.1").length + response.length + httpEol.length + 2
  sendBufferPrintf link ⟨len, statusLine response⟩

def httpHeaderWriteResponse (link : Link) (response : Nat) : Link :=
  httpHeaderWriteResponseStr link (httpHeaderGetResponse response)

def dateLine (clock : Clock) : Bytes := text "Date: " ++ cString clock.currentTime ++ httpEol

def httpHeaderWriteDate (link : Link) (clock : Clock) : Link :=
  sendBufferPrintf link ⟨40, dateLine clock⟩

/-- The name after the last slash, or the whole path. -/
def fileName (path : Bytes) : Bytes :=
  ((cString path).reverse.takeWhile (· != ascii '/')).reverse

def fileNameLine (path : Bytes) : Bytes :=
  text "Content-Disposition: filename=\"" ++ fileName path ++ text "\"" ++ httpEol

def httpHeaderWriteFileName (link : Link) (path : Bytes) : Link :=
  sendBufferPrintf link ⟨(fileName path).length + 40, fileNameLine path⟩

def lastModifiedLine (clock : Clock) (st : FileStat) : Bytes :=
  text "Last-Modified: " ++ cString (clock.time st.mtime) ++ httpEol

def httpHeaderWriteLastModified (link : Link) (clock : Clock) (st : FileStat) : Link :=
  sendBufferPrintf link ⟨50, lastModifiedLine clock st⟩

def acceptRangesLine : Bytes := text "Accept-Ranges: bytes" ++ httpEol

def httpHeaderWriteAcceptRanges (link : Link) : Link :=
  (sendBufferWriteText link acceptRangesLine).1

def chunkedLine : Bytes := text "Transfer-Encoding: chunked" ++ httpEol

def httpHeaderWriteChunkedEncoding (link : Link) : Link :=
  (sendBufferWriteText link chunkedLine).1

def contentTypeLine (type charSet : Bytes) : Bytes :=
  text "Content-Type: " ++ cString type ++ text "; " ++ cString charSet ++ httpEol

/-- A line that does not fit a block is left out. -/
def httpHeaderWriteContentType (link : Link) (type charSet : Bytes) : Link :=
  let len := (cString type).length + (cString charSet).length +
    (text "Content-Type: ;" ++ httpEol).length + 1
  if len < sbDataSize then sendBufferPrintf link ⟨len, contentTypeLine type charSet⟩ else link

def contentLengthLine (length : Int) : Bytes :=
  text "Content-Length: " ++ pfOffset length ++ httpEol

def httpHeaderWriteContentLength (link : Link) (length : Int) : Link :=
  sendBufferPrintf link ⟨80, contentLengthLine length⟩

def contentRangeLine (first last total : Int) : Bytes :=
  text "Content-Range: bytes " ++ pfOffset first ++ text "-" ++ pfOffset last ++
    text "/" ++ pfOffset total ++ httpEol

def httpHeaderWriteRange (link : Link) (start finish fileLength : Int) : Link :=
  let last := if finish = fileLength then finish - 1 else finish
  sendBufferPrintf link ⟨sbDataSize, contentRangeLine start last fileLength⟩

def httpHeaderWriteEnd (link : Link) : Link := (sendBufferWriteText link httpEol).1

/-- What `httpClientReadUri` copies: the bytes between the first two spaces. -/
def requestTarget (request : Bytes) : Option Bytes := do
  let start ← strchr request (ascii ' ')
  let afterStart := request.drop (start + 1)
  let len ← strchr afterStart (ascii ' ')
  some (afterStart.take len)

def httpClientReadUri (request : Bytes) : Except Stop (Option Bytes) :=
  match requestTarget request with
  | none => .ok none
  | some path => (hexConvertStringToAscii path).map some

def httpClientReadType (request : Bytes) : HttpType :=
  match request.head? with
  | some c =>
      if c = ascii 'G' ∨ c = ascii 'g' then .httpGet
      else if c = ascii 'H' ∨ c = ascii 'h' then .httpHead
      else if c = ascii 'P' ∨ c = ascii 'p' then .httpPost
      else .httpUnknown
  | none => .httpUnknown

/-- Skip to a header's value; the length is that of the rest of the line. -/
def httpHeaderDataClamp (str : Bytes) : Bytes × Nat :=
  let str := str.dropWhile fun c => c == ascii ' ' || c == ascii ':' || c == ascii '\t'
  if str.head? = some (ascii '\r') ∨ str.head? = some (ascii '\n') then (str, 0)
  else
    match strchr str (ascii '\r') with
    | some length => (str, length)
    | none => (str, (strchr str (ascii '\n')).getD 0)

/-- The offsets of the value `bytes=first-last`; its first `=` and `-` become NULs. -/
def rangeValues (range : Bytes) (start finish max : Int) : Option (Int × Int) :=
  match strchr range (ascii '='), strchr range (ascii '-') with
  | some equ, some dash =>
      let range := (range.set equ 0).set dash 0
      let first := cString (range.drop (equ + 1))
      let last := cString (range.drop (dash + 1))
      let start := if equ + 1 ≠ dash then atol first else start
      let finish := if last ≠ [] then atol last else finish
      some (start, if finish = 0 then max else finish)
  | _, _ => none

/-- `none` is the return value 1, which leaves `start` and `finish` alone. -/
def httpHeaderReadRange (request : Bytes) (start finish max : Int) : Option (Int × Int) :=
  match strstr request (text "Range") with
  | none => none
  | some header =>
      let (data, strLength) := httpHeaderDataClamp (request.drop (header + (text "Range").length))
      let range := data.take strLength
      if 128 - 1 ≤ strLength then none
      else if (strstr range (text "bytes=")).isNone then none
      else rangeValues range start finish max

example : httpHeaderReadRange (text "\nRange: bytes=2-7\r") 0 0 10 = some (2, 7) := by decide

theorem requestTarget_append {method target : Bytes} (hmethod : ascii ' ' ∉ method)
    (htarget : ascii ' ' ∉ target) (rest : Bytes) :
    requestTarget (method ++ ascii ' ' :: (target ++ ascii ' ' :: rest)) = some target := by
  have hskip : (method ++ ascii ' ' :: (target ++ ascii ' ' :: rest)).drop (method.length + 1)
      = target ++ ascii ' ' :: rest := by
    rw [List.drop_length_add_append]
    rfl
  simp [requestTarget, strchr_append hmethod, hskip, strchr_append htarget]

theorem httpClientReadUri_ok_iff {request path : Bytes} :
    httpClientReadUri request = .ok (some path) ↔
      ∃ target, requestTarget request = some target ∧
        hexConvertStringToAscii target = .ok path := by
  rw [httpClientReadUri]
  cases requestTarget request with
  | none => simp
  | some target => simp [map_eq_ok_iff]

theorem rangeValues_bounds {range : Bytes} {max start finish : Int} (hmax : max ≠ 0)
    (h : rangeValues range 0 0 max = some (start, finish)) :
    -2 ^ 63 ≤ start ∧ start < 2 ^ 63 ∧ finish ≠ 0 ∧
      (finish = max ∨ -2 ^ 63 ≤ finish ∧ finish < 2 ^ 63) := by
  rw [rangeValues] at h
  split at h
  · obtain ⟨rfl, rfl⟩ := Prod.mk.inj (Option.some.inj h)
    have hbound : ∀ c : Prop, ∀ [Decidable c], ∀ s : Bytes,
        -2 ^ 63 ≤ (if c then atol s else 0) ∧ (if c then atol s else 0) < 2 ^ 63 := by
      intro c _ s
      split
      · exact atol_bounds s
      · decide
    have hlast : ∀ v : Int, -2 ^ 63 ≤ v ∧ v < 2 ^ 63 → (if v = 0 then max else v) ≠ 0 ∧
        ((if v = 0 then max else v) = max ∨
          -2 ^ 63 ≤ (if v = 0 then max else v) ∧ (if v = 0 then max else v) < 2 ^ 63) := by
      intro v hv
      split
      · exact ⟨hmax, .inl rfl⟩
      · rename_i hne
        exact ⟨hne, .inr hv⟩
    exact ⟨(hbound _ _).1, (hbound _ _).2, hlast _ (hbound _ _)⟩
  · simp at h

theorem httpHeaderReadRange_bounds {request : Bytes} {max start finish : Int} (hmax : max ≠ 0)
    (h : httpHeaderReadRange request 0 0 max = some (start, finish)) :
    -2 ^ 63 ≤ start ∧ start < 2 ^ 63 ∧ finish ≠ 0 ∧
      (finish = max ∨ -2 ^ 63 ≤ finish ∧ finish < 2 ^ 63) := by
  rw [httpHeaderReadRange] at h
  split at h
  · simp at h
  · simp only at h
    split at h
    · simp at h
    · split at h
      · simp at h
      · exact rangeValues_bounds hmax h

section Lines

theorem zero_notMem_numeral (base n : Nat) (hbase : 1 < base) (hle : base ≤ 16) :
    (0 : UInt8) ∉ numeral base n :=
  notMem_numeral hbase hle (by decide)

theorem zero_notMem_pfOffset (offset : Int) : (0 : UInt8) ∉ pfOffset offset :=
  zero_notMem_numeral 10 _ (by decide) (by decide)

theorem zero_notMem_statusLine (response : Nat) :
    (0 : UInt8) ∉ statusLine (httpHeaderGetResponse response) := by
  unfold httpHeaderGetResponse
  split <;> decide

theorem zero_notMem_dateLine (clock : Clock) : (0 : UInt8) ∉ dateLine clock := by
  simp only [dateLine, List.mem_append, not_or]
  exact ⟨⟨by decide, zero_notMem_cString _⟩, by decide⟩

theorem zero_notMem_fileNameLine (path : Bytes) : (0 : UInt8) ∉ fileNameLine path := by
  simp only [fileNameLine, List.mem_append, not_or]
  refine ⟨⟨⟨by decide, ?_⟩, by decide⟩, by decide⟩
  intro hmem
  have hreverse := List.takeWhile_sublist _ |>.mem (List.mem_reverse.mp hmem)
  exact zero_notMem_cString path (List.mem_reverse.mp hreverse)

theorem zero_notMem_lastModifiedLine (clock : Clock) (st : FileStat) :
    (0 : UInt8) ∉ lastModifiedLine clock st := by
  simp only [lastModifiedLine, List.mem_append, not_or]
  exact ⟨⟨by decide, zero_notMem_cString _⟩, by decide⟩

theorem zero_notMem_contentTypeLine (type charSet : Bytes) :
    (0 : UInt8) ∉ contentTypeLine type charSet := by
  simp only [contentTypeLine, List.mem_append, not_or]
  exact ⟨⟨⟨⟨by decide, zero_notMem_cString _⟩, by decide⟩, zero_notMem_cString _⟩, by decide⟩

theorem zero_notMem_contentLengthLine (length : Int) :
    (0 : UInt8) ∉ contentLengthLine length := by
  simp only [contentLengthLine, List.mem_append, not_or]
  exact ⟨⟨by decide, zero_notMem_pfOffset _⟩, by decide⟩

theorem zero_notMem_contentRangeLine (first last total : Int) :
    (0 : UInt8) ∉ contentRangeLine first last total := by
  simp only [contentRangeLine, List.mem_append, not_or]
  exact ⟨⟨⟨⟨⟨⟨by decide, zero_notMem_pfOffset _⟩, by decide⟩, zero_notMem_pfOffset _⟩,
    by decide⟩, zero_notMem_pfOffset _⟩, by decide⟩

end Lines

end Newth.Server.HttpHeader
