import Newth.Platform.HttpTime
import Newth.Server.Handlers

namespace Newth.Server.ModifiedSince

open Newth.Client.SiteFile
open Newth.Library.ByteString
open Newth.Library.Call
open Newth.Library.Scan
open Newth.Platform.HttpTime
open Newth.Platform.WebPath
open Newth.Server.Handlers
open Newth.Server.HttpBody
open Newth.Server.HttpHeader
open Newth.Server.Routines
open Newth.Server.Sendbufr

/-- `ValidHttpDateStr`; behind the end of the text nothing matches. -/
def validHttpDateStr (date : Bytes) : Bool :=
  date.getD 3 0 == ascii ',' && date.getD 4 0 == ascii ' ' && date.getD 7 0 == ascii ' ' &&
    date.getD 11 0 == ascii ' ' && date.getD 16 0 == ascii ' ' && date.getD 19 0 == ascii ':' &&
    date.getD 22 0 == ascii ':' && date.getD 25 0 == ascii ' '

def ifModifiedSince : Bytes := text "If-Modified-Since"

/-- `httpHeaderReadIfModifiedSince`, over what `tm` holds before; `none` is the
return value 1. -/
def httpHeaderReadIfModifiedSince (request : Bytes) (tm : Tm) : Option Tm :=
  match strstr request ifModifiedSince with
  | none => none
  | some header =>
      let (data, length) := httpHeaderDataClamp (request.drop (header + ifModifiedSince.length))
      if length ≠ 0 ∧ length < 39 ∧ validHttpDateStr data then
        match platformTimeGetFromHttpStr (data.take length) tm with
        | (tm, true) => some tm
        | (_, false) => none
      else none

/-- The test of `handlePath` for an answer 304, with `tm` as it is found on the stack. -/
def notModified (tm : Tm) (header : Bytes) (st : FileStat) : Bool :=
  match httpHeaderReadIfModifiedSince header tm with
  | none => false
  | some tm =>
      match platformGetTimeStruct st.mtime with
      | none => false
      | some mt => platformTimeStructCompare tm.toPlatformTimeStruct mt.toPlatformTimeStruct ≤ 0

/-- A server that reads and writes times with the functions of `posix01.c`. -/
def timed (world : World) (tm : Tm) : World :=
  { world with
    clock := ⟨world.clock.currentTime, fun mtime => (platformGetTime mtime).getD []⟩
    notModified := notModified tm }

/-- The answer 304 of `handlePath`. -/
def answer304 (world : World) (clientSocket : Nat) (channel : Channel) (webPath : Bytes) :
    Handled :=
  let link : Link := ⟨sendBufferNew clientSocket 0, channel⟩
  let link := httpHeaderWriteResponse link 304
  let link := httpHeaderWriteDate link world.clock
  let link := httpHeaderWriteEnd link
  ⟨0, some (routineNew link.self webPath), link⟩

theorem validHttpDateStr_httpDate {tm : Tm} (h : FourDigit tm) (rest : Bytes) :
    validHttpDateStr (httpDate tm ++ rest) = true := by
  obtain ⟨hday, -, -⟩ := dayNames_spec tm.wday.toNat (by have := h.wday; omega)
  obtain ⟨hmonth, -, -⟩ := monthNames_spec tm.mon.toNat (by have := h.mon; omega)
  obtain ⟨a, b, c, hday⟩ := List.length_eq_three.mp hday
  obtain ⟨d, e, f, hmonth⟩ := List.length_eq_three.mp hmonth
  obtain ⟨v, w, x, y, hyear⟩ : ∃ v w x y, decimal (tm.year + 1900) = [v, w, x, y] := by
    have hlength := decimal_length h
    match decimal (tm.year + 1900), hlength with
    | [v, w, x, y], _ => exact ⟨v, w, x, y, rfl⟩
  have hcomma : text ", " = [ascii ',', ascii ' '] := rfl
  have hblank : text " " = [ascii ' '] := rfl
  have hcolon : text ":" = [ascii ':'] := rfl
  have hend : text " GMT" = [ascii ' ', ascii 'G', ascii 'M', ascii 'T'] := rfl
  simp only [httpDate, hday, hmonth, hyear, hcomma, hblank, hcolon, hend, twoDigits,
    List.cons_append, List.nil_append, validHttpDateStr, List.getD_cons_succ,
    List.getD_cons_zero, beq_self_eq_true, Bool.and_self]

theorem httpHeaderReadIfModifiedSince_httpDate {pre blanks post : Bytes} {tm : Tm}
    (h : FourDigit tm) {request : Bytes}
    (hline : request =
      pre ++ (ifModifiedSince ++ (ascii ':' :: (blanks ++ (httpDate tm ++ (httpEol ++ post))))))
    (hfirst : strstr request ifModifiedSince = some pre.length)
    (hblanks : ∀ c ∈ blanks, c = ascii ' ' ∨ c = ascii '\t') (old : Tm) :
    httpHeaderReadIfModifiedSince request old = some tm := by
  have hvalue : request.drop (pre.length + ifModifiedSince.length) =
      ascii ':' :: (blanks ++ (httpDate tm ++ (httpEol ++ post))) := by
    rw [hline, List.drop_length_add_append, List.drop_left]
  obtain ⟨c, rest, hdate, hc⟩ := httpDate_head h
  have hletter : ∀ c ∈ text "SMTWF", c ≠ ascii ' ' ∧ c ≠ ascii ':' ∧ c ≠ ascii '\t' ∧
      c ≠ ascii '\r' ∧ c ≠ ascii '\n' := forall_mem_of_all (by decide)
  obtain ⟨hspace, hcolon, htab, hcr, hlf⟩ := hletter c hc
  have hskip : (ascii ':' :: (blanks ++ (httpDate tm ++ (httpEol ++ post)))).dropWhile
      (fun c => c == ascii ' ' || c == ascii ':' || c == ascii '\t') =
      httpDate tm ++ (httpEol ++ post) := by
    rw [List.dropWhile_cons_of_pos (by decide), List.dropWhile_append_of_pos, hdate,
      List.cons_append, List.dropWhile_cons_of_neg (by simp [hspace, hcolon, htab])]
    intro d hd
    rcases hblanks d hd with rfl | rfl
    · decide
    · decide
  have hclamp : httpHeaderDataClamp (request.drop (pre.length + ifModifiedSince.length)) =
      (httpDate tm ++ (httpEol ++ post), 29) := by
    have hhead : (httpDate tm ++ (httpEol ++ post)).head? = some c := by
      rw [hdate, List.cons_append, List.head?_cons]
    have hend : strchr (httpDate tm ++ (httpEol ++ post)) (ascii '\r') = some 29 := by
      rw [← httpDate_length h]
      apply strchr_append
      intro hmem
      exact absurd (le_of_mem_httpDate h _ hmem) (by decide)
    simp only [httpHeaderDataClamp, hvalue, hskip, hhead, hend]
    rw [if_neg (by simp [hcr, hlf])]
  simp only [httpHeaderReadIfModifiedSince, hfirst, hclamp, validHttpDateStr_httpDate h]
  rw [if_pos ⟨by decide, by decide, trivial⟩, ← httpDate_length h, List.take_left,
    platformTimeGetFromHttpStr_httpDate h]

theorem notModified_iff {pre blanks post : Bytes} {t : Int} (ht : FourDigitYear t) {st : FileStat}
    (hm : FourDigitYear st.mtime) {value header : Bytes} (hvalue : platformGetTime t = some value)
    (hline : header =
      pre ++ (ifModifiedSince ++ (ascii ':' :: (blanks ++ (value ++ (httpEol ++ post))))))
    (hfirst : strstr header ifModifiedSince = some pre.length)
    (hblanks : ∀ c ∈ blanks, c = ascii ' ' ∨ c = ascii '\t') (tm : Tm) :
    notModified tm header st = true ↔ st.mtime ≤ t := by
  obtain ⟨time, htime, hshape⟩ := exists_gmtime ht
  obtain ⟨modified, hmodified, -⟩ := exists_gmtime hm
  obtain rfl : httpDate time = value := by
    simpa [platformGetTime, htime, httpDate_length hshape] using hvalue
  rw [notModified, httpHeaderReadIfModifiedSince_httpDate hshape hline hfirst hblanks]
  simp only [platformGetTimeStruct, hmodified, decide_eq_true_eq]
  exact platformTimeStructCompare_gmtime htime hmodified

theorem added_isPlain {world : World} {clientSocket : Nat} {channel : Channel}
    {header webPath absolutePath : Bytes} {st : FileStat} {handled : Handled}
    (hpath : Posix01.platformPathWebToSystem filenameMax world.rootPath webPath =
      .ok (.ok absolutePath))
    (hstat : world.stat absolutePath = some st) (hfresh : world.notModified header st = false)
    (h : handlePath world clientSocket channel header webPath = .ok handled)
    {routine : Routine} (hadded : handled.added = some routine) : routine.type ≠ .plain := by
  rw [handlePath, hpath] at h
  simp only [ok_bind, hstat, hfresh] at h
  cases hkind : st.kind with
  | directory =>
      simp only [hkind] at h
      obtain ⟨entries, crumbs, head, -, -, -, -, -, rfl⟩ := handleDir_added h hadded
      simp [directoryRoutineNew]
  | file =>
      simp only [hkind] at h
      obtain rfl := Except.ok.inj h
      rw [handleFile] at hadded
      split at hadded
      · simp at hadded
      · simp only at hadded
        split at hadded
        · simp at hadded
        · obtain rfl := Option.some.inj hadded
          simp [fileRoutineNew]
  | other =>
      simp only [hkind] at h
      obtain rfl := Except.ok.inj h
      simp at hadded

/-- A request with the text of the time `t` in an `If-Modified-Since` line is answered
304 exactly when the file is not newer than `t`, and the server's own `Last-Modified`
line holds such a text. -/
theorem handlePath_answers304_iff (world : World) (tm : Tm) (clientSocket : Nat)
    (channel : Channel) {header webPath absolutePath : Bytes} {st : FileStat} {t : Int}
    {pre blanks value post : Bytes}
    (hpath : Posix01.platformPathWebToSystem filenameMax world.rootPath webPath =
      .ok (.ok absolutePath))
    (hstat : world.stat absolutePath = some st)
    (hm : FourDigitYear st.mtime) (ht : FourDigitYear t) (hvalue : platformGetTime t = some value)
    (hline : header =
      pre ++ (ifModifiedSince ++ (ascii ':' :: (blanks ++ (value ++ (httpEol ++ post))))))
    (honce : ∀ i, ifModifiedSince <+: header.drop i → i = pre.length)
    (hblanks : ∀ c ∈ blanks, c = ascii ' ' ∨ c = ascii '\t') :
    (handlePath (timed world tm) clientSocket channel header webPath =
      .ok (answer304 (timed world tm) clientSocket channel webPath) ↔ st.mtime ≤ t) ∧
    ∃ own, platformGetTime st.mtime = some own ∧
      lastModifiedLine (timed world tm).clock st = text "Last-Modified: " ++ own ++ httpEol := by
  have hfirst : strstr header ifModifiedSince = some pre.length := by
    cases hfind : strstr header ifModifiedSince with
    | none =>
        refine absurd ?_ (strstr_eq_none_iff.mp hfind)
        exact ⟨pre, ascii ':' :: (blanks ++ (value ++ (httpEol ++ post))), by simp [hline]⟩
    | some i => rw [honce i (strstr_eq_some_iff.mp hfind).1]
  have hiff := notModified_iff ht hm hvalue hline hfirst hblanks tm
  have hpath' : Posix01.platformPathWebToSystem filenameMax (timed world tm).rootPath webPath =
      .ok (.ok absolutePath) := hpath
  have hstat' : (timed world tm).stat absolutePath = some st := hstat
  constructor
  · constructor
    · intro hanswer
      by_contra hnewer
      have hfresh : (timed world tm).notModified header st = false :=
        Bool.eq_false_iff.mpr (mt hiff.mp hnewer)
      exact added_isPlain hpath' hstat' hfresh hanswer rfl rfl
    · intro hold
      have hsame : (timed world tm).notModified header st = true := hiff.mpr hold
      rw [handlePath, hpath']
      simp only [ok_bind, hstat', hsame, if_true]
      rfl
  · obtain ⟨time, htime, hshape⟩ := exists_gmtime hm
    have hown : platformGetTime st.mtime = some (httpDate time) := by
      simp [platformGetTime, htime, httpDate_length hshape]
    refine ⟨httpDate time, hown, ?_⟩
    have htext : (0 : UInt8) ∉ httpDate time := by
      intro hmem
      exact absurd (le_of_mem_httpDate hshape _ hmem) (by decide)
    simp only [lastModifiedLine, timed, hown, Option.getD_some, cString_eq_self htext]

/-- A request for a file of 1 January 1970, unless it has changed since. -/
def sampleRequest : Bytes :=
  text "GET /f HTTP/1.1\r\nIf-Modified-Since: Thu, 01 Jan 1970 00:00:00 GMT\r\n\r"

theorem handlePath_answers304_sample :
    (handlePath (timed tenDigits ⟨⟨0, 0, 0, 0, 0, 0⟩, 0⟩) 5 ⟨[], []⟩ sampleRequest (text "/f") =
      .ok (answer304 (timed tenDigits ⟨⟨0, 0, 0, 0, 0, 0⟩, 0⟩) 5 ⟨[], []⟩ (text "/f")) ↔
        (0 : Int) ≤ 0) ∧
    ∃ own, platformGetTime 0 = some own ∧
      lastModifiedLine (timed tenDigits ⟨⟨0, 0, 0, 0, 0, 0⟩, 0⟩).clock ⟨10, 0, .file⟩ =
        text "Last-Modified: " ++ own ++ httpEol := by
  refine @handlePath_answers304_iff tenDigits ⟨⟨0, 0, 0, 0, 0, 0⟩, 0⟩ 5 ⟨[], []⟩ _ _ (text "/srv/f")
    ⟨10, 0, .file⟩ 0 (text "GET /f HTTP/1.1\r\n") (text " ") (text "Thu, 01 Jan 1970 00:00:00 GMT")
    (text "\r") (by decide +kernel) rfl (by decide +kernel) (by decide +kernel) (by decide +kernel)
    (by decide +kernel) ?_ (by decide +kernel)
  intro i hi
  have hnear : i < sampleRequest.length := by
    by_contra hfar
    rw [List.drop_eq_nil_of_le (Nat.not_lt.mp hfar)] at hi
    exact absurd hi (by decide)
  have honly : ∀ i < sampleRequest.length, ifModifiedSince <+: sampleRequest.drop i → i = 17 := by
    decide +kernel
  exact honly i hnear hi

end Newth.Server.ModifiedSince
