import Newth.Client.Headers
import Newth.Client.ResponseHead
import Newth.Server.HeadRequest

namespace Newth.Exchange.FileKind

open Newth.Library.ByteString
open Newth.Library.Call
open Newth.Library.Chunked
open Newth.Library.Numeral
open Newth.Platform.FindString
open Newth.Platform.HttpTime
open Newth.Client.Headers
open Newth.Client.ResponseHead
open Newth.Client.Search
open Newth.Client.SiteFile
open Newth.Server.Handlers
open Newth.Server.HeadRequest
open Newth.Server.HttpHeader

section Decisions

/-- A header is found whose value holds the needle. -/
def valueHolds (header name needle : Bytes) : Bool :=
  match ioHttpResponseHeaderFind header name with
  | some ptr => (platformStringFindNeedleRaw ptr needle).isSome
  | none => false

/-- `HttpResponseIsDir`: negative when unsure. -/
def httpResponseIsDir (header : Bytes) : Int :=
  if valueHolds header (text "Content-Disposition") (text "attachment") then 0
  else if valueHolds header (text "Content-Type") (text "text/html") then 1
  else -1

/-- The type `httpSiteSchemeStatOpenMeta` gives the meta. -/
def statOpenMetaType (header : Bytes) : Except Stop SiteFileType := do
  let headerResponse ← headersPopulate header noHeader
  .ok (if headerResponse.fileName.isSome then .file else .directory)

/-- The type `httpSiteSchemeFileOpenRead` gives the file's meta. -/
def fileOpenReadType (header : Bytes) : Except Stop SiteFileType := do
  let headerResponse ← headersPopulate header noHeader
  .ok (if headerResponse.attachment then .file else .directory)

/-- The three places tell the same from a head. -/
def Agree (header : Bytes) : Prop :=
  ∃ stat opened, statOpenMetaType header = .ok stat ∧ fileOpenReadType header = .ok opened ∧
    (httpResponseIsDir header = 0 ↔ opened = .file) ∧ (httpResponseIsDir header = 0 ↔ stat = .file)

def AllFile (header : Bytes) : Prop :=
  httpResponseIsDir header = 0 ∧ fileOpenReadType header = .ok .file ∧
    statOpenMetaType header = .ok .file

def AllDirectory (header : Bytes) : Prop :=
  0 < httpResponseIsDir header ∧ fileOpenReadType header = .ok .directory ∧
    statOpenMetaType header = .ok .directory

/-- A parameter with a value that does not end where it starts. -/
def Named (parameter : Bytes) : Prop :=
  ∃ p c d rest, strchr parameter (ascii '=') = some p ∧
    (parameter.drop (p + 1)).dropWhile (· == ascii ' ') = c :: d :: rest ∧
    (c = ascii '"' → d = ascii '"' → rest.head? = some (ascii '"'))

/-- A `Content-Disposition` of neither word, or of an attachment with its name behind it. -/
def Plain (v : Bytes) : Prop :=
  match platformStringFindNeedleRaw v (text "attachment"),
      platformStringFindNeedleRaw v (text "filename") with
  | none, none => True
  | some p, some f => p < f ∧ Named (v.drop f)
  | _, _ => False

theorem untilQuote_cons_eq_nil_iff (d : UInt8) (rest : Bytes) :
    untilQuote (d :: rest) = [] ↔ d = ascii '"' ∧ rest.head? ≠ some (ascii '"') := by
  cases rest with
  | nil => by_cases hd : d = ascii '"' <;> simp [untilQuote, hd]
  | cons e rest =>
      by_cases hd : d = ascii '"'
      · by_cases he : e = ascii '"' <;> simp [untilQuote, hd, he]
      · simp [untilQuote, hd]

theorem parameterValue_named_iff (parameter : Bytes) :
    (∃ name, parameterValue parameter = .ok (some name)) ↔ Named parameter := by
  rw [parameterValue]
  cases hequal : strchr parameter (ascii '=') with
  | none => simp [Named, hequal]
  | some p =>
      obtain ⟨value, hvalue⟩ :
          ∃ value, (parameter.drop (p + 1)).dropWhile (· == ascii ' ') = value := ⟨_, rfl⟩
      have hnamed : Named parameter ↔ ∃ c d rest, value = c :: d :: rest ∧
          (c = ascii '"' → d = ascii '"' → rest.head? = some (ascii '"')) := by
        simp [Named, hequal, hvalue]
      rw [hnamed]
      simp only [hvalue]
      rcases value with _ | ⟨c, _ | ⟨d, rest⟩⟩
      · simp
      · simp [untilQuote]
      · by_cases hc : c = ascii '"'
        · simp only [hc, if_true, untilQuote_cons_eq_nil_iff]
          by_cases hd : d = ascii '"' <;> by_cases he : rest.head? = some (ascii '"') <;>
            simp [hd, he]
        · simp [hc]

theorem contentDisposition_agree_iff (v : Bytes) {r : ResponseHeader} (hname : r.fileName = none)
    (hflag : r.attachment = false) :
    (∃ r', contentDisposition v r = .ok r' ∧
      ((platformStringFindNeedleRaw v (text "attachment")).isSome ↔ r'.attachment = true) ∧
      ((platformStringFindNeedleRaw v (text "attachment")).isSome ↔ r'.fileName.isSome)) ↔
    Plain v := by
  simp only [contentDisposition, Plain]
  cases hattachment : platformStringFindNeedleRaw v (text "attachment") with
  | none =>
      cases hfile : platformStringFindNeedleRaw v (text "filename") with
      | none => simp [hname, hflag]
      | some f =>
          simp only [iff_false]
          rintro ⟨r', hr', hsame, -⟩
          obtain ⟨name, -, hr'⟩ := bind_eq_ok_iff.mp hr'
          cases name <;> simp [← Except.ok.inj hr'] at hsame
  | some p =>
      cases hfile : platformStringFindNeedleRaw v (text "filename") with
      | none => simp [hname]
      | some f =>
          by_cases hlt : p < f
          · simp only [hlt, if_true, true_and, ← parameterValue_named_iff]
            cases hvalue : parameterValue (v.drop f) with
            | error e => simp [error_bind]
            | ok name => cases name <;> simp [ok_bind, hname]
          · simp [hlt, hflag]

theorem httpResponseIsDir_eq_zero_iff (header : Bytes) :
    httpResponseIsDir header = 0 ↔
      ∃ v, ioHttpResponseHeaderFind header (text "Content-Disposition") = some v ∧
        (platformStringFindNeedleRaw v (text "attachment")).isSome := by
  have hholds : httpResponseIsDir header = 0 ↔
      valueHolds header (text "Content-Disposition") (text "attachment") = true := by
    rw [httpResponseIsDir]
    split
    · simp_all
    · split <;> simp_all
  rw [hholds, valueHolds]
  cases ioHttpResponseHeaderFind header (text "Content-Disposition") <;> simp

theorem agree_iff (header : Bytes) :
    Agree header ↔
      ∀ v, ioHttpResponseHeaderFind header (text "Content-Disposition") = some v → Plain v := by
  obtain ⟨r, hname, hflag, hpopulate⟩ := headersPopulate_eq header
  have hdir := httpResponseIsDir_eq_zero_iff header
  cases hfind : ioHttpResponseHeaderFind header (text "Content-Disposition") with
  | none =>
      simp only [hfind, reduceCtorEq, false_and, exists_false, iff_false] at hdir
      simp [Agree, statOpenMetaType, fileOpenReadType, hpopulate, hfind, hname, hflag, hdir]
  | some v =>
      simp only [hfind, Option.some.injEq, exists_eq_left'] at hdir
      have hv : (∀ v', some v = some v' → Plain v') ↔ Plain v := by simp
      rw [hv, ← contentDisposition_agree_iff v hname hflag]
      simp only [Agree, statOpenMetaType, fileOpenReadType, hpopulate, hfind, hdir]
      cases contentDisposition v r with
      | error e => simp [error_bind]
      | ok r' =>
          simp only [ok_bind, Except.ok.injEq]
          constructor
          · rintro ⟨_, _, rfl, rfl, hopened, hstat⟩
            refine ⟨r', rfl, ?_, ?_⟩
            · rw [hopened]
              split <;> simp_all
            · rw [hstat]
              split <;> simp_all
          · rintro ⟨_, rfl, hopened, hstat⟩
            refine ⟨_, _, rfl, rfl, ?_, ?_⟩
            · rw [hopened]
              split <;> simp_all
            · rw [hstat]
              split <;> simp_all

end Decisions

section Heads

variable {s a d name : Bytes} {x : UInt8}

/-- The name of a header stands in a text, in any case. -/
def Mentions (s name : Bytes) : Prop := name.map toupper <:+: s.map toupper

theorem mem_map_toupper_iff (hx : x < ascii 'A') : x ∈ s.map toupper ↔ x ∈ s := by
  rw [List.mem_map]
  constructor
  · rintro ⟨c, hc, hsame⟩
    rwa [← (toupper_eq_iff hx).mp hsame]
  · exact fun h => ⟨x, h, (toupper_eq_iff hx).mpr rfl⟩

theorem not_mentions_of_notMem (hx : x < ascii 'A') (hname : x ∈ name) (hs : x ∉ s) :
    ¬ Mentions s name := by
  intro h
  have hmem := h.sublist.mem ((mem_map_toupper_iff hx).mpr hname)
  exact hs ((mem_map_toupper_iff hx).mp hmem)

theorem mentions_append_cons_iff (hx : x < ascii 'A') (hname : x ∉ name) :
    Mentions (a ++ x :: d) name ↔ Mentions a name ∨ Mentions d name := by
  have hneedle : x ∉ name.map toupper := fun h => hname ((mem_map_toupper_iff hx).mp h)
  rw [Mentions, List.map_append, List.map_cons, (toupper_eq_iff hx).mpr rfl]
  exact infix_append_cons_iff hneedle

theorem not_mentions_lines {lines : List Bytes} (hne : name ≠ [])
    (hend : ascii '\r' ∉ name ∧ ascii '\n' ∉ name) (h : ∀ line ∈ lines, ¬ Mentions line name) :
    ¬ Mentions (lines.map (· ++ crlf)).flatten name := by
  have hnil : ¬ Mentions [] name := by
    simp [Mentions, hne]
  induction lines with
  | nil => exact hnil
  | cons line lines ih =>
      simp only [List.mem_cons, forall_eq_or_imp] at h
      have hsplit : ((line :: lines).map (· ++ crlf)).flatten =
          line ++ ascii '\r' :: ([] ++ ascii '\n' :: (lines.map (· ++ crlf)).flatten) := by
        rw [List.map_cons, List.flatten_cons, List.append_assoc]
        rfl
      rw [hsplit, mentions_append_cons_iff (by decide) hend.1,
        mentions_append_cons_iff (by decide) hend.2]
      simp only [h.1, hnil, false_or]
      exact ih h.2

theorem getLast?_lines (lines : List Bytes) (line : Bytes) :
    ((lines ++ [line]).map (· ++ crlf)).flatten.getLast? = some (ascii '\n') := by
  have hsplit : ((lines ++ [line]).map (· ++ crlf)).flatten =
      (lines.map (· ++ crlf)).flatten ++ (line ++ [ascii '\r']) ++ [ascii '\n'] := by
    rw [List.map_append, List.flatten_append, List.append_assoc]
    simp [crlf, ascii]
  rw [hsplit, List.getLast?_concat]

theorem find_of_not_mentions (hne : name ≠ []) (h : ¬ Mentions s name) :
    ioHttpResponseHeaderFind s name = none := by
  have hneedle := (needleRaw_eq_none_iff hne).mpr h
  simp [ioHttpResponseHeaderFind, hneedle]

theorem find_of_no_return {i : Nat} (h : platformStringFindNeedleRaw s name = some i)
    (hno : ascii '\r' ∉ s.drop i) : ioHttpResponseHeaderFind s name = none := by
  simp only [ioHttpResponseHeaderFind, h, Option.bind_eq_bind, Option.bind_some]
  cases strchr (s.drop i) (ascii ':') with
  | none => rfl
  | some j =>
      have hvalue : ascii '\r' ∉ (s.drop i).drop j := fun hmem => hno (List.mem_of_mem_drop hmem)
      rw [Option.bind_some, strchr_eq_none hvalue]
      rfl

theorem time_split {clock : Int} {time : Bytes} (h : platformGetTime clock = some time) :
    ∃ front back n, time = front ++ ascii ' ' :: (decimal n ++ ascii ' ' :: back) ∧
      ∀ c ∈ front ++ back, ascii 'A' ≤ c ∨ isDecimal c = true ∨ c ∈ text " ,:" := by
  obtain ⟨tm, htm, htime⟩ := Option.bind_eq_some_iff.mp h
  have htime : httpDate tm = time := (Option.ite_none_right_eq_some.mp htime).2 |> Option.some.inj
  obtain ⟨front, back, hyear⟩ := httpDate_year tm
  refine ⟨front, back, tm.year + 1900, by rw [← htime]; exact hyear tm.year, ?_⟩
  intro c hc
  apply mem_httpDate (gmtime_fields htm)
  rw [hyear]
  rcases List.mem_append.mp hc with hfront | hback <;> simp [*]

theorem zero_notMem_time {clock : Int} {time : Bytes} (h : platformGetTime clock = some time) :
    (0 : UInt8) ∉ time := by
  obtain ⟨front, back, n, rfl, hmarks⟩ := time_split h
  intro hzero
  have hout : ¬ (ascii 'A' ≤ 0 ∨ isDecimal 0 = true ∨ 0 ∈ text " ,:") := by decide
  simp only [List.mem_append, List.mem_cons] at hzero hmarks
  rcases hzero with hfront | hblank | hyear | hblank | hback
  · exact hout (hmarks 0 (.inl hfront))
  · exact absurd hblank (by decide)
  · rcases mem_decimal hyear with hminus | hdigit
    · exact absurd hminus (by decide)
    · exact absurd hdigit (by decide)
  · exact absurd hblank (by decide)
  · exact hout (hmarks 0 (.inr hback))

theorem not_mentions_time {clock : Int} {time : Bytes} (h : platformGetTime clock = some time)
    (hdash : ascii '-' ∈ name) (hblank : ascii ' ' ∉ name) (hletter : ascii 'C' ∈ name) :
    ¬ Mentions time name := by
  obtain ⟨front, back, n, rfl, hmarks⟩ := time_split h
  have hout : ¬ (ascii 'A' ≤ ascii '-' ∨ isDecimal (ascii '-') = true ∨
    ascii '-' ∈ text " ,:") := by decide
  rw [mentions_append_cons_iff (by decide) hblank, mentions_append_cons_iff (by decide) hblank]
  rintro (hfront | hyear | hback)
  · refine not_mentions_of_notMem (by decide) hdash (fun hmem => hout ?_) hfront
    exact hmarks _ (List.mem_append_left _ hmem)
  · -- the year has no letters
    have hmem := hyear.sublist.mem (List.mem_map_of_mem hletter)
    obtain ⟨c, hc, hupper⟩ := List.mem_map.mp hmem
    rcases mem_decimal hc with rfl | hdigit
    · exact absurd hupper (by decide)
    · have hbounds := hdigit
      simp only [isDecimal, Bool.and_eq_true, decide_eq_true_eq] at hbounds
      have hsmall : c < ascii 'A' := UInt8.lt_of_le_of_lt hbounds.2 (by decide)
      rw [(toupper_eq_iff hsmall).mpr rfl] at hupper
      rw [hupper] at hdigit
      exact absurd hdigit (by decide)
  · refine not_mentions_of_notMem (by decide) hdash (fun hmem => hout ?_) hback
    exact hmarks _ (List.mem_append_right _ hmem)

theorem not_mentions_timeLine {clock : Int} {time line : Bytes}
    (h : platformGetTime clock = some time) (hdash : ascii '-' ∈ name)
    (hblank : ascii ' ' ∉ name) (hletter : ascii 'C' ∈ name) (hother : ¬ Mentions line name) :
    ¬ Mentions (line ++ text " " ++ time) name := by
  have hsplit : line ++ text " " ++ time = line ++ ascii ' ' :: time := by
    rw [List.append_assoc]
    rfl
  rw [hsplit, mentions_append_cons_iff (by decide) hblank, not_or]
  exact ⟨hother, not_mentions_time h hdash hblank hletter⟩

end Heads

section Server

variable {world : World} {st : FileStat} {now : Int} {header : Bytes}

/-- The lines of the head of a listing in front of its type. -/
def timeLines (world : World) (st : FileStat) : List Bytes :=
  [text "HTTP/1.1 200 OK", text "Date:" ++ text " " ++ world.clock.currentTime,
    text "Last-Modified:" ++ text " " ++ world.clock.time st.mtime]

theorem date_label : text "Date: " = text "Date:" ++ text " " := text_append "Date:" " "

theorem fileName_label : text "Content-Disposition: filename" =
    text "Content-Disposition" ++ (text ": " ++ text "filename") := by
  rw [← text_append, ← text_append]
  rfl

theorem dirLines_flatten (hnow : platformGetTime now = some world.clock.currentTime)
    (hmodified : platformGetTime st.mtime = some (world.clock.time st.mtime)) :
    (dirLines world st).flatten =
      ((timeLines world st ++ [text "Content-Type: text/html; ",
        text "Transfer-Encoding: chunked"]).map (· ++ crlf)).flatten ++ crlf := by
  have hstatus : statusLine (httpHeaderGetResponse 200) = text "HTTP/1.1 200 OK" ++ crlf := rfl
  have hlast : text "Last-Modified: " = text "Last-Modified:" ++ text " " :=
    text_append "Last-Modified:" " "
  have htype : contentTypeLine (text "text/html") [] = text "Content-Type: text/html; " ++ crlf := rfl
  have hchunked : chunkedLine = text "Transfer-Encoding: chunked" ++ crlf := rfl
  have hend : httpEol = crlf := rfl
  simp only [dirLines, timeLines, dateLine, lastModifiedLine, List.map_append, List.map_cons,
    cString_eq_self (zero_notMem_time hnow), cString_eq_self (zero_notMem_time hmodified),
    List.map_nil, List.flatten_cons, List.flatten_nil, List.flatten_append, List.append_assoc,
    hstatus, date_label, hlast, htype, hchunked, hend, List.append_nil]

theorem not_mentions_timeLines (hnow : platformGetTime now = some world.clock.currentTime)
    (hmodified : platformGetTime st.mtime = some (world.clock.time st.mtime)) {name : Bytes}
    (hname : name ∈ [text "Content-Type", text "Content-Disposition"]) :
    ∀ line ∈ timeLines world st, ¬ Mentions line name := by
  have hfixed : ∀ name ∈ [text "Content-Type", text "Content-Disposition"],
      (ascii '-' ∈ name ∧ ascii ' ' ∉ name ∧ ascii 'C' ∈ name) ∧
        ¬ Mentions (text "HTTP/1.1 200 OK") name ∧ ¬ Mentions (text "Date:") name ∧
          ¬ Mentions (text "Last-Modified:") name := by
    unfold Mentions
    decide
  obtain ⟨⟨hdash, hblank, hletter⟩, hstatus, hdate, hlast⟩ := hfixed name hname
  simp only [timeLines, List.mem_cons, List.not_mem_nil, or_false, forall_eq_or_imp, forall_eq]
  exact ⟨hstatus, not_mentions_timeLine hnow hdash hblank hletter hdate,
    not_mentions_timeLine hmodified hdash hblank hletter hlast⟩

theorem dirLines_allDirectory (hnow : platformGetTime now = some world.clock.currentTime)
    (hmodified : platformGetTime st.mtime = some (world.clock.time st.mtime))
    (hheader : header ++ crlf = (dirLines world st).flatten) : AllDirectory header := by
  rw [dirLines_flatten hnow hmodified] at hheader
  have hheader := List.append_cancel_right hheader
  have hdisposition : ioHttpResponseHeaderFind header (text "Content-Disposition") = none := by
    apply find_of_not_mentions (by decide)
    rw [hheader]
    apply not_mentions_lines (by decide) (by decide)
    intro line hline
    have hrest : ∀ line ∈ [text "Content-Type: text/html; ", text "Transfer-Encoding: chunked"],
        ¬ Mentions line (text "Content-Disposition") := by
      unfold Mentions
      decide
    rcases List.mem_append.mp hline with hline | hline
    · exact not_mentions_timeLines hnow hmodified (by simp) line hline
    · exact hrest line hline
  have htype : ioHttpResponseHeaderFind header (text "Content-Type") =
      some (text "text/html; ") := by
    have hsplit : header = ((timeLines world st).map (· ++ crlf)).flatten ++
        (text "Content-Type" ++ (text ": " ++ (text "text/html; " ++ (crlf ++
          (text "Transfer-Encoding: chunked" ++ crlf))))) := by
      have htype : text "Content-Type: text/html; " =
          text "Content-Type" ++ (text ": " ++ text "text/html; ") := by
        rw [← text_append, ← text_append]
        rfl
      simp only [hheader, List.map_append, List.flatten_append, List.map_cons, List.map_nil,
        List.flatten_cons, List.flatten_nil, List.append_nil, List.append_assoc, htype]
    rw [hsplit]
    apply ioHttpResponseHeaderFind_line
    · intro rest
      apply needleRaw_line (by decide) (.inr ?_) (by decide)
      · exact not_mentions_lines (by decide) (by decide)
          (not_mentions_timeLines hnow hmodified (by simp))
      · exact getLast?_lines [_, _] _
    · decide
    · decide
    · decide
  obtain ⟨r, hname, hflag, hpopulate⟩ := headersPopulate_eq header
  simp only [hdisposition] at hpopulate
  refine ⟨?_, ?_, ?_⟩
  · simp only [httpResponseIsDir, valueHolds, hdisposition, htype]
    decide
  · simp [fileOpenReadType, hpopulate, hflag]
  · simp [statOpenMetaType, hpopulate, hname]

/-- The disposition of a file starts with the name, so the word `attachment` comes too late. -/
theorem not_allFile_of_filename
    (h : ∀ v, ioHttpResponseHeaderFind header (text "Content-Disposition") = some v →
      text "filename" <+: v) : ¬ AllFile header := by
  rintro ⟨hdir, hopened, -⟩
  obtain ⟨r, -, hflag, hpopulate⟩ := headersPopulate_eq header
  cases hfind : ioHttpResponseHeaderFind header (text "Content-Disposition") with
  | none => simp [fileOpenReadType, hpopulate, hfind, hflag] at hopened
  | some v =>
      have hfile : platformStringFindNeedleRaw v (text "filename") = some 0 := by
        rw [needleRaw_eq_some_iff (by decide)]
        exact ⟨(h v hfind).map toupper, by simp, by simp⟩
      obtain ⟨v', hv', hword⟩ := (httpResponseIsDir_eq_zero_iff header).mp hdir
      obtain rfl := Option.some.inj (hfind.symm.trans hv')
      obtain ⟨p, hword⟩ := Option.isSome_iff_exists.mp hword
      simp [fileOpenReadType, hpopulate, hfind, contentDisposition, hfile, hword, hflag] at hopened

theorem fileLines_not_allFile {request webPath : Bytes}
    (hnow : platformGetTime now = some world.clock.currentTime)
    (hheader : header <+: (fileLines world request webPath st).flatten) : ¬ AllFile header := by
  obtain ⟨response, hresponse⟩ : ∃ response,
      response = httpHeaderGetResponse
        (if (httpHeaderReadRange request 0 0 st.size).isNone then 200 else 206) := ⟨_, rfl⟩
  obtain ⟨pre, hpre⟩ : ∃ pre, pre = ([text "HTTP/1.1 " ++ response,
    text "Date:" ++ text " " ++ world.clock.currentTime].map (· ++ crlf)).flatten := ⟨_, rfl⟩
  have hname : ascii '-' ∈ text "Content-Disposition" := by decide
  have hbefore : ¬ Mentions pre (text "Content-Disposition") := by
    rw [hpre]
    apply not_mentions_lines (by decide) (by decide)
    simp only [List.mem_cons, List.not_mem_nil, or_false, forall_eq_or_imp, forall_eq]
    refine ⟨?_, not_mentions_timeLine hnow hname (by decide) (by decide) ?_⟩
    · apply not_mentions_of_notMem (x := ascii '-') (by decide) hname
      rw [hresponse]
      split <;> decide
    · unfold Mentions
      decide
  have hline : pre.getLast? = some (ascii '\n') := by
    rw [hpre]
    exact getLast?_lines [_] _
  have hrest : ∃ rest, (fileLines world request webPath st).flatten =
      pre ++ (text "Content-Disposition" ++ (text ": " ++ (text "filename" ++ rest))) := by
    have hlines : ∃ rest, fileLines world request webPath st =
        statusLine response :: dateLine world.clock :: fileNameLine webPath :: rest :=
      ⟨_, by rw [hresponse]; rfl⟩
    obtain ⟨rest, hlines⟩ := hlines
    refine ⟨text "=\"" ++ (fileName webPath ++ (text "\"" ++ (httpEol ++ rest.flatten))), ?_⟩
    have hlabel : text "Content-Disposition: filename=\"" =
        text "Content-Disposition: filename" ++ text "=\"" :=
      text_append "Content-Disposition: filename" "=\""
    have hend : httpEol = crlf := rfl
    rw [hlines, hpre, dateLine, cString_eq_self (zero_notMem_time hnow), statusLine, fileNameLine]
    simp only [List.map_cons, List.map_nil, List.flatten_cons, List.flatten_nil,
      List.append_assoc, hlabel, date_label, fileName_label, hend, List.append_nil]
  obtain ⟨rest, hrest⟩ := hrest
  have hfirst : ∀ rest, platformStringFindNeedleRaw (pre ++ (text "Content-Disposition" ++ rest))
      (text "Content-Disposition") = some pre.length := by
    intro rest
    exact needleRaw_line (by decide) (.inr hline) (by decide) hbefore rest
  have hfront : pre ++ text "Content-Disposition: filename" <+:
      (fileLines world request webPath st).flatten := by
    rw [hrest]
    exact ⟨rest, by simp only [fileName_label, List.append_assoc]⟩
  apply not_allFile_of_filename
  intro v hv
  rcases List.prefix_or_prefix_of_prefix hheader hfront with hshort | hlong
  · -- the head is cut off before the value ends
    have htake := List.prefix_iff_eq_take.mp hheader
    have hneedle : platformStringFindNeedleRaw header (text "Content-Disposition") =
        if pre.length + (text "Content-Disposition").length ≤ header.length then some pre.length
        else none := by
      rw [htake, hrest, needleRaw_take (by decide) (hfirst _), ← hrest, ← htake]
    split at hneedle
    · have hno : ascii '\r' ∉ header.drop pre.length := by
        intro hmem
        have hdrop := hshort.sublist.drop pre.length |>.mem hmem
        rw [List.drop_left] at hdrop
        exact absurd hdrop (by decide)
      rw [find_of_no_return hneedle hno] at hv
      contradiction
    · simp [ioHttpResponseHeaderFind, hneedle] at hv
  · obtain ⟨tail, rfl⟩ := hlong
    have hsplit : pre ++ text "Content-Disposition: filename" ++ tail =
        pre ++ (text "Content-Disposition" ++ (text ": " ++ (text "filename" ++ tail))) := by
      simp only [fileName_label, List.append_assoc]
    have hstart : ∀ c ∈ (text "filename").head?, c ≠ ascii ' ' := by
      intro c hc
      obtain rfl : ascii 'f' = c := Option.some.inj hc
      decide
    rw [hsplit] at hv
    exact front_of_find (hfirst _) (by decide) (by decide) hstart hv (by decide)

end Server

/-- The three places agree on a head just when its disposition is plain. They agree on
every listing of the server, and never take a file of the server for one together. -/
theorem kinds_agree_iff (header : Bytes) :
    (Agree header ↔
      ∀ v, ioHttpResponseHeaderFind header (text "Content-Disposition") = some v → Plain v) ∧
    (∀ (world : World) (st : FileStat) (now : Int),
      platformGetTime now = some world.clock.currentTime →
      platformGetTime st.mtime = some (world.clock.time st.mtime) →
      header ++ crlf = (dirLines world st).flatten → AllDirectory header) ∧
    ∀ (world : World) (st : FileStat) (now : Int) (request webPath : Bytes),
      platformGetTime now = some world.clock.currentTime →
      header <+: (fileLines world request webPath st).flatten → ¬ AllFile header :=
  ⟨agree_iff header, fun _ _ _ hnow hmodified => dirLines_allDirectory hnow hmodified,
    fun _ _ _ _ _ hnow => fileLines_not_allFile hnow⟩

/-- What the client keeps of the head of a listing at the start of 1970. -/
def epochListing : Bytes :=
  text "HTTP/1.1 200 OK\r\nDate: Thu, 01 Jan 1970 00:00:00 GMT\r\n" ++
    text "Last-Modified: Thu, 01 Jan 1970 00:00:00 GMT\r\nContent-Type: text/html; \r\n" ++
    text "Transfer-Encoding: chunked\r\n"

def epochFile : Bytes :=
  text "HTTP/1.1 200 OK\r\nDate: Thu, 01 Jan 1970 00:00:00 GMT\r\n" ++
    text "Content-Disposition: filename=\"a\"\r\n" ++
    text "Last-Modified: Thu, 01 Jan 1970 00:00:00 GMT\r\nAccept-Ranges: bytes\r\n" ++
    text "Content-Length: 10\r\n"

theorem kinds_agree_sample :
    (Agree epochListing ↔
      ∀ v, ioHttpResponseHeaderFind epochListing (text "Content-Disposition") = some v →
        Plain v) ∧
    AllDirectory epochListing ∧ ¬ AllFile epochFile :=
  ⟨(kinds_agree_iff epochListing).1,
    (kinds_agree_iff epochListing).2.1 (digitsFolder .directory) ⟨10, 0, .directory⟩ 0
      (by decide +kernel) (by decide +kernel) (by decide +kernel),
    (kinds_agree_iff epochFile).2.2 (digitsFolder .file) ⟨10, 0, .file⟩ 0
      (text "GET /a HTTP/1.1\r\n\r") (text "/a") (by decide +kernel) (by decide +kernel)⟩

/-- A file of the server is one for a download and for `stat`, and not for `cd`. -/
theorem fileHead_not_agree :
    epochFile ++ crlf = (fileLines (digitsFolder .file) (text "GET /a HTTP/1.1\r\n\r") (text "/a")
      ⟨10, 0, .file⟩).flatten ∧ ¬ Agree epochFile ∧ ¬ AllFile epochFile := by
  have hdir : httpResponseIsDir epochFile = -1 := by decide +kernel
  have hopened : fileOpenReadType epochFile = .ok .file := by decide +kernel
  refine ⟨by decide +kernel, ?_, ?_⟩
  · rintro ⟨_, opened, -, hread, hsame, -⟩
    rw [hopened] at hread
    obtain rfl := Except.ok.inj hread
    rw [hdir] at hsame
    exact absurd (hsame.mpr rfl) (by decide)
  · rintro ⟨hfile, -, -⟩
    rw [hdir] at hfile
    exact absurd hfile (by decide)

end Newth.Exchange.FileKind
