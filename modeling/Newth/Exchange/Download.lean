import Newth.Client.ContentLength
import Newth.Client.HttpOpen
import Newth.Exchange.FileKind
import Newth.Exchange.FileName
import Newth.Exchange.RequestLine
import Newth.Server.FileTransfer
import Newth.Server.WholeRequest

namespace Newth.Exchange.Download

open Newth.Client.ContentLength (Counts contentLengthLoop_length contentLengthLoop_spec
  counts_iff_of_fits counts_nil decimalValue number)
open Newth.Client.Headers
open Newth.Client.HttpOpen
open Newth.Client.Io
open Newth.Client.Recvbufr
open Newth.Client.ResponseHead
open Newth.Client.Search
open Newth.Client.Send
open Newth.Client.SiteHttp (HttpSite headersCompute_reading reads reads_reading pieces
  flatten_pieces)
open Newth.Client.Uri
open Newth.Exchange.FileKind
open Newth.Exchange.FileName
open Newth.Exchange.RequestLine
open Newth.Library.ByteString
open Newth.Library.Call
open Newth.Library.Chunked
open Newth.Library.Numeral
open Newth.Library.Runs
open Newth.Library.Scan (isDecimal_numeral)
open Newth.Platform.FindString
open Newth.Platform.HttpTime
open Newth.Platform.WebPath
open Newth.Server.FileTransfer (Transfers advance_transfers)
open Newth.Server.Handlers
open Newth.Server.HeadRequest
open Newth.Server.HttpBody (filenameMax)
open Newth.Server.HttpHeader
open Newth.Server.Routines
open Newth.Server.Sendbufr (Channel SendResult sendBufferNew)
open Newth.Server.Ticks
open Newth.Server.UriDecoder (HasEscape hexConvert_of_clean two_lt_length_of_hasEscape
  unescape_cases)
open Newth.Server.WholeRequest

section Find

variable {name value : Bytes}

theorem find_congr {name' : Bytes} (hne : name ≠ []) (h : name'.map toupper = name.map toupper)
    (s : Bytes) : ioHttpResponseHeaderFind s name' = ioHttpResponseHeaderFind s name := by
  have hne' : name' ≠ [] := by
    rintro rfl
    exact hne (List.map_eq_nil_iff.mp h.symm)
  have hneedle : platformStringFindNeedleRaw s name' = platformStringFindNeedleRaw s name := by
    refine Option.ext fun i => ?_
    rw [needleRaw_eq_some_iff hne', needleRaw_eq_some_iff hne, h]
  simp only [ioHttpResponseHeaderFind, hneedle]

theorem find_line (before : List Bytes) (hne : name ≠ [])
    (hends : ascii ':' ∉ name ∧ ascii '\r' ∉ name ∧ ascii '\n' ∉ name)
    (hvalue : ascii '\r' ∉ value) (hstart : value.head? ≠ some (ascii ' '))
    (hother : ∀ line ∈ before, ¬ Mentions line name) (after : List Bytes) :
    ioHttpResponseHeaderFind
      (((before ++ (name ++ (text ": " ++ value)) :: after).map (· ++ crlf)).flatten) name =
        some value := by
  have hsplit : ((before ++ (name ++ (text ": " ++ value)) :: after).map (· ++ crlf)).flatten =
      (before.map (· ++ crlf)).flatten ++ (name ++ (text ": " ++ (value ++ (crlf ++
        (after.map (· ++ crlf)).flatten)))) := by
    simp only [List.map_append, List.map_cons, List.flatten_append, List.flatten_cons,
      List.append_assoc]
  have hlast : (before.map (· ++ crlf)).flatten = [] ∨
      (before.map (· ++ crlf)).flatten.getLast? = some (ascii '\n') := by
    rcases List.eq_nil_or_concat before with rfl | ⟨lines, line, rfl⟩
    · exact .inl rfl
    · rw [List.concat_eq_append]
      exact .inr (getLast?_lines lines line)
  have hbreak : ascii '\n' ∉ name.map toupper := fun hmem =>
    hends.2.2 ((mem_map_toupper_iff (by decide)).mp hmem)
  rw [hsplit]
  refine ioHttpResponseHeaderFind_line (fun rest => ?_) hends.1 hvalue hstart _
  exact needleRaw_line hne hlast hbreak (not_mentions_lines hne hends.2 hother) rest

end Find

section Head

variable {f : Bytes} {now modified : Tm} {n : Nat}

/-- The lines of the head with which a file is sent as a whole. -/
def answerLines (f : Bytes) (now modified : Tm) (n : Nat) : List Bytes :=
  [text "HTTP/1.1 200 OK", text "Date" ++ (text ": " ++ httpDate now),
    text "Content-Disposition" ++ (text ": " ++ disposition f),
    text "Last-Modified" ++ (text ": " ++ httpDate modified), text "Accept-Ranges: bytes",
    text "Content-Length" ++ (text ": " ++ numeral 10 n)]

/-- The head as the client keeps it, without the empty line. -/
def answerHead (f : Bytes) (now modified : Tm) (n : Nat) : Bytes :=
  ((answerLines f now modified n).map (· ++ crlf)).flatten

theorem fileLines_whole {world : World} {header dir : Bytes} {st : FileStat}
    (hdir : (0 : UInt8) ∉ dir) (hf : ∀ c ∈ f, c ≠ ascii '/' ∧ c ≠ ascii '\r' ∧ c ≠ ascii '\n' ∧
      c ≠ 0) (hrange : httpHeaderReadRange header 0 0 st.size = none)
    (hnow : world.clock.currentTime = httpDate now) (hfour : FourDigit now)
    (hmodified : world.clock.time st.mtime = httpDate modified) (hfour' : FourDigit modified)
    (hsize : st.size = n) (hsmall : n < 2 ^ 63) :
    (fileLines world header (dir ++ ascii '/' :: f) st).flatten =
      answerHead f now modified n ++ crlf := by
  have htext : ∀ {tm : Tm}, FourDigit tm → (0 : UInt8) ∉ httpDate tm := fun h hmem =>
    absurd (le_of_mem_httpDate h 0 hmem) (by decide)
  have hname : fileName (dir ++ ascii '/' :: f) = f :=
    fileName_append hdir (fun h => (hf 0 h).2.2.2 rfl) (fun h => (hf _ h).1 rfl)
  have hcount : pfOffset st.size = numeral 10 n := by
    have hvalue : (st.size % 2 ^ 64).toNat = n := by omega
    rw [pfOffset, hvalue]
  have hstatus : statusLine (httpHeaderGetResponse 200) = text "HTTP/1.1 200 OK" ++ crlf := rfl
  have hdate : text "Date: " = text "Date" ++ text ": " := text_append "Date" ": "
  have hdisposition : text "Content-Disposition: filename=\"" =
      text "Content-Disposition" ++ (text ": " ++ text "filename=\"") := by
    rw [← text_append, ← text_append]
    rfl
  have hlast : text "Last-Modified: " = text "Last-Modified" ++ text ": " :=
    text_append "Last-Modified" ": "
  have haccept : acceptRangesLine = text "Accept-Ranges: bytes" ++ crlf := rfl
  have hlength : text "Content-Length: " = text "Content-Length" ++ text ": " :=
    text_append "Content-Length" ": "
  have hend : httpEol = crlf := rfl
  simp only [fileLines, hrange, Option.isNone_none, if_true, hstatus, dateLine, hnow,
    cString_eq_self (htext hfour), fileNameLine, hname, lastModifiedLine, hmodified,
    cString_eq_self (htext hfour'), haccept, contentLengthLine, hcount, hend, hdate, hdisposition,
    hlast, hlength, answerHead, answerLines, disposition, List.cons_append, List.nil_append,
    List.map_cons, List.map_nil, List.flatten_cons, List.flatten_nil, List.append_assoc,
    List.append_nil]

theorem not_mentions_date {name : Bytes} {tm : Tm} (h : FourDigit tm) (hdash : ascii '-' ∈ name)
    (hcolon : ascii ':' ∉ name) {label : Bytes} (hlabel : ¬ Mentions label name) :
    ¬ Mentions (label ++ (text ": " ++ httpDate tm)) name := by
  have hdate : ascii '-' ∉ text " " ++ httpDate tm := by
    intro hmem
    rcases List.mem_append.mp hmem with hmem | hmem
    · exact absurd hmem (by decide)
    · exact absurd (mem_httpDate h hmem) (by decide)
  have hsplit : label ++ (text ": " ++ httpDate tm) =
      label ++ ascii ':' :: (text " " ++ httpDate tm) := rfl
  rw [hsplit, mentions_append_cons_iff (by decide) hcolon, not_or]
  exact ⟨hlabel, not_mentions_of_notMem (by decide) hdash hdate⟩

theorem not_mentions_disposition {name : Bytes} (hquote : ascii '"' ∉ name)
    (hlabel : ¬ Mentions (text "Content-Disposition: filename=") name) (hname : name ≠ [])
    (hf : ¬ Mentions f name) :
    ¬ Mentions (text "Content-Disposition" ++ (text ": " ++ disposition f)) name := by
  have hsplit : text "Content-Disposition" ++ (text ": " ++ disposition f) =
      text "Content-Disposition: filename=" ++ ascii '"' :: (f ++ ascii '"' :: []) := by
    have hlabel : text "Content-Disposition: filename=" =
        text "Content-Disposition" ++ (text ": " ++ text "filename=") := by
      rw [← text_append, ← text_append]
      rfl
    rw [hlabel, disposition]
    simp only [List.append_assoc]
    rfl
  have hnil : ¬ Mentions [] name := by simp [Mentions, hname]
  rw [hsplit, mentions_append_cons_iff (by decide) hquote,
    mentions_append_cons_iff (by decide) hquote]
  simp only [hlabel, hf, hnil, or_false, not_false_eq_true]

/-- The names of the headers that the client reads of a file, as it spells them, but for the
name of the file. -/
def readNames : List Bytes :=
  [text "Transfer-Encoding", text "Content-Length", text "Last-Modified"]

/-- A file name that the client takes for no header of its own. -/
structure PlainName (f : Bytes) : Prop where
  line : ∀ c ∈ f, c ≠ ascii '/' ∧ c ≠ ascii '\r' ∧ c ≠ ascii '\n' ∧ c ≠ 0
  header : ∀ name ∈ readNames, ¬ Mentions f name

theorem numeral_head : 0 < n → (numeral 10 n).head? ≠ some (ascii '0') := by
  have hdigit : ∀ d < 10, 0 < d → digit d ≠ ascii '0' := by decide
  refine numeral_induction (by decide) (motive := fun n s => 0 < n → s.head? ≠ some (ascii '0'))
    ?_ ?_ n
  · intro d hd hpos heq
    exact hdigit d hd hpos (Option.some.inj heq)
  · intro n d _ hn ih _
    obtain ⟨c, rest, hcons⟩ := List.exists_cons_of_ne_nil (numeral_ne_nil 10 n)
    rw [hcons] at ih ⊢
    exact ih hn

theorem contentLengthFrom_numeral (h : n < 2 ^ 63) : contentLengthFrom (numeral 10 n) 0 0 = n := by
  have hvalue : decimalValue (numeral 10 n) = n :=
    foldl_numeral (by decide) (fun acc d hd => by rw [digitValue_digit d (by omega)]) n
  rcases Nat.eq_zero_or_pos n with rfl | hpos
  · rfl
  · have hcounts := (counts_iff_of_fits (isDecimal_numeral n) (by rw [hvalue]; exact h)).mpr
      (numeral_head hpos)
    have hnumber : number (numeral 10 n) = n := by
      rw [number, hvalue, toOffset]
      omega
    have hread := contentLengthLoop_length (numeral 10 n) 0 0
    rcases contentLengthLoop_spec counts_nil (numeral 10 n) with ⟨-, hloop⟩ | ⟨_, _, hstops, -⟩
    · have hloop : Newth.Client.ContentLength.contentLengthLoop (numeral 10 n) 0 0 =
          (none, number (numeral 10 n)) := hloop
      rw [show ((0 : Nat) : Int) = 0 from rfl, hloop, hnumber] at hread
      exact (Int.ofNat.inj hread).symm
    · exact absurd hcounts hstops.not_counts

theorem not_mentions_before {name : Bytes} (hname : name ∈ readNames) (hf : PlainName f)
    (hnow : FourDigit now) : ∀ line ∈ (answerLines f now modified n).take 3,
      ¬ Mentions line name := by
  have hfixed : ∀ name ∈ readNames, ascii '-' ∈ name ∧ ascii ':' ∉ name ∧ ascii '"' ∉ name ∧
      name ≠ [] ∧ ¬ Mentions (text "HTTP/1.1 200 OK") name ∧ ¬ Mentions (text "Date") name ∧
        ¬ Mentions (text "Content-Disposition: filename=") name := by
    unfold Mentions
    decide
  obtain ⟨hdash, hcolon, hquote, hne, hstatus, hdate, hdisposition⟩ := hfixed name hname
  simp only [answerLines, List.take_succ_cons, List.take_zero, List.forall_mem_cons]
  refine ⟨hstatus, not_mentions_date hnow hdash hcolon hdate, ?_, by simp⟩
  exact not_mentions_disposition hquote hdisposition hne (hf.header name hname)

theorem answerHead_found (hf : PlainName f) (hnow : FourDigit now)
    (hmodified : FourDigit modified) :
    let header := answerHead f now modified n
    ioHttpResponseHeaderFind header (text "Transfer-Encoding") = none ∧
      ioHttpResponseHeaderFind header (text "Content-Length") = some (numeral 10 n) ∧
      ioHttpResponseHeaderFind header (text "Last-Modified") = some (httpDate modified) ∧
      ioHttpResponseHeaderFind header (text "Content-Disposition") = some (disposition f) := by
  intro header
  have hbefore : ∀ name ∈ readNames, ∀ line ∈ (answerLines f now modified n).take 3,
      ¬ Mentions line name := fun name hname => not_mentions_before hname hf hnow
  have hdate : ∀ {tm : Tm}, FourDigit tm → ascii '\r' ∉ httpDate tm ∧
      (httpDate tm).head? ≠ some (ascii ' ') := by
    intro tm h
    refine ⟨fun hmem => absurd (le_of_mem_httpDate h _ hmem) (by decide), ?_⟩
    obtain ⟨c, rest, hcons, hletter⟩ := httpDate_head h
    rw [hcons]
    intro heq
    obtain rfl := Option.some.inj heq
    exact absurd hletter (by decide)
  have hlater : ∀ name ∈ [text "Transfer-Encoding", text "Content-Length"],
      ¬ Mentions (text "Last-Modified" ++ (text ": " ++ httpDate modified)) name ∧
        ¬ Mentions (text "Accept-Ranges: bytes") name := by
    have hfixed : ∀ name ∈ [text "Transfer-Encoding", text "Content-Length"],
        ascii '-' ∈ name ∧ ascii ':' ∉ name ∧ ¬ Mentions (text "Last-Modified") name ∧
          ¬ Mentions (text "Accept-Ranges: bytes") name := by
      unfold Mentions
      decide
    intro name hname
    obtain ⟨hdash, hcolon, hlabel, haccept⟩ := hfixed name hname
    exact ⟨not_mentions_date hmodified hdash hcolon hlabel, haccept⟩
  refine ⟨?_, ?_, ?_, ?_⟩
  · have hlength : ¬ Mentions (text "Content-Length" ++ (text ": " ++ numeral 10 n))
        (text "Transfer-Encoding") := by
      have hsplit : text "Content-Length" ++ (text ": " ++ numeral 10 n) =
          text "Content-Length" ++ ascii ':' :: (text " " ++ numeral 10 n) := rfl
      have hdigits : ascii '-' ∉ text " " ++ numeral 10 n := by
        intro hmem
        rcases List.mem_append.mp hmem with hmem | hmem
        · exact absurd hmem (by decide)
        · exact absurd (isDecimal_numeral n _ hmem) (by decide)
      rw [hsplit, mentions_append_cons_iff (by decide) (by decide), not_or]
      refine ⟨?_, not_mentions_of_notMem (x := ascii '-') (by decide) (by decide) hdigits⟩
      unfold Mentions
      decide
    apply find_of_not_mentions (by decide)
    refine not_mentions_lines (by decide) (by decide) fun line hline => ?_
    obtain ⟨hlast, haccept⟩ := hlater (text "Transfer-Encoding") (by simp)
    rw [← List.take_append_drop 3 (answerLines f now modified n), List.mem_append] at hline
    rcases hline with hline | hline
    · exact hbefore _ (by simp [readNames]) line hline
    · simp only [answerLines, List.drop_succ_cons, List.drop_zero, List.mem_cons,
        List.not_mem_nil, or_false] at hline
      rcases hline with rfl | rfl | rfl
      · exact hlast
      · exact haccept
      · exact hlength
  · obtain ⟨hlast, haccept⟩ := hlater (text "Content-Length") (by simp)
    refine find_line ((answerLines f now modified n).take 5) (by decide) (by decide)
      (fun hmem => absurd (isDecimal_numeral n _ hmem) (by decide)) ?_ ?_ []
    · obtain ⟨c, rest, hcons⟩ := List.exists_cons_of_ne_nil (numeral_ne_nil 10 n)
      have hdigit := isDecimal_numeral n c (by rw [hcons]; exact List.mem_cons_self)
      rw [hcons]
      intro heq
      obtain rfl := Option.some.inj heq
      exact absurd hdigit (by decide)
    · rw [show (5 : Nat) = 3 + 2 from rfl, List.take_add, List.forall_mem_append]
      refine ⟨hbefore _ (by simp [readNames]), ?_⟩
      simp only [answerLines, List.drop_succ_cons, List.drop_zero, List.take_succ_cons,
        List.take_zero, List.forall_mem_cons]
      exact ⟨hlast, haccept, by simp⟩
  · exact find_line ((answerLines f now modified n).take 3) (by decide) (by decide)
      (hdate hmodified).1 (hdate hmodified).2 (hbefore _ (by simp [readNames])) _
  · refine find_line ((answerLines f now modified n).take 2) (by decide) (by decide)
      ?_ (by simp [disposition, text, ascii]) ?_ _
    · simp only [disposition, List.mem_append, not_or]
      exact ⟨by decide, fun hmem => (hf.line _ hmem).2.1 rfl, by decide⟩
    · simp only [answerLines, List.take_succ_cons, List.take_zero, List.forall_mem_cons]
      have hlabel : ¬ Mentions (text "Date") (text "Content-Disposition") ∧
          ¬ Mentions (text "HTTP/1.1 200 OK") (text "Content-Disposition") := by
        unfold Mentions
        decide
      exact ⟨hlabel.2, not_mentions_date hnow (by decide) (by decide) hlabel.1, by simp⟩

theorem headersPopulate_answer (hf : PlainName f) (hnow : FourDigit now)
    (hmodified : FourDigit modified) (hsmall : n < 2 ^ 63) :
    ∃ r : ResponseHeader, headersPopulate (answerHead f now modified n) noHeader = .ok r ∧
      r.toHttpResponseHeader = ⟨n, false⟩ ∧ r.modifiedDate = some modified ∧
      (f ≠ [] → ¬ text "ATTACHMENT" <:+: f.map toupper → DoubledQuotes f →
        r.fileName = some f ∧ r.attachment = true) := by
  obtain ⟨hencoding, hlength, hlast, hdisposition⟩ := @answerHead_found f now modified n hf hnow
    hmodified
  have hcase : ioHttpResponseHeaderFind (answerHead f now modified n) (text "content-length") =
      some (numeral 10 n) := by
    exact (find_congr (by decide) (by decide) _).trans hlength
  have hskip : (numeral 10 n).dropWhile (!isDecimal ·) = numeral 10 n := by
    obtain ⟨c, rest, hcons⟩ := List.exists_cons_of_ne_nil (numeral_ne_nil 10 n)
    have hdigit := isDecimal_numeral n c (by rw [hcons]; exact List.mem_cons_self)
    rw [hcons, List.dropWhile_cons_of_neg (by simp [hdigit])]
  have hcount : httpGetContentLength (answerHead f now modified n) 0 = n := by
    simp only [httpGetContentLength, hcase, hskip, contentLengthFrom_numeral hsmall]
  have hread : headersPopulate (answerHead f now modified n) noHeader =
      contentDisposition (disposition f) ⟨⟨n, false⟩, some modified, none, false⟩ := by
    simp only [headersPopulate, hencoding, hlast, hdisposition, noHeader, hcount,
      platformTimeGetFromHttpStr_httpDate hmodified]
  rw [hread, contentDisposition_disposition]
  by_cases hword : text "ATTACHMENT" <:+: f.map toupper
  · rw [if_pos hword]
    exact ⟨_, rfl, rfl, rfl, fun _ hnot => absurd hword hnot⟩
  · rw [if_neg hword]
    refine ⟨_, rfl, rfl, rfl, fun hne _ hquotes => ⟨?_, rfl⟩⟩
    rw [(untilQuote_eq_iff f).mpr hquotes, if_neg hne]

end Head

section Reading

variable {header body : Bytes}

theorem not_headEnd_lines {lines : List Bytes} (h : ∀ line ∈ lines, line ≠ [] ∧ ascii '\r' ∉ line)
    {j : Nat} (hj : j + 2 < (lines.map (· ++ crlf)).flatten.length) :
    ¬ headEnd <+: ((lines.map (· ++ crlf)).flatten ++ crlf).drop j := by
  induction lines generalizing j with
  | nil => simp at hj
  | cons line lines ih =>
      obtain ⟨⟨hne, hline⟩, hlines⟩ := List.forall_mem_cons.mp h
      obtain ⟨tail, htail⟩ : ∃ tail, (lines.map (· ++ crlf)).flatten = tail := ⟨_, rfl⟩
      have hsplit : ((line :: lines).map (· ++ crlf)).flatten ++ crlf =
          line ++ ascii '\r' :: ascii '\n' :: (tail ++ crlf) := by
        rw [List.map_cons, List.flatten_cons, htail, List.append_assoc, List.append_assoc]
        rfl
      have hlength : ((line :: lines).map (· ++ crlf)).flatten.length =
          line.length + 2 + tail.length := by
        rw [List.map_cons, List.flatten_cons, htail, List.length_append, List.length_append]
        rfl
      rw [hlength] at hj
      rw [htail] at ih
      have hfirst : ∀ {c : UInt8} {s : Bytes}, c ≠ ascii '\r' → ¬ headEnd <+: c :: s := by
        intro c s hc hend
        exact hc (List.cons_prefix_cons.mp hend).1.symm
      rw [hsplit]
      rcases Nat.lt_trichotomy j line.length with hlt | rfl | hgt
      · rw [List.drop_append_of_le_length (Nat.le_of_lt hlt), List.drop_eq_getElem_cons hlt]
        refine hfirst fun heq => hline ?_
        rw [← heq]
        exact List.getElem_mem hlt
      · rw [List.drop_left]
        intro hend
        cases lines with
        | nil =>
            obtain rfl := htail
            simp at hj
        | cons next lines =>
            obtain ⟨hnext, hclean⟩ := hlines next List.mem_cons_self
            obtain ⟨c, rest, rfl⟩ := List.exists_cons_of_ne_nil hnext
            have htwo := (List.cons_prefix_cons.mp (List.cons_prefix_cons.mp hend).2).2
            rw [← htail] at htwo
            have hthird := (List.cons_prefix_cons.mp htwo).1
            exact hclean (hthird ▸ List.mem_cons_self)
      · obtain ⟨k, rfl⟩ := Nat.exists_eq_add_of_lt hgt
        rw [Nat.add_assoc, List.drop_length_add_append]
        cases k with
        | zero => exact hfirst (by decide)
        | succ k => exact ih hlines (by omega)

/-- A line of a head that is one line, and a text. -/
def CleanLine (line : Bytes) : Prop := line ≠ [] ∧ ascii '\r' ∉ line ∧ 0 ∉ line

instance (line : Bytes) : Decidable (CleanLine line) := inferInstanceAs (Decidable (_ ∧ _))

theorem readable_lines {lines : List Bytes} {last : Bytes}
    (h : ∀ line ∈ lines ++ [last], CleanLine line)
    (hfits : ((lines ++ [last]).map (· ++ crlf)).flatten.length + 2 ≤ sbDataSize) :
    Readable ((lines ++ [last]).map (· ++ crlf)).flatten := by
  have hsplit : ((lines ++ [last]).map (· ++ crlf)).flatten =
      (lines.map (· ++ crlf)).flatten ++ last ++ crlf := by
    simp only [List.map_append, List.flatten_append, List.map_cons, List.map_nil,
      List.flatten_cons, List.flatten_nil, List.append_nil, List.append_assoc]
  refine ⟨⟨(lines.map (· ++ crlf)).flatten ++ last, ?_, hsplit, ?_⟩, ?_, hfits⟩
  · have hlast := (h last (by simp)).1
    simp [hlast]
  · intro j hj
    refine not_headEnd_lines (fun line hline => ⟨(h line hline).1, (h line hline).2.1⟩) ?_
    rw [hsplit, @List.length_append _ _ crlf]
    exact Nat.add_lt_add_right hj 2
  · intro hmem
    obtain ⟨piece, hpiece, hzero⟩ := List.mem_flatten.mp hmem
    obtain ⟨line, hline, rfl⟩ := List.mem_map.mp hpiece
    rcases List.mem_append.mp hzero with hzero | hzero
    · exact (h line hline).2.2 hzero
    · exact absurd hzero (by decide)

theorem ioHttpResponseHeaderRead_readable {self : RecvBuffer} (h : Readable header)
    (hempty : self.data = []) (hstream : self.serverSocket.rest = header ++ crlf ++ body) :
    ∃ self', ioHttpResponseHeaderRead self = .ok (self', .ok header) ∧
      self'.data ++ self'.serverSocket.rest = body := by
  obtain ⟨⟨top, htop, rfl, hfirst⟩, htext, hfits⟩ := h
  obtain ⟨head, hhead⟩ : ∃ head, head = top ++ crlf ++ crlf := ⟨_, rfl⟩
  rw [← hhead] at hstream hfirst
  have hend : head = top ++ headEnd := by rw [hhead, List.append_assoc]; rfl
  have hlength : head.length = top.length + 4 := by rw [hend, List.length_append]; rfl
  have hpos := List.length_pos_iff.mpr htop
  have hnear : top.length + 4 ≤ sbDataSize := by
    rwa [List.length_append, show crlf.length = 2 from rfl] at hfits
  have hneedle : platformStringFindNeedleRaw (head ++ body) headEnd = some top.length := by
    rw [needleRaw_eq_some_iff (by decide)]
    simpa only [headEnd_prefix_map_iff] using headEnd_first hend hfirst body
  have hstart : Streaming (head ++ body) (recvBufferSetLengthToken self headEnd 4) := by
    constructor
    show self.data ++ self.serverSocket.rest = _
    rw [hempty, List.nil_append, hstream]
  obtain ⟨self', hfetch, hstream', hthere⟩ :=
    recvBufferFindAndFetch_token hstart (by decide) (by decide : headEnd.length ≤ 4096) hneedle
      hpos rfl hempty hnear
  have hwhole : head.length ≤ self'.len := by
    rw [hlength]
    exact hthere
  have hdata : self'.data = head ++ body.take (self'.len - head.length) := by
    rw [hstream'.data_eq, List.take_append, List.take_of_length_le hwhole]
  have hsome : self'.buffer.isSome = true := by
    cases hbuffer : self'.buffer with
    | some data => rfl
    | none =>
        have hnone : self'.len = 0 := by
          rw [RecvBuffer.len, RecvBuffer.data, hbuffer]
          rfl
        omega
  have hget : recvBufferFetch self' 0 (self'.len + 1) = .ok (.ok self'.data) := by
    rw [recvBufferFetch, if_pos ⟨hsome, by omega⟩, if_neg (by omega), if_pos (by omega)]
    rfl
  have hclean : (0 : UInt8) ∉ head := by
    rw [hhead, List.mem_append, not_or]
    exact ⟨htext, by decide⟩
  have hcut : cString self'.data = head ++ cString (body.take (self'.len - head.length)) := by
    rw [hdata, cString_append hclean]
  have hfind : strstr (cString self'.data) headEnd = some top.length := by
    rw [hcut, strstr_eq_some_iff]
    exact headEnd_first hend hfirst _
  have hheader : (cString self'.data).take (top.length + 2) = top ++ crlf := by
    rw [hcut, hhead, List.append_assoc]
    exact List.take_left' (by rw [List.length_append]; rfl)
  refine ⟨recvBufferDitch self' (top.length + 2 + 2), ?_, ?_⟩
  · simp only [ioHttpResponseHeaderRead, hfetch, ok_bind, hget, hfind, hheader]
  · rw [recvBufferDitch_data, recvBufferDitch_serverSocket,
      show top.length + 2 + 2 = head.length by omega]
    have hdrop : (self'.data ++ self'.serverSocket.rest).drop head.length = body := by
      rw [hstream'.whole, List.drop_left]
    rwa [List.drop_append_of_le_length hwhole] at hdrop

end Reading

section Client

variable {f : Bytes} {now modified : Tm} {n : Nat}

theorem cleanLine_field {label value : Bytes} (hlabel : CleanLine label)
    (hvalue : ascii '\r' ∉ value ∧ 0 ∉ value) : CleanLine (label ++ (text ": " ++ value)) := by
  obtain ⟨hne, hreturn, hzero⟩ := hlabel
  refine ⟨by simp [hne], ?_, ?_⟩
  · simp only [List.mem_append, not_or]
    exact ⟨hreturn, by decide, hvalue.1⟩
  · simp only [List.mem_append, not_or]
    exact ⟨hzero, by decide, hvalue.2⟩

theorem clean_httpDate {tm : Tm} (h : FourDigit tm) :
    ascii '\r' ∉ httpDate tm ∧ 0 ∉ httpDate tm :=
  ⟨fun hmem => absurd (le_of_mem_httpDate h _ hmem) (by decide),
    fun hmem => absurd (le_of_mem_httpDate h _ hmem) (by decide)⟩

theorem answerHead_readable (hf : PlainName f) (hnow : FourDigit now)
    (hmodified : FourDigit modified)
    (hfits : (answerHead f now modified n).length + 2 ≤ sbDataSize) :
    Readable (answerHead f now modified n) := by
  have hquoted : ascii '\r' ∉ disposition f ∧ 0 ∉ disposition f := by
    simp only [disposition, List.mem_append, not_or]
    exact ⟨⟨by decide, fun hmem => (hf.line _ hmem).2.1 rfl, by decide⟩,
      by decide, fun hmem => (hf.line _ hmem).2.2.2 rfl, by decide⟩
  have hnumber : ascii '\r' ∉ numeral 10 n ∧ 0 ∉ numeral 10 n :=
    ⟨fun hmem => absurd (isDecimal_numeral n _ hmem) (by decide),
      fun hmem => absurd (isDecimal_numeral n _ hmem) (by decide)⟩
  refine @readable_lines ((answerLines f now modified n).take 5) _ ?_ hfits
  simp only [answerLines, List.take_succ_cons, List.take_zero, List.cons_append, List.nil_append,
    List.forall_mem_cons]
  exact ⟨by decide, cleanLine_field (by decide) (clean_httpDate hnow),
    cleanLine_field (by decide) hquoted, cleanLine_field (by decide) (clean_httpDate hmodified),
    by decide, cleanLine_field (by decide) hnumber, by simp⟩

theorem essential_lines {response : Bytes} (hresponse : ascii '\r' ∉ response)
    (lines : List Bytes) :
    ioHttpResponseHeaderEssential
      ((((text "HTTP/1.1" ++ ascii ' ' :: response) :: lines).map (· ++ crlf)).flatten) =
        some (text "HTTP/1.1", response) := by
  obtain ⟨status, hstatus⟩ : ∃ status, text "HTTP/1.1" ++ ascii ' ' :: response = status := ⟨_, rfl⟩
  have hline : ascii '\r' ∉ status := by
    rw [← hstatus, List.mem_append, List.mem_cons, not_or, not_or]
    exact ⟨by decide, by decide, hresponse⟩
  have hend : strstr (((status :: lines).map (· ++ crlf)).flatten) crlf = some status.length := by
    have hfirst : ∀ rest, strstr (crlf ++ rest) crlf = some 0 := fun rest =>
      strstr_eq_some_iff.mpr ⟨List.prefix_append _ _, Nat.zero_le _, by simp⟩
    rw [List.map_cons, List.flatten_cons, List.append_assoc,
      strstr_drop_front (c := ascii '\r') rfl hline, hfirst]
    rfl
  have htake : (((status :: lines).map (· ++ crlf)).flatten).take status.length = status := by
    rw [List.map_cons, List.flatten_cons, List.append_assoc, List.take_left]
  have hblank : strchr status (ascii ' ') = some 8 := by
    rw [← hstatus]
    exact strchr_append (by decide : ascii ' ' ∉ text "HTTP/1.1") response
  rw [hstatus]
  simp only [ioHttpResponseHeaderEssential, hend, Option.bind_eq_bind, Option.bind_some, htake,
    hblank]
  rw [← hstatus]
  rfl

theorem answerHead_essential :
    (ioHttpResponseHeaderEssential (answerHead f now modified n)).isSome :=
  Option.isSome_of_mem (essential_lines (by decide : ascii '\r' ∉ text "200 OK") _)

/-- What the client asks for the file with. -/
def requestOf (self : HttpConnection) (path : Bytes) : Bytes :=
  ioHttpRequestGenerateGet path
    (some (generateConnectionHeader (generateHostHeader (uriDetailsNewFrom self.fullUri))))

/-- The file is open once its head has come, and the reads find its content. -/
theorem fileOpenRead_answer {self : HttpConnection} {asked currentPath path content : Bytes}
    {sending : Sending} (hcurrent : (uriDetailsNewFrom self.fullUri).path = some currentPath)
    (hpath : uriPathAbsoluteAppend currentPath asked = .ok (some path))
    (hsend : recvBufferSend (self.setSocket (recvBufferClear self.socket)).sending
      (requestOf self path) = .ok (sending, none)) (hempty : sending.self.data = [])
    (hf : PlainName f) (hnow : FourDigit now) (hmodified : FourDigit modified)
    (hfits : (answerHead f now modified content.length).length + 2 ≤ sbDataSize)
    (hsmall : content.length < 2 ^ 63)
    (hanswer : sending.self.serverSocket.rest =
      answerHead f now modified content.length ++ crlf ++ content) :
    ∃ opened file, httpSiteSchemeFileOpenRead self asked = .ok (opened, none) ∧
      opened.file = some file ∧ file.path = some path ∧
      file.modifiedDate = some modified.toPlatformTimeStruct ∧
      (f ≠ [] → ¬ text "ATTACHMENT" <:+: f.map toupper → DoubledQuotes f → file.type = .file ∧
        file.name = openedName path (some f)) ∧
      Reading content opened.socket := by
  obtain ⟨socket, hread, hrest⟩ := ioHttpResponseHeaderRead_readable
    (answerHead_readable hf hnow hmodified hfits) hempty hanswer
  obtain ⟨r, hpopulate, hheader, hdate, hnamed⟩ := headersPopulate_answer hf hnow hmodified hsmall
  obtain ⟨computed, hcompute, hreading⟩ := @headersCompute_reading
    ⟨some self.fullUri, socket⟩ ⟨content.length, false⟩ content hrest rfl rfl
  obtain ⟨essential, hessential⟩ := Option.isSome_iff_exists.mp
    (@answerHead_essential f now modified content.length)
  have hhead : requestHead self asked = .ok (HttpConnection.setSocket
      ⟨self.fullUri, sending, self.file⟩ socket, .ok (path, answerHead f now modified
        content.length)) := by
    simp only [requestHead, hcurrent, hpath, ok_bind]
    change (recvBufferSend (self.setSocket (recvBufferClear self.socket)).sending
      (requestOf self path) >>= _) = _
    rw [hsend, ok_bind]
    simp only [HttpConnection.socket, hread, ok_bind]
    rfl
  refine ⟨⟨self.fullUri, { sending with self := computed.socket }, some ⟨r.modifiedDate.map
    (·.toPlatformTimeStruct), openedName path r.fileName, some path,
    if r.attachment then .file else .directory⟩⟩, _, ?_, rfl, rfl, ?_, ?_, hreading⟩
  · rw [httpSiteSchemeFileOpenRead, hhead, ok_bind]
    simp only [hessential, hpopulate, ok_bind, hheader]
    rw [show HttpConnection.site
      (HttpConnection.setSocket ⟨self.fullUri, sending, self.file⟩ socket)
      = ⟨some self.fullUri, socket⟩ from rfl, hcompute]
    rfl
  · rw [hdate]
    rfl
  · intro hne hword hquotes
    obtain ⟨hname, hflag⟩ := hnamed hne hword hquotes
    simp only [hname, hflag, if_true, and_self]

end Client

section Server

variable {world : World} {f path absolutePath content : Bytes} {st : FileStat} {now modified : Tm}
  {received : List Received} {extra : Option Bytes}

/-- A request that is there as a whole when it is read, in whatever pieces. -/
structure Arrives (request : Bytes) (received : List Received) : Prop where
  head : Head request
  text : (0 : UInt8) ∉ request
  pieces : ∀ result ∈ received, Piece result
  whole : arrived received = request
  prompt : Prompt 0 received

/-- A path that stands in a request line as it is. -/
structure PlainPath (path : Bytes) : Prop where
  absolute : path.head? = some (ascii '/')
  word : ascii ' ' ∉ path
  literal : ¬ HasEscape path
  inside : ¬ text "/.." <:+: path

/-- There is a file under the path, and the request asks for all of it. -/
structure Offers (world : World) (header path absolutePath content : Bytes) (st : FileStat)
    (now modified : Tm) : Prop where
  path : Posix01.platformPathWebToSystem filenameMax world.rootPath path = .ok (.ok absolutePath)
  stat : world.stat absolutePath = some st
  opens : world.fileOpen absolutePath = some content
  kind : st.kind = .file
  size : st.size = content.length
  clock : world.clock.currentTime = httpDate now
  time : world.clock.time st.mtime = httpDate modified
  whole : httpHeaderReadRange header 0 0 st.size = none
  changed : world.notModified header st = false

theorem generateSend_dropLast (type path : Bytes) (extra : Option Bytes) :
    (ioHttpRequestGenerateSend type path extra).dropLast =
      type ++ ascii ' ' :: (path ++ ascii ' ' :: (afterPath extra).dropLast) := by
  have hsplit : ioHttpRequestGenerateSend type path extra =
      (type ++ ascii ' ' :: (path ++ [ascii ' '])) ++ afterPath extra := by
    simp [ioHttpRequestGenerateSend, afterPath, text, ascii]
  have hne : afterPath extra ≠ [] := by simp [afterPath, crlf]
  rw [hsplit, List.dropLast_append_of_ne_nil hne]
  simp

theorem handleConnection_request {type : Bytes} {clientSocket : Nat} {channel : Channel}
    (hmethod : ascii ' ' ∉ type)
    (harrives : Arrives (ioHttpRequestGenerateSend type path extra) received)
    (hpath : PlainPath path) :
    handleConnection world clientSocket channel received =
      handlePath world clientSocket channel (ioHttpRequestGenerateSend type path extra).dropLast
        path := by
  obtain ⟨hhead, htext, hpieces, hwhole, hprompt⟩ := harrives
  obtain ⟨message, hrun, -, hmessage⟩ := receive_gathers world
    ⟨sendBufferNew clientSocket 0, channel⟩ hhead (hwhole ▸ List.prefix_refl _) hpieces
  obtain rfl := hmessage.mpr ⟨hwhole, hprompt⟩
  have hclean : cString (ioHttpRequestGenerateSend type path extra).dropLast =
      (ioHttpRequestGenerateSend type path extra).dropLast :=
    cString_eq_self fun hmem => htext (List.mem_of_mem_dropLast hmem)
  have huri : httpClientReadUri (cString (ioHttpRequestGenerateSend type path extra).dropLast) =
      .ok (some path) := by
    rw [hclean, httpClientReadUri_ok_iff]
    refine ⟨path, ?_, ?_⟩
    · rw [generateSend_dropLast]
      exact requestTarget_append hmethod hpath.word _
    · rcases unescape_cases path with ⟨-, hsame⟩ | ⟨hescape, -⟩
      · exact hexConvert_of_clean hsame hpath.inside
      · exact absurd hescape hpath.literal
  have hne : ioHttpRequestGenerateSend type path extra ≠ [] := by
    simp [ioHttpRequestGenerateSend, crlf]
  have hcall : pathCall world clientSocket channel received =
      .ok (some ((ioHttpRequestGenerateSend type path extra).dropLast ++ [0], path)) :=
    (pathCall_of_run hne hrun).mpr ⟨rfl, huri, hpath.absolute⟩
  rw [handleConnection_of_pathCall hcall, cString_concat_zero, hclean]

theorem handleConnection_offers {clientSocket : Nat} {sends : List SendResult}
    (harrives : Arrives (ioHttpRequestGenerateGet path extra) received) (hpath : PlainPath path)
    (hoffers : Offers world (ioHttpRequestGenerateGet path extra).dropLast path absolutePath content
      st now modified)
    (hlast : ∃ dir, (0 : UInt8) ∉ dir ∧ path = dir ++ ascii '/' :: f) (hf : PlainName f)
    (hnow : FourDigit now) (hmodified : FourDigit modified) (hsmall : content.length < 2 ^ 63)
    (hsends : SendResult.fails ∉ sends) :
    ∃ handled routine, handleConnection world clientSocket ⟨[], sends⟩ received = .ok handled ∧
      handled.added = some routine ∧ routine.socketBuffer.clientSocket = clientSocket ∧
      Transfers content 0 content.length (answerHead f now modified content.length ++ crlf) routine
        handled.link.channel := by
  obtain ⟨dir, hdir, rfl⟩ := hlast
  obtain ⟨header, hheader⟩ : ∃ header,
      (ioHttpRequestGenerateGet (dir ++ ascii '/' :: f) extra).dropLast = header := ⟨_, rfl⟩
  have hget : httpClientReadType header = .httpGet := by
    rw [← hheader, ioHttpRequestGenerateGet, generateSend_dropLast]
    rfl
  rw [hheader] at hoffers
  have hlines := fileHead_writesLines world (new_sound hsends clientSocket []) header
    (dir ++ ascii '/' :: f) st
  have hrange : ∀ link, (fileHead world link header (dir ++ ascii '/' :: f) st).2 =
      (0, (content.length : Int)) := by
    intro link
    simp only [fileHead, hoffers.whole]
    rw [hoffers.size]
  have hhandled : handleConnection world clientSocket ⟨[], sends⟩ received = .ok (handleFile world
      clientSocket ⟨[], sends⟩ header (dir ++ ascii '/' :: f) absolutePath .httpGet st) := by
    rw [handleConnection_request (by decide) harrives hpath, ← ioHttpRequestGenerateGet, hheader,
      handlePath, hoffers.path, ok_bind]
    simp only [hoffers.stat, hoffers.changed, hoffers.kind, hget]
    rfl
  have hadded : handleFile world clientSocket ⟨[], sends⟩ header (dir ++ ascii '/' :: f)
      absolutePath .httpGet st = ⟨0, some (fileRoutineNew (fileHead world
        ⟨sendBufferNew clientSocket 0, ⟨[], sends⟩⟩ header (dir ++ ascii '/' :: f) st).1.self
          ⟨content, 0⟩ 0 content.length (dir ++ ascii '/' :: f)), (fileHead world
        ⟨sendBufferNew clientSocket 0, ⟨[], sends⟩⟩ header (dir ++ ascii '/' :: f) st).1⟩ := by
    have hsplit := hrange ⟨sendBufferNew clientSocket 0, ⟨[], sends⟩⟩
    simp only [handleFile, hoffers.opens, hsplit]
    rfl
  rw [hadded] at hhandled
  refine ⟨_, _, hhandled, rfl, ?_, ⟨0, 0, rfl, Nat.le_refl 0, Nat.zero_le _, ?_, ?_⟩, ?_⟩
  · exact fileHead_clientSocket _ _ _ _ _
  · rw [Nat.sub_self, List.take_zero, List.append_nil,
      ← fileLines_whole hdir hf.line hoffers.whole hoffers.clock hnow hoffers.time hmodified
        hoffers.size hsmall]
    exact hlines.carried
  · intro hfinish
    simp [fileRoutineNew] at hfinish
  · exact hlines.writes.sound.coherent

end Server

section Download

variable {world : World} {self : HttpConnection}
  {asked currentPath path f absolutePath content : Bytes} {st : FileStat} {now modified : Tm}

/-- A client gets the file it asks a server for: however the request arrives, however the
server's socket takes the answer and whatever else the server has to do meanwhile, when the
routine ends without a failure and its bytes come to the client in whatever pieces, the client
has opened a file of the same time, and its reads put together are the content. -/
theorem download_delivers {received : List Received} {sends : List SendResult} {clientSocket : Nat}
    {sending : Sending}
    (hcurrent : (uriDetailsNewFrom self.fullUri).path = some currentPath)
    (hasked : uriPathAbsoluteAppend currentPath asked = .ok (some path))
    (hsend : recvBufferSend (self.setSocket (recvBufferClear self.socket)).sending
      (requestOf self path) = .ok (sending, none)) (hempty : sending.self.data = [])
    (hpath : PlainPath path) (hlast : ∃ dir, (0 : UInt8) ∉ dir ∧ path = dir ++ ascii '/' :: f)
    (hf : PlainName f) (hnow : FourDigit now) (hmodified : FourDigit modified)
    (hoffers : Offers world (requestOf self path).dropLast path absolutePath content st now
      modified)
    (hfits : (answerHead f now modified content.length).length + 2 ≤ sbDataSize)
    (hsmall : content.length < 2 ^ 63) (harrives : Arrives (requestOf self path) received)
    (hsends : SendResult.fails ∉ sends) :
    ∃ handled, handleConnection world clientSocket ⟨[], sends⟩ received = .ok handled ∧
      ∀ first last current deferred t, Starts handled clientSocket first → Ticking first last →
        current ∈ last.routines → current.socketBuffer.clientSocket = clientSocket →
        advance deferred current (last.net clientSocket) = .ok t → t.kept = false →
        t.routine.state ≠ .stateFail → sending.self.serverSocket.rest = t.channel.accepted →
        ∃ opened file, httpSiteSchemeFileOpenRead self asked = .ok (opened, none) ∧
          opened.file = some file ∧ file.path = some path ∧
          file.modifiedDate = some modified.toPlatformTimeStruct ∧
          (f ≠ [] → ¬ text "ATTACHMENT" <:+: f.map toupper → DoubledQuotes f →
            file.type = .file ∧ file.name = openedName path (some f)) ∧
          ∀ sizes, content.length ≤ sizes.sum → ∃ final, ∃ results : List Bytes,
            reads opened.site sizes = .ok (final, results.map some) ∧
              results.flatten = content := by
  obtain ⟨handled, routine, hhandled, hadded, hsocket, htransfers⟩ :=
    @handleConnection_offers world f path absolutePath content st now modified received
      (some (generateConnectionHeader (generateHostHeader (uriDetailsNewFrom self.fullUri))))
      clientSocket sends harrives hpath hoffers hlast hf hnow hmodified hsmall hsends
  refine ⟨handled, hhandled, ?_⟩
  intro first last current deferred t hstarts hticking hcurrent' hsame hadvance hremoved hfine hrest
  have hmem : routine ∈ first.routines := by
    have hroutine := hstarts.routine
    rwa [hadded] at hroutine
  have hround : ∀ deferred routine channel t, Transfers content 0 content.length
        (answerHead f now modified content.length ++ crlf) routine channel →
      advance deferred routine channel = .ok t →
      (t.kept = true → Transfers content 0 content.length
        (answerHead f now modified content.length ++ crlf) t.routine t.channel) ∧
        (t.kept = false → True) := by
    intro deferred routine channel t htransfers hadvance
    exact ⟨(advance_transfers (Nat.le_refl _) htransfers hadvance).1, fun _ => trivial⟩
  have hstill : Transfers content 0 content.length
      (answerHead f now modified content.length ++ crlf) current (last.net clientSocket) := by
    rcases ticks_routine _ (fun _ => True) hround hticking hstarts.single hmem hsocket
        (by rw [hstarts.channel]; exact htransfers) with
      ⟨alone, -, -, halone, honly⟩ | ⟨hgone, -⟩
    · rwa [honly current hcurrent' hsame]
    · exact absurd (hsame ▸ List.mem_map_of_mem hcurrent') hgone
  have hwhole : t.channel.accepted =
      answerHead f now modified content.length ++ crlf ++ content := by
    have hleft := (advance_transfers (Nat.le_refl _) hstill hadvance).2.1 hremoved hfine
    rwa [List.drop_zero, Nat.sub_zero, List.take_length] at hleft
  rw [hwhole] at hrest
  obtain ⟨opened, file, hopen, hfile, hfilePath, hdate, hname, hreading⟩ := fileOpenRead_answer
    hcurrent hasked hsend hempty hf hnow hmodified hfits hsmall hrest
  refine ⟨opened, file, hopen, hfile, hfilePath, hdate, hname, fun sizes hsizes => ?_⟩
  obtain ⟨final, hreads, -⟩ := @reads_reading content opened.site hreading sizes
  refine ⟨final, pieces content sizes, hreads, ?_⟩
  rw [flatten_pieces, List.take_of_length_le hsizes]

/-- What a server with ten digits in its file answers. -/
def digitsAnswer : Bytes :=
  answerHead (text "a") ⟨⟨70, 0, 1, 0, 0, 0⟩, 4⟩ ⟨⟨70, 0, 1, 0, 0, 0⟩, 4⟩ 10 ++ crlf ++
    text "0123456789"

/-- A site at which the answer arrives in three pieces. -/
def digitsClient : HttpConnection :=
  awaiting (digitsAnswer.take 9) [(digitsAnswer.drop 9).take 100, [], digitsAnswer.drop 109] .idle

def digitsRequest : List Received :=
  [.bytes ((requestOf digitsClient (text "/a")).take 20), .wouldBlock,
    .bytes ((requestOf digitsClient (text "/a")).drop 20)]

theorem digitsRequest_arrives : Arrives (requestOf digitsClient (text "/a")) digitsRequest := by
  refine ⟨⟨by decide +kernel, by decide +kernel, ?_⟩, by decide +kernel, ?_, by decide +kernel, ?_⟩
  · intro before after hsplit
    have hcount : (requestOf digitsClient (text "/a")).length = 52 := by decide +kernel
    have hlast : ∀ i < 52, httpEol ++ httpEol <+: (requestOf digitsClient (text "/a")).drop i →
        i = 48 := by
      decide +kernel
    have hlength := congrArg List.length hsplit
    rw [hcount, List.length_append, List.length_append,
      show (httpEol ++ httpEol).length = 4 from rfl] at hlength
    have hat := hlast before.length (by omega) ⟨after, by rw [hsplit]; simp⟩
    exact List.eq_nil_of_length_eq_zero (by omega)
  · simp only [digitsRequest, List.forall_mem_cons]
    exact ⟨.inr ⟨_, by decide +kernel, rfl⟩, .inl rfl, .inr ⟨_, by decide +kernel, rfl⟩, by simp⟩
  · intro before after hsplit
    have hlength := congrArg List.length hsplit
    simp only [digitsRequest, List.length_append, List.length_replicate, List.length_cons,
      List.length_nil] at hlength
    omega

theorem digits_ticks : ((handleConnection tenDigits 3 ⟨[], [.accepts 40, .wouldBlock]⟩
    digitsRequest).toOption.any fun handled => handled.added.any fun routine =>
      routine.socketBuffer.clientSocket = 3 ∧
      (follow tickAnswering (fun _ _ => True) ⟨[routine], [], fun _ => handled.link.channel⟩
        (List.replicate 4 [])).any fun last => last.routines.any fun current =>
          (advance [] current (last.net 3)).toOption.any fun t =>
            current.socketBuffer.clientSocket = 3 ∧ t.kept = false ∧
              t.routine.state ≠ .stateFail ∧ digitsAnswer = t.channel.accepted) = true := by
  decide +kernel

theorem digits_sent : ((recvBufferSend (digitsClient.setSocket
    (recvBufferClear digitsClient.socket)).sending (requestOf digitsClient (text "/a"))).toOption.any
      fun result => result.2 = none ∧ result.1.self.data = [] ∧
        result.1.self.serverSocket.rest = digitsAnswer) = true := by
  decide +kernel

theorem download_delivers_digits :
    ∃ opened file, httpSiteSchemeFileOpenRead digitsClient (text "a") = .ok (opened, none) ∧
      opened.file = some file ∧ file.modifiedDate = some ⟨70, 0, 1, 0, 0, 0⟩ ∧
      file.type = .file ∧ ∃ final, ∃ results : List Bytes,
        reads opened.site [4, 0, 7] = .ok (final, results.map some) ∧
          results.flatten = text "0123456789" := by
  obtain ⟨⟨sending, e⟩, hsend, hsent⟩ := (Option.any_eq_true _ _).mp digits_sent
  obtain ⟨rfl, hempty, hrest⟩ := of_decide_eq_true hsent
  obtain ⟨handled, hhandled, hrun⟩ := (Option.any_eq_true _ _).mp digits_ticks
  obtain ⟨routine, hadded, hrun⟩ := (Option.any_eq_true _ _).mp hrun
  obtain ⟨hsocket, hrun⟩ := of_decide_eq_true hrun
  obtain ⟨last, hticks, hrun⟩ := (Option.any_eq_true _ _).mp hrun
  obtain ⟨current, hcurrent, hrun⟩ := List.any_eq_true.mp hrun
  obtain ⟨t, hadvance, hrun⟩ := (Option.any_eq_true _ _).mp hrun
  obtain ⟨hsame, hremoved, hfine, hanswer⟩ := of_decide_eq_true hrun
  rw [toOption_eq_some_iff] at hsend hhandled hadvance
  have hfour : FourDigit ⟨⟨70, 0, 1, 0, 0, 0⟩, 4⟩ := by
    constructor <;> decide
  have hliteral : ¬ HasEscape (text "/a") := fun h =>
    absurd (two_lt_length_of_hasEscape h) (by decide)
  obtain ⟨handled', hhandled', hdelivers⟩ := @download_delivers tenDigits digitsClient (text "a")
    (text "/") (text "/a") (text "a") (text "/srv/a") (text "0123456789") ⟨10, 0, .file⟩
    ⟨⟨70, 0, 1, 0, 0, 0⟩, 4⟩ ⟨⟨70, 0, 1, 0, 0, 0⟩, 4⟩ digitsRequest [.accepts 40, .wouldBlock] 3
    sending rfl rfl hsend hempty ⟨rfl, by decide, hliteral, by decide⟩ ⟨[], by decide, rfl⟩
    ⟨by decide +kernel, by unfold Mentions; decide⟩ hfour hfour
    ⟨by decide +kernel, rfl, rfl, rfl, rfl, by decide +kernel, by decide +kernel, by decide +kernel,
      rfl⟩ (by decide +kernel) (by decide) digitsRequest_arrives (by decide)
  obtain rfl := Except.ok.inj (hhandled.symm.trans hhandled')
  have hstarts : Starts handled 3 ⟨[routine], [], fun _ => handled.link.channel⟩ := by
    refine ⟨List.nodup_singleton _, rfl, ?_⟩
    rw [hadded]
    exact List.mem_singleton_self routine
  obtain ⟨opened, file, hopen, hfile, -, hdate, hname, hreads⟩ := hdelivers _ last current [] t
    hstarts (run_of_follow hticks) hcurrent hsame hadvance hremoved hfine (hrest.trans hanswer)
  have hquotes : DoubledQuotes (text "a") := .char (by decide) .nil
  exact ⟨opened, file, hopen, hfile, hdate, (hname (by decide) (by decide) hquotes).1,
    hreads [4, 0, 7] (by decide)⟩

end Download

end Newth.Exchange.Download
