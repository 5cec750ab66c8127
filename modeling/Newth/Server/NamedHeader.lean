import Newth.Client.HeaderFind
import Newth.Server.ModifiedSince

namespace Newth.Server.NamedHeader

open Newth.Client.HeaderFind
open Newth.Client.SiteFile
open Newth.Library.ByteString
open Newth.Library.Chunked
open Newth.Library.Numeral
open Newth.Library.Scan
open Newth.Platform.HttpTime
open Newth.Server.HttpHeader
open Newth.Server.ModifiedSince

section Heads

/-- A well-formed request head. -/
structure RequestHead where
  method : Bytes
  target : Bytes
  headers : List HeaderLine
  method_plain : Plain method ∧ ascii ' ' ∉ method
  target_plain : Plain target ∧ ascii ' ' ∉ target

def RequestHead.requestLine (head : RequestHead) : Bytes :=
  head.method ++ ascii ' ' :: (head.target ++ text " HTTP/1.1")

/-- The lines of a head, the blank one at its end included. -/
def RequestHead.lines (head : RequestHead) : List Bytes :=
  head.requestLine :: head.headers.map HeaderLine.line ++ [[]]

def RequestHead.bytes (head : RequestHead) : Bytes := ended head.lines

def RequestHead.named (head : RequestHead) (name : Bytes) : List HeaderLine :=
  head.headers.filter fun header => header.name = name

/-- The first line that mentions a name, and the lines behind it. -/
def fromMention (name : Bytes) (lines : List Bytes) : List Bytes :=
  lines.dropWhile fun line => (strstr line name).isNone

/-- The first line that mentions the name is the first header of that name, if any. -/
def RequestHead.Undisturbed (head : RequestHead) (name : Bytes) : Prop :=
  (fromMention name head.lines).head? = (head.named name).head?.map HeaderLine.line

instance (head : RequestHead) (name : Bytes) : Decidable (head.Undisturbed name) :=
  inferInstanceAs (Decidable (_ = _))

/-- What a line goes on with behind the first mention of a name. -/
def behindName (name line : Bytes) : Bytes :=
  line.drop ((strstr line name).getD 0 + name.length)

def valueText (rest : Bytes) : Bytes :=
  rest.dropWhile fun c => c == ascii ' ' || c == ascii ':' || c == ascii '\t'

theorem RequestHead.lines_plain (head : RequestHead) : ∀ line ∈ head.lines, Plain line := by
  have hversion : Plain (text " HTTP/1.1") := by decide
  intro line hline
  rw [RequestHead.lines, List.mem_append, List.mem_cons, List.mem_singleton] at hline
  rcases hline with (rfl | hline) | rfl
  · obtain ⟨⟨hzero, hreturn, hfeed⟩, -⟩ := head.method_plain
    obtain ⟨⟨hzero', hreturn', hfeed'⟩, -⟩ := head.target_plain
    simp only [Plain, requestLine, List.mem_append, List.mem_cons, not_or]
    exact ⟨⟨hzero, by decide, hzero', hversion.1⟩, ⟨hreturn, by decide, hreturn', hversion.2.1⟩,
      hfeed, by decide, hfeed', hversion.2.2⟩
  · obtain ⟨header, -, rfl⟩ := List.mem_map.mp hline
    exact header.line_plain
  · exact ⟨List.not_mem_nil, List.not_mem_nil, List.not_mem_nil⟩

end Heads

section Search

variable {name : Bytes}

theorem strstr_ended (hne : name ≠ []) (hend : ascii '\r' ∉ name ∧ ascii '\n' ∉ name)
    (line rest : Bytes) :
    strstr (line ++ crlf ++ rest) name =
      match strstr line name with
      | some o => some o
      | none => (strstr rest name).map ((line ++ crlf).length + ·) := by
  have hsplit : line ++ crlf ++ rest = line ++ ascii '\r' :: ([] ++ ascii '\n' :: rest) := by
    rw [List.append_assoc]
    rfl
  rw [hsplit, strstr_append_cons hne hend.1, strstr_append_cons hne hend.2, strstr_nil hne]
  cases strstr line name with
  | some o => rfl
  | none =>
      simp only [Option.map_map, List.length_append, List.length_nil]
      congr 1
      funext n
      simp only [Function.comp, crlf, List.length_cons, List.length_nil]
      omega

/-- What stands behind the first mention of a name in a head. -/
def mentionEnd (name : Bytes) (lines : List Bytes) : Option Bytes :=
  match fromMention name lines with
  | [] => none
  | line :: after => some (ended (behindName name line :: after))

theorem strstr_mentionEnd (hne : name ≠ []) (hend : ascii '\r' ∉ name ∧ ascii '\n' ∉ name)
    (lines : List Bytes) :
    (strstr (ended lines) name).map (fun i => (ended lines).drop (i + name.length)) =
      mentionEnd name lines := by
  induction lines with
  | nil =>
      rw [ended, List.map_nil, List.flatten_nil, strstr_nil hne]
      rfl
  | cons line lines ih =>
      rw [ended_cons, strstr_ended hne hend]
      cases hfound : strstr line name with
      | some o =>
          have hstop : fromMention name (line :: lines) = line :: lines :=
            List.dropWhile_cons_of_neg (by simp [hfound])
          have hinside : o + name.length ≤ line.length := by
            obtain ⟨pre, post, rfl, rfl⟩ := eq_append_of_strstr hfound
            simp only [List.length_append]
            omega
          rw [mentionEnd, hstop]
          simp only [Option.map_some, behindName, hfound, Option.getD_some]
          rw [ended_cons, List.append_assoc, List.drop_append_of_le_length hinside,
            List.append_assoc]
      | none =>
          have hskip : fromMention name (line :: lines) = fromMention name lines :=
            List.dropWhile_cons_of_pos (by simp [hfound])
          rw [mentionEnd, hskip, ← mentionEnd, ← ih]
          simp only [Option.map_map]
          congr 1
          funext i
          simp only [Function.comp]
          rw [Nat.add_assoc, List.drop_length_add_append]

theorem httpHeaderDataClamp_ended {rest : Bytes} (hrest : Plain rest) (lines : List Bytes) :
    httpHeaderDataClamp (ended (rest :: lines)) =
      (ended (valueText rest :: lines), (valueText rest).length) := by
  have hskip : (ended (rest :: lines)).dropWhile
      (fun c => c == ascii ' ' || c == ascii ':' || c == ascii '\t') =
      valueText rest ++ ascii '\r' :: ascii '\n' :: ended lines := by
    rw [ended_cons, List.append_assoc, List.dropWhile_append]
    by_cases hnil : valueText rest = []
    · rw [valueText] at hnil
      rw [if_pos (by rw [hnil]; rfl), valueText, hnil]
      rfl
    · rw [valueText] at hnil
      rw [if_neg (by rw [List.isEmpty_iff]; exact hnil), valueText]
      rfl
  have hended : valueText rest ++ ascii '\r' :: ascii '\n' :: ended lines =
      ended (valueText rest :: lines) := by
    rw [ended_cons, List.append_assoc]
    rfl
  have hmem : ∀ c ∈ valueText rest, c ∈ rest := fun c hc => (List.dropWhile_sublist _).mem hc
  have hreturn : ascii '\r' ∉ valueText rest := fun h => hrest.2.1 (hmem _ h)
  have hfeed : ascii '\n' ∉ valueText rest := fun h => hrest.2.2 (hmem _ h)
  have hfind := strchr_append hreturn (ascii '\n' :: ended lines)
  rw [httpHeaderDataClamp, hskip]
  cases hvalue : valueText rest with
  | nil =>
      rw [hvalue] at hended
      rw [← hended]
      rfl
  | cons c value =>
      rw [hvalue] at hfind hreturn hfeed hended
      simp only [List.mem_cons, not_or] at hreturn hfeed
      have hhead : (c :: value ++ ascii '\r' :: ascii '\n' :: ended lines).head? = some c := rfl
      have hplain : ¬ ((c :: value ++ ascii '\r' :: ascii '\n' :: ended lines).head? =
            some (ascii '\r') ∨
          (c :: value ++ ascii '\r' :: ascii '\n' :: ended lines).head? = some (ascii '\n')) := by
        simp only [hhead, Option.some.injEq, not_or]
        exact ⟨fun h => hreturn.1 h.symm, fun h => hfeed.1 h.symm⟩
      simp only [if_neg hplain, hfind]
      rw [← hended]

end Search

section Read

variable {name : Bytes}

theorem RequestHead.behindName_plain {head : RequestHead} {line : Bytes} {after : List Bytes}
    (h : fromMention name head.lines = line :: after) : Plain (behindName name line) := by
  have hmem : line ∈ head.lines := by
    apply (List.dropWhile_suffix _).mem
    rw [fromMention] at h
    rw [h]
    exact List.mem_cons_self
  obtain ⟨hzero, hreturn, hfeed⟩ := head.lines_plain line hmem
  exact ⟨fun h => hzero (List.mem_of_mem_drop h), fun h => hreturn (List.mem_of_mem_drop h),
    fun h => hfeed (List.mem_of_mem_drop h)⟩

theorem lookup_eq {α : Type} (hne : name ≠ []) (hend : ascii '\r' ∉ name ∧ ascii '\n' ∉ name)
    (head : RequestHead) (missing : α) (read : Bytes × Nat → α) :
    (match strstr head.bytes name with
      | none => missing
      | some header => read (httpHeaderDataClamp (head.bytes.drop (header + name.length)))) =
      match fromMention name head.lines with
      | [] => missing
      | line :: after =>
          let value := valueText (behindName name line)
          read (ended (value :: after), value.length) := by
  have hbehind := strstr_mentionEnd hne hend head.lines
  rw [mentionEnd] at hbehind
  cases hfirst : fromMention name head.lines with
  | nil =>
      rw [hfirst, Option.map_eq_none_iff] at hbehind
      rw [RequestHead.bytes, hbehind]
  | cons line after =>
      rw [hfirst] at hbehind
      obtain ⟨i, hi, hdrop⟩ := Option.map_eq_some_iff.mp hbehind
      rw [RequestHead.bytes, hi]
      simp only
      rw [hdrop, httpHeaderDataClamp_ended (RequestHead.behindName_plain hfirst)]

/-- The line that an undisturbed lookup reads is the first header of the name. -/
theorem RequestHead.Undisturbed.first {head : RequestHead} (h : head.Undisturbed name) :
    (∃ header, (head.named name).head? = some header ∧
      ∃ after, fromMention name head.lines = header.line :: after) ∨
    (head.named name).head? = none ∧ fromMention name head.lines = [] := by
  rw [RequestHead.Undisturbed] at h
  cases hnamed : (head.named name).head? with
  | none =>
      rw [hnamed] at h
      exact .inr ⟨rfl, List.head?_eq_none_iff.mp h⟩
  | some header =>
      rw [hnamed] at h
      obtain ⟨after, hafter⟩ := List.head?_eq_some_iff.mp h
      exact .inl ⟨header, rfl, after, hafter⟩

end Read

section Range

def range : Bytes := text "Range"

/-- The offsets that a value names before and behind its dash. -/
def offsets (value : Bytes) : Option (Option Int × Option Int) :=
  match strchr value (ascii '='), strchr value (ascii '-') with
  | some equ, some dash =>
      let value := (value.set equ 0).set dash 0
      let first := cString (value.drop (equ + 1))
      let last := cString (value.drop (dash + 1))
      some (if equ + 1 ≠ dash then some (atol first) else none,
        if last ≠ [] then some (atol last) else none)
  | _, _ => none

/-- The offsets that a value asks for. -/
def asked (value : Bytes) : Option (Option Int × Option Int) :=
  if value.length < 127 ∧ (strstr value (text "bytes=")).isSome then offsets value else none

/-- The range of a file that offsets stand for, with defaults for those left out. -/
def taken (start finish max : Int) (offsets : Option Int × Option Int) : Int × Int :=
  let finish := offsets.2.getD finish
  (offsets.1.getD start, if finish = 0 then max else finish)

/-- What is asked for on the first line that mentions `Range`. -/
def RequestHead.asked (head : RequestHead) : Option (Option Int × Option Int) :=
  match fromMention range head.lines with
  | [] => none
  | line :: _ => NamedHeader.asked (valueText (behindName range line))

theorem rangeValues_eq (value : Bytes) (start finish max : Int) :
    rangeValues value start finish max = (offsets value).map (taken start finish max) := by
  rw [rangeValues, offsets]
  cases strchr value (ascii '=') with
  | none => rfl
  | some equ =>
      cases strchr value (ascii '-') with
      | none => rfl
      | some dash =>
          simp only [Option.map_some, taken]
          congr 2
          · split <;> rfl
          · split <;> rfl

theorem httpHeaderReadRange_eq (head : RequestHead) (start finish max : Int) :
    httpHeaderReadRange head.bytes start finish max =
      head.asked.map (taken start finish max) := by
  refine (@lookup_eq range _ (by decide) (by decide) head none fun found =>
    if 128 - 1 ≤ found.2 then none
    else if (strstr (found.1.take found.2) (text "bytes=")).isNone then none
    else rangeValues (found.1.take found.2) start finish max).trans ?_
  rw [RequestHead.asked]
  cases fromMention range head.lines with
  | nil => rfl
  | cons line after =>
      have htake : (ended (valueText (behindName range line) :: after)).take
          (valueText (behindName range line)).length = valueText (behindName range line) := by
        rw [ended_cons, List.append_assoc, List.take_left]
      simp only [htake, NamedHeader.asked, rangeValues_eq]
      by_cases hlong : 128 - 1 ≤ (valueText (behindName range line)).length
      · rw [if_pos hlong, if_neg (fun h => by omega)]
        rfl
      · rw [if_neg hlong]
        cases strstr (valueText (behindName range line)) (text "bytes=") with
        | none => simp
        | some i => simp [Nat.not_le.mp hlong]

theorem RequestHead.Undisturbed.asked_none {head : RequestHead} (h : head.Undisturbed range)
    (hnone : head.named range = []) : head.asked = none := by
  rcases h.first with ⟨header, hheader, -⟩ | ⟨-, hnothing⟩
  · rw [hnone] at hheader
    cases hheader
  · rw [RequestHead.asked, hnothing]

theorem RequestHead.Undisturbed.asked_eq {head head' : RequestHead} (h : head.Undisturbed range)
    (h' : head'.Undisturbed range) (hnamed : head.named range = head'.named range) :
    head.asked = head'.asked := by
  rcases h.first with ⟨header, hheader, after, hafter⟩ | ⟨hnone, hnothing⟩
  · rcases h'.first with ⟨header', hheader', after', hafter'⟩ | ⟨hnone', -⟩
    · obtain rfl : header = header' := by
        rw [hnamed, hheader'] at hheader
        exact (Option.some.inj hheader).symm
      simp only [RequestHead.asked, hafter, hafter']
    · rw [hnamed, hnone'] at hheader
      simp at hheader
  · rcases h'.first with ⟨header', hheader', -⟩ | ⟨-, hnothing'⟩
    · rw [hnamed, hheader'] at hnone
      simp at hnone
    · simp only [RequestHead.asked, hnothing, hnothing']

end Range

section Date

/-- `httpHeaderReadIfModifiedSince` with what it leaves in `tm`, and whether it returns 0. -/
def readIfModifiedSince (request : Bytes) (tm : Tm) : Tm × Bool :=
  match strstr request ifModifiedSince with
  | none => (tm, false)
  | some header =>
      let (data, length) := httpHeaderDataClamp (request.drop (header + ifModifiedSince.length))
      if length ≠ 0 ∧ length < 39 ∧ validHttpDateStr data then
        platformTimeGetFromHttpStr (data.take length) tm
      else (tm, false)

theorem httpHeaderReadIfModifiedSince_eq (request : Bytes) (tm : Tm) :
    httpHeaderReadIfModifiedSince request tm =
      if (readIfModifiedSince request tm).2 then some (readIfModifiedSince request tm).1
      else none := by
  rw [httpHeaderReadIfModifiedSince, readIfModifiedSince]
  cases strstr request ifModifiedSince with
  | none => rfl
  | some header =>
      simp only
      split
      · cases platformTimeGetFromHttpStr _ tm with
        | mk time understood => cases understood <;> rfl
      · rfl

/-- The fields of a time that a text sets; the month only behind the name of a day. -/
structure DateFields where
  mday : Option Int
  year : Option Int
  hour : Option Int
  min : Option Int
  sec : Option Int
  wday : Option Int
  mon : Option Int
  deriving DecidableEq

def DateFields.empty : DateFields := ⟨none, none, none, none, none, none, none⟩

def intIn (values : List Scanned) (i : Nat) : Option Int :=
  match values[i]? with
  | some (.int value) => some value
  | _ => none

def dateFields (str : Bytes) : DateFields :=
  let values := scan httpFormat str
  let wday := wdayFrom (Scanned.wordAt values 0)
  { mday := intIn values 1
    year := intIn values 3
    hour := intIn values 4
    min := intIn values 5
    sec := intIn values 6
    wday := wday
    mon := wday.bind fun _ => monFrom (Scanned.wordAt values 2) }

def DateFields.store (fields : DateFields) (tm : Tm) : Tm × Bool :=
  let time := { tm with
    mday := fields.mday.getD tm.mday
    year := fields.year.getD tm.year
    hour := fields.hour.getD tm.hour
    min := fields.min.getD tm.min
    sec := fields.sec.getD tm.sec
    wday := fields.wday.getD tm.wday }
  match fields.mon with
  | none => (time, false)
  | some mon => ({ time with mon := mon, year := time.year - 1900 }, true)

theorem platformTimeGetFromHttpStr_eq (str : Bytes) (tm : Tm) :
    platformTimeGetFromHttpStr str tm = (dateFields str).store tm := by
  have hint : ∀ values i old, Scanned.intAt values i old = (intIn values i).getD old := by
    intro values i old
    rw [Scanned.intAt, intIn]
    cases values[i]? with
    | none => rfl
    | some value => cases value <;> rfl
  simp only [platformTimeGetFromHttpStr, DateFields.store, dateFields, hint]
  cases wdayFrom (Scanned.wordAt (scan httpFormat str) 0) with
  | none => rfl
  | some wday =>
      simp only [Option.bind_some]
      cases monFrom (Scanned.wordAt (scan httpFormat str) 2) with
      | none => rfl
      | some mon => rfl

theorem DateFields.store_eq (fields : DateFields) (tm : Tm) :
    fields.store tm =
      (⟨⟨fields.year.getD tm.year - (if fields.mon.isSome then 1900 else 0),
          fields.mon.getD tm.mon, fields.mday.getD tm.mday, fields.hour.getD tm.hour,
          fields.min.getD tm.min, fields.sec.getD tm.sec⟩, fields.wday.getD tm.wday⟩,
        fields.mon.isSome) := by
  rw [DateFields.store]
  cases fields.mon with
  | none => simp
  | some mon => rfl

/-- The fields set from the first line that mentions `If-Modified-Since`. -/
def RequestHead.dated (head : RequestHead) : DateFields :=
  match fromMention ifModifiedSince head.lines with
  | [] => .empty
  | line :: after =>
      let value := valueText (behindName ifModifiedSince line)
      if value.length ≠ 0 ∧ value.length < 39 ∧ validHttpDateStr (ended (value :: after)) then
        dateFields value
      else .empty

/-- Whether the value looks like a date does not hang on the lines behind it. -/
def RequestHead.OnLine (head : RequestHead) : Prop :=
  ∀ line after, fromMention ifModifiedSince head.lines = line :: after →
    let value := valueText (behindName ifModifiedSince line)
    validHttpDateStr (ended (value :: after)) = validHttpDateStr value

theorem readIfModifiedSince_eq (head : RequestHead) (tm : Tm) :
    readIfModifiedSince head.bytes tm = head.dated.store tm := by
  refine (@lookup_eq ifModifiedSince _ (by decide) (by decide) head (tm, false)
    fun (data, length) =>
      if length ≠ 0 ∧ length < 39 ∧ validHttpDateStr data then
        platformTimeGetFromHttpStr (data.take length) tm
      else (tm, false)).trans ?_
  rw [RequestHead.dated]
  cases fromMention ifModifiedSince head.lines with
  | nil => rfl
  | cons line after =>
      have htake : (ended (valueText (behindName ifModifiedSince line) :: after)).take
          (valueText (behindName ifModifiedSince line)).length =
            valueText (behindName ifModifiedSince line) := by
        rw [ended_cons, List.append_assoc, List.take_left]
      simp only [htake, platformTimeGetFromHttpStr_eq]
      split
      · rfl
      · rfl

theorem validHttpDateStr_append {date : Bytes} (h : 26 ≤ date.length) (rest : Bytes) :
    validHttpDateStr (date ++ rest) = validHttpDateStr date := by
  have hget : ∀ i < 26, (date ++ rest).getD i 0 = date.getD i 0 := by
    intro i hi
    rw [List.getD_eq_getElem?_getD, List.getD_eq_getElem?_getD,
      List.getElem?_append_left (by omega)]
  simp only [validHttpDateStr]
  rw [hget 3 (by decide), hget 4 (by decide), hget 7 (by decide), hget 11 (by decide),
    hget 16 (by decide), hget 19 (by decide), hget 22 (by decide), hget 25 (by decide)]

theorem RequestHead.onLine_of_long {head : RequestHead}
    (h : ∀ line ∈ (fromMention ifModifiedSince head.lines).head?,
      26 ≤ (valueText (behindName ifModifiedSince line)).length) : head.OnLine := by
  intro line after hfirst
  have hlong := h line (by rw [hfirst]; rfl)
  simp only
  rw [ended_cons, List.append_assoc, validHttpDateStr_append hlong]

theorem RequestHead.Undisturbed.dated_empty {head : RequestHead}
    (h : head.Undisturbed ifModifiedSince) (hnone : head.named ifModifiedSince = []) :
    head.dated = .empty := by
  rcases h.first with ⟨header, hheader, -⟩ | ⟨-, hnothing⟩
  · rw [hnone] at hheader
    cases hheader
  · rw [RequestHead.dated, hnothing]

theorem RequestHead.Undisturbed.dated_eq {head head' : RequestHead}
    (h : head.Undisturbed ifModifiedSince) (h' : head'.Undisturbed ifModifiedSince)
    (hline : head.OnLine) (hline' : head'.OnLine)
    (hnamed : head.named ifModifiedSince = head'.named ifModifiedSince) :
    head.dated = head'.dated := by
  rcases h.first with ⟨header, hheader, after, hafter⟩ | ⟨hnone, hnothing⟩
  · rcases h'.first with ⟨header', hheader', after', hafter'⟩ | ⟨hnone', -⟩
    · obtain rfl : header = header' := by
        rw [hnamed, hheader'] at hheader
        exact (Option.some.inj hheader).symm
      simp only [RequestHead.dated, hafter, hafter', hline _ _ hafter, hline' _ _ hafter']
    · rw [hnamed, hnone'] at hheader
      simp at hheader
  · rcases h'.first with ⟨header', hheader', -⟩ | ⟨-, hnothing'⟩
    · rw [hnamed, hheader'] at hnone
      simp at hnone
    · simp only [RequestHead.dated, hnothing, hnothing']

end Date

section TwoRequests

/-- Two requests with the same headers of the name are read alike when nothing else mentions
the name first in either of them, and one without such a header asks for nothing. -/
theorem named_header_decides (head head' : RequestHead) :
    (head.Undisturbed range → head'.Undisturbed range →
      (head.named range = head'.named range →
        ∀ start finish max, httpHeaderReadRange head.bytes start finish max =
          httpHeaderReadRange head'.bytes start finish max) ∧
      (head.named range = [] →
        ∀ start finish max, httpHeaderReadRange head.bytes start finish max = none)) ∧
    (head.Undisturbed ifModifiedSince ∧ head.OnLine →
      head'.Undisturbed ifModifiedSince ∧ head'.OnLine →
      (head.named ifModifiedSince = head'.named ifModifiedSince →
        ∀ tm, readIfModifiedSince head.bytes tm = readIfModifiedSince head'.bytes tm) ∧
      (head.named ifModifiedSince = [] →
        ∀ tm, readIfModifiedSince head.bytes tm = (tm, false))) := by
  constructor
  · intro h h'
    simp only [httpHeaderReadRange_eq]
    constructor
    · intro hnamed start finish max
      rw [h.asked_eq h' hnamed]
    · intro hnone start finish max
      rw [h.asked_none hnone]
      rfl
  · rintro ⟨h, hline⟩ ⟨h', hline'⟩
    simp only [readIfModifiedSince_eq]
    constructor
    · intro hnamed tm
      rw [h.dated_eq h' hline hline' hnamed]
    · intro hnone tm
      rw [h.dated_empty hnone]
      rfl

def rangeLine : HeaderLine :=
  ⟨text "Range", text " bytes=2-5", by decide, by decide +kernel, by decide, by decide +kernel⟩

def dateLine : HeaderLine :=
  ⟨text "If-Modified-Since", text " Fri, 31 Jan 2025 12:30:00 GMT", by decide, by decide +kernel,
    by decide +kernel, by decide +kernel⟩

def hostLine : HeaderLine :=
  ⟨text "Host", text " a", by decide, by decide, by decide, by decide⟩

/-- A request for a path. -/
def getRequest (target : Bytes) (headers : List HeaderLine)
    (htarget : Plain target ∧ ascii ' ' ∉ target) : RequestHead :=
  ⟨text "GET", target, headers, by decide, htarget⟩

def rootRequest : RequestHead := getRequest (text "/") [] (by decide)

def rangePathRequest : RequestHead := getRequest (text "/Range:bytes=2-5") [] (by decide +kernel)

theorem named_header_decides_paths :
    (∀ start finish max,
      httpHeaderReadRange (getRequest (text "/a") [rangeLine, dateLine] (by decide)).bytes start
          finish max =
        httpHeaderReadRange (getRequest (text "/") [hostLine, dateLine, rangeLine]
          (by decide)).bytes start finish max) ∧
    (∀ start finish max, httpHeaderReadRange rootRequest.bytes start finish max = none) ∧
    (∀ tm, readIfModifiedSince (getRequest (text "/a") [rangeLine, dateLine] (by decide)).bytes tm =
        readIfModifiedSince (getRequest (text "/") [hostLine, dateLine, rangeLine]
          (by decide)).bytes tm) ∧
    ∀ tm, readIfModifiedSince rootRequest.bytes tm = (tm, false) :=
  ⟨((named_header_decides (getRequest (text "/a") [rangeLine, dateLine] (by decide))
      (getRequest (text "/") [hostLine, dateLine, rangeLine] (by decide))).1
        (by decide +kernel) (by decide +kernel)).1 rfl,
    ((named_header_decides rootRequest rootRequest).1 (by decide +kernel) (by decide +kernel)).2
      rfl,
    ((named_header_decides (getRequest (text "/a") [rangeLine, dateLine] (by decide))
      (getRequest (text "/") [hostLine, dateLine, rangeLine] (by decide))).2
        ⟨by decide +kernel, RequestHead.onLine_of_long (by decide +kernel)⟩
        ⟨by decide +kernel, RequestHead.onLine_of_long (by decide +kernel)⟩).1 rfl,
    ((named_header_decides rootRequest rootRequest).2
      ⟨by decide +kernel, RequestHead.onLine_of_long (by decide +kernel)⟩
      ⟨by decide +kernel, RequestHead.onLine_of_long (by decide +kernel)⟩).2 rfl⟩

/-- A path asks for a range, without any header. -/
theorem httpHeaderReadRange_path :
    rootRequest.named range = rangePathRequest.named range ∧
      httpHeaderReadRange rootRequest.bytes 0 0 10 = none ∧
      httpHeaderReadRange rangePathRequest.bytes 0 0 10 = some (2, 5) :=
  ⟨rfl, by decide +kernel, by decide +kernel⟩

end TwoRequests

end Newth.Server.NamedHeader
