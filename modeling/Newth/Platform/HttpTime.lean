import Mathlib.Tactic.IntervalCases
import Newth.Client.SiteFile
import Newth.Library.Calendar
import Newth.Library.Scan

namespace Newth.Platform.HttpTime

open Newth.Client.SiteFile
open Newth.Library.ByteString
open Newth.Library.Calendar
open Newth.Library.Numeral
open Newth.Library.Scan

/-- A `struct tm`: what `platformTimeStructCompare` reads, and `tm_wday`. -/
structure Tm extends PlatformTimeStruct where
  wday : Int
  deriving DecidableEq, Repr

/-- The days from 1 January 0 to 1 January 1970. -/
def epoch : Int := 719528

/-- `gmtime`, a null pointer when the year does not fit an `int`. -/
def gmtime (clock : Int) : Option Tm :=
  let n := clock / 86400 + epoch
  let s := clock % 86400
  let date := dateOf n
  if -2 ^ 31 ≤ date.year - 1900 ∧ date.year - 1900 < 2 ^ 31 then
    some ⟨⟨date.year - 1900, date.month, date.day, s / 3600, s % 3600 / 60, s % 60⟩, weekday n⟩
  else none

def dayNames : List Bytes := ["Sun", "Mon", "Tue", "Wed", "Thu", "Fri", "Sat"].map text

def monthNames : List Bytes :=
  ["Jan", "Feb", "Mar", "Apr", "May", "Jun", "Jul", "Aug", "Sep", "Oct", "Nov", "Dec"].map text

def decimal (n : Int) : Bytes :=
  if n < 0 then text "-" ++ numeral 10 n.natAbs else numeral 10 n.toNat

/-- What `strftime` makes of `%a, %d %b %Y %H:%M:%S GMT`. -/
def httpDate (tm : Tm) : Bytes :=
  dayNames.getD tm.wday.toNat (text "?") ++ text ", " ++ twoDigits tm.mday.toNat ++ text " " ++
    monthNames.getD tm.mon.toNat (text "?") ++ text " " ++ decimal (tm.year + 1900) ++ text " " ++
    twoDigits tm.hour.toNat ++ text ":" ++ twoDigits tm.min.toNat ++ text ":" ++
    twoDigits tm.sec.toNat ++ text " GMT"

/-- `platformGetTime`; `none` when there is no such text of 29 characters at most. -/
def platformGetTime (clock : Int) : Option Bytes := do
  let tm ← gmtime clock
  let time := httpDate tm
  if time.length < 30 then some time else none

def platformGetTimeStruct (clock : Int) : Option Tm := gmtime clock

/-- `%3s, %d %3s %d %d:%d:%d GMT` -/
def httpFormat : List Directive :=
  [.word 3, .plain (ascii ','), .blank, .int, .blank, .word 3, .blank, .int, .blank, .int,
    .plain (ascii ':'), .int, .plain (ascii ':'), .int, .blank, .plain (ascii 'G'),
    .plain (ascii 'M'), .plain (ascii 'T')]

def Scanned.wordAt (values : List Scanned) (i : Nat) : Bytes :=
  match values[i]? with
  | some (.word s) => s
  | _ => []

def Scanned.intAt (values : List Scanned) (i : Nat) (old : Int) : Int :=
  match values[i]? with
  | some (.int value) => value
  | _ => old

/-- The switch over the name of the day; `day[1]` may be the terminator. -/
def wdayFrom (day : Bytes) : Option Int :=
  let second := toupper (day.getD 1 0)
  match (day.head?.map toupper) with
  | none => none
  | some c =>
      if c = ascii 'F' then some 5
      else if c = ascii 'M' then some 1
      else if c = ascii 'S' then some (if second = ascii 'A' then 6 else 0)
      else if c = ascii 'T' then some (if second = ascii 'U' then 2 else 4)
      else if c = ascii 'W' then some 3
      else none

/-- The switch over the name of the month. -/
def monFrom (month : Bytes) : Option Int :=
  let second := toupper (month.getD 1 0)
  let third := toupper (month.getD 2 0)
  match (month.head?.map toupper) with
  | none => none
  | some c =>
      if c = ascii 'A' then some (if second = ascii 'P' then 3 else 7)
      else if c = ascii 'D' then some 11
      else if c = ascii 'F' then some 1
      else if c = ascii 'J' then
        some (if second = ascii 'A' then 0 else if third = ascii 'L' then 6 else 5)
      else if c = ascii 'M' then some (if third = ascii 'R' then 2 else 4)
      else if c = ascii 'N' then some 10
      else if c = ascii 'O' then some 9
      else if c = ascii 'S' then some 8
      else none

/-- The time as it is left behind, and whether the text was understood. What
`sscanf` has stored by then stays. -/
def platformTimeGetFromHttpStr (str : Bytes) (time : Tm) : Tm × Bool :=
  let values := scan httpFormat str
  let time := { time with
    mday := Scanned.intAt values 1 time.mday
    year := Scanned.intAt values 3 time.year
    hour := Scanned.intAt values 4 time.hour
    min := Scanned.intAt values 5 time.min
    sec := Scanned.intAt values 6 time.sec }
  match wdayFrom (Scanned.wordAt values 0) with
  | none => (time, false)
  | some wday =>
      let time := { time with wday := wday }
      match monFrom (Scanned.wordAt values 2) with
      | none => (time, false)
      | some mon => ({ time with mon := mon, year := time.year - 1900 }, true)

section RoundTrip

/-- The fields of a broken-down time in their ranges, with a year of four digits. -/
structure FourDigit (tm : Tm) : Prop where
  year : 1000 ≤ tm.year + 1900 ∧ tm.year + 1900 < 10000
  mon : 0 ≤ tm.mon ∧ tm.mon < 12
  mday : 1 ≤ tm.mday ∧ tm.mday ≤ 31
  hour : 0 ≤ tm.hour ∧ tm.hour < 24
  min : 0 ≤ tm.min ∧ tm.min < 60
  sec : 0 ≤ tm.sec ∧ tm.sec < 60
  wday : 0 ≤ tm.wday ∧ tm.wday < 7

theorem dayNames_spec (n : Nat) (hn : n < 7) : (dayNames.getD n (text "?")).length = 3 ∧
    (∀ c ∈ dayNames.getD n (text "?"), ascii 'A' ≤ c) ∧
    wdayFrom (dayNames.getD n (text "?")) = some (n : Int) := by
  interval_cases n <;> exact ⟨rfl, forall_mem_of_all (by decide), by decide⟩

theorem monthNames_spec (n : Nat) (hn : n < 12) : (monthNames.getD n (text "?")).length = 3 ∧
    (∀ c ∈ monthNames.getD n (text "?"), ascii 'A' ≤ c) ∧
    monFrom (monthNames.getD n (text "?")) = some (n : Int) := by
  interval_cases n <;> exact ⟨rfl, forall_mem_of_all (by decide), by decide⟩

theorem scan_twoDigits {value : Int} (hpos : 0 ≤ value) (hvalue : value < 100)
    (format : List Directive) {rest : Bytes} (hrest : ∀ c ∈ rest.head?, isDecimal c = false) :
    scan (.int :: format) (twoDigits value.toNat ++ rest) = .int value :: scan format rest := by
  have hsmall : value.toNat < 100 := by omega
  rw [scan_int format rest (by simp [twoDigits]) (isDecimal_twoDigits hsmall) hrest,
    atol_twoDigits hsmall, Int.toNat_of_nonneg hpos, toInt_of_bounds (by omega) (by omega)]

theorem scan_year {value : Int} (hpos : 0 ≤ value) (hvalue : value < 10000)
    (format : List Directive) {rest : Bytes} (hrest : ∀ c ∈ rest.head?, isDecimal c = false) :
    scan (.int :: format) (decimal value ++ rest) = .int value :: scan format rest := by
  rw [decimal, if_neg (by omega), scan_int format rest (numeral_ne_nil _ _)
    (isDecimal_numeral _) hrest, atol_numeral (by omega), Int.toNat_of_nonneg hpos,
    toInt_of_bounds (by omega) (by omega)]

theorem scan_httpDate {tm : Tm} (h : FourDigit tm) :
    scan httpFormat (httpDate tm) =
      [.word (dayNames.getD tm.wday.toNat (text "?")), .int tm.mday,
        .word (monthNames.getD tm.mon.toNat (text "?")), .int (tm.year + 1900), .int tm.hour,
        .int tm.min, .int tm.sec] := by
  obtain ⟨hday, hdayLetters, -⟩ := dayNames_spec tm.wday.toNat (by have := h.wday; omega)
  obtain ⟨hmonth, hmonthLetters, -⟩ := monthNames_spec tm.mon.toNat (by have := h.mon; omega)
  have hletter : ∀ s : Bytes, (∀ c ∈ s, ascii 'A' ≤ c) → ∀ c ∈ s, isSpace c = false := by
    intro s hs c hc
    exact isSpace_of_letter (hs c hc)
  have hmday := h.mday
  have hyear := h.year
  have hhour := h.hour
  have hmin := h.min
  have hsec := h.sec
  have hcomma : text ", " = [ascii ',', ascii ' '] := rfl
  have hspace : text " " = [ascii ' '] := rfl
  have hcolon : text ":" = [ascii ':'] := rfl
  have hblank : isSpace (ascii ' ') = true := rfl
  have hend : ∀ c ∈ (text " GMT").head?, isDecimal c = false := by
    intro c hc
    obtain rfl : ascii ' ' = c := Option.some.inj hc
    rfl
  have hstop : ∀ c, isDecimal c = false → ∀ rest : Bytes, ∀ d ∈ (c :: rest).head?,
      isDecimal d = false := by
    intro c hc rest d hd
    obtain rfl := Option.some.inj hd
    exact hc
  have hstopBlank := hstop (ascii ' ') rfl
  have hstopColon := hstop (ascii ':') rfl
  simp only [httpDate, httpFormat, hcomma, hspace, hcolon, List.append_assoc, List.cons_append,
    List.nil_append]
  rw [scan_word _ _ hday (by decide) (hletter _ hdayLetters), scan_plain, scan_blank_int,
    scan_int_space _ hblank, scan_twoDigits (by omega) (by omega) _ (hstopBlank _),
    scan_blank_word, scan_word_space _ hblank,
    scan_word _ _ hmonth (by decide) (hletter _ hmonthLetters),
    scan_blank_int, scan_int_space _ hblank, scan_year (by omega) (by omega) _ (hstopBlank _),
    scan_blank_int, scan_int_space _ hblank,
    scan_twoDigits hhour.1 (by omega) _ (hstopColon _), scan_plain,
    scan_twoDigits hmin.1 (by omega) _ (hstopColon _), scan_plain,
    scan_twoDigits hsec.1 (by omega) _ hend]
  rfl

/-- Reading the text of a time gives the time back, whatever stood there before. -/
theorem platformTimeGetFromHttpStr_httpDate {tm : Tm} (h : FourDigit tm) (old : Tm) :
    platformTimeGetFromHttpStr (httpDate tm) old = (tm, true) := by
  obtain ⟨-, -, hwday⟩ := dayNames_spec tm.wday.toNat (by have := h.wday; omega)
  obtain ⟨-, -, hmon⟩ := monthNames_spec tm.mon.toNat (by have := h.mon; omega)
  rw [Int.toNat_of_nonneg h.wday.1] at hwday
  rw [Int.toNat_of_nonneg h.mon.1] at hmon
  simp only [platformTimeGetFromHttpStr, scan_httpDate h, Scanned.wordAt, Scanned.intAt,
    List.getElem?_cons_zero, List.getElem?_cons_succ, hwday, hmon]
  rw [Int.add_sub_cancel]

theorem decimal_length {tm : Tm} (h : FourDigit tm) : (decimal (tm.year + 1900)).length = 4 := by
  have hyear := h.year
  rw [decimal, if_neg (by omega)]
  apply Nat.le_antisymm
  · rw [length_numeral_le_iff (by decide) (by decide)]
    omega
  · by_contra hshort
    have hless := (@length_numeral_le_iff 10 (tm.year + 1900).toNat 3 (by decide)
      (by decide)).mp (by omega)
    omega

theorem httpDate_length {tm : Tm} (h : FourDigit tm) : (httpDate tm).length = 29 := by
  obtain ⟨hday, -, -⟩ := dayNames_spec tm.wday.toNat (by have := h.wday; omega)
  obtain ⟨hmonth, -, -⟩ := monthNames_spec tm.mon.toNat (by have := h.mon; omega)
  simp only [httpDate, List.length_append, hday, hmonth, decimal_length h]
  rfl

theorem httpDate_head {tm : Tm} (h : FourDigit tm) :
    ∃ c rest, httpDate tm = c :: rest ∧ c ∈ text "SMTWF" := by
  have hday : ∀ n : Nat, n < 7 →
      ∃ c rest, dayNames.getD n (text "?") = c :: rest ∧ c ∈ text "SMTWF" := by
    intro n hn
    interval_cases n <;> exact ⟨_, _, rfl, by decide⟩
  obtain ⟨c, rest, hname, hc⟩ := hday tm.wday.toNat (by have := h.wday; omega)
  simp only [httpDate, hname, List.cons_append]
  exact ⟨c, _, rfl, hc⟩

theorem mem_httpDate {tm : Tm} (h : FourDigit tm) {c : UInt8} (hc : c ∈ httpDate tm) :
    ascii 'A' ≤ c ∨ isDecimal c = true ∨ c ∈ text " ,:" := by
  obtain ⟨-, hday, -⟩ := dayNames_spec tm.wday.toNat (by have := h.wday; omega)
  obtain ⟨-, hmonth, -⟩ := monthNames_spec tm.mon.toNat (by have := h.mon; omega)
  have hyear := h.year
  have htwo : ∀ n : Int, 0 ≤ n → n < 100 → c ∈ twoDigits n.toNat → isDecimal c = true := by
    intro n hpos hn hmem
    exact isDecimal_twoDigits (by omega) c hmem
  have hnumber : c ∈ decimal (tm.year + 1900) → isDecimal c = true := by
    rw [decimal, if_neg (by omega)]
    exact fun hmem => isDecimal_numeral _ c hmem
  have hmark : ∀ mark ∈ [text ", ", text " ", text ":"], c ∈ mark → c ∈ text " ,:" := by
    intro mark hmark hmem
    have hall : ∀ mark ∈ [text ", ", text " ", text ":"], mark ⊆ text " ,:" := by decide
    exact hall mark hmark hmem
  have hend : ∀ c ∈ text " GMT", ascii 'A' ≤ c ∨ c ∈ text " ,:" :=
    forall_mem_of_all (by decide)
  simp only [httpDate, List.mem_append, or_assoc] at hc
  rcases hc with hc | hc | hc | hc | hc | hc | hc | hc | hc | hc | hc | hc | hc | hc
  · exact .inl (hday c hc)
  · exact .inr (.inr (hmark _ (by simp) hc))
  · exact .inr (.inl (htwo _ (by have := h.mday; omega) (by have := h.mday; omega) hc))
  · exact .inr (.inr (hmark _ (by simp) hc))
  · exact .inl (hmonth c hc)
  · exact .inr (.inr (hmark _ (by simp) hc))
  · exact .inr (.inl (hnumber hc))
  · exact .inr (.inr (hmark _ (by simp) hc))
  · exact .inr (.inl (htwo _ h.hour.1 (by have := h.hour; omega) hc))
  · exact .inr (.inr (hmark _ (by simp) hc))
  · exact .inr (.inl (htwo _ h.min.1 (by have := h.min; omega) hc))
  · exact .inr (.inr (hmark _ (by simp) hc))
  · exact .inr (.inl (htwo _ h.sec.1 (by have := h.sec; omega) hc))
  · rcases hend c hc with hletter | hmarks
    · exact .inl hletter
    · exact .inr (.inr hmarks)

theorem le_of_mem_httpDate {tm : Tm} (h : FourDigit tm) : ∀ c ∈ httpDate tm, ascii ' ' ≤ c := by
  intro c hc
  rcases mem_httpDate h hc with hletter | hdigit | hmark
  · exact UInt8.le_trans (by decide : ascii ' ' ≤ ascii 'A') hletter
  · simp only [isDecimal, Bool.and_eq_true, decide_eq_true_eq] at hdigit
    exact UInt8.le_trans (by decide : ascii ' ' ≤ ascii '0') hdigit.1
  · have hall : ∀ c ∈ text " ,:", ascii ' ' ≤ c := forall_mem_of_all (by decide)
    exact hall c hmark

theorem httpDate_year (tm : Tm) : ∃ front back, ∀ year, httpDate { tm with year := year } =
    front ++ ascii ' ' :: (decimal (year + 1900) ++ ascii ' ' :: back) := by
  have hblank : text " " = [ascii ' '] := rfl
  refine ⟨dayNames.getD tm.wday.toNat (text "?") ++ text ", " ++ twoDigits tm.mday.toNat ++
    text " " ++ monthNames.getD tm.mon.toNat (text "?"), twoDigits tm.hour.toNat ++ text ":" ++
    twoDigits tm.min.toNat ++ text ":" ++ twoDigits tm.sec.toNat ++ text " GMT", ?_⟩
  intro year
  simp only [httpDate, hblank, List.append_assoc, List.cons_append, List.nil_append]

theorem mem_decimal {n : Int} {c : UInt8} (hc : c ∈ decimal n) :
    c = ascii '-' ∨ isDecimal c = true := by
  rw [decimal] at hc
  split at hc
  · rcases List.mem_append.mp hc with hminus | hdigit
    · exact .inl (List.mem_singleton.mp hminus)
    · exact .inr (isDecimal_numeral _ c hdigit)
  · exact .inr (isDecimal_numeral _ c hc)

end RoundTrip

section Order

theorem gmtime_fields {clock : Int} {tm : Tm} (htm : gmtime clock = some tm) :
    FourDigit { tm with year := 0 } := by
  simp only [gmtime] at htm
  split at htm
  · obtain rfl := Option.some.inj htm
    obtain ⟨hmon, hfirst, hlast⟩ := dateOf_bounds (clock / 86400 + epoch)
    constructor
    · simp only
      omega
    · simp only
      omega
    · exact ⟨hfirst, hlast⟩
    · simp only
      omega
    · simp only
      omega
    · simp only
      omega
    · simp only [weekday]
      omega
  · simp at htm

theorem gmtime_fourDigit {clock : Int} {tm : Tm} (htm : gmtime clock = some tm)
    (hyear : 1000 ≤ tm.year + 1900 ∧ tm.year + 1900 < 10000) : FourDigit tm := by
  obtain ⟨-, hmon, hmday, hhour, hmin, hsec, hwday⟩ := gmtime_fields htm
  exact ⟨hyear, hmon, hmday, hhour, hmin, hsec, hwday⟩

/-- The time has a year of four digits. -/
def FourDigitYear (clock : Int) : Prop :=
  1000 ≤ (dateOf (clock / 86400 + epoch)).year ∧ (dateOf (clock / 86400 + epoch)).year < 10000

instance (clock : Int) : Decidable (FourDigitYear clock) := inferInstanceAs (Decidable (_ ∧ _))

theorem exists_gmtime {clock : Int} (h : FourDigitYear clock) :
    ∃ tm, gmtime clock = some tm ∧ FourDigit tm := by
  obtain ⟨hfirst, hlast⟩ := h
  obtain ⟨tm, htm, hyear⟩ : ∃ tm, gmtime clock = some tm ∧
      tm.year = (dateOf (clock / 86400 + epoch)).year - 1900 := by
    rw [gmtime]
    exact ⟨_, if_pos (by omega), rfl⟩
  exact ⟨tm, htm, gmtime_fourDigit htm (by omega)⟩

theorem clock_parts (clock : Int) :
    clock % 86400 / 3600 * 3600 + clock % 86400 % 3600 / 60 * 60 + clock % 86400 % 60 =
      clock % 86400 := by
  omega

/-- The comparison of two broken-down times is that of the times in whole seconds. -/
theorem platformTimeStructCompare_gmtime {clock clock' : Int} {tm tm' : Tm}
    (htm : gmtime clock = some tm) (htm' : gmtime clock' = some tm') :
    platformTimeStructCompare tm.toPlatformTimeStruct tm'.toPlatformTimeStruct ≤ 0 ↔
      clock' ≤ clock := by
  simp only [gmtime] at htm htm'
  split at htm
  · split at htm'
    · obtain rfl := Option.some.inj htm
      obtain rfl := Option.some.inj htm'
      have hyears : ∀ {a b : Int}, (dateOf (a / 86400 + epoch)).year <
          (dateOf (b / 86400 + epoch)).year → a < b := by
        intro a b hless
        by_contra hlater
        have hmono : (dateOf (b / 86400 + epoch)).year ≤ (dateOf (a / 86400 + epoch)).year :=
          yearOf_mono (by omega)
        omega
      simp only [platformTimeStructCompare, clock_parts]
      by_cases hearly : (dateOf (clock / 86400 + epoch)).year <
          (dateOf (clock' / 86400 + epoch)).year
      · have := hyears hearly
        rw [if_pos (by omega)]
        omega
      · by_cases hlate : (dateOf (clock' / 86400 + epoch)).year <
            (dateOf (clock / 86400 + epoch)).year
        · have := hyears hlate
          rw [if_neg (by omega), if_pos (by omega)]
          omega
        · have hyear : (dateOf (clock / 86400 + epoch)).year =
              (dateOf (clock' / 86400 + epoch)).year := by omega
          have hday := dateOf_lt_iff hyear
          have hday' := dateOf_lt_iff hyear.symm
          rw [if_neg (by omega), if_neg (by omega)]
          split_ifs <;> omega
    · simp at htm'
  · simp at htm

end Order

end Newth.Platform.HttpTime
