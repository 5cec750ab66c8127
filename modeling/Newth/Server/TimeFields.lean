import Newth.Server.NamedHeader

namespace Newth.Server.TimeFields

open Newth.Client.SiteFile
open Newth.Library.ByteString
open Newth.Library.Scan
open Newth.Platform.HttpTime
open Newth.Server.HttpHeader
open Newth.Server.ModifiedSince
open Newth.Server.NamedHeader

/-- What a function leaves behind is the same whatever was there before. -/
def Determined {α β : Type} (read : α → α × Bool) (fields : α → β) : Prop :=
  ∀ before before', (read before).2 = true →
    (read before').2 = true ∧ fields (read before).1 = fields (read before').1

/-- `%3s, %d %3s` -/
def dayFormat : List Directive :=
  [.word 3, .plain (ascii ','), .blank, .int, .blank, .word 3]

/-- `%3s, %d %3s %d %d:%d:%d` -/
def secondFormat : List Directive :=
  dayFormat ++ [.blank, .int, .blank, .int, .plain (ascii ':'), .int, .plain (ascii ':'), .int]

/-- The text begins with a day of a month, both known by their first letters. -/
def Dated (str : Bytes) : Prop :=
  ∃ day mday month rest, Matches dayFormat str [.word day, .int mday, .word month] rest ∧
    (wdayFrom day).isSome ∧ (monFrom month).isSome

/-- The text begins with a time, down to its seconds. -/
def Timed (str : Bytes) : Prop := ∃ values rest, Matches secondFormat str values rest

/-- The text that `httpHeaderReadIfModifiedSince` has read as a date. -/
def dateIn (request : Bytes) : Option Bytes :=
  match strstr request ifModifiedSince with
  | none => none
  | some header =>
      let (data, length) := httpHeaderDataClamp (request.drop (header + ifModifiedSince.length))
      if length ≠ 0 ∧ length < 39 ∧ validHttpDateStr data then some (data.take length) else none

theorem readIfModifiedSince_dateIn (request : Bytes) (tm : Tm) :
    readIfModifiedSince request tm =
      match dateIn request with
      | none => (tm, false)
      | some date => platformTimeGetFromHttpStr date tm := by
  rw [readIfModifiedSince, dateIn]
  cases strstr request ifModifiedSince with
  | none => rfl
  | some header =>
      simp only
      split
      · rfl
      · rfl

namespace Mscrtdl

structure SystemDate where
  wYear : UInt16
  wMonth : UInt16
  wDay : UInt16
  wHour : UInt16
  wMinute : UInt16
  wSecond : UInt16
  deriving DecidableEq

/-- `SYSTEMTIME` -/
structure SystemTime extends SystemDate where
  wDayOfWeek : UInt16
  wMilliseconds : UInt16
  deriving DecidableEq

/-- What `%hu`, which takes the texts of `%d`, stores of them. -/
def ushortAt (values : List Scanned) (i : Nat) (old : UInt16) : UInt16 :=
  match values[i]? with
  | some (.int value) => UInt16.ofInt value
  | _ => old

/-- `platformTimeGetFromHttpStr` of `mscrtdl.c`. Its months count from 1. -/
def platformTimeGetFromHttpStr (str : Bytes) (time : SystemTime) : SystemTime × Bool :=
  let values := scan httpFormat str
  let time := { time with
    wDay := ushortAt values 1 time.wDay
    wYear := ushortAt values 3 time.wYear
    wHour := ushortAt values 4 time.wHour
    wMinute := ushortAt values 5 time.wMinute
    wSecond := ushortAt values 6 time.wSecond }
  match wdayFrom (Scanned.wordAt values 0) with
  | none => (time, false)
  | some wday =>
      let time := { time with wDayOfWeek := UInt16.ofInt wday }
      match monFrom (Scanned.wordAt values 2) with
      | none => (time, false)
      | some mon => ({ time with wMonth := UInt16.ofInt (mon + 1), wMilliseconds := 0 }, true)

/-- `httpHeaderReadIfModifiedSince` over it. -/
def readIfModifiedSince (request : Bytes) (time : SystemTime) : SystemTime × Bool :=
  match dateIn request with
  | none => (time, false)
  | some date => platformTimeGetFromHttpStr date time

end Mscrtdl

section Values

variable {str : Bytes}

/-- The kinds of the values that a format stores. -/
def kinds (format : List Directive) : List Bool :=
  format.filterMap fun
    | .word _ => some false
    | .int => some true
    | .blank | .plain _ => none

def isInt : Scanned → Bool
  | .word _ => false
  | .int _ => true

theorem kinds_of_matches {format : List Directive} {values : List Scanned} {rest : Bytes}
    (h : Matches format str values rest) : values.map isInt = kinds format := by
  induction h with
  | done => rfl
  | blank _ _ _ ih => exact ih
  | plain _ ih => exact ih
  | word _ _ _ _ _ ih => exact congrArg (false :: ·) ih
  | int _ _ _ _ ih => exact congrArg (true :: ·) ih

/-- The numbers of the date and the time have all been read. -/
def NumbersSet (fields : DateFields) : Prop :=
  fields.mday.isSome ∧ fields.year.isSome ∧ fields.hour.isSome ∧ fields.min.isSome ∧
    fields.sec.isSome

theorem values_of_dayFormat {values : List Scanned} {rest : Bytes}
    (h : Matches dayFormat str values rest) :
    ∃ day mday month, values = [.word day, .int mday, .word month] := by
  have hkinds : values.map isInt = [false, true, false] := kinds_of_matches h
  match values, hkinds with
  | [.word day, .int mday, .word month], _ => exact ⟨day, mday, month, rfl⟩

theorem values_of_secondFormat {values : List Scanned} {rest : Bytes}
    (h : Matches secondFormat str values rest) :
    ∃ day mday month year hour min sec, values =
      [.word day, .int mday, .word month, .int year, .int hour, .int min, .int sec] := by
  have hkinds : values.map isInt = [false, true, false, true, true, true, true] :=
    kinds_of_matches h
  match values, hkinds with
  | [.word day, .int mday, .word month, .int year, .int hour, .int min, .int sec], _ =>
      exact ⟨day, mday, month, year, hour, min, sec, rfl⟩

theorem mon_isSome_iff : (dateFields str).mon.isSome ↔ Dated str := by
  constructor
  · intro h
    obtain ⟨wday, hwday, hmon⟩ : ∃ wday, wdayFrom (Scanned.wordAt (scan httpFormat str) 0) = some wday ∧
        (monFrom (Scanned.wordAt (scan httpFormat str) 2)).isSome := by
      cases hwday : wdayFrom (Scanned.wordAt (scan httpFormat str) 0) with
      | none => simp [dateFields, hwday] at h
      | some wday => exact ⟨wday, rfl, by simpa [dateFields, hwday] using h⟩
    have hthree : 2 < (scan httpFormat str).length := by
      by_contra hshort
      have hnone : (scan httpFormat str)[2]? = none := List.getElem?_eq_none (by omega)
      rw [Scanned.wordAt, hnone] at hmon
      simp [monFrom] at hmon
    obtain ⟨values, rest, hmatch⟩ := @matches_of_stored dayFormat str (httpFormat.drop 6)
      (by decide) hthree
    obtain ⟨day, mday, month, rfl⟩ := values_of_dayFormat hmatch
    have hscan : scan httpFormat str = _ := hmatch.scan (httpFormat.drop 6)
    rw [hscan] at hwday hmon
    exact ⟨day, mday, month, rest, hmatch, by rw [Option.isSome_iff_exists]; exact ⟨wday, hwday⟩, hmon⟩
  · rintro ⟨day, mday, month, rest, hmatch, hday, hmonth⟩
    have hscan : scan httpFormat str = _ := hmatch.scan (httpFormat.drop 6)
    obtain ⟨wday, hwday⟩ := Option.isSome_iff_exists.mp hday
    simp only [dateFields, hscan, Scanned.wordAt, List.cons_append, List.getElem?_cons_zero,
      List.getElem?_cons_succ, hwday, Option.bind_some]
    exact hmonth

theorem numbersSet_iff : NumbersSet (dateFields str) ↔ Timed str := by
  constructor
  · rintro ⟨-, -, -, -, hsec⟩
    have hseven : 6 < (scan httpFormat str).length := by
      by_contra hshort
      have hnone : (scan httpFormat str)[6]? = none := List.getElem?_eq_none (by omega)
      simp [dateFields, intIn, hnone] at hsec
    exact @matches_of_stored secondFormat str (httpFormat.drop 14) (by decide) hseven
  · rintro ⟨values, rest, hmatch⟩
    obtain ⟨day, mday, month, year, hour, min, sec, rfl⟩ := values_of_secondFormat hmatch
    have hscan : scan httpFormat str = _ := hmatch.scan (httpFormat.drop 14)
    simp [NumbersSet, dateFields, hscan, intIn]

end Values

section Results

variable {str request : Bytes}

theorem getD_same_iff {α : Type} {a : Option α} {d d' : α} (hdiffer : d ≠ d') :
    a.getD d = a.getD d' ↔ a.isSome := by
  cases a with
  | none => simpa using hdiffer
  | some x => simp

theorem posix_determined_iff :
    Determined (platformTimeGetFromHttpStr str) Tm.toPlatformTimeStruct ↔
      (Dated str → Timed str) := by
  rw [← mon_isSome_iff, ← numbersSet_iff]
  simp only [Determined, platformTimeGetFromHttpStr_eq, DateFields.store_eq]
  constructor
  · intro h hmon
    have hsame := (h ⟨⟨0, 0, 0, 0, 0, 0⟩, 0⟩ ⟨⟨1, 1, 1, 1, 1, 1⟩, 0⟩ hmon).2
    simp only [PlatformTimeStruct.mk.injEq, Int.sub_left_inj,
      getD_same_iff (show (0 : Int) ≠ 1 by decide)] at hsame
    obtain ⟨hyear, -, hmday, hhour, hmin, hsec⟩ := hsame
    exact ⟨hmday, hyear, hhour, hmin, hsec⟩
  · intro h before before' hmon
    refine ⟨hmon, ?_⟩
    obtain ⟨hmday, hyear, hhour, hmin, hsec⟩ := h hmon
    obtain ⟨mon, hmon⟩ := Option.isSome_iff_exists.mp hmon
    obtain ⟨mday, hmday⟩ := Option.isSome_iff_exists.mp hmday
    obtain ⟨year, hyear⟩ := Option.isSome_iff_exists.mp hyear
    obtain ⟨hour, hhour⟩ := Option.isSome_iff_exists.mp hhour
    obtain ⟨min, hmin⟩ := Option.isSome_iff_exists.mp hmin
    obtain ⟨sec, hsec⟩ := Option.isSome_iff_exists.mp hsec
    simp only [hmon, hmday, hyear, hhour, hmin, hsec, Option.getD_some]

theorem ushortAt_eq (values : List Scanned) (i : Nat) (old : UInt16) :
    Mscrtdl.ushortAt values i old = ((intIn values i).map UInt16.ofInt).getD old := by
  rw [Mscrtdl.ushortAt, intIn]
  cases values[i]? with
  | none => rfl
  | some value => cases value <;> rfl

theorem mscrtdl_store_eq (time : Mscrtdl.SystemTime) :
    let fields := dateFields str
    ((Mscrtdl.platformTimeGetFromHttpStr str time).2 = fields.mon.isSome) ∧
      ((Mscrtdl.platformTimeGetFromHttpStr str time).1.toSystemDate =
        ⟨(fields.year.map UInt16.ofInt).getD time.wYear,
          (fields.mon.map fun mon => UInt16.ofInt (mon + 1)).getD time.wMonth,
          (fields.mday.map UInt16.ofInt).getD time.wDay,
          (fields.hour.map UInt16.ofInt).getD time.wHour,
          (fields.min.map UInt16.ofInt).getD time.wMinute,
          (fields.sec.map UInt16.ofInt).getD time.wSecond⟩) := by
  simp only [Mscrtdl.platformTimeGetFromHttpStr, dateFields, ushortAt_eq]
  cases wdayFrom (Scanned.wordAt (scan httpFormat str) 0) with
  | none => exact ⟨rfl, rfl⟩
  | some wday =>
      simp only [Option.bind_some]
      cases monFrom (Scanned.wordAt (scan httpFormat str) 2) with
      | none => exact ⟨rfl, rfl⟩
      | some mon => exact ⟨rfl, rfl⟩

theorem mscrtdl_determined_iff :
    Determined (Mscrtdl.platformTimeGetFromHttpStr str) Mscrtdl.SystemTime.toSystemDate ↔
      (Dated str → Timed str) := by
  rw [← mon_isSome_iff, ← numbersSet_iff]
  simp only [Determined, (mscrtdl_store_eq _).1, (mscrtdl_store_eq _).2]
  constructor
  · intro h hmon
    have hsame := (h ⟨⟨0, 0, 0, 0, 0, 0⟩, 0, 0⟩ ⟨⟨1, 1, 1, 1, 1, 1⟩, 0, 0⟩ hmon).2
    simp only [Mscrtdl.SystemDate.mk.injEq, getD_same_iff (show (0 : UInt16) ≠ 1 by decide),
      Option.isSome_map] at hsame
    obtain ⟨hyear, -, hmday, hhour, hmin, hsec⟩ := hsame
    exact ⟨hmday, hyear, hhour, hmin, hsec⟩
  · intro h before before' hmon
    refine ⟨hmon, ?_⟩
    obtain ⟨hmday, hyear, hhour, hmin, hsec⟩ := h hmon
    obtain ⟨mon, hmon⟩ := Option.isSome_iff_exists.mp hmon
    obtain ⟨mday, hmday⟩ := Option.isSome_iff_exists.mp hmday
    obtain ⟨year, hyear⟩ := Option.isSome_iff_exists.mp hyear
    obtain ⟨hour, hhour⟩ := Option.isSome_iff_exists.mp hhour
    obtain ⟨min, hmin⟩ := Option.isSome_iff_exists.mp hmin
    obtain ⟨sec, hsec⟩ := Option.isSome_iff_exists.mp hsec
    simp only [hmon, hmday, hyear, hhour, hmin, hsec, Option.map_some, Option.getD_some]

theorem determined_dateIn_iff {α β : Type} {read : α → α × Bool} {fields : α → β}
    {understand : Bytes → α → α × Bool} {good : Bytes → Prop}
    (hread : ∀ time, read time =
      match dateIn request with
      | none => (time, false)
      | some date => understand date time)
    (hgood : ∀ date, Determined (understand date) fields ↔ good date) :
    Determined read fields ↔ ∀ date, dateIn request = some date → good date := by
  obtain rfl : read = _ := funext hread
  cases dateIn request with
  | none => simp [Determined]
  | some date =>
      simp only [Option.some.injEq, forall_eq']
      exact hgood date

/-- A date determines all it sets just when it is read down to its seconds, or not
understood; and so it is for the dates of requests, on either platform. -/
theorem date_determined_iff (str request : Bytes) :
    (Determined (platformTimeGetFromHttpStr str) Tm.toPlatformTimeStruct ↔
      (Dated str → Timed str)) ∧
    (Determined (Mscrtdl.platformTimeGetFromHttpStr str) Mscrtdl.SystemTime.toSystemDate ↔
      (Dated str → Timed str)) ∧
    (Determined (readIfModifiedSince request) Tm.toPlatformTimeStruct ↔
      ∀ date, dateIn request = some date → Dated date → Timed date) ∧
    (Determined (Mscrtdl.readIfModifiedSince request) Mscrtdl.SystemTime.toSystemDate ↔
      ∀ date, dateIn request = some date → Dated date → Timed date) :=
  ⟨posix_determined_iff, mscrtdl_determined_iff,
    determined_dateIn_iff (readIfModifiedSince_dateIn request) fun _ => posix_determined_iff,
    determined_dateIn_iff (fun _ => rfl) fun _ => mscrtdl_determined_iff⟩

/-- The seconds of a date without digits there are those of the memory before. -/
theorem date_not_determined :
    ¬ Determined (platformTimeGetFromHttpStr (text "Sun, 06 Nov 1994 08:49:xx GMT"))
      Tm.toPlatformTimeStruct ∧
    ¬ Determined (readIfModifiedSince
        (text "GET / HTTP/1.1\r\nIf-Modified-Since: Sun, 06 Nov 1994 08:49:xx GMT\r\n\r\n"))
      Tm.toPlatformTimeStruct := by
  constructor
  · intro h
    have hsame := (h ⟨⟨0, 0, 0, 0, 0, 0⟩, 0⟩ ⟨⟨0, 0, 0, 0, 0, 1⟩, 0⟩ (by decide +kernel)).2
    exact absurd hsame (by decide +kernel)
  · intro h
    have hsame := (h ⟨⟨0, 0, 0, 0, 0, 0⟩, 0⟩ ⟨⟨0, 0, 0, 0, 0, 1⟩, 0⟩ (by decide +kernel)).2
    exact absurd hsame (by decide +kernel)

end Results

end Newth.Server.TimeFields
