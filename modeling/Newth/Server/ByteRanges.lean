import Newth.Library.Scan
import Newth.Server.FileTransfer

namespace Newth.Server.ByteRanges

open Newth.Library.ByteString
open Newth.Library.Numeral
open Newth.Library.Scan
open Newth.Server.FileTransfer
open Newth.Server.Handlers
open Newth.Server.HttpHeader
open Newth.Server.Routines
open Newth.Server.Sendbufr

section Values

/-- The number decimal digits stand for; no digits at all are zero. -/
def valueOf (digits : Bytes) : Nat := digits.foldl (fun acc c => 10 * acc + digitValue c) 0

def Digits (digits : Bytes) : Prop := ∀ c ∈ digits, isDecimal c = true

theorem notMem_digits {digits : Bytes} (h : Digits digits) {c : UInt8}
    (hc : isDecimal c = false) : c ∉ digits := by
  intro hmem
  simp [h c hmem] at hc

theorem atol_digits {digits : Bytes} (h : Digits digits) (hsmall : valueOf digits < 2 ^ 63) :
    atol digits = valueOf digits :=
  atol_of_digits h rfl hsmall

/-- The value of a `Range` header with these digits before and behind the dash. -/
def rangeText (first second : Bytes) : Bytes :=
  text "bytes=" ++ first ++ ascii '-' :: second

theorem rangeValues_rangeText {first second : Bytes} (hfirst : Digits first)
    (hsecond : Digits second) (hsmall : valueOf first < 2 ^ 63)
    (hsmall' : valueOf second < 2 ^ 63) (max : Int) :
    rangeValues (rangeText first second) 0 0 max =
      some ((valueOf first : Int), if (valueOf second : Int) = 0 then max else valueOf second) := by
  have hequ : strchr (rangeText first second) (ascii '=') = some 5 := by
    have hsplit : rangeText first second =
        text "bytes" ++ ascii '=' :: (first ++ ascii '-' :: second) := by
      simp [rangeText, text]
    rw [hsplit]
    exact strchr_append (by decide) _
  have hdash : strchr (rangeText first second) (ascii '-') = some (6 + first.length) := by
    have hnot : ascii '-' ∉ text "bytes=" ++ first := by
      rw [List.mem_append, not_or]
      exact ⟨by decide, notMem_digits hfirst (by decide)⟩
    rw [rangeText, strchr_append hnot, List.length_append]
    rfl
  have hblank : (text "bytes" ++ 0 :: first).length = 6 + first.length := by
    rw [List.length_append, List.length_cons]
    have hfive : (text "bytes").length = 5 := rfl
    omega
  have hnul : ((rangeText first second).set 5 0).set (6 + first.length) 0 =
      (text "bytes" ++ 0 :: first) ++ 0 :: second := by
    have hset : (rangeText first second).set 5 0 =
        (text "bytes" ++ 0 :: first) ++ ascii '-' :: second := rfl
    rw [hset, ← hblank, List.set_append_right _ _ le_rfl, Nat.sub_self, List.set_cons_zero]
  have hvalue : cString (((text "bytes" ++ 0 :: first) ++ 0 :: second).drop (5 + 1)) = first := by
    have hdrop : ((text "bytes" ++ 0 :: first) ++ 0 :: second).drop (5 + 1) =
        first ++ 0 :: second := rfl
    rw [hdrop, cString_append (notMem_digits hfirst (by decide))]
    simp [cString]
  have hrest : ((text "bytes" ++ 0 :: first) ++ 0 :: second).drop (6 + first.length + 1) =
      second := by
    rw [← hblank, List.drop_length_add_append]
    rfl
  have hwhole : cString second = second :=
    cString_eq_self (notMem_digits hsecond (by decide))
  have hstart : (if 5 + 1 ≠ 6 + first.length then atol first else 0) = (valueOf first : Int) := by
    split
    · exact atol_digits hfirst hsmall
    · rename_i hnone
      obtain rfl : first = [] := List.eq_nil_of_length_eq_zero (by omega)
      rfl
  have hfinish : (if second ≠ [] then atol second else 0) = (valueOf second : Int) := by
    split
    · exact atol_digits hsecond hsmall'
    · rename_i hnone
      obtain rfl : second = [] := by simpa using hnone
      rfl
  simp only [rangeValues, hequ, hdash, hnul, hvalue, hrest, hwhole, hstart, hfinish]

theorem httpHeaderReadRange_line {request pre post first second : Bytes} (hfirst : Digits first)
    (hsecond : Digits second) (hsmall : valueOf first < 2 ^ 63)
    (hsmall' : valueOf second < 2 ^ 63)
    (hline : request =
      pre ++ (text "Range" ++ (text ": " ++ (rangeText first second ++ (httpEol ++ post)))))
    (honly : strstr request (text "Range") = some pre.length) (max : Int) :
    httpHeaderReadRange request 0 0 max =
      if (rangeText first second).length < 127 then
        some ((valueOf first : Int), if (valueOf second : Int) = 0 then max else valueOf second)
      else none := by
  have hdrop : request.drop (pre.length + (text "Range").length) =
      text ": " ++ (rangeText first second ++ (httpEol ++ post)) := by
    rw [hline, List.drop_length_add_append, List.drop_left]
  obtain ⟨rest, hrest⟩ : ∃ rest, rangeText first second = ascii 'b' :: rest :=
    ⟨_, rfl⟩
  have hreturn : ascii '\r' ∉ rangeText first second := by
    simp only [rangeText, List.mem_append, List.mem_cons, not_or]
    exact ⟨⟨by decide, notMem_digits hfirst (by decide)⟩, by decide,
      notMem_digits hsecond (by decide)⟩
  have hskip : (text ": " ++ (rangeText first second ++ (httpEol ++ post))).dropWhile
      (fun c => c == ascii ' ' || c == ascii ':' || c == ascii '\t') =
      rangeText first second ++ (httpEol ++ post) := by
    rw [List.dropWhile_append_of_pos (forall_mem_of_all (by decide)), hrest, List.cons_append,
      List.dropWhile_cons_of_neg (by decide)]
  have hhead : (rangeText first second ++ (httpEol ++ post)).head? = some (ascii 'b') := by
    rw [hrest, List.cons_append, List.head?_cons]
  have hend : strchr (rangeText first second ++ (httpEol ++ post)) (ascii '\r') =
      some (rangeText first second).length := strchr_append hreturn _
  have hclamp : httpHeaderDataClamp (request.drop (pre.length + (text "Range").length)) =
      (rangeText first second ++ (httpEol ++ post), (rangeText first second).length) := by
    simp only [httpHeaderDataClamp, hdrop, hskip, hhead, hend]
    rw [if_neg (by decide)]
  have hbytes : strstr (rangeText first second) (text "bytes=") = some 0 := by
    have hsplit : rangeText first second = [] ++ text "bytes=" ++ (first ++ ascii '-' :: second) :=
      by simp [rangeText]
    rw [hsplit]
    exact strstr_append (by simp)
  simp only [httpHeaderReadRange, honly, hclamp, List.take_left, hbytes]
  by_cases hshort : (rangeText first second).length < 127
  · rw [if_neg (by omega), if_neg (by simp), if_pos hshort]
    exact rangeValues_rangeText hfirst hsecond hsmall hsmall' max
  · rw [if_pos (by omega), if_neg hshort]

end Values

section Ranges

/-- A number in decimal digits. -/
structure Decimal where
  digits : Bytes
  nonempty : digits ≠ []
  decimal : Digits digits

def Decimal.value (number : Decimal) : Nat := valueOf number.digits

/-- The ranges `a-b`, `a-` and `-k`. -/
inductive ByteRange where
  | between (a b : Decimal)
  | onwards (a : Decimal)
  | suffix (k : Decimal)

namespace ByteRange

def first : ByteRange → Bytes
  | between a _ => a.digits
  | onwards a => a.digits
  | suffix _ => []

def second : ByteRange → Bytes
  | between _ b => b.digits
  | onwards _ => []
  | suffix k => k.digits

def value (range : ByteRange) : Bytes := rangeText range.first range.second

/-- The range can be served from a file of `n` bytes. Ends and counts are below 2^31, and a
start is a place in the file, whose size is an `off_t`. -/
def Satisfiable (n : Nat) : ByteRange → Prop
  | between a b => a.value ≤ b.value ∧ b.value < 2 ^ 31 ∧ a.value < n
  | onwards a => a.value < n ∧ a.value < 2 ^ 63
  | suffix k => 0 < k.value ∧ k.value < 2 ^ 31

/-- The first and the last byte HTTP means by a range of a file of `n` bytes. -/
def asked (n : Nat) : ByteRange → Nat × Nat
  | between a b => (a.value, min b.value (n - 1))
  | onwards a => (a.value, n - 1)
  | suffix k => (n - min k.value n, n - 1)

/-- When the server takes a range for what HTTP means by it. -/
def Met (n : Nat) (range : ByteRange) : Prop :=
  match range with
  | between a b =>
      if range.value.length < 127 then n ≤ b.value ∨ n = 1
      else a.value = 0 ∧ n ≤ b.value + 1
  | onwards a => range.value.length < 127 ∨ a.value = 0
  | suffix k => n ≤ k.value

end ByteRange

theorem digits_nil : Digits [] := by
  intro c hc
  simp at hc

theorem ByteRange.Satisfiable.parts {n : Nat} {range : ByteRange} (h : range.Satisfiable n) :
    (Digits range.first ∧ valueOf range.first < 2 ^ 63) ∧
      (Digits range.second ∧ valueOf range.second < 2 ^ 63) := by
  have hnone : Digits [] ∧ valueOf [] < 2 ^ 63 := ⟨digits_nil, by decide⟩
  have hbound : (2 : Nat) ^ 31 < 2 ^ 63 := by decide
  cases range with
  | between a b =>
      obtain ⟨hle, hsmall, -⟩ := h
      have hend := hsmall.trans hbound
      exact ⟨⟨a.decimal, hle.trans_lt hend⟩, b.decimal, hend⟩
  | onwards a => exact ⟨⟨a.decimal, h.2⟩, hnone⟩
  | suffix k => exact ⟨hnone, k.decimal, h.2.trans hbound⟩

/-- The handler starts a file routine for the bytes from `first` to `last`. -/
def Covers (handled : Handled) (first last : Nat) : Prop :=
  ∃ routine file, handled.added = some routine ∧ routine.type = .file file ∧
    file.file.pos = first ∧ file.endOffset = last + 1

theorem handleFile_covers {world : World} {clientSocket : Nat} {channel : Channel}
    {header webPath absolutePath content : Bytes} {type : HttpType} {st : FileStat}
    (hopen : world.fileOpen absolutePath = some content) (htype : type ≠ .httpHead)
    {start finish : Nat}
    (hserved : served (httpHeaderReadRange header 0 0 st.size) st.size = ((start : Int), (finish : Int)))
    (first last : Nat) :
    Covers (handleFile world clientSocket channel header webPath absolutePath type st) first last ↔
      start = first ∧ finish = last + 1 := by
  have hhead := fileHead_served world ⟨sendBufferNew clientSocket 0, channel⟩ header webPath st
  rw [hserved] at hhead
  obtain ⟨link, hlink⟩ : ∃ link, fileHead world ⟨sendBufferNew clientSocket 0, channel⟩ header
      webPath st = (link, ((start : Int), (finish : Int))) := ⟨_, by rw [← hhead]⟩
  simp only [handleFile, hopen, hlink, if_neg htype, Covers, fileRoutineNew, File.seekSet]
  rw [if_neg (Int.not_lt.mpr (Int.natCast_nonneg start))]
  constructor
  · rintro ⟨routine, file, hroutine, hfile, hpos, hend⟩
    obtain rfl := Option.some.inj hroutine
    obtain rfl := RoutineType.file.inj hfile
    simp only [Int.toNat_natCast] at hpos hend
    omega
  · rintro ⟨rfl, hend⟩
    exact ⟨_, _, rfl, rfl, by simp, by simp [hend]⟩

/-- The file routine covers the bytes a `Range` header means exactly when the range runs to the
end of the file: the last byte it names is taken for the first that is not sent, and a number
of last bytes for a number of first bytes. -/
theorem handleFile_covers_iff {world : World} {clientSocket : Nat} {channel : Channel}
    {header pre post webPath absolutePath content : Bytes} {type : HttpType} {st : FileStat}
    {n : Nat} {range : ByteRange} (hopen : world.fileOpen absolutePath = some content)
    (htype : type ≠ .httpHead) (hsize : st.size = n) (hn : 0 < n) (hrange : range.Satisfiable n)
    (hline : header =
      pre ++ (text "Range" ++ (text ": " ++ (range.value ++ (httpEol ++ post)))))
    (honly : strstr header (text "Range") = some pre.length) :
    Covers (handleFile world clientSocket channel header webPath absolutePath type st)
        (range.asked n).1 (range.asked n).2 ↔
      range.Met n := by
  obtain ⟨⟨hfirst, hsmall⟩, hsecond, hsmall'⟩ := hrange.parts
  have hread := httpHeaderReadRange_line hfirst hsecond hsmall hsmall' hline honly st.size
  by_cases hshort : range.value.length < 127
  · rw [← ByteRange.value, if_pos hshort, hsize] at hread
    obtain ⟨stop, hzero, hgiven, hserved⟩ : ∃ stop : Nat,
        (valueOf range.second = 0 → stop = n) ∧
        (0 < valueOf range.second → stop = min (valueOf range.second) n) ∧
        served (httpHeaderReadRange header 0 0 st.size) st.size =
          ((valueOf range.first : Int), (stop : Int)) := by
      refine ⟨if valueOf range.second = 0 then n else min (valueOf range.second) n, ?_, ?_, ?_⟩
      · intro hzero
        rw [if_pos hzero]
      · intro hgiven
        rw [if_neg (by omega)]
      · rw [hsize, hread, served]
        congr 1
        simp only [rangeEnd]
        split_ifs <;> omega
    rw [handleFile_covers hopen htype hserved]
    cases range with
    | between a b =>
        obtain ⟨hle, -, hinside⟩ := hrange
        simp only [ByteRange.second] at hzero hgiven
        simp only [ByteRange.asked, ByteRange.Met, ByteRange.first, if_pos hshort, Decimal.value,
          true_and]
        simp only [Decimal.value] at hle hinside
        omega
    | onwards a =>
        have hstop : stop = n := hzero rfl
        obtain ⟨hinside, -⟩ := hrange
        simp only [ByteRange.asked, ByteRange.Met, ByteRange.first, hshort, Decimal.value,
          true_and, true_or, iff_true]
        omega
    | suffix k =>
        have hstart : valueOf (ByteRange.suffix k).first = 0 := rfl
        have hstop : stop = min k.value n := hgiven hrange.1
        rw [hstart, hstop]
        simp only [ByteRange.asked, ByteRange.Met]
        simp only [ByteRange.Satisfiable] at hrange
        omega
  · rw [← ByteRange.value, if_neg hshort] at hread
    have hserved : served (httpHeaderReadRange header 0 0 st.size) st.size =
        (((0 : Nat) : Int), (n : Int)) := by
      rw [hread, served, hsize]
      rfl
    rw [handleFile_covers hopen htype hserved]
    cases range with
    | between a b =>
        obtain ⟨hle, -, hinside⟩ := hrange
        simp only [ByteRange.asked, ByteRange.Met, if_neg hshort]
        omega
    | onwards a =>
        obtain ⟨hinside, -⟩ := hrange
        simp only [ByteRange.asked, ByteRange.Met, hshort, false_or]
        omega
    | suffix k =>
        simp only [ByteRange.Satisfiable] at hrange
        simp only [ByteRange.asked, ByteRange.Met]
        omega

/-- A number of one digit. -/
def oneDigit (d : Fin 10) : Decimal where
  digits := [digit d]
  nonempty := by simp
  decimal := by
    intro c hc
    rw [List.mem_singleton.mp hc]
    exact isDecimal_digit d d.isLt

theorem handleFile_covers_onwards :
    Covers (handleFile tenDigits 5 ⟨[], []⟩ (text "GET /a HTTP/1.1\r\nRange: bytes=4-\r\n\r")
        (text "/a") (text "/srv/a") .httpGet ⟨10, 0, .file⟩) 4 9 ↔
      (ByteRange.onwards (oneDigit 4)).Met 10 :=
  @handleFile_covers_iff tenDigits 5 ⟨[], []⟩ (text "GET /a HTTP/1.1\r\nRange: bytes=4-\r\n\r")
    (text "GET /a HTTP/1.1\r\n") (text "\r") (text "/a") (text "/srv/a") (text "0123456789")
    .httpGet ⟨10, 0, .file⟩ 10 (.onwards (oneDigit 4)) rfl (by decide) rfl (by decide)
    (by simp only [ByteRange.Satisfiable]; decide) (by decide) (by decide)

/-- `bytes=2-5` of ten leaves the fifth out, and `bytes=-3` gives the first three. -/
theorem handleFile_covers_less :
    (¬ Covers (handleFile tenDigits 5 ⟨[], []⟩
        (text "GET /a HTTP/1.1\r\nRange: bytes=2-5\r\n\r") (text "/a") (text "/srv/a") .httpGet
        ⟨10, 0, .file⟩) 2 5) ∧
      ¬ Covers (handleFile tenDigits 5 ⟨[], []⟩
        (text "GET /a HTTP/1.1\r\nRange: bytes=-3\r\n\r") (text "/a") (text "/srv/a") .httpGet
        ⟨10, 0, .file⟩) 7 9 := by
  have hcovers : ∀ {header : Bytes} {start finish : Nat},
      served (httpHeaderReadRange header 0 0 10) 10 = ((start : Int), (finish : Int)) → ∀ first last,
        (Covers (handleFile tenDigits 5 ⟨[], []⟩ header (text "/a") (text "/srv/a") .httpGet
          ⟨10, 0, .file⟩) first last ↔ start = first ∧ finish = last + 1) := by
    intro header start finish hserved first last
    exact @handleFile_covers tenDigits 5 ⟨[], []⟩ header (text "/a") (text "/srv/a")
      (text "0123456789") .httpGet ⟨10, 0, .file⟩ rfl (by decide) start finish hserved first last
  constructor
  · rw [@hcovers _ 2 5 (by decide)]
    decide
  · rw [@hcovers _ 0 3 (by decide)]
    decide

end Ranges

end Newth.Server.ByteRanges
