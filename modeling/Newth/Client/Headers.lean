import Newth.Client.Search
import Newth.Client.SiteHttp
import Newth.Platform.HttpTime

namespace Newth.Client.Headers

open Newth.Library.ByteString
open Newth.Library.Call
open Newth.Library.Chunked
open Newth.Library.Numeral
open Newth.Platform.FindString
open Newth.Platform.HttpTime
open Newth.Client.Search
open Newth.Client.SiteHttp

/-- The whole `HttpResponseHeader`; `attachment` is `HTTP_CONTENT_ATTACHMENT`. -/
structure ResponseHeader extends HttpResponseHeader where
  modifiedDate : Option Tm
  fileName : Option Bytes
  attachment : Bool
  deriving DecidableEq, Repr

/-- A header of zeros. -/
def noHeader : ResponseHeader := ⟨⟨0, false⟩, none, none, false⟩

/-- `*variable`, a null pointer when the header is not found. -/
def ioHttpResponseHeaderFind (headerFile header : Bytes) : Option Bytes := do
  let i ← platformStringFindNeedleRaw headerFile header
  let found := headerFile.drop i
  let s ← strchr found (ascii ':')
  let value := found.drop s
  let e ← strchr value (ascii '\r')
  if value[e + 1]? = some (ascii '\n') then
    some (((value.take e).drop 1).dropWhile (· == ascii ' '))
  else none

/-- A sum in an `off_t`. -/
def toOffset (value : Int) : Int := (value + 2 ^ 63) % 2 ^ 64 - 2 ^ 63

/-- The digit loop of `HttpGetContentLength`; a number that stops growing ends it. -/
def contentLengthFrom : Bytes → Int → Nat → Nat
  | [], _, length => length
  | c :: rest, tmp, length =>
      let tmp := toOffset (tmp * 10 + digitValue c)
      if isDecimal c ∧ (length : Int) < tmp then contentLengthFrom rest tmp tmp.toNat else length

def httpGetContentLength (header : Bytes) (length : Nat) : Nat :=
  match ioHttpResponseHeaderFind header (text "content-length") with
  | none => length
  | some cd => contentLengthFrom (cd.dropWhile (!isDecimal ·)) 0 0

/-- What stands before the closing quote; doubled quotes are stepped over. -/
def untilQuote : Bytes → Bytes
  | [] => []
  | [c] => if c = ascii '"' then [] else [c]
  | c :: d :: rest =>
      if c = ascii '"' then
        if d = ascii '"' then c :: d :: untilQuote rest else []
      else c :: untilQuote (d :: rest)

/-- The value of the parameter that starts `parameter`. The character behind `=` and
its blanks is left out, quote or not. -/
def parameterValue (parameter : Bytes) : Except Stop (Option Bytes) :=
  match strchr parameter (ascii '=') with
  | none => .ok none
  | some p =>
      match (parameter.drop (p + 1)).dropWhile (· == ascii ' ') with
      -- `&p[1]` lies behind the terminator
      | [] => .error .outOfBounds
      | c :: rest =>
          let name := if c = ascii '"' then untilQuote rest else rest
          .ok (if name = [] then none else some name)

/-- The part of `HeadersPopulate` that reads a `Content-Disposition` value. -/
def contentDisposition (v : Bytes) (headerResponse : ResponseHeader) :
    Except Stop ResponseHeader := do
  let f := platformStringFindNeedleRaw v (text "filename")
  let (p, attachment) := match platformStringFindNeedleRaw v (text "attachment"), f with
    | some p, some f => if p < f then (some f, true) else (none, headerResponse.attachment)
    | some _, none => (none, true)
    | none, some f => (some f, true)
    | none, none => (none, headerResponse.attachment)
  let headerResponse := { headerResponse with attachment := attachment }
  match p with
  | none => .ok headerResponse
  | some p => do
      let name ← parameterValue (v.drop p)
      .ok (match name with
        | some name => { headerResponse with fileName := some name }
        | none => headerResponse)

def headersPopulate (header : Bytes) (headerResponse : ResponseHeader) :
    Except Stop ResponseHeader := do
  let headerResponse := match ioHttpResponseHeaderFind header (text "Transfer-Encoding") with
    | some v =>
        if (platformStringFindWord v (text "Chunked")).isSome then
          { headerResponse with chunked := true }
        else headerResponse
    | none =>
        { headerResponse with length := httpGetContentLength header headerResponse.length }
  let headerResponse := match ioHttpResponseHeaderFind header (text "Last-Modified") with
    | some v =>
        let modifiedDate := headerResponse.modifiedDate.getD ⟨⟨0, 0, 0, 0, 0, 0⟩, 0⟩
        { headerResponse with modifiedDate := some (platformTimeGetFromHttpStr v modifiedDate).1 }
    | none => headerResponse
  match ioHttpResponseHeaderFind header (text "Content-Disposition") with
  | some v => contentDisposition v headerResponse
  | none => .ok headerResponse

theorem headersPopulate_eq (header : Bytes) :
    ∃ r : ResponseHeader, r.fileName = none ∧ r.attachment = false ∧
      headersPopulate header noHeader =
        match ioHttpResponseHeaderFind header (text "Content-Disposition") with
        | some v => contentDisposition v r
        | none => .ok r := by
  refine ⟨_, ?_, ?_, rfl⟩
  · split <;> split <;> (try split) <;> rfl
  · split <;> split <;> (try split) <;> rfl

section Find

variable {pre name value : Bytes}

theorem needleRaw_line (hname : name ≠ []) (hline : pre = [] ∨ pre.getLast? = some (ascii '\n'))
    (hbreak : ascii '\n' ∉ name.map toupper)
    (hother : ¬ name.map toupper <:+: pre.map toupper) (rest : Bytes) :
    platformStringFindNeedleRaw (pre ++ (name ++ rest)) name = some pre.length := by
  rw [needleRaw_eq_some_iff hname]
  refine ⟨?_, by simp, ?_⟩
  · rw [List.drop_left, List.map_append]
    exact List.prefix_append _ _
  · intro j hj hearly
    rcases hline with rfl | hlast
    · simp at hj
    · obtain ⟨lines, rfl⟩ := List.getLast?_eq_some_iff.mp hlast
      rw [List.length_append, List.length_singleton] at hj
      have hsplit : (lines ++ [ascii '\n'] ++ (name ++ rest)).drop j =
          lines.drop j ++ ascii '\n' :: (name ++ rest) := by
        rw [List.append_assoc, List.drop_append_of_le_length (by omega)]
        rfl
      have hupper : toupper (ascii '\n') = ascii '\n' := by decide
      rw [hsplit, List.map_append, List.map_cons, hupper] at hearly
      rw [prefix_append_cons_iff hbreak, List.map_drop] at hearly
      apply hother
      rw [List.map_append]
      apply List.infix_append_of_infix_left
      exact hearly.isInfix.trans (List.drop_suffix _ _).isInfix

theorem ioHttpResponseHeaderFind_line
    (hfirst : ∀ rest, platformStringFindNeedleRaw (pre ++ (name ++ rest)) name = some pre.length)
    (hname : ascii ':' ∉ name) (hvalue : ascii '\r' ∉ value)
    (hstart : value.head? ≠ some (ascii ' ')) (post : Bytes) :
    ioHttpResponseHeaderFind (pre ++ (name ++ (text ": " ++ (value ++ (crlf ++ post))))) name =
      some value := by
  have hcolon : strchr (name ++ (text ": " ++ (value ++ (crlf ++ post)))) (ascii ':') =
      some name.length := strchr_append hname _
  have hlength : (text ": " ++ value).length = value.length + 2 := by
    rw [List.length_append, Nat.add_comm]
    rfl
  have hsplit : text ": " ++ (value ++ (crlf ++ post)) =
      text ": " ++ value ++ ascii '\r' :: ascii '\n' :: post := by
    rw [List.append_assoc]
    rfl
  have hend : strchr (text ": " ++ (value ++ (crlf ++ post))) (ascii '\r') =
      some (value.length + 2) := by
    rw [hsplit, ← hlength]
    apply strchr_append
    simp only [List.mem_append, not_or]
    exact ⟨by decide, hvalue⟩
  have hafter : (text ": " ++ (value ++ (crlf ++ post)))[value.length + 2 + 1]? =
      some (ascii '\n') := by
    rw [hsplit, ← hlength, List.getElem?_append_right (by omega), Nat.add_sub_cancel_left]
    rfl
  have hvalue' : ((text ": " ++ (value ++ (crlf ++ post))).take (value.length + 2)).drop 1 =
      ascii ' ' :: value := by
    rw [hsplit, ← hlength, List.take_left]
    rfl
  have hskip : (ascii ' ' :: value).dropWhile (· == ascii ' ') = value := by
    rw [List.dropWhile_cons_of_pos (by decide)]
    cases value with
    | nil => rfl
    | cons c value =>
        rw [List.dropWhile_cons_of_neg]
        simpa using hstart
  simp only [ioHttpResponseHeaderFind, hfirst, Option.bind_eq_bind, Option.bind_some,
    List.drop_left, hcolon, hend, hafter, if_true, hvalue', hskip]

theorem front_of_find {front rest v : Bytes}
    (hfirst : platformStringFindNeedleRaw (pre ++ (name ++ (text ": " ++ (front ++ rest)))) name =
      some pre.length)
    (hname : ascii ':' ∉ name) (hfront : ascii '\r' ∉ front)
    (hstart : ∀ c ∈ front.head?, c ≠ ascii ' ')
    (h : ioHttpResponseHeaderFind (pre ++ (name ++ (text ": " ++ (front ++ rest)))) name = some v)
    (hne : front ≠ []) : front <+: v := by
  have hcolon : strchr (name ++ (text ": " ++ (front ++ rest))) (ascii ':') = some name.length :=
    strchr_append hname _
  have hsplit : text ": " ++ (front ++ rest) = (text ": " ++ front) ++ rest := by
    rw [List.append_assoc]
  have hbefore : ascii '\r' ∉ text ": " ++ front := by
    simp only [List.mem_append, not_or]
    exact ⟨by decide, hfront⟩
  simp only [ioHttpResponseHeaderFind, hfirst, Option.bind_eq_bind, Option.bind_some,
    List.drop_left, hcolon] at h
  obtain ⟨e, hend, h⟩ := Option.bind_eq_some_iff.mp h
  split at h
  · have hlength := length_le_of_strchr hbefore (hsplit ▸ hend)
    have htake : (text ": " ++ (front ++ rest)).take e =
        ascii ':' :: ascii ' ' :: (front ++ rest.take (e - (text ": " ++ front).length)) := by
      rw [hsplit, List.take_append, List.take_of_length_le hlength, List.append_assoc]
      rfl
    obtain ⟨c, front, rfl⟩ := List.exists_cons_of_ne_nil hne
    have hskip : (ascii ' ' :: (c :: front ++ rest.take (e - (text ": " ++ c :: front).length))
        ).dropWhile (· == ascii ' ') =
        c :: front ++ rest.take (e - (text ": " ++ c :: front).length) := by
      rw [List.dropWhile_cons_of_pos (by decide), List.cons_append,
        List.dropWhile_cons_of_neg (by simpa using hstart c rfl)]
    rw [htake, List.drop_one, List.tail_cons, hskip] at h
    rw [← Option.some.inj h]
    exact List.prefix_append _ _
  · contradiction

end Find

end Newth.Client.Headers
