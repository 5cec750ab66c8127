import Newth.Client.Headers
import Newth.Client.ResponseHead

namespace Newth.Client.HeaderFind

open Newth.Library.ByteString
open Newth.Library.Chunked
open Newth.Platform.FindString
open Newth.Client.Search
open Newth.Client.ResponseHead
open Newth.Client.Headers

/-- Text that stays on its line. -/
def Plain (s : Bytes) : Prop := (0 : UInt8) ∉ s ∧ ascii '\r' ∉ s ∧ ascii '\n' ∉ s

instance (s : Bytes) : Decidable (Plain s) := inferInstanceAs (Decidable (_ ∧ _ ∧ _))

/-- A header; the blanks behind the colon belong to its value. -/
structure HeaderLine where
  name : Bytes
  value : Bytes
  named : name ≠ []
  name_plain : Plain name
  name_whole : ascii ':' ∉ name
  value_plain : Plain value

def HeaderLine.line (header : HeaderLine) : Bytes := header.name ++ ascii ':' :: header.value

/-- A well-formed response head. -/
structure Head where
  status : Bytes
  headers : List HeaderLine
  status_plain : Plain status

def Head.lines (head : Head) : List Bytes := head.status :: head.headers.map HeaderLine.line

/-- The bytes of lines, each with its line end. -/
def ended (lines : List Bytes) : Bytes := (lines.map (· ++ crlf)).flatten

theorem ended_cons (line : Bytes) (lines : List Bytes) :
    ended (line :: lines) = line ++ crlf ++ ended lines := by
  rw [ended, List.map_cons, List.flatten_cons]
  rfl

theorem HeaderLine.line_plain (header : HeaderLine) : Plain header.line := by
  obtain ⟨hzero, hreturn, hfeed⟩ := header.name_plain
  obtain ⟨hzero', hreturn', hfeed'⟩ := header.value_plain
  simp only [Plain, HeaderLine.line, List.mem_append, List.mem_cons, not_or]
  exact ⟨⟨hzero, by decide, hzero'⟩, ⟨hreturn, by decide, hreturn'⟩, hfeed, by decide, hfeed'⟩

def Head.bytes (head : Head) : Bytes := ended head.lines

/-- The first header with a name, its case aside. -/
def Head.named (head : Head) (name : Bytes) : Option HeaderLine :=
  head.headers.find? fun header => header.name.map toupper = name.map toupper

def skipBlanks (s : Bytes) : Bytes := s.dropWhile (· == ascii ' ')

/-- What a lookup of a name is to come back with. -/
def Head.value (head : Head) (name : Bytes) : Option Bytes :=
  (head.named name).map fun header => skipBlanks header.value

/-- What the first colon of a line opens. -/
def behindColon (line : Bytes) : Option Bytes :=
  (strchr line (ascii ':')).map fun i => skipBlanks (line.drop (i + 1))

/-- The lines of a head from the first on that mentions a name, its case aside. -/
def fromNeedle (name : Bytes) (lines : List Bytes) : List Bytes :=
  lines.dropWhile fun line => (platformStringFindNeedleRaw line name).isNone

/-- What follows in a head from the first place on that mentions a name. -/
def behindNeedle (name : Bytes) (lines : List Bytes) : List Bytes :=
  match fromNeedle name lines with
  | [] => []
  | line :: after => line.drop ((platformStringFindNeedleRaw line name).getD 0) :: after

/-- The first line that mentions the name is the first header of that name, if any. -/
def Head.Undisturbed (head : Head) (name : Bytes) : Prop :=
  (fromNeedle name head.lines).head? = (head.named name).map HeaderLine.line

instance (head : Head) (name : Bytes) : Decidable (head.Undisturbed name) :=
  inferInstanceAs (Decidable (_ = _))

section Search

variable {name : Bytes}

theorem needleRaw_nil (name : Bytes) : platformStringFindNeedleRaw [] name = none := by
  by_cases hne : name = []
  · simp [platformStringFindNeedleRaw, hne]
  · exact needleRaw_of_short (List.length_pos_of_ne_nil hne)

theorem needleRaw_append_cons {x : UInt8} (hx : x < ascii 'A') (hname : x ∉ name) (a d : Bytes) :
    platformStringFindNeedleRaw (a ++ x :: d) name =
      match platformStringFindNeedleRaw a name with
      | some o => some o
      | none => (platformStringFindNeedleRaw d name).map (a.length + 1 + ·) := by
  by_cases hne : name = []
  · simp [platformStringFindNeedleRaw, hne]
  have hneedle : x ∉ name.map toupper := by
    intro hmem
    obtain ⟨c, hc, hsame⟩ := List.mem_map.mp hmem
    exact hname ((toupper_eq_iff hx).mp hsame ▸ hc)
  have hupper : toupper x = x := (toupper_eq_iff hx).mpr rfl
  have hne' : name.map toupper ≠ [] := by simpa using hne
  cases hfound : strstr (a.map toupper) (name.map toupper) with
  | none =>
      simp only [platformStringFindNeedleRaw, if_neg hne, List.map_append, List.map_cons, hupper,
        strstr_append_cons hne' hneedle, List.length_map, hfound]
  | some o =>
      simp only [platformStringFindNeedleRaw, if_neg hne, List.map_append, List.map_cons, hupper,
        strstr_append_cons hne' hneedle, hfound]

theorem needleRaw_ended (hend : ascii '\r' ∉ name ∧ ascii '\n' ∉ name) (line : Bytes)
    (rest : Bytes) :
    platformStringFindNeedleRaw (line ++ crlf ++ rest) name =
      match platformStringFindNeedleRaw line name with
      | some o => some o
      | none => (platformStringFindNeedleRaw rest name).map ((line ++ crlf).length + ·) := by
  have hsplit : line ++ crlf ++ rest = line ++ ascii '\r' :: ([] ++ ascii '\n' :: rest) := by
    rw [List.append_assoc]
    rfl
  rw [hsplit, needleRaw_append_cons (by decide) hend.1, needleRaw_append_cons (by decide) hend.2,
    needleRaw_nil]
  cases platformStringFindNeedleRaw line name with
  | some o => rfl
  | none =>
      simp only [Option.map_map, List.length_append, List.length_nil]
      congr 1
      funext n
      simp only [Function.comp, crlf, List.length_cons, List.length_nil]
      omega

end Search

section Colon

/-- The part of `ioHttpResponseHeaderFind` behind the place that mentions the name. -/
def opened (found : Bytes) : Option Bytes := do
  let s ← strchr found (ascii ':')
  let value := found.drop s
  let e ← strchr value (ascii '\r')
  if value[e + 1]? = some (ascii '\n') then
    some (((value.take e).drop 1).dropWhile (· == ascii ' '))
  else none

theorem ioHttpResponseHeaderFind_eq_opened (headerFile header : Bytes) :
    ioHttpResponseHeaderFind headerFile header =
      (platformStringFindNeedleRaw headerFile header).bind fun i => opened (headerFile.drop i) :=
  rfl

variable {line : Bytes}

theorem opened_colon (hline : ascii '\r' ∉ line) (rest : Bytes) {i : Nat}
    (hcolon : strchr line (ascii ':') = some i) :
    opened (line ++ crlf ++ rest) = some (skipBlanks (line.drop (i + 1))) := by
  have hsplit := eq_append_of_strchr hcolon
  have hlt : i < line.length := by
    by_contra hle
    rw [List.take_of_length_le (by omega)] at hsplit
    exact absurd (congrArg List.length hsplit) (by simp)
  have hfind : strchr (line ++ crlf ++ rest) (ascii ':') = some i := by
    have hbefore := strchr_append (notMem_take_of_strchr hcolon)
      (line.drop (i + 1) ++ (crlf ++ rest))
    rwa [← List.cons_append, ← List.append_assoc, ← hsplit, List.length_take_of_le hlt.le,
      ← List.append_assoc] at hbefore
  have hdrop : (line ++ crlf ++ rest).drop i =
      line.drop i ++ ascii '\r' :: ascii '\n' :: rest := by
    rw [List.append_assoc, List.drop_append_of_le_length hlt.le]
    rfl
  have hreturn : strchr ((line ++ crlf ++ rest).drop i) (ascii '\r') =
      some (line.drop i).length := by
    rw [hdrop]
    exact strchr_append (fun hmem => hline (List.mem_of_mem_drop hmem)) _
  have hnext : ((line ++ crlf ++ rest).drop i)[(line.drop i).length + 1]? = some (ascii '\n') := by
    rw [hdrop, List.getElem?_append_right (by omega), Nat.add_sub_cancel_left]
    rfl
  simp only [opened, hfind, hreturn, Option.bind_eq_bind, Option.bind_some, hnext, if_true]
  rw [hdrop, List.take_left, List.drop_drop]
  rfl

theorem opened_none (hcolon : ascii ':' ∉ line) (rest : Bytes) :
    opened (line ++ crlf ++ rest) = opened rest := by
  have hno : ascii ':' ∉ line ++ crlf := by
    simp only [List.mem_append, not_or]
    exact ⟨hcolon, by decide⟩
  have hfind : strchr (line ++ crlf ++ rest) (ascii ':') =
      (strchr rest (ascii ':')).map ((line ++ crlf).length + ·) := by
    have hnone := strchr_eq_none hno
    rw [strchr] at hnone ⊢
    rw [List.findIdx?_append, hnone]
    simp only [strchr, Option.none_or, Nat.add_comm]
  simp only [opened, hfind]
  cases strchr rest (ascii ':') with
  | none => rfl
  | some s =>
      simp only [Option.map_some, Option.bind_eq_bind, Option.bind_some]
      rw [← List.drop_drop, List.drop_left]

theorem opened_ended {lines : List Bytes} (hlines : ∀ line ∈ lines, ascii '\r' ∉ line) :
    opened (ended lines) = lines.findSome? behindColon := by
  induction lines with
  | nil => rfl
  | cons line lines ih =>
      simp only [List.mem_cons, forall_eq_or_imp] at hlines
      rw [ended_cons, List.findSome?_cons, behindColon]
      cases hcolon : strchr line (ascii ':') with
      | none =>
          rw [opened_none (notMem_of_strchr hcolon)]
          exact ih hlines.2
      | some i =>
          rw [opened_colon hlines.1 _ hcolon]
          rfl

end Colon

section Head

variable {name : Bytes}

theorem fromNeedle_cons (line : Bytes) (lines : List Bytes) :
    fromNeedle name (line :: lines) =
      if (platformStringFindNeedleRaw line name).isNone then fromNeedle name lines
      else line :: lines := by
  rw [fromNeedle, List.dropWhile_cons]
  rfl

theorem find_ended (hend : ascii '\r' ∉ name ∧ ascii '\n' ∉ name) {lines : List Bytes}
    (hlines : ∀ line ∈ lines, ascii '\r' ∉ line) :
    ioHttpResponseHeaderFind (ended lines) name =
      (behindNeedle name lines).findSome? behindColon := by
  rw [ioHttpResponseHeaderFind_eq_opened]
  induction lines with
  | nil =>
      rw [ended, List.map_nil, List.flatten_nil, needleRaw_nil]
      rfl
  | cons line lines ih =>
      rw [ended_cons, needleRaw_ended hend, behindNeedle, fromNeedle_cons]
      cases hfound : platformStringFindNeedleRaw line name with
      | some o =>
          have hle : o ≤ line.length := by
            by_cases hne : name = []
            · simp [platformStringFindNeedleRaw, hne] at hfound
            · exact ((needleRaw_eq_some_iff hne).mp hfound).2.1
          have hdrop : (line ++ crlf ++ ended lines).drop o = ended (line.drop o :: lines) := by
            rw [List.append_assoc, List.drop_append_of_le_length hle, ← List.append_assoc,
              ← ended_cons]
          simp only [Option.bind_some, Option.isNone_some, Bool.false_eq_true, if_false, hfound,
            Option.getD_some]
          rw [hdrop]
          apply opened_ended
          simp only [List.mem_cons, forall_eq_or_imp] at hlines ⊢
          exact ⟨fun hmem => hlines.1 (List.mem_of_mem_drop hmem), hlines.2⟩
      | none =>
          rw [Option.isNone_none, if_pos rfl, ← behindNeedle,
            ← ih fun l hl => hlines l (List.mem_cons_of_mem _ hl)]
          simp only [Option.bind_map]
          congr 1
          funext i
          simp only [Function.comp]
          rw [← List.drop_drop, List.drop_left]

theorem Head.lines_plain (head : Head) : ∀ line ∈ head.lines, Plain line := by
  intro line hline
  rcases List.mem_cons.mp hline with rfl | hline
  · exact head.status_plain
  · obtain ⟨header, -, rfl⟩ := List.mem_map.mp hline
    exact header.line_plain

theorem find_bytes (hend : ascii '\r' ∉ name ∧ ascii '\n' ∉ name) (head : Head) :
    ioHttpResponseHeaderFind head.bytes name =
      (behindNeedle name head.lines).findSome? behindColon :=
  find_ended hend fun line hline => (head.lines_plain line hline).2.1

theorem behindColon_line (header : HeaderLine) :
    behindColon header.line = some (skipBlanks header.value) := by
  rw [behindColon, HeaderLine.line, strchr_append header.name_whole, Option.map_some,
    List.drop_append, List.drop_of_length_le (Nat.le_succ _), Nat.add_sub_cancel_left]
  rfl

theorem needleRaw_named {head : Head} {header : HeaderLine} (h : head.named name = some header) :
    platformStringFindNeedleRaw header.line name = some 0 := by
  have hsame : header.name.map toupper = name.map toupper := by
    simpa using List.find?_some h
  have hne : name ≠ [] := by
    rintro rfl
    exact header.named (List.map_eq_nil_iff.mp hsame)
  rw [needleRaw_eq_some_iff hne]
  refine ⟨?_, Nat.zero_le _, fun j hj => absurd hj (Nat.not_lt_zero j)⟩
  rw [List.drop_zero, HeaderLine.line, List.map_append, hsame]
  exact List.prefix_append _ _

theorem Head.Undisturbed.find {head : Head} (h : head.Undisturbed name)
    (hend : ascii '\r' ∉ name ∧ ascii '\n' ∉ name) :
    ioHttpResponseHeaderFind head.bytes name = head.value name := by
  rw [find_bytes hend, Head.value, behindNeedle]
  rw [Head.Undisturbed] at h
  cases hnamed : head.named name with
  | none =>
      rw [hnamed] at h
      rw [List.head?_eq_none_iff.mp h]
      rfl
  | some header =>
      rw [hnamed] at h
      obtain ⟨after, hafter⟩ := List.head?_eq_some_iff.mp h
      simp only [hafter, needleRaw_named hnamed, Option.getD_some, List.drop_zero,
        List.findSome?_cons, behindColon_line, Option.map_some]

theorem behindColon_eq_none_iff {line : Bytes} : behindColon line = none ↔ ascii ':' ∉ line := by
  rw [behindColon, Option.map_eq_none_iff]
  exact ⟨notMem_of_strchr, strchr_eq_none⟩

/-- A lookup comes back with the first header of the name when the first line that
mentions the name is that header's, or none does. Without such a header it comes back
with nothing exactly when there is no colon behind the first mention. -/
theorem ioHttpResponseHeaderFind_named (head : Head) (name : Bytes)
    (hreturn : ascii '\r' ∉ name) (hfeed : ascii '\n' ∉ name) :
    (head.Undisturbed name → ioHttpResponseHeaderFind head.bytes name = head.value name) ∧
      (head.named name = none →
        (ioHttpResponseHeaderFind head.bytes name = head.value name ↔
          ∀ line ∈ behindNeedle name head.lines, ascii ':' ∉ line)) := by
  refine ⟨fun hundisturbed => hundisturbed.find ⟨hreturn, hfeed⟩, fun hnone => ?_⟩
  rw [find_bytes ⟨hreturn, hfeed⟩, Head.value, hnone, Option.map_none, List.findSome?_eq_none_iff]
  simp only [behindColon_eq_none_iff]

theorem plain_ok : Plain (text "HTTP/1.1 200 OK") := by decide +kernel

/-- A head with the one header `X-Content-Length: 5`. -/
def longerName : Head where
  status := text "HTTP/1.1 200 OK"
  headers := [⟨text "X-Content-Length", text " 5", by decide +kernel, by decide +kernel,
    by decide +kernel, by decide +kernel⟩]
  status_plain := plain_ok

theorem ioHttpResponseHeaderFind_named_longer :
    ioHttpResponseHeaderFind longerName.bytes (text "x-content-length") =
        longerName.value (text "x-content-length") ∧
      (ioHttpResponseHeaderFind longerName.bytes (text "date") = longerName.value (text "date") ↔
        ∀ line ∈ behindNeedle (text "date") longerName.lines, ascii ':' ∉ line) :=
  ⟨(ioHttpResponseHeaderFind_named longerName (text "x-content-length") (by decide)
      (by decide)).1 (by decide +kernel),
    (ioHttpResponseHeaderFind_named longerName (text "date") (by decide) (by decide)).2
      (by decide +kernel)⟩

/-- A longer name is taken for the name that it ends with. -/
theorem ioHttpResponseHeaderFind_longer :
    ioHttpResponseHeaderFind longerName.bytes (text "Content-Length") = some (text "5") ∧
      longerName.value (text "Content-Length") = none := by
  decide +kernel

end Head

end Newth.Client.HeaderFind
