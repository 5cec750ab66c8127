import Newth.Client.Headers
import Newth.Server.HttpHeader

namespace Newth.Exchange.FileName

open Newth.Library.ByteString
open Newth.Library.Call
open Newth.Library.Chunked
open Newth.Platform.FindString
open Newth.Client.Headers
open Newth.Client.Search
open Newth.Server.HttpHeader

/-- Quotes come in pairs. -/
inductive DoubledQuotes : Bytes → Prop where
  | nil : DoubledQuotes []
  | char {c : UInt8} {rest : Bytes} (hc : c ≠ ascii '"') (h : DoubledQuotes rest) :
      DoubledQuotes (c :: rest)
  | pair {rest : Bytes} (h : DoubledQuotes rest) :
      DoubledQuotes (ascii '"' :: ascii '"' :: rest)

theorem untilQuote_eq_iff (f : Bytes) : untilQuote (f ++ text "\"") = f ↔ DoubledQuotes f := by
  have hquote : text "\"" = [ascii '"'] := rfl
  rw [hquote]
  induction f using untilQuote.induct with
  | case1 => exact ⟨fun _ => .nil, fun _ => rfl⟩
  | case2 =>
      constructor
      · intro h
        simp [untilQuote] at h
      · intro h
        cases h with
        | char hc _ => exact absurd rfl hc
  | case3 c hc =>
      constructor
      · intro _
        exact .char hc .nil
      · intro _
        simp [untilQuote, hc]
  | case4 rest ih =>
      simp only [List.cons_append, untilQuote, if_true, List.cons.injEq, true_and, ih]
      constructor
      · intro h
        exact .pair h
      · intro h
        cases h with
        | char hc _ => exact absurd rfl hc
        | pair h => exact h
  | case5 d rest hd =>
      constructor
      · intro h
        simp [untilQuote, hd] at h
      · intro h
        cases h with
        | char hc _ => exact absurd rfl hc
        | pair h => exact absurd rfl hd
  | case6 c d rest hc ih =>
      simp only [List.cons_append, untilQuote, if_neg hc, List.cons.injEq, true_and] at ih ⊢
      constructor
      · intro h
        exact .char hc (ih.mp h)
      · intro h
        cases h with
        | char _ h => exact ih.mpr h
        | pair h => exact absurd rfl hc

/-- What the writer puts behind the name of the header. -/
def disposition (f : Bytes) : Bytes := text "filename=\"" ++ (f ++ text "\"")

theorem fileName_append {dir f : Bytes} (hdir : (0 : UInt8) ∉ dir) (hzero : (0 : UInt8) ∉ f)
    (hslash : ascii '/' ∉ f) : fileName (dir ++ ascii '/' :: f) = f := by
  have htext : (0 : UInt8) ∉ dir ++ ascii '/' :: f := by
    simp only [List.mem_append, List.mem_cons, not_or]
    exact ⟨hdir, by decide, hzero⟩
  have hreverse : ascii '/' ∉ f.reverse := by simpa using hslash
  have hname : ((dir ++ ascii '/' :: f).reverse).takeWhile (· != ascii '/') = f.reverse := by
    have hsplit : (dir ++ ascii '/' :: f).reverse = f.reverse ++ (ascii '/' :: dir.reverse) := by
      simp
    rw [hsplit, takeWhile_ne_append hreverse, List.takeWhile_cons_of_neg (by simp),
      List.append_nil]
  rw [fileName, cString_eq_self htext, hname, List.reverse_reverse]

theorem parameterValue_disposition (f : Bytes) :
    parameterValue (disposition f) = .ok (if untilQuote (f ++ text "\"") = [] then none
      else some (untilQuote (f ++ text "\""))) := by
  have hequal : strchr (disposition f) (ascii '=') = some 8 :=
    strchr_append (by decide : ascii '=' ∉ text "filename") (ascii '"' :: (f ++ text "\""))
  have hskip : ((disposition f).drop (8 + 1)).dropWhile (· == ascii ' ') =
      ascii '"' :: (f ++ text "\"") := rfl
  simp only [parameterValue, hequal, hskip, if_true]

theorem attachment_disposition_iff (f : Bytes) :
    platformStringFindNeedleRaw (disposition f) (text "attachment") = none ↔
      ¬ text "ATTACHMENT" <:+: f.map toupper := by
  have hupper : (text "attachment").map toupper = text "ATTACHMENT" := by decide
  have hquote : ascii '"' ∉ text "ATTACHMENT" := by decide
  have hvalue : (disposition f).map toupper =
      text "FILENAME=" ++ ascii '"' :: (f.map toupper ++ ascii '"' :: []) := by
    rw [disposition, List.map_append, List.map_append]
    rfl
  have hstart : ¬ text "ATTACHMENT" <:+: text "FILENAME=" := by decide
  have hend : ¬ text "ATTACHMENT" <:+: [] := by decide
  rw [needleRaw_eq_none_iff (by decide), hupper, hvalue, infix_append_cons_iff hquote,
    infix_append_cons_iff hquote]
  simp only [hstart, hend, false_or, or_false]

theorem contentDisposition_disposition (f : Bytes) (r : ResponseHeader) :
    contentDisposition (disposition f) r =
      if text "ATTACHMENT" <:+: f.map toupper then .ok r
      else .ok { r with
        attachment := true
        fileName := if untilQuote (f ++ text "\"") = [] then r.fileName
          else some (untilQuote (f ++ text "\"")) } := by
  have hname : platformStringFindNeedleRaw (disposition f) (text "filename") = some 0 := by
    rw [needleRaw_eq_some_iff (by decide)]
    refine ⟨?_, by simp, by simp⟩
    rw [List.drop_zero, disposition, List.map_append]
    exact List.IsPrefix.trans (by decide) (List.prefix_append _ _)
  have hiff := attachment_disposition_iff f
  cases hfind : platformStringFindNeedleRaw (disposition f) (text "attachment") with
  | none =>
      rw [if_neg (hiff.mp hfind)]
      simp only [contentDisposition, hfind, hname, List.drop_zero, parameterValue_disposition]
      split <;> rfl
  | some p =>
      rw [if_pos (by_contra fun hnot => by simp [hiff.mpr hnot] at hfind)]
      simp only [contentDisposition, hfind, hname, Nat.not_lt_zero, if_false]

/-- A file name survives the header when it is not empty, does not hold the word the
reader looks for in front of it, and has its quotes in pairs. -/
theorem fileName_survives_iff {dir f pre : Bytes} (hdir : (0 : UInt8) ∉ dir)
    (hf : ∀ c ∈ f, c ≠ ascii '/' ∧ c ≠ ascii '\r' ∧ c ≠ ascii '\n' ∧ c ≠ 0)
    (hline : pre = [] ∨ pre.getLast? = some (ascii '\n'))
    (hother : ¬ text "CONTENT-DISPOSITION" <:+: pre.map toupper) (post : Bytes) :
    (∃ r, headersPopulate (pre ++ fileNameLine (dir ++ ascii '/' :: f) ++ post) noHeader = .ok r ∧
      r.fileName = some f ∧ r.attachment = true) ↔
    f ≠ [] ∧ ¬ text "ATTACHMENT" <:+: f.map toupper ∧ DoubledQuotes f := by
  have hname : fileName (dir ++ ascii '/' :: f) = f :=
    fileName_append hdir (fun h => (hf 0 h).2.2.2 rfl) (fun h => (hf _ h).1 rfl)
  have hupper : (text "Content-Disposition").map toupper = text "CONTENT-DISPOSITION" := by decide
  rw [← hupper] at hother
  have hhead : pre ++ fileNameLine (dir ++ ascii '/' :: f) ++ post =
      pre ++ (text "Content-Disposition" ++ (text ": " ++ (disposition f ++ (crlf ++ post)))) := by
    rw [fileNameLine, hname]
    simp only [disposition, List.append_assoc]
    rfl
  have hfind : ioHttpResponseHeaderFind (pre ++ fileNameLine (dir ++ ascii '/' :: f) ++ post)
      (text "Content-Disposition") = some (disposition f) := by
    rw [hhead]
    apply ioHttpResponseHeaderFind_line
    · intro rest
      exact needleRaw_line (by decide) hline (by decide) hother rest
    · decide
    · simp only [disposition, List.mem_append, not_or]
      exact ⟨by decide, fun h => (hf _ h).2.1 rfl, by decide⟩
    · simp [disposition, text, ascii]
  obtain ⟨r, hnone, hflag, hpopulate⟩ :=
    headersPopulate_eq (pre ++ fileNameLine (dir ++ ascii '/' :: f) ++ post)
  simp only [hfind] at hpopulate
  rw [hpopulate, contentDisposition_disposition]
  by_cases hword : text "ATTACHMENT" <:+: f.map toupper
  · rw [if_pos hword]
    constructor
    · rintro ⟨r', hr', -, hattachment⟩
      obtain rfl := Except.ok.inj hr'
      rw [hflag] at hattachment
      contradiction
    · rintro ⟨-, hnot, -⟩
      exact absurd hword hnot
  · rw [if_neg hword, ← untilQuote_eq_iff]
    constructor
    · rintro ⟨r', hr', hsame, -⟩
      obtain rfl := Except.ok.inj hr'
      by_cases hempty : untilQuote (f ++ text "\"") = []
      · rw [if_pos hempty, hnone] at hsame
        contradiction
      · rw [if_neg hempty] at hsame
        have hsame := Option.some.inj hsame
        rw [hsame] at hempty
        exact ⟨hempty, hword, hsame⟩
    · rintro ⟨hne, -, hsame⟩
      refine ⟨_, rfl, ?_, rfl⟩
      rw [hsame, if_neg hne]

theorem fileName_survives_sample :
    (∃ r, headersPopulate (text "HTTP/1.1 200 OK\r\n" ++
        fileNameLine (text "/pub" ++ ascii '/' :: text "a.txt") ++ crlf) noHeader = .ok r ∧
      r.fileName = some (text "a.txt") ∧ r.attachment = true) ↔
    text "a.txt" ≠ [] ∧ ¬ text "ATTACHMENT" <:+: (text "a.txt").map toupper ∧
      DoubledQuotes (text "a.txt") :=
  fileName_survives_iff (by decide) (by decide +kernel) (.inr (by decide)) (by decide +kernel) crlf

/-- A file called `attachment.txt` arrives without a name, and not as an attachment. -/
theorem fileName_not_survives :
    ¬ ∀ dir f pre post : Bytes, (0 : UInt8) ∉ dir →
      (∀ c ∈ f, c ≠ ascii '/' ∧ c ≠ ascii '\r' ∧ c ≠ ascii '\n' ∧ c ≠ 0) →
      (pre = [] ∨ pre.getLast? = some (ascii '\n')) →
      ¬ text "CONTENT-DISPOSITION" <:+: pre.map toupper →
      ∃ r, headersPopulate (pre ++ fileNameLine (dir ++ ascii '/' :: f) ++ post) noHeader = .ok r ∧
        r.fileName = some f ∧ r.attachment = true := by
  intro h
  obtain ⟨r, hread, hname, -⟩ := h (text "/pub") (text "attachment.txt")
    (text "HTTP/1.1 200 OK\r\n") crlf (by decide) (by decide +kernel) (.inr (by decide))
    (by decide +kernel)
  have hlost : headersPopulate (text "HTTP/1.1 200 OK\r\n" ++
      fileNameLine (text "/pub" ++ ascii '/' :: text "attachment.txt") ++ crlf) noHeader =
        .ok noHeader := by decide +kernel
  rw [hlost] at hread
  obtain rfl := Except.ok.inj hread
  exact absurd hname (by decide)

end Newth.Exchange.FileName
