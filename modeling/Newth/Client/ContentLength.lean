import Newth.Client.HeaderFind

namespace Newth.Client.ContentLength

open Newth.Library.ByteString
open Newth.Library.Numeral
open Newth.Client.Headers
open Newth.Client.HeaderFind

section Model

inductive ContentLengthError where
  | headerNotFound
  | bufferOverflow
  | nonDigitCharacters
  deriving DecidableEq, Repr

/-- The digit loop of `HttpGetContentLength` with the error it ends in, if any. -/
def contentLengthLoop : Bytes → Int → Int → Option ContentLengthError × Int
  | [], _, length => (none, length)
  | c :: rest, tmp, length =>
      if isDecimal c then
        let tmp := toOffset (tmp * 10 + digitValue c)
        if length < tmp then contentLengthLoop rest tmp tmp else (some .bufferOverflow, length)
      else (some .nonDigitCharacters, length)

/-- What `HttpGetContentLength` returns, and what it leaves in `*length`. -/
def httpGetContentLengthResult (header : Bytes) (length : Int) :
    Option ContentLengthError × Int :=
  match ioHttpResponseHeaderFind header (text "content-length") with
  | none => (some .headerNotFound, length)
  | some cd => contentLengthLoop (cd.dropWhile (!isDecimal ·)) 0 0

theorem contentLengthLoop_length (s : Bytes) (tmp : Int) (length : Nat) :
    (contentLengthLoop s tmp length).2 = contentLengthFrom s tmp length := by
  induction s generalizing tmp length with
  | nil => rfl
  | cons c rest ih =>
      rw [contentLengthLoop, contentLengthFrom]
      by_cases hdecimal : isDecimal c = true
      · simp only [hdecimal, if_true, true_and]
        split
        · rename_i hgrows
          have hnonneg : 0 ≤ toOffset (tmp * 10 + digitValue c) := by omega
          rw [← ih, Int.toNat_of_nonneg hnonneg]
        · rfl
      · simp only [hdecimal, Bool.false_eq_true, if_false, false_and]

theorem httpGetContentLengthResult_length (header : Bytes) (length : Nat) :
    (httpGetContentLengthResult header length).2 = httpGetContentLength header length := by
  rw [httpGetContentLengthResult, httpGetContentLength]
  cases ioHttpResponseHeaderFind header (text "content-length") with
  | none => rfl
  | some cd => exact contentLengthLoop_length _ 0 0

end Model

section Numbers

variable {front rest d : Bytes} {c : UInt8}

def decimalValue (digits : Bytes) : Nat := digits.foldl (fun acc c => 10 * acc + digitValue c) 0

/-- The number that digits count up to in an `off_t`. -/
def number (digits : Bytes) : Int := toOffset (decimalValue digits)

/-- Every character is a digit that makes the number grow. -/
def Counts (d : Bytes) : Prop :=
  ∀ before c, before ++ [c] <+: d → isDecimal c = true ∧ number before < number (before ++ [c])

theorem decimalValue_concat (front : Bytes) (c : UInt8) :
    decimalValue (front ++ [c]) = 10 * decimalValue front + digitValue c := by
  rw [decimalValue, List.foldl_concat, decimalValue]

theorem number_concat (front : Bytes) (c : UInt8) :
    number (front ++ [c]) = toOffset (number front * 10 + digitValue c) := by
  rw [number, decimalValue_concat, number]
  simp only [toOffset]
  omega

theorem counts_nil : Counts [] := by
  intro before c hpre
  have hlength := hpre.length_le
  simp at hlength

theorem counts_concat_iff :
    Counts (front ++ [c]) ↔
      Counts front ∧ isDecimal c = true ∧ number front < number (front ++ [c]) := by
  constructor
  · intro h
    exact ⟨fun before x hpre => h before x (hpre.trans (List.prefix_append _ _)),
      h front c (List.prefix_refl _)⟩
  · rintro ⟨hfront, hlast⟩ before x hpre
    rcases List.prefix_concat_iff.mp hpre with heq | hpre
    · obtain ⟨rfl, hx⟩ := List.append_inj' heq rfl
      obtain rfl : x = c := by simpa using hx
      exact hlast
    · exact hfront before x hpre

theorem Counts.of_prefix {d' : Bytes} (h : Counts d) (hpre : d' <+: d) : Counts d' :=
  fun before c hbefore => h before c (hbefore.trans hpre)

/-- The loop stops behind the front that counts; it is the only one of its kind. -/
def Stops (d front : Bytes) : Prop :=
  ∃ c, front ++ [c] <+: d ∧ Counts front ∧ ¬ Counts (front ++ [c])

theorem Stops.unique {front' : Bytes} (h : Stops d front) (h' : Stops d front') :
    front = front' := by
  obtain ⟨c, hpre, hcounts, hstop⟩ := h
  obtain ⟨c', hpre', hcounts', hstop'⟩ := h'
  have hlength := hpre.length_le
  rcases Nat.lt_trichotomy front.length front'.length with hlt | heq | hgt
  · refine absurd (hcounts'.of_prefix ?_) hstop
    refine List.prefix_of_prefix_length_le hpre ((List.prefix_append _ _).trans hpre') ?_
    rw [List.length_append]
    exact hlt
  · have hsame := List.prefix_of_prefix_length_le ((List.prefix_append front [c]).trans hpre)
      ((List.prefix_append front' [c']).trans hpre') heq.le
    exact hsame.eq_of_length heq
  · refine absurd (hcounts.of_prefix ?_) hstop'
    refine List.prefix_of_prefix_length_le hpre' ((List.prefix_append _ _).trans hpre) ?_
    rw [List.length_append]
    exact hgt

theorem Stops.not_counts (h : Stops d front) : ¬ Counts d := by
  obtain ⟨c, hpre, -, hstop⟩ := h
  exact fun hcounts => hstop (hcounts.of_prefix hpre)

theorem contentLengthLoop_spec (hfront : Counts front) (rest : Bytes) :
    (Counts (front ++ rest) ∧
        contentLengthLoop rest (number front) (number front) = (none, number (front ++ rest))) ∨
      ∃ front' e, Stops (front ++ rest) front' ∧
        contentLengthLoop rest (number front) (number front) = (some e, number front') := by
  induction rest generalizing front with
  | nil => exact .inl ⟨by simpa using hfront, by simp [contentLengthLoop]⟩
  | cons c rest ih =>
      have hsplit : front ++ c :: rest = front ++ [c] ++ rest := by simp
      have hpre : front ++ [c] <+: front ++ c :: rest := hsplit ▸ List.prefix_append _ _
      rw [contentLengthLoop, ← number_concat]
      by_cases hdecimal : isDecimal c = true
      · by_cases hgrows : number front < number (front ++ [c])
        · rw [if_pos hdecimal, if_pos hgrows, hsplit]
          exact ih (counts_concat_iff.mpr ⟨hfront, hdecimal, hgrows⟩)
        · rw [if_pos hdecimal, if_neg hgrows]
          refine .inr ⟨front, _, ⟨c, hpre, hfront, fun h => ?_⟩, rfl⟩
          exact hgrows (counts_concat_iff.mp h).2.2
      · rw [if_neg hdecimal]
        refine .inr ⟨front, _, ⟨c, hpre, hfront, fun h => ?_⟩, rfl⟩
        exact hdecimal (counts_concat_iff.mp h).2.1

theorem decimalValue_le (front rest : Bytes) :
    decimalValue front ≤ decimalValue (front ++ rest) := by
  induction rest using List.reverseRecOn with
  | nil => simp
  | append_singleton rest c ih =>
      rw [← List.append_assoc, decimalValue_concat]
      omega

theorem digitValue_pos (hdecimal : isDecimal c = true) (hc : c ≠ ascii '0') :
    0 < digitValue c := by
  simp only [isDecimal, Bool.and_eq_true, decide_eq_true_eq] at hdecimal
  have hlow : (48 : Nat) ≤ c.toNat := hdecimal.1
  have hne : c.toNat ≠ 48 := fun h => hc (UInt8.toNat_inj.mp h)
  rw [digitValue, if_pos hdecimal.2]
  omega

theorem counts_iff_of_fits (hdigits : ∀ c ∈ d, isDecimal c = true)
    (hfits : decimalValue d < 2 ^ 63) : Counts d ↔ d.head? ≠ some (ascii '0') := by
  have hnumber : ∀ before, before <+: d → number before = decimalValue before := by
    rintro before ⟨after, rfl⟩
    have hle := decimalValue_le before after
    rw [number, toOffset]
    omega
  constructor
  · intro hcounts hzero
    obtain ⟨rest, rfl⟩ := List.head?_eq_some_iff.mp hzero
    obtain ⟨-, hgrows⟩ := hcounts [] (ascii '0') ⟨rest, rfl⟩
    exact absurd hgrows (by decide)
  · intro hfirst before c hpre
    have hdecimal : isDecimal c = true := hdigits c (hpre.subset (by simp))
    refine ⟨hdecimal, ?_⟩
    rw [hnumber _ hpre, hnumber _ ((List.prefix_append _ _).trans hpre), decimalValue_concat]
    cases before with
    | nil =>
        obtain ⟨after, rfl⟩ := hpre
        have hpos := digitValue_pos hdecimal (by simpa using hfirst)
        simp only [decimalValue, List.foldl_nil]
        omega
    | cons x before =>
        obtain ⟨after, rfl⟩ := hpre
        have hx : isDecimal x = true := hdigits x (by simp)
        have hpos := digitValue_pos hx (by simpa using hfirst)
        have hle : digitValue x ≤ decimalValue (x :: before) := by
          simpa [decimalValue] using decimalValue_le [x] before
        omega

end Numbers

section Heads

variable {w v : Bytes} {length : Int}

/-- A non-empty decimal number, behind blanks, whose value an `off_t` holds. -/
def Fits (w : Bytes) : Prop :=
  skipBlanks w ≠ [] ∧ (∀ c ∈ skipBlanks w, isDecimal c = true) ∧
    decimalValue (skipBlanks w) < 2 ^ 63

/-- What is to become of a value `w` when `*length` holds `length`. -/
structure Exact (w : Bytes) (length : Int) (result : Option ContentLengthError × Int) : Prop where
  succeeds : result.1 = none ↔ Fits w
  value : result.1 = none → result.2 = decimalValue (skipBlanks w)
  kept : result.1 ≠ none → result.2 = length

/-- The digits of a value and what follows them. -/
def fromDigit (v : Bytes) : Bytes := v.dropWhile (!isDecimal ·)

/-- The value `w` comes out right when the value `v` is read for it. -/
def ReadsRight (w : Bytes) (length : Int) (v : Bytes) : Prop :=
  (Fits w ∧ Counts (fromDigit v) ∧ number (fromDigit v) = decimalValue (skipBlanks w)) ∨
    (¬ Fits w ∧ ∃ front, Stops (fromDigit v) front ∧ number front = length)

theorem exact_loop_iff :
    Exact w length (contentLengthLoop (fromDigit v) 0 0) ↔ ReadsRight w length v := by
  have hspec := contentLengthLoop_spec counts_nil (fromDigit v)
  rw [List.nil_append, show number [] = 0 from rfl] at hspec
  rcases hspec with ⟨hcounts, hloop⟩ | ⟨front, e, hstops, hloop⟩
  · rw [hloop]
    constructor
    · intro hexact
      exact .inl ⟨hexact.succeeds.mp rfl, hcounts, hexact.value rfl⟩
    · rintro (⟨hfits, -, hvalue⟩ | ⟨-, front, hstops, -⟩)
      · exact ⟨iff_of_true rfl hfits, fun _ => hvalue, fun h => absurd rfl h⟩
      · exact absurd hcounts hstops.not_counts
  · rw [hloop]
    constructor
    · intro hexact
      refine .inr ⟨fun hfits => ?_, front, hstops, hexact.kept (by simp)⟩
      exact absurd (hexact.succeeds.mpr hfits) (by simp)
    · rintro (⟨-, hcounts, -⟩ | ⟨hfits, front', hstops', hvalue⟩)
      · exact absurd hcounts hstops.not_counts
      · obtain rfl := hstops.unique hstops'
        exact ⟨iff_of_false (by simp) hfits, fun h => by simp at h, fun _ => hvalue⟩

/-- The digits at the front of a value. -/
def leadingDigits (v : Bytes) : Bytes := (fromDigit v).takeWhile isDecimal

/-- A number that fits without a zero in front, or else a value whose digits, as far as
they are counted, come to what stands in `*length` already. -/
def Countable (w : Bytes) (length : Int) : Prop :=
  (Fits w ∧ (skipBlanks w).head? ≠ some (ascii '0')) ∨
    (¬ Fits w ∧
      ((fromDigit w).head? = some (ascii '0') ∧ length = 0 ∨
        (leadingDigits w ≠ [] ∧ (leadingDigits w).head? ≠ some (ascii '0') ∧
          leadingDigits w ≠ fromDigit w ∧ decimalValue (leadingDigits w) < 2 ^ 63 ∧
          length = decimalValue (leadingDigits w))))

theorem fromDigit_skipBlanks (w : Bytes) : fromDigit (skipBlanks w) = fromDigit w := by
  induction w with
  | nil => rfl
  | cons c w ih =>
      by_cases hc : c = ascii ' '
      · subst hc
        have hskip : skipBlanks (ascii ' ' :: w) = skipBlanks w := rfl
        have hfrom : fromDigit (ascii ' ' :: w) = fromDigit w := rfl
        rw [hskip, hfrom, ih]
      · rw [skipBlanks, List.dropWhile_cons_of_neg (by simpa using hc)]

/-- A number that fits is read right from its own line unless it begins with a zero. -/
theorem readsRight_own_iff (hfits : Fits w) :
    ReadsRight w length (skipBlanks w) ↔ (skipBlanks w).head? ≠ some (ascii '0') := by
  obtain ⟨hne, hdigits, hsmall⟩ := hfits
  have hfrom : fromDigit (skipBlanks w) = skipBlanks w := by
    obtain ⟨c, rest, hsplit⟩ := List.exists_cons_of_ne_nil hne
    rw [hsplit] at hdigits ⊢
    rw [fromDigit, List.dropWhile_cons_of_neg]
    simp [hdigits c (by simp)]
  have hnumber : number (skipBlanks w) = decimalValue (skipBlanks w) := by
    rw [number, toOffset]
    omega
  have hfits : Fits w := ⟨hne, hdigits, hsmall⟩
  simp only [ReadsRight, hfrom, hnumber, hfits, true_and, and_true, not_true, false_and, or_false]
  exact counts_iff_of_fits hdigits hsmall

theorem isDecimal_of_head_fromDigit {c : UInt8} {rest : Bytes} (h : fromDigit w = c :: rest) :
    isDecimal c = true := by
  have hhead := List.head?_dropWhile_not (!isDecimal ·) w
  rw [fromDigit] at h
  simpa [h] using hhead

theorem number_eq {d : Bytes} (hfits : decimalValue d < 2 ^ 63) : number d = decimalValue d := by
  rw [number, toOffset]
  omega

theorem leadingDigits_decimal {c : UInt8} (h : c ∈ leadingDigits w) : isDecimal c = true :=
  List.mem_takeWhile_imp h

theorem stops_zero {d : Bytes} (h : d.head? = some (ascii '0')) : Stops d [] := by
  obtain ⟨rest, rfl⟩ := List.head?_eq_some_iff.mp h
  refine ⟨ascii '0', ⟨rest, rfl⟩, counts_nil, fun hcounts => ?_⟩
  exact absurd (counts_concat_iff.mp hcounts).2.2 (by decide)

theorem stops_leadingDigits (hfirst : (leadingDigits w).head? ≠ some (ascii '0'))
    (hrest : leadingDigits w ≠ fromDigit w) (hfits : decimalValue (leadingDigits w) < 2 ^ 63) :
    Stops (fromDigit w) (leadingDigits w) := by
  have hsplit : leadingDigits w ++ (fromDigit w).dropWhile isDecimal = fromDigit w :=
    List.takeWhile_append_dropWhile
  cases hbehind : (fromDigit w).dropWhile isDecimal with
  | nil =>
      rw [hbehind, List.append_nil] at hsplit
      exact absurd hsplit hrest
  | cons c rest =>
      have hc : isDecimal c = false := by
        have hhead := List.head?_dropWhile_not isDecimal (fromDigit w)
        simpa [hbehind] using hhead
      rw [hbehind] at hsplit
      refine ⟨c, ⟨rest, ?_⟩, ?_, fun hcounts => ?_⟩
      · rw [List.append_assoc]
        exact hsplit
      · exact (counts_iff_of_fits (fun c => leadingDigits_decimal) hfits).mpr hfirst
      · rw [(counts_concat_iff.mp hcounts).2.1] at hc
        contradiction

theorem Counts.decimal {d : Bytes} (h : Counts d) : ∀ c ∈ d, isDecimal c = true := by
  intro c hc
  obtain ⟨before, after, rfl⟩ := List.append_of_mem hc
  exact (h before c ⟨after, by simp⟩).1

theorem Counts.pos {d : Bytes} (h : Counts d) (hne : d ≠ []) : 0 < number d := by
  induction d using List.reverseRecOn with
  | nil => exact absurd rfl hne
  | append_singleton front c ih =>
      obtain ⟨hfront, -, hgrows⟩ := counts_concat_iff.mp h
      by_cases hnil : front = []
      · subst hnil
        exact hgrows
      · exact (ih hfront hnil).trans hgrows

theorem zero_of_stops_nil (h : Stops (fromDigit w) []) :
    (fromDigit w).head? = some (ascii '0') := by
  obtain ⟨c, ⟨rest, hsplit⟩, -, hstop⟩ := h
  have hc := isDecimal_of_head_fromDigit hsplit.symm
  by_contra hzero
  have hne : c ≠ ascii '0' := by
    rintro rfl
    exact hzero (by rw [← hsplit]; rfl)
  have hpos := digitValue_pos hc hne
  have hlow : digitValue c < 2 ^ 63 := by
    have hbyte := c.toNat_lt
    rw [digitValue]
    split <;> omega
  apply hstop
  rw [counts_iff_of_fits (by simpa using hc)]
  · simpa using hne
  · simp only [List.nil_append, decimalValue, List.foldl_cons, List.foldl_nil]
    omega

theorem cases_of_stops {front : Bytes} (h : Stops (fromDigit w) front)
    (hfits : decimalValue (leadingDigits w) < 2 ^ 63) :
    front = [] ∧ (fromDigit w).head? = some (ascii '0') ∨
      front = leadingDigits w ∧ front ≠ [] ∧ front ≠ fromDigit w := by
  obtain ⟨c, hpre, hcounts, hstop⟩ := h
  obtain ⟨rest, hsplit⟩ := hpre
  rw [List.append_assoc] at hsplit
  by_cases hnil : front = []
  · subst hnil
    exact .inl ⟨rfl, zero_of_stops_nil ⟨c, ⟨rest, by simpa using hsplit⟩, hcounts, hstop⟩⟩
  · have htake : leadingDigits w = front ++ ([c] ++ rest).takeWhile isDecimal := by
      rw [leadingDigits, ← hsplit, List.takeWhile_append_of_pos hcounts.decimal]
    have hfirst : front.head? ≠ some (ascii '0') := by
      intro hzero
      obtain ⟨front', rfl⟩ := List.head?_eq_some_iff.mp hzero
      exact absurd (hcounts [] (ascii '0') ⟨front', rfl⟩).2 (by decide)
    right
    by_cases hc : isDecimal c = true
    · -- one more digit that fits would have counted
      exfalso
      apply hstop
      rw [List.singleton_append, List.takeWhile_cons_of_pos hc] at htake
      have hmore : leadingDigits w = (front ++ [c]) ++ rest.takeWhile isDecimal := by
        rw [htake, List.append_assoc, List.singleton_append]
      rw [counts_iff_of_fits]
      · rwa [List.head?_append_of_ne_nil _ hnil]
      · intro x hx
        exact leadingDigits_decimal (by rw [hmore]; exact List.mem_append_left _ hx)
      · refine lt_of_le_of_lt ?_ hfits
        rw [hmore]
        exact decimalValue_le _ _
    · rw [List.singleton_append, List.takeWhile_cons_of_neg hc, List.append_nil] at htake
      refine ⟨htake.symm, hnil, fun hall => ?_⟩
      have hlength := congrArg List.length hsplit
      rw [← hall] at hlength
      simp at hlength

theorem readsRight_of_countable (h : Countable w length) :
    ReadsRight w length (skipBlanks w) := by
  rcases h with ⟨hfits, hfirst⟩ | ⟨hnot, ⟨hzero, hlength⟩ | ⟨-, hfirst, hrest, hsmall, hlength⟩⟩
  · exact (readsRight_own_iff hfits).mpr hfirst
  · rw [ReadsRight, fromDigit_skipBlanks]
    exact .inr ⟨hnot, [], stops_zero hzero, hlength.symm⟩
  · rw [ReadsRight, fromDigit_skipBlanks]
    refine .inr ⟨hnot, leadingDigits w, stops_leadingDigits hfirst hrest hsmall, ?_⟩
    rw [number_eq hsmall, hlength]

theorem countable_of_readsRight (hbound : length = 0 ∨ decimalValue (leadingDigits w) < 2 ^ 63)
    (h : ReadsRight w length (skipBlanks w)) : Countable w length := by
  by_cases hfits : Fits w
  · exact .inl ⟨hfits, (readsRight_own_iff hfits).mp h⟩
  · rw [ReadsRight, fromDigit_skipBlanks] at h
    rcases h with ⟨hfits', -⟩ | ⟨-, front, hstops, hnumber⟩
    · exact absurd hfits' hfits
    · rcases hbound with hlength | hsmall
      · have hnil : front = [] := by
          by_contra hne
          have hpos := Counts.pos (by obtain ⟨c, -, hcounts, -⟩ := hstops; exact hcounts) hne
          omega
        subst hnil
        exact .inr ⟨hfits, .inl ⟨zero_of_stops_nil hstops, hlength⟩⟩
      · rcases cases_of_stops hstops hsmall with ⟨rfl, hzero⟩ | ⟨rfl, hne, hrest⟩
        · exact .inr ⟨hfits, .inl ⟨hzero, hnumber.symm⟩⟩
        · obtain ⟨c, -, hcounts, -⟩ := hstops
          rw [number_eq hsmall] at hnumber
          exact .inr ⟨hfits, .inr ⟨hne,
            (counts_iff_of_fits (fun c => leadingDigits_decimal) hsmall).mp hcounts, hrest, hsmall,
            hnumber.symm⟩⟩

/-- On a head whose own line is the first to mention the name the content length is read
exactly, or rejected without a trace, when the loop can count it; and only then when it
starts from 0 or the digits in front fit. -/
theorem httpGetContentLength_exact (head : Head) (header : HeaderLine) (length : Int)
    (hone : (head.headers.filter fun h =>
      h.name.map toupper = (text "content-length").map toupper) = [header])
    (hfirst : head.Undisturbed (text "content-length")) :
    (Countable header.value length →
        Exact header.value length (httpGetContentLengthResult head.bytes length)) ∧
      (length = 0 ∨ decimalValue (leadingDigits header.value) < 2 ^ 63 →
        Exact header.value length (httpGetContentLengthResult head.bytes length) →
          Countable header.value length) := by
  have hnamed : head.named (text "content-length") = some header := by
    rw [Head.named, ← List.head?_filter, hone]
    rfl
  have hresult : httpGetContentLengthResult head.bytes length =
      contentLengthLoop (fromDigit (skipBlanks header.value)) 0 0 := by
    rw [httpGetContentLengthResult, hfirst.find ⟨by decide, by decide⟩, Head.value, hnamed]
    rfl
  rw [hresult, exact_loop_iff]
  exact ⟨readsRight_of_countable, countable_of_readsRight⟩

/-- A head whose one header is a content length. -/
def lengthHead (value : Bytes) (hvalue : Plain value) : Head where
  status := text "HTTP/1.1 200 OK"
  headers := [⟨text "Content-Length", value, by decide +kernel, by decide +kernel,
    by decide +kernel, hvalue⟩]
  status_plain := plain_ok

theorem httpGetContentLength_exact_42 :
    Exact (text " 42") 7
        (httpGetContentLengthResult (lengthHead (text " 42") (by decide)).bytes 7) ∧
      Countable (text " 4x") 4 :=
  ⟨(httpGetContentLength_exact (lengthHead (text " 42") (by decide))
      ⟨text "Content-Length", text " 42", by decide, by decide +kernel, by decide, by decide⟩ 7
      (by rfl) (by decide +kernel)).1 (.inl ⟨⟨by decide, forall_mem_of_all (by decide), by decide⟩, by decide⟩),
    (httpGetContentLength_exact (lengthHead (text " 4x") (by decide))
      ⟨text "Content-Length", text " 4x", by decide, by decide +kernel, by decide, by decide⟩ 4
      (by rfl) (by decide +kernel)).2 (.inr (by decide))
      ⟨iff_of_false (by decide +kernel) (fun hfits => absurd (hfits.2.1 (ascii 'x') (by decide))
        (by decide)), fun h => absurd h (by decide +kernel), fun _ => by decide +kernel⟩⟩

/-- A length of zero is taken for an overflow. -/
theorem httpGetContentLength_zero :
    ¬ Exact (text " 0") 0
      (httpGetContentLengthResult (lengthHead (text " 0") (by decide +kernel)).bytes 0) := by
  intro hexact
  have hfits : Fits (text " 0") := by
    unfold Fits
    decide +kernel
  have hresult :
      (httpGetContentLengthResult (lengthHead (text " 0") (by decide +kernel)).bytes 0).1 =
        some .bufferOverflow := by
    decide +kernel
  rw [hexact.succeeds.mpr hfits] at hresult
  contradiction

-- a number that wraps to a larger one counts as well
example : httpGetContentLengthResult
    (lengthHead (text " 21000000000000000000") (by decide +kernel)).bytes 0 =
      (none, 2553255926290448384) := by
  decide +kernel

end Heads

end Newth.Client.ContentLength
