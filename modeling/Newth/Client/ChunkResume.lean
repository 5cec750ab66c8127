import Newth.Client.ChunkStrip

namespace Newth.Client.ChunkResume

open Newth.Library.ByteString
open Newth.Library.Call
open Newth.Library.Chunked
open Newth.Client.Recvbufr
open Newth.Client.ChunkedBody
open Newth.Client.ChunkGrammar
open Newth.Client.ChunkStrip

section BelowZero

variable {data line : Bytes} {len place k n : Nat} {st : Strip}

/-- The data ends in the `\r` of a size line, or in a lone `\r` where one should be, and an old `\n`
stands behind it. -/
inductive Overruns (data : Bytes) (len : Nat) : Prop where
  | first {line : Bytes} (h : len = noChunk) (hdata : data = line ++ [13])
      (hline : FirstLine data line) (hclean : 0 ∉ line) (hne : line ≠ [])
      (hsize : line.length = 1 ∨ ∃ n, SaysSize line n)
  | lone {place k : Nat} (h : Reaches data len place k 0) (hdata : data.drop place = [13])
      (hold : oldByte data k = [10])
  | cut {place k n : Nat} {line : Bytes} (h : Reaches data len place k 0)
      (hdata : data.drop place = crlf ++ (line ++ [13])) (hold : oldByte data k = [10])
      (hunended : Unended line) (hshort : line.length ≤ 18) (hclean : 0 ∉ line)
      (hsize : SaysSize line n)

theorem cString_length_le (line : Bytes) : (cString line).length ≤ line.length :=
  (List.takeWhile_prefix _).length_le

theorem cString_of_length (line : Bytes) (h : line.length ≤ (cString line).length) :
    cString line = line ∧ 0 ∉ line := by
  have hwhole : cString line = line := (List.takeWhile_prefix _).eq_of_length_le h
  exact ⟨hwhole, hwhole ▸ zero_notMem_cString line⟩

theorem oldByte_length_le (data : Bytes) (k : Nat) : (oldByte data k).length ≤ 1 :=
  List.length_take_le 1 _

theorem overruns_of_line (h : Reaches data len place k 0)
    (hline : LineIn (data.drop place ++ oldByte data k) line) (hsize : SaysSize (cString line) n)
    (hroom : data.length < place + ((cString line).length + 4)) : Overruns data len := by
  have hlength := hline.found.length_le
  have hshorter := cString_length_le line
  have hbyte := oldByte_length_le data k
  simp only [List.length_append, List.length_drop] at hlength
  change 2 + (line.length + 2) ≤ _ at hlength
  obtain ⟨hwhole, hclean⟩ := cString_of_length line (by omega)
  have hsame : crlf ++ (line ++ [13]) ++ [10] = data.drop place ++ oldByte data k := by
    have heq := hline.found.eq_of_length_le (by
      simp only [List.length_append, List.length_drop]
      change _ ≤ 2 + (line.length + 2)
      omega)
    rw [← heq]
    simp [crlf]
  obtain ⟨hdata, hold⟩ := List.append_inj' hsame (by simp only [List.length_singleton]; omega)
  rw [hwhole] at hsize
  exact .cut h hdata.symm hold.symm hline.unended hline.short hclean hsize

theorem stripTurn_cut (hstands : Stands data place k 0 st)
    (hdata : data.drop place = crlf ++ (line ++ [13])) (hold : oldByte data k = [10])
    (hunended : Unended line) (hshort : line.length ≤ 18) (hclean : 0 ∉ line)
    (hsize : SaysSize line n) : stripTurn st = .ok (.leave .belowZero) := by
  have hline : LineIn (data.drop place ++ oldByte data k) line := by
    rw [hdata, hold]
    exact ⟨⟨[], by simp [crlf]⟩, hunended, hshort⟩
  have hlength := congrArg List.length hdata
  simp only [List.length_append, List.length_drop, List.length_singleton] at hlength
  change _ = 2 + (line.length + 1) at hlength
  refine stands_over hstands hline ((cString_eq_self hclean).symm ▸ hsize) ?_
  rw [cString_eq_self hclean]
  omega

theorem overruns_of_run {fuel : Nat} (h : Reaches data len place k n)
    (hstands : Stands data place k n st) (hrun : run stripTurn fuel st = .ok .belowZero) :
    Overruns data len := by
  obtain ⟨st', hpasses, hleave⟩ := run_ok_iff.mp ⟨fuel, hrun⟩
  obtain ⟨place, k, n, h, hstands⟩ := passes_reaches h hstands hpasses
  rcases stands_turn hstands hleave with ⟨out, hout⟩ | ⟨m, st', -, -, hout, -⟩ |
    ⟨rfl, hdata, hold, -⟩ | ⟨rfl, line, m, hline, hsize, ⟨hroom, -⟩ | ⟨st', -, hout, -⟩⟩
  · simp at hout
  · simp at hout
  · exact .lone h hdata hold
  · exact overruns_of_line h hline hsize hroom
  · simp at hout

theorem run_of_reaches (h : Reaches data len place k n)
    (hleave : ∀ st, Stands data place k n st → stripTurn st = .ok (.leave .belowZero)) :
    ∃ fuel, ioHttpBodyChunkStrip fuel data len = .ok .belowZero := by
  obtain ⟨st, st', hcall, hpasses, hstands⟩ := reaches_passes h
  obtain ⟨fuel, hrun⟩ := run_ok_iff.mpr ⟨st', hpasses, hleave st' hstands⟩
  exact ⟨fuel, (hcall fuel).trans hrun⟩

theorem overruns_of_first {fuel : Nat}
    (hcall : ioHttpBodyChunkStrip fuel data noChunk = .ok .belowZero) : Overruns data noChunk := by
  by_cases hnone : firstLine data = []
  · rw [ioHttpBodyChunkStrip, if_pos rfl] at hcall
    simp [hnone] at hcall
  · obtain ⟨line, hline⟩ := exists_firstLine hnone
    have hne : cString line ≠ [] := firstLine_eq hline ▸ hnone
    have hshorter := cString_length_le line
    have hpos := List.length_pos_iff.mpr hne
    obtain ⟨after, hafter⟩ := hline.found
    have hlength := congrArg List.length hafter
    rw [List.length_append, List.length_append, List.length_singleton] at hlength
    by_cases hsize : ∃ n, SaysSize (cString line) n
    · obtain ⟨n, hsize⟩ := hsize
      rcases Nat.lt_or_ge data.length ((cString line).length + 2) with hover | hroom
      · obtain ⟨hwhole, hclean⟩ := cString_of_length line (by omega)
        obtain rfl := List.eq_nil_of_length_eq_zero (by omega : after.length = 0)
        rw [hwhole] at hne hsize
        exact .first rfl (by rw [← hafter, List.append_nil]) hline hclean hne (.inr ⟨n, hsize⟩)
      · rw [call_sized fuel hline hsize hroom] at hcall
        exact overruns_of_run (.first rfl hline hsize hroom) (stands_first hsize) hcall
    · rw [call_unsized fuel hline hne (not_exists.mp hsize)] at hcall
      split at hcall
      · obtain ⟨hwhole, hclean⟩ := cString_of_length line (by omega)
        obtain rfl := List.eq_nil_of_length_eq_zero (by omega : after.length = 0)
        rw [hwhole] at hne
        exact .first rfl (by rw [← hafter, List.append_nil]) hline hclean hne (.inl (by omega))
      · simp at hcall

theorem belowZero_iff (data : Bytes) (len : Nat) :
    (∃ fuel, ioHttpBodyChunkStrip fuel data len = .ok .belowZero) ↔ Overruns data len := by
  constructor
  · rintro ⟨fuel, hcall⟩
    by_cases hlen : len = noChunk
    · subst hlen
      exact overruns_of_first hcall
    · rw [call_resumed fuel hlen] at hcall
      exact overruns_of_run (.resumed hlen) stands_resumed hcall
  · rintro (⟨rfl, hdata, hline, hclean, hne, hsize⟩ | ⟨h, hdata, hold⟩ |
      ⟨h, hdata, hold, hunended, hshort, hclean, hsize⟩)
    · rename_i line
      have hwhole := cString_eq_self hclean
      have hlength := congrArg List.length hdata
      rw [List.length_append, List.length_singleton] at hlength
      by_cases hsome : ∃ n, SaysSize line n
      · obtain ⟨n, hn⟩ := hsome
        exact ⟨0, call_over 0 hline (hwhole.symm ▸ hn) (by rw [hwhole]; omega)⟩
      · have hone := hsize.resolve_right hsome
        refine ⟨0, (call_unsized 0 hline (hwhole.symm ▸ hne) ?_).trans (if_pos (by omega))⟩
        rw [hwhole]
        exact not_exists.mp hsome
    · exact run_of_reaches h fun st hstands => stands_lone hstands hdata hold
    · exact run_of_reaches h fun st hstands =>
        stripTurn_cut hstands hdata hold hunended hshort hclean hsize

end BelowZero

section Stray

variable {data line : Bytes} {len : Nat}

/-- A size line that is not hexadecimal makes the call return an error. -/
def FlagsStray (data : Bytes) (len : Nat) : Prop :=
  ∀ line, Meets data len line → ¬ (cString line).all isValidHexCharacter →
    ∃ fuel out, ioHttpBodyChunkStrip fuel data len = .ok (.returned out) ∧ out.error ≠ none

theorem unsized_of_stray (h : ¬ (cString line).all isValidHexCharacter) :
    cString line ≠ [] ∧ ∀ n, ¬ SaysSize (cString line) n := by
  constructor
  · intro hnil
    rw [hnil] at h
    exact h rfl
  · rintro n ⟨hsize, -⟩
    rw [ioHttpBodyChunkHexToSize, if_neg h] at hsize
    contradiction

theorem flagsStray_iff (data : Bytes) (len : Nat) :
    FlagsStray data len ↔ ∀ line, Meets data len line → (cString line).all isValidHexCharacter := by
  constructor
  · intro hflags line hmeets
    by_contra hstray
    obtain ⟨hne, hsize⟩ := unsized_of_stray hstray
    obtain ⟨fuel, out, hcall, herror⟩ := hflags line hmeets hstray
    rcases hmeets with ⟨rfl, hline⟩ | ⟨h, hline⟩
    · rw [call_unsized fuel hline hne hsize] at hcall
      split at hcall
      · simp at hcall
      · obtain rfl := Ended.returned.inj (Except.ok.inj hcall)
        exact herror rfl
    · obtain ⟨st, st', hrun, hpasses, hstands⟩ := reaches_passes h
      obtain ⟨last, hleave, hlast⟩ := stands_last hstands hline hne hsize
      rw [hrun] at hcall
      have hthere := run_mono (Nat.le_succ fuel) (run_of_passes hpasses hcall)
      rw [run_succ_leave fuel hleave] at hthere
      obtain rfl := Ended.returned.inj (Except.ok.inj hthere)
      exact herror hlast
  · intro hhex line hmeets hstray
    exact absurd (hhex line hmeets) hstray

end Stray

section Pieces

variable {kept stale digits data missing coded body rest chunk : Bytes} {fuel : Nat}
variable {out : Stripped}

/-- A chunked body in two pieces, cut at a byte of a chunk or in front of the line end behind it. -/
inductive IsCut : Bytes → Bytes → Bytes → Prop where
  | mk {before behind body1 body2 digits data1 data2 : Bytes} (hbefore : Chunks before body1)
      (hchunk : IsChunk digits (data1 ++ data2)) (hbehind : Chunks behind body2)
      (hfits : (data2 ++ (crlf ++ (behind ++ lastChunk))).length < 2 ^ 64) :
      IsCut (before ++ (digits ++ crlf ++ data1)) (data2 ++ (crlf ++ (behind ++ lastChunk)))
        (body1 ++ (data1 ++ data2) ++ body2)

/-- Both pieces come through, the second with what the first has left to go, and between them keep
the data of the body. -/
def Resumes (piece1 piece2 body : Bytes) : Prop :=
  ∃ fuel out1 out2,
    ioHttpBodyChunkStrip fuel piece1 noChunk = .ok (.returned out1) ∧ out1.error = none ∧
    ioHttpBodyChunkStrip fuel piece2 out1.len = .ok (.returned out2) ∧ out2.error = none ∧
    out1.data.take out1.max ++ out2.data.take out2.max = body ∧ out2.len = noChunk

theorem stray_of_hex {c : UInt8} (h : isValidHexCharacter c = true) : c ≠ 0 ∧ c ≠ 13 := by
  have hall : ∀ c : UInt8, isValidHexCharacter c = true → c ≠ 0 ∧ c ≠ 13 :=
    forall_byte (by decide +kernel)
  exact hall c h

theorem zero_notMem_digits (h : IsChunk digits data) : 0 ∉ digits :=
  fun hmem => (stray_of_hex (List.all_eq_true.mp h.hex 0 hmem)).1 rfl

theorem cr_notMem_digits (h : IsChunk digits data) : 13 ∉ digits :=
  fun hmem => (stray_of_hex (List.all_eq_true.mp h.hex 13 hmem)).2 rfl

theorem saysSize_digits (h : IsChunk digits data) : SaysSize (cString digits) data.length := by
  rw [cString_eq_self (zero_notMem_digits h)]
  refine ⟨?_, h.pos⟩
  have hnumber : digits.foldl (fun value c => (value * 16 + hexValue c) % 2 ^ 64) 0 =
      hexNumber digits % 2 ^ 64 := foldl_mod hexValue (2 ^ 64) digits 0
  rw [ioHttpBodyChunkHexToSize, if_pos h.hex, hnumber, h.size, Nat.mod_eq_of_lt h.fits]

theorem length_le_of_line (line : Bytes) {a b : Bytes} (h : line ++ 13 :: a = digits ++ 13 :: b)
    (hclean : 13 ∉ digits) : digits.length ≤ line.length := by
  by_contra hless
  have hwhole : line ++ [13] <+: digits ++ 13 :: b := ⟨a, by rw [← h]; simp⟩
  have hfront : line ++ [13] <+: digits := by
    refine List.prefix_of_prefix_length_le hwhole ⟨_, rfl⟩ ?_
    rw [List.length_append, List.length_singleton]
    omega
  exact hclean (hfront.subset (by simp))

theorem passes_data (kept data rest stale : Bytes) (n : Nat) (chunk : Bytes) :
    Passes stripTurn (state kept (data ++ rest) stale (data.length + n) chunk)
      (state (kept ++ data) rest stale n chunk) := by
  induction data generalizing kept with
  | nil =>
      rw [List.append_nil, List.nil_append, List.length_nil, Nat.zero_add]
      exact .refl
  | cons c data ih =>
      have hnext := ih (kept ++ [c])
      rw [List.append_assoc, List.singleton_append] at hnext
      have hlength : (c :: data).length + n = data.length + n + 1 := by
        rw [List.length_cons]
        omega
      rw [hlength, List.cons_append]
      exact .head (turn_byte kept c (data ++ rest) stale _ chunk) hnext

theorem run_chunk (hchunk : IsChunk digits (data ++ missing))
    (hrun : run stripTurn fuel (state kept (crlf ++ (digits ++ crlf ++ (data ++ rest))) stale 0
      chunk) = .ok (.returned out)) (herror : out.error = none) :
    ∃ stale chunk, run stripTurn fuel (state (kept ++ data) rest stale missing.length chunk) =
      .ok (.returned out) := by
  have hclean := cr_notMem_digits hchunk
  have hshort : digits.length ≤ 18 := by
    obtain ⟨turn, hturn⟩ : ∃ turn, stripTurn
        (state kept (crlf ++ (digits ++ crlf ++ (data ++ rest))) stale 0 chunk) = .ok turn := by
      rcases run_eq_ok hrun with hleave | ⟨_, _, hagain, -⟩
      · exact ⟨_, hleave⟩
      · exact ⟨_, hagain⟩
    rcases turn_cases (by simp [crlf]) hturn with ⟨out', rfl, herror'⟩ | ⟨hlone, -⟩ |
      ⟨line, ⟨⟨after, hafter⟩, hunended, hshort⟩, -⟩
    · obtain rfl := Ended.returned.inj (eq_of_run_leave hturn hrun)
      exact absurd herror herror'
    · simp [crlf] at hlone
    · refine (@length_le_of_line digits line (10 :: after) (10 :: (data ++ rest ++ stale))
        ?_ hclean).trans hshort
      simpa [crlf] using hafter
  have hline : LineIn (crlf ++ (digits ++ crlf ++ (data ++ rest)) ++ stale) digits := by
    exact ⟨⟨data ++ rest ++ stale, by simp⟩, unended_of_notMem hclean, hshort⟩
  have hsize := saysSize_digits hchunk
  have hwhole := cString_eq_self (zero_notMem_digits hchunk)
  have hless : digits.length + 2 < (crlf ++ (digits ++ crlf ++ (data ++ rest))).length := by
    simp [crlf]
  have hturn := (turn_line kept chunk hline hless).trans
    (stripLine_fits kept stale chunk hsize (by simp [hwhole, crlf]))
  have hsplit : crlf ++ (digits ++ crlf ++ (data ++ rest)) =
      crlf ++ (digits ++ crlf) ++ (data ++ rest) := (List.append_assoc _ _ _).symm
  have hfront : digits.length + 4 = (crlf ++ (digits ++ crlf)).length := by simp [crlf]
  have hrest : (crlf ++ (digits ++ crlf ++ (data ++ rest))).drop (digits.length + 4) =
      data ++ rest := by rw [hsplit, hfront, List.drop_left]
  have hlength : (data ++ missing).length = data.length + missing.length := List.length_append
  rw [hwhole, hrest, hlength] at hturn
  exact ⟨_, _, run_of_passes (.head hturn (passes_data kept data rest _ _ _)) hrun⟩

theorem run_chunks (h : Chunks coded body)
    (hrun : run stripTurn fuel (state kept (crlf ++ (coded ++ rest)) stale 0 chunk) =
      .ok (.returned out)) (herror : out.error = none) :
    ∃ stale chunk, run stripTurn fuel (state (kept ++ body) (crlf ++ rest) stale 0 chunk) =
      .ok (.returned out) := by
  induction h generalizing rest with
  | nil =>
      rw [List.append_nil]
      exact ⟨_, _, hrun⟩
  | @snoc coded body digits data h hchunk ih =>
      have hsplit : coded ++ (digits ++ crlf ++ data ++ crlf) ++ rest =
          coded ++ (digits ++ crlf ++ (data ++ (crlf ++ rest))) := by simp
      rw [hsplit] at hrun
      obtain ⟨stale, chunk, hthere⟩ := ih hrun
      rw [← List.append_nil data] at hchunk
      obtain ⟨stale, chunk, hbehind⟩ := run_chunk hchunk hthere herror
      rw [List.append_assoc] at hbehind
      exact ⟨stale, chunk, hbehind⟩

theorem call_chunk (hchunk : IsChunk digits (data ++ missing))
    (hcall : ioHttpBodyChunkStrip fuel (digits ++ crlf ++ (data ++ rest)) noChunk =
      .ok (.returned out)) (herror : out.error = none) :
    ∃ stale chunk, run stripTurn fuel (state data rest stale missing.length chunk) =
      .ok (.returned out) := by
  have hclean := cr_notMem_digits hchunk
  have hwhole := cString_eq_self (zero_notMem_digits hchunk)
  by_cases hshort : digits.length ≤ 18
  · have hline : FirstLine (digits ++ crlf ++ (data ++ rest)) digits :=
      ⟨⟨10 :: (data ++ rest), by simp [crlf]⟩, hclean, hshort⟩
    have hfront : digits.length + 2 = (digits ++ crlf).length := by simp [crlf]
    have hrest : (digits ++ crlf ++ (data ++ rest)).drop (digits.length + 2) = data ++ rest := by
      rw [hfront, List.drop_left]
    have hlength : (data ++ missing).length = data.length + missing.length := List.length_append
    rw [call_sized fuel hline (saysSize_digits hchunk) (by rw [hwhole]; simp [crlf]), hwhole, hrest,
      hlength] at hcall
    exact ⟨_, _, run_of_passes (passes_data [] data rest _ _ _) hcall⟩
  · have hnone : firstLine (digits ++ crlf ++ (data ++ rest)) = [] := by
      by_contra hsome
      obtain ⟨line, ⟨after, hafter⟩, -, hless⟩ := exists_firstLine hsome
      refine hshort ((@length_le_of_line digits line after (10 :: (data ++ rest)) ?_
        hclean).trans hless)
      simpa [crlf] using hafter
    rw [ioHttpBodyChunkStrip, if_pos rfl] at hcall
    simp only [hnone, if_true] at hcall
    obtain rfl := Ended.returned.inj (Except.ok.inj hcall)
    contradiction

theorem call_chunks (h : Chunks coded body) (hchunk : IsChunk digits (data ++ missing))
    (hcall : ioHttpBodyChunkStrip fuel (coded ++ (digits ++ crlf ++ (data ++ rest))) noChunk =
      .ok (.returned out)) (herror : out.error = none) :
    ∃ stale chunk, run stripTurn fuel (state (body ++ data) rest stale missing.length chunk) =
      .ok (.returned out) := by
  induction h generalizing digits data missing rest with
  | nil => exact call_chunk hchunk hcall herror
  | @snoc coded body digits' data' h hchunk' ih =>
      have hsplit : coded ++ (digits' ++ crlf ++ data' ++ crlf) ++
          (digits ++ crlf ++ (data ++ rest)) = coded ++ (digits' ++ crlf ++
            (data' ++ (crlf ++ (digits ++ crlf ++ (data ++ rest))))) := by simp
      rw [hsplit] at hcall
      rw [← List.append_nil data'] at hchunk'
      obtain ⟨stale, chunk, hthere⟩ := ih hchunk' hcall
      exact run_chunk hchunk hthere herror

/-- Two bytes too few are taken off at the end of the body. -/
theorem run_last (hrun : run stripTurn fuel (state kept (crlf ++ lastChunk) stale 0 chunk) =
    .ok (.returned out)) : out.data.take out.max = kept ++ crlf := by
  have hline : LineIn (crlf ++ lastChunk ++ stale) [ascii '0'] :=
    ⟨⟨crlf ++ stale, by simp [lastChunk, text, ascii]⟩, unended_of_notMem (by decide), by decide⟩
  have hsize : ∀ n, ¬ SaysSize (cString [ascii '0']) n := by
    rintro n ⟨hzero, hpos⟩
    have hnone : ioHttpBodyChunkHexToSize (cString [ascii '0']) = .ok 0 := by decide
    rw [hnone] at hzero
    obtain rfl := Except.ok.inj hzero
    exact absurd hpos (lt_irrefl 0)
  have hmax : (state kept (crlf ++ lastChunk) stale 0 chunk).max = kept.length + 7 := rfl
  have hturn := (turn_line kept chunk hline (by decide)).trans
    ((stripLine_unsized (by decide) hsize).trans (if_neg (by omega)))
  obtain rfl := Ended.returned.inj (eq_of_run_leave hturn hrun)
  change (kept ++ (crlf ++ lastChunk ++ stale)).take (kept.length + 2) = _
  rw [List.take_length_add_append]
  rfl

/-- Whatever the body and wherever the cut, a line end is left behind the data. -/
theorem not_resumes {piece1 piece2 body : Bytes} (h : IsCut piece1 piece2 body) :
    ¬ Resumes piece1 piece2 body := by
  obtain ⟨hbefore, hchunk, hbehind, hfits⟩ := h
  rename_i before behind body1 body2 digits data1 data2
  rintro ⟨fuel, out1, out2, hfirst, herror1, hsecond, herror2, hdata, -⟩
  rw [← List.append_nil data1] at hfirst
  obtain ⟨stale, chunk, hrun⟩ := call_chunks hbefore hchunk hfirst herror1
  obtain rfl := Ended.returned.inj (eq_of_run_leave (turn_end _ _ _ _) hrun)
  have hresumed : data2.length ≠ noChunk := by
    rw [List.length_append, List.length_append] at hfits
    change data2.length + (2 + _) < _ at hfits
    rw [noChunk]
    omega
  rw [call_resumed fuel hresumed] at hsecond
  have hthere := run_of_passes (passes_data [] data2 _ [] 0 []) hsecond
  obtain ⟨stale', chunk', hlast⟩ := run_chunks hbehind hthere herror2
  rw [run_last hlast, List.take_left] at hdata
  have hlength := congrArg List.length hdata
  have hcrlf : crlf.length = 2 := rfl
  simp only [List.length_append, List.nil_append] at hlength
  omega

end Pieces

section Results

theorem chunkStrip_iff (piece1 piece2 body data : Bytes) (len : Nat) :
    (IsCut piece1 piece2 body → ¬ Resumes piece1 piece2 body) ∧
      (FlagsStray data len ↔
        ∀ line, Meets data len line → (cString line).all isValidHexCharacter) ∧
      ((∀ fuel, ioHttpBodyChunkStrip fuel data len ≠ .ok .belowZero) ↔ ¬ Overruns data len) := by
  refine ⟨not_resumes, flagsStray_iff data len, ?_⟩
  rw [← belowZero_iff, not_exists]

theorem isCut_this : IsCut (text "4\r\nTh") (text "is\r\n0\r\n\r\n") (text "This") := by
  have hchunk : IsChunk (text "4") (text "Th" ++ text "is") :=
    ⟨by decide, by decide, by decide, by decide, by decide⟩
  have hcut := IsCut.mk .nil hchunk .nil (by decide)
  have hfirst : ([] ++ (text "4" ++ crlf ++ text "Th") : Bytes) = text "4\r\nTh" := by decide
  have hsecond : text "is" ++ (crlf ++ ([] ++ lastChunk)) = text "is\r\n0\r\n\r\n" := by decide
  have hbody : [] ++ (text "Th" ++ text "is") ++ [] = text "This" := by decide
  rwa [hfirst, hsecond, hbody] at hcut

/-- A first size line and the chunk behind it. -/
def sizeAndChunk : Bytes := text "4\r\nThis\r\n"

theorem chunkStrip_iff_at :
    ¬ Resumes (text "4\r\nTh") (text "is\r\n0\r\n\r\n") (text "This") ∧
      (FlagsStray sizeAndChunk noChunk ↔
        ∀ line, Meets sizeAndChunk noChunk line → (cString line).all isValidHexCharacter) ∧
      ((∀ fuel, ioHttpBodyChunkStrip fuel sizeAndChunk noChunk ≠ .ok .belowZero) ↔
        ¬ Overruns sizeAndChunk noChunk) :=
  (chunkStrip_iff _ _ _ sizeAndChunk noChunk).imp (fun hnever => hnever isCut_this) id

/-- `4\r\nThis\r\n0\r\n\r\n` in two pieces leaves a line end behind, `zz` for a size ends the
body, and a lone `\r` behind the first size is not enough to take three bytes off. -/
theorem chunkStrip_wrong :
    (ioHttpBodyChunkStrip 9 (text "4\r\nTh") noChunk =
        .ok (.returned ⟨none, text "Th\nTh", 2, 2⟩) ∧
      ioHttpBodyChunkStrip 9 (text "is\r\n0\r\n\r\n") 2 =
        .ok (.returned ⟨none, text "is\r\n0\r\n\r\n", 4, noChunk⟩) ∧
      ¬ Resumes (text "4\r\nTh") (text "is\r\n0\r\n\r\n") (text "This")) ∧
      ¬ FlagsStray (text "4\r\nThis\r\nzz\r\n") noChunk ∧
      ioHttpBodyChunkStrip 9 (text "0\r") noChunk = .ok .belowZero := by
  refine ⟨⟨by decide, by decide, not_resumes isCut_this⟩, fun hflags => ?_, by decide⟩
  have hfour : Reaches (text "4\r\nThis\r\nzz\r\n") noChunk 3 3 4 :=
    @Reaches.first _ _ (text "4") 4 rfl ⟨by decide, by decide, by decide⟩ ⟨by decide, by decide⟩
      (by decide)
  have hend : Reaches (text "4\r\nThis\r\nzz\r\n") noChunk 7 3 0 :=
    (((hfour.byte (by decide)).byte (by decide)).byte (by decide)).byte (by decide)
  have hline : LineIn
      ((text "4\r\nThis\r\nzz\r\n").drop 7 ++ oldByte (text "4\r\nThis\r\nzz\r\n") 3) (text "zz") :=
    ⟨by decide, unended_of_notMem (by decide), by decide⟩
  exact absurd ((flagsStray_iff _ _).mp hflags _ (.next hend hline)) (by decide)

end Results

end Newth.Client.ChunkResume
