import Newth.Client.ChunkReads

namespace Newth.Client.ChunkGrammar

open Newth.Library.ByteString
open Newth.Library.Call
open Newth.Library.Chunked
open Newth.Library.Numeral
open Newth.Library.Runs
open Newth.Client.Recvbufr
open Newth.Client.ChunkTurns
open Newth.Client.ChunkedBody
open Newth.Client.ChunkReads

section Grammar

/-- The number hexadecimal digits say. -/
def hexNumber (digits : Bytes) : Nat := digits.foldl (fun value c => value * 16 + hexValue c) 0

/-- The digits in front of a chunk say its size, which is not zero. -/
structure IsChunk (digits data : Bytes) : Prop where
  digits_ne_nil : digits ≠ []
  hex : digits.all isValidHexCharacter = true
  size : hexNumber digits = data.length
  pos : 0 < data.length
  fits : data.length < 2 ^ 64

/-- Chunks one after the other, and the data in them. -/
inductive Chunks : Bytes → Bytes → Prop where
  | nil : Chunks [] []
  | snoc {coded body digits data : Bytes} (h : Chunks coded body) (hchunk : IsChunk digits data) :
      Chunks (coded ++ (digits ++ crlf ++ data ++ crlf)) (body ++ data)

/-- A body up to the line of the zero chunk. -/
def Whole (coded body : Bytes) : Prop :=
  ∃ chunks zeros, Chunks chunks body ∧ zeros ≠ [] ∧ (∀ c ∈ zeros, c = ascii '0') ∧
    coded = chunks ++ (zeros ++ crlf)

/-- The front of a body up to a place in the data of a chunk or right behind it. -/
def Part (coded body : Bytes) : Prop :=
  coded = [] ∧ body = [] ∨
    ∃ chunks before digits data missing, Chunks chunks before ∧ IsChunk digits (data ++ missing) ∧
      coded = chunks ++ (digits ++ crlf ++ data) ∧ body = before ++ data

end Grammar

section Lines

/-- The places of a stream the decoder reads size lines at. -/
inductive LineAt (stream : Bytes) : Nat → Nat → Prop where
  | first : LineAt stream noChunk 0
  | later {next place l j : Nat} (h : LineAt stream next place)
      (hline : readSize next ((stream.drop place).take 19) = some (.ok (l, j))) (hpos : 0 < l) :
      LineAt stream 0 (place + j + l)

/-- A size line stands right behind the line end of the chunk before it, has a digit, and says a
number below the one that stands for no chunk at all. -/
structure Proper (next : Nat) (ahead : Bytes) : Prop where
  behind : lead next <+: ahead
  digit : ¬ lead next ++ crlf <+: ahead
  fits : hexNumber ((ahead.drop (lead next).length).takeWhile isValidHexCharacter) < noChunk

/-- The size lines that are read are proper. -/
def ProperLines (stream : Bytes) : Prop :=
  ∀ next place l j, LineAt stream next place →
    readSize next ((stream.drop place).take 19) = some (.ok (l, j)) → Proper next (stream.drop place)

theorem hexToSize_ok {hex : Bytes} {l : Nat} (h : ioHttpBodyChunkHexToSize hex = .ok l) :
    hex.all isValidHexCharacter = true ∧ l = hexNumber hex % 2 ^ 64 := by
  rw [ioHttpBodyChunkHexToSize] at h
  split at h
  · rename_i hvalid
    exact ⟨hvalid, (Except.ok.inj h).symm.trans (foldl_mod hexValue (2 ^ 64) hex 0)⟩
  · contradiction

theorem chunkSizeLine_lead {next : Nat} {b hex : Bytes} {j : Nat} (hlead : lead next <+: b)
    (h : chunkSizeLine (next = noChunk) b = some (hex, j)) :
    lead next ++ hex ++ crlf <+: b ∧ j = (lead next).length + hex.length + 2 := by
  by_cases hfirst : next = noChunk
  · have hnone : lead next = [] := if_pos hfirst
    simp only [chunkSizeLine, hfirst, decide_true, if_true, Option.map_eq_some_iff,
      Prod.mk.injEq] at h
    obtain ⟨finish, hfinish, rfl, rfl⟩ := h
    obtain ⟨pre, post, rfl, rfl⟩ := eq_append_of_strstr hfinish
    rw [hnone, List.append_assoc pre, List.take_left]
    exact ⟨by simp, by simp⟩
  · have hcrlf : lead next = crlf := if_neg hfirst
    rw [hcrlf] at hlead ⊢
    obtain ⟨s, rfl⟩ := hlead
    have hstart : strstr (crlf ++ s) crlf = some 0 := crlf_first (s := []) (by simp) s
    have hdrop : (crlf ++ s).drop (0 + 2) = s := rfl
    simp only [chunkSizeLine, hfirst, decide_false, Bool.false_eq_true, if_false, hstart, hdrop,
      Option.bind_eq_bind, Option.bind_some, Option.bind_eq_some_iff, Option.some.injEq,
      Prod.mk.injEq] at h
    obtain ⟨finish, hfinish, rfl, rfl⟩ := h
    obtain ⟨pre, post, rfl, rfl⟩ := eq_append_of_strstr hfinish
    have hlength : crlf.length = 2 := rfl
    rw [List.append_assoc pre, List.take_left]
    exact ⟨⟨post, by simp⟩, by omega⟩

theorem Proper.line {next l j : Nat} {ahead : Bytes} (h : Proper next ahead)
    (hline : readSize next (ahead.take 19) = some (.ok (l, j))) :
    ∃ digits rest, ahead = lead next ++ digits ++ crlf ++ rest ∧ digits ≠ [] ∧
      digits.all isValidHexCharacter = true ∧ hexNumber digits = l ∧ l < noChunk ∧
      j = (lead next ++ digits ++ crlf).length := by
  obtain ⟨-, hex, hfound, hsize⟩ := readSize_eq_ok_iff.mp hline
  have hwindow : cString (ahead.take 19) <+: ahead :=
    (List.takeWhile_prefix _).trans (List.take_prefix _ _)
  have hlead : lead next <+: cString (ahead.take 19) := by
    have hclean : (0 : UInt8) ∉ lead next := by
      rw [lead]
      split
      · exact List.not_mem_nil
      · decide
    have hfit : (lead next).length ≤ 19 := by
      rw [lead]
      split
      · decide
      · decide
    rw [← cString_eq_self hclean]
    exact cString_mono (List.prefix_take_iff.mpr ⟨h.behind, hfit⟩)
  obtain ⟨hfront, hj⟩ := chunkSizeLine_lead hlead hfound
  obtain ⟨rest, hrest⟩ := hfront.trans hwindow
  obtain ⟨hvalid, hl⟩ := hexToSize_ok hsize
  have hdigits : (ahead.drop (lead next).length).takeWhile isValidHexCharacter = hex := by
    rw [← hrest, List.append_assoc, List.append_assoc, List.drop_left,
      List.takeWhile_append_of_pos (List.all_eq_true.mp hvalid)]
    exact List.append_nil _
  have hfits := h.fits
  rw [hdigits] at hfits
  have hnumber : l = hexNumber hex := by
    rw [hl, Nat.mod_eq_of_lt (hfits.trans (by decide))]
  refine ⟨hex, rest, hrest.symm, ?_, hvalid, hnumber.symm, by rwa [hnumber], ?_⟩
  · rintro rfl
    apply h.digit
    rw [List.append_nil] at hrest
    exact ⟨rest, hrest⟩
  · rw [hj, List.length_append, List.length_append]
    rfl

end Lines

section Soundness

variable {stream : Bytes}

theorem Reads.place {next place : Nat} {data : Bytes} (h : Reads stream next place data) :
    (place = 0 → next = noChunk ∧ data = []) ∧ (0 < place → LineAt stream 0 (place + next)) := by
  induction h with
  | start => exact ⟨fun _ => ⟨rfl, rfl⟩, fun h => absurd h (lt_irrefl 0)⟩
  | @line next place l j data h hplace hline hpos ih =>
      obtain ⟨-, hj, -, -⟩ := readSize_extend List.prefix_rfl hline
      refine ⟨fun hnone => by omega, fun _ => ?_⟩
      rcases Nat.eq_zero_or_pos place with rfl | hlater
      · obtain ⟨rfl, -⟩ := ih.1 rfl
        exact LineAt.first.later hline hpos
      · obtain rfl : next = 0 := by omega
        exact (ih.2 hlater).later hline hpos
  | @copy next place n data h hplace hn ih =>
      refine ⟨fun hnone => by omega, fun _ => ?_⟩
      have hsame : place + n + (next - n) = place + next := by omega
      rw [hsame]
      exact ih.2 hplace

theorem Reads.lineAt {next place : Nat} {data : Bytes} (h : Reads stream next place data)
    (hplace : next = 0 ∨ place = 0) : LineAt stream next place := by
  rcases Nat.eq_zero_or_pos place with rfl | hlater
  · obtain ⟨rfl, -⟩ := (Reads.place h).1 rfl
    exact .first
  · obtain rfl : next = 0 := by omega
    exact (Reads.place h).2 hlater

theorem ProperLines.counted (h : ProperLines stream) : Counted stream := by
  intro next place data l j hreads hplace hline
  obtain ⟨digits, rest, -, -, -, -, hless, -⟩ :=
    (h next place l j (Reads.lineAt hreads hplace) hline).line hline
  exact hless

theorem IsChunk.congr {digits data data' : Bytes} (h : IsChunk digits data)
    (hlength : data'.length = data.length) : IsChunk digits data' :=
  ⟨h.digits_ne_nil, h.hex, h.size.trans hlength.symm, hlength ▸ h.pos, hlength ▸ h.fits⟩

/-- Up to a place behind a size line there are whole chunks, the line, and the data read so far. -/
def PartAt (stream : Bytes) (next place : Nat) (body : Bytes) : Prop :=
  ∃ chunks before digits data missing, Chunks chunks before ∧ IsChunk digits (data ++ missing) ∧
    missing.length = next ∧ stream.take place = chunks ++ (digits ++ crlf ++ data) ∧
    body = before ++ data

theorem chunks_before {next place : Nat} {body ahead : Bytes}
    (hpart : 0 < place → PartAt stream next place body) (hfirst : place = 0 → next = noChunk ∧ body = [])
    (hplace : next = 0 ∨ place = 0) (hahead : stream.drop place = lead next ++ ahead) :
    ∃ chunks, Chunks chunks body ∧ stream.take place ++ lead next = chunks := by
  rcases Nat.eq_zero_or_pos place with rfl | hlater
  · obtain ⟨rfl, rfl⟩ := hfirst rfl
    exact ⟨[], .nil, rfl⟩
  · obtain rfl : next = 0 := by omega
    obtain ⟨chunks, before, digits, data, missing, hchunks, hchunk, hmissing, htake, rfl⟩ :=
      hpart hlater
    obtain rfl := List.eq_nil_of_length_eq_zero hmissing
    rw [List.append_nil] at hchunk
    refine ⟨_, hchunks.snoc hchunk, ?_⟩
    have hlead : lead 0 = crlf := rfl
    rw [htake, hlead, List.append_assoc, List.append_assoc (digits ++ crlf)]

theorem Reads.part (hlines : ProperLines stream) {next place : Nat} {body : Bytes}
    (h : Reads stream next place body) (hbound : place ≤ stream.length) :
    0 < place → PartAt stream next place body := by
  induction h with
  | start => exact fun h => absurd h (lt_irrefl 0)
  | @line next place l j body h hplace hline hpos ih =>
      intro _
      obtain ⟨digits, ahead, hahead, hdigits, hhex, hnumber, hless, hj⟩ :=
        (hlines next place l j (Reads.lineAt h hplace) hline).line hline
      obtain ⟨chunks, hchunks, hbefore⟩ := chunks_before (ih (by omega)) (Reads.place h).1 hplace
        (by rw [hahead, List.append_assoc, List.append_assoc])
      refine ⟨chunks, body, digits, [], List.replicate l 0, hchunks, ⟨hdigits, hhex, ?_, ?_, ?_⟩,
        List.length_replicate, ?_, (List.append_nil _).symm⟩
      · rw [hnumber, List.nil_append, List.length_replicate]
      · rwa [List.nil_append, List.length_replicate]
      · rw [List.nil_append, List.length_replicate]
        exact hless.trans (by decide)
      · rw [List.take_add, hahead, hj, List.take_left, List.append_nil, ← hbefore]
        simp only [List.append_assoc]
  | @copy next place n body h hplace hn ih =>
      intro _
      obtain ⟨chunks, before, digits, data, missing, hchunks, hchunk, hmissing, htake, rfl⟩ :=
        ih (by omega) hplace
      have hlength : ((stream.drop place).take n).length = n := by
        rw [List.length_take, List.length_drop]
        omega
      refine ⟨chunks, before, digits, data ++ (stream.drop place).take n, missing.drop n, hchunks,
        hchunk.congr ?_, ?_, ?_, by rw [List.append_assoc]⟩
      · rw [List.length_append, List.length_append, hlength, List.length_drop, List.length_append]
        omega
      · rw [List.length_drop, hmissing]
      · rw [List.take_add, htake]
        simp only [List.append_assoc]

theorem hexNumber_eq_zero {digits : Bytes} (hhex : digits.all isValidHexCharacter = true)
    (hzero : hexNumber digits = 0) : ∀ c ∈ digits, c = ascii '0' := by
  have hdigit : ∀ c : UInt8, isValidHexCharacter c = true → hexValue c = 0 → c = ascii '0' :=
    forall_byte (by decide +kernel)
  induction digits using List.reverseRecOn with
  | nil => simp
  | append_singleton digits c ih =>
      rw [hexNumber, List.foldl_append] at hzero
      have hboth : hexNumber digits * 16 + hexValue c = 0 := hzero
      rw [List.all_append, Bool.and_eq_true] at hhex
      intro e he
      rcases List.mem_append.mp he with he | he
      · exact ih hhex.1 (by omega) e he
      · rw [List.mem_singleton.mp he]
        exact hdigit c (by simpa using hhex.2) (by omega)

theorem ReadsLast.whole (hlines : ProperLines stream) {place : Nat} {body : Bytes}
    (h : ReadsLast stream place body) (hbound : place ≤ stream.length) :
    Whole (stream.take place) body := by
  obtain ⟨next, before, j, hreads, hplace, hline, rfl⟩ := h
  obtain ⟨digits, ahead, hahead, hdigits, hhex, hnumber, -, hj⟩ :=
    (hlines next before 0 j (Reads.lineAt hreads hplace) hline).line hline
  obtain ⟨chunks, hchunks, hbefore⟩ := chunks_before (Reads.part hlines hreads (by omega))
    (Reads.place hreads).1 hplace (by rw [hahead, List.append_assoc, List.append_assoc])
  refine ⟨chunks, digits, hchunks, hdigits, hexNumber_eq_zero hhex hnumber, ?_⟩
  rw [List.take_add, hahead, hj, List.take_left, ← hbefore]
  simp only [List.append_assoc]

/-- Off a stream whose size lines are proper the decoder hands out the data of a front of a chunked
body, and of a whole one once it is complete. -/
theorem read_is_chunked {self start now : RecvBuffer} (hempty : self.data = [])
    (hlines : ProperLines self.serverSocket.rest) (hstart : recvBufferSetLengthChunk self = .ok start)
    (hrun : Run append (fun _ _ => True) start now) :
    ∃ coded, coded ++ now.serverSocket.rest = self.serverSocket.rest ∧
      (now.length = .complete → Whole coded now.data) ∧
      (now.length ≠ .complete → Part coded now.data) := by
  obtain ⟨place, hbound, hrest, hstands⟩ := run_stands hempty hlines.counted hstart hrun
  refine ⟨self.serverSocket.rest.take place, by rw [hrest, List.take_append_drop], ?_, ?_⟩
  · intro hcomplete
    rcases hstands with ⟨next, total, hmode, -⟩ | ⟨-, hlast⟩
    · rw [hmode] at hcomplete
      contradiction
    · exact ReadsLast.whole hlines hlast hbound
  · intro hmore
    rcases hstands with ⟨next, total, -, hreads⟩ | ⟨hcomplete, -⟩
    · rcases Nat.eq_zero_or_pos place with rfl | hpos
      · exact Or.inl ⟨rfl, ((Reads.place hreads).1 rfl).2⟩
      · obtain ⟨chunks, before, digits, data, missing, hchunks, hchunk, -, htake, hbody⟩ :=
          Reads.part hlines hreads hbound hpos
        exact Or.inr ⟨chunks, before, digits, data, missing, hchunks, hchunk, htake, hbody⟩
    · exact absurd hcomplete hmore

/-- One chunk, and the line of the zero chunk behind it. -/
def oneChunk : RecvBuffer := ⟨none, .unknown 0 0, ⟨[], [text "1\r\na\r\n0", text "\r\n\r\n"], .idle⟩⟩

theorem oneChunk_lines : ProperLines oneChunk.serverSocket.rest := by
  intro next place l j hplace hline
  have hwhere : next = noChunk ∧ place = 0 ∨ next = 0 ∧ place = 4 := by
    clear hline
    induction hplace with
    | first => exact Or.inl ⟨rfl, rfl⟩
    | @later next place l j h hline hpos ih =>
        rcases ih with ⟨rfl, rfl⟩ | ⟨rfl, rfl⟩
        · have hfirst : readSize noChunk ((oneChunk.serverSocket.rest.drop 0).take 19) =
              some (.ok (1, 3)) := by decide
          rw [hfirst] at hline
          obtain ⟨rfl, rfl⟩ : 1 = l ∧ 3 = j := by simpa using hline
          exact Or.inr ⟨rfl, rfl⟩
        · have hlast : readSize 0 ((oneChunk.serverSocket.rest.drop 4).take 19) =
              some (.ok (0, 5)) := by decide
          rw [hlast] at hline
          obtain ⟨rfl, rfl⟩ : 0 = l ∧ 5 = j := by simpa using hline
          exact absurd hpos (lt_irrefl 0)
  rcases hwhere with ⟨rfl, rfl⟩ | ⟨rfl, rfl⟩
  · exact ⟨by decide, by decide, by decide⟩
  · exact ⟨by decide, by decide, by decide⟩

theorem read_is_chunked_oneChunk : ∃ start now, recvBufferSetLengthChunk oneChunk = .ok start ∧
    follow append (fun _ _ => True) start [1, 1, 1] = some now ∧
    ∃ coded, coded ++ now.serverSocket.rest = oneChunk.serverSocket.rest ∧ Whole coded now.data := by
  obtain ⟨start, now, hstart, hfollow, hcomplete⟩ : ∃ start now,
      recvBufferSetLengthChunk oneChunk = .ok start ∧
      follow append (fun _ _ => True) start [1, 1, 1] = some now ∧ now.length = .complete :=
    ⟨_, _, rfl, rfl, rfl⟩
  obtain ⟨coded, hcoded, hwhole, -⟩ :=
    read_is_chunked rfl oneChunk_lines hstart (run_of_follow hfollow)
  exact ⟨start, now, hstart, hfollow, coded, hcoded, hwhole hcomplete⟩

/-- A line end where the first size line should be passes for a whole body. -/
theorem read_empty_line : ∃ start now,
    recvBufferSetLengthChunk ⟨none, .unknown 0 0, ⟨text "\r\n<", [], .closed⟩⟩ = .ok start ∧
    follow append (fun _ _ => True) start [1] = some now ∧ now.length = .complete ∧
    ∀ coded, coded ++ now.serverSocket.rest = text "\r\n<" → ¬ Whole coded now.data := by
  refine ⟨_, _, rfl, rfl, rfl, ?_⟩
  rintro coded hcoded ⟨chunks, zeros, -, hzeros, -, rfl⟩
  have hlength := congrArg List.length hcoded
  have hdigit := List.length_pos_iff.mpr hzeros
  have hrest : ((text "\r\n<").drop 2).length = 1 := rfl
  simp only [List.length_append] at hlength
  change _ + ((text "\r\n<").drop 2 ++ []).length = 3 at hlength
  rw [List.append_nil, hrest] at hlength
  have hcrlf : crlf.length = 2 := rfl
  omega

end Soundness

section Remainder

/-- What the decoder has in front of it in a chunked body that more bytes follow: a first size line,
or the last `next` bytes of a chunk. -/
inductive Ahead (behind : Bytes) : Nat → Bytes → Prop where
  | first {ds : List Bytes} (hds : ∀ d ∈ ds, d ≠ [] ∧ d.length < noChunk) :
      Ahead behind noChunk (wire ds ++ behind)
  | inside {ds : List Bytes} {x : Bytes} (hds : ∀ d ∈ ds, d ≠ [] ∧ d.length < noChunk)
      (hx : x.length < noChunk) : Ahead behind x.length (x ++ (crlf ++ (wire ds ++ behind)))

theorem Ahead.line {behind ahead : Bytes} {next place l j : Nat} (h : Ahead behind next ahead)
    (hplace : next = 0 ∨ place = 0) (hfirst : place = 0 → next = noChunk)
    (hline : readSize next (ahead.take 19) = some (.ok (l, j))) :
    l < noChunk ∧ (0 < l → Ahead behind l (ahead.drop j)) ∧ (l = 0 → ahead.drop j = crlf ++ behind) := by
  obtain ⟨ds, hds, hahead⟩ : ∃ ds : List Bytes, (∀ d ∈ ds, d ≠ [] ∧ d.length < noChunk) ∧
      ahead = lead next ++ wire ds ++ behind := by
    cases h with
    | @first ds hds => exact ⟨ds, hds, rfl⟩
    | @inside ds x hds hx =>
        rcases hplace with hzero | hzero
        · obtain rfl := List.eq_nil_of_length_eq_zero hzero
          exact ⟨ds, hds, by simp [lead, noChunk]⟩
        · exact absurd (hfirst hzero) hx.ne
  have hsize : (ds.headD []).length < noChunk := by
    cases ds with
    | nil => decide
    | cons d ds => exact (hds d List.mem_cons_self).2
  have hwhole : lead next ++ sizeLine (ds.headD []) <+: ahead := by
    rw [hahead]
    exact (line_front next ds).trans (List.prefix_append _ _)
  obtain ⟨hread, -, -, -⟩ := readSize_extend (List.take_prefix _ _) hline
  rw [readSize_sizeLine (hsize.trans (by decide)) hwhole] at hread
  obtain ⟨rfl, rfl⟩ : (ds.headD []).length = l ∧ lineLength next (ds.headD []) = j := by
    simpa using hread
  have hdrop : ahead.drop (lineLength next (ds.headD [])) = behindLine ds ++ behind := by
    have hlength : lineLength next (ds.headD []) ≤ (lead next ++ wire ds).length := by
      rw [lineLength, ← List.length_append]
      exact (line_front next ds).length_le
    rw [hahead, List.drop_append_of_le_length hlength, drop_line]
  rw [hdrop]
  refine ⟨hsize, fun hpos => ?_, fun hzero => ?_⟩
  · cases ds with
    | nil => exact absurd hpos (lt_irrefl 0)
    | cons d ds =>
        rw [behindLine, List.append_assoc, List.append_assoc]
        exact .inside (fun e he => hds e (List.mem_cons_of_mem d he)) hsize
  · cases ds with
    | nil => rfl
    | cons d ds =>
        have hpos := List.length_pos_iff.mpr (hds d List.mem_cons_self).1
        rw [List.headD_cons] at hzero
        omega

theorem Ahead.copy {behind ahead : Bytes} {next n : Nat} (h : Ahead behind next ahead)
    (hnext : next < noChunk) (hn : n ≤ next) : Ahead behind (next - n) (ahead.drop n) := by
  cases h with
  | first => exact absurd hnext (lt_irrefl noChunk)
  | @inside ds x hds hx =>
      rw [List.drop_append_of_le_length hn, ← List.length_drop]
      exact .inside hds (by rw [List.length_drop]; omega)

theorem Reads.ahead {ds : List Bytes} {behind : Bytes}
    (hds : ∀ d ∈ ds, d ≠ [] ∧ d.length < noChunk) {next place : Nat} {body : Bytes}
    (h : Reads (wire ds ++ behind) next place body) :
    Ahead behind next ((wire ds ++ behind).drop place) ∧ (0 < place → next < noChunk) := by
  induction h with
  | start => exact ⟨.first hds, fun h => absurd h (lt_irrefl 0)⟩
  | @line next place l j body h hplace hline hpos ih =>
      obtain ⟨hless, hnext, -⟩ :=
        ih.1.line hplace (fun hzero => ((Reads.place h).1 hzero).1) hline
      rw [List.drop_drop] at hnext
      exact ⟨hnext hpos, fun _ => hless⟩
  | @copy next place n body h hplace hn ih =>
      have hnext := ih.1.copy (ih.2 hplace) hn
      rw [List.drop_drop] at hnext
      exact ⟨hnext, fun _ => (Nat.sub_le _ _).trans_lt (ih.2 hplace)⟩

/-- Once a chunked body is complete the line end of its last line is still to be read, in front of
whatever follows the body. -/
theorem last_lineEnd_stays {ds : List Bytes} (hds : ∀ d ∈ ds, d ≠ [] ∧ d.length < noChunk)
    {behind : Bytes} {self start now : RecvBuffer} (hempty : self.data = [])
    (hrest : self.serverSocket.rest = wire ds ++ behind)
    (hstart : recvBufferSetLengthChunk self = .ok start)
    (hrun : Run append (fun _ _ => True) start now) (hcomplete : now.length = .complete) :
    now.serverSocket.rest = crlf ++ behind ∧ now.serverSocket.rest ≠ behind := by
  have hcounted : Counted self.serverSocket.rest := by
    rw [hrest]
    intro next place data l j hreads hplace hline
    exact ((Reads.ahead hds hreads).1.line hplace
      (fun hzero => ((Reads.place hreads).1 hzero).1) hline).1
  obtain ⟨place, hbound, hleft, hstands⟩ := run_stands hempty hcounted hstart hrun
  rw [hrest] at hleft hstands
  have hend : now.serverSocket.rest = crlf ++ behind := by
    rcases hstands with ⟨next, total, hmode, -⟩ | ⟨-, next, before, j, hreads, hplace, hline, rfl⟩
    · rw [hmode] at hcomplete
      contradiction
    · have hlast := ((Reads.ahead hds hreads).1.line hplace
        (fun hzero => ((Reads.place hreads).1 hzero).1) hline).2.2 rfl
      rw [hleft, ← List.drop_drop, hlast]
  refine ⟨hend, fun hsame => ?_⟩
  have hlength := congrArg List.length (hend.symm.trans hsame)
  rw [List.length_append] at hlength
  have hcrlf : crlf.length = 2 := rfl
  omega

theorem last_lineEnd_stays_response : ∃ start now,
    recvBufferSetLengthChunk ⟨none, .unknown 0 0,
      ⟨[], [text "1\r\na\r", text "\n0\r\n\r\nHTTP/1.1"], .idle⟩⟩ = .ok start ∧
    follow append (fun _ _ => True) start [1, 1] = some now ∧
    now.serverSocket.rest ≠ text "HTTP/1.1" := by
  have hds : ∀ d ∈ [text "a"], d ≠ [] ∧ d.length < noChunk := by
    intro d hd
    rw [List.mem_singleton.mp hd]
    decide
  obtain ⟨start, now, hstart, hfollow, hcomplete⟩ : ∃ start now,
      recvBufferSetLengthChunk ⟨none, .unknown 0 0,
        ⟨[], [text "1\r\na\r", text "\n0\r\n\r\nHTTP/1.1"], .idle⟩⟩ = .ok start ∧
      follow append (fun _ _ => True) start [1, 1] = some now ∧ now.length = .complete :=
    ⟨_, _, rfl, rfl, rfl⟩
  exact ⟨start, now, hstart, hfollow,
    (last_lineEnd_stays hds rfl rfl hstart (run_of_follow hfollow) hcomplete).2⟩

/-- The next response begins two bytes behind where the decoder stops. -/
theorem response_out_of_step : ∃ start now,
    text "1\r\na\r\n0\r\n\r\n" = wire [text "a"] ∧
    recvBufferSetLengthChunk ⟨none, .unknown 0 0,
      ⟨text "1\r\na\r\n0\r\n\r\nHTTP/1.1", [], .idle⟩⟩ = .ok start ∧
    follow append (fun _ _ => True) start [1, 1] = some now ∧ now.length = .complete ∧
    now.serverSocket.rest = text "\r\nHTTP/1.1" :=
  ⟨_, _, rfl, rfl, rfl, rfl, rfl⟩

end Remainder

end Newth.Client.ChunkGrammar
