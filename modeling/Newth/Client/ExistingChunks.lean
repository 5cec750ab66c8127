import Newth.Client.ChunkedBody

namespace Newth.Client.ExistingChunks

open Newth.Library.ByteString
open Newth.Library.Call
open Newth.Library.Chunked
open Newth.Library.Numeral
open Newth.Client.Recvbufr
open Newth.Client.ChunkTurns
open Newth.Client.ChunkedBody

section Splits

/-- The first `p` bytes of a stream break it off where what is buffered does not lead back into
it: between the two characters of the line end behind a chunk, between those of a size line with no
other line end in the window behind, or about the end of the last line. -/
def BadSplit : Nat → List Bytes → Nat → Prop
  | next, [], p =>
      next ≠ noChunk ∧
        (p = 1 ∨ p + 1 = lineLength next [] ∨ p = lineLength next [] + 2) ∨
      p = lineLength next [] + 1
  | next, d :: ds, p =>
      next ≠ noChunk ∧ p = 1 ∨
      p + 1 = lineLength next d ∧
        strstr (cString (((lead next ++ wire (d :: ds)).drop p).take 19)) crlf = none ∨
      ∃ q, p = lineLength next d + d.length + q ∧ BadSplit 0 ds q

instance decidableBadSplit (next : Nat) (ds : List Bytes) (p : Nat) :
    Decidable (BadSplit next ds p) :=
  match ds with
  | [] => inferInstanceAs (Decidable (_ ∨ _))
  | d :: ds =>
      have := decidableBadSplit 0 ds (p - (lineLength next d + d.length))
      decidable_of_iff
        (next ≠ noChunk ∧ p = 1 ∨
          p + 1 = lineLength next d ∧
            strstr (cString (((lead next ++ wire (d :: ds)).drop p).take 19)) crlf = none ∨
          lineLength next d + d.length ≤ p ∧
            BadSplit 0 ds (p - (lineLength next d + d.length)))
        (or_congr_right (or_congr_right
          ⟨fun h => ⟨_, (Nat.add_sub_cancel' h.1).symm, h.2⟩, fun ⟨q, hq, h⟩ => by
            subst hq
            exact ⟨Nat.le_add_right _ _, by rwa [Nat.add_sub_cancel_left]⟩⟩))

theorem lineLength_eq (next : Nat) (d : Bytes) :
    lineLength next d = (lead next).length + (numeral 16 d.length).length + 2 := by
  have hlength : (sizeLine d).length = (numeral 16 d.length).length + 2 := List.length_append
  rw [lineLength, hlength, Nat.add_assoc]

theorem lead_of_ne {next : Nat} (h : next ≠ noChunk) : (lead next).length = 2 := by
  rw [lead, if_neg h]
  rfl

theorem lead_length_add_three_le (next : Nat) (d : Bytes) :
    (lead next).length + 3 ≤ lineLength next d := by
  have hdigit := List.length_pos_iff.mpr (numeral_ne_nil 16 d.length)
  rw [lineLength_eq]
  omega

theorem not_badSplit_line {next : Nat} {ds : List Bytes} (hds : Fits ds) {p : Nat}
    (hlead : (lead next).length ≤ p) (hp : p ≤ lineLength next (ds.headD []))
    (hend : p + 1 ≠ lineLength next (ds.headD [])) : ¬ BadSplit next ds p := by
  have hline := lead_length_add_three_le next (ds.headD [])
  have hone : ¬ (next ≠ noChunk ∧ p = 1) := by
    rintro ⟨hnext, rfl⟩
    rw [lead_of_ne hnext] at hlead
    omega
  cases ds with
  | nil =>
      rw [List.headD_nil] at hp hend hline
      rintro (⟨hnext, rfl | hp' | hp'⟩ | hp')
      · exact hone ⟨hnext, rfl⟩
      · exact hend hp'
      · omega
      · omega
  | cons d ds =>
      rw [List.headD_cons] at hp hend hline
      have hd := List.length_pos_iff.mpr (hds d List.mem_cons_self).1
      rintro (hp' | ⟨hp', -⟩ | ⟨q, hp', -⟩)
      · exact hone hp'
      · exact hend hp'
      · omega

theorem not_badSplit_lead {ds : List Bytes} (hds : Fits ds) {p : Nat} (hp : p = 0 ∨ p = 2) :
    ¬ BadSplit 0 ds p := by
  have hlead : (lead 0).length = 2 := lead_of_ne (by decide)
  have hline := lead_length_add_three_le 0 (ds.headD [])
  rcases hp with rfl | rfl
  · cases ds with
    | nil =>
        rw [List.headD_nil] at hline
        rintro (⟨-, hp | hp | hp⟩ | hp)
        · omega
        · omega
        · omega
        · omega
    | cons d ds =>
        rw [List.headD_cons] at hline
        rintro (⟨-, hp⟩ | ⟨hp, -⟩ | ⟨q, hp, -⟩)
        · omega
        · omega
        · omega
  · exact not_badSplit_line hds hlead.le (by omega) (by omega)

theorem badSplit_behind {next : Nat} {d : Bytes} {ds : List Bytes} (hds : Fits (d :: ds)) {p : Nat}
    (hp : lineLength next d ≤ p) :
    BadSplit next (d :: ds) p ↔
      d.length < p - lineLength next d ∧ BadSplit 0 ds (p - lineLength next d - d.length) := by
  have hline := lead_length_add_three_le next d
  have hds' : Fits ds := fun e he => hds e (List.mem_cons_of_mem d he)
  constructor
  · rintro (⟨-, hp'⟩ | ⟨hp', -⟩ | ⟨q, hp', hq⟩)
    · omega
    · omega
    · have hpos : q ≠ 0 := by
        rintro rfl
        exact not_badSplit_lead hds' (Or.inl rfl) hq
      refine ⟨by omega, ?_⟩
      rwa [show p - lineLength next d - d.length = q by omega]
  · rintro ⟨hd, hq⟩
    exact Or.inr (Or.inr ⟨_, by omega, hq⟩)

end Splits

section Windows

theorem recv_arrived (bytes : Bytes) (n : Nat) (peek : Bool) :
    recv ⟨bytes, [], .closed⟩ n peek =
      .ok (⟨if peek then bytes else bytes.drop n, [], .closed⟩, some (bytes.take n)) := by
  cases bytes with
  | nil => simp [recv, awaitByte]
  | cons c bytes => rfl

theorem fetch_window {now : RecvBuffer} (hdata : now.data ≠ []) (pos : Nat) :
    recvBufferFetch now pos 20 =
      if now.len < pos then .error .outOfBounds else .ok (.ok ((now.data.drop pos).take 19)) := by
  have hbuffer : now.buffer.isSome := by
    rw [RecvBuffer.data] at hdata
    cases hbuffer : now.buffer with
    | none => simp [hbuffer] at hdata
    | some data => rfl
  rw [recvBufferFetch, if_pos ⟨hbuffer, by decide⟩]
  split
  · rfl
  · split
    · rename_i hshort
      rw [List.take_of_length_le]
      rw [List.length_drop]
      rw [RecvBuffer.len] at hshort
      omega
    · rfl

/-- The array the size line is looked for in: what was fetched, and NULs. -/
def hexArray (window : Bytes) : Bytes := overwrite (List.replicate 20 0) window

theorem hexArray_eq (window : Bytes) :
    hexArray window = window ++ List.replicate (20 - window.length) 0 := by
  rw [hexArray, overwrite, List.drop_replicate]

theorem cString_hexArray (window : Bytes) : cString (hexArray window) = cString window := by
  rw [hexArray_eq, cString, cString, List.takeWhile_append]
  split
  · rename_i hall
    rw [(List.takeWhile_prefix _).eq_of_length hall, List.takeWhile_replicate]
    simp
  · rfl

theorem strstr_overwrite {array peeked : Bytes} {i : Nat}
    (h : strstr (cString peeked) crlf = some i) :
    strstr (cString (overwrite array peeked)) crlf = some i :=
  strstr_extend (cString_mono (List.prefix_append _ _)) h

theorem strstr_overwrite_none {window peeked : Bytes} (hwindow : window.length ≤ 19)
    (hpeeked : peeked.length = 19 ∨ (0 : UInt8) ∈ peeked)
    (hnone : strstr (cString peeked) crlf = none) :
    strstr (cString (overwrite (hexArray window) peeked)) crlf = none := by
  have hsame : cString (overwrite (hexArray window) peeked) = cString peeked := by
    rw [overwrite, cString, cString, List.takeWhile_append]
    split
    · rename_i hall
      have hwhole := (List.takeWhile_prefix (· != (0 : UInt8)) (l := peeked)).eq_of_length hall
      rcases hpeeked with hfull | hzero
      · have hlast : (hexArray window).drop 19 = [0] := by
          rw [hexArray_eq, List.drop_append, List.drop_eq_nil_of_le hwindow, List.drop_replicate,
            show 20 - window.length - (19 - window.length) = 1 by omega]
          rfl
        rw [hwhole, hfull, hlast]
        simp
      · have hall' := List.all_takeWhile (l := peeked) (p := (· != (0 : UInt8)))
        rw [hwhole] at hall'
        simpa using List.all_eq_true.mp hall' 0 hzero
    · rfl
  rw [hsame, hnone]

theorem sizeLine_find (d : Bytes) :
    strstr (sizeLine d) crlf = some (numeral 16 d.length).length := by
  simpa [sizeLine] using crlf_first (cr_notMem_numeral d.length) []

theorem window_short {window d : Bytes} (hfront : window <+: sizeLine d)
    (hless : window.length < (sizeLine d).length) : strstr (cString window) crlf = none := by
  cases hfind : strstr (cString window) crlf with
  | none => rfl
  | some i =>
      have hwithin : cString window <+: window := List.takeWhile_prefix _
      obtain ⟨hline, -, hend⟩ := line_extend (hwithin.trans hfront) hfind
      have hshort := hwithin.length_le
      have hlength : (sizeLine d).length = (numeral 16 d.length).length + 2 := List.length_append
      rw [sizeLine_find, Option.some.injEq] at hline
      omega

theorem window_line {window d : Bytes} (hfront : sizeLine d <+: window) :
    strstr (cString window) crlf = some (numeral 16 d.length).length := by
  have hclean := cString_mono hfront
  rw [cString_eq_self (zero_notMem_sizeLine d)] at hclean
  exact strstr_extend hclean (sizeLine_find d)

theorem window_rest {peeked d : Bytes} {k : Nat} (hk : k ≤ (numeral 16 d.length).length)
    (hfront : (sizeLine d).drop k <+: peeked) :
    strstr (cString peeked) crlf = some ((numeral 16 d.length).length - k) := by
  have hrest : (sizeLine d).drop k = (numeral 16 d.length).drop k ++ crlf := by
    rw [sizeLine, List.drop_append_of_le_length hk]
  have hclean : (0 : UInt8) ∉ (sizeLine d).drop k := by
    exact fun hmem => zero_notMem_sizeLine d (List.mem_of_mem_drop hmem)
  have hcr : (13 : UInt8) ∉ (numeral 16 d.length).drop k := by
    exact fun hmem => cr_notMem_numeral d.length (List.mem_of_mem_drop hmem)
  have hwithin := cString_mono hfront
  rw [cString_eq_self hclean, hrest] at hwithin
  have hfind := crlf_first hcr []
  rw [List.append_nil, List.length_drop] at hfind
  exact strstr_extend hwithin hfind

end Windows

section Turns

/-- The mode of the decoder behind `total` bytes of data. -/
def nextAt (total : Nat) : Nat := if total = 0 then noChunk else 0

theorem lead_nextAt (total : Nat) : (lead (nextAt total)).length = if total = 0 then 0 else 2 := by
  rw [nextAt]
  split
  · rfl
  · rfl

/-- A buffer that ends `p` bytes into a stream, behind the data found so far. -/
def broken (found stream : Bytes) (p : Nat) (mode : RecvBufferLength) : RecvBuffer :=
  ⟨some (found ++ stream.take p), mode, ⟨stream.drop p, [], .closed⟩⟩

variable {found stream : Bytes} {p : Nat} {mode : RecvBufferLength}

/-- What `recvBufferFetch` copies of the bytes buffered behind the data. -/
def window (found stream : Bytes) (p : Nat) : Bytes :=
  ((stream.take p).drop (lead (nextAt found.length)).length).take 19

theorem broken_len (hp : p ≤ stream.length) :
    (broken found stream p mode).len = found.length + p := by
  rw [RecvBuffer.len, RecvBuffer.data, broken, Option.getD_some, List.length_append,
    List.length_take_of_le hp]

theorem broken_fetch (hpos : 0 < p) (hp : p ≤ stream.length) :
    recvBufferFetch (broken found stream p mode)
        (if found.length = 0 then 0 else found.length + 2) 20 =
      if p < (lead (nextAt found.length)).length then .error .outOfBounds
      else .ok (.ok (window found stream p)) := by
  have hdata : (broken found stream p mode).data ≠ [] := by
    rw [← List.length_pos_iff, ← RecvBuffer.len, broken_len hp]
    omega
  have hplace : (if found.length = 0 then 0 else found.length + 2) =
      found.length + (lead (nextAt found.length)).length := by
    rw [lead_nextAt]
    split
    · omega
    · rfl
  have hbehind : (broken found stream p mode).data.drop
      (found.length + (lead (nextAt found.length)).length) =
        (stream.take p).drop (lead (nextAt found.length)).length := by
    rw [RecvBuffer.data, broken, Option.getD_some, List.drop_append, List.drop_eq_nil_of_le
      (Nat.le_add_right _ _), List.nil_append, Nat.add_sub_cancel_left]
  rw [hplace, fetch_window hdata, hbehind, broken_len hp, window]
  simp only [Nat.add_lt_add_iff_left]

theorem find_within {hay : Bytes} {i : Nat} (hfind : strstr (cString hay) crlf = some i) :
    i + 2 ≤ hay.length := by
  obtain ⟨-, -, hend⟩ := line_extend List.prefix_rfl hfind
  exact hend.trans (List.takeWhile_prefix _).length_le

theorem turn_outOfBounds (hpos : 0 < p) (hp : p ≤ stream.length)
    (hlead : p < (lead (nextAt found.length)).length) :
    parseExistingTurn (broken found stream p mode, found.length) = .error .outOfBounds := by
  have hmore : found.length < (broken found stream p mode).len := by
    rw [broken_len hp]
    omega
  simp only [parseExistingTurn, hmore, if_true, broken_fetch hpos hp, hlead, error_bind]

theorem turn_line (hpos : 0 < p) (hp : p ≤ stream.length)
    (hlead : (lead (nextAt found.length)).length ≤ p) {finish size : Nat}
    (hfind : strstr (cString (window found stream p)) crlf = some finish)
    (hsize : ioHttpBodyChunkHexToSize ((window found stream p).take finish) = .ok size) :
    parseExistingTurn (broken found stream p mode, found.length) =
      .ok (.again (⟨some (found ++ (stream.take p).drop
          ((lead (nextAt found.length)).length + finish + 2)), mode, ⟨stream.drop p, [], .closed⟩⟩,
        (found.length + size) % 2 ^ 64)) := by
  have hmore : found.length < (broken found stream p mode).len := by
    rw [broken_len hp]
    omega
  have hfind' : strstr (cString (overwrite (List.replicate 20 0) (window found stream p))) crlf =
      some finish := by
    rwa [← hexArray, cString_hexArray]
  have hsize' : ioHttpBodyChunkHexToSize
      ((overwrite (List.replicate 20 0) (window found stream p)).take finish) = .ok size := by
    have hend := find_within hfind
    rwa [overwrite, List.take_append_of_le_length (by omega)]
  have hcut : (broken found stream p mode).data.drop
      (found.length + finish + if found.length = 0 then 2 else 4) =
        (stream.take p).drop ((lead (nextAt found.length)).length + finish + 2) := by
    have hplace : (found.length + finish + if found.length = 0 then 2 else 4) =
        found.length + ((lead (nextAt found.length)).length + finish + 2) := by
      rw [lead_nextAt]
      split
      · omega
      · omega
    rw [hplace, RecvBuffer.data, broken, Option.getD_some, List.drop_append,
      List.drop_eq_nil_of_le (Nat.le_add_right _ _), List.nil_append, Nat.add_sub_cancel_left]
  have hkept : (broken found stream p mode).data.take found.length = found := List.take_left
  simp only [parseExistingTurn, hmore, if_true, broken_fetch hpos hp, Nat.not_lt.mpr hlead,
    if_false, ok_bind, Except.toOption, Option.getD_some, hfind', hsize', hcut, hkept]
  rfl

theorem turn_drop (hpos : 0 < p) (hp : p ≤ stream.length)
    (hlead : (lead (nextAt found.length)).length ≤ p)
    (hnone : strstr (cString (window found stream p)) crlf = none)
    (hpeek : strstr (cString (overwrite (hexArray (window found stream p))
      ((stream.drop p).take 19))) crlf = none) :
    parseExistingTurn (broken found stream p mode, found.length) = .ok (.leave none) := by
  have hmore : found.length < (broken found stream p mode).len := by
    rw [broken_len hp]
    omega
  have hnone' : strstr (cString (overwrite (List.replicate 20 0) (window found stream p))) crlf =
      none := by
    rwa [← hexArray, cString_hexArray]
  have hrecv : recv (broken found stream p mode).serverSocket 19 true =
      .ok (⟨stream.drop p, [], .closed⟩, some ((stream.drop p).take 19)) := recv_arrived _ _ _
  rw [hexArray] at hpeek
  simp only [parseExistingTurn, hmore, if_true, broken_fetch hpos hp, Nat.not_lt.mpr hlead,
    if_false, ok_bind, Except.toOption, Option.getD_some, hnone', hrecv, hpeek]

theorem turn_refill (hpos : 0 < p) (hp : p ≤ stream.length)
    (hlead : (lead (nextAt found.length)).length ≤ p)
    (hnone : strstr (cString (window found stream p)) crlf = none) {q : Nat}
    (hpeek : strstr (cString ((stream.drop p).take 19)) crlf = some q) :
    p + q + 2 ≤ stream.length ∧
      parseExistingTurn (broken found stream p mode, found.length) =
        .ok (.again (broken found stream (p + q + 2) mode, found.length)) := by
  have hmore : found.length < (broken found stream p mode).len := by
    rw [broken_len hp]
    omega
  have hend := find_within hpeek
  have hwithin : q + 2 ≤ (stream.drop p).length := hend.trans (List.length_take_le' _ _)
  have hnone' : strstr (cString (overwrite (List.replicate 20 0) (window found stream p))) crlf =
      none := by
    rwa [← hexArray, cString_hexArray]
  have hrecv : recv (broken found stream p mode).serverSocket 19 true =
      .ok (⟨stream.drop p, [], .closed⟩, some ((stream.drop p).take 19)) := recv_arrived _ _ _
  have htake : recv ⟨stream.drop p, [], .closed⟩ (q + 2) false =
      .ok (⟨stream.drop (p + q + 2), [], .closed⟩, some ((stream.drop p).take (q + 2))) := by
    rw [recv_arrived, if_neg Bool.false_ne_true, List.drop_drop, ← Nat.add_assoc]
  have hmoved : (overwrite (overwrite (List.replicate 20 0) (window found stream p))
      ((stream.drop p).take 19)).take (q + 2) = (stream.drop p).take (q + 2) := by
    rw [overwrite, List.take_append_of_le_length hend, List.take_take]
    congr 1
    rw [List.length_take] at hend
    omega
  have hgrown : (found ++ stream.take p) ++ (stream.drop p).take (q + 2) =
      found ++ stream.take (p + q + 2) := by
    rw [List.append_assoc, ← List.take_add, Nat.add_assoc]
  have hstate : (⟨some ((found ++ stream.take p) ++ (stream.drop p).take (q + 2)), mode,
      ⟨stream.drop (p + q + 2), [], .closed⟩⟩ : RecvBuffer) = broken found stream (p + q + 2) mode := by
    rw [hgrown]
    rfl
  refine ⟨?_, ?_⟩
  · rw [List.length_drop] at hwithin
    omega
  · simp only [parseExistingTurn, hmore, if_true, broken_fetch hpos hp, Nat.not_lt.mpr hlead,
      if_false, ok_bind, Except.toOption, Option.getD_some, hnone', hrecv,
      strstr_overwrite hpeek, htake, hmoved, bufferAppend]
    rw [← hstate]
    rfl

end Turns

section Existing

/-- The buffer holds data only, and the size of the chunk it ends in, or nothing but the end of the
last line is left to be read. -/
inductive Settled (body : Bytes) : RecvBuffer × Nat → Prop where
  | data {now : RecvBuffer} {total : Nat} {x : Bytes} {ds : List Bytes} (hds : Fits ds)
      (hbody : now.data ++ (x ++ ds.flatten) = body)
      (hrest : now.serverSocket = ⟨x ++ (crlf ++ wire ds), [], .closed⟩)
      (htotal : total = now.len + x.length) : Settled body (now, total)
  | ended {now : RecvBuffer} {total : Nat} {rest : Bytes} (hbody : now.data = body)
      (hrest : now.serverSocket = ⟨rest, [], .closed⟩) (hshort : rest.length ≤ 2)
      (htotal : total = now.len) : Settled body (now, total)

/-- Where `HttpChunkParseExistingBuffer` stands between two turns; `bad` tells whether the place
the stream was broken off at is one. -/
inductive Parsing (body : Bytes) (bad : Prop) : RecvBuffer × Nat → Prop where
  | line {found : Bytes} {ds : List Bytes} {p : Nat} {mode : RecvBufferLength} (hds : Fits ds)
      (hbody : found ++ ds.flatten = body) (hpos : 0 < p)
      (hp : p ≤ (lead (nextAt found.length) ++ wire ds).length)
      (hbad : bad ↔ BadSplit (nextAt found.length) ds p) :
      Parsing body bad (broken found (lead (nextAt found.length) ++ wire ds) p mode, found.length)
  | behind {p : Nat} {mode : RecvBufferLength} (hpos : 0 < p) (hp : p ≤ 2)
      (hbad : bad ↔ p = 1 ∨ body ≠ []) : Parsing body bad (broken body crlf p mode, body.length)
  | settled {s : RecvBuffer × Nat} (h : Settled body s) (hgood : ¬ bad) : Parsing body bad s

def cost (s : RecvBuffer × Nat) : Nat := 21 * s.1.serverSocket.rest.length + s.1.len

/-- What a turn does: it fails where the stream was broken off badly, and goes on or comes out with
what is settled elsewhere. -/
inductive Goes (body : Bytes) (bad : Prop) (s : RecvBuffer × Nat) : Prop where
  | fails (hbad : bad) (hturn : parseExistingTurn s = .error .outOfBounds ∨
      parseExistingTurn s = .ok (.leave none))
  | again {s' : RecvBuffer × Nat} (hturn : parseExistingTurn s = .ok (.again s'))
      (hnext : Parsing body bad s') (hcost : cost s' < cost s)
  | leaves (hgood : ¬ bad) (hsettled : Settled body s)
      (hturn : parseExistingTurn s = .ok (.leave (some s)))

theorem cost_eq (data rest : Bytes) (mode : RecvBufferLength) (total : Nat) :
    cost (⟨some data, mode, ⟨rest, [], .closed⟩⟩, total) = 21 * rest.length + data.length := by
  rw [cost, Socket.rest, List.flatten_nil, List.append_nil]
  rfl

theorem cost_broken {found stream : Bytes} {p : Nat} {mode : RecvBufferLength} (total : Nat)
    (hp : p ≤ stream.length) :
    cost (broken found stream p mode, total) =
      21 * (stream.length - p) + (found.length + p) := by
  rw [broken, cost_eq, List.length_drop, List.length_append, List.length_take_of_le hp]

theorem Settled.leaves {body : Bytes} {s : RecvBuffer × Nat} (h : Settled body s) :
    parseExistingTurn s = .ok (.leave (some s)) := by
  cases h with
  | @data now total x ds hds hbody hrest htotal =>
      have hdone : ¬ total < now.len := by omega
      simp only [parseExistingTurn, hdone, if_false]
  | @ended now total rest hbody hrest hshort htotal =>
      have hdone : ¬ total < now.len := by omega
      simp only [parseExistingTurn, hdone, if_false]

theorem nextAt_ne_iff {total : Nat} : nextAt total ≠ noChunk ↔ total ≠ 0 := by
  rw [nextAt]
  split
  · simp_all
  · rename_i hsome
    exact ⟨fun _ => hsome, fun _ => by decide⟩

variable {body : Bytes} {bad : Prop} {found : Bytes} {ds : List Bytes} {p : Nat}
  {mode : RecvBufferLength}

theorem goes_lead (hpos : 0 < p) (hp : p ≤ (lead (nextAt found.length) ++ wire ds).length)
    (hlead : p < (lead (nextAt found.length)).length)
    (hbad : bad ↔ BadSplit (nextAt found.length) ds p) :
    Goes body bad
      (broken found (lead (nextAt found.length) ++ wire ds) p mode, found.length) := by
  apply Goes.fails
  · have hnext : nextAt found.length ≠ noChunk := by
      intro hfirst
      rw [lead, if_pos hfirst, List.length_nil] at hlead
      omega
    rw [lead_of_ne hnext] at hlead
    have hone : p = 1 := by omega
    rw [hbad]
    cases ds with
    | nil => exact Or.inl ⟨hnext, Or.inl hone⟩
    | cons d ds => exact Or.inl ⟨hnext, hone⟩
  · exact Or.inl (turn_outOfBounds hpos hp hlead)

theorem window_lead (found s : Bytes) (p : Nat) :
    window found (lead (nextAt found.length) ++ s) p =
      (s.take (p - (lead (nextAt found.length)).length)).take 19 := by
  rw [window, List.drop_take, List.drop_left]

theorem drop_lead {next : Nat} {s : Bytes} (hlead : (lead next).length ≤ p) :
    (lead next ++ s).drop p = s.drop (p - (lead next).length) := by
  rw [List.drop_append, List.drop_eq_nil_of_le hlead, List.nil_append]

theorem sizeLine_front (ds : List Bytes) : sizeLine (ds.headD []) <+: wire ds := by
  rw [wire_front ds]
  exact List.prefix_append _ _

theorem headD_fits (hds : Fits ds) : (ds.headD []).length < 2 ^ 60 := by
  cases ds with
  | nil => decide
  | cons d ds => exact (hds d List.mem_cons_self).2

theorem window_none (hp : p < lineLength (nextAt found.length) (ds.headD [])) :
    strstr (cString (window found (lead (nextAt found.length) ++ wire ds) p)) crlf = none := by
  have hless : p - (lead (nextAt found.length)).length < (sizeLine (ds.headD [])).length := by
    rw [lineLength] at hp
    have hsome := lead_length_add_three_le (nextAt found.length) (ds.headD [])
    rw [lineLength] at hsome
    omega
  have hfront : window found (lead (nextAt found.length) ++ wire ds) p <+:
      (sizeLine (ds.headD [])).take (p - (lead (nextAt found.length)).length) := by
    rw [window_lead, ← List.take_append_of_le_length hless.le, ← wire_front]
    exact List.take_prefix _ _
  apply window_short (hfront.trans (List.take_prefix _ _))
  have hlength := hfront.length_le
  rw [List.length_take] at hlength
  omega

theorem goes_refill (hds : Fits ds) (hbody : found ++ ds.flatten = body) (hpos : 0 < p)
    (hlead : (lead (nextAt found.length)).length ≤ p)
    (hline : p + 2 ≤ lineLength (nextAt found.length) (ds.headD []))
    (hp : p ≤ (lead (nextAt found.length) ++ wire ds).length)
    (hbad : bad ↔ BadSplit (nextAt found.length) ds p) :
    Goes body bad
      (broken found (lead (nextAt found.length) ++ wire ds) p mode, found.length) := by
  have hlength := lineLength_eq (nextAt found.length) (ds.headD [])
  have hfit : lineLength (nextAt found.length) (ds.headD []) ≤ 19 := lineLength_le (headD_fits hds)
  have hfront : (sizeLine (ds.headD [])).drop (p - (lead (nextAt found.length)).length) <+:
      ((lead (nextAt found.length) ++ wire ds).drop p).take 19 := by
    rw [drop_lead hlead, List.prefix_take_iff]
    refine ⟨(sizeLine_front ds).drop _, ?_⟩
    rw [List.length_drop]
    rw [lineLength] at hfit
    omega
  have hpeek := window_rest (by omega) hfront
  obtain ⟨hend, hturn⟩ := @turn_refill found _ p mode hpos hp hlead (window_none (by omega)) _ hpeek
  have hplace : p + ((numeral 16 (ds.headD []).length).length -
      (p - (lead (nextAt found.length)).length)) + 2 =
        lineLength (nextAt found.length) (ds.headD []) := by omega
  rw [hplace] at hend hturn
  refine .again hturn (.line hds hbody (by omega) hend ?_) ?_
  · rw [hbad]
    have hhere := not_badSplit_line hds hlead (by omega) (by omega)
    have hthere := not_badSplit_line hds (hlead.trans (by omega)) le_rfl (Nat.succ_ne_self _)
    exact ⟨fun h => absurd h hhere, fun h => absurd h hthere⟩
  · rw [cost_broken _ hp, cost_broken _ hend]
    omega

theorem drop_lineEnd {next : Nat} (ds : List Bytes) (hend : p + 1 = lineLength next (ds.headD [])) :
    (lead next ++ wire ds).drop p = 10 :: behindLine ds := by
  have hsize : lead next ++ sizeLine (ds.headD []) =
      (lead next ++ numeral 16 (ds.headD []).length ++ [13]) ++ [10] := by
    rw [sizeLine, List.append_assoc, List.append_assoc]
    rfl
  have hlength : (lead next ++ numeral 16 (ds.headD []).length ++ [13]).length = p := by
    rw [lineLength_eq] at hend
    rw [List.length_append, List.length_append, List.length_singleton]
    omega
  rw [wire_front ds, ← List.append_assoc, hsize, List.append_assoc, ← hlength, List.drop_left]
  rfl

theorem lineEnd_place {d rest : Bytes} {q : Nat}
    (hfind : strstr (10 :: (d ++ (crlf ++ rest))) crlf = some q) : q < d.length ∨ q = d.length + 1 := by
  obtain ⟨hat, -, hfirst⟩ := strstr_eq_some_iff.mp hfind
  have hthere : crlf <+: (10 :: (d ++ (crlf ++ rest))).drop (d.length + 1) := by
    rw [List.drop_succ_cons, List.drop_left]
    exact List.prefix_append _ _
  have hle : q ≤ d.length + 1 := Nat.not_lt.mp fun hlate => hfirst _ hlate hthere
  have hne : q ≠ d.length := by
    rintro rfl
    have hget := List.IsPrefix.getElem hat (i := 1) (by decide)
    simp [crlf] at hget
  omega

/-- Between the two characters of the end of a size line the buffer is filled up to the next line
end in the window, wherever it is, and the connection is dropped if there is none. -/
theorem goes_lineEnd (hds : Fits ds) (hbody : found ++ ds.flatten = body) (hpos : 0 < p)
    (hline : p + 1 = lineLength (nextAt found.length) (ds.headD []))
    (hp : p ≤ (lead (nextAt found.length) ++ wire ds).length)
    (hbad : bad ↔ BadSplit (nextAt found.length) ds p) :
    Goes body bad
      (broken found (lead (nextAt found.length) ++ wire ds) p mode, found.length) := by
  have hsome := lead_length_add_three_le (nextAt found.length) (ds.headD [])
  have hlead : (lead (nextAt found.length)).length ≤ p := by omega
  have hrest := drop_lineEnd ds hline
  have hnone := @window_none found ds p (by omega)
  cases hpeek : strstr (cString (((lead (nextAt found.length) ++ wire ds).drop p).take 19)) crlf with
  | some q =>
      obtain ⟨hend, hturn⟩ := @turn_refill found _ p mode hpos hp hlead hnone q hpeek
      refine .again hturn (.line hds hbody (by omega) hend ?_) ?_
      · rw [hbad]
        have hfind := strstr_extend ((List.takeWhile_prefix _).trans (List.take_prefix 19 _)) hpeek
        rw [hrest] at hfind
        cases ds with
        | nil =>
            obtain rfl : 1 = q := Option.some.inj hfind
            rw [List.headD_nil] at hline hsome
            constructor
            · rintro (⟨hnext, -⟩ | hp')
              · exact Or.inl ⟨hnext, Or.inr (Or.inr (by omega))⟩
              · omega
            · rintro (⟨hnext, -⟩ | hp')
              · exact Or.inl ⟨hnext, Or.inr (Or.inl hline)⟩
              · omega
        | cons d ds =>
            rw [List.headD_cons] at hline hsome
            have hplace := lineEnd_place hfind
            have hds' : Fits ds := fun e he => hds e (List.mem_cons_of_mem d he)
            rw [badSplit_behind (p := p + q + 2) hds (by omega)]
            constructor
            · rintro (⟨-, hone⟩ | ⟨-, hnone'⟩ | ⟨k, hk, -⟩)
              · omega
              · rw [hpeek] at hnone'
                contradiction
              · omega
            · rintro ⟨hlate, hagain⟩
              apply absurd hagain
              apply not_badSplit_lead hds'
              omega
      · rw [cost_broken _ hp, cost_broken _ hend]
        omega
  | none =>
      apply Goes.fails
      · rw [hbad]
        cases ds with
        | nil =>
            rw [hrest] at hpeek
            contradiction
        | cons d ds => exact Or.inr (Or.inl ⟨hline, hpeek⟩)
      · right
        apply turn_drop hpos hp hlead hnone
        refine strstr_overwrite_none (List.length_take_le _ _) ?_ hpeek
        -- a shorter window shows the line end behind the data, or a NUL in front of it
        by_contra hshort
        rw [not_or] at hshort
        obtain ⟨hless, hzero⟩ := hshort
        rw [List.length_take] at hless
        rw [cString_eq_self hzero, List.take_of_length_le (by omega), hrest,
          strstr_eq_none_iff] at hpeek
        apply hpeek
        cases ds with
        | nil => exact List.infix_cons List.infix_rfl
        | cons d ds => exact ⟨10 :: d, wire ds, by simp [behindLine]⟩

theorem turn_sizeLine (hds : Fits ds) (hbody : found.length + (ds.headD []).length < 2 ^ 60)
    (hline : lineLength (nextAt found.length) (ds.headD []) ≤ p)
    (hp : p ≤ (lead (nextAt found.length) ++ wire ds).length) :
    parseExistingTurn
        (broken found (lead (nextAt found.length) ++ wire ds) p mode, found.length) =
      .ok (.again (⟨some (found ++
            (behindLine ds).take (p - lineLength (nextAt found.length) (ds.headD []))), mode,
          ⟨(behindLine ds).drop (p - lineLength (nextAt found.length) (ds.headD [])), [], .closed⟩⟩,
        found.length + (ds.headD []).length)) := by
  have hlength := lineLength_eq (nextAt found.length) (ds.headD [])
  have hfit : lineLength (nextAt found.length) (ds.headD []) ≤ 19 := lineLength_le (headD_fits hds)
  have hsize : (sizeLine (ds.headD [])).length = (numeral 16 (ds.headD []).length).length + 2 :=
    List.length_append
  have hfront : sizeLine (ds.headD []) <+:
      window found (lead (nextAt found.length) ++ wire ds) p := by
    rw [window_lead, List.prefix_take_iff, List.prefix_take_iff]
    refine ⟨⟨sizeLine_front ds, by omega⟩, by omega⟩
  have hdigits : (window found (lead (nextAt found.length) ++ wire ds) p).take
      (numeral 16 (ds.headD []).length).length = numeral 16 (ds.headD []).length := by
    obtain ⟨rest, hrest⟩ := hfront
    rw [← hrest, sizeLine, List.append_assoc, List.take_left]
  have hread : ioHttpBodyChunkHexToSize ((window found (lead (nextAt found.length) ++ wire ds) p).take
      (numeral 16 (ds.headD []).length).length) = .ok (ds.headD []).length := by
    rw [hdigits]
    exact ioHttpBodyChunkHexToSize_numeral ((headD_fits hds).trans (by decide))
  have hrest : (lead (nextAt found.length) ++ wire ds).drop p = (behindLine ds).drop
      (p - lineLength (nextAt found.length) (ds.headD [])) := by
    rw [← drop_line (nextAt found.length), List.drop_drop, Nat.add_sub_cancel' hline]
  have hturn := @turn_line found _ p mode (by omega) hp (by omega) _ _ (window_line hfront) hread
  rw [hturn, ← hlength, List.drop_take, Nat.mod_eq_of_lt (hbody.trans (by decide)), hrest, drop_line]

theorem goes_sizeLine (hds : Fits ds) (hbody : found ++ ds.flatten = body)
    (hless : body.length < 2 ^ 60)
    (hline : lineLength (nextAt found.length) (ds.headD []) ≤ p)
    (hp : p ≤ (lead (nextAt found.length) ++ wire ds).length)
    (hbad : bad ↔ BadSplit (nextAt found.length) ds p) :
    Goes body bad
      (broken found (lead (nextAt found.length) ++ wire ds) p mode, found.length) := by
  have hsome := lead_length_add_three_le (nextAt found.length) (ds.headD [])
  have hlead : (lead (nextAt found.length)).length ≤ p := by omega
  have hbound : found.length + (ds.headD []).length < 2 ^ 60 := by
    rw [← hbody, List.length_append] at hless
    cases ds with
    | nil => exact hless
    | cons d ds =>
        rw [List.flatten_cons, List.length_append] at hless
        rw [List.headD_cons]
        omega
  have hwhole : (lead (nextAt found.length) ++ wire ds).length =
      lineLength (nextAt found.length) (ds.headD []) + (behindLine ds).length := by
    rw [wire_front ds, ← List.append_assoc, List.length_append, List.length_append, lineLength]
  obtain ⟨k, rfl⟩ := Nat.exists_eq_add_of_le hline
  have hk : k ≤ (behindLine ds).length := by omega
  have hturn := @turn_sizeLine found ds _ mode hds hbound hline hp
  rw [Nat.add_sub_cancel_left] at hturn
  refine .again hturn ?_ ?_
  · cases ds with
    | nil =>
        obtain rfl : found = body := by simpa using hbody
        rw [behindLine] at hk ⊢
        have hcrlf : crlf.length = 2 := rfl
        rcases Nat.eq_zero_or_pos k with rfl | hpos
        · refine .settled (.ended (List.append_nil _) rfl le_rfl ?_) ?_
          · simp [RecvBuffer.len, RecvBuffer.data]
          · rw [hbad]
            exact not_badSplit_line hds hlead le_rfl (Nat.succ_ne_self _)
        · refine .behind hpos (by omega) ?_
          rw [hbad, BadSplit, nextAt_ne_iff, ← List.length_pos_iff, Nat.pos_iff_ne_zero]
          rw [List.headD_nil]
          constructor
          · rintro (⟨hsome, -⟩ | hone)
            · exact Or.inr hsome
            · exact Or.inl (by omega)
          · rintro (rfl | hsome)
            · exact Or.inr rfl
            · obtain rfl | rfl : k = 1 ∨ k = 2 := by omega
              · exact Or.inr rfl
              · exact Or.inl ⟨hsome, Or.inr (Or.inr rfl)⟩
    | cons d ds =>
        rw [List.headD_cons] at hbad ⊢
        rw [badSplit_behind hds (Nat.le_add_right _ _), Nat.add_sub_cancel_left] at hbad
        rw [behindLine] at hk ⊢
        rcases Nat.lt_or_ge d.length k with hlate | hearly
        · obtain ⟨m, rfl⟩ := Nat.exists_eq_add_of_le hlate.le
          rw [Nat.add_sub_cancel_left] at hbad
          have hd := List.length_pos_iff.mpr (hds d List.mem_cons_self).1
          have hnext : nextAt (found ++ d).length = 0 := by
            rw [nextAt, if_neg]
            rw [List.length_append]
            omega
          have hlead' : lead (nextAt (found ++ d).length) = crlf := by
            rw [hnext]
            rfl
          have hstate : (⟨some (found ++ (d ++ (crlf ++ wire ds)).take (d.length + m)), mode,
              ⟨(d ++ (crlf ++ wire ds)).drop (d.length + m), [], .closed⟩⟩ : RecvBuffer) =
                broken (found ++ d) (lead (nextAt (found ++ d).length) ++ wire ds) m mode := by
            rw [hlead', broken, List.take_length_add_append, List.drop_length_add_append,
              List.append_assoc]
          rw [hstate, ← List.length_append]
          refine .line (fun e he => hds e (List.mem_cons_of_mem d he)) ?_ (by omega) ?_ ?_
          · rw [← hbody, List.flatten_cons, List.append_assoc]
          · rw [hlead']
            rw [List.length_append] at hk
            omega
          · rw [hbad, hnext]
            exact and_iff_right hlate
        · refine .settled (.data (x := d.drop k) (fun e he => hds e (List.mem_cons_of_mem d he))
            ?_ ?_ ?_) ?_
          · show found ++ (d ++ (crlf ++ wire ds)).take k ++ (d.drop k ++ ds.flatten) = body
            rw [List.take_append_of_le_length hearly, List.append_assoc,
              ← List.append_assoc (d.take k), List.take_append_drop, ← hbody, List.flatten_cons]
          · show Socket.mk _ _ _ = _
            rw [List.drop_append_of_le_length hearly]
          · rw [RecvBuffer.len, RecvBuffer.data, Option.getD_some,
              List.take_append_of_le_length hearly, List.length_append, List.length_take_of_le hearly,
              List.length_drop]
            omega
          · rw [hbad]
            exact fun h => absurd h.1 (Nat.not_lt.mpr hearly)
  · rw [cost_broken _ hp, cost_eq, List.length_drop, List.length_append,
      List.length_take_of_le hk, hwhole]
    omega

theorem goes_behind (hpos : 0 < p) (hp : p ≤ 2) (hbad : bad ↔ p = 1 ∨ body ≠ []) :
    Goes body bad (broken body crlf p mode, body.length) := by
  have hlead := lead_nextAt body.length
  by_cases hempty : body = []
  · subst hempty
    obtain rfl | rfl : p = 1 ∨ p = 2 := by omega
    · refine .fails (hbad.mpr (Or.inl rfl)) (Or.inr ?_)
      exact turn_drop (by decide) (by decide) (by decide) (by decide) (by decide)
    · have hturn := @turn_line [] crlf 2 mode (by decide) (by decide) (by decide) 0 0 (by decide) rfl
      refine .again hturn (.settled (.ended rfl rfl (by decide) rfl) ?_) ?_
      · rw [hbad]
        decide
      · rw [cost_broken _ (by decide), cost_eq]
        decide
  · have hsome : body.length ≠ 0 := fun h => hempty (List.eq_nil_of_length_eq_zero h)
    rw [if_neg hsome] at hlead
    refine .fails (hbad.mpr (Or.inr hempty)) ?_
    obtain rfl | rfl : p = 1 ∨ p = 2 := by omega
    · exact Or.inl (turn_outOfBounds (by decide) (by decide) (by omega))
    · have hwindow : window body crlf 2 = [] := by
        rw [window, hlead]
        rfl
      refine Or.inr (turn_drop (by decide) (by decide) (by omega) ?_ ?_)
      · rw [hwindow]
        rfl
      · rw [hwindow]
        decide

theorem Parsing.goes {s : RecvBuffer × Nat} (h : Parsing body bad s) (hless : body.length < 2 ^ 60) :
    Goes body bad s := by
  cases h with
  | @line found ds p mode hds hbody hpos hp hbad =>
      by_cases hlead : (lead (nextAt found.length)).length ≤ p
      · rcases Nat.lt_or_ge p (lineLength (nextAt found.length) (ds.headD [])) with hshort | hline
        · by_cases hend : p + 1 = lineLength (nextAt found.length) (ds.headD [])
          · exact goes_lineEnd hds hbody hpos hend hp hbad
          · exact goes_refill hds hbody hpos hlead (by omega) hp hbad
        · exact goes_sizeLine hds hbody hless hline hp hbad
      · exact goes_lead hpos hp (Nat.not_le.mp hlead) hbad
  | behind hpos hp hbad => exact goes_behind hpos hp hbad
  | settled hsettled hgood => exact .leaves hgood hsettled hsettled.leaves

/-- A stream that was broken off badly leads to no buffer that can be read on from, any other to
one that is settled. -/
theorem existing_settles {self : RecvBuffer} (hless : body.length < 2 ^ 60)
    (h : Parsing body bad (self, 0)) :
    (¬ bad → ∃ now total, Settled body (now, total) ∧ httpChunkParseExistingBuffer self =
      .ok { now with length := .chunk ((total + (2 ^ 64 - now.len)) % 2 ^ 64) total }) ∧
    (bad → ∀ start, httpChunkParseExistingBuffer self = .ok start →
      start.length = .unknown 0 0 ∧ start.serverSocket = ⟨[], [], .failed⟩) := by
  constructor
  · intro hgood
    obtain ⟨r, hrun, s, rfl, hsettled⟩ : ∃ r, run parseExistingTurn
        (21 * self.serverSocket.rest.length + self.len + 1) (self, 0) = .ok r ∧
          ∃ s, r = some s ∧ Settled body s := by
      apply run_total (Parsing body bad) cost
      · intro s hs
        cases hs.goes hless with
        | fails hbad => exact absurd hbad hgood
        | again hturn hnext hcost => exact ⟨_, hturn, hnext, hcost⟩
        | leaves _ hsettled hturn => exact ⟨_, hturn, _, rfl, hsettled⟩
      · exact h
      · exact Nat.lt_succ_self _
    obtain ⟨now, total⟩ := s
    refine ⟨now, total, hsettled, ?_⟩
    rw [httpChunkParseExistingBuffer, hrun]
    rfl
  · intro hbad start hstart
    rw [httpChunkParseExistingBuffer, bind_eq_ok_iff] at hstart
    obtain ⟨r, hrun, hstart⟩ := hstart
    obtain rfl : r = none := by
      refine run_partial (Parsing body bad) (· = none) ?_ ?_ h hrun
      · intro s s' hs hagain
        cases hs.goes hless with
        | fails _ hturn =>
            rcases hturn with hturn | hturn
            · rw [hturn] at hagain
              contradiction
            · rw [hturn] at hagain
              simp at hagain
        | again hturn hnext _ =>
            rw [hturn] at hagain
            obtain rfl : _ = s' := by simpa using hagain
            exact hnext
        | leaves hgood => exact absurd hbad hgood
      · intro s r hs hleave
        cases hs.goes hless with
        | fails _ hturn =>
            rcases hturn with hturn | hturn
            · rw [hturn] at hleave
              contradiction
            · rw [hturn] at hleave
              obtain rfl : none = r := by simpa using hleave
              rfl
        | again hturn _ _ =>
            rw [hturn] at hleave
            simp at hleave
        | leaves hgood => exact absurd hbad hgood
    obtain rfl := Except.ok.inj hstart
    exact ⟨rfl, rfl⟩

end Existing

end Newth.Client.ExistingChunks
