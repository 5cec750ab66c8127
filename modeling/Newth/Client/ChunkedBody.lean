import Newth.Library.Runs
import Newth.Client.ChunkTurns

namespace Newth.Client.ChunkedBody

open Newth.Library.ByteString
open Newth.Library.Call
open Newth.Library.Chunked
open Newth.Library.Numeral
open Newth.Library.Runs
open Newth.Client.Recvbufr
open Newth.Client.ChunkTurns

section SizeLines

theorem crlf_first {s : Bytes} (hs : (13 : UInt8) ∉ s) (rest : Bytes) :
    strstr (s ++ crlf ++ rest) crlf = some s.length := by
  apply strstr_append
  intro j hj hpre
  rw [List.append_assoc, List.drop_append_of_le_length hj.le, List.drop_eq_getElem_cons hj] at hpre
  have hhead := (List.cons_prefix_cons.mp hpre).1
  exact hs (hhead ▸ List.getElem_mem hj)

theorem cr_notMem_numeral (n : Nat) : (13 : UInt8) ∉ numeral 16 n :=
  notMem_numeral (by decide) (by decide) (by decide)

/-- What stands between the data of a chunk and the next size line. -/
def lead (next : Nat) : Bytes := if next = noChunk then [] else crlf

/-- The bytes in front of the data of a chunk. -/
def lineLength (next : Nat) (d : Bytes) : Nat := (lead next).length + (sizeLine d).length

theorem chunkSizeLine_sizeLine (next : Nat) (d : Bytes) :
    chunkSizeLine (next = noChunk) (lead next ++ sizeLine d) =
      some (numeral 16 d.length, lineLength next d) := by
  have hfind : strstr (sizeLine d) crlf = some (numeral 16 d.length).length := by
    simpa [sizeLine] using crlf_first (cr_notMem_numeral d.length) []
  have htake : (sizeLine d).take (numeral 16 d.length).length = numeral 16 d.length := by
    rw [sizeLine, List.take_left]
  have hlength : (sizeLine d).length = (numeral 16 d.length).length + 2 := List.length_append
  by_cases hfirst : next = noChunk
  · simp only [chunkSizeLine, lineLength, lead, hfirst, decide_true, if_true, List.nil_append,
      hfind, Option.map_some, htake, hlength, List.length_nil, Nat.zero_add]
  · have hlead : strstr (crlf ++ sizeLine d) crlf = some 0 := by
      exact crlf_first (s := []) (by simp) (sizeLine d)
    have hdrop : (crlf ++ sizeLine d).drop (0 + 2) = sizeLine d := rfl
    simp only [chunkSizeLine, lineLength, lead, hfirst, decide_false, Bool.false_eq_true, if_false,
      hlead, hdrop, hfind, htake, hlength, Option.bind_eq_bind, Option.bind_some,
      Option.some.injEq, Prod.mk.injEq, true_and]
    have hcrlf : crlf.length = 2 := rfl
    omega

theorem foldl_mod (f : UInt8 → Nat) (m : Nat) (s : Bytes) (v : Nat) :
    s.foldl (fun value c => (value * 16 + f c) % m) (v % m) =
      s.foldl (fun value c => value * 16 + f c) v % m := by
  induction s generalizing v with
  | nil => rfl
  | cons c s ih =>
      rw [List.foldl_cons, List.foldl_cons, ← ih]
      congr 1
      rw [Nat.add_mod, Nat.mul_mod, Nat.mod_mod, ← Nat.mul_mod, ← Nat.add_mod]

theorem ioHttpBodyChunkHexToSize_numeral {n : Nat} (hn : n < 2 ^ 64) :
    ioHttpBodyChunkHexToSize (numeral 16 n) = .ok n := by
  have hvalid : (numeral 16 n).all isValidHexCharacter = true := by
    rw [List.all_eq_true]
    intro c hc
    obtain ⟨d, hd, rfl⟩ := mem_numeral (by decide) c hc
    have hdigits : ∀ d < 16, isValidHexCharacter (digit d) = true := by decide
    exact hdigits d hd
  have hvalue : ∀ acc, ∀ d < 16, acc * 16 + hexValue (digit d) = 16 * acc + d := by
    have hdigits : ∀ d < 16, hexValue (digit d) = d := by decide
    intro acc d hd
    rw [hdigits d hd, Nat.mul_comm]
  have hread := foldl_numeral (f := fun value c => value * 16 + hexValue c)
    (by decide : 1 < 16) hvalue n
  have hmod := foldl_mod hexValue (2 ^ 64) (numeral 16 n) 0
  rw [hread, Nat.mod_eq_of_lt hn] at hmod
  rw [ioHttpBodyChunkHexToSize, if_pos hvalid]
  exact congrArg Except.ok hmod

theorem shortest_le_lineLength (next : Nat) (d : Bytes) : shortest next ≤ lineLength next d := by
  have hdigit := List.length_pos_iff.mpr (numeral_ne_nil 16 d.length)
  have hlength : (sizeLine d).length = (numeral 16 d.length).length + 2 := List.length_append
  rw [shortest, lineLength, lead, hlength]
  split
  · rw [List.length_nil]
    omega
  · have hcrlf : crlf.length = 2 := rfl
    rw [hcrlf]
    omega

theorem readSize_sizeLine {next : Nat} {d window : Bytes} (hd : d.length < 2 ^ 64)
    (hwindow : lead next ++ sizeLine d <+: window) :
    readSize next window = some (.ok (d.length, lineLength next d)) := by
  have hclean : (0 : UInt8) ∉ lead next ++ sizeLine d := by
    rw [List.mem_append, not_or]
    refine ⟨?_, zero_notMem_sizeLine d⟩
    rw [lead]
    split
    · exact List.not_mem_nil
    · decide
  have hline : readSize next (lead next ++ sizeLine d) = some (.ok (d.length, lineLength next d)) := by
    rw [readSize_eq_ok_iff, cString_eq_self hclean, List.length_append]
    exact ⟨shortest_le_lineLength next d, _, chunkSizeLine_sizeLine next d,
      ioHttpBodyChunkHexToSize_numeral hd⟩
  exact (readSize_extend hwindow hline).1

end SizeLines

section Positions

/-- The first bytes of a stream up to `p` break off within a size line, with enough of it for
the line to be looked at. -/
def SplitsSizeLine : Nat → List Bytes → Nat → Prop
  | _, [], _ => False
  | next, d :: ds, p =>
      shortest next ≤ p ∧ p < lineLength next d ∨
        ∃ q, p = lineLength next d + d.length + q ∧ SplitsSizeLine 0 ds q

/-- The sizes the chunks of a body may have. -/
def Sized (ds : List Bytes) : Prop := ∀ d ∈ ds, d ≠ [] ∧ d.length < 2 ^ 31

/-- Chunks whose size lines fit into the window they are looked for in. -/
def Fits (ds : List Bytes) : Prop := ∀ d ∈ ds, d ≠ [] ∧ d.length < 2 ^ 60

theorem Sized.fits {ds : List Bytes} (h : Sized ds) : Fits ds := by
  intro d hd
  obtain ⟨hne, hless⟩ := h d hd
  exact ⟨hne, hless.trans (by decide)⟩

/-- The buffer holds the front of the body, and the rest of it is still to be read: the decoder
stands at a size line, or at the last `next` bytes of a chunk. -/
inductive Midway (body : Bytes) (now : RecvBuffer) : ChunkLabel → Nat → Prop where
  | line {next : Nat} {ds : List Bytes} (hds : Fits ds) (hnext : next = 0 ∨ next = noChunk)
      (hrest : now.serverSocket.rest = lead next ++ wire ds)
      (hbody : now.data ++ ds.flatten = body)
      (hmarks : ∀ p, Mark now.serverSocket p → ¬ SplitsSizeLine next ds p) :
      Midway body now .parse next
  | data {next : Nat} {x : Bytes} {ds : List Bytes} (hds : Fits ds) (hlen : x.length = next)
      (hnext : next < 2 ^ 60) (hrest : now.serverSocket.rest = x ++ (crlf ++ wire ds))
      (hbody : now.data ++ (x ++ ds.flatten) = body)
      (hmarks : ∀ p, Mark now.serverSocket (next + p) → ¬ SplitsSizeLine 0 ds p) :
      Midway body now .iterate next

/-- What an append may leave: the whole body, or the decoder in the middle of it. -/
def Decoded (body : Bytes) (now : RecvBuffer) : Prop :=
  now.length = .complete ∧ now.data = body ∨
    ∃ next total, now.length = .chunk next total ∧ Midway body now (labelOf next) next

theorem wire_ne_nil (ds : List Bytes) : wire ds ≠ [] := by
  rw [wire]
  exact fun hnil => absurd (List.append_eq_nil_iff.mp hnil).2 (by decide)

theorem Midway.comes {body : Bytes} {now : RecvBuffer} {label : ChunkLabel} {next : Nat}
    (h : Midway body now label next) : Comes now.serverSocket := by
  apply Or.inr
  cases h with
  | line hds hnext hrest hbody hmarks =>
      rw [hrest]
      exact List.append_ne_nil_of_right_ne_nil _ (wire_ne_nil _)
  | data hds hlen hnext hrest hbody hmarks =>
      rw [hrest]
      apply List.append_ne_nil_of_right_ne_nil
      exact List.append_ne_nil_of_right_ne_nil _ (wire_ne_nil _)

theorem Midway.isPrefix {body : Bytes} {now : RecvBuffer} {label : ChunkLabel} {next : Nat}
    (h : Midway body now label next) : now.data <+: body := by
  cases h with
  | line hds hnext hrest hbody hmarks => exact ⟨_, hbody⟩
  | data hds hlen hnext hrest hbody hmarks => exact ⟨_, hbody⟩

theorem Midway.stored {body : Bytes} {now : RecvBuffer} {label : ChunkLabel} {next : Nat}
    (h : Midway body now label next) :
    Midway body { now with buffer := some now.data } label next := by
  cases h with
  | line hds hnext hrest hbody hmarks => exact .line hds hnext hrest hbody hmarks
  | data hds hlen hnext hrest hbody hmarks => exact .data hds hlen hnext hrest hbody hmarks

theorem Midway.ditch {body : Bytes} {now : RecvBuffer} {label : ChunkLabel} {next : Nat}
    (h : Midway body now label next) {n : Nat} (hn : n ≤ now.len) :
    Midway (body.drop n) (recvBufferDitch now n) label next := by
  cases h with
  | line hds hnext hrest hbody hmarks =>
      refine .line hds hnext ?_ ?_ ?_
      · rwa [recvBufferDitch_serverSocket]
      · rw [recvBufferDitch_data, ← hbody, List.drop_append_of_le_length hn]
      · rwa [recvBufferDitch_serverSocket]
  | data hds hlen hnext hrest hbody hmarks =>
      refine .data hds hlen hnext ?_ ?_ ?_
      · rwa [recvBufferDitch_serverSocket]
      · rw [recvBufferDitch_data, ← hbody, List.drop_append_of_le_length hn]
      · rwa [recvBufferDitch_serverSocket]

theorem Decoded.ditch {body : Bytes} {now : RecvBuffer} (h : Decoded body now) {n : Nat}
    (hn : n ≤ now.len) : Decoded (body.drop n) (recvBufferDitch now n) := by
  rcases h with ⟨hcomplete, hdata⟩ | ⟨next, total, hmode, hmidway⟩
  · exact .inl ⟨by rw [recvBufferDitch_length, hcomplete], by rw [recvBufferDitch_data, hdata]⟩
  · exact .inr ⟨next, total, by rw [recvBufferDitch_length, hmode], hmidway.ditch hn⟩

theorem Midway.length_le {body : Bytes} {now : RecvBuffer} {label : ChunkLabel} {next : Nat}
    (h : Midway body now label next) :
    body.length ≤ now.len + now.serverSocket.rest.length := by
  have hwire : ∀ ds : List Bytes, ds.flatten.length ≤ (wire ds).length := by
    intro ds
    induction ds with
    | nil => exact Nat.zero_le _
    | cons d ds ih =>
        rw [wire_cons, chunk]
        simp only [List.flatten_cons, List.length_append]
        omega
  cases h with
  | @line _ ds hds hnext hrest hbody hmarks =>
      have hless := hwire ds
      rw [← hbody, hrest, List.length_append, List.length_append, RecvBuffer.len]
      omega
  | @data _ x ds hds hlen hnext hrest hbody hmarks =>
      have hless := hwire ds
      rw [← hbody, hrest]
      simp only [List.length_append, RecvBuffer.len]
      omega

theorem midway_zero_iff {body : Bytes} {now : RecvBuffer} :
    Midway body now .iterate 0 ↔ Midway body now .parse 0 := by
  constructor
  · intro h
    cases h with
    | data hds hlen hnext hrest hbody hmarks =>
        obtain rfl := List.eq_nil_of_length_eq_zero hlen
        refine .line hds (Or.inl rfl) hrest hbody fun p hp => ?_
        apply hmarks p
        rwa [Nat.zero_add]
  · intro h
    cases h with
    | line hds hnext hrest hbody hmarks =>
        refine .data (x := []) hds rfl (by decide) hrest hbody fun p hp => ?_
        rw [Nat.zero_add] at hp
        exact hmarks p hp

theorem Midway.decoded {body : Bytes} {now : RecvBuffer} {label : ChunkLabel} {next total : Nat}
    (h : Midway body now label next) (hmode : now.length = .chunk next total) :
    Decoded body now := by
  apply Or.inr
  refine ⟨next, total, hmode, ?_⟩
  cases label with
  | parse =>
      cases id h with
      | line hds hnext =>
          rcases hnext with rfl | rfl
          · exact midway_zero_iff.mpr h
          · exact h
  | iterate =>
      have hother : next ≠ noChunk := by
        cases h with
        | data hds hlen hnext =>
            rw [noChunk]
            omega
      rw [labelOf, if_neg hother]
      exact h

/-- What stands behind the first size line of a body. -/
def behindLine : List Bytes → Bytes
  | [] => crlf
  | d :: ds => d ++ (crlf ++ wire ds)

theorem wire_front (ds : List Bytes) : wire ds = sizeLine (ds.headD []) ++ behindLine ds := by
  cases ds with
  | nil => rfl
  | cons d ds =>
      rw [wire_cons, chunk]
      simp only [List.append_assoc, List.headD_cons, behindLine]

theorem line_front (next : Nat) (ds : List Bytes) :
    lead next ++ sizeLine (ds.headD []) <+: lead next ++ wire ds := by
  rw [wire_front ds, ← List.append_assoc]
  exact List.prefix_append _ _

theorem drop_line (next : Nat) (ds : List Bytes) :
    (lead next ++ wire ds).drop (lineLength next (ds.headD [])) = behindLine ds := by
  rw [wire_front ds, ← List.append_assoc, lineLength, ← List.length_append, List.drop_left]

theorem line_whole {next : Nat} {ds : List Bytes} {p : Nat} (hsplits : ¬ SplitsSizeLine next ds p)
    (hp : shortest next ≤ p) : lineLength next (ds.headD []) ≤ p := by
  cases ds with
  | nil =>
      have hline : lineLength next [] = shortest next := by
        rw [lineLength, lead, shortest]
        split
        · rfl
        · rfl
      rw [List.headD_nil, hline]
      exact hp
  | cons d ds =>
      by_contra hshort
      exact hsplits (Or.inl ⟨hp, Nat.not_le.mp hshort⟩)

theorem not_splitsSizeLine {next : Nat} {ds : List Bytes} {p : Nat}
    (hp : (lead next ++ wire ds).length ≤ p) : ¬ SplitsSizeLine next ds p := by
  induction ds generalizing next p with
  | nil => exact id
  | cons d ds ih =>
      have hlength : (lead next ++ wire (d :: ds)).length =
          lineLength next d + (d.length + (lead 0 ++ wire ds).length) := by
        rw [wire_front, ← List.append_assoc, List.length_append, behindLine, List.length_append,
          List.length_append, lineLength, List.headD_cons]
        rfl
      rintro (⟨-, hless⟩ | ⟨q, hq, hsplits⟩)
      · omega
      · exact ih (by omega) hsplits

theorem lineLength_le {next : Nat} {d : Bytes} (hd : d.length < 2 ^ 60) :
    lineLength next d ≤ 19 := by
  have hdigits : (numeral 16 d.length).length ≤ 15 := by
    rw [length_numeral_le_iff (by decide) (by decide)]
    omega
  have hlength : (sizeLine d).length = (numeral 16 d.length).length + 2 := List.length_append
  have hlead : (lead next).length ≤ 2 := by
    rw [lead]
    split
    · exact Nat.zero_le _
    · exact le_rfl
  rw [lineLength]
  omega

end Positions

section Appends

/-- Of the bytes asked for `len` are still to be brought, if none of them has to be waited for. -/
def Brings (start : RecvBuffer) (asked : Nat) (now : RecvBuffer) (len : Nat) : Prop :=
  start.serverSocket.arrivals = [] →
    now.serverSocket.arrivals = [] ∧ now.len + len = start.len + asked

/-- Where `recvBufferAppendChunk` stands between two turns. -/
def Decoding (body : Bytes) (start : RecvBuffer) (asked : Nat) :
    RecvBuffer × Nat × Nat × Nat × ChunkLabel → Prop
  | (now, next, total, len, label) => now.length = .chunk next total ∧
      Midway body now label next ∧ (label = .parse → 0 < len) ∧ Brings start asked now len

/-- What an append comes back with: no error, and all that was asked for if it had arrived,
or less at the end of the body. -/
def Brought (body : Bytes) (start : RecvBuffer) (asked : Nat)
    (r : RecvBuffer × Option ErrorMessage) : Prop :=
  r.2 = none ∧ Decoded body r.1 ∧
    ∃ len, Brings start asked r.1 len ∧ (r.1.length = .complete ∨ len = 0)

/-- A turn goes on decoding, or comes back without an error. -/
def Decodes (body : Bytes) (start : RecvBuffer) (asked : Nat)
    (s : RecvBuffer × Nat × Nat × Nat × ChunkLabel) : Prop :=
  ∃ turn, appendChunkTurn s = .ok turn ∧
    Advances (Decoding body start asked) turnsLeft (Brought body start asked) s turn

theorem Midway.copy {body : Bytes} {start now : RecvBuffer} {asked next total len : Nat}
    (h : Midway body now .iterate next) (hlen : 0 < len) (hnext : 0 < next)
    (hbrings : Brings start asked now len) :
    Decodes body start asked (now, next, total, len, .iterate) := by
  obtain ⟨now', n, hn, hnlen, hnrest, hnone, hwhole, hread, hdata, hmode, hturn⟩ :=
    iterate_turn total h.comes hlen hnext
  have hpos : 0 < n := by
    rcases Nat.eq_zero_or_pos n with hzero | hpos
    · have hnil := hnone hzero
      cases h with
      | data hds hx hless hrest hbody hmarks => simp [hrest, crlf] at hnil
    · exact hpos
  have hnext' : Midway body now' .iterate (next - n) := by
    cases h with
    | @data _ x ds hds hx hless hrest hbody hmarks =>
        have hnx : n ≤ x.length := hn.trans_eq hx.symm
        refine .data (x := x.drop n) hds (by rw [List.length_drop, hx]) (by omega) ?_ ?_ ?_
        · rw [hread.rest, hrest, List.drop_append_of_le_length hnx]
        · rw [hdata, hrest, List.take_append_of_le_length hnx, List.append_assoc,
            ← List.append_assoc (x.take n), List.take_append_drop, hbody]
        · intro p hp
          apply hmarks p
          have hmark := hread.marks _ hp
          rwa [← Nat.add_assoc, Nat.add_sub_of_le hn] at hmark
  have hgrown : now'.len = now.len + n := by
    rw [RecvBuffer.len, hdata, List.length_append, List.length_take_of_le hnrest, RecvBuffer.len]
  refine ⟨_, hturn, ?_⟩
  split
  · rename_i hshort
    refine ⟨rfl, hnext'.decoded hmode, 0, fun harrivals => ?_, Or.inr rfl⟩
    have hall := hwhole (hbrings harrivals).1
    -- the rest of the chunk is there, so the piece copied is as long as the one asked for
    have hrest : next ≤ now.serverSocket.rest.length := by
      cases h with
      | data hds hx hless hrest hbody hmarks =>
          rw [hrest, List.length_append, hx]
          exact Nat.le_add_right _ _
    omega
  · refine ⟨⟨hmode, hnext', by simp, fun harrivals => ?_⟩, turnsLeft_copy hnext hpos hnlen⟩
    obtain ⟨hnow, hsum⟩ := hbrings harrivals
    exact ⟨hread.arrivals_nil hnow, by omega⟩

/-- The decoder sees too little of a size line, of which more is to come, or all of it. -/
theorem sizeLine_peeked {now : RecvBuffer} {next : Nat} {ds : List Bytes} {peeked : Socket}
    {window : Bytes} (h : Peeked now.serverSocket 19 peeked window) (hds : Fits ds)
    (hrest : now.serverSocket.rest = lead next ++ wire ds)
    (hmarks : ∀ p, Mark now.serverSocket p → ¬ SplitsSizeLine next ds p) :
    readSize next window = none ∧ now.serverSocket.arrivals ≠ [] ∨ readSize next window =
      some (.ok ((ds.headD []).length, lineLength next (ds.headD []))) := by
  obtain ⟨p, hp, hwindow⟩ := h.front
  have hsize : (ds.headD []).length < 2 ^ 60 := by
    cases ds with
    | nil => decide
    | cons d ds => exact (hds d List.mem_cons_self).2
  by_cases hshort : window.length < shortest next
  · refine Or.inl ⟨by rw [readSize, if_pos hshort], fun harrivals => ?_⟩
    have hall := congrArg List.length (h.whole harrivals)
    have hline := (line_front next ds).length_le
    have hleast := shortest_le_lineLength next (ds.headD [])
    have hfit : lineLength next (ds.headD []) ≤ 19 := lineLength_le hsize
    rw [List.length_append, ← lineLength, ← hrest] at hline
    rw [List.length_take] at hall
    omega
  · apply Or.inr
    have hbound : window.length ≤ p := by
      rw [hwindow]
      exact (List.length_take_le _ _).trans (Nat.min_le_right 19 p)
    have hline := line_whole (hmarks p hp) ((Nat.not_lt.mp hshort).trans hbound)
    have hfit : lineLength next (ds.headD []) ≤ 19 := lineLength_le hsize
    apply readSize_sizeLine (hsize.trans (by decide))
    have hfront : lead next ++ sizeLine (ds.headD []) =
        now.serverSocket.rest.take (lineLength next (ds.headD [])) := by
      rw [hrest, wire_front, ← List.append_assoc, lineLength, ← List.length_append, List.take_left]
    rw [hfront, hwindow]
    exact List.take_prefix_take_left (Nat.le_min.mpr ⟨hfit, hline⟩)

theorem Midway.parse {body : Bytes} {start now : RecvBuffer} {asked next total len : Nat}
    (h : Midway body now .parse next) (hmode : now.length = .chunk next total)
    (hbrings : Brings start asked now len) :
    Decodes body start asked (now, next, total, len, .parse) := by
  obtain ⟨peeked, window, hpeeked, hturn⟩ := parse_turn next total len h.comes
  cases h with
  | @line _ ds hds hnext hrest hbody hmarks =>
      rcases sizeLine_peeked hpeeked hds hrest hmarks with ⟨hnone, hwaiting⟩ | hsize
      · rw [hnone] at hturn
        have hwaits : Midway body { now with serverSocket := peeked } .parse next := by
          refine .line hds hnext ?_ hbody fun p hp => ?_
          · rw [← hrest]
            exact hpeeked.after.rest
          · apply hmarks p
            have hmark := hpeeked.after.marks p hp
            rwa [Nat.zero_add] at hmark
        exact ⟨_, hturn, rfl, hwaits.decoded hmode, 0,
          fun harrivals => absurd (hbrings harrivals).1 hwaiting, Or.inr rfl⟩
      · rw [hsize] at hturn
        obtain ⟨socket, hread, hturn⟩ := hturn
        refine ⟨_, hturn, ?_⟩
        cases ds with
        | nil =>
            refine ⟨rfl, Or.inl ⟨rfl, ?_⟩, len, fun harrivals => ?_, Or.inl rfl⟩
            · rwa [List.flatten_nil, List.append_nil] at hbody
            · obtain ⟨hnow, hsum⟩ := hbrings harrivals
              exact ⟨hread.arrivals_nil hnow, hsum⟩
        | cons d ds =>
            obtain ⟨hd, hless⟩ := hds d List.mem_cons_self
            have hpos : 0 < d.length := List.length_pos_iff.mpr hd
            rw [List.headD_cons, if_pos hpos]
            have hdata : Midway body ⟨now.buffer, .chunk d.length total, socket⟩ .iterate
                d.length := by
              refine .data (x := d) (fun e he => hds e (List.mem_cons_of_mem d he)) rfl hless ?_
                ?_ fun p hp hsplits => ?_
              · show socket.rest = _
                rw [hread.rest, hrest, drop_line, behindLine]
              · rw [← hbody, List.flatten_cons]
                rfl
              · apply hmarks _ (hread.marks _ hp)
                exact Or.inr ⟨p, (Nat.add_assoc _ _ _).symm, hsplits⟩
            refine ⟨⟨rfl, hdata, by simp, fun harrivals => ?_⟩, turnsLeft_line hpos⟩
            obtain ⟨hnow, hsum⟩ := hbrings harrivals
            exact ⟨hread.arrivals_nil hnow, hsum⟩

theorem Decoding.turn {body : Bytes} {start : RecvBuffer} {asked : Nat}
    {s : RecvBuffer × Nat × Nat × Nat × ChunkLabel} (h : Decoding body start asked s) :
    Decodes body start asked s := by
  obtain ⟨now, next, total, len, label⟩ := s
  obtain ⟨hmode, hmidway, hlen, hbrings⟩ := h
  cases label with
  | parse => exact hmidway.parse hmode hbrings
  | iterate =>
      by_cases hcopy : 0 < len ∧ 0 < next
      · exact hmidway.copy hcopy.1 hcopy.2 hbrings
      · by_cases hdone : len = 0
        · subst hdone
          exact ⟨.leave (now, none), by simp [appendChunkTurn], rfl, hmidway.decoded hmode,
            0, hbrings, Or.inr rfl⟩
        · obtain rfl : next = 0 := by omega
          exact ⟨.again (now, 0, total, len, .parse), by simp [appendChunkTurn, hdone],
            ⟨hmode, midway_zero_iff.mp hmidway, fun _ => Nat.pos_of_ne_zero hdone, hbrings⟩,
            turnsLeft_parse⟩

theorem appends_decode {body : Bytes} {now : RecvBuffer} {next total len : Nat} (hlen : 0 < len)
    (h : Midway body now (labelOf next) next) (hmode : now.length = .chunk next total) :
    ∃ now', recvBufferAppendChunk now next total len = .ok (now', none) ∧ Decoded body now' ∧
      ∃ left, Brings now len now' left ∧ (now'.length = .complete ∨ left = 0) := by
  obtain ⟨⟨now', e⟩, hrun, he, hbrought⟩ : ∃ r, recvBufferAppendChunk now next total len = .ok r ∧
      Brought body now len r := by
    apply run_total (Decoding body now len) turnsLeft
    · intro s hs
      exact hs.turn
    · exact ⟨hmode, h, fun _ => hlen, fun harrivals => ⟨harrivals, rfl⟩⟩
    · exact turnsLeft_lt ..
  obtain rfl : e = none := he
  exact ⟨now', hrun, hbrought⟩

end Appends

section Runs

/-- The caller's appends, one after the other. -/
def append (self : RecvBuffer) (len : Nat) : Except Stop RecvBuffer :=
  (recvBufferAppend self len).map Prod.fst

def Asked (self : RecvBuffer) (len : Nat) : Prop := 0 < len ∧ self.length ≠ .complete

theorem Decoded.append {body : Bytes} {now : RecvBuffer} (h : Decoded body now) {len : Nat}
    (hasked : Asked now len) :
    ∃ now', recvBufferAppend now len = .ok (now', none) ∧ Decoded body now' ∧
      ∃ left, Brings now len now' left ∧ (now'.length = .complete ∨ left = 0) := by
  obtain ⟨hlen, hmore⟩ := hasked
  rcases h with ⟨hcomplete, -⟩ | ⟨next, total, hmode, hmidway⟩
  · exact absurd hcomplete hmore
  · rw [recvBufferAppend_chunk hmode]
    exact @appends_decode body { now with buffer := some now.data } next total len hlen
      hmidway.stored hmode

theorem Decoded.isPrefix {body : Bytes} {now : RecvBuffer} (h : Decoded body now) :
    now.data <+: body ∧ (now.length = .complete → now.data = body) := by
  rcases h with ⟨-, hdata⟩ | ⟨next, total, hmode, hmidway⟩
  · rw [hdata]
    exact ⟨List.prefix_rfl, fun _ => rfl⟩
  · refine ⟨hmidway.isPrefix, fun hcomplete => ?_⟩
    rw [hmode] at hcomplete
    contradiction

/-- A chunked body that arrives with no size line broken off where it could be mistaken for a
malformed one is decoded as it is, whatever is asked for at a time. -/
theorem appends_decode_body {ds : List Bytes} (hds : Sized ds) {self start now : RecvBuffer}
    (hempty : self.data = []) (hwire : self.serverSocket.rest = wire ds)
    (hmarks : ∀ p, Mark self.serverSocket p → ¬ SplitsSizeLine noChunk ds p)
    (hstart : recvBufferSetLengthChunk self = .ok start) (hrun : Run append Asked start now) :
    now.data <+: ds.flatten ∧ (now.length = .complete → now.data = ds.flatten) ∧
      ∀ len, Asked now len → ∃ now', recvBufferAppend now len = .ok (now', none) := by
  have hdecoded : Decoded ds.flatten now := by
    apply run_invariant (Decoded ds.flatten) _ hrun
    · rw [recvBufferSetLengthChunk, if_neg (not_not.mpr hempty)] at hstart
      rw [← Except.ok.inj hstart]
      apply Or.inr
      refine ⟨noChunk, 0, rfl, ?_⟩
      rw [labelOf, if_pos rfl]
      refine .line hds.fits (Or.inr rfl) hwire ?_ hmarks
      show self.data ++ ds.flatten = _
      rw [hempty, List.nil_append]
    · intro s len t hs hasked hstep
      obtain ⟨t', happend, hnext, -⟩ := hs.append hasked
      rw [append, happend] at hstep
      rw [← Except.ok.inj hstep]
      exact hnext
  obtain ⟨hfront, hwhole⟩ := hdecoded.isPrefix
  refine ⟨hfront, hwhole, fun len hasked => ?_⟩
  obtain ⟨now', happend, -⟩ := hdecoded.append hasked
  exact ⟨now', happend⟩

instance (self : RecvBuffer) (len : Nat) : Decidable (Asked self len) :=
  inferInstanceAs (Decidable (0 < len ∧ self.length ≠ .complete))

/-- A connection on which the bytes arrive part by part. -/
def arriving (parts : List Bytes) : RecvBuffer := ⟨none, .unknown 0 0, ⟨[], parts, .idle⟩⟩

/-- The size line comes in two parts, of which the first is too short to be looked at. -/
def twoParts : RecvBuffer :=
  arriving [text "1", text "1\r\nabcdefg", text "hijklmnopq\r\n0\r\n\r\n"]

theorem twoParts_marks (p : Nat) (hp : Mark twoParts.serverSocket p) :
    ¬ SplitsSizeLine noChunk [text "abcdefghijklmnopq"] p := by
  have hline : lineLength noChunk (text "abcdefghijklmnopq") = 4 := rfl
  have hshortest : shortest noChunk = 3 := rfl
  obtain ⟨m, hpolled, rfl⟩ := hp
  have hready : twoParts.serverSocket.ready.length = 0 := rfl
  rw [SplitsSizeLine, hline, hshortest, hready, Nat.zero_add]
  rintro (⟨hlong, hshort⟩ | ⟨q, -, hnone⟩)
  · rcases m with _ | _ | m
    · simp at hlong
    · exact absurd hlong (by decide)
    · have hparts : (text "1").length + (text "1\r\nabcdefg").length = 11 := rfl
      simp only [twoParts, arriving, List.take_succ_cons, List.flatten_cons, List.length_append]
        at hshort
      omega
  · exact hnone

theorem appends_decode_twoParts : ∃ start now, recvBufferSetLengthChunk twoParts = .ok start ∧
    follow append Asked start [2, 40] = some now ∧ now.data = text "abcdefghijklmnopq" := by
  have hds : Sized [text "abcdefghijklmnopq"] := by
    intro d hd
    rw [List.mem_singleton.mp hd]
    decide
  obtain ⟨start, now, hstart, hfollow, hcomplete⟩ : ∃ start now,
      recvBufferSetLengthChunk twoParts = .ok start ∧
      follow append Asked start [2, 40] = some now ∧ now.length = .complete :=
    ⟨_, _, rfl, rfl, rfl⟩
  obtain ⟨-, hwhole, -⟩ :=
    appends_decode_body hds rfl rfl twoParts_marks hstart (run_of_follow hfollow)
  exact ⟨start, now, hstart, hfollow, hwhole hcomplete⟩

/-- Three bytes of a size line are taken for a malformed one. -/
theorem appends_malformed :
    (arriving [text "11\r", text "\nabcdefghijklmnopq\r\n0\r\n\r\n"]).serverSocket.rest =
      wire [text "abcdefghijklmnopq"] ∧
    (recvBufferSetLengthChunk
      (arriving [text "11\r", text "\nabcdefghijklmnopq\r\n0\r\n\r\n"]) >>=
        fun start => (recvBufferAppend start 17).map Prod.snd) =
      .ok (some .malformedChunkEncoding) := by
  constructor
  · rfl
  · rfl

end Runs

end Newth.Client.ChunkedBody
