import Newth.Client.ExistingChunks

namespace Newth.Client.PreBuffered

open Newth.Library.ByteString
open Newth.Library.Call
open Newth.Library.Chunked
open Newth.Client.Recvbufr
open Newth.Client.ChunkTurns
open Newth.Client.ChunkedBody
open Newth.Client.ExistingChunks

section Appends

/-- The appends a caller makes until the buffer is complete; `none` when one of them fails. -/
def appends : RecvBuffer → List Nat → Except Stop (Option RecvBuffer)
  | self, [] => .ok (some self)
  | self, len :: lens =>
      if self.length = .complete then .ok (some self)
      else do
        let (self, e) ← recvBufferAppend self len
        if e.isSome then .ok none else appends self lens

/-- From this buffer on the whole body is read, however much is asked for at a time. -/
def Recovers (self : RecvBuffer) (body : Bytes) : Prop :=
  ∃ start, recvBufferSetLengthChunk self = .ok start ∧
    ∀ lens : List Nat, (∀ len ∈ lens, 0 < len) → body.length ≤ lens.sum →
      ∃ now, appends start lens = .ok (some now) ∧ now.data = body

theorem Decoded.appends {body : Bytes} {lens : List Nat} (hlens : ∀ len ∈ lens, 0 < len)
    {now : RecvBuffer} (h : Decoded body now)
    (henough : now.length = .complete ∨
      now.serverSocket.arrivals = [] ∧ body.length ≤ now.len + lens.sum) :
    ∃ now', appends now lens = .ok (some now') ∧ now'.data = body := by
  obtain ⟨hfront, hwhole⟩ := h.isPrefix
  induction lens generalizing now with
  | nil =>
      refine ⟨now, rfl, ?_⟩
      rcases henough with hcomplete | ⟨-, hlength⟩
      · exact hwhole hcomplete
      · exact hfront.eq_of_length_le hlength
  | cons len lens ih =>
      by_cases hcomplete : now.length = .complete
      · exact ⟨now, by rw [PreBuffered.appends, if_pos hcomplete], hwhole hcomplete⟩
      · obtain ⟨harrivals, hlength⟩ := henough.resolve_left hcomplete
        obtain ⟨now', happend, hnow', left, hbrings, hdone⟩ :=
          h.append ⟨hlens len List.mem_cons_self, hcomplete⟩
        obtain ⟨hfront', hwhole'⟩ := hnow'.isPrefix
        obtain ⟨last, happends, hlast⟩ := ih (fun n hn => hlens n (List.mem_cons_of_mem len hn)) hnow'
          (by
            rcases hdone with hdone | rfl
            · exact Or.inl hdone
            · obtain ⟨hnone, hsum⟩ := hbrings harrivals
              rw [List.sum_cons] at hlength
              exact Or.inr ⟨hnone, by omega⟩) hfront' hwhole'
        refine ⟨last, ?_, hlast⟩
        rw [PreBuffered.appends, if_neg hcomplete, happend, ok_bind]
        exact happends

/-- Nothing is left but the end of the last line, which is too short to be looked at. -/
structure Ended (body : Bytes) (now : RecvBuffer) : Prop where
  data : now.data = body
  mode : ∃ total, now.length = .chunk 0 total
  rest : ∃ rest, now.serverSocket = ⟨rest, [], .closed⟩ ∧ rest.length ≤ 2

theorem Ended.append {body : Bytes} {now : RecvBuffer} (h : Ended body now) {len : Nat}
    (hlen : 0 < len) : ∃ now', recvBufferAppend now len = .ok (now', none) ∧ Ended body now' := by
  obtain ⟨hdata, ⟨total, hmode⟩, rest, hrest, hshort⟩ := h
  refine ⟨{ now with buffer := some now.data }, ?_, ⟨hdata, ⟨total, hmode⟩, rest, hrest, hshort⟩⟩
  have hagain : appendChunkTurn ({ now with buffer := some now.data }, 0, total, len, .iterate) =
      .ok (.again ({ now with buffer := some now.data }, 0, total, len, .parse)) := by
    simp [appendChunkTurn, hlen.ne']
  have hpeek : (rest.take 19).length < 5 := by
    rw [List.length_take]
    omega
  have hleave : appendChunkTurn ({ now with buffer := some now.data }, 0, total, len, .parse) =
      .ok (.leave ({ now with buffer := some now.data }, none)) := by
    have hother : (0 : Nat) ≠ noChunk := by decide
    simp only [appendChunkTurn, hrest, recv_arrived, ok_bind, hother, if_false, hpeek, if_true]
  rw [recvBufferAppend_chunk hmode, recvBufferAppendChunk, if_neg (by decide),
    run_succ_again _ hagain, run_succ_leave _ hleave]

theorem Ended.appends {body : Bytes} {lens : List Nat} (hlens : ∀ len ∈ lens, 0 < len)
    {now : RecvBuffer} (h : Ended body now) :
    ∃ now', appends now lens = .ok (some now') ∧ now'.data = body := by
  induction lens generalizing now with
  | nil => exact ⟨now, rfl, h.data⟩
  | cons len lens ih =>
      obtain ⟨now', happend, hnow'⟩ := h.append (hlens len List.mem_cons_self)
      obtain ⟨last, happends, hlast⟩ := ih (fun n hn => hlens n (List.mem_cons_of_mem len hn)) hnow'
      refine ⟨last, ?_, hlast⟩
      obtain ⟨total, hmode⟩ := h.mode
      have hmore : now.length ≠ .complete := by
        rw [hmode]
        exact RecvBufferLength.noConfusion
      rw [PreBuffered.appends, if_neg hmore, happend, ok_bind]
      exact happends

theorem Settled.recovers {body : Bytes} {now : RecvBuffer} {total : Nat}
    (hless : body.length < 2 ^ 60) (h : Settled body (now, total)) {lens : List Nat}
    (hlens : ∀ len ∈ lens, 0 < len) (henough : body.length ≤ lens.sum) :
    ∃ now', appends { now with length := .chunk ((total + (2 ^ 64 - now.len)) % 2 ^ 64) total }
      lens = .ok (some now') ∧ now'.data = body := by
  cases h with
  | @data _ _ x ds hds hbody hrest htotal =>
      have hsizes := congrArg List.length hbody
      rw [List.length_append, List.length_append, ← RecvBuffer.len] at hsizes
      have hnext : (total + (2 ^ 64 - now.len)) % 2 ^ 64 = x.length := by
        omega
      rw [hnext]
      have hmidway : Midway body { now with length := .chunk x.length total } .iterate x.length := by
        refine .data hds rfl (by omega) ?_ hbody fun p hp => ?_
        · show now.serverSocket.rest = _
          rw [hrest, Socket.rest, List.flatten_nil, List.append_nil]
        · obtain ⟨m, -, hmark⟩ := hp
          simp only [hrest, List.take_nil, List.flatten_nil, List.length_nil, List.length_append,
            Nat.add_zero] at hmark
          apply not_splitsSizeLine
          rw [List.length_append]
          exact (Nat.add_left_cancel hmark).ge
      refine Decoded.appends hlens (hmidway.decoded rfl) (Or.inr ⟨?_, by omega⟩)
      show now.serverSocket.arrivals = []
      rw [hrest]
  | @ended _ _ rest hbody hrest hshort htotal =>
      have hsizes := congrArg List.length hbody
      rw [← RecvBuffer.len] at hsizes
      have hnext : (total + (2 ^ 64 - now.len)) % 2 ^ 64 = 0 := by
        omega
      rw [hnext]
      exact Ended.appends hlens ⟨hbody, ⟨total, rfl⟩, rest, hrest, hshort⟩

theorem not_appends_dropped {start : RecvBuffer} (hmode : start.length = .unknown 0 0)
    (hsocket : start.serverSocket = ⟨[], [], .failed⟩) (len : Nat) :
    appends start [len + 1] = .ok none := by
  obtain ⟨buffer, mode, socket⟩ := start
  obtain rfl : mode = .unknown 0 0 := hmode
  obtain rfl : socket = ⟨[], [], .failed⟩ := hsocket
  have hleave : appendTurn (len + 1)
      (⟨some (buffer.getD []), .unknown 0 0, ⟨[], [], .failed⟩⟩, 0) =
      .ok (.leave (⟨some (buffer.getD []), .unknown 0 0, ⟨[], [], .failed⟩⟩, some .socketError)) := by
    simp [appendTurn, recv, awaitByte]
  have happend : recvBufferAppend ⟨buffer, .unknown 0 0, ⟨[], [], .failed⟩⟩ (len + 1) =
      .ok (⟨some (buffer.getD []), .unknown 0 0, ⟨[], [], .failed⟩⟩, some .socketError) :=
    run_succ_leave (len + 1) hleave
  rw [appends, if_neg RecvBufferLength.noConfusion, happend, ok_bind]
  rfl

/-- A chunked body that was buffered in part with the head is read whole, unless the part ends
where the rest does not lead back into it. -/
theorem split_recovers_iff {ds : List Bytes} (hds : ∀ d ∈ ds, d ≠ [])
    (hless : ds.flatten.length < 2 ^ 60) {front rest : Bytes} (hsplit : front ++ rest = wire ds)
    (hfront : front ≠ []) (mode : RecvBufferLength) :
    Recovers ⟨some front, mode, ⟨rest, [], .closed⟩⟩ ds.flatten ↔
      ¬ BadSplit noChunk ds front.length := by
  have hfits : Fits ds := by
    intro d hd
    exact ⟨hds d hd, (List.sublist_flatten_of_mem hd).length_le.trans_lt hless⟩
  have hstate : (⟨some front, mode, ⟨rest, [], .closed⟩⟩ : RecvBuffer) =
      broken [] (lead (nextAt ([] : Bytes).length) ++ wire ds) front.length mode := by
    have hlead : lead (nextAt ([] : Bytes).length) = [] := rfl
    rw [hlead, List.nil_append, ← hsplit, broken, List.take_left, List.drop_left, List.nil_append]
  have hparsing : Parsing ds.flatten (BadSplit noChunk ds front.length)
      (⟨some front, mode, ⟨rest, [], .closed⟩⟩, 0) := by
    rw [hstate]
    refine @Parsing.line _ _ [] ds _ mode hfits rfl (List.length_pos_iff.mpr hfront) ?_ Iff.rfl
    show front.length ≤ (wire ds).length
    rw [← hsplit, List.length_append]
    exact Nat.le_add_right _ _
  have hcall : recvBufferSetLengthChunk ⟨some front, mode, ⟨rest, [], .closed⟩⟩ =
      httpChunkParseExistingBuffer ⟨some front, mode, ⟨rest, [], .closed⟩⟩ := if_pos hfront
  obtain ⟨hgood, hbad⟩ := existing_settles hless hparsing
  rw [Recovers, hcall]
  constructor
  · rintro ⟨start, hstart, hreads⟩ hsplits
    obtain ⟨hmode, hsocket⟩ := hbad hsplits start hstart
    obtain ⟨now, happends, -⟩ := hreads [ds.flatten.length + 1] (by simp) (by simp)
    rw [not_appends_dropped hmode hsocket] at happends
    simp at happends
  · intro hsplits
    obtain ⟨now, total, hsettled, hstart⟩ := hgood hsplits
    exact ⟨_, hstart, fun lens hlens henough => Settled.recovers hless hsettled hlens henough⟩

theorem split_recovers_twoChunks :
    Recovers ⟨some (text "3\r\nabc\r\n1"), .unknown 0 0,
      ⟨text "\r\nd\r\n0\r\n\r\n", [], .closed⟩⟩ (text "abcd") := by
  have hsplit : text "3\r\nabc\r\n1" ++ text "\r\nd\r\n0\r\n\r\n" =
      wire [text "abc", text "d"] := rfl
  exact (split_recovers_iff (by decide) (by decide) hsplit (by decide) (.unknown 0 0)).mpr
    (by decide)

/-- A body that came with the head as a whole is lost with the connection. -/
theorem whole_body_dropped :
    text "1\r\na\r\n0\r\n\r\n" = wire [text "a"] ∧
    ¬ Recovers ⟨some (text "1\r\na\r\n0\r\n\r\n"), .unknown 0 0, ⟨[], [], .closed⟩⟩
      (text "a") := by
  refine ⟨rfl, ?_⟩
  rintro ⟨start, hstart, hreads⟩
  obtain rfl : (⟨none, .unknown 0 0, ⟨[], [], .failed⟩⟩ : RecvBuffer) = start := Except.ok.inj hstart
  obtain ⟨now, happends, -⟩ := hreads [1] (by simp) (by decide)
  rw [not_appends_dropped rfl rfl] at happends
  simp at happends

end Appends

end Newth.Client.PreBuffered
