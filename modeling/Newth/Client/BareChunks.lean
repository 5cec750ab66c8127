import Newth.Client.CutShort

namespace Newth.Client.BareChunks

open Newth.Library.ByteString
open Newth.Library.Call
open Newth.Library.Chunked
open Newth.Client.CutShort
open Newth.Client.Recvbufr
open Newth.Client.SiteHttp

section Bytes

/-- The characters of a chunked body without chunks. -/
def bareBytes : Bytes := text "0\r\n"

theorem mem_bareBytes {c : UInt8} (hc : c ∈ bareBytes) (hhex : isValidHexCharacter c = true) :
    c = ascii '0' := by
  have hall : ∀ c ∈ bareBytes, isValidHexCharacter c = true → c = ascii '0' :=
    forall_mem_of_all (by decide)
  exact hall c hc hhex

theorem zero_of_bare {hex : Bytes} {l : Nat} (hbare : ∀ c ∈ hex, c = 0 ∨ c ∈ bareBytes)
    (h : ioHttpBodyChunkHexToSize hex = .ok l) : l = 0 := by
  rw [ioHttpBodyChunkHexToSize] at h
  split at h
  · rename_i hvalid
    have hzeros : ∀ c ∈ hex, c = ascii '0' := by
      intro c hc
      have hhex := List.all_eq_true.mp hvalid c hc
      rcases hbare c hc with rfl | hmem
      · exact absurd hhex (by decide)
      · exact mem_bareBytes hmem hhex
    have hfold : ∀ s : Bytes, (∀ c ∈ s, c = ascii '0') →
        s.foldl (fun value c => (value * 16 + hexValue c) % 2 ^ 64) 0 = 0 := by
      intro s hs
      induction s with
      | nil => rfl
      | cons c s ih =>
          obtain rfl := hs c List.mem_cons_self
          exact ih fun d hd => hs d (List.mem_cons_of_mem _ hd)
    rw [← Except.ok.inj h, hfold hex hzeros]
  · simp at h

theorem mem_of_recv {self socket : Socket} {n : Nat} {peek : Bool} {r : Option Bytes}
    (h : recv self n peek = .ok (socket, r)) :
    (∀ c ∈ socket.rest, c ∈ self.rest) ∧ ∀ data, r = some data → ∀ c ∈ data, c ∈ self.rest := by
  by_cases hrest : self.rest = []
  · obtain ⟨socket', hnothing, -, hrecv⟩ := recv_of_end n peek hrest
    rw [h] at hrecv
    split at hrecv
    · simp at hrecv
    · obtain ⟨rfl, rfl⟩ := Prod.mk.inj (Except.ok.inj hrecv)
      simp [hnothing]
    · obtain ⟨rfl, rfl⟩ := Prod.mk.inj (Except.ok.inj hrecv)
      simp [hnothing]
  · obtain ⟨ready, later, -, hflat, hrecv⟩ := recv_of_rest n peek hrest
    rw [h] at hrecv
    obtain ⟨rfl, rfl⟩ := Prod.mk.inj (Except.ok.inj hrecv)
    constructor
    · intro c hc
      rw [← hflat]
      rcases List.mem_append.mp hc with hready | hlater
      · apply List.mem_append_left
        split at hready
        · exact hready
        · exact List.mem_of_mem_drop hready
      · exact List.mem_append_right _ hlater
    · rintro data hdata c hc
      obtain rfl := Option.some.inj hdata
      rw [← hflat]
      exact List.mem_append_left _ (List.mem_of_mem_take hc)

end Bytes

section Existing

/-- A body without chunks, buffered in part. -/
structure Bare (buffer : RecvBuffer) : Prop where
  data : ∀ c ∈ buffer.data, c ∈ bareBytes
  rest : ∀ c ∈ buffer.serverSocket.rest, c ∈ bareBytes

theorem mem_overwrite {array bytes : Bytes} {c : UInt8} (h : c ∈ overwrite array bytes) :
    c ∈ bytes ∨ c ∈ array := by
  rcases List.mem_append.mp h with hbytes | harray
  · exact Or.inl hbytes
  · exact Or.inr (List.mem_of_mem_drop harray)

theorem mem_of_fetch {self : RecvBuffer} {len : Nat} {fetched : Except ErrorMessage Bytes}
    (h : recvBufferFetch self 0 len = .ok fetched) :
    ∀ c ∈ fetched.toOption.getD [], c ∈ self.data := by
  rw [recvBufferFetch] at h
  split at h
  · split at h
    · simp at h
    · split at h
      · rw [← Except.ok.inj h]
        exact fun c hc => hc
      · rw [← Except.ok.inj h]
        exact fun c hc => List.mem_of_mem_take hc
  · rw [← Except.ok.inj h]
    exact fun c hc => absurd hc List.not_mem_nil

theorem mem_line {array : Bytes} {p : Nat} (hfind : strstr (cString array) crlf = some p)
    {c : UInt8} (hc : c ∈ array.take (p + 2)) : c ∈ array ∧ c ≠ 0 := by
  obtain ⟨hpre, -, -⟩ := strstr_eq_some_iff.mp hfind
  have hlength := hpre.length_le
  rw [List.length_drop, show crlf.length = 2 from rfl] at hlength
  have hstring : cString array <+: array := List.takeWhile_prefix _
  have htake : array.take (p + 2) = (cString array).take (p + 2) := by
    obtain ⟨rest, hrest⟩ := hstring
    have hcut := @List.take_append_of_le_length _ (cString array) rest (p + 2) (by omega)
    rwa [hrest] at hcut
  rw [htake] at hc
  have hmem := List.mem_of_mem_take hc
  refine ⟨hstring.subset hmem, ?_⟩
  rintro rfl
  exact zero_notMem_cString array hmem

theorem parseExistingTurn_bare {self : RecvBuffer} (h : Bare self)
    {turn : Turn (RecvBuffer × Nat) (Option (RecvBuffer × Nat))}
    (hturn : parseExistingTurn (self, 0) = .ok turn) :
    turn = .leave none ∨ (turn = .leave (some (self, 0)) ∧ self.data = []) ∨
      ∃ self', turn = .again (self', 0) ∧ Bare self' := by
  rw [parseExistingTurn] at hturn
  split at hturn
  · obtain ⟨fetched, hfetch, hturn⟩ := bind_eq_ok_iff.mp hturn
    have harray : ∀ c ∈ overwrite (List.replicate 20 0) (fetched.toOption.getD []),
        c = 0 ∨ c ∈ bareBytes := by
      intro c hc
      rcases mem_overwrite hc with hfetched | hzeros
      · exact Or.inr (h.data c (mem_of_fetch hfetch c hfetched))
      · exact Or.inl (List.eq_of_mem_replicate hzeros)
    dsimp only at hturn
    split at hturn
    · rename_i finish hfind
      split at hturn
      · rename_i size hsize
        obtain rfl : size = 0 :=
          zero_of_bare (fun c hc => harray c (List.mem_of_mem_take hc)) hsize
        refine Or.inr (Or.inr ⟨_, (Except.ok.inj hturn).symm, ?_, h.rest⟩)
        intro c hc
        exact h.data c (List.mem_of_mem_drop hc)
      · exact Or.inr (Or.inr ⟨self, (Except.ok.inj hturn).symm, h⟩)
    · obtain ⟨⟨socket, peeked⟩, hpeek, hturn⟩ := bind_eq_ok_iff.mp hturn
      obtain ⟨hsocket, hpeeked⟩ := mem_of_recv hpeek
      cases peeked with
      | none => exact Or.inl (Except.ok.inj hturn).symm
      | some peeked =>
          dsimp only at hturn
          split at hturn
          · exact Or.inl (Except.ok.inj hturn).symm
          · rename_i p hfind
            obtain ⟨⟨socket', taken⟩, htake, hturn⟩ := bind_eq_ok_iff.mp hturn
            obtain ⟨hsocket', -⟩ := mem_of_recv htake
            refine Or.inr (Or.inr ⟨_, (Except.ok.inj hturn).symm, ?_, ?_⟩)
            · intro c hc
              rcases List.mem_append.mp hc with hdata | hline
              · exact h.data c hdata
              · obtain ⟨hmem, hzero⟩ := mem_line hfind hline
                rcases mem_overwrite hmem with hnew | hold
                · exact h.rest c (hpeeked peeked rfl c hnew)
                · exact (harray c hold).resolve_left hzero
            · intro c hc
              exact h.rest c (hsocket c (hsocket' c hc))
  · rename_i hempty
    refine Or.inr (Or.inl ⟨(Except.ok.inj hturn).symm, ?_⟩)
    exact List.eq_nil_of_length_eq_zero (Nat.le_zero.mp (Nat.not_lt.mp hempty))

/-- Nothing is buffered, and no byte of a chunk is to come. -/
structure Emptied (buffer : RecvBuffer) : Prop where
  data : buffer.data = []
  rest : ∀ c ∈ buffer.serverSocket.rest, c ∈ bareBytes
  mode : (∃ total, buffer.length = .chunk 0 total ∨ buffer.length = .chunk noChunk total) ∨
    (∃ escape limit, buffer.length = .unknown escape limit) ∧
      buffer.serverSocket.rest = [] ∧ buffer.serverSocket.ending = .failed

theorem recvBufferSetLengthChunk_bare {self start : RecvBuffer} (h : Bare self)
    (hstart : recvBufferSetLengthChunk self = .ok start) : Emptied start := by
  rw [recvBufferSetLengthChunk] at hstart
  split at hstart
  · rw [httpChunkParseExistingBuffer] at hstart
    obtain ⟨found, hrun, hstart⟩ := bind_eq_ok_iff.mp hstart
    have hfound : found = none ∨ ∃ now, found = some (now, 0) ∧ Bare now ∧ now.data = [] := by
      apply run_partial (fun s => s.2 = 0 ∧ Bare s.1)
        (fun r => r = none ∨ ∃ now, r = some (now, 0) ∧ Bare now ∧ now.data = []) _ _
        ⟨rfl, h⟩ hrun
      · rintro ⟨s, total⟩ s' ⟨rfl, hs⟩ hturn
        rcases parseExistingTurn_bare hs hturn with hleave | ⟨hleave, -⟩ | ⟨next, hagain, hnext⟩
        · contradiction
        · contradiction
        · obtain rfl := Turn.again.inj hagain
          exact ⟨rfl, hnext⟩
      · rintro ⟨s, total⟩ r ⟨rfl, hs⟩ hturn
        rcases parseExistingTurn_bare hs hturn with hleave | ⟨hleave, hdata⟩ | ⟨next, hagain, -⟩
        · exact Or.inl (Turn.leave.inj hleave)
        · exact Or.inr ⟨s, Turn.leave.inj hleave, hs, hdata⟩
        · contradiction
    rcases hfound with rfl | ⟨now, rfl, hnow, hdata⟩
    · obtain rfl := Except.ok.inj hstart
      exact ⟨rfl, by simp [recvBufferSetLengthUnknown, Socket.rest],
        Or.inr ⟨⟨_, _, rfl⟩, rfl, rfl⟩⟩
    · obtain rfl := Except.ok.inj hstart
      have hlen : now.len = 0 := by rw [RecvBuffer.len, hdata, List.length_nil]
      refine ⟨hdata, hnow.rest, Or.inl ⟨0, Or.inl ?_⟩⟩
      simp [hlen]
  · rename_i hempty
    obtain rfl := Except.ok.inj hstart
    exact ⟨not_not.mp hempty, h.rest, Or.inl ⟨0, Or.inr rfl⟩⟩

end Existing

section Append

theorem mem_chunkSizeLine {first : Bool} {b hex : Bytes} {j : Nat}
    (h : chunkSizeLine first b = some (hex, j)) : ∀ c ∈ hex, c ∈ b := by
  rw [chunkSizeLine] at h
  split at h
  · obtain ⟨finish, -, h⟩ := Option.map_eq_some_iff.mp h
    rw [← (Prod.mk.inj h).1]
    exact fun c hc => List.mem_of_mem_take hc
  · obtain ⟨start, -, h⟩ := Option.bind_eq_some_iff.mp h
    obtain ⟨finish, -, h⟩ := Option.bind_eq_some_iff.mp h
    rw [← (Prod.mk.inj (Option.some.inj h)).1]
    exact fun c hc => List.mem_of_mem_drop (List.mem_of_mem_take hc)

theorem appendChunkTurn_bare {self : RecvBuffer} {next total len : Nat} {label : ChunkLabel}
    (hdata : self.data = []) (hrest : ∀ c ∈ self.serverSocket.rest, c ∈ bareBytes)
    (hlabel : label = .iterate → next = 0)
    {turn : Turn (RecvBuffer × Nat × Nat × Nat × ChunkLabel) (RecvBuffer × Option ErrorMessage)}
    (hturn : appendChunkTurn (self, next, total, len, label) = .ok turn) :
    turn = .again (self, next, total, len, .parse) ∨
      ∃ self' e, turn = .leave (self', e) ∧ self'.data = [] := by
  cases label with
  | iterate =>
      obtain rfl := hlabel rfl
      rw [appendChunkTurn, if_neg (fun h => absurd h.2 (lt_irrefl 0))] at hturn
      split at hturn
      · exact Or.inr ⟨self, none, (Except.ok.inj hturn).symm, hdata⟩
      · exact Or.inl (Except.ok.inj hturn).symm
  | parse =>
      right
      rw [appendChunkTurn] at hturn
      obtain ⟨⟨socket, k⟩, hpeek, hturn⟩ := bind_eq_ok_iff.mp hturn
      obtain ⟨-, hpeeked⟩ := mem_of_recv hpeek
      cases k with
      | none => exact ⟨_, _, (Except.ok.inj hturn).symm, hdata⟩
      | some b =>
          simp only at hturn
          by_cases hshort : b.length < (if next = noChunk then 3 else 5)
          · rw [if_pos hshort] at hturn
            exact ⟨_, _, (Except.ok.inj hturn).symm, hdata⟩
          · rw [if_neg hshort] at hturn
            split at hturn
            · exact ⟨_, _, (Except.ok.inj hturn).symm, hdata⟩
            · rename_i hex j hline
              split at hturn
              · exact ⟨_, _, (Except.ok.inj hturn).symm, hdata⟩
              · rename_i l hsize
                obtain ⟨⟨socket', read⟩, -, hturn⟩ := bind_eq_ok_iff.mp hturn
                have hl : l = 0 := by
                  apply zero_of_bare _ hsize
                  intro c hc
                  have hmem := (List.takeWhile_prefix _).subset (mem_chunkSizeLine hline c hc)
                  exact Or.inr (hrest c (hpeeked b rfl c hmem))
                subst hl
                cases read with
                | none => exact ⟨_, _, (Except.ok.inj hturn).symm, hdata⟩
                | some read => exact ⟨_, _, (Except.ok.inj hturn).symm, hdata⟩

theorem Emptied.append {self self' : RecvBuffer} {len : Nat} {e : Option ErrorMessage}
    (h : Emptied self) (happend : recvBufferAppend self len = .ok (self', e)) :
    self'.data = [] := by
  have hchunk : ∀ next total, self.length = .chunk next total → (next = 0 ∨ next = noChunk) →
      self'.data = [] := by
    intro next total hmode hnext
    rw [recvBufferAppend, hmode] at happend
    apply run_partial (fun s => s.1.data = [] ∧ (∀ c ∈ s.1.serverSocket.rest, c ∈ bareBytes) ∧
      (s.2.2.2.2 = .iterate → s.2.1 = 0)) (fun r => r.1.data = []) _ _ _ happend
    · rintro ⟨s, next, total, len, label⟩ s' ⟨hdata, hrest, hlabel⟩ hturn
      rcases appendChunkTurn_bare hdata hrest hlabel hturn with hagain | ⟨now, e, hleave, -⟩
      · obtain rfl := Turn.again.inj hagain
        exact ⟨hdata, hrest, fun hiterate => ChunkLabel.noConfusion hiterate⟩
      · contradiction
    · rintro ⟨s, next, total, len, label⟩ r ⟨hdata, hrest, hlabel⟩ hturn
      rcases appendChunkTurn_bare hdata hrest hlabel hturn with hagain | ⟨now, e, hleave, hnow⟩
      · contradiction
      · rw [Turn.leave.inj hleave]
        exact hnow
    · refine ⟨h.data, h.rest, fun hiterate => ?_⟩
      rcases hnext with rfl | rfl
      · rfl
      · simp at hiterate
  rcases h.mode with ⟨total, hmode | hmode⟩ | ⟨⟨escape, limit, hmode⟩, hrest, hending⟩
  · exact hchunk 0 total hmode (Or.inl rfl)
  · exact hchunk noChunk total hmode (Or.inr rfl)
  · have hrun : run (appendTurn len) (len + 1) (⟨some self.data, .unknown escape limit,
        self.serverSocket⟩, 0) = .ok (self', e) := by
      rw [← happend, recvBufferAppend, hmode]
    obtain ⟨socket, -, -, hrecv⟩ := recv_of_end (min (len - 0) Recvbufr.sbDataSize) false hrest
    rw [hending] at hrecv
    by_cases hlen : 0 < len
    · have hleave : appendTurn len (⟨some self.data, .unknown escape limit, self.serverSocket⟩, 0) =
          .ok (.leave (⟨some self.data, .unknown escape limit, socket⟩, some .socketError)) := by
        simp only [appendTurn, hlen, if_true, hrecv, ok_bind]
      rw [run_succ_leave _ hleave] at hrun
      rw [← (Prod.mk.inj (Except.ok.inj hrun)).1]
      exact h.data
    · have hleave : appendTurn len (⟨some self.data, .unknown escape limit, self.serverSocket⟩, 0) =
          .ok (.leave (⟨some self.data, .unknown escape limit, self.serverSocket⟩, none)) := by
        simp only [appendTurn, hlen, if_false]
      rw [run_succ_leave _ hleave] at hrun
      rw [← (Prod.mk.inj (Except.ok.inj hrun)).1]
      exact h.data

theorem Emptied.read {self self' : HttpSite} {size : Nat} {data : Option Bytes}
    (h : Emptied self.socket) (hread : httpSiteSchemeFileRead self size = .ok (self', data)) :
    data = none ∨ data = some [] := by
  rw [httpSiteSchemeFileRead] at hread
  split at hread
  · obtain ⟨⟨socket, e⟩, happend, hread⟩ := bind_eq_ok_iff.mp hread
    have hdata := h.append happend
    have hnothing : (socket.data.take (min socket.len size)) = [] := by
      rw [hdata, List.take_nil]
    dsimp only at hread
    split at hread
    · exact Or.inr ((Prod.mk.inj (Except.ok.inj hread)).2.symm.trans (congrArg some hnothing))
    · exact Or.inr ((Prod.mk.inj (Except.ok.inj hread)).2.symm.trans (congrArg some hnothing))
    · exact Or.inr ((Prod.mk.inj (Except.ok.inj hread)).2.symm.trans (congrArg some hnothing))
    · exact Or.inl (Prod.mk.inj (Except.ok.inj hread)).2.symm
  · right
    rw [← (Prod.mk.inj (Except.ok.inj hread)).2, h.data, List.take_nil]

end Append

end Newth.Client.BareChunks
