import Newth.Client.ChunkedBody

namespace Newth.Client.PageSearch

open Newth.Library.ByteString
open Newth.Library.Call
open Newth.Platform.FindString
open Newth.Client.Recvbufr
open Newth.Client.Search
open Newth.Client.ChunkedBody

section Feeds

/-- What is left of a page comes with its length known, in any pieces, or in chunks that
have all arrived. -/
inductive Feeding (page : Bytes) (buffer : RecvBuffer) : Prop where
  | known (h : Reading page buffer)
  | chunked (h : Decoded page buffer) (harrived : buffer.serverSocket.arrivals = [])

variable {page : Bytes} {buffer : RecvBuffer}

theorem Feeding.len_le (h : Feeding page buffer) : buffer.len ≤ page.length := by
  cases h with
  | known h => exact h.len_le
  | chunked h harrived => exact h.isPrefix.1.length_le

theorem Feeding.data_eq (h : Feeding page buffer) : buffer.data = page.take buffer.len := by
  cases h with
  | known h => exact h.data_eq
  | chunked h harrived => exact List.prefix_iff_eq_take.mp h.isPrefix.1

theorem Feeding.len_eq (h : Feeding page buffer) (hcomplete : buffer.length = .complete) :
    buffer.len = page.length := by
  cases h with
  | known h => exact h.complete_iff.mp hcomplete
  | chunked h harrived => rw [RecvBuffer.len, h.isPrefix.2 hcomplete]

theorem Feeding.length_le (h : Feeding page buffer) :
    page.length ≤ buffer.len + buffer.serverSocket.rest.length := by
  cases h with
  | known h =>
      by_cases hmore : buffer.len < page.length
      · exact (h.rest_length hmore).ge
      · omega
  | chunked h harrived =>
      rcases h with ⟨-, hdata⟩ | ⟨next, total, -, hmidway⟩
      · rw [RecvBuffer.len, hdata]
        exact Nat.le_add_right _ _
      · exact hmidway.length_le

theorem Feeding.ditch (h : Feeding page buffer) {n : Nat} (hn : n ≤ buffer.len) :
    Feeding (page.drop n) (recvBufferDitch buffer n) := by
  cases h with
  | known h => exact .known (h.ditch hn)
  | chunked h harrived =>
      exact .chunked (h.ditch hn) (by rwa [recvBufferDitch_serverSocket])

/-- Behind the last byte of a chunked page one more append is made before it is complete. -/
theorem Feeding.append (h : Feeding page buffer) (hmore : buffer.length ≠ .complete) {n : Nat}
    (hn : 0 < n) : ∃ buffer', recvBufferAppend buffer n = .ok (buffer', none) ∧
      Feeding page buffer' ∧ buffer'.len = min (buffer.len + n) page.length ∧
      (page.length < buffer.len + n → buffer'.length = .complete) := by
  cases h with
  | known h =>
      have hless : buffer.len < page.length :=
        lt_of_le_of_ne h.len_le fun hall => hmore (h.complete_iff.mpr hall)
      obtain ⟨buffer', happend, hreading, hlen⟩ := h.append hless n
      refine ⟨buffer', happend, .known hreading, hlen, fun hlast => ?_⟩
      rw [hreading.complete_iff]
      omega
  | chunked h harrived =>
      obtain ⟨buffer', happend, hdecoded, left, hbrings, hdone⟩ := h.append ⟨hn, hmore⟩
      obtain ⟨harrived', hsum⟩ := hbrings harrived
      have hfeeding : Feeding page buffer' := .chunked hdecoded harrived'
      have hle := hfeeding.len_le
      refine ⟨buffer', happend, hfeeding, ?_, fun hlast => ?_⟩
      · rcases hdone with hcomplete | rfl
        · have hall := hfeeding.len_eq hcomplete
          omega
        · omega
      · apply hdone.resolve_right
        rintro rfl
        omega

end Feeds

section Fill

/-- `pos` bytes of the page are read, and the buffer ends where the first fill or
one of the refills after it ended. -/
structure At (page : Bytes) (first pos : Nat) (buffer : RecvBuffer) : Prop where
  feeding : Feeding (page.drop pos) buffer
  behind : pos ≤ page.length
  refill : ∃ k, pos + buffer.len = min (first + sbDataSize * k) page.length

variable {page token : Bytes} {first pos o : Nat} {self : RecvBuffer}

theorem At.start (h : Feeding page self) : At page self.len 0 self where
  feeding := by simpa using h
  behind := Nat.zero_le _
  refill := ⟨0, by have hle := h.len_le; omega⟩

theorem At.end_le (h : At page first pos self) : pos + self.len ≤ page.length := by
  have hle := h.feeding.len_le
  rw [List.length_drop] at hle
  have hbehind := h.behind
  omega

theorem At.data_eq (h : At page first pos self) : self.data = (page.drop pos).take self.len :=
  h.feeding.data_eq

theorem At.end_eq (h : At page first pos self) (hcomplete : self.length = .complete) :
    pos + self.len = page.length := by
  have hall := h.feeding.len_eq hcomplete
  have hbehind := h.behind
  rw [List.length_drop] at hall
  omega

theorem At.ditch (h : At page first pos self) {n : Nat} (hn : n ≤ self.len) :
    At page first (pos + n) (recvBufferDitch self n) where
  feeding := by
    rw [← List.drop_drop]
    exact h.feeding.ditch hn
  behind := by
    have hend := h.end_le
    omega
  refill := by
    obtain ⟨k, hk⟩ := h.refill
    refine ⟨k, ?_⟩
    rw [recvBufferDitch_len]
    omega

theorem At.grow (h : At page first pos self) (hmore : self.length ≠ .complete) :
    ∃ self', recvBufferAppend self sbDataSize = .ok (self', none) ∧ At page first pos self' ∧
      self'.len = min (self.len + sbDataSize) (page.length - pos) ∧
      (page.length < pos + self.len + sbDataSize → self'.length = .complete) := by
  obtain ⟨self', happend, hfeeding, hlen, hlast⟩ :=
    h.feeding.append hmore (show 0 < sbDataSize by decide)
  have hbehind := h.behind
  rw [List.length_drop] at hlen hlast
  refine ⟨self', happend, ⟨hfeeding, hbehind, ?_⟩, hlen, fun hshort => hlast (by omega)⟩
  obtain ⟨k, hk⟩ := h.refill
  refine ⟨k + 1, ?_⟩
  rw [hlen, Nat.mul_succ]
  omega

theorem At.append (h : At page first pos self) (hmore : pos + self.len < page.length) :
    ∃ self', recvBufferAppend self sbDataSize = .ok (self', none) ∧ At page first pos self' ∧
      self'.len = min (self.len + sbDataSize) (page.length - pos) := by
  obtain ⟨self', happend, hat, hlen, -⟩ := h.grow fun hcomplete => by
    have hall := h.end_eq hcomplete
    omega
  exact ⟨self', happend, hat, hlen⟩

theorem recvBufferFind_at (h : At page first pos self) (htoken : 2 ≤ token.length)
    (hlen : 0 < self.len) :
    recvBufferFind self 0 token =
      .ok (platformStringFindNeedleRaw ((page.drop pos).take self.len) token) := by
  rw [recvBufferFind_eq htoken hlen, h.data_eq]

theorem At.fill (h : At page first pos self) {len : Nat} (hpos : 0 < len)
    (hlen : len ≤ sbDataSize) (hlong : pos + len ≤ page.length) :
    ∃ self', run (fillTurn len) (patience self) self = .ok (self', none) ∧
      At page first pos self' ∧ len ≤ self'.len ∧
      (self' = self ∨
        self.len < len ∧ self'.len = min (self.len + sbDataSize) (page.length - pos)) := by
  rw [patience]
  by_cases henough : len ≤ self.len
  · exact ⟨self, run_succ_leave _ (fillTurn_enough hpos henough), h, henough, .inl rfl⟩
  · obtain ⟨self', happend, hat, hlen'⟩ := h.append (by omega)
    have hturn : fillTurn len self = .ok (.again self') := by
      rw [fillTurn, if_pos (.inr (Nat.not_le.mp henough)), happend]
      rfl
    have hfull : len ≤ self'.len := by omega
    refine ⟨self', ?_, hat, hfull, .inr ⟨Nat.not_le.mp henough, hlen'⟩⟩
    rw [run_succ_again _ hturn]
    exact run_succ_leave _ (fillTurn_enough hpos hfull)

end Fill

section Ditch

variable {page token : Bytes} {first pos o : Nat} {self : RecvBuffer}

theorem ditchTurn_near (h : At page first pos self) (htoken : 2 ≤ token.length)
    (hlen : token.length ≤ self.len) (d : Nat)
    (hfind : platformStringFindNeedleRaw (page.drop pos) token = some o)
    (hnear : o + token.length ≤ self.len + sbDataSize) :
    ∃ self', ditchTurn token (self, d) = .ok (.leave (self', .ok (o, d))) ∧
      At page first pos self' ∧ o + token.length ≤ self'.len ∧ self.len ≤ self'.len := by
  have hne : token ≠ [] := List.ne_nil_of_length_pos (by omega)
  have hbound := needleRaw_bound hne hfind
  rw [List.length_drop] at hbound
  simp only [ditchTurn]
  rw [recvBufferFind_at h htoken (by omega), needleRaw_take hne hfind]
  split
  · rename_i hhere
    exact ⟨self, rfl, h, hhere, le_rfl⟩
  · rename_i hlater
    obtain ⟨self', happend, hat, hlen'⟩ := h.append (by omega)
    have hhere : o + token.length ≤ self'.len := by omega
    refine ⟨self', ?_, hat, hhere, by omega⟩
    rw [ok_bind, happend, ok_bind]
    simp only
    rw [recvBufferFind_at hat htoken (by omega), needleRaw_take hne hfind, if_pos hhere]
    rfl

theorem recvBufferFindAndDitch_near (h : At page first pos self) (htoken : 2 ≤ token.length)
    (hsmall : token.length ≤ sbDataSize)
    (hfind : platformStringFindNeedleRaw (page.drop pos) token = some o) (hone : o ≠ 1)
    (hnear : o + token.length ≤ self.len + sbDataSize) :
    ∃ self' r, recvBufferFindAndDitch self token = .ok (self', r) ∧
      At page first (pos + o) self' ∧ token.length ≤ self'.len ∧ self.len ≤ o + self'.len := by
  have hne : token ≠ [] := List.ne_nil_of_length_pos (by omega)
  have hbound := needleRaw_bound hne hfind
  rw [List.length_drop] at hbound
  have hbehind := h.behind
  obtain ⟨filled, hfill, hfilled, hlen, hgrown⟩ := h.fill (by omega) hsmall (by omega)
  have hmore : self.len ≤ filled.len := by
    rcases hgrown with rfl | ⟨hless, -⟩
    · rfl
    · omega
  obtain ⟨found, hturn, hat, hhere, hkept⟩ :=
    ditchTurn_near hfilled htoken hlen 0 hfind (by omega)
  rw [recvBufferFindAndDitch, hfill, ok_bind]
  simp only
  rw [patience, run_succ_leave _ hturn, ok_bind]
  simp only
  by_cases hditch : 1 < o
  · rw [if_pos hditch]
    refine ⟨_, _, rfl, hat.ditch (by omega), ?_⟩
    rw [recvBufferDitch_len]
    omega
  · obtain rfl : o = 0 := by omega
    rw [if_neg hditch]
    exact ⟨_, _, rfl, hat, by omega⟩

/-- What a search that finds nothing may still append. -/
def toCome (page : Bytes) (pos : Nat) (buffer : RecvBuffer) : Nat :=
  page.length - (pos + buffer.len) + if buffer.length = .complete then 0 else 1

theorem ditchTurn_none (h : At page first pos self) (htoken : 2 ≤ token.length)
    (hlen : token.length ≤ self.len) (d : Nat)
    (hfind : platformStringFindNeedleRaw (page.drop pos) token = none) :
    (self.length = .complete ∧
        ditchTurn token (self, d) = .ok (.leave (self, .error .requestCompleted))) ∨
      ∃ self' n, ditchTurn token (self, d) = .ok (.again (self', d + n)) ∧
        At page first (pos + n) self' ∧ token.length ≤ self'.len ∧
        toCome page (pos + n) self' < toCome page pos self := by
  have hne : token ≠ [] := List.ne_nil_of_length_pos (by omega)
  have hcut : ∀ n, platformStringFindNeedleRaw ((page.drop pos).take n) token = none :=
    fun n => needleRaw_of_infix hne (List.take_prefix _ _).isInfix hfind
  simp only [ditchTurn]
  rw [recvBufferFind_at h htoken (by omega), hcut, ok_bind]
  have hend := h.end_le
  by_cases hcomplete : self.length = .complete
  · exact .inl ⟨hcomplete, by simp only [recvBufferAppend_complete hcomplete, ok_bind]⟩
  · right
    obtain ⟨self', happend, hat, hlen', hlast⟩ := h.grow hcomplete
    have hsb : 0 < sbDataSize := by decide
    refine ⟨recvBufferDitch self' (self'.len - token.length), self'.len - token.length, ?_,
      hat.ditch (Nat.sub_le _ _), ?_, ?_⟩
    · simp only [happend, ok_bind]
      rw [recvBufferFind_at hat htoken (by omega), hcut]
      rfl
    · rw [recvBufferDitch_len]
      omega
    · rw [toCome, toCome, recvBufferDitch_len, recvBufferDitch_length, if_neg hcomplete]
      by_cases hshort : page.length < pos + self.len + sbDataSize
      · rw [if_pos (hlast hshort)]
        omega
      · have hone : (if self'.length = .complete then 0 else 1) ≤ 1 := by
          split <;> decide
        omega

theorem recvBufferFindAndDitch_none (h : At page first pos self) (htoken : 2 ≤ token.length)
    (hsmall : token.length ≤ sbDataSize) (hlong : pos + token.length ≤ page.length)
    (hfind : platformStringFindNeedleRaw (page.drop pos) token = none) :
    ∃ self' r pos', recvBufferFindAndDitch self token = .ok (self', r) ∧
      At page first pos' self' ∧ pos ≤ pos' ∧ self'.length = .complete := by
  have hne : token ≠ [] := List.ne_nil_of_length_pos (by omega)
  obtain ⟨filled, hfill, hfilled, hlen, -⟩ := h.fill (by omega) hsmall hlong
  let invariant : RecvBuffer × Nat → Prop := fun s =>
    At page first (pos + s.2) s.1 ∧ token.length ≤ s.1.len
  let post : RecvBuffer × Except ErrorMessage (Nat × Nat) → Prop := fun r =>
    r.2 = .error .requestCompleted ∧ r.1.length = .complete ∧
      ∃ pos', pos ≤ pos' ∧ At page first pos' r.1
  obtain ⟨⟨last, found⟩, hrun, herror, hcomplete, pos', hpos, hat⟩ :
      ∃ r, run (ditchTurn token) (patience filled) (filled, 0) = .ok r ∧ post r := by
    apply run_total invariant fun s => toCome page (pos + s.2) s.1
    · rintro ⟨s, d⟩ ⟨hat, hlen⟩
      simp only at hat hlen
      have hnone : platformStringFindNeedleRaw (page.drop (pos + d)) token = none := by
        apply needleRaw_of_infix hne _ hfind
        rw [← List.drop_drop]
        exact (List.drop_suffix _ _).isInfix
      rcases ditchTurn_none hat htoken hlen d hnone with ⟨hcomplete, hturn⟩ |
        ⟨self', n, hturn, hat', hlen', hless⟩
      · exact ⟨_, hturn, rfl, hcomplete, pos + d, Nat.le_add_right _ _, hat⟩
      · rw [Nat.add_assoc] at hat' hless
        exact ⟨_, hturn, ⟨hat', hlen'⟩, hless⟩
    · exact ⟨hfilled, hlen⟩
    · have hleft := hfilled.feeding.length_le
      rw [List.length_drop] at hleft
      show toCome page pos filled < patience filled
      rw [toCome, patience]
      split <;> omega
  simp only at herror hcomplete hat
  subst herror
  refine ⟨last, .error .requestCompleted, pos', ?_, hat, hpos, hcomplete⟩
  rw [recvBufferFindAndDitch, hfill, ok_bind]
  simp only [hrun, ok_bind]

end Ditch

section Fetch

variable {page token : Bytes} {first pos o max : Nat} {self : RecvBuffer}

theorem fetchTurn_found (h : At page first pos self) (htoken : 2 ≤ token.length)
    (hfind : platformStringFindNeedleRaw (page.drop pos) token = some o)
    (hhere : o + token.length ≤ self.len) :
    fetchTurn token max self = .ok (.leave (self, none)) := by
  have hne : token ≠ [] := List.ne_nil_of_length_pos (by omega)
  rw [fetchTurn, recvBufferFind_at h htoken (by omega), needleRaw_take hne hfind, if_pos hhere]
  rfl

theorem fetch_run (h : At page first pos self) (htoken : 2 ≤ token.length) (hlen : 0 < self.len)
    (hfind : platformStringFindNeedleRaw (page.drop pos) token = some o)
    (hnear : o + token.length ≤ self.len + sbDataSize)
    (hwhole : o + token.length ≤ self.len ∨ page.length ≤ pos + max) (fuel : Nat) :
    ∃ self', run (fetchTurn token max) (fuel + 2) self = .ok (self', none) ∧
      At page first pos self' ∧ o + token.length ≤ self'.len := by
  have hne : token ≠ [] := List.ne_nil_of_length_pos (by omega)
  have hbound := needleRaw_bound hne hfind
  rw [List.length_drop] at hbound
  by_cases hhere : o + token.length ≤ self.len
  · exact ⟨self, run_succ_leave _ (fetchTurn_found h htoken hfind hhere), h, hhere⟩
  · obtain ⟨self', happend, hat, hlen'⟩ := h.append (by omega)
    have hfits : ¬ max < self'.len := by omega
    have hturn : fetchTurn token max self = .ok (.again self') := by
      rw [fetchTurn, recvBufferFind_at h htoken hlen, needleRaw_take hne hfind, if_neg hhere,
        ok_bind]
      simp only [happend, ok_bind, if_neg hfits]
      rfl
    have hhere' : o + token.length ≤ self'.len := by omega
    refine ⟨self', ?_, hat, hhere'⟩
    rw [run_succ_again _ hturn]
    exact run_succ_leave _ (fetchTurn_found hat htoken hfind hhere')

theorem recvBufferFindAndFetch_found (h : At page first pos self) (htoken : 2 ≤ token.length)
    (hmax : token.length ≤ max)
    (hfind : platformStringFindNeedleRaw (page.drop pos) token = some o) (hpos : 0 < o)
    (hnear : o + token.length ≤ sbDataSize)
    (hwhole : o + token.length ≤ self.len ∨ self.len ≤ token.length ∨ page.length ≤ pos + max) :
    ∃ self', recvBufferFindAndFetch self token max = .ok (self', none) ∧
      At page first pos self' ∧ o + token.length ≤ self'.len := by
  have hne : token ≠ [] := List.ne_nil_of_length_pos (by omega)
  have hbound := needleRaw_bound hne hfind
  rw [List.length_drop] at hbound
  obtain ⟨filled, hfill, hfilled, hlen, hgrown⟩ :=
    h.fill (show 0 < token.length by omega) (by omega) (by omega)
  rw [recvBufferFindAndFetch, if_neg (by omega), hfill, ok_bind]
  simp only [Option.isSome_none, Bool.false_eq_true, if_false]
  by_cases hmore : filled.len ≤ token.length
  · obtain ⟨self', happend, hat, hlen'⟩ := hfilled.append (by omega)
    rw [if_pos hmore, happend, ok_bind]
    exact fetch_run hat htoken (by omega) hfind (by omega) (.inl (by omega)) _
  · rw [if_neg hmore, ok_bind]
    have hwhole' : o + token.length ≤ filled.len ∨ page.length ≤ pos + max := by
      rcases hgrown with rfl | ⟨hless, hgrown⟩
      · omega
      · omega
    exact fetch_run hfilled htoken (by omega) hfind (by omega) hwhole' _

end Fetch

end Newth.Client.PageSearch
