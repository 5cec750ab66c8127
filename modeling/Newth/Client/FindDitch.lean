import Newth.Client.SearchEnds

namespace Newth.Client.FindDitch

open Newth.Library.ByteString
open Newth.Library.Call
open Newth.Platform.FindString
open Newth.Client.Recvbufr
open Newth.Client.Search
open Newth.Client.SearchEnds

section Appends

/-- The modes in which `recvBufferAppend` only counts what it appends. -/
def Counting (length : RecvBufferLength) : Prop :=
  match length with
  | .unknown _ _ | .known _ _ | .complete => True
  | .chunk _ _ | .token _ _ => False

theorem recv_keeps {self socket : Socket} {n : Nat} {l : Option Bytes}
    (h : recv self n false = .ok (socket, l)) : l.getD [] ++ socket.rest = self.rest := by
  obtain ⟨hflat, hnil⟩ := awaitByte_spec self.ready self.arrivals
  rw [recv] at h
  split at h
  · rename_i later hawait
    rw [hawait] at hflat hnil
    have hrest : later.flatten = self.rest := hflat
    split at h
    · simp at h
    · obtain ⟨rfl, rfl⟩ := Prod.mk.inj (Except.ok.inj h)
      simpa [Socket.rest] using hrest
    · obtain ⟨rfl, rfl⟩ := Prod.mk.inj (Except.ok.inj h)
      simpa [Socket.rest] using hrest
  · rename_i ready later _ hawait
    rw [hawait] at hflat
    obtain ⟨rfl, rfl⟩ := Prod.mk.inj (Except.ok.inj h)
    have hsame : ready.take n ++ (ready.drop n ++ later.flatten) = self.rest := by
      rw [← List.append_assoc, List.take_append_drop]
      exact hflat
    simpa [Socket.rest] using hsame

/-- What `added` bytes that have come off the connection leave of it. -/
structure Grown (before after : RecvBuffer) (added : Bytes) : Prop where
  data : after.data = before.data ++ added
  rest : added ++ after.serverSocket.rest = before.serverSocket.rest
  counting : Counting after.length

theorem dataIncrement_spec {self : RecvBuffer} (h : Counting self.length) (added : Nat) :
    (dataIncrement self added).1.data = self.data ∧
      (dataIncrement self added).1.serverSocket = self.serverSocket ∧
      Counting (dataIncrement self added).1.length := by
  cases hmode : self.length with
  | known escape total =>
      simp only [dataIncrement, hmode]
      split
      · exact ⟨rfl, rfl, trivial⟩
      · exact ⟨rfl, rfl, trivial⟩
  | unknown escape limit =>
      simp only [dataIncrement, hmode]
      exact ⟨rfl, trivial, trivial⟩
  | complete =>
      simp only [dataIncrement, hmode]
      exact ⟨trivial, trivial, trivial⟩
  | token token length => simp [Counting, hmode] at h
  | chunk next total => simp [Counting, hmode] at h

theorem plain_of_counting {self : RecvBuffer} (h : Counting self.length) : Plain self := by
  intro next total hmode
  simp [Counting, hmode] at h

/-- What an append has to leave: bytes that came off the connection, some of them when it
succeeds, and none when it fails for another reason than its socket. -/
def Brought (self : RecvBuffer) (r : RecvBuffer × Option ErrorMessage) : Prop :=
  ∃ added, Grown self r.1 added ∧ (r.2 = none → added ≠ []) ∧
    (∀ e, r.2 = some e → e ≠ .socketError → added = [])

theorem appendTurn_brought {self now : RecvBuffer} {len : Nat} {added : Bytes} (hlen : 0 < len)
    (h : Grown self now added)
    {turn : Turn (RecvBuffer × Nat) (RecvBuffer × Option ErrorMessage)}
    (hturn : appendTurn len (now, added.length) = .ok turn) :
    match turn with
    | .again s => ∃ added, Grown self s.1 added ∧ added.length = s.2
    | .leave r => Brought self r := by
  by_cases hi : added.length < len
  · simp only [appendTurn, hi, if_true, bind_eq_ok_iff, Prod.exists] at hturn
    obtain ⟨socket, l, hrecv, hturn⟩ := hturn
    have hkeeps := recv_keeps hrecv
    cases l with
    | none =>
        obtain rfl := Except.ok.inj hturn
        exact ⟨added, ⟨h.data, by rw [← h.rest, ← hkeeps]; rfl, h.counting⟩, by simp, by simp⟩
    | some data =>
        cases data with
        | nil =>
            obtain rfl := Except.ok.inj hturn
            have hgrown : Grown self { now with serverSocket := socket } added :=
              ⟨h.data, by rw [← h.rest, ← hkeeps]; rfl, h.counting⟩
            refine ⟨added, hgrown, ?_, ?_⟩
            · intro he hnil
              simp [hnil] at he
            · intro e he _
              by_contra hnil
              simp [hnil] at he
        | cons c data =>
            have hmode : Counting
                (bufferAppend { now with serverSocket := socket } (c :: data)).length := h.counting
            obtain ⟨hdata, hsocket, hcounting⟩ := dataIncrement_spec hmode (c :: data).length
            have hgrown : Grown self (dataIncrement
                (bufferAppend { now with serverSocket := socket } (c :: data))
                (c :: data).length).1 (added ++ c :: data) := by
              refine ⟨?_, ?_, hcounting⟩
              · rw [hdata, bufferAppend_data, ← List.append_assoc, ← h.data]
                rfl
              · rw [hsocket, ← h.rest, ← hkeeps, List.append_assoc]
                rfl
            simp only at hturn
            split at hturn
            · rename_i after hincrement
              obtain rfl := Except.ok.inj hturn
              rw [hincrement] at hgrown
              exact ⟨_, hgrown, by simp, by simp⟩
            · rename_i after hincrement
              obtain rfl := Except.ok.inj hturn
              rw [hincrement] at hgrown
              exact ⟨_, hgrown, List.length_append⟩
  · simp only [appendTurn, hi, if_false] at hturn
    obtain rfl := Except.ok.inj hturn
    refine ⟨added, h, fun _ hnil => ?_, by simp⟩
    rw [hnil] at hi
    exact hi hlen

theorem recvBufferAppend_brought {self : RecvBuffer} {len : Nat}
    {r : RecvBuffer × Option ErrorMessage} (hmode : Counting self.length) (hlen : 0 < len)
    (h : recvBufferAppend self len = .ok r) : Brought self r := by
  by_cases hcomplete : self.length = .complete
  · rw [recvBufferAppend_complete hcomplete] at h
    obtain rfl := Except.ok.inj h
    exact ⟨[], ⟨(List.append_nil _).symm, rfl, hmode⟩, by simp, by simp⟩
  · rw [recvBufferAppend_plain (plain_of_counting hmode) hcomplete] at h
    refine run_partial (fun s => ∃ added, Grown self s.1 added ∧ added.length = s.2)
      (Brought self) ?_ ?_ ?_ h
    · rintro ⟨now, i⟩ s' ⟨added, hgrown, rfl⟩ hturn
      exact appendTurn_brought hlen hgrown hturn
    · rintro ⟨now, i⟩ r ⟨added, hgrown, rfl⟩ hturn
      exact appendTurn_brought hlen hgrown hturn
    · exact ⟨[], ⟨(List.append_nil _).symm, rfl, hmode⟩, rfl⟩

end Appends

section Ditched

/-- A buffer and what it would hold had nothing been ditched. -/
structure Ditched (pre : Bytes) (whole now : RecvBuffer) : Prop where
  data : whole.data = pre ++ now.data
  length : whole.length = now.length
  socket : whole.serverSocket = now.serverSocket
  counting : Counting now.length

theorem Ditched.dataIncrement {pre : Bytes} {whole now : RecvBuffer} (h : Ditched pre whole now)
    (added : Nat) :
    Ditched pre (dataIncrement whole added).1 (dataIncrement now added).1 ∧
      (dataIncrement whole added).2 = (dataIncrement now added).2 := by
  have hcounting := h.counting
  cases hmode : now.length with
  | known escape total =>
      have hmode' := h.length.trans hmode
      simp only [Recvbufr.dataIncrement, hmode, hmode']
      split
      · exact ⟨⟨h.data, rfl, h.socket, trivial⟩, rfl⟩
      · exact ⟨⟨h.data, rfl, h.socket, trivial⟩, rfl⟩
  | unknown escape limit =>
      have hmode' := h.length.trans hmode
      simp only [Recvbufr.dataIncrement, hmode, hmode']
      exact ⟨⟨h.data, rfl, h.socket, trivial⟩, trivial⟩
  | complete =>
      have hmode' := h.length.trans hmode
      simp only [Recvbufr.dataIncrement, hmode, hmode']
      exact ⟨h, trivial⟩
  | token token length => simp [Counting, hmode] at hcounting
  | chunk next total => simp [Counting, hmode] at hcounting

theorem Ditched.appendTurn {pre : Bytes} {whole now : RecvBuffer} (h : Ditched pre whole now)
    (len i : Nat) :
    Agree (InStep (fun s t => Ditched pre s.1 t.1 ∧ s.2 = t.2)
        (fun r r' => Ditched pre r.1 r'.1 ∧ r.2 = r'.2))
      (appendTurn len (whole, i)) (appendTurn len (now, i)) := by
  by_cases hi : i < len
  · simp only [Recvbufr.appendTurn, hi, if_true, h.socket]
    rcases recv now.serverSocket (min (len - i) sbDataSize) false with stop | ⟨socket, l⟩
    · rfl
    · simp only [ok_bind]
      rcases l with _ | _ | ⟨c, data⟩
      · exact ⟨⟨h.data, h.length, rfl, h.counting⟩, rfl⟩
      · exact ⟨⟨h.data, h.length, rfl, h.counting⟩, rfl⟩
      · have hnext : Ditched pre (bufferAppend { whole with serverSocket := socket } (c :: data))
            (bufferAppend { now with serverSocket := socket } (c :: data)) := by
          refine ⟨?_, h.length, rfl, h.counting⟩
          rw [bufferAppend_data, bufferAppend_data, ← List.append_assoc]
          exact congrArg (· ++ c :: data) h.data
        obtain ⟨hditched, hstop⟩ := hnext.dataIncrement (c :: data).length
        cases hnow : Recvbufr.dataIncrement
            (bufferAppend { now with serverSocket := socket } (c :: data)) (c :: data).length with
        | mk after stop =>
            cases hwhole : Recvbufr.dataIncrement
                (bufferAppend { whole with serverSocket := socket } (c :: data))
                (c :: data).length with
            | mk after' stop' =>
                rw [hnow, hwhole] at hditched hstop
                obtain rfl : stop' = stop := hstop
                cases stop' with
                | true => simp only [hnow, hwhole]; exact ⟨hditched, rfl⟩
                | false => simp only [hnow, hwhole]; exact ⟨hditched, rfl⟩
  · simp only [Recvbufr.appendTurn, hi, if_false]
    exact ⟨h, rfl⟩

theorem Ditched.append {pre : Bytes} {whole now now' : RecvBuffer} {e : Option ErrorMessage}
    (h : Ditched pre whole now) {len : Nat} (happend : recvBufferAppend now len = .ok (now', e)) :
    ∃ whole', recvBufferAppend whole len = .ok (whole', e) ∧ Ditched pre whole' now' := by
  have hcounting' : Counting whole.length := by
    rw [h.length]
    exact h.counting
  by_cases hcomplete : now.length = .complete
  · rw [recvBufferAppend_complete hcomplete] at happend
    obtain ⟨rfl, rfl⟩ := Prod.mk.inj (Except.ok.inj happend)
    exact ⟨whole, recvBufferAppend_complete (h.length.trans hcomplete) len, h⟩
  · have hcomplete' : whole.length ≠ .complete := by rwa [h.length]
    rw [recvBufferAppend_plain (plain_of_counting h.counting) hcomplete] at happend
    have hstart : Ditched pre { whole with buffer := some whole.data }
        { now with buffer := some now.data } := ⟨h.data, h.length, h.socket, h.counting⟩
    have hturn : ∀ s t : RecvBuffer × Nat, Ditched pre s.1 t.1 ∧ s.2 = t.2 →
        Agree (InStep (fun s t => Ditched pre s.1 t.1 ∧ s.2 = t.2)
          (fun r r' => Ditched pre r.1 r'.1 ∧ r.2 = r'.2))
          (Recvbufr.appendTurn len s) (Recvbufr.appendTurn len t) := by
      rintro ⟨s, i⟩ ⟨t, j⟩ ⟨hditched, rfl⟩
      exact hditched.appendTurn len i
    have hagree := run_simulation _ _ hturn
      (s := ({ whole with buffer := some whole.data }, 0))
      (t := ({ now with buffer := some now.data }, 0)) ⟨hstart, rfl⟩ (len + 1)
    rw [happend] at hagree
    rw [recvBufferAppend_plain (plain_of_counting hcounting') hcomplete']
    cases hrun : run (Recvbufr.appendTurn len) (len + 1)
        ({ whole with buffer := some whole.data }, 0) with
    | error stop => rw [hrun] at hagree; exact hagree.elim
    | ok r =>
        rw [hrun] at hagree
        obtain ⟨hditched, rfl⟩ := hagree
        exact ⟨r.1, rfl, hditched⟩

end Ditched

section Refills

def appendOnce (self : RecvBuffer) : Option RecvBuffer :=
  match recvBufferAppend self sbDataSize with
  | .ok (self, none) => some self
  | _ => none

/-- The buffer as appends leave it that are made one after the other. -/
def refills (self : RecvBuffer) : Nat → Option RecvBuffer
  | 0 => some self
  | k + 1 => (refills self k).bind appendOnce

/-- The bytes buffered and those the connection has still to hand out. -/
def stream (self : RecvBuffer) : Bytes := self.data ++ self.serverSocket.rest

theorem appendOnce_eq_some_iff {self after : RecvBuffer} :
    appendOnce self = some after ↔ recvBufferAppend self sbDataSize = .ok (after, none) := by
  rw [appendOnce]
  rcases recvBufferAppend self sbDataSize with stop | ⟨now, _ | e⟩ <;> simp

theorem stream_of_grown {before after : RecvBuffer} {added : Bytes}
    (h : Grown before after added) : stream after = stream before := by
  rw [stream, stream, h.data, ← h.rest, List.append_assoc]

theorem appendOnce_spec {self after : RecvBuffer} (hmode : Counting self.length)
    (h : appendOnce self = some after) :
    stream after = stream self ∧ Counting after.length ∧ self.len < after.len := by
  rw [appendOnce_eq_some_iff] at h
  obtain ⟨added, hgrown, hsome, -⟩ := recvBufferAppend_brought hmode (by decide) h
  refine ⟨stream_of_grown hgrown, hgrown.counting, ?_⟩
  have hpos := List.length_pos_iff.mpr (hsome rfl)
  rw [RecvBuffer.len, RecvBuffer.len, hgrown.data, List.length_append]
  omega

variable {self : RecvBuffer}

theorem refills_spec (hmode : Counting self.length) {k : Nat} {now : RecvBuffer}
    (h : refills self k = some now) : stream now = stream self ∧ Counting now.length := by
  induction k generalizing now with
  | zero =>
      obtain rfl := Option.some.inj h
      exact ⟨rfl, hmode⟩
  | succ k ih =>
      obtain ⟨before, hbefore, happend⟩ := Option.bind_eq_some_iff.mp h
      obtain ⟨hstream, hcounting⟩ := ih hbefore
      obtain ⟨hstream', hcounting', -⟩ := appendOnce_spec hcounting happend
      exact ⟨hstream'.trans hstream, hcounting'⟩

theorem refills_lt (hmode : Counting self.length) {j k : Nat} {before now : RecvBuffer}
    (hjk : j < k) (hbefore : refills self j = some before) (h : refills self k = some now) :
    before.len < now.len := by
  induction k generalizing now with
  | zero => exact absurd hjk (Nat.not_lt_zero j)
  | succ k ih =>
      obtain ⟨last, hlast, happend⟩ := Option.bind_eq_some_iff.mp h
      have hless := (appendOnce_spec (refills_spec hmode hlast).2 happend).2.2
      rcases Nat.lt_succ_iff_lt_or_eq.mp hjk with hearlier | rfl
      · exact (ih hearlier hlast).trans hless
      · obtain rfl : last = before := Option.some.inj (hlast.symm.trans hbefore)
        exact hless

theorem refills_le (hmode : Counting self.length) {j k : Nat} {before now : RecvBuffer}
    (hbefore : refills self j = some before) (h : refills self k = some now)
    (hless : before.len < now.len) : j < k := by
  by_contra hle
  rcases Nat.lt_or_eq_of_le (Nat.not_lt.mp hle) with hlater | rfl
  · have hother := refills_lt hmode hlater h hbefore
    omega
  · obtain rfl : before = now := Option.some.inj (hbefore.symm.trans h)
    omega

end Refills

section Overlap

variable {token : Bytes}

theorem needleRaw_extend {s page : Bytes} {o : Nat} (htoken : token ≠ []) (hs : s <+: page)
    (h : platformStringFindNeedleRaw s token = some o) :
    platformStringFindNeedleRaw page token = some o := by
  rw [platformStringFindNeedleRaw, if_neg htoken] at h ⊢
  exact strstr_extend (hs.map toupper) h

/-- What was searched in vain is passed over when so much of its end is searched again that
the token cannot begin before it and end behind it. -/
theorem needleRaw_overlap {pre a : Bytes} (htoken : token ≠ [])
    (hnone : platformStringFindNeedleRaw (pre ++ a) token = none)
    (hlong : token.length ≤ a.length + 1) (b : Bytes) :
    platformStringFindNeedleRaw (pre ++ (a ++ b)) token =
      (platformStringFindNeedleRaw (a ++ b) token).map (pre.length + ·) := by
  induction pre with
  | nil => simp
  | cons c pre ih =>
      rw [List.cons_append, needleRaw_cons htoken] at hnone
      have hpre : ¬ token.map toupper <+: (c :: (pre ++ a)).map toupper := by
        intro hhere
        rw [if_pos hhere] at hnone
        simp at hnone
      rw [if_neg hpre, Option.map_eq_none_iff] at hnone
      have hpre' : ¬ token.map toupper <+: (c :: (pre ++ (a ++ b))).map toupper := by
        intro hhere
        apply hpre
        have hfront : (c :: (pre ++ a)).map toupper <+: (c :: (pre ++ (a ++ b))).map toupper := by
          apply List.IsPrefix.map
          rw [← List.append_assoc, ← List.cons_append]
          exact List.prefix_append _ _
        apply List.prefix_of_prefix_length_le hhere hfront
        simp only [List.length_map, List.length_cons, List.length_append]
        omega
      rw [List.cons_append, needleRaw_cons htoken, if_neg hpre', ih hnone, Option.map_map]
      congr 1
      funext n
      simp only [Function.comp, List.length_cons]
      omega

end Overlap

section Search

/-- The first occurrence of the token is the second byte of all that there is, or an append
behind the first fill ends one byte short of the end of it. -/
def OneShort (self : RecvBuffer) (token : Bytes) : Prop :=
  ∃ q, platformStringFindNeedleRaw (stream self) token = some q ∧
    (q = 1 ∨ ∃ k before after, refills self k = some before ∧ token.length ≤ before.len ∧
      appendOnce before = some after ∧ after.len + 1 = q + token.length)

/-- The buffer starts with the token's first occurrence, and all before it has been ditched. -/
def StopsAtFirst (self : RecvBuffer) (token : Bytes) (after : RecvBuffer) (ditched : Nat) : Prop :=
  token.map toupper <+: after.data.map toupper ∧
    platformStringFindNeedleRaw (stream self) token = some ditched ∧
    (stream self).take ditched ++ stream after = stream self

/-- Nothing that has been read holds the token. -/
def ReadInVain (self : RecvBuffer) (token : Bytes) (after : RecvBuffer) : Prop :=
  ∃ read, read ++ after.serverSocket.rest = stream self ∧
    platformStringFindNeedleRaw read token = none

/-- The first of the appends after which the buffer is as long as the token. -/
structure Filled (start : RecvBuffer) (n k : Nat) (now : RecvBuffer) : Prop where
  reached : refills start k = some now
  first : ∀ j < k, ∀ before, refills start j = some before → before.len < n

variable {self : RecvBuffer} {token : Bytes}

theorem fill_spec (hmode : Counting self.length) (htoken : token ≠ []) {fuel : Nat}
    {now : RecvBuffer} {e : Option ErrorMessage}
    (h : run (fillTurn token.length) fuel self = .ok (now, e)) :
    (e = none → token.length ≤ now.len ∧ ∃ k, Filled self token.length k now) ∧
    (∀ e', e = some e' → e' ≠ .socketError → ReadInVain self token now) := by
  have hpos := List.length_pos_of_ne_nil htoken
  have hshort : ∀ {now : RecvBuffer}, now.buffer.isNone ∨ now.len < token.length →
      now.len < token.length := by
    rintro now (hnone | hless)
    · rw [RecvBuffer.len, RecvBuffer.data, Option.isNone_iff_eq_none.mp hnone]
      exact hpos
    · exact hless
  refine run_partial (fun now => ∃ k, Filled self token.length k now)
    (fun r => (r.2 = none → token.length ≤ r.1.len ∧ ∃ k, Filled self token.length k r.1) ∧
      (∀ e', r.2 = some e' → e' ≠ .socketError → ReadInVain self token r.1)) ?_ ?_ ?_ h
  · rintro now next ⟨k, hreached, hfirst⟩ hturn
    by_cases hmore : now.buffer.isNone ∨ now.len < token.length
    · simp only [fillTurn, hmore, if_true, bind_eq_ok_iff, Prod.exists] at hturn
      obtain ⟨after, e, happend, hturn⟩ := hturn
      cases e with
      | some e => simp at hturn
      | none =>
          obtain rfl : after = next := by simpa using hturn
          refine ⟨k + 1, ?_, ?_⟩
          · rw [refills, hreached, Option.bind_some, appendOnce_eq_some_iff]
            exact happend
          · intro j hj before hbefore
            rcases Nat.lt_succ_iff_lt_or_eq.mp hj with hearlier | rfl
            · exact hfirst j hearlier before hbefore
            · obtain rfl : now = before := Option.some.inj (hreached.symm.trans hbefore)
              exact hshort hmore
    · simp only [fillTurn, hmore, if_false] at hturn
      exact absurd hturn (by simp)
  · rintro now r ⟨k, hreached, hfirst⟩ hturn
    by_cases hmore : now.buffer.isNone ∨ now.len < token.length
    · simp only [fillTurn, hmore, if_true, bind_eq_ok_iff, Prod.exists] at hturn
      obtain ⟨after, e, happend, hturn⟩ := hturn
      cases e with
      | none => simp at hturn
      | some e =>
          obtain rfl : (after, some e) = r := by simpa using hturn
          refine ⟨by simp, fun e' he hother => ?_⟩
          obtain ⟨hstream, hcounting⟩ := refills_spec hmode hreached
          obtain ⟨added, hgrown, -, hnothing⟩ :=
            recvBufferAppend_brought hcounting (by decide) happend
          obtain rfl := hnothing e' he hother
          refine ⟨now.data, ?_, needleRaw_of_short (hshort hmore)⟩
          rw [← hstream, stream, ← hgrown.rest]
          rfl
    · simp only [fillTurn, hmore, if_false] at hturn
      obtain rfl : (now, none) = r := by simpa using hturn
      refine ⟨fun _ => ⟨?_, k, hreached, hfirst⟩, by simp⟩
      exact Nat.not_lt.mp fun hless => hmore (.inr hless)
  · exact ⟨0, rfl, fun j hj => absurd hj (Nat.not_lt_zero j)⟩

/-- Where the search stands after `d` bytes have been ditched: all that was read is `whole`.
Nothing is ditched before the second append; from then on the buffer is as long as the token,
which is not in what was read. -/
structure Seeking (start : RecvBuffer) (token : Bytes) (k : Nat) (whole : RecvBuffer) (pre : Bytes)
    (now : RecvBuffer) : Prop where
  reached : refills start k = some whole
  ditched : Ditched pre whole now
  enough : token.length ≤ now.len
  stage : pre = [] ∧ Filled start token.length k now ∨
    now.len = token.length ∧ platformStringFindNeedleRaw whole.data token = none ∧
      ∃ j before, k = j + 1 ∧ refills start j = some before ∧ token.length ≤ before.len

theorem Seeking.stream_eq (hmode : Counting self.length) {k : Nat} {whole now : RecvBuffer}
    {pre : Bytes} (h : Seeking self token k whole pre now) :
    pre ++ stream now = stream self := by
  rw [← (refills_spec hmode h.reached).1, stream, stream, h.ditched.data, h.ditched.socket,
    List.append_assoc]

theorem Seeking.needleRaw_whole {k : Nat} {whole now : RecvBuffer} {pre : Bytes}
    (h : Seeking self token k whole pre now) (htoken : token ≠ []) :
    platformStringFindNeedleRaw whole.data token =
      (platformStringFindNeedleRaw now.data token).map (pre.length + ·) := by
  rcases h.stage with ⟨rfl, -⟩ | ⟨-, hnone, -⟩
  · rw [h.ditched.data]
    simp
  · have hinfix : now.data <:+: whole.data := by
      rw [h.ditched.data]
      exact (List.suffix_append _ _).isInfix
    rw [hnone, needleRaw_of_infix htoken hinfix hnone]
    rfl

/-- A buffer in which the token was found, `o` bytes behind those that were ditched. -/
structure Found (start : RecvBuffer) (token : Bytes) (pre : Bytes) (now : RecvBuffer) (o : Nat) :
    Prop where
  whole : pre ++ stream now = stream start
  here : platformStringFindNeedleRaw now.data token = some o
  first : platformStringFindNeedleRaw (stream start) token = some (pre.length + o)
  short : o = 1 ↔ OneShort start token

theorem Seeking.found_at_once (hmode : Counting self.length) (htoken : token ≠ []) {k o : Nat}
    {whole now : RecvBuffer} {pre : Bytes} (h : Seeking self token k whole pre now)
    (hfind : platformStringFindNeedleRaw now.data token = some o) :
    Found self token pre now o := by
  have hwhole := h.needleRaw_whole htoken
  rw [hfind, Option.map_some] at hwhole
  obtain ⟨hstream, -⟩ := refills_spec hmode h.reached
  have hfirst : platformStringFindNeedleRaw (stream self) token = some (pre.length + o) := by
    apply needleRaw_extend htoken _ hwhole
    rw [← hstream]
    exact List.prefix_append _ _
  refine ⟨h.stream_eq hmode, hfind, hfirst, ?_⟩
  rcases h.stage with ⟨rfl, hfilled⟩ | ⟨-, hnone, -⟩
  · constructor
    · rintro rfl
      exact ⟨1, by simpa using hfirst, .inl rfl⟩
    · rintro ⟨q, hq, hone | ⟨j, before, after, hbefore, hlong, happend, hend⟩⟩
      · rw [hfirst] at hq
        simp at hq
        omega
      · -- that append would be one of the first fill
        have hafter : refills self (j + 1) = some after := by
          rw [refills, hbefore]
          exact happend
        have hbound : _ ≤ whole.len := needleRaw_bound htoken hwhole
        obtain rfl : [].length + o = q := Option.some.inj (hfirst.symm.trans hq)
        have hlater := refills_le hmode hafter h.reached (by omega)
        have hless := hfilled.first j (by omega) before hbefore
        omega
  · rw [hwhole] at hnone
    simp at hnone

theorem Seeking.vain {k : Nat} {whole now : RecvBuffer} {pre : Bytes}
    (h : Seeking self token k whole pre now) (htoken : token ≠ [])
    (hnone : platformStringFindNeedleRaw now.data token = none) :
    platformStringFindNeedleRaw whole.data token = none := by
  rw [h.needleRaw_whole htoken, hnone]
  rfl

theorem Seeking.append {k : Nat} {whole now now' : RecvBuffer} {pre : Bytes}
    (h : Seeking self token k whole pre now) (htoken : token ≠ [])
    (hnone : platformStringFindNeedleRaw now.data token = none)
    (happend : recvBufferAppend now sbDataSize = .ok (now', none)) :
    ∃ whole', refills self (k + 1) = some whole' ∧ Ditched pre whole' now' ∧
      now.len < now'.len ∧
      platformStringFindNeedleRaw whole'.data token =
        (platformStringFindNeedleRaw now'.data token).map (pre.length + ·) := by
  obtain ⟨whole', happend', hditched⟩ := h.ditched.append happend
  obtain ⟨added, hgrown, hsome, -⟩ :=
    recvBufferAppend_brought h.ditched.counting (by decide) happend
  have hless := (appendOnce_spec h.ditched.counting (appendOnce_eq_some_iff.mpr happend)).2.2
  refine ⟨whole', ?_, hditched, hless, ?_⟩
  · rw [refills, h.reached, Option.bind_some, appendOnce_eq_some_iff]
    exact happend'
  · have henough := h.enough
    have hvain := h.vain htoken hnone
    rw [h.ditched.data] at hvain
    rw [hditched.data, hgrown.data]
    exact needleRaw_overlap htoken hvain (by rw [RecvBuffer.len] at henough; omega) added

theorem Seeking.found_later (hmode : Counting self.length) (htoken : token ≠ []) {k o : Nat}
    {whole now now' : RecvBuffer} {pre : Bytes} (h : Seeking self token k whole pre now)
    (hnone : platformStringFindNeedleRaw now.data token = none)
    (happend : recvBufferAppend now sbDataSize = .ok (now', none))
    (hfind : platformStringFindNeedleRaw now'.data token = some o) :
    Found self token pre now' o := by
  obtain ⟨whole', hreached', hditched', hless, hwhole'⟩ := h.append htoken hnone happend
  rw [hfind, Option.map_some] at hwhole'
  obtain ⟨hstream', -⟩ := refills_spec hmode hreached'
  have hwhole : pre ++ stream now' = stream self := by
    rw [← hstream', stream, stream, hditched'.data, hditched'.socket, List.append_assoc]
  have hfirst : platformStringFindNeedleRaw (stream self) token = some (pre.length + o) := by
    apply needleRaw_extend htoken _ hwhole'
    rw [← hstream']
    exact List.prefix_append _ _
  have hvain := h.vain htoken hnone
  have hfront : ∀ {q : Nat}, platformStringFindNeedleRaw (stream self) token = some q →
      whole.len < q + token.length := by
    intro q hq
    by_contra hinside
    obtain ⟨hstream, -⟩ := refills_spec hmode h.reached
    have htake := needleRaw_take htoken hq whole.len
    rw [if_pos (Nat.not_lt.mp hinside), ← hstream, stream, RecvBuffer.len, List.take_left, hvain]
      at htake
    simp at htake
  have hlength : whole.len = pre.length + now.len := by
    rw [RecvBuffer.len, h.ditched.data, List.length_append, RecvBuffer.len]
  refine ⟨hwhole, hfind, hfirst, ?_⟩
  constructor
  · rintro rfl
    refine ⟨_, hfirst, ?_⟩
    rcases h.stage with ⟨rfl, -⟩ | ⟨hexact, -, j, before, rfl, hbefore, hlong⟩
    · exact .inl rfl
    · obtain ⟨last, hlast, happended⟩ := Option.bind_eq_some_iff.mp h.reached
      obtain rfl : before = last := Option.some.inj (hbefore.symm.trans hlast)
      exact .inr ⟨j, before, whole, hbefore, hlong, happended, by omega⟩
  · rintro ⟨q, hq, hone⟩
    obtain rfl : pre.length + o = q := Option.some.inj (hfirst.symm.trans hq)
    have hbefore := hfront hq
    rcases hone with hone | ⟨j, before, after, hbefore', hlong, happended, hend⟩
    · rcases h.stage with ⟨rfl, -⟩ | ⟨hexact, -⟩
      · simpa using hone
      · omega
    · have hafter : refills self (j + 1) = some after := by
        rw [refills, hbefore']
        exact happended
      have hbound : _ ≤ whole'.len := needleRaw_bound htoken hwhole'
      have hearlier := refills_le hmode hafter hreached' (by omega)
      have hlast : ¬ j + 1 < k := by
        intro hless'
        have hmore := refills_lt hmode hless' hafter h.reached
        omega
      obtain rfl : k = j + 1 := by omega
      obtain rfl : after = whole := Option.some.inj (hafter.symm.trans h.reached)
      rcases h.stage with ⟨-, hfilled⟩ | ⟨hexact, -⟩
      · have hshort := hfilled.first j (Nat.lt_succ_self j) before hbefore'
        omega
      · omega

theorem Seeking.ditch {k : Nat} {whole now now' : RecvBuffer} {pre : Bytes}
    (h : Seeking self token k whole pre now) (htoken : token ≠ [])
    (hnone : platformStringFindNeedleRaw now.data token = none)
    (happend : recvBufferAppend now sbDataSize = .ok (now', none))
    (hnone' : platformStringFindNeedleRaw now'.data token = none) :
    ∃ whole' pre', Seeking self token (k + 1) whole' pre'
        (recvBufferDitch now' (now'.len - token.length)) ∧
      pre'.length = pre.length + (now'.len - token.length) := by
  obtain ⟨whole', hreached', hditched', hless, hwhole'⟩ := h.append htoken hnone happend
  have henough := h.enough
  have hlong : token.length ≤ whole.len := by
    rw [RecvBuffer.len, h.ditched.data, List.length_append, ← RecvBuffer.len]
    omega
  refine ⟨whole', pre ++ now'.data.take (now'.len - token.length), ⟨hreached', ⟨?_, ?_, ?_, ?_⟩,
    ?_, .inr ⟨?_, ?_, k, whole, rfl, h.reached, hlong⟩⟩, ?_⟩
  · rw [hditched'.data, recvBufferDitch_data, List.append_assoc, List.take_append_drop]
  · rw [hditched'.length, recvBufferDitch_length]
  · rw [hditched'.socket, recvBufferDitch_serverSocket]
  · rw [recvBufferDitch_length]
    exact hditched'.counting
  · rw [recvBufferDitch_len]
    omega
  · rw [recvBufferDitch_len]
    omega
  · rw [hwhole', hnone']
    rfl
  · rw [List.length_append, List.length_take, ← RecvBuffer.len, Nat.min_eq_left (Nat.sub_le _ _)]

/-- How the search loop comes out. -/
def Sought (self : RecvBuffer) (token : Bytes) :
    RecvBuffer × Except ErrorMessage (Nat × Nat) → Prop
  | (now, .ok (o, d)) => ∃ pre, pre.length = d ∧ Found self token pre now o
  | (now, .error e) => e ≠ .socketError → ReadInVain self token now

/-- How one turn of it comes out. -/
def SoughtTurn (self : RecvBuffer) (token : Bytes) :
    Turn (RecvBuffer × Nat) (RecvBuffer × Except ErrorMessage (Nat × Nat)) → Prop
  | .again (now, d) => ∃ k whole pre, Seeking self token k whole pre now ∧ pre.length = d
  | .leave r => Sought self token r

theorem ditchTurn_sought (hmode : Counting self.length) (htoken : 2 ≤ token.length) {k : Nat}
    {whole now : RecvBuffer} {pre : Bytes} (h : Seeking self token k whole pre now)
    {turn : Turn (RecvBuffer × Nat) (RecvBuffer × Except ErrorMessage (Nat × Nat))}
    (hturn : ditchTurn token (now, pre.length) = .ok turn) : SoughtTurn self token turn := by
  have hne : token ≠ [] := List.ne_nil_of_length_pos (by omega)
  have henough := h.enough
  simp only [ditchTurn] at hturn
  rw [recvBufferFind_eq htoken (by omega), ok_bind] at hturn
  cases hfind : platformStringFindNeedleRaw now.data token with
  | some o =>
      rw [hfind] at hturn
      obtain rfl := Except.ok.inj hturn
      exact ⟨pre, rfl, h.found_at_once hmode hne hfind⟩
  | none =>
      rw [hfind] at hturn
      simp only [bind_eq_ok_iff, Prod.exists] at hturn
      obtain ⟨now', e, happend, hturn⟩ := hturn
      cases e with
      | some e =>
          obtain rfl := Except.ok.inj hturn
          intro hother
          obtain ⟨added, hgrown, -, hnothing⟩ :=
            recvBufferAppend_brought h.ditched.counting (by decide) happend
          obtain rfl := hnothing e rfl hother
          refine ⟨whole.data, ?_, h.vain hne hfind⟩
          rw [← h.stream_eq hmode, stream, ← hgrown.rest, h.ditched.data, List.append_assoc]
          rfl
      | none =>
          have hless : now.len < now'.len :=
            (appendOnce_spec h.ditched.counting (appendOnce_eq_some_iff.mpr happend)).2.2
          obtain ⟨found, hfound, hturn⟩ := bind_eq_ok_iff.mp hturn
          rw [recvBufferFind_eq htoken (by omega)] at hfound
          obtain rfl := Except.ok.inj hfound
          cases hfind' : platformStringFindNeedleRaw now'.data token with
          | some o =>
              rw [hfind'] at hturn
              obtain rfl := Except.ok.inj hturn
              exact ⟨pre, rfl, h.found_later hmode hne hfind happend hfind'⟩
          | none =>
              rw [hfind'] at hturn
              obtain rfl := Except.ok.inj hturn
              obtain ⟨whole', pre', hseeking, hlength⟩ := h.ditch hne hfind happend hfind'
              exact ⟨k + 1, whole', pre', hseeking, hlength⟩

theorem ditchLoop_sought (hmode : Counting self.length) (htoken : 2 ≤ token.length) {k : Nat}
    {filled : RecvBuffer} (hfilled : Filled self token.length k filled)
    (hlong : token.length ≤ filled.len) {fuel : Nat}
    {r : RecvBuffer × Except ErrorMessage (Nat × Nat)}
    (h : run (ditchTurn token) fuel (filled, 0) = .ok r) : Sought self token r := by
  refine run_partial
    (fun s => ∃ k whole pre, Seeking self token k whole pre s.1 ∧ pre.length = s.2)
    (Sought self token) ?_ ?_ ?_ h
  · rintro ⟨now, d⟩ s' ⟨k, whole, pre, hseeking, rfl⟩ hturn
    exact ditchTurn_sought hmode htoken hseeking hturn
  · rintro ⟨now, d⟩ r ⟨k, whole, pre, hseeking, rfl⟩ hturn
    exact ditchTurn_sought hmode htoken hseeking hturn
  · refine ⟨k, filled, [], ⟨hfilled.reached, ⟨rfl, rfl, rfl, ?_⟩, hlong, .inl ⟨rfl, hfilled⟩⟩, rfl⟩
    exact (refills_spec hmode hfilled.reached).2

/-- A match one byte into the buffer is left there, and any other one is ditched up to. -/
theorem Found.stopsAtFirst_iff {pre : Bytes} {now : RecvBuffer} {o : Nat}
    (h : Found self token pre now o) (htoken : token ≠ []) :
    StopsAtFirst self token (if 1 < o then recvBufferDitch now o else now)
        (if 1 < o then pre.length + o else pre.length) ↔ ¬ OneShort self token := by
  rw [← h.short]
  constructor
  · rintro ⟨-, hditched, -⟩ rfl
    rw [h.first] at hditched
    simp at hditched
  · intro hother
    obtain ⟨hhere, hle, -⟩ := (needleRaw_eq_some_iff htoken).mp h.here
    by_cases hditch : 1 < o
    · rw [if_pos hditch, if_pos hditch]
      refine ⟨?_, h.first, ?_⟩
      · rw [recvBufferDitch_data]
        exact hhere
      · have hsplit : (stream self).take (pre.length + o) = pre ++ now.data.take o := by
          rw [← h.whole, List.take_length_add_append, stream, List.take_append_of_le_length hle]
        rw [hsplit, ← h.whole, stream, stream, recvBufferDitch_data, recvBufferDitch_serverSocket,
          List.append_assoc, ← List.append_assoc (now.data.take o), List.take_append_drop]
    · obtain rfl : o = 0 := by omega
      rw [if_neg hditch, if_neg hditch]
      refine ⟨by simpa using hhere, by simpa using h.first, ?_⟩
      rw [← h.whole, List.take_left]

end Search

section Ditch

variable {self : RecvBuffer} {token : Bytes}

/-- A search that comes back without an error stops at the first occurrence exactly when no
append ends one byte short of it; one that comes back with an error, other than its
socket's, has not read any. -/
theorem recvBufferFindAndDitch_exact_iff (fuel : RecvBuffer → Nat) (hmode : Counting self.length)
    (htoken : 2 ≤ token.length) :
    (∀ after ditched, ditchWithin fuel self token = .ok (after, .ok ditched) →
      (StopsAtFirst self token after ditched ↔ ¬ OneShort self token)) ∧
    (∀ after e, ditchWithin fuel self token = .ok (after, .error e) → e ≠ .socketError →
      ReadInVain self token after) := by
  have hne : token ≠ [] := List.ne_nil_of_length_pos (by omega)
  constructor
  · intro after ditched h
    simp only [ditchWithin, bind_eq_ok_iff, Prod.exists] at h
    obtain ⟨filled, e, hfill, h⟩ := h
    cases e with
    | some e => simp at h
    | none =>
        obtain ⟨hlong, k, hfilled⟩ := (fill_spec hmode hne hfill).1 rfl
        simp only [bind_eq_ok_iff, Prod.exists] at h
        obtain ⟨now, found, hrun, h⟩ := h
        have hsought := ditchLoop_sought hmode htoken hfilled hlong hrun
        cases found with
        | error e => simp at h
        | ok found =>
            obtain ⟨o, d⟩ := found
            obtain ⟨pre, rfl, hfound⟩ := hsought
            rw [← hfound.stopsAtFirst_iff hne]
            simp only at h
            by_cases hditch : 1 < o
            · rw [if_pos hditch] at h
              rw [if_pos hditch, if_pos hditch]
              obtain ⟨rfl, hcount⟩ := Prod.mk.inj (Except.ok.inj h)
              rw [Except.ok.inj hcount]
            · rw [if_neg hditch] at h
              rw [if_neg hditch, if_neg hditch]
              obtain ⟨rfl, hcount⟩ := Prod.mk.inj (Except.ok.inj h)
              rw [Except.ok.inj hcount]
  · intro after e h hother
    simp only [ditchWithin, bind_eq_ok_iff, Prod.exists] at h
    obtain ⟨filled, e', hfill, h⟩ := h
    have hspec := fill_spec hmode hne hfill
    cases e' with
    | some e' =>
        obtain ⟨rfl, he⟩ := Prod.mk.inj (Except.ok.inj h)
        obtain rfl := Except.error.inj he
        exact hspec.2 e' rfl hother
    | none =>
        obtain ⟨hlong, k, hfilled⟩ := hspec.1 rfl
        simp only [bind_eq_ok_iff, Prod.exists] at h
        obtain ⟨now, found, hrun, h⟩ := h
        have hsought := ditchLoop_sought hmode htoken hfilled hlong hrun
        cases found with
        | error e' =>
            obtain ⟨rfl, he⟩ := Prod.mk.inj (Except.ok.inj h)
            obtain rfl := Except.error.inj he
            exact hsought hother
        | ok found =>
            obtain ⟨o, d⟩ := found
            simp only at h
            split at h <;> simp at h

/-- A buffer with all there is, in the unknown mode. -/
def bufferOf (data : Bytes) : RecvBuffer := ⟨some data, .unknown 0 8192, ⟨[], [], .closed⟩⟩

theorem recvBufferFindAndDitch_exact_fox :
    (ditchWithin patience (bufferOf (text "The fox")) (text "fox") =
        .ok (recvBufferDitch (bufferOf (text "The fox")) 4, .ok 4)) ∧
      (StopsAtFirst (bufferOf (text "The fox")) (text "fox")
          (recvBufferDitch (bufferOf (text "The fox")) 4) 4 ↔
        ¬ OneShort (bufferOf (text "The fox")) (text "fox")) := by
  have hfound : ditchWithin patience (bufferOf (text "The fox")) (text "fox") =
      .ok (recvBufferDitch (bufferOf (text "The fox")) 4, .ok 4) := by decide +kernel
  have hmode : Counting (bufferOf (text "The fox")).length := trivial
  exact ⟨hfound, (recvBufferFindAndDitch_exact_iff patience hmode (by decide)).1 _ _ hfound⟩

/-- A match on the second byte is left where it is, and counted as if nothing stood before
it. -/
theorem recvBufferFindAndDitch_second_byte :
    recvBufferFindAndDitch (bufferOf (text "The fox")) (text "he") =
        .ok (bufferOf (text "The fox"), .ok 0) ∧
      ¬ StopsAtFirst (bufferOf (text "The fox")) (text "he") (bufferOf (text "The fox")) 0 := by
  refine ⟨by decide +kernel, ?_⟩
  rintro ⟨hhere, -⟩
  exact absurd hhere (by decide +kernel)

end Ditch

end Newth.Client.FindDitch
