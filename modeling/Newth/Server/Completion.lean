import Newth.Server.Multiplex
import Newth.Server.Ticks

namespace Newth.Server.Completion

open Newth.Library.ByteString
open Newth.Library.Call
open Newth.Library.Numeral
open Newth.Library.Runs
open Newth.Server.Handlers
open Newth.Server.HttpBody
open Newth.Server.HttpHeader
open Newth.Server.Multiplex
open Newth.Server.Routines
open Newth.Server.Sendbufr
open Newth.Server.Ticks

section Spending

/-- Writing takes answers off the socket and gives none back, and never reports a full
buffer. -/
structure Spends (link link' : Link) : Prop where
  sends : link'.channel.sends.length ≤ link.channel.sends.length
  room : link.self.has errFull = false → link'.self.has errFull = false

theorem Spends.refl (link : Link) : Spends link link := ⟨Nat.le_refl _, id⟩

theorem Spends.trans {link link' link'' : Link} (h : Spends link link')
    (h' : Spends link' link'') : Spends link link'' :=
  ⟨h'.sends.trans h.sends, fun hroom => h'.room (h.room hroom)⟩

theorem room_of_failed {self : SendBuffer} (h : self.options = errFail) :
    self.has errFull = false ∧ self.has errFail = true := by
  rw [SendBuffer.has, SendBuffer.has, h]
  decide

theorem send_length_le {channel channel' : Channel} {data : Bytes} {result : SendResult}
    (h : channel.send data = (channel', result)) :
    channel'.sends.length ≤ channel.sends.length := by
  rw [(send_spec h).2.1, List.length_tail]
  exact Nat.sub_le _ _

theorem send_length_lt {channel channel' : Channel} {data : Bytes} {result : SendResult}
    (h : channel.send data = (channel', result)) (hpart : result.sent < data.length) :
    channel'.sends.length < channel.sends.length := by
  obtain ⟨-, htail, hsent, -⟩ := send_spec h
  cases hsends : channel.sends with
  | nil =>
      rw [hsends] at hsent
      simp only [List.head?_nil, Option.elim_none] at hsent
      omega
  | cons answer rest => simp [htail, hsends]

theorem sendBufferWriteData_spends (link : Link) (data : Bytes) :
    Spends link (sendBufferWriteData link data).1 := by
  rw [sendBufferWriteData]
  split
  · exact ⟨Nat.le_refl _, id⟩
  · split
    · rename_i hsend
      exact ⟨send_length_le hsend, fun _ => (room_of_failed rfl).1⟩
    · rename_i hsend
      simp only
      split
      · exact ⟨send_length_le hsend, id⟩
      · exact ⟨send_length_le hsend, id⟩

theorem sendBufferWriteText_spends (link : Link) (data : Bytes) :
    Spends link (sendBufferWriteText link data).1 :=
  sendBufferWriteData_spends link (cString data)

/-- What a flush leaves: no buffer, or an answer fewer to wait for. -/
def Flushes (link : Link) (result : Link × Nat) : Prop :=
  Spends link result.1 ∧
    (result.1.self.buffer = none ∨
      result.1.channel.sends.length < link.channel.sends.length)

theorem flushTurn_spends {link : Link} {s : Flushing} (hs : Spends link s.link) :
    ∃ turn, flushTurn s = .ok turn ∧
      Advances (fun s => Spends link s.link) (fun s => s.stream.data.length - s.stream.pos)
        (Flushes link) s turn := by
  obtain ⟨data, hdata⟩ : ∃ data, (s.stream.data.drop s.stream.pos).take sbDataSize = data :=
    ⟨_, rfl⟩
  have hlength : data.length ≤ s.stream.data.length - s.stream.pos := by
    rw [← hdata, List.length_take, List.length_drop]
    exact Nat.min_le_right _ _
  simp only [flushTurn, MemoryStream.read, hdata]
  split
  · exact ⟨_, rfl, ⟨hs.sends, hs.room⟩, .inl rfl⟩
  · rename_i hsome
    have hpositive : 0 < data.length := List.length_pos_iff.mpr hsome
    obtain ⟨channel, result, hsend⟩ :
        ∃ channel result, s.link.channel.send data = (channel, result) := ⟨_, _, rfl⟩
    have hle := (send_length_le hsend).trans hs.sends
    rw [hsend]
    cases result with
    | wouldBlock =>
        have hless := send_length_lt hsend hpositive
        exact ⟨_, rfl, ⟨hle, hs.room⟩, .inr (hless.trans_le hs.sends)⟩
    | fails =>
        have hless := send_length_lt hsend hpositive
        exact ⟨_, rfl, ⟨hle, fun _ => (room_of_failed rfl).1⟩, .inr (hless.trans_le hs.sends)⟩
    | accepts flush =>
        simp only
        split
        · rename_i hpart
          have hless := send_length_lt hsend hpart
          exact ⟨_, rfl, ⟨hle, hs.room⟩, .inr (hless.trans_le hs.sends)⟩
        · refine ⟨_, rfl, ⟨hle, hs.room⟩, ?_⟩
          simp only
          omega

theorem sendBufferFlush_flushes (link : Link) : Flushes link (sendBufferFlush link) := by
  rw [sendBufferFlush]
  cases hbuffer : link.self.buffer with
  | none => exact ⟨Spends.refl link, .inl hbuffer⟩
  | some stream =>
      obtain ⟨result, hrun, hflushes⟩ : ∃ result, run flushTurn (stream.data.length + 1)
          ⟨link, stream.seekSet link.self.idx, 0⟩ = .ok result ∧ Flushes link result := by
        refine run_total _ _ (fun s => flushTurn_spends) (Spends.refl link) ?_
        simp only [MemoryStream.seekSet]
        omega
      simp only [hrun]
      exact hflushes

theorem sendBufferPrintf_spends (link : Link) (message : Message) :
    Spends link (sendBufferPrintf link message) := by
  rw [sendBufferPrintf]
  split
  · exact sendBufferWriteText_spends link message.text
  · exact ⟨Nat.le_refl _, id⟩

theorem httpBodyWriteChunk_spends (link : Link) (buffer : Bytes) :
    Spends link (httpBodyWriteChunk link buffer).1 := by
  have hsize := sendBufferWriteText_spends link
    (numeral 16 (cString buffer).length ++ httpEol)
  have hdata := hsize.trans (sendBufferWriteData_spends _ (cString buffer))
  exact hdata.trans (sendBufferWriteText_spends _ httpEol)

theorem listEnd_spends (link : Link) (count : Nat) : Spends link (listEnd link count) := by
  have hchunk := httpBodyWriteChunk_spends link (listingEnd count)
  simp only [listEnd]
  split
  · simp only [httpBodyWriteChunkEnding]
    have hlast := hchunk.trans (sendBufferWriteText_spends _
      (text "0" ++ httpEol ++ httpEol))
    split
    · exact hlast.trans (sendBufferFlush_flushes _).1
    · exact (hlast.trans (sendBufferFlush_flushes _).1).trans (sendBufferFlush_flushes _).1
  · exact hchunk.trans (sendBufferFlush_flushes _).1

end Spending

section Entries

theorem platformDirEntryGetStats_entries {entry : Entry} {dir dir' : PlatformDir}
    {st : Option Bool} (h : platformDirEntryGetStats entry dir = .ok (dir', st)) :
    dir'.entries = dir.entries := by
  rw [platformDirEntryGetStats] at h
  split at h
  · simp at h
  · split at h
    · obtain ⟨rfl, -⟩ := Prod.mk.inj (Except.ok.inj h)
      rfl
    · obtain ⟨rfl, -⟩ := Prod.mk.inj (Except.ok.inj h)
      rfl

theorem platformDirEntryIsDirectory_entries {entry : Entry} {dir dir' : PlatformDir}
    {isDirectory : Bool} (h : platformDirEntryIsDirectory entry dir = .ok (dir', isDirectory)) :
    dir'.entries = dir.entries := by
  rw [platformDirEntryIsDirectory] at h
  split at h
  · obtain ⟨rfl, -⟩ := Prod.mk.inj (Except.ok.inj h)
    rfl
  · obtain ⟨⟨dir'', st⟩, hstats, h⟩ := bind_eq_ok_iff.mp h
    obtain ⟨rfl, -⟩ := Prod.mk.inj (Except.ok.inj h)
    exact platformDirEntryGetStats_entries hstats

theorem listEntry_spends {webPath : Bytes} {entry : Entry} {s s' : Listing}
    (h : listEntry webPath entry s = .ok s') :
    Spends s.link s'.link ∧ s'.dir.directory.entries = s.dir.directory.entries := by
  rw [listEntry] at h
  obtain ⟨⟨directory, st⟩, hstats, h⟩ := bind_eq_ok_iff.mp h
  have hentries := platformDirEntryGetStats_entries hstats
  simp only at h
  split at h
  · obtain ⟨⟨directory', isDirectory⟩, hdirectory, h⟩ := bind_eq_ok_iff.mp h
    obtain ⟨buffer, -, h⟩ := bind_eq_ok_iff.mp h
    obtain rfl := Except.ok.inj h
    exact ⟨httpBodyWriteChunk_spends s.link buffer,
      (platformDirEntryIsDirectory_entries hdirectory).trans hentries⟩
  · obtain rfl := Except.ok.inj h
    exact ⟨Spends.refl s.link, hentries⟩

theorem listTurns_spends {webPath : Bytes} {entries : List Entry} {left : Nat} {s : Listing}
    {result : Listing × Nat} (h : ListTurns webPath entries left s result)
    (hentries : s.dir.directory.entries = entries) :
    Spends s.link result.1.link ∧
      (result.2 = 0 ∨ result.1.dir.directory.entries.length + min left 1 ≤ entries.length) := by
  induction h with
  | full =>
      refine ⟨(sendBufferFlush_flushes _).1, .inr ?_⟩
      rw [hentries]
      exact Nat.le_refl _
  | ended => exact ⟨listEnd_spends _ _, .inl rfl⟩
  | hidden live hidden later ih =>
      obtain ⟨hspends, hleft⟩ := ih rfl
      refine ⟨hspends, hleft.imp_right fun hless => ?_⟩
      rw [List.length_cons]
      omega
  | listed live shown listed later ih =>
      obtain ⟨hentry, hrest⟩ := listEntry_spends listed
      obtain ⟨hspends, hleft⟩ := ih hrest
      refine ⟨hentry.trans hspends, hleft.imp_right fun hless => ?_⟩
      rw [List.length_cons]
      omega

theorem directoryRoutineContinue_spends {self self' : Routine} {routine : DirectoryRoutine}
    {channel channel' : Channel} {written : Nat}
    (h : directoryRoutineContinue self routine channel = .ok (self', channel', written)) :
    Spends ⟨self.socketBuffer, channel⟩ ⟨self'.socketBuffer, channel'⟩ ∧
      self'.state = self.state ∧ ∃ routine', self'.type = .dir routine' ∧
        (written = 0 ∨
          routine'.directory.entries.length < routine.directory.entries.length) := by
  rw [directoryRoutineContinue] at h
  obtain ⟨⟨s, bytesWrite⟩, hlist, h⟩ := bind_eq_ok_iff.mp h
  obtain ⟨rfl, hrest⟩ := Prod.mk.inj (Except.ok.inj h)
  obtain ⟨rfl, rfl⟩ := Prod.mk.inj hrest
  have hturns := listEntries_turns hlist
  obtain ⟨hspends, hleft⟩ := listTurns_spends hturns rfl
  exact ⟨hspends, rfl, s.dir, rfl, hleft⟩

theorem fileRoutineContinue_spends {self self' : Routine} {routine : FileRoutine}
    {channel channel' : Channel} {written : Nat}
    (h : fileRoutineContinue self routine channel = .ok (self', channel', written)) :
    Spends ⟨self.socketBuffer, channel⟩ ⟨self'.socketBuffer, channel'⟩ ∧
      ∃ routine', self'.type = .file routine' ∧
        ((written ≠ 0 ∧ self'.state = self.state ∧
            routine'.file.content.length - routine'.file.pos <
              routine.file.content.length - routine.file.pos) ∨
          (written = 0 ∧ self'.socketBuffer.has errFail = true) ∨
          (written = 0 ∧ self'.socketBuffer = self.socketBuffer ∧
            routine'.file.content.length - routine'.file.pos =
              routine.file.content.length - routine.file.pos)) := by
  rw [fileRoutineContinue] at h
  simp only at h
  generalize hwanted : (if routine.endOffset - routine.file.pos < sbDataSize
    then ((routine.endOffset - routine.file.pos) % 2 ^ 64).toNat else sbDataSize) = wanted at h
  obtain ⟨block, hblock⟩ :
      ∃ block, (routine.file.content.drop routine.file.pos).take wanted = block := ⟨_, rfl⟩
  have hlength : block.length ≤ routine.file.content.length - routine.file.pos := by
    rw [← hblock, List.length_take, List.length_drop]
    exact Nat.min_le_right _ _
  simp only [File.read, hblock] at h
  split at h
  · simp at h
  · split at h
    · rename_i hnil
      obtain ⟨rfl, hrest⟩ := Prod.mk.inj (Except.ok.inj h)
      obtain ⟨rfl, rfl⟩ := Prod.mk.inj hrest
      refine ⟨Spends.refl _, _, rfl, .inr (.inr ⟨rfl, rfl, ?_⟩)⟩
      simp [hnil]
    · rename_i hsome
      have hpositive : 0 < block.length := List.length_pos_iff.mpr hsome
      have hspends := sendBufferWriteData_spends ⟨self.socketBuffer, channel⟩ block
      obtain ⟨⟨link, n⟩, hlink⟩ :
          ∃ r, sendBufferWriteData ⟨self.socketBuffer, channel⟩ block = r := ⟨_, rfl⟩
      have hcount : n = block.length ∨ (n = 0 ∧ link.self.has errFail = true) := by
        rw [sendBufferWriteData] at hlink
        split at hlink
        · obtain ⟨-, rfl⟩ := Prod.mk.inj hlink
          exact .inl rfl
        · split at hlink
          · obtain ⟨rfl, rfl⟩ := Prod.mk.inj hlink
            exact .inr ⟨rfl, (room_of_failed rfl).2⟩
          · rename_i hsend
            simp only at hlink
            split at hlink
            · obtain ⟨-, rfl⟩ := Prod.mk.inj hlink
              exact .inl rfl
            · rename_i hall
              obtain ⟨-, rfl⟩ := Prod.mk.inj hlink
              exact .inl (Nat.le_antisymm (send_sent_le hsend) (Nat.not_lt.mp hall))
      rw [hlink] at h hspends
      obtain ⟨rfl, hrest⟩ := Prod.mk.inj (Except.ok.inj h)
      obtain ⟨rfl, rfl⟩ := Prod.mk.inj hrest
      refine ⟨hspends, _, rfl, ?_⟩
      rcases hcount with rfl | ⟨rfl, hfail⟩
      · refine .inl ⟨by omega, rfl, ?_⟩
        simp only [Nat.lt_irrefl, if_false]
        omega
      · exact .inr (.inl ⟨rfl, hfail⟩)

end Entries

section Weight

/-- What a routine has still to read: bytes of its file, or entries of its directory. -/
def unread : RoutineType → Nat
  | .plain => 0
  | .file routine => routine.file.content.length - routine.file.pos
  | .dir routine => routine.directory.entries.length

/-- The rounds from a state to its removal when nothing is left to read and no answer
holds anything back. -/
def phase (routine : Routine) : Nat :=
  match routine.state with
  | .stateFinish => 0
  | .stateFail => 0
  | .stateContinue => if routine.socketBuffer.buffer.isSome then 5 else 1
  | .stateFlush => if routine.socketBuffer.buffer.isSome then 3 else 2
  | .stateDefer => 4

theorem phase_le (routine : Routine) : phase routine ≤ 5 := by
  rw [phase]
  split
  · exact Nat.zero_le 5
  · exact Nat.zero_le 5
  · split <;> decide
  · split <;> decide
  · decide

theorem phase_finish {routine : Routine} (h : routine.state = .stateFinish) :
    phase routine = 0 := by
  rw [phase, h]

/-- A bound for the rounds a routine has before it on a socket that takes everything. -/
def weight (routine : Routine) : Nat :=
  6 * unread routine.type + phase routine

/-- A bound for the rounds before a routine on its socket, which may answer with less than
everything as often as it has an answer of its own. -/
def rounds (routine : Routine) (channel : Channel) : Nat :=
  weight routine + channel.sends.length

theorem advance_rounds {deferred : List Nat} {routine : Routine} {channel : Channel} {t : Ticked}
    (hroom : routine.socketBuffer.has errFull = false)
    (hfree : routine.state = .stateDefer → routine.socketBuffer.clientSocket ∉ deferred)
    (h : advance deferred routine channel = .ok t) (hkept : t.kept = true) :
    rounds t.routine t.channel < rounds routine channel := by
  have hflush := sendBufferFlush_flushes ⟨routine.socketBuffer, channel⟩
  obtain ⟨⟨link, sent⟩, hlink⟩ :
      ∃ r, sendBufferFlush ⟨routine.socketBuffer, channel⟩ = r := ⟨_, rfl⟩
  rw [hlink] at hflush
  have hspends := hflush.1
  have hsends : link.channel.sends.length ≤ channel.sends.length := hspends.sends
  have hfewer : link.self.buffer = none ∨ link.channel.sends.length < channel.sends.length :=
    hflush.2
  rw [advance] at h
  simp only [hlink] at h
  split at h
  · rename_i hstate
    rw [if_neg (hfree hstate)] at h
    split at h
    · obtain rfl := Except.ok.inj h
      simp only [rounds, weight, phase, hstate]
      omega
    · split at h
      · obtain rfl := Except.ok.inj h
        simp only [rounds, weight, phase, hstate]
        omega
      · rw [hspends.room hroom, if_neg Bool.false_ne_true] at h
        obtain rfl := Except.ok.inj h
        simp only [rounds, weight, phase, hstate]
        split <;> omega
  · rename_i hstate
    split at h
    · rename_i hsome
      split at h
      · obtain rfl := Except.ok.inj h
        simp only [rounds, weight, phase, hstate, hsome, if_true]
        omega
      · obtain rfl := Except.ok.inj h
        rcases hfewer with hnone | hfewer
        · simp only [rounds, weight, phase, hstate, hsome, hnone, if_true, Option.isSome_none,
            Bool.false_eq_true, if_false]
          omega
        · simp only [rounds, weight, phase, hstate, hsome, if_true]
          split <;> omega
    · rename_i hnone
      obtain rfl := Except.ok.inj h
      simp only [rounds, weight, phase, hstate, if_neg hnone]
      omega
  · rename_i hstate htype
    obtain rfl := Except.ok.inj h
    simp only [rounds, weight, phase, hstate]
    split <;> omega
  · rename_i file hstate htype
    obtain ⟨⟨routine', channel', written⟩, hcontinue, h⟩ := bind_eq_ok_iff.mp h
    obtain ⟨hspends, file', htype', houtcome⟩ := fileRoutineContinue_spends hcontinue
    have hsends : channel'.sends.length ≤ channel.sends.length := hspends.sends
    have hroom' : routine'.socketBuffer.has errFull = false := hspends.room hroom
    have hcontinues : 1 ≤ phase routine := by
      simp only [phase, hstate]
      split <;> decide
    simp only [hroom', Bool.false_eq_true, or_false] at h
    rcases houtcome with ⟨hwritten, hstays, hless⟩ | ⟨rfl, hfail⟩ | ⟨rfl, hsame, hleft⟩
    · rw [if_pos hwritten] at h
      have hbound := phase_le t.routine
      have hmoves : t.channel = channel' ∧ t.routine.type = .file file' := by
        split at h
        · obtain rfl := Except.ok.inj h
          exact ⟨rfl, htype'⟩
        · obtain rfl := Except.ok.inj h
          exact ⟨rfl, htype'⟩
      simp only [rounds, weight, hmoves.1, hmoves.2, htype, unread]
      omega
    · rw [if_neg (not_not.mpr rfl), if_pos hfail] at h
      rw [(retire_eq h).2.2] at hkept
      exact absurd hkept Bool.false_ne_true
    · rw [if_neg (not_not.mpr rfl)] at h
      split at h
      · rw [(retire_eq h).2.2] at hkept
        exact absurd hkept Bool.false_ne_true
      · split at h
        · rename_i hstored
          rw [hsame] at hstored
          obtain rfl := Except.ok.inj h
          simp only [rounds, weight, phase, hstate, hstored, htype, htype', unread, if_true]
          omega
        · obtain rfl := Except.ok.inj h
          rw [rounds, rounds, weight, weight, phase_finish rfl]
          simp only [htype, htype', unread]
          omega
  · rename_i dir hstate htype
    obtain ⟨⟨routine', channel', written⟩, hcontinue, h⟩ := bind_eq_ok_iff.mp h
    obtain ⟨hspends, hstays, dir', htype', hleft⟩ := directoryRoutineContinue_spends hcontinue
    have hsends : channel'.sends.length ≤ channel.sends.length := hspends.sends
    simp only at h
    split at h
    · rename_i hwritten
      obtain rfl := Except.ok.inj h
      have hless := hleft.resolve_left hwritten
      have hbound := phase_le routine'
      simp only [rounds, weight, htype, htype', unread]
      omega
    · rw [(retire_eq h).2.2] at hkept
      exact absurd hkept Bool.false_ne_true
  · rw [(retire_eq h).2.2] at hkept
    exact absurd hkept Bool.false_ne_true
  · rw [(retire_eq h).2.2] at hkept
    exact absurd hkept Bool.false_ne_true

theorem advance_held {deferred : List Nat} {routine : Routine} (channel : Channel)
    (hstate : routine.state = .stateDefer)
    (hheld : routine.socketBuffer.clientSocket ∈ deferred) :
    advance deferred routine channel = .ok ⟨routine, channel, deferred, true⟩ := by
  simp only [advance, hstate, if_pos hheld]

theorem advance_room {deferred : List Nat} {routine : Routine} {channel : Channel} {t : Ticked}
    (hroom : routine.socketBuffer.has errFull = false)
    (h : advance deferred routine channel = .ok t) :
    t.routine.socketBuffer.has errFull = false := by
  cases advance_cases h with
  | stays type self hchannel state kept =>
      rw [self]
      exact hroom
  | flushes type link state waits kept =>
      have hspends := (sendBufferFlush_flushes ⟨routine.socketBuffer, channel⟩).1
      rw [← link] at hspends
      exact hspends.room hroom
  | file state type continued hroutine outcome =>
      rw [hroutine]
      exact (fileRoutineContinue_spends continued).1.room hroom
  | dir state type continued =>
      exact (directoryRoutineContinue_spends continued).1.room hroom

end Weight

section Ticks

/-- The socket has no routine any more, or one with at most `n` ticks before it. -/
def Pending (s n : Nat) (server : Serving) : Prop :=
  (sockets server.routines).Nodup ∧ (s ∉ sockets server.routines ∨
    ∃ routine ∈ server.routines, routine.socketBuffer.clientSocket = s ∧
      routine.socketBuffer.has errFull = false ∧
      rounds routine (server.net s) + server.routines.length ≤ n)

theorem pending_tick {s n : Nat} {server next : Serving} {deferred : List Nat}
    (h : Pending s n server) (htick : tickAnswering server deferred = .ok next) :
    Pending s n next ∧ (s ∉ deferred → Pending s (n - 1) next) := by
  obtain ⟨hnodup, hstate⟩ := h
  obtain ⟨result, hresult, hnext⟩ := bind_eq_ok_iff.mp htick
  obtain rfl := Except.ok.inj hnext
  have hrounds := tickFrom_rounds hresult
  have hnodup' := hnodup.sublist (rounds_sockets hrounds)
  have hshort : result.1.length ≤ server.routines.length := rounds_length hrounds
  rcases hstate with hgone | ⟨routine, hmem, hs, hroom, hbound⟩
  · have hstill : s ∉ sockets result.1 := fun hin => hgone ((rounds_sockets hrounds).mem hin)
    exact ⟨⟨hnodup', .inl hstill⟩, fun _ => ⟨hnodup', .inl hstill⟩⟩
  · rcases tickFrom_focus hresult hnodup hmem hs with
      ⟨hmem', hnet, -, hless⟩ | ⟨t, hround, hnet, -, hout⟩
    · have hcloser : rounds routine (result.2.2 s) + result.1.length ≤ n - 1 := by
        have hsame : result.2.2 s = server.net s := hnet
        have hless' : result.1.length < server.routines.length := hless
        rw [hsame]
        omega
      exact ⟨⟨hnodup', .inr ⟨routine, hmem', hs, hroom, hcloser.trans (Nat.sub_le n 1)⟩⟩,
        fun _ => ⟨hnodup', .inr ⟨routine, hmem', hs, hroom, hcloser⟩⟩⟩
    · rcases hout with ⟨hkept, hmem'⟩ | ⟨-, hgone⟩
      · have hsame := (advance_clientSocket hround).trans hs
        have hroom' := advance_room hroom hround
        have hcount : (routine.state = .stateDefer → s ∉ deferred) →
            rounds t.routine (result.2.2 s) + result.1.length ≤ n - 1 := by
          intro hfree
          have hless : rounds t.routine t.channel < rounds routine (server.net s) :=
            advance_rounds hroom (hs ▸ hfree) hround hkept
          rw [hnet]
          omega
        refine ⟨⟨hnodup', .inr ⟨t.routine, hmem', hsame, hroom', ?_⟩⟩, fun hout =>
          ⟨hnodup', .inr ⟨t.routine, hmem', hsame, hroom', hcount fun _ => hout⟩⟩⟩
        by_cases hheld : routine.state = .stateDefer ∧ s ∈ deferred
        · have hwaits := advance_held (server.net s) hheld.1 (hs ▸ hheld.2)
          obtain rfl := Except.ok.inj (hround.symm.trans hwaits)
          have hsame : result.2.2 s = server.net s := hnet
          show rounds routine (result.2.2 s) + result.1.length ≤ n
          rw [hsame]
          omega
        · exact (hcount fun hstate hin => hheld ⟨hstate, hin⟩).trans (Nat.sub_le n 1)
      · exact ⟨⟨hnodup', .inl hgone⟩, fun _ => ⟨hnodup', .inl hgone⟩⟩

/-- The routine on a socket is gone once there have been enough ticks that did not find the
socket deferred. -/
theorem ticks_remove {first last : Serving} {answers : List (List Nat)}
    (hrun : follow tickAnswering (fun _ _ => True) first answers = some last)
    (hnodup : (sockets first.routines).Nodup) {routine : Routine}
    (hmem : routine ∈ first.routines) (hroom : routine.socketBuffer.has errFull = false)
    (hlong : rounds routine (first.net routine.socketBuffer.clientSocket) +
        first.routines.length ≤
      answers.countP fun deferred => routine.socketBuffer.clientSocket ∉ deferred) :
    routine.socketBuffer.clientSocket ∉ sockets last.routines := by
  have hlast := follow_countdown
    (fun n server => Pending routine.socketBuffer.clientSocket n server)
    (fun deferred => routine.socketBuffer.clientSocket ∉ deferred)
    (fun n server deferred next hpending _ htick => (pending_tick hpending htick).1)
    (fun n server deferred next hpending huseful _ htick =>
      (pending_tick hpending htick).2 (of_decide_eq_true huseful))
    hrun ⟨hnodup, .inr ⟨routine, hmem, rfl, hroom, Nat.le_refl _⟩⟩ hlong
  refine hlast.2.resolve_right ?_
  rintro ⟨current, hcurrent, -, -, hbound⟩
  have hsome := List.length_pos_of_mem hcurrent
  omega

theorem ticks_complete {first last : Serving} {answers : List (List Nat)}
    (hrun : follow tickAnswering (fun _ _ => True) first answers = some last)
    (hnodup : (sockets first.routines).Nodup)
    (hroom : ∀ routine ∈ first.routines, routine.socketBuffer.has errFull = false)
    (hlong : ∀ routine ∈ first.routines,
      rounds routine (first.net routine.socketBuffer.clientSocket) + first.routines.length ≤
        answers.countP fun deferred => routine.socketBuffer.clientSocket ∉ deferred) :
    last.routines = [] := by
  have hrounds : (sockets last.routines).Sublist (sockets first.routines) := by
    refine run_invariant (fun server => (sockets server.routines).Sublist
      (sockets first.routines)) ?_ (run_of_follow hrun) (List.Sublist.refl _)
    rintro server deferred next hsub - htick
    exact (rounds_sockets (tickAnswering_rounds htick)).trans hsub
  refine List.eq_nil_iff_forall_not_mem.mpr fun current hcurrent => ?_
  have hsocket : current.socketBuffer.clientSocket ∈ sockets last.routines :=
    List.mem_map_of_mem hcurrent
  obtain ⟨routine, hmem, hsame⟩ := List.mem_map.mp (hrounds.mem hsocket)
  have hgone := ticks_remove hrun hnodup hmem (hroom routine hmem) (hlong routine hmem)
  rw [hsame] at hgone
  exact hgone hsocket

end Ticks

section Handlers

theorem room_of_new (clientSocket : Nat) : (sendBufferNew clientSocket 0).has errFull = false := by
  show ((0 : UInt8) &&& errFull != 0) = false
  decide

theorem contentType_spends (link : Link) (type charSet : Bytes) :
    Spends link (httpHeaderWriteContentType link type charSet) := by
  rw [httpHeaderWriteContentType]
  split
  · exact sendBufferPrintf_spends link _
  · exact Spends.refl link

theorem dirHead_spends (world : World) (link : Link) (st : FileStat) :
    Spends link (dirHead world link st) := by
  have hstatus : Spends link (httpHeaderWriteResponse link 200) := sendBufferPrintf_spends link _
  have hdate := hstatus.trans (sendBufferPrintf_spends _ ⟨40, dateLine world.clock⟩)
  have hmodified := hdate.trans
    (sendBufferPrintf_spends _ ⟨50, lastModifiedLine world.clock st⟩)
  have htype := hmodified.trans (contentType_spends _ (text "text/html") [])
  have hchunked := htype.trans (sendBufferWriteText_spends _ chunkedLine)
  exact hchunked.trans (sendBufferWriteText_spends _ httpEol)

theorem fileHead_spends (world : World) (link : Link) (header webPath : Bytes) (st : FileStat) :
    Spends link (fileHead world link header webPath st).1 := by
  have hstatus : Spends link (httpHeaderWriteResponse link
      (if (httpHeaderReadRange header 0 0 st.size).isNone then 200 else 206)) :=
    sendBufferPrintf_spends link _
  have hdate := hstatus.trans (sendBufferPrintf_spends _ ⟨40, dateLine world.clock⟩)
  have hname := hdate.trans (sendBufferPrintf_spends _
    ⟨(fileName webPath).length + 40, fileNameLine webPath⟩)
  have hmodified := hname.trans
    (sendBufferPrintf_spends _ ⟨50, lastModifiedLine world.clock st⟩)
  have haccept := hmodified.trans (sendBufferWriteText_spends _ acceptRangesLine)
  rw [fileHead]
  split
  · have hlength := haccept.trans (sendBufferPrintf_spends _ ⟨80, contentLengthLine st.size⟩)
    exact hlength.trans (sendBufferWriteText_spends _ httpEol)
  · rename_i start finish hrange
    have hlength := haccept.trans (sendBufferPrintf_spends _
      ⟨80, contentLengthLine (rangeEnd finish st.size - start)⟩)
    have hcontent : Spends link (httpHeaderWriteRange _ start (rangeEnd finish st.size) st.size) :=
      hlength.trans (sendBufferPrintf_spends _ _)
    exact hcontent.trans (sendBufferWriteText_spends _ httpEol)

/-- What a handler adds never has a full send buffer. -/
def Roomy (handled : Handled) : Prop :=
  ∀ routine, handled.added = some routine → routine.socketBuffer.has errFull = false

theorem roomy_of_none {handled : Handled} (h : handled.added = none) : Roomy handled := by
  intro routine hadded
  simp [h] at hadded

theorem handleDir_roomy {world : World} {clientSocket : Nat} {channel : Channel}
    {webPath absolutePath : Bytes} {type : HttpType} {st : FileStat} {handled : Handled}
    (h : handleDir world clientSocket channel webPath absolutePath type st = .ok handled) :
    Roomy handled := by
  intro routine hadded
  obtain ⟨entries, crumbs, head, -, -, hhead, -, hlink, rfl⟩ := handleDir_added h hadded
  have hwritten := dirHead_spends world ⟨sendBufferNew clientSocket 0, channel⟩ st
  have hstart : Spends ⟨sendBufferNew clientSocket 0, channel⟩ head := by
    rcases hhead with rfl | rfl
    · exact hwritten
    · exact hwritten.trans (sendBufferFlush_flushes _).1
  have htop := hstart.trans (httpBodyWriteChunk_spends head
    (htmlHeaderWrite [] (if webPath = [] then text "/" else webPath)))
  have hflushed := htop.trans (sendBufferFlush_flushes _).1
  have hlist := hflushed.trans (httpBodyWriteChunk_spends _ (htmlListStart crumbs))
  have hend := hlist.trans (sendBufferFlush_flushes _).1
  rw [directoryRoutineNew, hlink]
  exact hend.room (room_of_new clientSocket)

theorem handlePath_roomy {world : World} {clientSocket : Nat} {channel : Channel}
    {header webPath : Bytes} {handled : Handled}
    (h : handlePath world clientSocket channel header webPath = .ok handled) :
    Roomy handled := by
  rw [handlePath] at h
  obtain ⟨path, -, h⟩ := bind_eq_ok_iff.mp h
  split at h
  · obtain rfl := Except.ok.inj h
    exact roomy_of_none (httpHeaderHandleError_added _ _ _)
  · split at h
    · obtain rfl := Except.ok.inj h
      exact roomy_of_none (httpHeaderHandleError_added _ _ _)
    · simp only at h
      split at h
      · obtain rfl := Except.ok.inj h
        intro routine hadded
        obtain rfl := Option.some.inj hadded
        have hstatus : Spends ⟨sendBufferNew clientSocket 0, channel⟩
            (httpHeaderWriteResponse ⟨sendBufferNew clientSocket 0, channel⟩ 304) :=
          sendBufferPrintf_spends _ _
        have hdate := hstatus.trans (sendBufferPrintf_spends _ ⟨40, dateLine world.clock⟩)
        exact (hdate.trans (sendBufferWriteText_spends _ httpEol)).room (room_of_new clientSocket)
      · split at h
        · exact handleDir_roomy h
        · obtain rfl := Except.ok.inj h
          intro routine hadded
          rw [handleFile] at hadded
          split at hadded
          · simp at hadded
          · simp only at hadded
            split at hadded
            · simp at hadded
            · obtain rfl := Option.some.inj hadded
              exact (fileHead_spends world _ header webPath _).room (room_of_new clientSocket)
        · obtain rfl := Except.ok.inj h
          exact roomy_of_none rfl

theorem handleConnection_roomy {world : World} {clientSocket : Nat} {channel : Channel}
    {received : List Received} {handled : Handled}
    (h : handleConnection world clientSocket channel received = .ok handled) :
    Roomy handled := by
  rw [handleConnection] at h
  obtain ⟨result, hresult, h⟩ := bind_eq_ok_iff.mp h
  cases result with
  | inl early =>
      obtain rfl := Except.ok.inj h
      obtain ⟨link', rfl⟩ := handleConnection_early hresult
      exact roomy_of_none rfl
  | inr message =>
      cases message with
      | nil =>
          obtain rfl := Except.ok.inj h
          exact roomy_of_none rfl
      | cons c message =>
          simp only at h
          obtain ⟨uri, -, h⟩ := bind_eq_ok_iff.mp h
          split at h
          · obtain rfl := Except.ok.inj h
            exact roomy_of_none rfl
          · split at h
            · obtain rfl := Except.ok.inj h
              exact roomy_of_none rfl
            · exact handlePath_roomy h

end Handlers

section Server

theorem rounds_roomy {routines routines' : List Routine} {net net' : Network}
    (h : Rounds routines net routines' net')
    (hroom : ∀ routine ∈ routines, routine.socketBuffer.has errFull = false) :
    ∀ routine ∈ routines', routine.socketBuffer.has errFull = false := by
  induction h with
  | done net => exact hroom
  | kept hadvance hkept hrest ih =>
      obtain ⟨hfirst, hlater⟩ := List.forall_mem_cons.mp hroom
      exact List.forall_mem_cons.mpr ⟨advance_room hfirst hadvance, ih hlater⟩
  | last hadvance hkept => simp
  | skip hadvance hkept hrest ih =>
      obtain ⟨-, hskipped, hlater⟩ := List.forall_mem_cons.mp hroom |>.imp_right
        List.forall_mem_cons.mp
      exact List.forall_mem_cons.mpr ⟨hskipped, ih hlater⟩

theorem mem_of_routineArrayDelSocket {socket : Nat} {routines routines' : List Routine}
    (h : routineArrayDelSocket socket routines = .ok routines') {routine : Routine}
    (hmem : routine ∈ routines') : routine ∈ routines := by
  induction routines generalizing routines' with
  | nil =>
      obtain rfl := Except.ok.inj h
      exact hmem
  | cons first rest ih =>
      rw [routineArrayDelSocket] at h
      split at h
      · obtain ⟨rest', hrest, h⟩ := bind_eq_ok_iff.mp h
        obtain rfl := Except.ok.inj h
        rcases List.mem_cons.mp hmem with rfl | hmem
        · exact List.mem_cons_self
        · exact List.mem_cons_of_mem _ (ih hrest hmem)
      · obtain ⟨u, -, h⟩ := bind_eq_ok_iff.mp h
        obtain rfl := Except.ok.inj h
        exact List.mem_cons_of_mem _ hmem

theorem serverEvent_roomy {server next : Multiplexer} {event : Event}
    (hroom : ∀ routine ∈ server.serving.routines, routine.socketBuffer.has errFull = false)
    (h : serverEvent server event = .ok next) :
    ∀ routine ∈ next.serving.routines, routine.socketBuffer.has errFull = false := by
  cases event with
  | tick => exact rounds_roomy (serverEvent_tick h).1 hroom
  | accept clientSocket channel =>
      obtain rfl := Except.ok.inj h
      exact hroom
  | writable socket =>
      obtain rfl := Except.ok.inj h
      exact hroom
  | readable socket world received =>
      change serveRequest server socket world received = .ok next at h
      rw [serveRequest] at h
      obtain ⟨handled, hhandled, h⟩ := bind_eq_ok_iff.mp h
      have hadded := handleConnection_roomy hhandled
      have hall : ∀ routine ∈ server.serving.routines ++ handled.added.toList,
          routine.socketBuffer.has errFull = false := by
        intro routine hmem
        rcases List.mem_append.mp hmem with hmem | hmem
        · exact hroom routine hmem
        · exact hadded routine (Option.mem_toList.mp hmem)
      split at h
      · obtain rfl := Except.ok.inj h
        exact hall
      · obtain ⟨routines, hroutines, h⟩ := bind_eq_ok_iff.mp h
        obtain rfl := Except.ok.inj h
        exact fun routine hmem => hall routine (mem_of_routineArrayDelSocket hroutines hmem)

/-- Every response comes to an end. An orderly run leaves one routine to a socket, none of them
with a full buffer, and each is gone once its socket has been found writable often enough. -/
theorem responses_end {net : Network} {server : Multiplexer}
    (hserver : Run serverEvent Allowed (serverSetup net) server) {last : Serving}
    {answers : List (List Nat)}
    (hrun : follow tickAnswering (fun _ _ => True) server.serving answers = some last)
    (hlong : ∀ routine ∈ server.serving.routines,
      weight routine + (server.serving.net routine.socketBuffer.clientSocket).sends.length +
          server.serving.routines.length ≤
        answers.countP fun deferred => routine.socketBuffer.clientSocket ∉ deferred) :
    last.routines = [] := by
  have htidy : Tidy server :=
    run_invariant Tidy (fun _ _ _ hs happens moves => serverEvent_tidy hs happens moves) hserver
      (serverSetup_tidy net)
  have hroom : ∀ routine ∈ server.serving.routines, routine.socketBuffer.has errFull = false :=
    run_invariant (fun server => ∀ routine ∈ server.serving.routines,
      routine.socketBuffer.has errFull = false)
      (fun _ _ _ hs _ moves => serverEvent_roomy hs moves) hserver (by simp [serverSetup])
  exact ticks_complete hrun htidy.single hroom hlong

/-- A request for ten digits on a socket that blocks, takes three bytes and blocks again. -/
def stutteringRequest : List Event :=
  [.accept 3 ⟨[], [.wouldBlock, .accepts 3, .wouldBlock]⟩, digitsRequest]

theorem responses_end_stuttering : ∃ server last,
    follow serverEvent Allowed (serverSetup fun _ => ⟨[], []⟩) stutteringRequest = some server ∧
      server.serving.routines ≠ [] ∧
      follow tickAnswering (fun _ _ => True) server.serving (List.replicate 70 []) = some last ∧
      last.routines = [] := by
  have hserved : (follow serverEvent Allowed (serverSetup fun _ => ⟨[], []⟩)
      stutteringRequest).any fun server => server.serving.routines ≠ [] ∧
        (follow tickAnswering (fun _ _ => True) server.serving
          (List.replicate 70 [])).isSome ∧
        ∀ routine ∈ server.serving.routines,
          weight routine +
              (server.serving.net routine.socketBuffer.clientSocket).sends.length +
              server.serving.routines.length ≤
            (List.replicate 70 ([] : List Nat)).countP fun deferred =>
              routine.socketBuffer.clientSocket ∉ deferred := by
    decide +kernel
  obtain ⟨server, hserver, hholds⟩ := (Option.any_eq_true _ _).mp hserved
  obtain ⟨hsome, hlast, hlong⟩ := of_decide_eq_true hholds
  obtain ⟨last, hlast⟩ := Option.isSome_iff_exists.mp hlast
  exact ⟨server, last, hserver, hsome, hlast,
    responses_end (run_of_follow hserver) hlast hlong⟩

end Server

end Newth.Server.Completion
