import Newth.Server.Handlers
import Newth.Server.Ticks

namespace Newth.Server.FileTransfer

open Newth.Library.ByteString
open Newth.Library.Call
open Newth.Library.Runs
open Newth.Server.Handlers
open Newth.Server.HttpHeader
open Newth.Server.Routines
open Newth.Server.Sendbufr
open Newth.Server.Ticks

section Transfer

/-- A file routine that has written, after `before`, the file from `start` up to where
it stands, and is done only when nothing is left. -/
structure Transfers (content : Bytes) (start stop : Nat) (before : Bytes) (routine : Routine)
    (channel : Channel) : Prop where
  progress : ∃ pos offset, routine.type = .file ⟨⟨content, pos⟩, offset, stop⟩ ∧
    start ≤ pos ∧ pos ≤ stop ∧
    Link.carried ⟨routine.socketBuffer, channel⟩
      = before ++ (content.drop start).take (pos - start) ∧
    (routine.state = .stateFinish → pos = stop ∧ routine.socketBuffer.buffer = none)
  coherent : routine.socketBuffer.Coherent

theorem take_add_drop {content : Bytes} {start pos n : Nat} (h : start ≤ pos) :
    (content.drop start).take (pos - start) ++ (content.drop pos).take n
      = (content.drop start).take (pos + n - start) := by
  have hdrop : content.drop pos = (content.drop start).drop (pos - start) := by
    rw [List.drop_drop, Nat.add_sub_cancel' h]
  rw [hdrop, ← List.take_add]
  congr 1
  omega

/-- A call within the range writes the next block and moves on by it, or writes
nothing and stays. -/
theorem fileRoutineContinue_transfers {content : Bytes} {pos stop : Nat} {offset : Int}
    {routine routine' : Routine} {channel channel' : Channel} {written : Nat}
    (hcoherent : routine.socketBuffer.Coherent) (hpos : pos ≤ stop)
    (hstop : stop ≤ content.length)
    (h : fileRoutineContinue routine ⟨⟨content, pos⟩, offset, stop⟩ channel
      = .ok (routine', channel', written)) :
    ∃ n, routine'.type = .file ⟨⟨content, pos + n⟩, offset, stop⟩ ∧ pos + n ≤ stop ∧
      Link.carried ⟨routine'.socketBuffer, channel'⟩
        = Link.carried ⟨routine.socketBuffer, channel⟩ ++ (content.drop pos).take n ∧
      routine'.socketBuffer.Coherent ∧
      (written = 0 → routine'.socketBuffer.has errFail = false → pos = stop) ∧
      (routine'.state = routine.state ∨ routine'.state = .stateFlush) := by
  have hsmall : sbDataSize = 8192 := rfl
  obtain ⟨n, hn⟩ : ∃ n, n = min (stop - pos) sbDataSize := ⟨_, rfl⟩
  have hwanted : (if (stop : Int) - pos < sbDataSize
      then (((stop : Int) - pos) % 2 ^ 64).toNat else sbDataSize) = n := by
    split
    · omega
    · omega
  obtain ⟨block, hblock⟩ : ∃ block, (content.drop pos).take n = block := ⟨_, rfl⟩
  have hlength : block.length = n := by
    rw [← hblock, List.length_take, List.length_drop]
    omega
  simp only [fileRoutineContinue, File.read, hwanted, hblock, hlength] at h
  rw [if_neg (by omega)] at h
  split at h
  · rename_i hnil
    obtain ⟨rfl, hrest⟩ := Prod.mk.inj (Except.ok.inj h)
    obtain ⟨rfl, rfl⟩ := Prod.mk.inj hrest
    obtain rfl : n = 0 := by simpa [hnil] using hlength.symm
    refine ⟨0, rfl, hpos, by simp, hcoherent, ?_, .inr rfl⟩
    intro _ _
    omega
  · rename_i hsome
    obtain ⟨rfl, hrest⟩ := Prod.mk.inj (Except.ok.inj h)
    obtain ⟨rfl, rfl⟩ := Prod.mk.inj hrest
    have hpositive : 0 < n := by
      rw [← hlength]
      exact List.length_pos_of_ne_nil hsome
    obtain ⟨hcoherent', hreport⟩ :=
      @sendBufferWriteData_reports ⟨routine.socketBuffer, channel⟩ hcoherent block
    rcases hreport with ⟨hcarried, -, hcount⟩ | ⟨hcarried, hfail, hcount⟩
    · refine ⟨n, ?_, by omega, by rw [hblock]; exact hcarried, hcoherent', ?_, .inl rfl⟩
      · simp only [hcount, hlength, Nat.lt_irrefl, if_false]
      · intro hzero
        omega
    · refine ⟨0, ?_, hpos, by simpa using hcarried, hcoherent', ?_, .inl rfl⟩
      · simp only [hcount, hpositive, if_true]
        have hseek : File.seekSet ⟨content, pos + n⟩ ((pos : Int) + ((0 : Nat) : Int))
            = ⟨content, pos⟩ := by
          simp [File.seekSet, Int.not_lt.mpr (Int.natCast_nonneg pos)]
        rw [hseek]
        rfl
      · intro _ hfine
        simp [SendBuffer.has, hfail, errFail] at hfine

/-- A transfer taken out of the array without a failure is complete, and any transfer
has sent no more than was asked for. -/
def Left (content : Bytes) (start stop : Nat) (before : Bytes) (t : Ticked) : Prop :=
  t.routine.state ≠ .stateFail →
    t.channel.accepted = before ++ (content.drop start).take (stop - start)

theorem accepted_prefix {content before : Bytes} {start pos stop : Nat} {link : Link}
    (hpos : pos ≤ stop) (h : link.carried = before ++ (content.drop start).take (pos - start)) :
    link.channel.accepted <+: before ++ (content.drop start).take (stop - start) := by
  have hshort : (content.drop start).take (pos - start)
      <+: (content.drop start).take (stop - start) := List.take_prefix_take_left (by omega)
  have hcarried : link.channel.accepted <+: link.carried := List.prefix_append _ _
  rw [h] at hcarried
  exact hcarried.trans ((List.prefix_append_right_inj before).mpr hshort)

theorem advance_transfers {content before : Bytes} {start stop : Nat} {deferred : List Nat}
    {routine : Routine} {channel : Channel} {t : Ticked} (hstop : stop ≤ content.length)
    (htransfers : Transfers content start stop before routine channel)
    (h : advance deferred routine channel = .ok t) :
    (t.kept = true → Transfers content start stop before t.routine t.channel) ∧
      (t.kept = false → Left content start stop before t) ∧
      t.channel.accepted <+: before ++ (content.drop start).take (stop - start) := by
  obtain ⟨⟨pos, offset, htype, hstart, hpos, hcarried, hfinish⟩, hcoherent⟩ := htransfers
  have hflushed := @sendBufferFlush_reports ⟨routine.socketBuffer, channel⟩ hcoherent
  have hcases := advance_cases h
  cases hcases with
  | stays type self hchannel state kept =>
      have hlink : Link.carried ⟨t.routine.socketBuffer, t.channel⟩
          = before ++ (content.drop start).take (pos - start) := by
        rw [self, hchannel, hcarried]
      refine ⟨?_, ?_, accepted_prefix hpos hlink⟩
      · intro _
        refine ⟨⟨pos, offset, type.trans htype, hstart, hpos, hlink, ?_⟩, self ▸ hcoherent⟩
        intro hdone
        rcases state with hsame | hcontinue | ⟨-, hplain⟩ | ⟨hfail, -⟩
        · rw [self]
          exact hfinish (hsame ▸ hdone)
        · simp [hcontinue] at hdone
        · simp [htype] at hplain
        · simp [hfail] at hdone
      · intro hremoved hfine
        obtain ⟨hsame, hdone | hfail⟩ := kept hremoved
        · obtain ⟨rfl, hempty⟩ := hfinish hdone
          rw [← hlink, Link.carried, Link.pending]
          simp [self, hempty]
        · exact absurd (hsame.trans hfail) hfine
  | flushes type link state waits kept =>
      have hlink : Link.carried ⟨t.routine.socketBuffer, t.channel⟩
          = before ++ (content.drop start).take (pos - start) := by
        rw [link, hflushed.carried, hcarried]
      refine ⟨?_, by simp [kept], accepted_prefix hpos hlink⟩
      intro _
      refine ⟨⟨pos, offset, type.trans htype, hstart, hpos, hlink, ?_⟩, ?_⟩
      · intro hdone
        rcases state with hsame | hflush | ⟨hfail, -⟩
        · rw [hsame] at hdone
          rcases waits with hwaits | hwaits <;> simp [hwaits] at hdone
        · simp [hflush] at hdone
        · simp [hfail] at hdone
      · have hself : t.routine.socketBuffer
            = (sendBufferFlush ⟨routine.socketBuffer, channel⟩).1.self := congrArg Link.self link
        rw [hself]
        exact hflushed.coherent
  | @file file routine' written hcontinue type continued hroutine outcome =>
      obtain rfl : ⟨⟨content, pos⟩, offset, stop⟩ = file := by simpa [htype] using type
      obtain ⟨n, htype', hpos', hcarried', hcoherent', hdone, hstate⟩ :=
        fileRoutineContinue_transfers hcoherent hpos hstop continued
      rw [hcarried, List.append_assoc, take_add_drop hstart] at hcarried'
      have hself : t.routine.socketBuffer = routine'.socketBuffer := by rw [hroutine]
      refine ⟨?_, ?_, ?_⟩
      · intro hkept
        refine ⟨⟨pos + n, offset, by rw [hroutine]; exact htype', by omega, hpos',
          by rw [hself]; exact hcarried', ?_⟩, hself ▸ hcoherent'⟩
        intro hend
        rcases outcome with ⟨-, hsame | ⟨hdefer, -⟩ | ⟨-, hzero, hfine, hempty⟩⟩ | ⟨hremoved, -⟩
        · rw [hend] at hsame
          rcases hstate with hstate | hstate
          · rw [hcontinue] at hstate
            simp [hstate] at hsame
          · simp [hstate] at hsame
        · simp [hdefer] at hend
        · obtain rfl := hdone hzero hfine
          exact ⟨by omega, by rw [hself]; exact hempty⟩
        · simp [hkept] at hremoved
      · intro hremoved hfine
        rcases outcome with ⟨hkept, -⟩ | ⟨-, hfail, -⟩
        · simp [hremoved] at hkept
        · exact absurd hfail hfine
      · exact accepted_prefix hpos' hcarried'
  | @dir dir written hcontinue type continued => simp [htype] at type

/-- Over any number of ticks, any answers about deferral and any behaviour of `send`,
a file routine puts nothing on its socket but what was pending and its range of the
file, and when it finishes without a failure it has put all of it there. -/
theorem fileRoutine_sends_range {content : Bytes} {start stop : Nat} (hstart : start ≤ stop)
    (hstop : stop ≤ content.length) {socketBuffer : SendBuffer}
    (hcoherent : socketBuffer.Coherent) (webPath : Bytes) {first last : Serving}
    (hnodup : (sockets first.routines).Nodup)
    (hadded : fileRoutineNew socketBuffer ⟨content, 0⟩ start stop webPath ∈ first.routines)
    (hrun : Ticking first last) :
    let s := socketBuffer.clientSocket
    let whole := Link.carried ⟨socketBuffer, first.net s⟩ ++
      (content.drop start).take (stop - start)
    (last.net s).accepted <+: whole ∧
      ∀ current ∈ last.routines, current.socketBuffer.clientSocket = s → ∀ deferred t,
        advance deferred current (last.net s) = .ok t →
          t.channel.accepted <+: whole ∧
          (t.kept = false → t.routine.state ≠ .stateFail → t.channel.accepted = whole) := by
  intro s whole
  have hseek : File.seekSet ⟨content, 0⟩ start = ⟨content, start⟩ := by
    simp [File.seekSet, Int.not_lt.mpr (Int.natCast_nonneg start)]
  have hfirst : Transfers content start stop (Link.carried ⟨socketBuffer, first.net s⟩)
      (fileRoutineNew socketBuffer ⟨content, 0⟩ start stop webPath) (first.net s) := by
    refine ⟨⟨start, start, by rw [fileRoutineNew, hseek], le_rfl, hstart, ?_, ?_⟩, hcoherent⟩
    · simp [fileRoutineNew]
    · intro hfinish
      simp [fileRoutineNew] at hfinish
  have hround : ∀ deferred routine channel t,
      Transfers content start stop (Link.carried ⟨socketBuffer, first.net s⟩) routine channel →
      advance deferred routine channel = .ok t →
      (t.kept = true → Transfers content start stop (Link.carried ⟨socketBuffer, first.net s⟩)
          t.routine t.channel) ∧
        (t.kept = false → t.channel.accepted <+: whole) := by
    intro deferred routine channel t htransfers hadvance
    obtain ⟨hkeeps, -, hstarts⟩ := advance_transfers hstop htransfers hadvance
    exact ⟨hkeeps, fun _ => hstarts⟩
  rcases ticks_routine _ (fun channel => channel.accepted <+: whole) hround hrun hnodup hadded rfl
      hfirst with
    ⟨current, -, hsocket, htransfers, honly⟩ | ⟨hgone, hstarts⟩
  · have hstarts : (last.net s).accepted <+: whole := by
      obtain ⟨⟨pos, offset, -, -, hpos, hcarried, -⟩, -⟩ := htransfers
      exact accepted_prefix hpos hcarried
    refine ⟨hstarts, ?_⟩
    intro other hother hsame deferred t hadvance
    obtain rfl := honly other hother hsame
    obtain ⟨-, hleft, hstarts'⟩ := advance_transfers hstop htransfers hadvance
    exact ⟨hstarts', hleft⟩
  · refine ⟨hstarts, ?_⟩
    intro current hcurrent hsocket
    have hmem : s ∈ sockets last.routines := hsocket ▸ List.mem_map_of_mem hcurrent
    exact absurd hmem hgone

theorem fileRoutine_sends_hello :
    ∃ last, follow tickAnswering (fun _ _ => True)
        ⟨[fileRoutineNew (sendBufferNew 3 0) ⟨text "say hello", 0⟩ (4 : Nat) (9 : Nat) (text "/a")],
          [], fun _ => ⟨[], [.accepts 2, .wouldBlock]⟩⟩ [[], [], [], []] = some last ∧
      (last.net 3).accepted <+: text "hello" ∧
      ∀ current ∈ last.routines, current.socketBuffer.clientSocket = 3 → ∀ deferred t,
        advance deferred current (last.net 3) = .ok t →
          t.channel.accepted <+: text "hello" ∧
          (t.kept = false → t.routine.state ≠ .stateFail → t.channel.accepted = text "hello") := by
  have hsome : (follow tickAnswering (fun _ _ => True)
      ⟨[fileRoutineNew (sendBufferNew 3 0) ⟨text "say hello", 0⟩ (4 : Nat) (9 : Nat) (text "/a")],
        [], fun _ => ⟨[], [.accepts 2, .wouldBlock]⟩⟩ [[], [], [], []]).isSome := by
    decide +kernel
  obtain ⟨last, hlast⟩ := Option.isSome_iff_exists.mp hsome
  exact ⟨last, hlast, @fileRoutine_sends_range (text "say hello") 4 9 (by decide) (by decide)
    (sendBufferNew 3 0) rfl (text "/a")
    ⟨[fileRoutineNew (sendBufferNew 3 0) ⟨text "say hello", 0⟩ (4 : Nat) (9 : Nat) (text "/a")],
      [], fun _ => ⟨[], [.accepts 2, .wouldBlock]⟩⟩ last (List.nodup_singleton 3) (by simp)
    (run_of_follow hlast)⟩

end Transfer

section BlockSize

/-- What `FileRoutineContinue` asks `platformFileRead` for, unless the signed
subtraction overflows. -/
def bytesWanted (routine : FileRoutine) : Option Nat :=
  let remaining := routine.endOffset - routine.file.pos
  if remaining < -2 ^ 63 ∨ 2 ^ 63 ≤ remaining then none
  else some (if remaining < sbDataSize then (remaining % 2 ^ 64).toNat else sbDataSize)

/-- The range a file routine is made for. -/
def served (range : Option (Int × Int)) (size : Int) : Int × Int :=
  match range with
  | none => (0, size)
  | some (start, finish) => (start, rangeEnd finish size)

/-- A file routine does not stand behind the end of its range. -/
def Within (routine : Routine) : Prop :=
  ∀ file, routine.type = .file file →
    file.file.pos ≤ file.endOffset ∧ file.endOffset < 2 ^ 63

theorem bytesWanted_of_within {routine : Routine} {file : FileRoutine} (h : Within routine)
    (htype : routine.type = .file file) : ∃ n, bytesWanted file = some n ∧ n ≤ sbDataSize := by
  obtain ⟨hpos, hend⟩ := h file htype
  have hsmall : sbDataSize = 8192 := rfl
  simp only [bytesWanted]
  rw [if_neg (by omega)]
  refine ⟨_, rfl, ?_⟩
  split <;> omega

theorem fileRoutineContinue_within {routine routine' : Routine} {file : FileRoutine}
    {channel channel' : Channel} {written : Nat} (h : Within routine)
    (htype : routine.type = .file file)
    (hcontinue : fileRoutineContinue routine file channel = .ok (routine', channel', written)) :
    Within routine' := by
  obtain ⟨hpos, hend⟩ := h file htype
  obtain ⟨wanted, hwanted⟩ : ∃ wanted, (if file.endOffset - file.file.pos < sbDataSize
      then ((file.endOffset - file.file.pos) % 2 ^ 64).toNat else sbDataSize) = wanted := ⟨_, rfl⟩
  have hsmall : sbDataSize = 8192 := rfl
  have hle : (wanted : Int) ≤ file.endOffset - file.file.pos := by
    split at hwanted <;> omega
  have hread : ((file.file.content.drop file.file.pos).take wanted).length ≤ wanted :=
    List.length_take_le _ _
  simp only [fileRoutineContinue, File.read, hwanted] at hcontinue
  generalize (file.file.content.drop file.file.pos).take wanted = block at hcontinue hread
  split at hcontinue
  · simp at hcontinue
  · split at hcontinue
    · obtain ⟨rfl, -⟩ := Prod.mk.inj (Except.ok.inj hcontinue)
      intro file' htype'
      obtain rfl := RoutineType.file.inj htype'
      simp only
      omega
    · obtain ⟨rfl, -⟩ := Prod.mk.inj (Except.ok.inj hcontinue)
      intro file' htype'
      obtain rfl := RoutineType.file.inj htype'
      simp only
      split
      · simp only [File.seekSet]
        split
        · simp only
          omega
        · simp only
          omega
      · simp only
        omega

theorem advance_within {deferred : List Nat} {routine : Routine} {channel : Channel} {t : Ticked}
    (hwithin : Within routine) (h : advance deferred routine channel = .ok t) :
    Within t.routine := by
  have hcases := advance_cases h
  cases hcases with
  | stays type self hchannel state kept =>
      rw [Within, type]
      exact hwithin
  | flushes type link state waits kept =>
      rw [Within, type]
      exact hwithin
  | @file file routine' written hcontinue type continued hroutine outcome =>
      have hnext := fileRoutineContinue_within hwithin type continued
      rw [hroutine]
      exact hnext
  | @dir dir written hcontinue type continued =>
      rw [directoryRoutineContinue] at continued
      obtain ⟨⟨s, n⟩, -, hok⟩ := bind_eq_ok_iff.mp continued
      obtain ⟨hroutine, -⟩ := Prod.mk.inj (Except.ok.inj hok)
      intro file htype
      rw [← hroutine] at htype
      simp at htype

theorem fileHead_coherent (world : World) {link : Link} (h : link.self.Coherent)
    (header webPath : Bytes) (st : FileStat) :
    (fileHead world link header webPath st).1.self.Coherent := by
  have htext : ∀ {l : Link} (data : Bytes), l.self.Coherent →
      (sendBufferWriteText l data).1.self.Coherent :=
    fun data hl => (sendBufferWriteData_reports hl (cString data)).1
  have hprintf : ∀ {l : Link} (message : Message), l.self.Coherent →
      (sendBufferPrintf l message).self.Coherent :=
    fun message hl => sendBufferPrintf_coherent hl message
  rw [fileHead]
  split
  · exact htext _ (hprintf _ (htext _ (hprintf _ (hprintf _ (hprintf _ (hprintf _ h))))))
  · exact htext _ (hprintf _ (hprintf _ (htext _ (hprintf _ (hprintf _ (hprintf _
      (hprintf _ h)))))))

theorem fileHead_served (world : World) (link : Link) (header webPath : Bytes) (st : FileStat) :
    (fileHead world link header webPath st).2
      = served (httpHeaderReadRange header 0 0 st.size) st.size := by
  rw [fileHead]
  generalize httpHeaderReadRange header 0 0 st.size = range
  cases range with
  | none => rfl
  | some bounds => rfl

theorem handleFile_added {world : World} {clientSocket : Nat} {channel : Channel}
    {header webPath absolutePath : Bytes} {type : HttpType} {st : FileStat} {routine : Routine}
    (h : (handleFile world clientSocket channel header webPath absolutePath type st).added
      = some routine) :
    ∃ content self, self.clientSocket = clientSocket ∧ self.Coherent ∧
      routine = fileRoutineNew self ⟨content, 0⟩
        (served (httpHeaderReadRange header 0 0 st.size) st.size).1
        (served (httpHeaderReadRange header 0 0 st.size) st.size).2 webPath := by
  rw [handleFile] at h
  split at h
  · simp at h
  · rename_i content hopen
    simp only at h
    split at h
    · simp at h
    · obtain rfl := Option.some.inj h
      rw [← fileHead_served world ⟨sendBufferNew clientSocket 0, channel⟩ header webPath st]
      exact ⟨content, _, fileHead_clientSocket _ _ _ _ _,
        @fileHead_coherent _ ⟨sendBufferNew clientSocket 0, channel⟩ rfl _ _ _, rfl⟩

theorem reaches_continue {routine : Routine} (hflush : routine.state = .stateFlush)
    (hcoherent : routine.socketBuffer.Coherent) :
    ∃ first last current, sockets first.routines = [routine.socketBuffer.clientSocket] ∧
      routine ∈ first.routines ∧ Ticking first last ∧ current ∈ last.routines ∧
      current.socketBuffer.clientSocket = routine.socketBuffer.clientSocket ∧
      current.state = .stateContinue ∧ current.type = routine.type := by
  have hleaves : ∀ (current : Routine) (net : Network), current.state = .stateFlush →
      current.socketBuffer.buffer = none → ∃ net',
        tickAnswering ⟨[current], [], net⟩ []
          = .ok ⟨[{ current with state := .stateContinue }], [], net'⟩ := by
    intro current net hstate hnone
    refine ⟨Function.update net current.socketBuffer.clientSocket
      (net current.socketBuffer.clientSocket), ?_⟩
    simp only [tickAnswering, routineTick, tickFrom, advance, hstate, hnone, ok_bind]
    rfl
  cases hbuffer : routine.socketBuffer.buffer with
  | none =>
      obtain ⟨net', htick⟩ := hleaves routine (fun _ => ⟨[], []⟩) hflush hbuffer
      exact ⟨⟨[routine], [], fun _ => ⟨[], []⟩⟩, _, _, rfl, List.mem_singleton_self _,
        .tail (.refl _) trivial htick, List.mem_singleton_self _, rfl, rfl, rfl⟩
  | some stream =>
      have hsome : routine.socketBuffer.buffer.isSome = true := by rw [hbuffer]; rfl
      obtain ⟨hempty, hsent⟩ := @sendBufferFlush_drains ⟨routine.socketBuffer, ⟨[], []⟩⟩ hcoherent rfl
      have hsent := hsent hsome
      obtain ⟨link, hlink⟩ :
          ∃ link, (sendBufferFlush ⟨routine.socketBuffer, ⟨[], []⟩⟩).1 = link := ⟨_, rfl⟩
      rw [hlink] at hempty
      have hflushed : tickAnswering ⟨[routine], [], fun _ => ⟨[], []⟩⟩ []
          = .ok ⟨[{ routine with socketBuffer := link.self }], [],
            Function.update (fun _ => ⟨[], []⟩) routine.socketBuffer.clientSocket link.channel⟩ := by
        simp only [tickAnswering, routineTick, tickFrom, advance, hflush, hsome, hlink, hsent,
          ok_bind, false_and, if_true, if_false]
      obtain ⟨net', htick⟩ := hleaves { routine with socketBuffer := link.self }
        (Function.update (fun _ => ⟨[], []⟩) routine.socketBuffer.clientSocket link.channel)
        hflush hempty
      refine ⟨⟨[routine], [], fun _ => ⟨[], []⟩⟩, _, _, rfl, List.mem_singleton_self _,
        .tail (.tail (.refl _) trivial hflushed) trivial htick, List.mem_singleton_self _, ?_,
        rfl, rfl⟩
      rw [← hlink]
      exact sendBufferFlush_clientSocket _

/-- However its file routine is driven, no block it asks for is larger than its buffer
exactly when the range does not end before the position it starts from. -/
theorem handleFile_reads_within_iff {world : World} {clientSocket : Nat} {channel : Channel}
    {header webPath absolutePath : Bytes} {type : HttpType} {st : FileStat} {routine : Routine}
    (hsize : st.size < 2 ^ 63)
    (hadded : (handleFile world clientSocket channel header webPath absolutePath type st).added
      = some routine) :
    (∀ first last, (sockets first.routines).Nodup → routine ∈ first.routines →
        Ticking first last → ∀ current ∈ last.routines,
          current.socketBuffer.clientSocket = clientSocket → current.state = .stateContinue →
          ∀ file, current.type = .file file → ∃ n, bytesWanted file = some n ∧ n ≤ sbDataSize) ↔
      max (served (httpHeaderReadRange header 0 0 st.size) st.size).1 0
        ≤ (served (httpHeaderReadRange header 0 0 st.size) st.size).2 := by
  obtain ⟨content, self, howner, hcoherent, rfl⟩ := handleFile_added hadded
  obtain ⟨start, stop, hserved⟩ :
      ∃ start stop, served (httpHeaderReadRange header 0 0 st.size) st.size = (start, stop) :=
    ⟨_, _, rfl⟩
  have hstop : stop < 2 ^ 63 := by
    simp only [served] at hserved
    split at hserved
    · obtain ⟨-, rfl⟩ := Prod.mk.inj hserved
      exact hsize
    · obtain ⟨-, rfl⟩ := Prod.mk.inj hserved
      rw [rangeEnd]
      split <;> omega
  rw [hserved]
  simp only
  have hpos : ((File.seekSet ⟨content, 0⟩ start).pos : Int) = max start 0 := by
    rw [File.seekSet]
    split
    · simp only
      omega
    · simp only
      omega
  constructor
  · intro hreads
    obtain ⟨first, last, current, hsockets, hmem, hrun, hcurrent, hsocket, hstate, htype⟩ :=
      @reaches_continue (fileRoutineNew self ⟨content, 0⟩ start stop webPath) rfl hcoherent
    obtain ⟨n, hn, hle⟩ := hreads first last (hsockets ▸ List.nodup_singleton _) hmem hrun current
      hcurrent (hsocket.trans howner) hstate _ htype
    have hsmall : sbDataSize = 8192 := rfl
    simp only [bytesWanted, hpos] at hn
    split at hn
    · simp at hn
    · have hcount := Option.some.inj hn
      split at hcount <;> omega
  · intro hrange first last hnodup hmem hrun current hcurrent hsocket _ file htype
    have hfirst : Within (fileRoutineNew self ⟨content, 0⟩ start stop webPath) := by
      intro file' htype'
      obtain rfl := RoutineType.file.inj htype'
      exact ⟨by rw [hpos]; exact hrange, hstop⟩
    have hround : ∀ deferred routine channel t, Within routine →
        advance deferred routine channel = .ok t →
          (t.kept = true → Within t.routine) ∧ (t.kept = false → True) :=
      fun _ _ _ _ hwithin hadvance => ⟨fun _ => advance_within hwithin hadvance, fun _ => trivial⟩
    rcases ticks_routine (fun routine _ => Within routine) (fun _ => True) hround hrun hnodup hmem
        howner hfirst with ⟨other, -, -, hwithin, honly⟩ | ⟨hgone, -⟩
    · obtain rfl := honly current hcurrent hsocket
      exact bytesWanted_of_within hwithin htype
    · have hin : clientSocket ∈ sockets last.routines := hsocket ▸ List.mem_map_of_mem hcurrent
      exact absurd hin hgone

theorem handleFile_reads_within_middle :
    ∃ routine, (handleFile tenDigits 3 ⟨[], []⟩ (text "GET /a HTTP/1.1\nRange: bytes=2-5\r")
        (text "/a") (text "/srv/a") .httpGet ⟨10, 0, .file⟩).added = some routine ∧
      ∀ first last, (sockets first.routines).Nodup → routine ∈ first.routines →
        Ticking first last → ∀ current ∈ last.routines,
          current.socketBuffer.clientSocket = 3 → current.state = .stateContinue →
          ∀ file, current.type = .file file → ∃ n, bytesWanted file = some n ∧ n ≤ sbDataSize := by
  have hsome : (handleFile tenDigits 3 ⟨[], []⟩ (text "GET /a HTTP/1.1\nRange: bytes=2-5\r")
      (text "/a") (text "/srv/a") .httpGet ⟨10, 0, .file⟩).added.isSome := by
    decide +kernel
  obtain ⟨routine, hroutine⟩ := Option.isSome_iff_exists.mp hsome
  exact ⟨routine, hroutine, (handleFile_reads_within_iff (by decide) hroutine).mpr (by decide)⟩

/-- The next read of a routine asks for more than its block holds. -/
def overruns : RoutineType → Bool
  | .file file => (bytesWanted file).any (sbDataSize < ·)
  | _ => false

/-- The range of bytes 5 to 2 reads with a negative remainder. -/
theorem handleFile_overruns_block :
    ∃ routine ∈ (handleFile tenDigits 3 ⟨[], []⟩ (text "GET /a HTTP/1.1\nRange: bytes=5-2\r")
        (text "/a") (text "/srv/a") .httpGet ⟨10, 0, .file⟩).added,
      ∃ last, Ticking ⟨[routine], [], fun _ => ⟨[], []⟩⟩ last ∧
        ∃ current ∈ last.routines, current.state = .stateContinue ∧
          ∃ file, current.type = .file file ∧
            ∃ n, bytesWanted file = some n ∧ sbDataSize < n := by
  have hover : (handleFile tenDigits 3 ⟨[], []⟩ (text "GET /a HTTP/1.1\nRange: bytes=5-2\r")
      (text "/a") (text "/srv/a") .httpGet ⟨10, 0, .file⟩).added.any fun routine =>
        (follow tickAnswering (fun _ _ => True) ⟨[routine], [], fun _ => ⟨[], []⟩⟩ [[]]).any
          fun last => last.routines.any fun current =>
            current.state = .stateContinue && overruns current.type := by
    decide +kernel
  obtain ⟨routine, hroutine, hover⟩ := (Option.any_eq_true _ _).mp hover
  obtain ⟨last, hlast, hover⟩ := (Option.any_eq_true _ _).mp hover
  obtain ⟨current, hcurrent, hover⟩ := List.any_eq_true.mp hover
  obtain ⟨hstate, hover⟩ := (Bool.and_eq_true _ _).mp hover
  refine ⟨routine, hroutine, last, run_of_follow hlast, current, hcurrent,
    of_decide_eq_true hstate, ?_⟩
  cases htype : current.type with
  | file file =>
      rw [htype] at hover
      obtain ⟨n, hn, hlarge⟩ := (Option.any_eq_true _ _).mp hover
      exact ⟨file, rfl, n, hn, of_decide_eq_true hlarge⟩
  | plain =>
      rw [htype] at hover
      exact absurd hover Bool.false_ne_true
  | dir dir =>
      rw [htype] at hover
      exact absurd hover Bool.false_ne_true

end BlockSize

end Newth.Server.FileTransfer
