import Newth.Server.Handlers
import Newth.Server.Ticks

namespace Newth.Server.BackPressure

open Newth.Library.ByteString
open Newth.Library.Call
open Newth.Library.Numeral
open Newth.Library.Runs
open Newth.Server.Handlers
open Newth.Server.HttpBody
open Newth.Server.HttpHeader
open Newth.Server.Routines
open Newth.Server.Sendbufr
open Newth.Server.Ticks

section Wrote

/-- Something has been written, and no fatal error has been met. -/
def Wrote (link link' : Link) : Prop := ∃ bytes, Writes bytes link link'

theorem Wrote.trans {link link' link'' : Link} (h : Wrote link link') (h' : Wrote link' link'') :
    Wrote link link'' := by
  obtain ⟨a, ha⟩ := h
  obtain ⟨b, hb⟩ := h'
  exact ⟨a ++ b, ha.trans hb⟩

theorem Wrote.sound {link link' : Link} (h : Wrote link link') : link'.Sound := by
  obtain ⟨bytes, hwrites⟩ := h
  exact hwrites.sound

theorem Wrote.options {link link' : Link} (h : Wrote link link') :
    link'.self.options = link.self.options := by
  obtain ⟨bytes, hwrites⟩ := h
  exact hwrites.options

theorem calls_wrote {link : Link} (h : link.Sound) (calls : List Call) :
    Wrote link (calls.foldl Call.perform link) :=
  ⟨_, calls_writes h calls⟩

theorem printf_wrote {link : Link} (h : link.Sound) (message : Message) :
    Wrote link (sendBufferPrintf link message) := by
  rw [sendBufferPrintf]
  cases hbuffer : link.self.buffer with
  | none => exact calls_wrote h [.writeText message.text]
  | some stream => exact ⟨message.text, append_writes h hbuffer message.text⟩

theorem text_wrote {link : Link} (h : link.Sound) (data : Bytes) :
    Wrote link (sendBufferWriteText link data).1 :=
  calls_wrote h [.writeText data]

theorem contentType_wrote {link : Link} (h : link.Sound) (type charSet : Bytes) :
    Wrote link (httpHeaderWriteContentType link type charSet) := by
  rw [httpHeaderWriteContentType]
  split
  · exact printf_wrote h _
  · exact calls_wrote h []

theorem dirHead_wrote (world : World) {link : Link} (h : link.Sound) (st : FileStat) :
    Wrote link (dirHead world link st) := by
  have hstatus : Wrote link (httpHeaderWriteResponse link 200) := printf_wrote h _
  have hdate := hstatus.trans (printf_wrote hstatus.sound ⟨40, dateLine world.clock⟩)
  have hmodified := hdate.trans (printf_wrote hdate.sound ⟨50, lastModifiedLine world.clock st⟩)
  have htype := hmodified.trans (contentType_wrote hmodified.sound (text "text/html") [])
  have hchunked := htype.trans (text_wrote htype.sound chunkedLine)
  exact hchunked.trans (text_wrote hchunked.sound httpEol)

theorem fileHead_wrote (world : World) {link : Link} (h : link.Sound) (header webPath : Bytes)
    (st : FileStat) : Wrote link (fileHead world link header webPath st).1 := by
  have hstatus : Wrote link (httpHeaderWriteResponse link
      (if (httpHeaderReadRange header 0 0 st.size).isNone then 200 else 206)) :=
    printf_wrote h _
  have hdate := hstatus.trans (printf_wrote hstatus.sound ⟨40, dateLine world.clock⟩)
  have hname := hdate.trans (printf_wrote hdate.sound
    ⟨(fileName webPath).length + 40, fileNameLine webPath⟩)
  have hmodified := hname.trans (printf_wrote hname.sound ⟨50, lastModifiedLine world.clock st⟩)
  have haccept := hmodified.trans (text_wrote hmodified.sound acceptRangesLine)
  rw [fileHead]
  split
  · have hlength := haccept.trans (printf_wrote haccept.sound ⟨80, contentLengthLine st.size⟩)
    exact hlength.trans (text_wrote hlength.sound httpEol)
  · rename_i start finish hrange
    have hlength := haccept.trans (printf_wrote haccept.sound
      ⟨80, contentLengthLine (rangeEnd finish st.size - start)⟩)
    have hcontent : Wrote link (httpHeaderWriteRange _ start (rangeEnd finish st.size) st.size) :=
      hlength.trans (printf_wrote hlength.sound _)
    exact hcontent.trans (text_wrote hcontent.sound httpEol)

theorem httpBodyWriteChunk_wrote {link : Link} (h : link.Sound) (buffer : Bytes) :
    Wrote link (httpBodyWriteChunk link buffer).1 :=
  calls_wrote h [.writeText (numeral 16 (cString buffer).length ++ httpEol),
    .writeData (cString buffer), .writeText httpEol]

theorem listEnd_wrote {link : Link} (h : link.Sound) (count : Nat) :
    Wrote link (listEnd link count) := by
  have hchunk := httpBodyWriteChunk_wrote h (listingEnd count)
  rw [listEnd]
  simp only
  split
  · rw [httpBodyWriteChunkEnding]
    simp only
    split
    · exact hchunk.trans (calls_wrote hchunk.sound [.writeText (text "0" ++ httpEol ++ httpEol),
        .flush])
    · exact hchunk.trans (calls_wrote hchunk.sound [.writeText (text "0" ++ httpEol ++ httpEol),
        .flush, .flush])
  · exact hchunk.trans (calls_wrote hchunk.sound [.flush])

theorem listEntry_wrote {webPath : Bytes} {entry : Entry} {s s' : Listing} (h : s.link.Sound)
    (hentry : listEntry webPath entry s = .ok s') : Wrote s.link s'.link := by
  rw [listEntry] at hentry
  obtain ⟨⟨directory, st⟩, -, hentry⟩ := bind_eq_ok_iff.mp hentry
  simp only at hentry
  split at hentry
  · obtain ⟨⟨directory', isDirectory⟩, -, hentry⟩ := bind_eq_ok_iff.mp hentry
    obtain ⟨buffer, -, hentry⟩ := bind_eq_ok_iff.mp hentry
    obtain rfl := Except.ok.inj hentry
    exact httpBodyWriteChunk_wrote h buffer
  · obtain rfl := Except.ok.inj hentry
    exact calls_wrote h []

theorem listEntries_wrote {webPath : Bytes} {entries : List Entry} {left : Nat} {s : Listing}
    {result : Listing × Nat} (h : s.link.Sound)
    (hentries : listEntries webPath entries left s = .ok result) :
    Wrote s.link result.1.link := by
  have hturns := listEntries_turns hentries
  clear hentries
  induction hturns with
  | full => exact calls_wrote h [.flush]
  | ended => exact listEnd_wrote h _
  | hidden live hidden later ih => exact ih h
  | @listed entry rest left s s' result live shown listed later ih =>
      have hentry : Wrote s.link s'.link := @listEntry_wrote _ _ (s.ahead rest) s' h listed
      exact hentry.trans (ih hentry.sound)

theorem directoryRoutineContinue_wrote {self self' : Routine} {routine : DirectoryRoutine}
    {channel channel' : Channel} {n : Nat} (h : Link.Sound ⟨self.socketBuffer, channel⟩)
    (hcontinue : directoryRoutineContinue self routine channel = .ok (self', channel', n)) :
    Wrote ⟨self.socketBuffer, channel⟩ ⟨self'.socketBuffer, channel'⟩ ∧
      self'.state = self.state := by
  rw [directoryRoutineContinue] at hcontinue
  obtain ⟨⟨s, m⟩, hs, hok⟩ := bind_eq_ok_iff.mp hcontinue
  obtain ⟨rfl, hrest⟩ := Prod.mk.inj (Except.ok.inj hok)
  obtain ⟨rfl, -⟩ := Prod.mk.inj hrest
  have hentries : Wrote ⟨self.socketBuffer, channel⟩ s.link := listEntries_wrote h hs
  exact ⟨hentries, rfl⟩

theorem fileRoutineContinue_wrote {self self' : Routine} {routine : FileRoutine}
    {channel channel' : Channel} {n : Nat} (h : Link.Sound ⟨self.socketBuffer, channel⟩)
    (hcontinue : fileRoutineContinue self routine channel = .ok (self', channel', n)) :
    Wrote ⟨self.socketBuffer, channel⟩ ⟨self'.socketBuffer, channel'⟩ ∧
      (self'.state = self.state ∨ self'.state = .stateFlush) := by
  rw [fileRoutineContinue] at hcontinue
  simp only at hcontinue
  generalize routine.file.read _ = block at hcontinue
  split at hcontinue
  · simp at hcontinue
  · split at hcontinue
    · obtain ⟨rfl, hok⟩ := Prod.mk.inj (Except.ok.inj hcontinue)
      obtain ⟨rfl, -⟩ := Prod.mk.inj hok
      exact ⟨calls_wrote h [], .inr rfl⟩
    · obtain ⟨rfl, hok⟩ := Prod.mk.inj (Except.ok.inj hcontinue)
      obtain ⟨rfl, -⟩ := Prod.mk.inj hok
      exact ⟨calls_wrote h [.writeData block.2], .inl rfl⟩

end Wrote

section Visits

/-- One routine met by `RoutineTick`, with the deferred set and the socket as they are
at that moment. -/
structure Visit where
  deferred : List Nat
  routine : Routine
  channel : Channel

def Visit.advance (visit : Visit) : Except Stop Ticked :=
  Routines.advance visit.deferred visit.routine visit.channel

/-- The routines a tick meets, in its order. -/
def visits : List Routine → List Nat → Network → List Visit
  | [], _, _ => []
  | routine :: rest, deferred, net =>
      let socket := routine.socketBuffer.clientSocket
      let visit : Visit := ⟨deferred, routine, net socket⟩
      match visit.advance with
      | .error _ => [visit]
      | .ok ticked =>
          let net := Function.update net socket ticked.channel
          if ticked.kept then visit :: visits rest ticked.deferred net
          else
            match rest with
            | [] => [visit]
            | _ :: rest => visit :: visits rest ticked.deferred net

/-- A routine that resumes once its socket has left the deferred set finds that the
socket takes something. -/
def Visit.Willing (visit : Visit) : Prop :=
  visit.routine.state = .stateDefer →
    visit.routine.socketBuffer.clientSocket ∉ visit.deferred →
      ∀ answer ∈ visit.channel.sends.head?, answer.sent ≠ 0

instance (visit : Visit) : Decidable visit.Willing :=
  inferInstanceAs (Decidable (visit.routine.state = .stateDefer →
    visit.routine.socketBuffer.clientSocket ∉ visit.deferred →
      ∀ answer ∈ visit.channel.sends.head?, answer.sent ≠ 0))

def Willing (server : Serving) (deferred : List Nat) : Prop :=
  ∀ visit ∈ visits server.routines deferred server.net, visit.Willing

instance (server : Serving) (deferred : List Nat) : Decidable (Willing server deferred) :=
  inferInstanceAs
    (Decidable (∀ visit ∈ visits server.routines deferred server.net, visit.Willing))

/-- No socket has a fatal error to come. -/
def Lasting (net : Network) : Prop := ∀ s, SendResult.fails ∉ (net s).sends

/-- A routine without an error; it is deferred only with something to send. -/
structure Healthy (routine : Routine) : Prop where
  coherent : routine.socketBuffer.Coherent
  options : routine.socketBuffer.options = 0
  state : routine.state ≠ .stateFail
  waiting : routine.state = .stateDefer → routine.socketBuffer.buffer.isSome = true

theorem healthy_of_wrote {routine routine' : Routine} {channel channel' : Channel}
    (h : Healthy routine)
    (hwrote : Wrote ⟨routine.socketBuffer, channel⟩ ⟨routine'.socketBuffer, channel'⟩)
    (hstate : routine'.state ≠ .stateFail)
    (hwaiting : routine'.state = .stateDefer → routine'.socketBuffer.buffer.isSome = true) :
    Healthy routine' :=
  ⟨hwrote.sound.coherent, hwrote.options.trans h.options, hstate, hwaiting⟩

theorem Healthy.no_error {routine : Routine} (h : Healthy routine) (error : UInt8) :
    routine.socketBuffer.has error = false := by
  simp [SendBuffer.has, h.options]

theorem healthy_of_new {link link' : Link} (h : Wrote link link') (hnew : link.self.options = 0)
    (webPath : Bytes) (type : RoutineType) : Healthy ⟨.stateFlush, link'.self, webPath, type⟩ :=
  ⟨h.sound.coherent, h.options.trans hnew, by simp, by simp⟩

theorem handleDir_healthy {world : World} {clientSocket : Nat} {channel : Channel}
    {webPath absolutePath : Bytes} {type : HttpType} {st : FileStat} {handled : Handled}
    (hlasting : SendResult.fails ∉ channel.sends)
    (h : handleDir world clientSocket channel webPath absolutePath type st = .ok handled) :
    ∀ routine ∈ handled.added, Healthy routine := by
  intro routine hadded
  obtain ⟨entries, crumbs, head, -, -, hhead, -, hlink, rfl⟩ := handleDir_added h hadded
  have hnew : Link.Sound ⟨sendBufferNew clientSocket 0, channel⟩ := ⟨rfl, hlasting⟩
  have hwritten := dirHead_wrote world hnew st
  have hstart : Wrote ⟨sendBufferNew clientSocket 0, channel⟩ head := by
    rcases hhead with rfl | rfl
    · exact hwritten
    · exact hwritten.trans (calls_wrote hwritten.sound [.flush])
  have htop := hstart.trans (httpBodyWriteChunk_wrote hstart.sound
    (htmlHeaderWrite [] (if webPath = [] then text "/" else webPath)))
  have hflushed := htop.trans (calls_wrote htop.sound [.flush])
  have hlist := hflushed.trans (httpBodyWriteChunk_wrote hflushed.sound (htmlListStart crumbs))
  have hend := hlist.trans (calls_wrote hlist.sound [.flush])
  rw [directoryRoutineNew, hlink]
  exact healthy_of_new hend rfl webPath _

theorem handleFile_healthy {world : World} {clientSocket : Nat} {channel : Channel}
    {header webPath absolutePath : Bytes} {type : HttpType} {st : FileStat}
    (hlasting : SendResult.fails ∉ channel.sends) :
    ∀ routine ∈ (handleFile world clientSocket channel header webPath absolutePath type st).added,
      Healthy routine := by
  intro routine hadded
  have hnew : Link.Sound ⟨sendBufferNew clientSocket 0, channel⟩ := ⟨rfl, hlasting⟩
  rw [handleFile] at hadded
  split at hadded
  · simp at hadded
  · simp only at hadded
    split at hadded
    · simp at hadded
    · obtain rfl := Option.some.inj hadded
      exact healthy_of_new (fileHead_wrote world hnew header webPath st) rfl webPath _

theorem handlePath_healthy {world : World} {clientSocket : Nat} {channel : Channel}
    {header webPath : Bytes} {handled : Handled} (hlasting : SendResult.fails ∉ channel.sends)
    (h : handlePath world clientSocket channel header webPath = .ok handled) :
    ∀ routine ∈ handled.added, Healthy routine := by
  have hnew : Link.Sound ⟨sendBufferNew clientSocket 0, channel⟩ := ⟨rfl, hlasting⟩
  rw [handlePath] at h
  obtain ⟨path, -, h⟩ := bind_eq_ok_iff.mp h
  split at h
  · obtain rfl := Except.ok.inj h
    simp [httpHeaderHandleError_added]
  · split at h
    · obtain rfl := Except.ok.inj h
      simp [httpHeaderHandleError_added]
    · simp only at h
      split at h
      · obtain rfl := Except.ok.inj h
        intro routine hadded
        obtain rfl := Option.some.inj hadded
        have hstatus : Wrote _ (httpHeaderWriteResponse
            ⟨sendBufferNew clientSocket 0, channel⟩ 304) := printf_wrote hnew _
        have hdate := hstatus.trans (printf_wrote hstatus.sound ⟨40, dateLine world.clock⟩)
        have hend := hdate.trans (calls_wrote hdate.sound [.writeText httpEol])
        exact healthy_of_new hend rfl webPath .plain
      · split at h
        · exact handleDir_healthy hlasting h
        · obtain rfl := Except.ok.inj h
          exact handleFile_healthy hlasting
        · obtain rfl := Except.ok.inj h
          simp

/-- In the deferred state a flush that sends nothing counts as a failure. -/
theorem advance_deferred {visit : Visit} (h : Healthy visit.routine)
    (hlasting : SendResult.fails ∉ visit.channel.sends)
    (hdefer : visit.routine.state = .stateDefer)
    (hready : visit.routine.socketBuffer.clientSocket ∉ visit.deferred) :
    ∃ t, visit.advance = .ok t ∧
      (⟨t.routine.socketBuffer, t.channel⟩ : Link)
        = (sendBufferFlush ⟨visit.routine.socketBuffer, visit.channel⟩).1 ∧
      t.routine.state =
        if (sendBufferFlush ⟨visit.routine.socketBuffer, visit.channel⟩).2 = 0 then .stateFail
        else .stateFlush := by
  have hflushed := @sendBufferFlush_flushed ⟨visit.routine.socketBuffer, visit.channel⟩
    ⟨h.coherent, hlasting⟩
  obtain ⟨⟨link, sent⟩, hlink⟩ :
      ∃ r, sendBufferFlush ⟨visit.routine.socketBuffer, visit.channel⟩ = r := ⟨_, rfl⟩
  rw [hlink] at hflushed
  have hfine : ∀ error, link.self.has error = false := by
    intro error
    have hoptions : link.self.options = 0 := hflushed.writes.options.trans h.options
    simp [SendBuffer.has, hoptions]
  simp only [Visit.advance, Routines.advance, hdefer, hready, hlink, hfine, h.no_error,
    if_false, Bool.false_eq_true, or_false]
  split
  · exact ⟨_, rfl, rfl, rfl⟩
  · exact ⟨_, rfl, rfl, rfl⟩

theorem visit_outcome {visit : Visit} (h : Healthy visit.routine)
    (hlasting : SendResult.fails ∉ visit.channel.sends) {t : Ticked}
    (hadvance : visit.advance = .ok t) :
    SendResult.fails ∉ t.channel.sends ∧ (visit.Willing → Healthy t.routine) ∧
      (¬ visit.Willing → t.routine.state = .stateFail) := by
  have hsound : Link.Sound ⟨visit.routine.socketBuffer, visit.channel⟩ :=
    ⟨h.coherent, hlasting⟩
  by_cases hdefer : visit.routine.state = .stateDefer
  · by_cases hready : visit.routine.socketBuffer.clientSocket ∈ visit.deferred
    · have hsame : visit.advance
          = .ok ⟨visit.routine, visit.channel, visit.deferred, true⟩ := by
        simp only [Visit.advance, Routines.advance, hdefer, hready, if_true]
      obtain rfl := Except.ok.inj (hadvance.symm.trans hsame)
      refine ⟨hlasting, fun _ => h, fun hunwilling => ?_⟩
      exact absurd (fun _ hnot => absurd hready hnot) hunwilling
    · obtain ⟨t', hadvance', hlink, hstate⟩ := advance_deferred h hlasting hdefer hready
      obtain rfl := Except.ok.inj (hadvance.symm.trans hadvance')
      have hflush := (sendBufferFlush_flushed hsound).writes
      have hzero := sendBufferFlush_eq_zero_iff hsound (h.waiting hdefer)
      rw [← hlink] at hflush
      refine ⟨hflush.sound.lasting, ?_, ?_⟩
      · intro hwilling
        have hsome : (sendBufferFlush ⟨visit.routine.socketBuffer, visit.channel⟩).2 ≠ 0 := by
          intro hnone
          obtain ⟨answer, hanswer, hsent⟩ := hzero.mp hnone
          exact hwilling hdefer hready answer hanswer hsent
        rw [if_neg hsome] at hstate
        exact healthy_of_wrote h ⟨[], hflush⟩ (by simp [hstate]) (by simp [hstate])
      · intro hunwilling
        rw [hstate, if_pos]
        by_contra hsome
        apply hunwilling
        intro _ _ answer hanswer hsent
        exact hsome (hzero.mpr ⟨answer, hanswer, hsent⟩)
  · have hwilling : visit.Willing := fun hdefer' => absurd hdefer' hdefer
    suffices hhealthy : SendResult.fails ∉ t.channel.sends ∧ Healthy t.routine from
      ⟨hhealthy.1, fun _ => hhealthy.2, fun hunwilling => absurd hwilling hunwilling⟩
    have hcases := advance_cases hadvance
    cases hcases with
    | stays type self hchannel state kept =>
        have hstate : t.routine.state ≠ .stateFail ∧ t.routine.state ≠ .stateDefer := by
          rcases state with hsame | hcontinue | ⟨hfinish, -⟩ | ⟨-, hfail⟩
          · rw [hsame]
            exact ⟨h.state, hdefer⟩
          · simp [hcontinue]
          · simp [hfinish]
          · simp [h.no_error] at hfail
        refine ⟨hchannel ▸ hlasting, ⟨self ▸ h.coherent, by rw [self, h.options], hstate.1, ?_⟩⟩
        intro hdeferred
        exact absurd hdeferred hstate.2
    | flushes type link state waits kept =>
        have hflush := (sendBufferFlush_flushed hsound).writes
        rw [← link] at hflush
        have hfine : ∀ error, t.routine.socketBuffer.has error = false := by
          intro error
          have hoptions : t.routine.socketBuffer.options = 0 := hflush.options.trans h.options
          simp [SendBuffer.has, hoptions]
        have hstate : t.routine.state ≠ .stateFail ∧ t.routine.state ≠ .stateDefer := by
          rcases state with hsame | hflush' | ⟨-, hfail | ⟨hdefer', -⟩⟩
          · rw [hsame]
            exact ⟨h.state, hdefer⟩
          · simp [hflush']
          · rw [← link] at hfail
            simp [hfine] at hfail
          · exact absurd hdefer' hdefer
        exact ⟨hflush.sound.lasting, healthy_of_wrote h ⟨[], hflush⟩ hstate.1
          fun hdeferred => absurd hdeferred hstate.2⟩
    | @file file routine' written hcontinue type continued hroutine outcome =>
        obtain ⟨hwrote, hstate⟩ := fileRoutineContinue_wrote hsound continued
        have hself : t.routine.socketBuffer = routine'.socketBuffer := by rw [hroutine]
        have hfine : routine'.socketBuffer.has errFail = false := by
          have hoptions : routine'.socketBuffer.options = 0 := hwrote.options.trans h.options
          simp [SendBuffer.has, hoptions]
        rw [← hself] at hwrote
        refine ⟨hwrote.sound.lasting, healthy_of_wrote h hwrote ?_ ?_⟩
        · rcases outcome with ⟨-, hsame | ⟨hdeferred, -⟩ | ⟨hfinish, -⟩⟩ | ⟨-, -, hfail⟩
          · rw [hsame]
            rcases hstate with hstate | hstate <;> simp [hstate, hcontinue]
          · simp [hdeferred]
          · simp [hfinish]
          · simp [hfine] at hfail
        · intro hdeferred
          rcases outcome with ⟨-, hsame | ⟨-, hsome⟩ | ⟨hfinish, -⟩⟩ | ⟨-, -, hfail⟩
          · rw [hsame] at hdeferred
            rcases hstate with hstate | hstate <;> simp [hstate, hcontinue] at hdeferred
          · rw [hself]
            exact hsome
          · simp [hfinish] at hdeferred
          · simp [hfine] at hfail
    | @dir dir written hcontinue type continued =>
        obtain ⟨hwrote, hstate⟩ := directoryRoutineContinue_wrote hsound continued
        exact ⟨hwrote.sound.lasting, healthy_of_wrote h hwrote (by simp [hstate, hcontinue])
          (by simp [hstate, hcontinue])⟩

theorem lasting_update {net : Network} (h : Lasting net) (s : Nat) {channel : Channel}
    (hchannel : SendResult.fails ∉ channel.sends) : Lasting (Function.update net s channel) := by
  intro u
  rcases eq_or_ne u s with rfl | hne
  · rwa [Function.update_self]
  · rw [Function.update_of_ne hne]
    exact h u

theorem tickFrom_visits {routines : List Routine} {deferred : List Nat} {net : Network}
    (hhealthy : ∀ routine ∈ routines, Healthy routine) (hlasting : Lasting net) :
    (∀ visit ∈ visits routines deferred net,
        Healthy visit.routine ∧ SendResult.fails ∉ visit.channel.sends) ∧
      ∀ result, tickFrom routines deferred net = .ok result → Lasting result.2.2 ∧
        ((∀ visit ∈ visits routines deferred net, visit.Willing) →
          ∀ routine ∈ result.1, Healthy routine) := by
  induction hlen : routines.length using Nat.strong_induction_on
    generalizing routines deferred net with
  | _ n ih =>
      cases routines with
      | nil =>
          refine ⟨by simp [visits], ?_⟩
          intro result hresult
          obtain rfl := Except.ok.inj hresult
          exact ⟨hlasting, by simp⟩
      | cons routine rest =>
          obtain ⟨hfirst, hrest⟩ := List.forall_mem_cons.mp hhealthy
          simp only [List.length_cons] at hlen
          obtain ⟨visit, hvisit⟩ : ∃ visit : Visit,
              visit = ⟨deferred, routine, net routine.socketBuffer.clientSocket⟩ := ⟨_, rfl⟩
          have hkind : Healthy visit.routine ∧ SendResult.fails ∉ visit.channel.sends := by
            rw [hvisit]
            exact ⟨hfirst, hlasting _⟩
          have hadvance : advance deferred routine (net routine.socketBuffer.clientSocket)
              = visit.advance := by rw [hvisit]; rfl
          rw [visits, tickFrom]
          simp only [← hvisit, hadvance]
          cases hticked : visit.advance with
          | error stop =>
              refine ⟨by simpa using hkind, ?_⟩
              intro result hresult
              simp [error_bind] at hresult
          | ok t =>
              obtain ⟨hsends, hwilling, -⟩ := visit_outcome hkind.1 hkind.2 hticked
              have hnet := lasting_update hlasting routine.socketBuffer.clientSocket hsends
              simp only [ok_bind]
              cases hkept : t.kept with
              | true =>
                  obtain ⟨hvisits, htail⟩ := ih rest.length (by omega) hrest hnet rfl
                  simp only [if_true]
                  refine ⟨List.forall_mem_cons.mpr ⟨hkind, hvisits⟩, ?_⟩
                  intro result hresult
                  obtain ⟨tail, hok, hresult⟩ := bind_eq_ok_iff.mp hresult
                  obtain rfl := Except.ok.inj hresult
                  obtain ⟨hlast, hkeeps⟩ := htail tail hok
                  refine ⟨hlast, fun hall => ?_⟩
                  obtain ⟨hone, hothers⟩ := List.forall_mem_cons.mp hall
                  exact List.forall_mem_cons.mpr ⟨hwilling hone, hkeeps hothers⟩
              | false =>
                  simp only [Bool.false_eq_true, if_false]
                  cases rest with
                  | nil =>
                      refine ⟨by simpa using hkind, ?_⟩
                      intro result hresult
                      obtain rfl := Except.ok.inj hresult
                      exact ⟨hnet, by simp⟩
                  | cons skipped rest =>
                      obtain ⟨hskipped, hrest⟩ := List.forall_mem_cons.mp hrest
                      simp only [List.length_cons] at hlen
                      obtain ⟨hvisits, htail⟩ := ih rest.length (by omega) hrest hnet rfl
                      refine ⟨List.forall_mem_cons.mpr ⟨hkind, hvisits⟩, ?_⟩
                      intro result hresult
                      obtain ⟨tail, hok, hresult⟩ := bind_eq_ok_iff.mp hresult
                      obtain rfl := Except.ok.inj hresult
                      obtain ⟨hlast, hkeeps⟩ := htail tail hok
                      refine ⟨hlast, fun hall => ?_⟩
                      obtain ⟨-, hothers⟩ := List.forall_mem_cons.mp hall
                      exact List.forall_mem_cons.mpr ⟨hskipped, hkeeps hothers⟩

/-- While a socket that has left the deferred set takes something, back-pressure fails no
routine; and a tick fails one exactly when such a socket takes nothing. -/
theorem backPressure_fails_iff {first last : Serving} (hlasting : Lasting first.net)
    (hhealthy : ∀ routine ∈ first.routines, Healthy routine)
    (hrun : Run tickAnswering Willing first last) :
    (∀ routine ∈ last.routines, routine.state ≠ .stateFail) ∧
      ∀ deferred, Willing last deferred ↔
        ∀ visit ∈ visits last.routines deferred last.net, ∀ t, visit.advance = .ok t →
          t.routine.state ≠ .stateFail := by
  have hlast : (∀ routine ∈ last.routines, Healthy routine) ∧ Lasting last.net := by
    refine run_invariant (fun server =>
      (∀ routine ∈ server.routines, Healthy routine) ∧ Lasting server.net) ?_ hrun
      ⟨hhealthy, hlasting⟩
    rintro server deferred server' ⟨hroutines, hnet⟩ hwilling htick
    obtain ⟨result, hresult, hserver⟩ := bind_eq_ok_iff.mp htick
    obtain rfl := Except.ok.inj hserver
    obtain ⟨hnet', hkeeps⟩ := (tickFrom_visits hroutines hnet).2 result hresult
    exact ⟨hkeeps hwilling, hnet'⟩
  obtain ⟨hroutines, hnet⟩ := hlast
  refine ⟨fun routine hroutine => (hroutines routine hroutine).state, ?_⟩
  intro deferred
  have hvisits := (@tickFrom_visits last.routines deferred last.net hroutines hnet).1
  constructor
  · intro hwilling visit hvisit t hadvance
    obtain ⟨hvisited, hsends⟩ := hvisits visit hvisit
    exact ((visit_outcome hvisited hsends hadvance).2.1 (hwilling visit hvisit)).state
  · intro hfine visit hvisit hdefer hready
    obtain ⟨hvisited, hsends⟩ := hvisits visit hvisit
    obtain ⟨t, hadvance, -⟩ := advance_deferred hvisited hsends hdefer hready
    by_contra hunwilling
    refine hfine visit hvisit t hadvance ((visit_outcome hvisited hsends hadvance).2.2 ?_)
    exact fun hwilling => hunwilling (hwilling hdefer hready)

/-- Nine bytes for a socket that first takes none of them. -/
def stalled (answer : SendResult) : Serving :=
  ⟨[fileRoutineNew (sendBufferNew 3 0) ⟨text "say hello", 0⟩ (0 : Nat) (9 : Nat) (text "/a")], [],
    fun _ => ⟨[], [.wouldBlock, answer]⟩⟩

theorem stalled_healthy (answer : SendResult) :
    ∀ routine ∈ (stalled answer).routines, Healthy routine := by
  intro routine hroutine
  obtain rfl := List.mem_singleton.mp hroutine
  exact ⟨rfl, rfl, by simp [fileRoutineNew], by simp [fileRoutineNew]⟩

theorem stalled_lasting {answer : SendResult} (h : answer ≠ .fails) :
    Lasting (stalled answer).net := by
  intro s
  simp [stalled, h.symm]

theorem backPressure_fails_iff_resumed :
    ∃ last, follow tickAnswering Willing (stalled (.accepts 4)) [[], [], [], [3], []] = some last ∧
      (∀ routine ∈ last.routines, routine.state ≠ .stateFail) ∧
      ∀ deferred, Willing last deferred ↔
        ∀ visit ∈ visits last.routines deferred last.net, ∀ t, visit.advance = .ok t →
          t.routine.state ≠ .stateFail := by
  have hsome : (follow tickAnswering Willing (stalled (.accepts 4))
      [[], [], [], [3], []]).isSome := by
    decide +kernel
  obtain ⟨last, hlast⟩ := Option.isSome_iff_exists.mp hsome
  exact ⟨last, hlast, backPressure_fails_iff (stalled_lasting (by decide))
    (stalled_healthy (.accepts 4)) (run_of_follow hlast)⟩

/-- The socket leaves the deferred set, and the next `send` would block after all. -/
theorem backPressure_fails_stalled :
    Lasting (stalled .wouldBlock).net ∧
      (∀ routine ∈ (stalled .wouldBlock).routines, Healthy routine) ∧
      ∃ last, Ticking (stalled .wouldBlock) last ∧
        ∃ routine ∈ last.routines, routine.state = .stateFail := by
  have hfails : (follow tickAnswering (fun _ _ => True) (stalled .wouldBlock)
      [[], [], [], [3], []]).any fun last =>
        last.routines.any fun routine => routine.state = .stateFail := by
    decide +kernel
  obtain ⟨last, hlast, hfails⟩ := (Option.any_eq_true _ _).mp hfails
  obtain ⟨routine, hroutine, hfail⟩ := List.any_eq_true.mp hfails
  exact ⟨stalled_lasting (by decide), stalled_healthy .wouldBlock, last, run_of_follow hlast,
    routine, hroutine, of_decide_eq_true hfail⟩

end Visits

end Newth.Server.BackPressure
