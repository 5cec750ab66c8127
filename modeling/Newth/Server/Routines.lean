import Mathlib.Logic.Function.Basic
import Newth.Server.HttpBody

namespace Newth.Server.Routines

open Newth.Library.ByteString
open Newth.Library.Call
open Newth.Server.HttpBody
open Newth.Server.HttpHeader
open Newth.Server.Sendbufr

/-- An open file the server only reads. -/
structure File where
  content : Bytes
  pos : Nat
  deriving DecidableEq, Repr

def File.seekSet (file : File) (offset : Int) : File :=
  -- a negative offset fails and leaves the position alone
  if offset < 0 then file else { file with pos := offset.toNat }

def File.read (file : File) (n : Nat) : File × Bytes :=
  let block := (file.content.drop file.pos).take n
  ({ file with pos := file.pos + block.length }, block)

/-- A directory entry: its name, what `d_type` says of being a directory, if
anything, and what `stat` says, if it succeeds. -/
structure Entry where
  name : Bytes
  textual : (0 : UInt8) ∉ name
  short : name.length ≤ 255
  dType : Option Bool
  stat : Option Bool
  deriving DecidableEq, Repr

/-- An open directory, with the entries still to be read. `live` is cleared once
the structure has been freed. -/
structure PlatformDir where
  entries : List Entry
  live : Bool
  deriving DecidableEq, Repr

def platformDirEntryIsHidden (entry : Entry) : Bool := entry.name.head? == some (ascii '.')

/-- A failing `stat` frees the directory structure. -/
def platformDirEntryGetStats (entry : Entry) (dir : PlatformDir) :
    Except Stop (PlatformDir × Option Bool) :=
  if ¬ dir.live then .error .outOfBounds
  else
    match entry.stat with
    | none => .ok ({ dir with live := false }, none)
    | some directory => .ok (dir, some directory)

def platformDirEntryIsDirectory (entry : Entry) (dir : PlatformDir) :
    Except Stop (PlatformDir × Bool) :=
  match entry.dType with
  | some directory => .ok (dir, directory)
  | none => do
      let (dir, st) ← platformDirEntryGetStats entry dir
      .ok (dir, st.getD false)

def platformDirClose (dir : PlatformDir) : Except Stop Unit :=
  if dir.live then .ok () else .error .outOfBounds

structure FileRoutine where
  file : File
  startOffset : Int
  endOffset : Int
  deriving DecidableEq, Repr

structure DirectoryRoutine where
  count : Nat
  directory : PlatformDir
  deriving DecidableEq, Repr

inductive RoutineType where
  | plain
  | file (file : FileRoutine)
  | dir (dir : DirectoryRoutine)
  deriving DecidableEq, Repr

/-- The state bit of a routine; exactly one is set at a time. -/
inductive RoutineState where
  | stateContinue
  | stateDefer
  | stateFlush
  | stateFinish
  | stateFail
  deriving DecidableEq, Repr

structure Routine where
  state : RoutineState
  socketBuffer : SendBuffer
  webPath : Bytes
  type : RoutineType
  deriving DecidableEq, Repr

def routineNew (socketBuffer : SendBuffer) (webPath : Bytes) : Routine :=
  ⟨.stateFlush, socketBuffer, webPath, .plain⟩

def directoryRoutineNew (socketBuffer : SendBuffer) (dir : PlatformDir) (webPath : Bytes) :
    Routine :=
  ⟨.stateFlush, socketBuffer, webPath, .dir ⟨0, dir⟩⟩

def fileRoutineNew (socketBuffer : SendBuffer) (file : File) (startOffset endOffset : Int)
    (webPath : Bytes) : Routine :=
  ⟨.stateFlush, socketBuffer, webPath, .file ⟨file.seekSet startOffset, startOffset, endOffset⟩⟩

/-- `BUFSIZ`. -/
def bufsiz : Nat := 8192

/-- A negative remainder becomes a huge block size; reading more than the block
holds overruns it. -/
def fileRoutineContinue (self : Routine) (routine : FileRoutine) (channel : Channel) :
    Except Stop (Routine × Channel × Nat) :=
  let currentPosition := routine.file.pos
  let remaining := routine.endOffset - currentPosition
  let wanted := if remaining < sbDataSize then (remaining % 2 ^ 64).toNat else sbDataSize
  let (file, buffer) := routine.file.read wanted
  if sbDataSize < buffer.length then .error .outOfBounds
  else if buffer = [] then
    .ok ({ self with state := .stateFlush, type := .file { routine with file := file } },
      channel, 0)
  else
    let (link, bytesWrite) := sendBufferWriteData ⟨self.socketBuffer, channel⟩ buffer
    let file :=
      if bytesWrite < buffer.length then file.seekSet (currentPosition + bytesWrite) else file
    .ok ({ self with
        socketBuffer := link.self, type := .file { routine with file := file } },
      link.channel, bytesWrite)

/-- The path `DirectoryRoutineContinue` links an entry by. -/
def entryPath (webPath name : Bytes) (directory : Bool) : Bytes :=
  let path :=
    if webPath.getLast? = some (ascii '/') then webPath ++ name
    else webPath ++ ascii '/' :: name
  if directory then path ++ text "/" else path

/-- The loop variables of `DirectoryRoutineContinue`. -/
structure Listing where
  link : Link
  dir : DirectoryRoutine
  bytesWrite : Nat

def listEntry (webPath : Bytes) (entry : Entry) (s : Listing) : Except Stop Listing := do
  let (directory, _) ← platformDirEntryGetStats entry s.dir.directory
  if webPath.length + entry.name.length + 3 < bufsiz then
    let (directory, isDirectory) ← platformDirEntryIsDirectory entry directory
    let buffer ← htmlListWritePathLink [] (entryPath webPath entry.name isDirectory)
    let (link, _) := httpBodyWriteChunk s.link buffer
    .ok ⟨link, ⟨s.dir.count + 1, directory⟩, s.bytesWrite + buffer.length⟩
  else .ok { s with dir := { s.dir with directory := directory } }

def listingEnd (count : Nat) : Bytes :=
  let buffer := if count = 0 then text "\t\t\t<LI>Empty Directory</LI>\n" else []
  htmlFooterWrite (htmlListEnd buffer)

/-- What is written once the directory has been read to its end. -/
def listEnd (link : Link) (count : Nat) : Link :=
  let (link, r) := httpBodyWriteChunk link (listingEnd count)
  let link := if r ≠ 0 then (httpBodyWriteChunkEnding link).1 else link
  (sendBufferFlush link).1

/-- The loop of `DirectoryRoutineContinue` over the entries still to be read, with
`left` visible ones to go in this call. -/
def listEntries (webPath : Bytes) : List Entry → Nat → Listing → Except Stop (Listing × Nat)
  | _, 0, s => .ok ({ s with link := (sendBufferFlush s.link).1 }, s.bytesWrite)
  | [], _ + 1, s =>
      if ¬ s.dir.directory.live then .error .outOfBounds
      else .ok ({ s with link := listEnd s.link s.dir.count }, 0)
  | entry :: rest, left + 1, s =>
      if ¬ s.dir.directory.live then .error .outOfBounds
      else
        let s := { s with dir := { s.dir with directory := ⟨rest, true⟩ } }
        if platformDirEntryIsHidden entry then listEntries webPath rest (left + 1) s
        else do
          let s ← listEntry webPath entry s
          listEntries webPath rest left s

def directoryRoutineContinue (self : Routine) (routine : DirectoryRoutine) (channel : Channel) :
    Except Stop (Routine × Channel × Nat) := do
  let (s, bytesWrite) ← listEntries self.webPath routine.directory.entries 10
    ⟨⟨self.socketBuffer, channel⟩, routine, 0⟩
  .ok ({ self with socketBuffer := s.link.self, type := .dir s.dir }, s.link.channel, bytesWrite)

/-- What the loop body of `RoutineTick` does to one routine. -/
structure Ticked where
  routine : Routine
  channel : Channel
  deferred : List Nat
  kept : Bool

/-- What `RoutineArrayDelIdx` frees of a routine; a directory must not be closed twice. -/
def routineFree (routine : Routine) : Except Stop Unit :=
  match routine.type with
  | .dir dir => platformDirClose dir.directory
  | _ => .ok ()

/-- `RoutineArrayDel` on a routine that is done. -/
def retire (deferred : List Nat) (routine : Routine) (channel : Channel) :
    Except Stop Ticked := do
  routineFree routine
  .ok ⟨routine, channel, deferred.filter (· ≠ routine.socketBuffer.clientSocket), false⟩

/-- The first routine on the socket goes. -/
def routineArrayDelSocket (socket : Nat) : List Routine → Except Stop (List Routine)
  | [] => .ok []
  | routine :: rest =>
      if routine.socketBuffer.clientSocket ≠ socket then do
        let rest ← routineArrayDelSocket socket rest
        .ok (routine :: rest)
      else do
        routineFree routine
        .ok rest

/-- The state machine of `RoutineTick`; `deferred` is the set behind
`serverDeferredSocketAdd`. -/
def advance (deferred : List Nat) (routine : Routine) (channel : Channel) :
    Except Stop Ticked :=
  let socket := routine.socketBuffer.clientSocket
  let (link, sent) := sendBufferFlush ⟨routine.socketBuffer, channel⟩
  match routine.state, routine.type with
  | .stateDefer, _ =>
      if socket ∈ deferred then .ok ⟨routine, channel, deferred, true⟩
      else if routine.socketBuffer.has errFail then
        .ok ⟨{ routine with state := .stateFail }, channel, deferred, true⟩
      else
        let routine := { routine with socketBuffer := link.self }
        if sent = 0 ∨ link.self.has errFail then
          .ok ⟨{ routine with state := .stateFail }, link.channel, deferred, true⟩
        else if link.self.has errFull then .ok ⟨routine, link.channel, deferred, true⟩
        else .ok ⟨{ routine with state := .stateFlush }, link.channel, deferred, true⟩
  | .stateFlush, _ =>
      if routine.socketBuffer.buffer.isSome then
        let routine := { routine with socketBuffer := link.self }
        if sent = 0 ∧ link.self.has errFail then
          .ok ⟨{ routine with state := .stateFail }, link.channel, deferred, true⟩
        else .ok ⟨routine, link.channel, deferred, true⟩
      else .ok ⟨{ routine with state := .stateContinue }, channel, deferred, true⟩
  | .stateContinue, .plain =>
      .ok ⟨{ routine with state := .stateFinish }, channel, deferred, true⟩
  | .stateContinue, .file file => do
      let (routine, channel, written) ← fileRoutineContinue routine file channel
      let stored := routine.socketBuffer.buffer
      let later : Ticked :=
        ⟨{ routine with state := .stateDefer }, channel, deferred.insert socket, true⟩
      if written ≠ 0 ∨ routine.socketBuffer.has errFull then
        if ∃ stream ∈ stored, sbDataSize < stream.pos then .ok later
        else .ok ⟨routine, channel, deferred, true⟩
      else if routine.socketBuffer.has errFail then
        retire deferred { routine with state := .stateFail } channel
      else if stored.isSome then .ok later
      else .ok ⟨{ routine with state := .stateFinish }, channel, deferred, true⟩
  | .stateContinue, .dir dir => do
      let (routine, channel, bytesWrite) ← directoryRoutineContinue routine dir channel
      if bytesWrite ≠ 0 then .ok ⟨routine, channel, deferred, true⟩
      else retire deferred routine channel
  | .stateFinish, _ => retire deferred routine channel
  | .stateFail, _ => retire deferred routine channel

/-- The sockets the server writes to. -/
abbrev Network := Nat → Channel

/-- The loop of `RoutineTick`. After a removal the next routine has moved to the
index just visited, and waits for the next tick. -/
def tickFrom : List Routine → List Nat → Network →
    Except Stop (List Routine × List Nat × Network)
  | [], deferred, net => .ok ([], deferred, net)
  | routine :: rest, deferred, net => do
      let socket := routine.socketBuffer.clientSocket
      let ticked ← advance deferred routine (net socket)
      let net := Function.update net socket ticked.channel
      if ticked.kept then
        let (routines, deferred, net) ← tickFrom rest ticked.deferred net
        .ok (ticked.routine :: routines, deferred, net)
      else
        match rest with
        | [] => .ok ([], ticked.deferred, net)
        | skipped :: rest =>
            let (routines, deferred, net) ← tickFrom rest ticked.deferred net
            .ok (skipped :: routines, deferred, net)

/-- The server's routines, the sockets its deferral waits on, and the network. -/
structure Serving where
  routines : List Routine
  deferred : List Nat
  net : Network

def routineTick (server : Serving) : Except Stop Serving := do
  let (routines, deferred, net) ← tickFrom server.routines server.deferred server.net
  .ok ⟨routines, deferred, net⟩

def sockets (routines : List Routine) : List Nat :=
  routines.map fun routine => routine.socketBuffer.clientSocket

section Turns

/-- A listing with the rest of the directory before it. -/
def Listing.ahead (s : Listing) (rest : List Entry) : Listing :=
  { s with dir := { s.dir with directory := ⟨rest, true⟩ } }

/-- The loop over the entries turn by turn, where it comes back. -/
inductive ListTurns (webPath : Bytes) : List Entry → Nat → Listing → Listing × Nat → Prop where
  | full {entries : List Entry} {s : Listing} :
      ListTurns webPath entries 0 s ({ s with link := (sendBufferFlush s.link).1 }, s.bytesWrite)
  | ended {left : Nat} {s : Listing} (live : s.dir.directory.live = true) :
      ListTurns webPath [] (left + 1) s ({ s with link := listEnd s.link s.dir.count }, 0)
  | hidden {entry : Entry} {rest : List Entry} {left : Nat} {s : Listing} {result : Listing × Nat}
      (live : s.dir.directory.live = true) (hidden : platformDirEntryIsHidden entry = true)
      (later : ListTurns webPath rest (left + 1) (s.ahead rest) result) :
      ListTurns webPath (entry :: rest) (left + 1) s result
  | listed {entry : Entry} {rest : List Entry} {left : Nat} {s s' : Listing}
      {result : Listing × Nat} (live : s.dir.directory.live = true)
      (shown : ¬ platformDirEntryIsHidden entry = true)
      (listed : listEntry webPath entry (s.ahead rest) = .ok s')
      (later : ListTurns webPath rest left s' result) :
      ListTurns webPath (entry :: rest) (left + 1) s result

theorem listEntries_turns {webPath : Bytes} {entries : List Entry} {left : Nat} {s : Listing}
    {result : Listing × Nat} (h : listEntries webPath entries left s = .ok result) :
    ListTurns webPath entries left s result := by
  induction entries generalizing left s with
  | nil =>
      cases left with
      | zero =>
          obtain rfl := Except.ok.inj h
          exact .full
      | succ left =>
          rw [listEntries] at h
          split at h
          · simp at h
          · rename_i hlive
            obtain rfl := Except.ok.inj h
            exact .ended (not_not.mp hlive)
  | cons entry rest ih =>
      cases left with
      | zero =>
          obtain rfl := Except.ok.inj h
          exact .full
      | succ left =>
          rw [listEntries] at h
          split at h
          · simp at h
          · rename_i hlive
            simp only at h
            split at h
            · rename_i hhidden
              exact .hidden (not_not.mp hlive) hhidden (ih h)
            · rename_i hshown
              obtain ⟨s', hlisted, h⟩ := bind_eq_ok_iff.mp h
              exact .listed (not_not.mp hlive) hshown hlisted (ih h)

end Turns

section ClientSocket

@[simp]
theorem httpBodyWriteChunk_clientSocket (link : Link) (buffer : Bytes) :
    (httpBodyWriteChunk link buffer).1.self.clientSocket = link.self.clientSocket := by
  simp [httpBodyWriteChunk]

theorem listEnd_clientSocket (link : Link) (count : Nat) :
    (listEnd link count).self.clientSocket = link.self.clientSocket := by
  simp only [listEnd, sendBufferFlush_clientSocket]
  split
  · simp only [httpBodyWriteChunkEnding]
    split
    · simp
    · simp
  · simp

theorem listEntry_clientSocket {webPath : Bytes} {entry : Entry} {s s' : Listing}
    (h : listEntry webPath entry s = .ok s') :
    s'.link.self.clientSocket = s.link.self.clientSocket := by
  rw [listEntry] at h
  obtain ⟨⟨directory, st⟩, -, h⟩ := bind_eq_ok_iff.mp h
  simp only at h
  split at h
  · obtain ⟨⟨directory', isDirectory⟩, -, h⟩ := bind_eq_ok_iff.mp h
    obtain ⟨buffer, -, h⟩ := bind_eq_ok_iff.mp h
    obtain rfl := Except.ok.inj h
    exact httpBodyWriteChunk_clientSocket s.link buffer
  · obtain rfl := Except.ok.inj h
    rfl

theorem listEntries_clientSocket {webPath : Bytes} {entries : List Entry} {left : Nat}
    {s : Listing} {result : Listing × Nat} (h : listEntries webPath entries left s = .ok result) :
    result.1.link.self.clientSocket = s.link.self.clientSocket := by
  have hturns := listEntries_turns h
  clear h
  induction hturns with
  | full => exact sendBufferFlush_clientSocket _
  | ended => exact listEnd_clientSocket _ _
  | hidden live hidden later ih => exact ih
  | listed live shown listed later ih =>
      have hentry := listEntry_clientSocket listed
      exact ih.trans hentry

theorem fileRoutineContinue_clientSocket {self self' : Routine} {routine : FileRoutine}
    {channel channel' : Channel} {n : Nat}
    (h : fileRoutineContinue self routine channel = .ok (self', channel', n)) :
    self'.socketBuffer.clientSocket = self.socketBuffer.clientSocket := by
  rw [fileRoutineContinue] at h
  simp only at h
  generalize routine.file.read _ = block at h
  split at h
  · simp at h
  · split at h
    · obtain ⟨rfl, -⟩ := Prod.mk.inj (Except.ok.inj h)
      rfl
    · obtain ⟨rfl, -⟩ := Prod.mk.inj (Except.ok.inj h)
      exact sendBufferWriteData_clientSocket _ _

theorem directoryRoutineContinue_clientSocket {self self' : Routine} {routine : DirectoryRoutine}
    {channel channel' : Channel} {n : Nat}
    (h : directoryRoutineContinue self routine channel = .ok (self', channel', n)) :
    self'.socketBuffer.clientSocket = self.socketBuffer.clientSocket := by
  rw [directoryRoutineContinue] at h
  obtain ⟨⟨s, m⟩, hs, h⟩ := bind_eq_ok_iff.mp h
  obtain ⟨rfl, -⟩ := Prod.mk.inj (Except.ok.inj h)
  exact listEntries_clientSocket hs

theorem retire_eq {deferred : List Nat} {routine : Routine} {channel : Channel} {t : Ticked}
    (h : retire deferred routine channel = .ok t) :
    t.routine = routine ∧ t.channel = channel ∧ t.kept = false := by
  rw [retire] at h
  obtain ⟨u, -, h⟩ := bind_eq_ok_iff.mp h
  obtain rfl := Except.ok.inj h
  exact ⟨rfl, rfl, rfl⟩

theorem advance_clientSocket {deferred : List Nat} {routine : Routine} {channel : Channel}
    {t : Ticked} (h : advance deferred routine channel = .ok t) :
    t.routine.socketBuffer.clientSocket = routine.socketBuffer.clientSocket := by
  have hflush := sendBufferFlush_clientSocket ⟨routine.socketBuffer, channel⟩
  rw [advance] at h
  simp only at h
  split at h
  · split at h
    · obtain rfl := Except.ok.inj h
      rfl
    · split at h
      · obtain rfl := Except.ok.inj h
        rfl
      · split at h
        · obtain rfl := Except.ok.inj h
          exact hflush
        · split at h <;> obtain rfl := Except.ok.inj h <;> exact hflush
  · split at h
    · split at h <;> obtain rfl := Except.ok.inj h <;> exact hflush
    · obtain rfl := Except.ok.inj h
      rfl
  · obtain rfl := Except.ok.inj h
    rfl
  · obtain ⟨⟨routine', channel', written⟩, hcontinue, h⟩ := bind_eq_ok_iff.mp h
    have hsocket := fileRoutineContinue_clientSocket hcontinue
    simp only at h
    split at h
    · split at h <;> obtain rfl := Except.ok.inj h <;> exact hsocket
    · split at h
      · rw [(retire_eq h).1]
        exact hsocket
      · split at h <;> obtain rfl := Except.ok.inj h <;> exact hsocket
  · obtain ⟨⟨routine', channel', written⟩, hcontinue, h⟩ := bind_eq_ok_iff.mp h
    have hsocket := directoryRoutineContinue_clientSocket hcontinue
    simp only at h
    split at h
    · obtain rfl := Except.ok.inj h
      exact hsocket
    · rw [(retire_eq h).1]
      exact hsocket
  · rw [(retire_eq h).1]
  · rw [(retire_eq h).1]

end ClientSocket

section Tick

/-- The rounds of one tick: each routine visited is kept or removed, and the one
behind a removed routine is left as it is. -/
inductive Rounds : List Routine → Network → List Routine → Network → Prop where
  | done (net : Network) : Rounds [] net [] net
  | kept {deferred : List Nat} {routine : Routine} {rest routines : List Routine}
      {net net' : Network} {t : Ticked}
      (hadvance : advance deferred routine (net routine.socketBuffer.clientSocket) = .ok t)
      (hkept : t.kept = true)
      (hrest : Rounds rest (Function.update net routine.socketBuffer.clientSocket t.channel)
        routines net') :
      Rounds (routine :: rest) net (t.routine :: routines) net'
  | last {deferred : List Nat} {routine : Routine} {net : Network} {t : Ticked}
      (hadvance : advance deferred routine (net routine.socketBuffer.clientSocket) = .ok t)
      (hkept : t.kept = false) :
      Rounds [routine] net []
        (Function.update net routine.socketBuffer.clientSocket t.channel)
  | skip {deferred : List Nat} {routine skipped : Routine} {rest routines : List Routine}
      {net net' : Network} {t : Ticked}
      (hadvance : advance deferred routine (net routine.socketBuffer.clientSocket) = .ok t)
      (hkept : t.kept = false)
      (hrest : Rounds rest (Function.update net routine.socketBuffer.clientSocket t.channel)
        routines net') :
      Rounds (routine :: skipped :: rest) net (skipped :: routines) net'

theorem tickFrom_rounds {routines : List Routine} {deferred : List Nat} {net : Network}
    {result : List Routine × List Nat × Network}
    (h : tickFrom routines deferred net = .ok result) :
    Rounds routines net result.1 result.2.2 := by
  induction hlen : routines.length using Nat.strong_induction_on
    generalizing routines deferred net result with
  | _ n ih =>
      cases routines with
      | nil =>
          obtain rfl := Except.ok.inj h
          exact .done net
      | cons routine rest =>
          rw [tickFrom] at h
          obtain ⟨t, hadvance, h⟩ := bind_eq_ok_iff.mp h
          simp only [List.length_cons] at hlen
          split at h
          · rename_i hkept
            obtain ⟨tail, htail, h⟩ := bind_eq_ok_iff.mp h
            obtain rfl := Except.ok.inj h
            exact .kept hadvance hkept (ih rest.length (by omega) htail rfl)
          · rename_i hkept
            have hgone : t.kept = false := by simpa using hkept
            cases rest with
            | nil =>
                obtain rfl := Except.ok.inj h
                exact .last hadvance hgone
            | cons skipped rest =>
                obtain ⟨tail, htail, h⟩ := bind_eq_ok_iff.mp h
                obtain rfl := Except.ok.inj h
                simp only [List.length_cons] at hlen
                exact .skip hadvance hgone (ih rest.length (by omega) htail rfl)

theorem rounds_sockets {routines routines' : List Routine} {net net' : Network}
    (h : Rounds routines net routines' net') : (sockets routines').Sublist (sockets routines) := by
  induction h with
  | done net => exact List.Sublist.refl _
  | kept hadvance hkept hrest ih =>
      simp only [sockets, List.map_cons, advance_clientSocket hadvance]
      exact ih.cons_cons _
  | last hadvance hkept => exact List.nil_sublist _
  | skip hadvance hkept hrest ih =>
      exact (ih.cons_cons _).cons _

theorem rounds_other {routines routines' : List Routine} {net net' : Network}
    (h : Rounds routines net routines' net') {s : Nat} (hs : s ∉ sockets routines) :
    net' s = net s := by
  induction h with
  | done net => rfl
  | kept hadvance hkept hrest ih =>
      simp only [sockets, List.map_cons, List.mem_cons, not_or] at hs
      rw [ih hs.2, Function.update_of_ne hs.1]
  | last hadvance hkept =>
      simp only [sockets, List.map_cons, List.mem_cons, not_or] at hs
      rw [Function.update_of_ne hs.1]
  | skip hadvance hkept hrest ih =>
      simp only [sockets, List.map_cons, List.mem_cons, not_or] at hs
      rw [ih hs.2.2, Function.update_of_ne hs.1]

theorem rounds_length {routines routines' : List Routine} {net net' : Network}
    (h : Rounds routines net routines' net') : routines'.length ≤ routines.length := by
  simpa [sockets] using (rounds_sockets h).length_le

theorem rounds_focus {routines routines' : List Routine} {net net' : Network}
    (h : Rounds routines net routines' net') (hnodup : (sockets routines).Nodup) {r : Routine}
    (hr : r ∈ routines) {s : Nat} (hs : r.socketBuffer.clientSocket = s) :
    (r ∈ routines' ∧ net' s = net s ∧ routines'.length < routines.length) ∨
      ∃ deferred t, advance deferred r (net s) = .ok t ∧ net' s = t.channel ∧
        ((t.kept = true ∧ t.routine ∈ routines') ∨ (t.kept = false ∧ s ∉ sockets routines')) := by
  induction h with
  | done net => simp at hr
  | @kept deferred routine rest routines net net' t hadvance hkept hrest ih =>
      simp only [sockets, List.map_cons, List.nodup_cons] at hnodup
      rcases List.mem_cons.mp hr with rfl | hr
      · right
        rw [hs] at hadvance hnodup hrest
        refine ⟨deferred, t, hadvance, ?_, .inl ⟨hkept, by simp⟩⟩
        rw [rounds_other hrest hnodup.1, Function.update_self]
      · have hne : s ≠ routine.socketBuffer.clientSocket := by
          rintro rfl
          exact hnodup.1 (hs ▸ List.mem_map_of_mem hr)
        have hsocket : s ≠ t.routine.socketBuffer.clientSocket := by
          rwa [advance_clientSocket hadvance]
        have hrest' := ih hnodup.2 hr
        rw [Function.update_of_ne hne] at hrest'
        rcases hrest' with ⟨hmem, hnet, hless⟩ | ⟨d, t', hadvance', hnet, hout⟩
        · exact .inl ⟨by simp [hmem], hnet, by simpa using hless⟩
        · refine .inr ⟨d, t', hadvance', hnet, ?_⟩
          rcases hout with ⟨hkept', hmem⟩ | ⟨hgone, hmem⟩
          · exact .inl ⟨hkept', by simp [hmem]⟩
          · refine .inr ⟨hgone, ?_⟩
            simp only [sockets, List.map_cons, List.mem_cons, not_or]
            exact ⟨hsocket, hmem⟩
  | @last deferred routine net t hadvance hkept =>
      obtain rfl : r = routine := by simpa using hr
      right
      rw [hs] at hadvance ⊢
      exact ⟨deferred, t, hadvance, by simp, .inr ⟨hkept, by simp [sockets]⟩⟩
  | @skip deferred routine skipped rest routines net net' t hadvance hkept hrest ih =>
      simp only [sockets, List.map_cons, List.nodup_cons, List.mem_cons, not_or] at hnodup
      obtain ⟨⟨hfirst, hfirst'⟩, hsecond, hnodup⟩ := hnodup
      have hstays : ∀ {u : Nat}, u ∉ sockets rest → u ∉ sockets routines := fun hu hmem =>
        hu ((rounds_sockets hrest).mem hmem)
      rcases List.mem_cons.mp hr with rfl | hr
      · right
        rw [hs] at hadvance hrest hfirst hfirst'
        refine ⟨deferred, t, hadvance, ?_, .inr ⟨hkept, ?_⟩⟩
        · rw [rounds_other hrest hfirst', Function.update_self]
        · simp only [sockets, List.map_cons, List.mem_cons, not_or]
          exact ⟨hfirst, hstays hfirst'⟩
      · rcases List.mem_cons.mp hr with rfl | hr
        · left
          rw [hs] at hfirst hsecond
          have hshort := rounds_length hrest
          refine ⟨by simp, ?_, ?_⟩
          · rw [rounds_other hrest hsecond, Function.update_of_ne (Ne.symm hfirst)]
          · simp only [List.length_cons]
            omega
        · have hin : s ∈ sockets rest := hs ▸ List.mem_map_of_mem hr
          have hne : s ≠ routine.socketBuffer.clientSocket := fun heq => hfirst' (heq ▸ hin)
          have hne' : s ≠ skipped.socketBuffer.clientSocket := fun heq => hsecond (heq ▸ hin)
          have hrest' := ih hnodup hr
          rw [Function.update_of_ne hne] at hrest'
          rcases hrest' with ⟨hmem, hnet, hless⟩ | ⟨d, t', hadvance', hnet, hout⟩
          · refine .inl ⟨by simp [hmem], hnet, ?_⟩
            simp only [List.length_cons]
            omega
          · refine .inr ⟨d, t', hadvance', hnet, ?_⟩
            rcases hout with ⟨hkept', hmem⟩ | ⟨hgone, hmem⟩
            · exact .inl ⟨hkept', by simp [hmem]⟩
            · refine .inr ⟨hgone, ?_⟩
              simp only [sockets, List.map_cons, List.mem_cons, not_or]
              exact ⟨hne', hmem⟩

end Tick

section Cases

/-- What one round of the state machine does to a routine and its socket. -/
inductive Advance (routine : Routine) (channel : Channel) (t : Ticked) : Prop where
  | stays (type : t.routine.type = routine.type)
      (self : t.routine.socketBuffer = routine.socketBuffer) (channel : t.channel = channel)
      (state : t.routine.state = routine.state ∨ t.routine.state = .stateContinue ∨
        (t.routine.state = .stateFinish ∧ routine.type = .plain) ∨
        (t.routine.state = .stateFail ∧ routine.socketBuffer.has errFail = true))
      (kept : t.kept = false → t.routine.state = routine.state ∧
        (routine.state = .stateFinish ∨ routine.state = .stateFail))
  | flushes (type : t.routine.type = routine.type)
      (link : (⟨t.routine.socketBuffer, t.channel⟩ : Link) =
        (sendBufferFlush ⟨routine.socketBuffer, channel⟩).1)
      (state : t.routine.state = routine.state ∨ t.routine.state = .stateFlush ∨
        (t.routine.state = .stateFail ∧
          ((sendBufferFlush ⟨routine.socketBuffer, channel⟩).1.self.has errFail = true ∨
            (routine.state = .stateDefer ∧
              (sendBufferFlush ⟨routine.socketBuffer, channel⟩).2 = 0))))
      (waits : routine.state = .stateDefer ∨ routine.state = .stateFlush)
      (kept : t.kept = true)
  | file {file : FileRoutine} {routine' : Routine} {written : Nat}
      (state : routine.state = .stateContinue) (type : routine.type = .file file)
      (continued : fileRoutineContinue routine file channel = .ok (routine', t.channel, written))
      (routine : t.routine = { routine' with state := t.routine.state })
      (outcome : (t.kept = true ∧
          (t.routine.state = routine'.state ∨
            (t.routine.state = .stateDefer ∧ routine'.socketBuffer.buffer.isSome = true) ∨
            (t.routine.state = .stateFinish ∧ written = 0 ∧
              routine'.socketBuffer.has errFail = false ∧ routine'.socketBuffer.buffer = none))) ∨
        (t.kept = false ∧ t.routine.state = .stateFail ∧
          routine'.socketBuffer.has errFail = true))
  | dir {dir : DirectoryRoutine} {written : Nat}
      (state : routine.state = .stateContinue) (type : routine.type = .dir dir)
      (continued : directoryRoutineContinue routine dir channel
        = .ok (t.routine, t.channel, written))

theorem advance_cases {deferred : List Nat} {routine : Routine} {channel : Channel} {t : Ticked}
    (h : advance deferred routine channel = .ok t) : Advance routine channel t := by
  rw [advance] at h
  simp only at h
  split at h
  · rename_i hstate
    split at h
    · obtain rfl := Except.ok.inj h
      exact .stays rfl rfl rfl (.inl rfl) (by simp)
    · split at h
      · rename_i hfail
        obtain rfl := Except.ok.inj h
        exact .stays rfl rfl rfl (.inr (.inr (.inr ⟨rfl, hfail⟩))) (by simp)
      · split at h
        · rename_i hsent
          obtain rfl := Except.ok.inj h
          refine .flushes rfl rfl (.inr (.inr ⟨rfl, ?_⟩)) (.inl hstate) rfl
          rcases hsent with hzero | hfail
          · exact .inr ⟨hstate, hzero⟩
          · exact .inl hfail
        · split at h
          · obtain rfl := Except.ok.inj h
            exact .flushes rfl rfl (.inl rfl) (.inl hstate) rfl
          · obtain rfl := Except.ok.inj h
            exact .flushes rfl rfl (.inr (.inl rfl)) (.inl hstate) rfl
  · rename_i hstate
    split at h
    · split at h
      · rename_i hfail
        obtain rfl := Except.ok.inj h
        exact .flushes rfl rfl (.inr (.inr ⟨rfl, .inl hfail.2⟩)) (.inr hstate) rfl
      · obtain rfl := Except.ok.inj h
        exact .flushes rfl rfl (.inl rfl) (.inr hstate) rfl
    · obtain rfl := Except.ok.inj h
      exact .stays rfl rfl rfl (.inr (.inl rfl)) (by simp)
  · rename_i htype
    obtain rfl := Except.ok.inj h
    exact .stays rfl rfl rfl (.inr (.inr (.inl ⟨rfl, htype⟩))) (by simp)
  · rename_i file hstate htype
    obtain ⟨⟨routine', channel', written⟩, hcontinue, h⟩ := bind_eq_ok_iff.mp h
    simp only at h
    split at h
    · split at h
      · rename_i hstream
        obtain rfl := Except.ok.inj h
        refine .file hstate htype hcontinue rfl (.inl ⟨rfl, .inr (.inl ⟨rfl, ?_⟩)⟩)
        obtain ⟨stream, hstream, -⟩ := hstream
        rw [Option.mem_def.mp hstream]
        rfl
      · obtain rfl := Except.ok.inj h
        exact .file hstate htype hcontinue rfl (.inl ⟨rfl, .inl rfl⟩)
    · rename_i hnone
      split at h
      · rename_i hfail
        obtain ⟨hroutine, hchannel, hkept⟩ := retire_eq h
        refine .file hstate htype (by rw [hchannel]; exact hcontinue) (by rw [hroutine])
          (.inr ⟨hkept, by rw [hroutine], hfail⟩)
      · rename_i hfine
        split at h
        · rename_i hsome
          obtain rfl := Except.ok.inj h
          exact .file hstate htype hcontinue rfl (.inl ⟨rfl, .inr (.inl ⟨rfl, hsome⟩)⟩)
        · rename_i hempty
          obtain rfl := Except.ok.inj h
          refine .file hstate htype hcontinue rfl
            (.inl ⟨rfl, .inr (.inr ⟨rfl, ?_, by simpa using hfine, by simpa using hempty⟩)⟩)
          by_contra hwritten
          exact hnone (.inl hwritten)
  · rename_i dir hstate htype
    obtain ⟨⟨routine', channel', written⟩, hcontinue, h⟩ := bind_eq_ok_iff.mp h
    simp only at h
    split at h
    · obtain rfl := Except.ok.inj h
      exact .dir hstate htype hcontinue
    · obtain ⟨hroutine, hchannel, -⟩ := retire_eq h
      refine @Advance.dir _ _ _ dir written hstate htype ?_
      rw [hroutine, hchannel]
      exact hcontinue
  · rename_i hstate
    obtain ⟨hroutine, hchannel, -⟩ := retire_eq h
    exact .stays (by rw [hroutine]) (by rw [hroutine]) hchannel (.inl (by rw [hroutine]))
      fun _ => ⟨by rw [hroutine], .inl hstate⟩
  · rename_i hstate
    obtain ⟨hroutine, hchannel, -⟩ := retire_eq h
    exact .stays (by rw [hroutine]) (by rw [hroutine]) hchannel (.inl (by rw [hroutine]))
      fun _ => ⟨by rw [hroutine], .inr hstate⟩

end Cases

theorem fileRoutineContinue_writes {self : Routine} {channel : Channel} {stop : Nat}
    (h : Link.Sound ⟨self.socketBuffer, channel⟩) (routine : FileRoutine)
    (hstop : routine.endOffset = stop) (hpos : routine.file.pos ≤ stop)
    (hfile : stop ≤ routine.file.content.length) :
    ∃ n self' channel',
      n = min (stop - routine.file.pos) sbDataSize ∧
      fileRoutineContinue self routine channel = .ok (self', channel', n) ∧
      self'.type = .file
        { routine with file := { routine.file with pos := routine.file.pos + n } } ∧
      Writes ((routine.file.content.drop routine.file.pos).take n)
        ⟨self.socketBuffer, channel⟩ ⟨self'.socketBuffer, channel'⟩ := by
  obtain ⟨n, hn⟩ : ∃ n, n = min (stop - routine.file.pos) sbDataSize := ⟨_, rfl⟩
  have hwanted : (if routine.endOffset - routine.file.pos < sbDataSize
      then ((routine.endOffset - routine.file.pos) % 2 ^ 64).toNat else sbDataSize) = n := by
    have hsmall : sbDataSize = 8192 := rfl
    rw [hstop]
    split
    · omega
    · omega
  obtain ⟨block, hblock⟩ :
      ∃ block, (routine.file.content.drop routine.file.pos).take n = block := ⟨_, rfl⟩
  have hlength : block.length = n := by
    rw [← hblock, List.length_take, List.length_drop]
    omega
  refine ⟨n, ?_⟩
  rw [hblock]
  simp only [fileRoutineContinue, File.read, hwanted, hblock, hlength]
  rw [if_neg (by omega)]
  split
  · rename_i hnil
    subst hnil
    obtain rfl : n = 0 := by simpa using hlength.symm
    exact ⟨_, _, hn, rfl, rfl, Writes.refl h⟩
  · obtain ⟨hwrites, hcount⟩ := sendBufferWriteData_writes h block
    rw [hlength] at hcount
    exact ⟨_, _, hn, by rw [hcount], by simp, hwrites⟩

end Newth.Server.Routines
