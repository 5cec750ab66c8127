import Newth.Client.Site

namespace Newth.Client.Queue

open Newth.Library.ByteString
open Newth.Library.Call
open Newth.Client.Uri
open Newth.Client.SiteFile
open Newth.Client.Site

structure QueueState where
  queued : Bool
  finished : Bool
  failed : Bool
  deriving DecidableEq, Repr

structure QueueEntry where
  sourceSite : Option SitePointer
  destinationSite : Option SitePointer
  sourcePath : Option Bytes
  destinationPath : Option Bytes
  state : QueueState
  deriving DecidableEq, Repr

variable {η : Type} (http : HttpScheme η)

def queueEntryNewFromPath (gethostbyname : Bytes → Option Bytes) (array : SiteArray η)
    (source : Bytes) (destination : Option Bytes) : Except Stop (Except SiteError QueueEntry) := do
  match ← siteArrayUserPathResolve http array source false with
  | none => .ok (.error .addressNotUnderstood)
  | some src => do
      let dst ← match destination with
        | some destination => siteArrayUserPathResolve http array destination true
        | none => .ok none
      let srcSite ← siteArrayGetByUriHost http gethostbyname array src
      let dstSite ← match dst with
        | some dst => siteArrayGetByUriHost http gethostbyname array dst
        | none => .ok (siteArrayActiveGetWrite array)
      let destinationUri ← match dst with
        | some dst => .ok dst
        | none => do
            let site ← array.at dstSite
            .ok (siteWorkingDirectoryGet http site)
      .ok (.ok ⟨srcSite, dstSite, (uriDetailsNewFrom src).path,
        (uriDetailsNewFrom destinationUri).path, ⟨true, false, false⟩⟩)

section Download

/-- `SB_DATA_SIZE`. -/
def sbDataSize : Nat := 8192

/-- A string argument that may be a null pointer. -/
def given (path : Option Bytes) : Except Stop Bytes :=
  match path with
  | some path => .ok path
  | none => .error .outOfBounds

/-- One turn of the copy loop. It leaves with whether the loop came to its end. -/
def copyTurn (source destination : Option SitePointer) (w : World η) :
    Except Stop (Turn (World η) (World η × Bool)) := do
  let (w, i) ← siteFileRead http w source sbDataSize
  match i with
  | some [] => .ok (.leave (w, true))
  | some buf => do
      let (w, written) ← siteFileWrite w destination buf
      .ok (if written.isSome then .again w else .leave (w, false))
  | none => do
      let atEnd ← siteFileAtEnd http w source
      .ok (.leave (w, atEnd))

/-- What the three downloads do once nothing speaks against it: open both files,
copy with at most `fuel` reads, and close them. -/
def copyEntry (fuel : Nat) (w : World η) (entry : QueueEntry) :
    Except Stop (World η × QueueEntry × Option SiteError) := do
  let source := entry.sourceSite
  let destination := entry.destinationSite
  let fromPath ← given entry.sourcePath
  let toPath ← given entry.destinationPath
  let (w, e) ← siteFileOpenRead http w source fromPath
  if e.isSome then .ok (w, entry, e)
  else
    match ← siteFileOpenMeta http w source with
    | some ⟨_, some _, _, .file⟩ => do
        let (w, e) ← siteFileOpenWrite w destination toPath
        if e.isSome then do
          let w ← siteFileClose http w source
          .ok (w, entry, e)
        else do
          let (w, ended) ← run (copyTurn http source destination) fuel w
          let w ← siteFileClose http w source
          let w ← siteFileClose http w destination
          if ended then
            .ok (w, { entry with state := ⟨false, true, entry.state.failed⟩ }, none)
          else
            .ok (w, { entry with state := ⟨false, entry.state.finished, true⟩ }, some .failed)
    | some ⟨_, some _, _, .nothing⟩ | some ⟨_, some _, _, .directory⟩ => do
        let w ← siteFileClose http w source
        .ok (w, entry, some .isDirectory)
    | _ => do
        let w ← siteFileClose http w source
        .ok (w, entry, some .headerNotFound)

def queueEntryDownloadNoClobber (fuel : Nat) (w : World η) (entry : QueueEntry) :
    Except Stop (World η × QueueEntry × Option SiteError) := do
  if entry.state.queued then
    let toPath ← given entry.destinationPath
    match ← siteStatOpenMeta http w entry.destinationSite toPath with
    | (w, none) => .ok (w, entry, some .unableToResolvePath)
    | (w, some toMeta) =>
        if toMeta.type = .nothing then copyEntry http fuel w entry
        else .ok (w, entry, some .fileExists)
  else .ok (w, entry, some .queueEntryNotReady)

def queueEntryDownloadMirror (fuel : Nat) (w : World η) (entry : QueueEntry) :
    Except Stop (World η × QueueEntry × Option SiteError) := do
  if entry.state.queued then
    let toPath ← given entry.destinationPath
    match ← siteStatOpenMeta http w entry.destinationSite toPath with
    | (w, none) => .ok (w, entry, some .unableToResolvePath)
    | (w, some _) => copyEntry http fuel w entry
  else .ok (w, entry, some .queueEntryNotReady)

/-- The test of `queueEntryDownloadUpdate` that ends it without a copy. -/
def leavesAsIs (w : World η) (entry : QueueEntry) (toMeta : SiteFileMeta) :
    Except Stop (World η × Bool) :=
  if toMeta.type = .nothing then .ok (w, false)
  else do
    let fromPath ← given entry.sourcePath
    match ← siteStatOpenMeta http w entry.sourceSite fromPath with
    | (w, none) => .ok (w, false)
    | (w, some fromMeta) =>
        if fromMeta.type = .nothing then .ok (w, false)
        else
          match toMeta.modifiedDate, fromMeta.modifiedDate with
          | some t1, some t2 => .ok (w, decide (0 ≤ platformTimeStructCompare t1 t2))
          | _, _ => .error .outOfBounds

def queueEntryDownloadUpdate (fuel : Nat) (w : World η) (entry : QueueEntry) :
    Except Stop (World η × QueueEntry × Option SiteError) := do
  if entry.state.queued then
    let toPath ← given entry.destinationPath
    match ← siteStatOpenMeta http w entry.destinationSite toPath with
    | (w, none) => .ok (w, entry, some .unableToResolvePath)
    | (w, some toMeta) => do
        let (w, asIs) ← leavesAsIs http w entry toMeta
        if asIs then .ok (w, { entry with state := ⟨false, true, entry.state.failed⟩ }, none)
        else copyEntry http fuel w entry
  else .ok (w, entry, some .queueEntryNotReady)

end Download

end Newth.Client.Queue
