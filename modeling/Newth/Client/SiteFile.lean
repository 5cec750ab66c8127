import Newth.Client.Uri

namespace Newth.Client.SiteFile

open Newth.Library.ByteString
open Newth.Library.Call
open Newth.Client.Uri

section Files

structure PlatformTimeStruct where
  year : Int
  mon : Int
  mday : Int
  hour : Int
  min : Int
  sec : Int
  deriving DecidableEq, Repr

/-- `platformTimeStructCompare` of `posix01.c`: positive when the second is later. -/
def platformTimeStructCompare (t1 t2 : PlatformTimeStruct) : Int :=
  let day (t : PlatformTimeStruct) : Int := t.mon * 31 + t.mday
  let second (t : PlatformTimeStruct) : Int := t.hour * 3600 + t.min * 60 + t.sec
  if t1.year < t2.year then 1
  else if t2.year < t1.year then -1
  else if day t1 < day t2 then 1
  else if day t2 < day t1 then -1
  else if second t1 < second t2 then 1
  else if second t2 < second t1 then -1
  else 0

/-- What a path leads to, with the time of its last modification. -/
inductive Node where
  | file (content : Bytes) (modified : PlatformTimeStruct)
  | directory (modified : PlatformTimeStruct)
  | other (modified : PlatformTimeStruct)
  deriving DecidableEq, Repr

/-- The two modes of `fopen` the copies use. -/
inductive FileMode where
  | rb
  | wb
  deriving DecidableEq, Repr

/-- What the file system makes of a write: how many of its bytes `fwrite` does not take, and how
many of those it takes are lost with a flush, be it the one of `fclose`. -/
structure Write where
  short : Nat
  lost : Nat
  deriving DecidableEq, Repr

/-- Nothing of the write is missing in the file. -/
def Write.whole : Write := ⟨0, 0⟩

/-- What is in the file of the bytes that are written. -/
def Write.keeps (write : Write) (data : Bytes) : Bytes :=
  data.take (data.length - write.short - write.lost)

/-- The file system. Two paths may name the same file; `now` is the time a write
leaves in it. `refuses` are the paths `fopen` does not open, and `writes` the writes to come;
those behind them are whole. -/
structure Disk where
  inode : Bytes → Nat
  node : Nat → Option Node
  realPath : Bytes → Option Bytes
  now : PlatformTimeStruct
  refuses : Bytes → FileMode → Bool := fun _ _ => false
  writes : List Write := []

/-- A stream; `lossy` is what `fclose` is going to report, that a flush has not brought into
the file what `fwrite` had taken. -/
structure PlatformFile where
  inode : Nat
  mode : FileMode
  pos : Nat
  lossy : Bool
  deriving DecidableEq, Repr

def Disk.content (disk : Disk) (inode : Nat) : Option Bytes :=
  match disk.node inode with
  | some (.file content _) => some content
  | _ => none

def Disk.put (disk : Disk) (inode : Nat) (content : Bytes) : Disk :=
  { disk with node := fun i => if i = inode then some (.file content disk.now) else disk.node i }

/-- The next write is done. -/
def Disk.nextWrite (disk : Disk) : Disk := { disk with writes := disk.writes.tail }

/-- `fopen`: reading needs something there, and writing makes an empty file of
whatever is there but a directory. -/
def platformFileOpen (disk : Disk) (fileName : Bytes) (mode : FileMode) :
    Option (Disk × PlatformFile) :=
  let inode := disk.inode fileName
  if disk.refuses fileName mode then none
  else
    match mode with
    | .rb => (disk.node inode).map fun _ => (disk, ⟨inode, .rb, 0, false⟩)
    | .wb =>
        match disk.node inode with
        | some (.directory _) => none
        | _ => some (disk.put inode [], ⟨inode, .wb, 0, false⟩)

/-- `fclose`; it tells whether all that was taken is in the file. -/
def platformFileClose (stream : PlatformFile) : Bool := !stream.lossy

/-- `fread`; a file opened for writing, like a directory, gives nothing. -/
def platformFileRead (disk : Disk) (size : Nat) (stream : PlatformFile) : PlatformFile × Bytes :=
  match stream.mode with
  | .rb =>
      let data := (((disk.content stream.inode).getD []).drop stream.pos).take size
      ({ stream with pos := stream.pos + data.length }, data)
  | .wb => (stream, [])

/-- `fwrite`, with what the flushes behind it make of its bytes: nobody reads the file before
it is closed, so the bytes may as well get there at once. -/
def platformFileWrite (disk : Disk) (data : Bytes) (stream : PlatformFile) :
    Disk × PlatformFile × Nat :=
  match stream.mode with
  | .rb => (disk, stream, 0)
  | .wb =>
      let write := disk.writes.headD .whole
      let taken := data.length - write.short
      let kept := write.keeps data
      let old := (disk.content stream.inode).getD []
      let gap := List.replicate (stream.pos - old.length) 0
      let new := old.take stream.pos ++ gap ++ kept ++ old.drop (stream.pos + kept.length)
      ((disk.put stream.inode new).nextWrite,
        { stream with
          pos := stream.pos + kept.length
          lossy := stream.lossy || decide (kept.length < taken) },
        taken)

def platformFileAtEnd (disk : Disk) (stream : PlatformFile) : Bool :=
  ((disk.content stream.inode).getD []).length ≤ stream.pos

@[simp]
theorem content_put (disk : Disk) (inode i : Nat) (content : Bytes) :
    (disk.put inode content).content i = if i = inode then some content else disk.content i := by
  by_cases h : i = inode
  · simp [Disk.content, Disk.put, h]
  · simp [Disk.content, Disk.put, h]

end Files

section Scheme

inductive SiteFileType where
  | unknown
  | nothing
  | directory
  | file
  deriving DecidableEq, Repr

structure SiteFileMeta where
  modifiedDate : Option PlatformTimeStruct
  name : Option Bytes
  path : Option Bytes
  type : SiteFileType
  deriving DecidableEq, Repr

/-- A `SiteFileMeta` of zeros. -/
def noMeta : SiteFileMeta := ⟨none, none, none, .unknown⟩

structure FileSite where
  fullUri : Bytes
  file : Option PlatformFile
  fileMeta : SiteFileMeta
  deriving DecidableEq, Repr

inductive SiteError where
  | fileNotFound
  | isDirectory
  | pathNotResolved
  | fileExists
  | headerNotFound
  | queueEntryNotReady
  | unableToResolvePath
  | addressNotUnderstood
  | readOnly
  | failed
  deriving DecidableEq, Repr

def platformPathSystemToFileScheme (disk : Disk) (path : Bytes) : Option Bytes := do
  let abs ← disk.realPath path
  if abs = [] then none else some (text "file://" ++ abs)

def fillFileMeta (disk : Disk) (path : Bytes) : SiteFileMeta :=
  let path' := platformPathSystemToFileScheme disk path
  let name := path'.bind uriPathLast
  match disk.node (disk.inode path) with
  | none => ⟨none, name, path', .nothing⟩
  | some (.file _ modified) => ⟨some modified, name, path', .file⟩
  | some (.directory modified) => ⟨some modified, name, path', .directory⟩
  | some (.other modified) => ⟨some modified, name, path', .unknown⟩

/-- `ResolveToSystemPath`; `&uri[7]` is the path of a `file://` URI. On POSIX the path
of the scheme is the system's. -/
def resolveToSystemPath (uri path : Bytes) : Except Stop (Option Bytes) :=
  if uri.length < 7 then .error .outOfBounds else uriPathAbsoluteAppend (uri.drop 7) path

/-- `fileSiteSchemeFileClose`; what `platformFileClose` tells is not looked at. -/
def fileSiteSchemeFileClose (self : FileSite) : FileSite :=
  let _ := self.file.map platformFileClose
  { self with file := none, fileMeta := noMeta }

/-- `FileOpen`. -/
def fileOpen (disk : Disk) (self : FileSite) (path : Bytes) (mode : FileMode) :
    Except Stop (Disk × FileSite × Option SiteError) := do
  let self := fileSiteSchemeFileClose self
  match ← resolveToSystemPath self.fullUri path with
  | none => .ok (disk, self, some .pathNotResolved)
  | some fullPath =>
      match platformFileOpen disk fullPath mode with
      | none =>
          .ok (disk, self, some (if disk.refuses fullPath mode then .failed
            else if mode = .rb then .fileNotFound else .isDirectory))
      | some (disk, file) =>
          .ok (disk, { self with file := some file, fileMeta := fillFileMeta disk fullPath }, none)

def fileSiteSchemeStatOpenMeta (disk : Disk) (self : FileSite) (path : Bytes) :
    Except Stop (Option SiteFileMeta) := do
  let fullPath ← resolveToSystemPath self.fullUri path
  .ok (fullPath.map (fillFileMeta disk))

/-- `fileSiteSchemeFileOpenRead` from the start of the file. -/
def fileSiteSchemeFileOpenRead (disk : Disk) (self : FileSite) (path : Bytes) :
    Except Stop (Disk × FileSite × Option SiteError) :=
  fileOpen disk self path .rb

def fileSiteSchemeFileOpenWrite (disk : Disk) (self : FileSite) (path : Bytes) :
    Except Stop (Disk × FileSite × Option SiteError) :=
  fileOpen disk self path .wb

def fileSiteSchemeFileRead (disk : Disk) (self : FileSite) (size : Nat) :
    Except Stop (FileSite × Bytes) :=
  match self.file with
  | none => .error .outOfBounds
  | some file =>
      let (file, data) := platformFileRead disk size file
      .ok ({ self with file := some file }, data)

def fileSiteSchemeFileWrite (disk : Disk) (self : FileSite) (data : Bytes) :
    Except Stop (Disk × FileSite × Nat) :=
  match self.file with
  | none => .error .outOfBounds
  | some file =>
      let (disk, file, written) := platformFileWrite disk data file
      .ok (disk, { self with file := some file }, written)

def fileSiteSchemeFileAtEnd (disk : Disk) (self : FileSite) : Except Stop Bool :=
  match self.file with
  | none => .error .outOfBounds
  | some file => .ok (platformFileAtEnd disk file)

end Scheme

end Newth.Client.SiteFile
