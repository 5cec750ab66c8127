import Newth.Client.SiteFile
import Newth.Library.Numeral

namespace Newth.Client.Site

open Newth.Library.ByteString
open Newth.Library.Call
open Newth.Library.Numeral
open Newth.Client.Uri
open Newth.Client.SiteFile

/-- The `httpSiteScheme` functions the dispatch below goes to, over what they keep
of a site. An HTTP site is read only. -/
structure HttpScheme (η : Type) where
  fullUri : η → Bytes
  statOpenMeta : η → Bytes → Except Stop (η × Option SiteFileMeta)
  fileOpenRead : η → Bytes → Except Stop (η × Option SiteError)
  fileOpenMeta : η → Option SiteFileMeta
  fileRead : η → Nat → Except Stop (η × Option Bytes)
  fileAtEnd : η → Bool
  fileClose : η → η

inductive Mounted (η : Type) where
  | file (site : FileSite)
  | http (site : η)
  deriving DecidableEq

/-- Where a `Site *` points: into which block of memory, and at which site of it. -/
structure SitePointer where
  block : Nat
  slot : Nat
  deriving DecidableEq, Repr

structure SiteArray (η : Type) where
  block : Nat
  array : List (Mounted η)
  activeRead : Int
  activeWrite : Int

/-- The mounted sites and the files they work on. -/
structure World (η : Type) where
  disk : Disk
  sites : SiteArray η

variable {η : Type}

section Array

def siteArrayGet (self : SiteArray η) (id : Int) : Option SitePointer :=
  if id < 0 ∨ self.array.length ≤ id then none else some ⟨self.block, id.toNat⟩

def siteArrayActiveGet (self : SiteArray η) : Option SitePointer := siteArrayGet self self.activeRead

def siteArrayActiveGetWrite (self : SiteArray η) : Option SitePointer :=
  siteArrayGet self self.activeWrite

/-- `*site`; a null pointer and one into a block that was given back lead nowhere. -/
def SiteArray.at (self : SiteArray η) : Option SitePointer → Except Stop (Mounted η)
  | none => .error .outOfBounds
  | some p =>
      match self.array[p.slot]? with
      | some site => if p.block = self.block then .ok site else .error .outOfBounds
      | none => .error .outOfBounds

def SiteArray.set (self : SiteArray η) (p : Option SitePointer) (site : Mounted η) : SiteArray η :=
  match p with
  | some p => { self with array := self.array.set p.slot site }
  | none => self

variable (http : HttpScheme η) (gethostbyname : Bytes → Option Bytes)

def uriDetailsGetHostAddr (details : UriDetails) : Option Bytes := details.host.bind gethostbyname

def siteWorkingDirectoryGet : Mounted η → Bytes
  | .file site => site.fullUri
  | .http site => http.fullUri site

/-- The sites from the `i`-th on, as the loop of `SiteArrayGetByUriHostNth` tries them. -/
def getByUriHostFrom (type : UriScheme) (desiredAddress : Option Bytes) (i : Nat) :
    List (Mounted η) → Except Stop (Option Nat)
  | [] => .ok none
  | .file _ :: rest =>
      if type = .file then .ok (some i) else getByUriHostFrom type desiredAddress (i + 1) rest
  | .http site :: rest =>
      if type = .http then
        match uriDetailsGetHostAddr gethostbyname (uriDetailsNewFrom (http.fullUri site)),
          desiredAddress with
        | none, _ => getByUriHostFrom type desiredAddress (i + 1) rest
        -- `strcmp` of an address that was not found
        | some _, none => .error .outOfBounds
        | some siteAddress, some desired =>
            if desired = siteAddress then .ok (some i)
            else getByUriHostFrom type desiredAddress (i + 1) rest
      else getByUriHostFrom type desiredAddress (i + 1) rest

def siteArrayGetByUriHost (self : SiteArray η) (uri : Bytes) :
    Except Stop (Option SitePointer) := do
  let details := uriDetailsNewFrom uri
  let i ← match uriDetailsGetScheme details with
    | .file => getByUriHostFrom http gethostbyname .file none 0 self.array
    | .http =>
        getByUriHostFrom http gethostbyname .http (uriDetailsGetHostAddr gethostbyname details) 0
          self.array
    | _ => .ok none
  .ok (i.map fun i => ⟨self.block, i⟩)

def siteArrayUserPathResolve (array : SiteArray η) (path : Bytes) (write : Bool) :
    Except Stop (Option Bytes) :=
  if (path.head?.map isDecimal).getD false ∧ ascii ':' ∈ path.drop 1 then
    let digits := path.takeWhile isDecimal
    let c := path.drop digits.length
    let l := digits.foldl (fun l d => l * 10 + digitValue d) 0
    if 2 ^ 63 ≤ l then .ok none
    else
      match siteArrayGet array l with
      | none => .ok none
      | some site => do
          let site ← array.at (some site)
          let details := uriDetailsNewFrom (siteWorkingDirectoryGet http site)
          .ok (match uriDetailsCreateStringBase details, c with
            | some r, colon :: c =>
                if colon = ascii ':' ∧ c ≠ [] then some (r ++ c) else none
            | _, _ => none)
  else if (strstr path (text "://")).isSome then
    let details := uriDetailsNewFrom path
    .ok (if details.path.isSome then uriDetailsCreateString details else none)
  else
    match if write then siteArrayActiveGetWrite array else siteArrayActiveGet array with
    | none => .ok none
    | some site => do
        let site ← array.at (some site)
        let d := uriDetailsNewFrom (siteWorkingDirectoryGet http site)
        match d.path with
        | none => .ok none
        | some current => do
            let p ← uriPathAbsoluteAppend current path
            .ok (p.bind fun p => uriDetailsCreateString { d with path := some p })

end Array

section Dispatch

variable (http : HttpScheme η)

def siteStatOpenMeta (w : World η) (p : Option SitePointer) (path : Bytes) :
    Except Stop (World η × Option SiteFileMeta) := do
  match ← w.sites.at p with
  | .file site =>
      let found ← fileSiteSchemeStatOpenMeta w.disk site path
      .ok (w, found)
  | .http site =>
      let (site, found) ← http.statOpenMeta site path
      .ok ({ w with sites := w.sites.set p (.http site) }, found)

def siteFileOpenRead (w : World η) (p : Option SitePointer) (path : Bytes) :
    Except Stop (World η × Option SiteError) := do
  match ← w.sites.at p with
  | .file site =>
      let (disk, site, e) ← fileSiteSchemeFileOpenRead w.disk site path
      .ok (⟨disk, w.sites.set p (.file site)⟩, e)
  | .http site =>
      let (site, e) ← http.fileOpenRead site path
      .ok ({ w with sites := w.sites.set p (.http site) }, e)

def siteFileOpenWrite (w : World η) (p : Option SitePointer) (path : Bytes) :
    Except Stop (World η × Option SiteError) := do
  match ← w.sites.at p with
  | .file site =>
      let (disk, site, e) ← fileSiteSchemeFileOpenWrite w.disk site path
      .ok (⟨disk, w.sites.set p (.file site)⟩, e)
  | .http _ => .ok (w, some .readOnly)

def siteFileOpenMeta (w : World η) (p : Option SitePointer) :
    Except Stop (Option SiteFileMeta) := do
  match ← w.sites.at p with
  | .file site => .ok (site.file.map fun _ => site.fileMeta)
  | .http site => .ok (http.fileOpenMeta site)

/-- The bytes read, or `none` for the result `-1`. -/
def siteFileRead (w : World η) (p : Option SitePointer) (size : Nat) :
    Except Stop (World η × Option Bytes) := do
  match ← w.sites.at p with
  | .file site =>
      let (site, data) ← fileSiteSchemeFileRead w.disk site size
      .ok ({ w with sites := w.sites.set p (.file site) }, some data)
  | .http site =>
      let (site, data) ← http.fileRead site size
      .ok ({ w with sites := w.sites.set p (.http site) }, data)

/-- The number of bytes written, or `none` for the result `-1`. -/
def siteFileWrite (w : World η) (p : Option SitePointer) (data : Bytes) :
    Except Stop (World η × Option Nat) := do
  match ← w.sites.at p with
  | .file site =>
      let (disk, site, written) ← fileSiteSchemeFileWrite w.disk site data
      .ok (⟨disk, w.sites.set p (.file site)⟩, some written)
  | .http _ => .ok (w, none)

def siteFileAtEnd (w : World η) (p : Option SitePointer) : Except Stop Bool := do
  match ← w.sites.at p with
  | .file site => fileSiteSchemeFileAtEnd w.disk site
  | .http site => .ok (http.fileAtEnd site)

/-- `siteFileClose`. For a file site the switch runs on into the HTTP case, which
finds no file open there. -/
def siteFileClose (w : World η) (p : Option SitePointer) : Except Stop (World η) := do
  match ← w.sites.at p with
  | .file site =>
      .ok { w with sites := w.sites.set p (.file (fileSiteSchemeFileClose site)) }
  | .http site => .ok { w with sites := w.sites.set p (.http (http.fileClose site)) }

end Dispatch

end Newth.Client.Site
