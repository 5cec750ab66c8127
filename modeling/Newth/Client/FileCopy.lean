import Newth.Client.Queue

namespace Newth.Client.FileCopy

open Newth.Library.ByteString
open Newth.Library.Call
open Newth.Library.Numeral
open Newth.Client.Uri
open Newth.Client.SiteFile
open Newth.Client.Site
open Newth.Client.Queue

variable {η : Type} {http : HttpScheme η} {gethostbyname : Bytes → Option Bytes}

section Entries

/-- A `file://` URI with a path. -/
def IsFileUri (uri : Bytes) : Prop :=
  uriDetailsGetScheme (uriDetailsNewFrom uri) = .file ∧ (uriDetailsNewFrom uri).path ≠ none

instance (uri : Bytes) : Decidable (IsFileUri uri) := inferInstanceAs (Decidable (_ ∧ _))

theorem not_isDecimal_of_toupper {c : UInt8} (h : toupper c = ascii 'F') :
    isDecimal c = false := by
  rw [Bool.eq_false_iff]
  intro hdigit
  simp only [isDecimal, Bool.and_eq_true, decide_eq_true_eq] at hdigit
  have hsmall : c < ascii 'A' := UInt8.lt_of_le_of_lt hdigit.2 (by decide)
  have hsame : toupper c = c := (toupper_eq_iff hsmall).mpr rfl
  rw [← hsame, h] at hsmall
  exact absurd hsmall (by decide)

theorem userPathResolve_fileUri {array : SiteArray η} {uri : Bytes} (h : IsFileUri uri)
    (write : Bool) : siteArrayUserPathResolve http array uri write = .ok (some uri) := by
  obtain ⟨hfile, hpath⟩ := h
  have hletters := toupper_scheme_of_file hfile
  obtain ⟨path, hpath⟩ := Option.ne_none_iff_exists'.mp hpath
  obtain ⟨scheme, hscheme⟩ : ∃ scheme, (uriDetailsNewFrom uri).scheme = some scheme := by
    apply Option.ne_none_iff_exists'.mp
    intro hnone
    rw [hnone] at hletters
    exact absurd hletters (by decide)
  obtain ⟨len, hfound, htake⟩ := uriDetailsNewFrom_scheme hscheme
  have hdigit : (uri.head?.map isDecimal).getD false = false := by
    rw [hscheme, Option.getD_some, ← htake] at hletters
    cases uri with
    | nil => rfl
    | cons c uri =>
        cases len with
        | zero => exact absurd hletters (by simp [text])
        | succ len => exact not_isDecimal_of_toupper (List.cons.inj hletters).1
  simp only [siteArrayUserPathResolve, hdigit, Bool.false_eq_true, false_and, if_false, hfound,
    Option.isSome_some, if_true, hpath, uriDetailsCreateString_newFrom hscheme hpath]

theorem getByUriHostFrom_file {desired : Option Bytes} {sites : List (Mounted η)} {i j : Nat}
    (h : getByUriHostFrom http gethostbyname .file desired i sites = .ok (some j)) :
    i ≤ j ∧ ∃ site, sites[j - i]? = some (.file site) := by
  induction sites generalizing i with
  | nil => simp [getByUriHostFrom] at h
  | cons mounted sites ih =>
      cases mounted with
      | file site =>
          obtain rfl : i = j := by simpa [getByUriHostFrom] using h
          exact ⟨le_refl i, site, by simp⟩
      | http site =>
          obtain ⟨hle, site', hsite⟩ := ih (by simpa [getByUriHostFrom] using h)
          refine ⟨by omega, site', ?_⟩
          rw [← hsite, show j - i = j - (i + 1) + 1 by omega, List.getElem?_cons_succ]

theorem at_of_getByUriHost_file {array : SiteArray η} {uri : Bytes} {p : SitePointer}
    (hfile : uriDetailsGetScheme (uriDetailsNewFrom uri) = .file)
    (h : siteArrayGetByUriHost http gethostbyname array uri = .ok (some p)) :
    ∃ site, array.at (some p) = .ok (.file site) := by
  simp only [siteArrayGetByUriHost, hfile] at h
  obtain ⟨i, hfrom, hp⟩ := bind_eq_ok_iff.mp h
  obtain ⟨i, rfl, rfl⟩ := Option.map_eq_some_iff.mp (Except.ok.inj hp)
  obtain ⟨-, site, hsite⟩ := getByUriHostFrom_file hfrom
  rw [Nat.sub_zero] at hsite
  refine ⟨site, ?_⟩
  simp only [SiteArray.at, hsite, if_true]

theorem entry_sameSite {array : SiteArray η} {source destination : Bytes} {entry : QueueEntry}
    (hsource : IsFileUri source) (hdestination : IsFileUri destination)
    (hnew : queueEntryNewFromPath http gethostbyname array source (some destination) =
      .ok (.ok entry)) :
    entry.destinationSite = entry.sourceSite ∧
      ∀ p, entry.sourceSite = some p → ∃ site, array.at (some p) = .ok (.file site) := by
  simp only [queueEntryNewFromPath, userPathResolve_fileUri hsource,
    userPathResolve_fileUri hdestination, ok_bind] at hnew
  have hsame : siteArrayGetByUriHost http gethostbyname array destination =
      siteArrayGetByUriHost http gethostbyname array source := by
    simp only [siteArrayGetByUriHost, hsource.1, hdestination.1]
  rw [hsame] at hnew
  obtain ⟨site, hsite, hnew⟩ := bind_eq_ok_iff.mp hnew
  simp only [hsite, ok_bind] at hnew
  obtain rfl := Except.ok.inj (Except.ok.inj hnew)
  refine ⟨rfl, ?_⟩
  rintro p rfl
  exact at_of_getByUriHost_file hsource.1 hsite

end Entries

section Copy

variable {w w' : World η} {p : Option SitePointer} {site : FileSite}

theorem at_set {a : SiteArray η} {old : Mounted η} (h : a.at p = .ok old) (new : Mounted η) :
    (a.set p new).at p = .ok new := by
  cases p with
  | none => simp [SiteArray.at] at h
  | some p =>
      simp only [SiteArray.at] at h
      split at h
      · rename_i site hsite
        have hslot : p.slot < a.array.length := (List.getElem?_eq_some_iff.mp hsite).1
        split at h
        · rename_i hblock
          simp [SiteArray.at, SiteArray.set, hslot, hblock]
        · simp at h
      · simp at h

theorem platformFileOpen_ok {disk disk' : Disk} {fileName : Bytes} {mode : FileMode}
    {file : PlatformFile} (h : platformFileOpen disk fileName mode = some (disk', file)) :
    disk' = (if mode = .wb then disk.put (disk.inode fileName) [] else disk) ∧
      file = ⟨disk.inode fileName, mode, 0, false⟩ := by
  simp only [platformFileOpen] at h
  split at h
  · simp at h
  · cases mode with
    | rb =>
        simp only [Option.map_eq_some_iff, Prod.mk.injEq] at h
        obtain ⟨-, -, rfl, rfl⟩ := h
        exact ⟨rfl, rfl⟩
    | wb =>
        simp only at h
        split at h
        · simp at h
        · obtain ⟨rfl, rfl⟩ := Prod.mk.inj (Option.some.inj h)
          exact ⟨rfl, rfl⟩

theorem fileOpen_ok {disk disk' : Disk} {site' : FileSite} {path : Bytes} {mode : FileMode}
    (h : fileOpen disk site path mode = .ok (disk', site', none)) :
    ∃ full, resolveToSystemPath site.fullUri path = .ok (some full) ∧
      disk' = (if mode = .wb then disk.put (disk.inode full) [] else disk) ∧
      site' = ⟨site.fullUri, some ⟨disk.inode full, mode, 0, false⟩, fillFileMeta disk' full⟩ := by
  simp only [fileOpen, fileSiteSchemeFileClose] at h
  obtain ⟨full?, hfull, hopen⟩ := bind_eq_ok_iff.mp h
  cases full? with
  | none => simp at hopen
  | some full =>
      refine ⟨full, hfull, ?_⟩
      simp only at hopen
      split at hopen
      · simp at hopen
      · rename_i disk₁ file hfile
        obtain ⟨rfl, rfl, -⟩ : disk₁ = disk' ∧ _ = site' ∧ True := by
          simpa only [Except.ok.injEq, Prod.mk.injEq, and_true] using hopen
        obtain ⟨hdisk, rfl⟩ := platformFileOpen_ok hfile
        exact ⟨hdisk, rfl⟩

theorem siteFileOpenRead_file {path : Bytes} (hat : w.sites.at p = .ok (.file site))
    (h : siteFileOpenRead http w p path = .ok (w', none)) :
    ∃ full, resolveToSystemPath site.fullUri path = .ok (some full) ∧ w'.disk = w.disk ∧
      w'.sites.at p = .ok (.file ⟨site.fullUri, some ⟨w.disk.inode full, .rb, 0, false⟩,
        fillFileMeta w.disk full⟩) := by
  simp only [siteFileOpenRead, hat, ok_bind, fileSiteSchemeFileOpenRead] at h
  obtain ⟨⟨disk, site', e⟩, hopen, hw⟩ := bind_eq_ok_iff.mp h
  obtain ⟨rfl, rfl⟩ := Prod.mk.inj (Except.ok.inj hw)
  obtain ⟨full, hfull, rfl, rfl⟩ := fileOpen_ok hopen
  exact ⟨full, hfull, rfl, at_set hat _⟩

theorem siteFileOpenWrite_file {path : Bytes} (hat : w.sites.at p = .ok (.file site))
    (h : siteFileOpenWrite w p path = .ok (w', none)) :
    ∃ full fileMeta, resolveToSystemPath site.fullUri path = .ok (some full) ∧
      w'.disk = w.disk.put (w.disk.inode full) [] ∧
      w'.sites.at p = .ok (.file ⟨site.fullUri, some ⟨w.disk.inode full, .wb, 0, false⟩, fileMeta⟩) := by
  simp only [siteFileOpenWrite, hat, ok_bind, fileSiteSchemeFileOpenWrite] at h
  obtain ⟨⟨disk, site', e⟩, hopen, hw⟩ := bind_eq_ok_iff.mp h
  obtain ⟨rfl, rfl⟩ := Prod.mk.inj (Except.ok.inj hw)
  obtain ⟨full, hfull, rfl, rfl⟩ := fileOpen_ok hopen
  exact ⟨full, _, hfull, rfl, at_set hat _⟩

theorem siteFileClose_file (hat : w.sites.at p = .ok (.file site)) :
    ∃ w', siteFileClose http w p = .ok w' ∧ w'.disk = w.disk ∧
      w'.sites.at p = .ok (.file (fileSiteSchemeFileClose site)) := by
  refine ⟨{ w with sites := w.sites.set p (.file (fileSiteSchemeFileClose site)) }, ?_, rfl,
    at_set hat _⟩
  simp only [siteFileClose, hat, ok_bind]

theorem copyTurn_writing {inode : Nat} {fileMeta : SiteFileMeta} {uri : Bytes}
    (hat : w.sites.at p = .ok (.file ⟨uri, some ⟨inode, .wb, 0, false⟩, fileMeta⟩)) :
    ∃ w', copyTurn http p p w = .ok (.leave (w', true)) ∧ w'.disk = w.disk ∧
      w'.sites.at p = w.sites.at p := by
  refine ⟨{ w with sites := w.sites.set p (.file ⟨uri, some ⟨inode, .wb, 0, false⟩, fileMeta⟩) }, ?_, rfl,
    (at_set hat _).trans hat.symm⟩
  simp only [copyTurn, siteFileRead, hat, ok_bind, fileSiteSchemeFileRead, platformFileRead]

theorem given_ok {path : Option Bytes} {path' : Bytes} (h : given path = .ok path') :
    path = some path' := by
  cases path with
  | none => simp [given] at h
  | some path => exact congrArg some (Except.ok.inj h)

theorem content_of_fillFileMeta {disk : Disk} {path : Bytes}
    (h : (fillFileMeta disk path).type = .file) : (disk.content (disk.inode path)).isSome := by
  simp only [fillFileMeta] at h
  split at h
  · contradiction
  · rename_i content modified hnode
    simp [Disk.content, hnode]
  · contradiction
  · contradiction

/-- A copy within one file site that comes to its end has emptied the destination:
opening it closed the source, and a file opened for writing gives nothing to read. -/
theorem copyEntry_sameSite {fuel : Nat} {entry entry' : QueueEntry}
    (hsame : entry.destinationSite = entry.sourceSite)
    (hat : w.sites.at entry.sourceSite = .ok (.file site))
    (h : copyEntry http fuel w entry = .ok (w', entry', none)) :
    ∃ fromPath toPath fromFull toFull, entry.sourcePath = some fromPath ∧
      entry.destinationPath = some toPath ∧
      resolveToSystemPath site.fullUri fromPath = .ok (some fromFull) ∧
      resolveToSystemPath site.fullUri toPath = .ok (some toFull) ∧
      (w.disk.content (w.disk.inode fromFull)).isSome ∧
      w'.disk = w.disk.put (w.disk.inode toFull) [] ∧
      ∃ site', w'.sites.at entry.sourceSite = .ok (.file site') ∧ site'.fullUri = site.fullUri := by
  simp only [copyEntry, hsame] at h
  obtain ⟨fromPath, hfrom, h⟩ := bind_eq_ok_iff.mp h
  obtain ⟨toPath, hto, h⟩ := bind_eq_ok_iff.mp h
  obtain ⟨⟨w₁, e⟩, hread, h⟩ := bind_eq_ok_iff.mp h
  cases e with
  | some e => simp at h
  | none =>
      obtain ⟨fromFull, hfromFull, hdisk₁, hat₁⟩ := siteFileOpenRead_file hat hread
      simp only [Option.isSome_none, Bool.false_eq_true, if_false, siteFileOpenMeta, hat₁, ok_bind,
        Option.map_some] at h
      split at h
      · rename_i modifiedDate name path hmeta
        have htype := congrArg SiteFileMeta.type (Option.some.inj hmeta)
        obtain ⟨⟨w₂, e⟩, hwrite, h⟩ := bind_eq_ok_iff.mp h
        cases e with
        | some e =>
            obtain ⟨w₃, -, h⟩ := bind_eq_ok_iff.mp h
            simp at h
        | none =>
            obtain ⟨toFull, fileMeta, htoFull, hdisk₂, hat₂⟩ := siteFileOpenWrite_file hat₁ hwrite
            obtain ⟨⟨w₃, ended⟩, hrun, h⟩ := bind_eq_ok_iff.mp h
            obtain ⟨w₃', hturn, hdisk₃, hat₃⟩ := @copyTurn_writing _ http _ _ _ _ _ hat₂
            cases fuel with
            | zero => simp [run] at hrun
            | succ fuel =>
                rw [run_succ_leave fuel hturn] at hrun
                obtain ⟨rfl, rfl⟩ := Prod.mk.inj (Except.ok.inj hrun)
                obtain ⟨w₄, hclose₄, hdisk₄, hat₄⟩ :=
                  @siteFileClose_file _ http _ _ _ (hat₃.trans hat₂)
                obtain ⟨w₅, hclose₅, hdisk₅, hat₅⟩ := @siteFileClose_file _ http _ _ _ hat₄
                simp only [hclose₄, ok_bind, hclose₅, if_true] at h
                obtain ⟨rfl, -⟩ := Prod.mk.inj (Except.ok.inj h)
                refine ⟨fromPath, toPath, fromFull, toFull, given_ok hfrom, given_ok hto, hfromFull,
                  htoFull, content_of_fillFileMeta htype, ?_, _, hat₅, rfl⟩
                rw [hdisk₅, hdisk₄, hdisk₃, hdisk₂, hdisk₁]
      · obtain ⟨w₂, -, h⟩ := bind_eq_ok_iff.mp h
        simp at h
      · obtain ⟨w₂, -, h⟩ := bind_eq_ok_iff.mp h
        simp at h
      · obtain ⟨w₂, -, h⟩ := bind_eq_ok_iff.mp h
        simp at h

end Copy

section Faithful

/-- The content of the file a path of a file site leads to. -/
def fileAt (w : World η) (p : Option SitePointer) (path : Option Bytes) : Option Bytes :=
  match w.sites.at p, path with
  | .ok (.file site), some path =>
      match resolveToSystemPath site.fullUri path with
      | .ok (some full) => w.disk.content (w.disk.inode full)
      | _ => none
  | _, _ => none

/-- The destination holds what the source held, and the source still does. -/
def Faithful (w w' : World η) (entry : QueueEntry) : Prop :=
  ∃ content, fileAt w entry.sourceSite entry.sourcePath = some content ∧
    fileAt w' entry.destinationSite entry.destinationPath = some content ∧
    fileAt w' entry.sourceSite entry.sourcePath = some content

inductive Download where
  | noClobber
  | mirror
  | update
  deriving DecidableEq, Repr

def Download.run (http : HttpScheme η) : Download → Nat → World η → QueueEntry →
    Except Stop (World η × QueueEntry × Option SiteError)
  | .noClobber => queueEntryDownloadNoClobber http
  | .mirror => queueEntryDownloadMirror http
  | .update => queueEntryDownloadUpdate http

/-- An update that ends without a copy, since it takes the destination for new enough. -/
def UpToDate (http : HttpScheme η) (w : World η) (entry : QueueEntry) : Prop :=
  ∃ toPath w₁ toMeta w₂, entry.destinationPath = some toPath ∧
    siteStatOpenMeta http w entry.destinationSite toPath = .ok (w₁, some toMeta) ∧
    leavesAsIs http w₁ entry toMeta = .ok (w₂, true)

theorem siteStatOpenMeta_file {w w' : World η} {p : Option SitePointer} {site : FileSite}
    {path : Bytes} {found : Option SiteFileMeta} (hat : w.sites.at p = .ok (.file site))
    (h : siteStatOpenMeta http w p path = .ok (w', found)) : w' = w := by
  simp only [siteStatOpenMeta, hat, ok_bind] at h
  obtain ⟨found', -, h⟩ := bind_eq_ok_iff.mp h
  exact (Prod.mk.inj (Except.ok.inj h)).1.symm

theorem leavesAsIs_file {w w' : World η} {entry : QueueEntry} {site : FileSite}
    {toMeta : SiteFileMeta} {asIs : Bool} (hat : w.sites.at entry.sourceSite = .ok (.file site))
    (h : leavesAsIs http w entry toMeta = .ok (w', asIs)) : w' = w := by
  rw [leavesAsIs] at h
  split at h
  · exact (Prod.mk.inj (Except.ok.inj h)).1.symm
  · obtain ⟨fromPath, -, h⟩ := bind_eq_ok_iff.mp h
    obtain ⟨⟨w₁, found⟩, hstat, h⟩ := bind_eq_ok_iff.mp h
    obtain rfl := siteStatOpenMeta_file hat hstat
    cases found with
    | none => exact (Prod.mk.inj (Except.ok.inj h)).1.symm
    | some fromMeta =>
        simp only at h
        split at h
        · exact (Prod.mk.inj (Except.ok.inj h)).1.symm
        · split at h
          · exact (Prod.mk.inj (Except.ok.inj h)).1.symm
          · simp at h

theorem download_done {download : Download} {fuel : Nat} {w w' : World η}
    {entry entry' : QueueEntry} (hdone : download.run http fuel w entry = .ok (w', entry', none)) :
    ∃ toPath w₁ toMeta, entry.destinationPath = some toPath ∧
      siteStatOpenMeta http w entry.destinationSite toPath = .ok (w₁, some toMeta) ∧
      (copyEntry http fuel w₁ entry = .ok (w', entry', none) ∨
        (download = .update ∧ ∃ w₂ asIs, leavesAsIs http w₁ entry toMeta = .ok (w₂, asIs) ∧
          (asIs = true ∨ copyEntry http fuel w₂ entry = .ok (w', entry', none)))) := by
  cases download with
  | noClobber =>
      simp only [Download.run, queueEntryDownloadNoClobber] at hdone
      split at hdone
      · obtain ⟨toPath, hto, h⟩ := bind_eq_ok_iff.mp hdone
        obtain ⟨⟨w₁, found⟩, hstat, h⟩ := bind_eq_ok_iff.mp h
        cases found with
        | none => simp at h
        | some toMeta =>
            simp only at h
            split at h
            · exact ⟨toPath, w₁, toMeta, given_ok hto, hstat, .inl h⟩
            · simp at h
      · simp at hdone
  | mirror =>
      simp only [Download.run, queueEntryDownloadMirror] at hdone
      split at hdone
      · obtain ⟨toPath, hto, h⟩ := bind_eq_ok_iff.mp hdone
        obtain ⟨⟨w₁, found⟩, hstat, h⟩ := bind_eq_ok_iff.mp h
        cases found with
        | none => simp at h
        | some toMeta => exact ⟨toPath, w₁, toMeta, given_ok hto, hstat, .inl h⟩
      · simp at hdone
  | update =>
      simp only [Download.run, queueEntryDownloadUpdate] at hdone
      split at hdone
      · obtain ⟨toPath, hto, h⟩ := bind_eq_ok_iff.mp hdone
        obtain ⟨⟨w₁, found⟩, hstat, h⟩ := bind_eq_ok_iff.mp h
        cases found with
        | none => simp at h
        | some toMeta =>
            obtain ⟨⟨w₂, asIs⟩, hasIs, h⟩ := bind_eq_ok_iff.mp h
            refine ⟨toPath, w₁, toMeta, given_ok hto, hstat, .inr ⟨rfl, w₂, asIs, hasIs, ?_⟩⟩
            cases asIs with
            | true => exact .inl rfl
            | false => exact .inr h
      · simp at hdone

theorem download_copies {download : Download} {fuel : Nat} {w w' : World η}
    {entry entry' : QueueEntry} {site : FileSite}
    (hsame : entry.destinationSite = entry.sourceSite)
    (hat : w.sites.at entry.sourceSite = .ok (.file site))
    (hcopies : download = .update → ¬ UpToDate http w entry)
    (hdone : download.run http fuel w entry = .ok (w', entry', none)) :
    copyEntry http fuel w entry = .ok (w', entry', none) := by
  obtain ⟨toPath, w₁, toMeta, hto, hstat, hrest⟩ := download_done hdone
  obtain rfl := siteStatOpenMeta_file (hsame ▸ hat) hstat
  rcases hrest with hcopy | ⟨hupdate, w₂, asIs, hasIs, hcopy⟩
  · exact hcopy
  · obtain rfl := leavesAsIs_file hat hasIs
    rcases hcopy with rfl | hcopy
    · exact absurd ⟨toPath, _, toMeta, _, hto, hstat, hasIs⟩ (hcopies hupdate)
    · exact hcopy

theorem download_null {download : Download} {fuel : Nat} {w w' : World η}
    {entry entry' : QueueEntry} (hnull : entry.destinationSite = none) :
    download.run http fuel w entry ≠ .ok (w', entry', none) := by
  intro hdone
  obtain ⟨toPath, w₁, toMeta, -, hstat, -⟩ := download_done hdone
  have hstop : siteStatOpenMeta http w none toPath = .error .outOfBounds := rfl
  rw [hnull, hstop] at hstat
  contradiction

/-- A copy between two file URIs that comes to its end is faithful just when the
source was empty. -/
theorem fileCopy_faithful_iff {w w' : World η} {source destination : Bytes}
    {entry entry' : QueueEntry} {download : Download} {fuel : Nat}
    (hsource : IsFileUri source) (hdestination : IsFileUri destination)
    (hnew : queueEntryNewFromPath http gethostbyname w.sites source (some destination) =
      .ok (.ok entry))
    (hcopies : download = .update → ¬ UpToDate http w entry)
    (hdone : download.run http fuel w entry = .ok (w', entry', none)) :
    Faithful w w' entry ↔ fileAt w entry.sourceSite entry.sourcePath = some [] := by
  obtain ⟨hsame, hslot⟩ := entry_sameSite hsource hdestination hnew
  cases hsite : entry.sourceSite with
  | none => exact absurd hdone (download_null (hsame.trans hsite))
  | some p =>
      obtain ⟨site, hat⟩ := hslot p hsite
      rw [← hsite] at hat ⊢
      have hcopy := download_copies hsame hat hcopies hdone
      obtain ⟨fromPath, toPath, fromFull, toFull, hfrom, hto, hfromFull, htoFull, hcontent, hdisk,
        site', hat', huri⟩ := copyEntry_sameSite hsame hat hcopy
      obtain ⟨content, hcontent⟩ := Option.isSome_iff_exists.mp hcontent
      have hbefore : fileAt w entry.sourceSite entry.sourcePath = some content := by
        simp only [fileAt, hat, hfrom, hfromFull, hcontent]
      have hemptied : fileAt w' entry.destinationSite entry.destinationPath = some [] := by
        simp only [fileAt, hsame, hat', hto, huri, htoFull, hdisk, content_put]
        exact if_pos rfl
      have hkept : fileAt w' entry.sourceSite entry.sourcePath =
          if w.disk.inode fromFull = w.disk.inode toFull then some [] else some content := by
        simp only [fileAt, hat', hfrom, huri, hfromFull, hdisk, content_put]
        rw [← hcontent]
        rfl
      constructor
      · rintro ⟨content', hsrc, hdst, -⟩
        rw [hemptied] at hdst
        rw [hsrc, hdst]
      · intro hempty
        rw [hbefore] at hempty
        refine ⟨[], hempty ▸ hbefore, hemptied, ?_⟩
        rw [hkept, hempty, ite_self]

/-- One file site, and one file of one byte to copy from. -/
def twoPaths : World Empty :=
  let epoch : PlatformTimeStruct := ⟨70, 0, 1, 0, 0, 0⟩
  { disk :=
      { inode := fun path => if path = text "/a" then 0 else 1
        node := fun inode => if inode = 0 then some (.file (text "x") epoch) else none
        realPath := some
        now := epoch }
    sites := ⟨0, [.file ⟨text "file:///", none, noMeta⟩], 0, 0⟩ }

def noHttp : HttpScheme Empty :=
  ⟨Empty.elim, Empty.elim, Empty.elim, Empty.elim, Empty.elim, Empty.elim, Empty.elim⟩

def aToB : QueueEntry :=
  ⟨some ⟨0, 0⟩, some ⟨0, 0⟩, some (text "/a"), some (text "/b"), ⟨true, false, false⟩⟩

theorem aToB_new : queueEntryNewFromPath noHttp (fun _ => none) twoPaths.sites (text "file:///a")
    (some (text "file:///b")) = .ok (.ok aToB) := by
  rfl

/-- What is in the files after a copy from `/a` to `/b` that finishes. -/
def copyAToB (download : Download) : Option (Option Bytes × Option Bytes) :=
  match download.run noHttp 1 twoPaths aToB with
  | .ok (w', entry', none) =>
      if entry'.state.finished then
        some (fileAt w' aToB.sourceSite aToB.sourcePath,
          fileAt w' aToB.destinationSite aToB.destinationPath)
      else none
  | _ => none

/-- The download finishes, and the destination is not what the source was. -/
def Loses (download : Download) : Prop :=
  ∃ w' entry', download.run noHttp 1 twoPaths aToB = .ok (w', entry', none) ∧
    entry'.state.finished ∧ ¬ Faithful twoPaths w' aToB

theorem loses_of_copyAToB {download : Download} {source destination : Option Bytes}
    (h : copyAToB download = some (source, destination))
    (hne : destination ≠ fileAt twoPaths aToB.sourceSite aToB.sourcePath) : Loses download := by
  rw [copyAToB] at h
  split at h
  · rename_i w' entry' hrun
    split at h
    · rename_i hfinished
      obtain ⟨-, rfl⟩ := Prod.mk.inj (Option.some.inj h)
      refine ⟨w', entry', hrun, hfinished, ?_⟩
      rintro ⟨content, hsource, hdestination, -⟩
      exact hne (hdestination.trans hsource.symm)
    · simp at h
  · simp at h

/-- The byte in `/a` does not arrive in `/b` by any of the three downloads. -/
theorem fileCopy_loses :
    IsFileUri (text "file:///a") ∧ IsFileUri (text "file:///b") ∧
      queueEntryNewFromPath noHttp (fun _ => none) twoPaths.sites (text "file:///a")
        (some (text "file:///b")) = .ok (.ok aToB) ∧
      aToB.sourcePath ≠ aToB.destinationPath ∧
      Loses .noClobber ∧ Loses .mirror ∧ Loses .update := by
  refine ⟨by decide +kernel, by decide +kernel, aToB_new, by decide, ?_, ?_, ?_⟩
  · exact @loses_of_copyAToB .noClobber (some (text "x")) (some []) (by decide +kernel)
      (by decide +kernel)
  · exact @loses_of_copyAToB .mirror (some (text "x")) (some []) (by decide +kernel)
      (by decide +kernel)
  · exact @loses_of_copyAToB .update (some (text "x")) (some []) (by decide +kernel)
      (by decide +kernel)

theorem fileCopy_faithful_aToB :
    ∃ w' entry', Download.run noHttp .mirror 1 twoPaths aToB = .ok (w', entry', none) ∧
      (Faithful twoPaths w' aToB ↔ fileAt twoPaths aToB.sourceSite aToB.sourcePath = some []) := by
  obtain ⟨w', entry', hrun, -, -⟩ :=
    @loses_of_copyAToB .mirror (some (text "x")) (some []) (by decide +kernel) (by decide +kernel)
  exact ⟨w', entry', hrun, fileCopy_faithful_iff (by decide +kernel) (by decide +kernel) aToB_new
    (by simp) hrun⟩

end Faithful

end Newth.Client.FileCopy
