import Newth.Client.SiteFile

namespace Newth.Client.SiteDirectory

open Newth.Library.ByteString
open Newth.Library.Call
open Newth.Client.Uri
open Newth.Client.SiteFile

section Functions

/-- `stat`, with what is there. -/
def platformFileStat (disk : Disk) (path : Bytes) : Option Node := disk.node (disk.inode path)

def platformFileStatIsDirectory : Node → Bool
  | .directory _ => true
  | _ => false

structure PlatformDir where
  path : Bytes
  inode : Nat
  deriving DecidableEq, Repr

/-- `opendir`, which opens directories. -/
def platformDirOpen (disk : Disk) (path : Bytes) : Option PlatformDir :=
  if (platformFileStat disk path).any platformFileStatIsDirectory then some ⟨path, disk.inode path⟩
  else none

/-- The comparison with `FILE:///`, the scheme in either case. -/
def isFileScheme (uri : Bytes) : Bool :=
  (uri.take 4).map toupper = text "FILE" ∧ (uri.drop 4).take 4 = text ":///"

def platformPathFileSchemePathToSystem (path : Bytes) : Bytes := path

def platformPathFileSchemeToSystem (path : Bytes) : Option Bytes :=
  if isFileScheme path then some (platformPathFileSchemePathToSystem (path.drop 7)) else none

inductive Errno where
  | noEntry
  | notDirectory
  deriving DecidableEq, Repr

/-- The site, the value returned and `errno` where it is set. -/
def fileSiteSchemeWorkingDirectorySet (disk : Disk) (self : FileSite) (path : Bytes) :
    Except Stop (FileSite × Int × Option Errno) :=
  if isFileScheme self.fullUri then do
    match ← uriPathAbsoluteAppend (self.fullUri.drop 7) path with
    | none => .ok (self, -1, none)
    | some fullPath =>
        let nativePath := platformPathFileSchemePathToSystem fullPath
        match platformFileStat disk nativePath with
        | none => .ok (self, 1, some .noEntry)
        | some stat =>
            if platformFileStatIsDirectory stat then
              match platformPathSystemToFileScheme disk nativePath with
              | none => .ok (self, -1, none)
              | some fullUri => .ok ({ self with fullUri := fullUri }, 0, none)
            else .ok (self, 1, some .notDirectory)
  else .ok (self, -1, none)

def fileSiteSchemeDirectoryListingOpen (disk : Disk) (self : FileSite) (path : Bytes) :
    Except Stop (Option PlatformDir) := do
  match ← uriPathAbsoluteAppend self.fullUri path with
  | none => .ok none
  | some fullPath =>
      match platformPathFileSchemeToSystem fullPath with
      | none => .ok none
      | some nativePath =>
          match platformFileStat disk nativePath with
          | none => .ok none
          | some stat =>
              if platformFileStatIsDirectory stat then .ok (platformDirOpen disk nativePath)
              else .ok none

end Functions

section Directories

/-- A directory is at the path. -/
def IsDirectory (disk : Disk) (path : Bytes) : Prop :=
  (platformFileStat disk path).any platformFileStatIsDirectory = true

instance (disk : Disk) (path : Bytes) : Decidable (IsDirectory disk path) :=
  inferInstanceAs (Decidable (_ = true))

/-- `realpath` names the directory that is there. -/
def Consistent (disk : Disk) : Prop :=
  ∀ path, IsDirectory disk path →
    ∃ real, disk.realPath path = some real ∧ real ≠ [] ∧ disk.inode real = disk.inode path

/-- A call came back with success and a directory as the working directory. -/
def Enters (disk : Disk) (entered : FileSite × Int × Option Errno) (directory : Nat) : Prop :=
  entered.2.1 = 0 ∧ disk.inode (entered.1.fullUri.drop 7) = directory

/-- Both calls come back, and the directory that is opened is the one that becomes the
working directory. -/
def SameDirectory (disk : Disk) (self : FileSite) (path : Bytes) : Prop :=
  ∃ listing entered, fileSiteSchemeDirectoryListingOpen disk self path = .ok listing ∧
    fileSiteSchemeWorkingDirectorySet disk self path = .ok entered ∧
    ∀ directory, listing.map PlatformDir.inode = some directory ↔ Enters disk entered directory

variable {disk : Disk} {self : FileSite} {base path full : Bytes}

theorem isFileScheme_file (habsolute : base.head? = some (ascii '/')) :
    isFileScheme (text "file://" ++ base) = true := by
  cases base with
  | nil => simp at habsolute
  | cons c rest =>
      obtain rfl : c = ascii '/' := Option.some.inj habsolute
      rfl

theorem append_ne_none (habsolute : base.head? = some (ascii '/')) (path : Bytes) :
    uriPathAbsoluteAppend base path ≠ .ok none := by
  intro hnone
  rw [uriPathAbsoluteAppend] at hnone
  split at hnone
  · simp at hnone
  split at hnone
  · simp at hnone
  split at hnone
  · simp at hnone
  split at hnone
  · simp at hnone
  rw [if_neg (not_not_intro habsolute)] at hnone
  obtain ⟨c, -, hnone⟩ := bind_eq_ok_iff.mp hnone
  obtain ⟨⟨j, r⟩, -, hnone⟩ := bind_eq_ok_iff.mp hnone
  by_cases hshort : r.length < j <;> simp [hshort] at hnone

/-- From the URI there is nowhere to go, and an absolute path has no scheme: all that is
opened is the directory itself. -/
theorem listing_eq (huri : self.fullUri = text "file://" ++ base)
    (habsolute : base.head? = some (ascii '/')) (hup : path ≠ text "..") :
    fileSiteSchemeDirectoryListingOpen disk self path =
      .ok (if path = text "." then platformDirOpen disk base else none) := by
  have hfirst : self.fullUri.head? = some (ascii 'f') := by
    rw [huri]
    rfl
  by_cases hslash : path.head? = some (ascii '/')
  · have hdot : path ≠ text "." := by
      rintro rfl
      exact absurd hslash (by decide)
    have hscheme : isFileScheme path = false := by
      cases path with
      | nil => simp at hslash
      | cons c rest =>
          obtain rfl : c = ascii '/' := Option.some.inj hslash
          refine decide_eq_false fun h => ?_
          exact absurd (List.cons.inj h.1).1 (by decide)
    rw [fileSiteSchemeDirectoryListingOpen, uriPathAbsoluteAppend, if_pos hslash, ok_bind,
      if_neg hdot]
    simp only [platformPathFileSchemeToSystem, hscheme, Bool.false_eq_true, if_false]
  · by_cases hdot : path = text "."
    · have hnative : platformPathFileSchemeToSystem self.fullUri = some base := by
        rw [huri, platformPathFileSchemeToSystem, if_pos (isFileScheme_file habsolute)]
        rfl
      rw [fileSiteSchemeDirectoryListingOpen, uriPathAbsoluteAppend, if_neg hslash, if_pos hdot,
        ok_bind, if_pos hdot]
      simp only [hnative]
      cases hstat : platformFileStat disk base with
      | none => simp [platformDirOpen, hstat]
      | some stat => cases hdir : platformFileStatIsDirectory stat <;> simp [platformDirOpen, hstat, hdir]
    · have htrunk : self.fullUri ≠ text "/" := by
        intro h
        rw [h] at hfirst
        exact absurd hfirst (by decide)
      rw [fileSiteSchemeDirectoryListingOpen, uriPathAbsoluteAppend, if_neg hslash, if_neg hdot,
        if_neg hup, if_neg (fun h => htrunk h.2.2), if_pos (by rw [hfirst]; decide), ok_bind,
        if_neg hdot]

theorem entered_iff (hdisk : Consistent disk) (huri : self.fullUri = text "file://" ++ base)
    (habsolute : base.head? = some (ascii '/'))
    (hfull : uriPathAbsoluteAppend base path = .ok (some full)) :
    ∃ entered, fileSiteSchemeWorkingDirectorySet disk self path = .ok entered ∧
      ∀ directory, Enters disk entered directory ↔
        IsDirectory disk full ∧ disk.inode full = directory := by
  have hscheme : isFileScheme self.fullUri = true := huri ▸ isFileScheme_file habsolute
  have hbase : self.fullUri.drop 7 = base := by
    rw [huri]
    rfl
  rw [fileSiteSchemeWorkingDirectorySet, if_pos hscheme, hbase, hfull, ok_bind]
  simp only [platformPathFileSchemePathToSystem]
  cases hstat : platformFileStat disk full with
  | none =>
      refine ⟨_, rfl, fun directory => ?_⟩
      simp [Enters, IsDirectory, hstat]
  | some stat =>
      simp only
      cases hdir : platformFileStatIsDirectory stat with
      | false =>
          rw [if_neg Bool.false_ne_true]
          refine ⟨_, rfl, fun directory => ?_⟩
          simp [Enters, IsDirectory, hstat, hdir]
      | true =>
          have hthere : IsDirectory disk full := by
            rw [IsDirectory, hstat, Option.any_some, hdir]
          obtain ⟨real, hreal, hne, hinode⟩ := hdisk full hthere
          have hscheme' : platformPathSystemToFileScheme disk full = some (text "file://" ++ real) := by
            simp [platformPathSystemToFileScheme, hreal, hne]
          simp only [hscheme', if_true]
          refine ⟨_, rfl, fun directory => ?_⟩
          have hdrop : (text "file://" ++ real).drop 7 = real := rfl
          simp only [Enters, true_and, hdrop, hinode, hthere]

/-- Listing and changing agree on `.`, and where the path leads from the working directory to
no directory at all. -/
theorem sameDirectory_iff (hdisk : Consistent disk) (huri : self.fullUri = text "file://" ++ base)
    (habsolute : base.head? = some (ascii '/')) :
    SameDirectory disk self path ↔ path = text "." ∨
      ∃ full, uriPathAbsoluteAppend base path = .ok (some full) ∧ ¬ IsDirectory disk full := by
  by_cases hup : path = text ".."
  · subst hup
    have hbehind (current : Bytes) : uriPathAbsoluteAppend current (text "..") = .error .outOfBounds :=
      rfl
    refine iff_of_false ?_ ?_
    · rintro ⟨listing, -, hlisting, -⟩
      rw [fileSiteSchemeDirectoryListingOpen, hbehind] at hlisting
      simp at hlisting
    · rintro (hdot | ⟨full, hfull, -⟩)
      · exact absurd hdot (by decide)
      · rw [hbehind] at hfull
        simp at hfull
  have hlisting := @listing_eq disk self base path huri habsolute hup
  by_cases hdot : path = text "."
  · refine iff_of_true ?_ (.inl hdot)
    have hfull : uriPathAbsoluteAppend base path = .ok (some base) := by
      rw [hdot]
      rfl
    obtain ⟨entered, hcall, hentered⟩ := entered_iff hdisk huri habsolute hfull
    refine ⟨_, entered, hlisting, hcall, fun directory => ?_⟩
    rw [hentered, if_pos hdot, platformDirOpen, IsDirectory]
    split
    · rename_i hthere
      simp [hthere]
    · rename_i habsent
      simp [habsent]
  · rw [if_neg hdot] at hlisting
    cases hcall : uriPathAbsoluteAppend base path with
    | error e =>
        refine iff_of_false ?_ (by simp [hdot])
        rintro ⟨-, entered, -, hentered, -⟩
        have hscheme : isFileScheme self.fullUri = true := huri ▸ isFileScheme_file habsolute
        have hbase : self.fullUri.drop 7 = base := by
          rw [huri]
          rfl
        rw [fileSiteSchemeWorkingDirectorySet, if_pos hscheme, hbase, hcall, error_bind] at hentered
        exact absurd hentered (by simp)
    | ok full =>
        cases full with
        | none => exact absurd hcall (append_ne_none habsolute path)
        | some full =>
            obtain ⟨entered, hset, hentered⟩ := entered_iff hdisk huri habsolute hcall
            simp only [SameDirectory, hlisting, hset, hdot, false_or, Except.ok.injEq,
              Option.some.injEq, exists_eq_left']
            simp [hentered]

/-- A home directory with one for the music in it. -/
def musicDisk : Disk :=
  { inode := fun path =>
      if path = text "/home" then 1 else if path = text "/home/music" then 2 else 0
    node := fun inode => if inode = 0 then none else some (.directory ⟨0, 0, 0, 0, 0, 0⟩)
    realPath := some
    now := ⟨0, 0, 0, 0, 0, 0⟩ }

def homeSite : FileSite := ⟨text "file:///home", none, noMeta⟩

theorem consistent_musicDisk : Consistent musicDisk := by
  intro path hthere
  refine ⟨path, rfl, ?_, rfl⟩
  rintro rfl
  exact absurd hthere (by decide)

theorem sameDirectory_iff_at :
    SameDirectory musicDisk homeSite (text "music") ↔ text "music" = text "." ∨
      ∃ full, uriPathAbsoluteAppend (text "/home") (text "music") = .ok (some full) ∧
        ¬ IsDirectory musicDisk full :=
  sameDirectory_iff consistent_musicDisk rfl rfl

/-- The music can be changed to but not listed. -/
theorem music_not_listed :
    Consistent musicDisk ∧ ¬ SameDirectory musicDisk homeSite (text "music") := by
  refine ⟨consistent_musicDisk, ?_⟩
  rintro ⟨listing, entered, hlisting, hentered, hsame⟩
  have hnone : fileSiteSchemeDirectoryListingOpen musicDisk homeSite (text "music") = .ok none := rfl
  have hmusic : fileSiteSchemeWorkingDirectorySet musicDisk homeSite (text "music") =
      .ok ({ homeSite with fullUri := text "file:///home/music" }, 0, none) := rfl
  obtain rfl := Except.ok.inj (hnone.symm.trans hlisting)
  obtain rfl := Except.ok.inj (hmusic.symm.trans hentered)
  exact absurd ((hsame 2).mpr ⟨rfl, rfl⟩) (by simp)

end Directories

end Newth.Client.SiteDirectory
