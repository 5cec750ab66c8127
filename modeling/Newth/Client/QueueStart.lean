import Newth.Client.QueueUpdate
import Newth.Client.QueueUri

namespace Newth.Client.QueueStart

open Newth.Library.ByteString
open Newth.Library.Call
open Newth.Client.FileCopy
open Newth.Client.Queue
open Newth.Client.QueueUpdate
open Newth.Client.QueueUri (queueEntryGetUri)
open Newth.Client.Site
open Newth.Client.SiteFile

variable {η : Type} {http : HttpScheme η}

section Model

/-- A line that the loops over the queue print. -/
inductive Printed where
  | noQueue
  | downloading (i : Nat) (src dst : Bytes)
  | failed (i : Nat) (e : SiteError)
  deriving DecidableEq, Repr

/-- The loop body for the entry `i`; an entry without its two URIs is passed over. -/
def queueTurn (http : HttpScheme η) (download : Download) (fuel : Nat) (i : Nat) (w : World η)
    (entry : QueueEntry) : Except Stop (World η × QueueEntry × List Printed) := do
  match ← queueEntryGetUri http w.sites entry.sourceSite entry.sourcePath with
  | none => .ok (w, entry, [])
  | some src => do
      match ← queueEntryGetUri http w.sites entry.destinationSite entry.destinationPath with
      | none => .ok (w, entry, [])
      | some dst => do
          let (w, entry, e) ← download.run http fuel w entry
          .ok (w, entry, .downloading i src dst :: (e.map (Printed.failed i)).toList)

def queueFrom (http : HttpScheme η) (download : Download) (fuel : Nat) :
    Nat → World η → List QueueEntry → Except Stop (World η × List QueueEntry × List Printed)
  | _, w, [] => .ok (w, [], [])
  | i, w, entry :: entries => do
      let (w, entry, printed) ← queueTurn http download fuel i w entry
      let (w, entries, later) ← queueFrom http download fuel (i + 1) w entries
      .ok (w, entry :: entries, printed ++ later)

/-- What `QueueStart`, `QueueMirror` and `QueueUpdate` share. -/
def queueDownload (http : HttpScheme η) (download : Download) (fuel : Nat) (w : World η)
    (queueEntryArray : Option (List QueueEntry)) :
    Except Stop (World η × Option (List QueueEntry) × List Printed) :=
  match queueEntryArray with
  | none => .ok (w, none, [.noQueue])
  | some entries => do
      let (w, entries, printed) ← queueFrom http download fuel 0 w entries
      .ok (w, some entries, printed)

def queueStart (http : HttpScheme η) := queueDownload http .noClobber

def queueMirror (http : HttpScheme η) := queueDownload http .mirror

def queueUpdate (http : HttpScheme η) := queueDownload http .update

end Model

section Frames

variable {w w' w'' : World η} {p : Option SitePointer}

theorem at_ok_iff {a : SiteArray η} {q : Option SitePointer} {site : Mounted η} :
    a.at q = .ok site ↔
      ∃ r, q = some r ∧ r.block = a.block ∧ a.array[r.slot]? = some site := by
  cases q with
  | none => simp [SiteArray.at]
  | some r =>
      simp only [SiteArray.at, Option.some.injEq, exists_eq_left']
      cases a.array[r.slot]? with
      | none => simp
      | some found =>
          by_cases hblock : r.block = a.block
          · simp [hblock]
          · simp [hblock]

theorem at_of_set {a : SiteArray η} {q : Option SitePointer} {old new site : Mounted η}
    (hp : a.at p = .ok old) (h : (a.set p new).at q = .ok site) :
    (q = p ∧ site = new) ∨ a.at q = .ok site := by
  obtain ⟨r, rfl, hblock, hold⟩ := at_ok_iff.mp hp
  obtain ⟨r', rfl, hblock', hsite⟩ := at_ok_iff.mp h
  by_cases hslot : r.slot = r'.slot
  · left
    have hlength := (List.getElem?_eq_some_iff.mp hold).1
    simp only [SiteArray.set, ← hslot, List.getElem?_set_self hlength] at hsite hblock'
    refine ⟨?_, (Option.some.inj hsite).symm⟩
    obtain ⟨block, slot⟩ := r
    obtain ⟨block', slot'⟩ := r'
    obtain rfl : block' = block := hblock'.trans hblock.symm
    obtain rfl : slot = slot' := hslot
    rfl
  · right
    exact at_ok_iff.mpr ⟨r', rfl, hblock', (List.getElem?_set_ne hslot).symm.trans hsite⟩

/-- A stretch of work that writes to no file. -/
structure Quiet (w w' : World η) : Prop where
  disk : w'.disk = w.disk
  sites : ∀ q site', w'.sites.at q = .ok (.file site') →
    ∃ site, w.sites.at q = .ok (.file site) ∧ site'.fullUri = site.fullUri ∧
      ∀ file', site'.file = some file' → file'.mode = .wb →
        ∃ file, site.file = some file ∧ file.mode = .wb ∧ file.inode = file'.inode

theorem Quiet.refl (w : World η) : Quiet w w :=
  ⟨rfl, fun _ site h => ⟨site, h, rfl, fun file hfile hmode => ⟨file, hfile, hmode, rfl⟩⟩⟩

theorem Quiet.trans (h : Quiet w w') (h' : Quiet w' w'') : Quiet w w'' := by
  refine ⟨h'.disk.trans h.disk, fun q site'' hat'' => ?_⟩
  obtain ⟨site', hat', huri', hfiles'⟩ := h'.sites q site'' hat''
  obtain ⟨site, hat, huri, hfiles⟩ := h.sites q site' hat'
  refine ⟨site, hat, huri'.trans huri, fun file'' hfile'' hmode'' => ?_⟩
  obtain ⟨file', hfile', hmode', hinode'⟩ := hfiles' file'' hfile'' hmode''
  obtain ⟨file, hfile, hmode, hinode⟩ := hfiles file' hfile' hmode'
  exact ⟨file, hfile, hmode, hinode.trans hinode'⟩

theorem quiet_set_file {site site' : FileSite} (hat : w.sites.at p = .ok (.file site))
    (huri : site'.fullUri = site.fullUri)
    (hfiles : ∀ file', site'.file = some file' → file'.mode = .wb →
      ∃ file, site.file = some file ∧ file.mode = .wb ∧ file.inode = file'.inode) :
    Quiet w { w with sites := w.sites.set p (.file site') } := by
  refine ⟨rfl, fun q found hfound => ?_⟩
  rcases at_of_set hat hfound with ⟨rfl, hsame⟩ | hkept
  · obtain rfl := Mounted.file.inj hsame
    exact ⟨site, hat, huri, hfiles⟩
  · exact (Quiet.refl w).sites q found hkept

theorem quiet_set_http {site site' : η} (hat : w.sites.at p = .ok (.http site)) :
    Quiet w { w with sites := w.sites.set p (.http site') } := by
  refine ⟨rfl, fun q found hfound => ?_⟩
  rcases at_of_set hat hfound with ⟨-, hsame⟩ | hkept
  · simp at hsame
  · exact (Quiet.refl w).sites q found hkept

theorem siteStatOpenMeta_quiet {path : Bytes} {found : Option SiteFileMeta}
    (h : siteStatOpenMeta http w p path = .ok (w', found)) : Quiet w w' := by
  obtain ⟨mounted, hat, h⟩ := bind_eq_ok_iff.mp h
  cases mounted with
  | file site =>
      obtain ⟨found', -, h⟩ := bind_eq_ok_iff.mp h
      obtain ⟨rfl, -⟩ := Prod.mk.inj (Except.ok.inj h)
      exact Quiet.refl w
  | http site =>
      obtain ⟨⟨site', found'⟩, -, h⟩ := bind_eq_ok_iff.mp h
      obtain ⟨rfl, -⟩ := Prod.mk.inj (Except.ok.inj h)
      exact quiet_set_http hat

theorem fileOpen_rb {disk disk' : Disk} {site site' : FileSite} {path : Bytes}
    {e : Option SiteError} (h : fileOpen disk site path .rb = .ok (disk', site', e)) :
    disk' = disk ∧ site'.fullUri = site.fullUri ∧
      ∀ file', site'.file = some file' → file'.mode = .rb := by
  simp only [fileOpen, fileSiteSchemeFileClose] at h
  obtain ⟨full?, -, h⟩ := bind_eq_ok_iff.mp h
  cases full? with
  | none =>
      obtain ⟨rfl, hsite⟩ := Prod.mk.inj (Except.ok.inj h)
      obtain ⟨rfl, -⟩ := Prod.mk.inj hsite
      exact ⟨rfl, rfl, by simp⟩
  | some full =>
      simp only at h
      split at h
      · obtain ⟨rfl, hsite⟩ := Prod.mk.inj (Except.ok.inj h)
        obtain ⟨rfl, -⟩ := Prod.mk.inj hsite
        exact ⟨rfl, rfl, by simp⟩
      · rename_i disk₁ file hfile
        obtain ⟨rfl, hsite⟩ := Prod.mk.inj (Except.ok.inj h)
        obtain ⟨rfl, -⟩ := Prod.mk.inj hsite
        obtain ⟨hdisk, rfl⟩ := platformFileOpen_ok hfile
        refine ⟨hdisk, rfl, fun file' hfile' => ?_⟩
        obtain rfl := Option.some.inj hfile'
        rfl

theorem siteFileOpenRead_quiet {path : Bytes} {e : Option SiteError}
    (h : siteFileOpenRead http w p path = .ok (w', e)) : Quiet w w' := by
  obtain ⟨mounted, hat, h⟩ := bind_eq_ok_iff.mp h
  cases mounted with
  | file site =>
      obtain ⟨⟨disk, site', e'⟩, hopen, h⟩ := bind_eq_ok_iff.mp h
      obtain ⟨rfl, -⟩ := Prod.mk.inj (Except.ok.inj h)
      obtain ⟨rfl, huri, hread⟩ := fileOpen_rb hopen
      refine quiet_set_file hat huri fun file' hfile' hmode => ?_
      rw [hread file' hfile'] at hmode
      contradiction
  | http site =>
      obtain ⟨⟨site', e'⟩, -, h⟩ := bind_eq_ok_iff.mp h
      obtain ⟨rfl, -⟩ := Prod.mk.inj (Except.ok.inj h)
      exact quiet_set_http hat

theorem platformFileRead_same (disk : Disk) (size : Nat) (stream : PlatformFile) :
    (platformFileRead disk size stream).1.mode = stream.mode ∧
      (platformFileRead disk size stream).1.inode = stream.inode := by
  rw [platformFileRead]
  split <;> exact ⟨rfl, rfl⟩

theorem siteFileRead_quiet {size : Nat} {data : Option Bytes}
    (h : siteFileRead http w p size = .ok (w', data)) : Quiet w w' := by
  obtain ⟨mounted, hat, h⟩ := bind_eq_ok_iff.mp h
  cases mounted with
  | file site =>
      obtain ⟨⟨site', data'⟩, hread, h⟩ := bind_eq_ok_iff.mp h
      obtain ⟨rfl, -⟩ := Prod.mk.inj (Except.ok.inj h)
      rw [fileSiteSchemeFileRead] at hread
      split at hread
      · simp at hread
      · rename_i file hfile
        obtain ⟨rfl, -⟩ := Prod.mk.inj (Except.ok.inj hread)
        obtain ⟨hmode, hinode⟩ := platformFileRead_same w.disk size file
        refine quiet_set_file hat rfl fun file' hfile' hwrites => ?_
        obtain rfl := Option.some.inj hfile'
        exact ⟨file, hfile, hmode ▸ hwrites, hinode.symm⟩
  | http site =>
      obtain ⟨⟨site', data'⟩, -, h⟩ := bind_eq_ok_iff.mp h
      obtain ⟨rfl, -⟩ := Prod.mk.inj (Except.ok.inj h)
      exact quiet_set_http hat

theorem siteFileClose_quiet (h : siteFileClose http w p = .ok w') : Quiet w w' := by
  obtain ⟨mounted, hat, h⟩ := bind_eq_ok_iff.mp h
  cases mounted with
  | file site =>
      obtain rfl := Except.ok.inj h
      exact quiet_set_file hat rfl (by simp [fileSiteSchemeFileClose])
  | http site =>
      obtain rfl := Except.ok.inj h
      exact quiet_set_http hat

end Frames

section Writes

variable {w w' w'' : World η} {p : Option SitePointer}

/-- Where the path of a file site leads. -/
def Aims (w : World η) (p : Option SitePointer) (path : Bytes) (i : Nat) : Prop :=
  ∃ site full, w.sites.at p = .ok (.file site) ∧
    resolveToSystemPath site.fullUri path = .ok (some full) ∧ w.disk.inode full = i

/-- A stretch of work that writes to these files only. -/
structure Touches (nodes : Nat → Prop) (w w' : World η) : Prop where
  inode : w'.disk.inode = w.disk.inode
  node : ∀ i, ¬ nodes i → w'.disk.node i = w.disk.node i
  sites : ∀ q site', w'.sites.at q = .ok (.file site') →
    ∃ site, w.sites.at q = .ok (.file site) ∧ site'.fullUri = site.fullUri

theorem Quiet.touches (h : Quiet w w') (nodes : Nat → Prop) : Touches nodes w w' := by
  refine ⟨by rw [h.disk], fun i _ => by rw [h.disk], fun q site' hat => ?_⟩
  obtain ⟨site, hat, huri, -⟩ := h.sites q site' hat
  exact ⟨site, hat, huri⟩

theorem Touches.over {nodes nodes₁ nodes₂ : Nat → Prop} (h : Touches nodes₁ w w')
    (h' : Touches nodes₂ w' w'') (h₁ : ∀ i, nodes₁ i → nodes i)
    (h₂ : ∀ i, w'.disk.node i = w.disk.node i → nodes₂ i → nodes i) : Touches nodes w w'' := by
  refine ⟨h'.inode.trans h.inode, fun i hi => ?_, fun q site'' hat'' => ?_⟩
  · have hsame : w'.disk.node i = w.disk.node i := h.node i fun hin => hi (h₁ i hin)
    exact (h'.node i fun hin => hi (h₂ i hsame hin)).trans hsame
  · obtain ⟨site', hat', huri'⟩ := h'.sites q site'' hat''
    obtain ⟨site, hat, huri⟩ := h.sites q site' hat'
    exact ⟨site, hat, huri'.trans huri⟩

theorem Touches.trans {nodes : Nat → Prop} (h : Touches nodes w w') (h' : Touches nodes w' w'') :
    Touches nodes w w'' :=
  h.over h' (fun _ hi => hi) fun _ _ hi => hi

theorem Touches.mono {nodes nodes' : Nat → Prop} (h : Touches nodes w w')
    (hall : ∀ i, nodes i → nodes' i) : Touches nodes' w w' :=
  ⟨h.inode, fun i hi => h.node i fun hin => hi (hall i hin), h.sites⟩

theorem Touches.aims {nodes : Nat → Prop} (h : Touches nodes w w') {path : Bytes} {i : Nat}
    (haims : Aims w' p path i) : Aims w p path i := by
  obtain ⟨site', full, hat', hfull, hinode⟩ := haims
  obtain ⟨site, hat, huri⟩ := h.sites p site' hat'
  exact ⟨site, full, hat, huri ▸ hfull, h.inode ▸ hinode⟩

/-- What a site has open for writing, if anything, is this file. -/
def WritesTo (p : Option SitePointer) (i : Nat) (w : World η) : Prop :=
  ∀ site, w.sites.at p = .ok (.file site) →
    ∀ file, site.file = some file → file.mode = .wb → file.inode = i

theorem Quiet.writesTo {i : Nat} (h : Quiet w w') (hwrites : WritesTo p i w) : WritesTo p i w' := by
  intro site' hat' file' hfile' hmode'
  obtain ⟨site, hat, -, hfiles⟩ := h.sites p site' hat'
  obtain ⟨file, hfile, hmode, hinode⟩ := hfiles file' hfile' hmode'
  rw [← hinode]
  exact hwrites site hat file hfile hmode

theorem touches_put {site site' : FileSite} {inode : Nat} {disk : Disk}
    (hinode : disk.inode = w.disk.inode) (hnode : ∀ i, i ≠ inode → disk.node i = w.disk.node i)
    (hat : w.sites.at p = .ok (.file site)) (huri : site'.fullUri = site.fullUri) :
    Touches (· = inode) w ⟨disk, w.sites.set p (.file site')⟩ := by
  refine ⟨hinode, hnode, fun q found hfound => ?_⟩
  rcases at_of_set hat hfound with ⟨rfl, hsame⟩ | hkept
  · obtain rfl := Mounted.file.inj hsame
    exact ⟨site, hat, huri⟩
  · exact ⟨found, hkept, rfl⟩

theorem siteFileWrite_touches {i : Nat} {data : Bytes} {written : Option Nat}
    (hwrites : WritesTo p i w) (h : siteFileWrite w p data = .ok (w', written)) :
    Touches (· = i) w w' ∧ WritesTo p i w' := by
  obtain ⟨mounted, hat, h⟩ := bind_eq_ok_iff.mp h
  cases mounted with
  | http site =>
      obtain ⟨rfl, -⟩ := Prod.mk.inj (Except.ok.inj h)
      exact ⟨(Quiet.refl w).touches _, hwrites⟩
  | file site =>
      obtain ⟨⟨disk, site', n⟩, hwrite, h⟩ := bind_eq_ok_iff.mp h
      obtain ⟨rfl, -⟩ := Prod.mk.inj (Except.ok.inj h)
      rw [fileSiteSchemeFileWrite] at hwrite
      split at hwrite
      · simp at hwrite
      · rename_i file hfile
        cases hmode : file.mode with
        | rb =>
            simp only [platformFileWrite, hmode] at hwrite
            obtain ⟨rfl, hsite⟩ := Prod.mk.inj (Except.ok.inj hwrite)
            obtain ⟨rfl, -⟩ := Prod.mk.inj hsite
            have hquiet : Quiet w { w with sites := w.sites.set p (.file { site with
                file := some file }) } := by
              refine quiet_set_file hat rfl fun file' hfile' hmode' => ?_
              exact ⟨file', hfile.trans hfile', hmode', rfl⟩
            exact ⟨hquiet.touches _, hquiet.writesTo hwrites⟩
        | wb =>
            simp only [platformFileWrite, hmode] at hwrite
            obtain ⟨rfl, hsite⟩ := Prod.mk.inj (Except.ok.inj hwrite)
            obtain ⟨rfl, -⟩ := Prod.mk.inj hsite
            obtain rfl := hwrites site hat file hfile hmode
            refine ⟨touches_put rfl (fun i hi => if_neg hi) hat rfl, fun found hfound file' hfile' _ => ?_⟩
            obtain rfl := Mounted.file.inj (Except.ok.inj ((at_set hat _).symm.trans hfound))
            obtain rfl := Option.some.inj hfile'
            rfl

theorem siteFileOpenWrite_touches {path : Bytes} {e : Option SiteError}
    (h : siteFileOpenWrite w p path = .ok (w', e)) :
    Touches (Aims w p path) w w' ∧ (e = none → ∃ i, Aims w p path i ∧ WritesTo p i w') := by
  obtain ⟨mounted, hat, h⟩ := bind_eq_ok_iff.mp h
  cases mounted with
  | http site =>
      obtain ⟨rfl, rfl⟩ := Prod.mk.inj (Except.ok.inj h)
      exact ⟨(Quiet.refl w).touches _, by simp⟩
  | file site =>
      obtain ⟨⟨disk, site', e'⟩, hopen, h⟩ := bind_eq_ok_iff.mp h
      obtain ⟨rfl, rfl⟩ := Prod.mk.inj (Except.ok.inj h)
      simp only [fileSiteSchemeFileOpenWrite, fileOpen, fileSiteSchemeFileClose] at hopen
      obtain ⟨full?, hfull, hopen⟩ := bind_eq_ok_iff.mp hopen
      have hquiet :
          Quiet w { w with sites := w.sites.set p (.file ⟨site.fullUri, none, noMeta⟩) } :=
        quiet_set_file hat rfl (by simp)
      cases full? with
      | none =>
          obtain ⟨rfl, hsite⟩ := Prod.mk.inj (Except.ok.inj hopen)
          obtain ⟨rfl, rfl⟩ := Prod.mk.inj hsite
          exact ⟨hquiet.touches _, by simp⟩
      | some full =>
          simp only at hopen
          split at hopen
          · obtain ⟨rfl, hsite⟩ := Prod.mk.inj (Except.ok.inj hopen)
            obtain ⟨rfl, rfl⟩ := Prod.mk.inj hsite
            exact ⟨hquiet.touches _, by simp⟩
          · rename_i disk₁ file hfile
            obtain ⟨rfl, hsite⟩ := Prod.mk.inj (Except.ok.inj hopen)
            obtain ⟨rfl, rfl⟩ := Prod.mk.inj hsite
            obtain ⟨rfl, rfl⟩ := platformFileOpen_ok hfile
            have haims : Aims w p path (w.disk.inode full) := ⟨site, full, hat, hfull, rfl⟩
            constructor
            · refine Touches.mono (touches_put rfl (fun i hi => if_neg hi) hat rfl) ?_
              rintro i rfl
              exact haims
            · intro _
              refine ⟨w.disk.inode full, haims, fun found hfound file' hfile' _ => ?_⟩
              obtain rfl := Mounted.file.inj (Except.ok.inj ((at_set hat _).symm.trans hfound))
              obtain rfl := Option.some.inj hfile'
              rfl

theorem copyTurn_touches {source : Option SitePointer} {i : Nat}
    {turn : Turn (World η) (World η × Bool)} (hwrites : WritesTo p i w)
    (h : copyTurn http source p w = .ok turn) :
    match turn with
    | .again w' => Touches (· = i) w w' ∧ WritesTo p i w'
    | .leave (w', _) => Touches (· = i) w w' := by
  obtain ⟨⟨w₁, data⟩, hread, h⟩ := bind_eq_ok_iff.mp h
  have hquiet := siteFileRead_quiet hread
  cases data with
  | none =>
      obtain ⟨atEnd, -, h⟩ := bind_eq_ok_iff.mp h
      obtain rfl := Except.ok.inj h
      exact hquiet.touches _
  | some buf =>
      cases buf with
      | nil =>
          obtain rfl := Except.ok.inj h
          exact hquiet.touches _
      | cons c rest =>
          obtain ⟨⟨w₂, written⟩, hwrite, h⟩ := bind_eq_ok_iff.mp h
          obtain ⟨htouches, hstill⟩ := siteFileWrite_touches (hquiet.writesTo hwrites) hwrite
          obtain rfl := Except.ok.inj h
          have hall := (hquiet.touches (· = i)).trans htouches
          cases written with
          | none => exact hall
          | some n => exact ⟨hall, hstill⟩

theorem copy_touches {source : Option SitePointer} {i fuel : Nat} {result : World η × Bool}
    (hwrites : WritesTo p i w) (h : run (copyTurn http source p) fuel w = .ok result) :
    Touches (· = i) w result.1 := by
  refine run_partial (fun w' => Touches (· = i) w w' ∧ WritesTo p i w')
    (fun result => Touches (· = i) w result.1) ?_ ?_ ⟨(Quiet.refl w).touches _, hwrites⟩ h
  · rintro w₁ w₂ ⟨hbefore, hstill⟩ hturn
    obtain ⟨htouches, hlater⟩ := copyTurn_touches hstill hturn
    exact ⟨hbefore.trans htouches, hlater⟩
  · rintro w₁ ⟨w₂, ended⟩ ⟨hbefore, hstill⟩ hturn
    exact hbefore.trans (copyTurn_touches hstill hturn)

end Writes

section Downloads

variable {w w' : World η} {entry entry' : QueueEntry} {download : Download} {fuel : Nat}

/-- A download on the point of writing has written nothing, and goes for the destination. -/
def QuietUntil (w : World η) (entry : QueueEntry) : Progress η → Prop
  | .returns w' entry' _ => Quiet w w' ∧ entry' = entry
  | .opensWrite w' toPath => Quiet w w' ∧ entry.destinationPath = some toPath

theorem copyUntilOpen_quiet {progress : Progress η}
    (h : copyUntilOpen http w entry = .ok progress) : QuietUntil w entry progress := by
  rw [copyUntilOpen] at h
  obtain ⟨fromPath, -, h⟩ := bind_eq_ok_iff.mp h
  obtain ⟨toPath, hto, h⟩ := bind_eq_ok_iff.mp h
  obtain ⟨⟨w₁, e⟩, hopen, h⟩ := bind_eq_ok_iff.mp h
  have hquiet := siteFileOpenRead_quiet hopen
  simp only at h
  split at h
  · obtain rfl := Except.ok.inj h
    exact ⟨hquiet, rfl⟩
  · obtain ⟨found, -, h⟩ := bind_eq_ok_iff.mp h
    split at h
    · obtain rfl := Except.ok.inj h
      exact ⟨hquiet, given_ok hto⟩
    · obtain ⟨w₂, hclose, h⟩ := bind_eq_ok_iff.mp h
      obtain rfl := Except.ok.inj h
      exact ⟨hquiet.trans (siteFileClose_quiet hclose), rfl⟩
    · obtain ⟨w₂, hclose, h⟩ := bind_eq_ok_iff.mp h
      obtain rfl := Except.ok.inj h
      exact ⟨hquiet.trans (siteFileClose_quiet hclose), rfl⟩
    · obtain ⟨w₂, hclose, h⟩ := bind_eq_ok_iff.mp h
      obtain rfl := Except.ok.inj h
      exact ⟨hquiet.trans (siteFileClose_quiet hclose), rfl⟩

/-- The file the destination of an entry leads to. -/
def Destination (w : World η) (entry : QueueEntry) (i : Nat) : Prop :=
  ∃ path, entry.destinationPath = some path ∧ Aims w entry.destinationSite path i

/-- An entry after its turn: as it was, or no longer queued, and finished or failed. -/
inductive Settled (entry : QueueEntry) : QueueEntry → Prop where
  | kept : Settled entry entry
  | finished : entry.state.queued →
      Settled entry { entry with state := ⟨false, true, entry.state.failed⟩ }
  | failed : entry.state.queued →
      Settled entry { entry with state := ⟨false, entry.state.finished, true⟩ }

theorem copyEntry_touches {e : Option SiteError} (hqueued : entry.state.queued)
    (h : copyEntry http fuel w entry = .ok (w', entry', e)) :
    Touches (Destination w entry) w w' ∧ Settled entry entry' := by
  rw [copyEntry_eq] at h
  obtain ⟨progress, huntil, h⟩ := bind_eq_ok_iff.mp h
  have hquiet := copyUntilOpen_quiet huntil
  cases progress with
  | returns w₁ entry₁ e₁ =>
      obtain ⟨rfl, hentry⟩ := Prod.mk.inj (Except.ok.inj h)
      obtain ⟨rfl, -⟩ := Prod.mk.inj hentry
      obtain ⟨hquiet, rfl⟩ := hquiet
      exact ⟨hquiet.touches _, .kept⟩
  | opensWrite w₁ toPath =>
      obtain ⟨hquiet, hto⟩ := hquiet
      obtain ⟨⟨w₂, e₂⟩, hwrite, h⟩ := bind_eq_ok_iff.mp h
      obtain ⟨hopened, hopen⟩ := siteFileOpenWrite_touches hwrite
      have hbefore := hquiet.touches (Destination w entry)
      have haims : ∀ i, Aims w₁ entry.destinationSite toPath i → Destination w entry i :=
        fun i hi => ⟨toPath, hto, hbefore.aims hi⟩
      have hopened := hbefore.trans (hopened.mono haims)
      cases e₂ with
      | some e₂ =>
          obtain ⟨w₃, hclose, h⟩ := bind_eq_ok_iff.mp h
          obtain ⟨rfl, hentry⟩ := Prod.mk.inj (Except.ok.inj h)
          obtain ⟨rfl, -⟩ := Prod.mk.inj hentry
          exact ⟨hopened.trans ((siteFileClose_quiet hclose).touches _), .kept⟩
      | none =>
          obtain ⟨i, hi, hwrites⟩ := hopen rfl
          obtain ⟨⟨w₃, ended⟩, hrun, h⟩ := bind_eq_ok_iff.mp h
          obtain ⟨w₄, hclose₄, h⟩ := bind_eq_ok_iff.mp h
          obtain ⟨w₅, hclose₅, h⟩ := bind_eq_ok_iff.mp h
          have hcopied : Touches (Destination w entry) w₂ w₃ := by
            refine (copy_touches hwrites hrun).mono fun j hj => ?_
            obtain rfl : j = i := hj
            exact haims j hi
          have hclosed := (siteFileClose_quiet hclose₄).trans (siteFileClose_quiet hclose₅)
          have hall := (hopened.trans hcopied).trans (hclosed.touches _)
          cases ended with
          | true =>
              obtain ⟨rfl, hentry⟩ := Prod.mk.inj (Except.ok.inj h)
              obtain ⟨rfl, -⟩ := Prod.mk.inj hentry
              exact ⟨hall, .finished hqueued⟩
          | false =>
              obtain ⟨rfl, hentry⟩ := Prod.mk.inj (Except.ok.inj h)
              obtain ⟨rfl, -⟩ := Prod.mk.inj hentry
              exact ⟨hall, .failed hqueued⟩

theorem leavesAsIs_quiet {toMeta : SiteFileMeta} {asIs : Bool}
    (h : leavesAsIs http w entry toMeta = .ok (w', asIs)) : Quiet w w' := by
  rw [leavesAsIs] at h
  split at h
  · obtain ⟨rfl, -⟩ := Prod.mk.inj (Except.ok.inj h)
    exact Quiet.refl w
  · obtain ⟨fromPath, -, h⟩ := bind_eq_ok_iff.mp h
    obtain ⟨⟨w₁, found⟩, hstat, h⟩ := bind_eq_ok_iff.mp h
    have hquiet := siteStatOpenMeta_quiet hstat
    cases found with
    | none =>
        obtain ⟨rfl, -⟩ := Prod.mk.inj (Except.ok.inj h)
        exact hquiet
    | some fromMeta =>
        simp only at h
        split at h
        · obtain ⟨rfl, -⟩ := Prod.mk.inj (Except.ok.inj h)
          exact hquiet
        · split at h
          · obtain ⟨rfl, -⟩ := Prod.mk.inj (Except.ok.inj h)
            exact hquiet
          · simp at h

theorem node_of_stat {path : Bytes} {toMeta : SiteFileMeta} {i : Nat}
    (hto : entry.destinationPath = some path)
    (hstat : siteStatOpenMeta http w entry.destinationSite path = .ok (w', some toMeta))
    (hnothing : toMeta.type = .nothing) (hi : Destination w entry i) : w.disk.node i = none := by
  obtain ⟨path', hto', site, full, hat, hfull, rfl⟩ := hi
  obtain rfl : path = path' := Option.some.inj (hto.symm.trans hto')
  simp only [siteStatOpenMeta, hat, ok_bind, fileSiteSchemeStatOpenMeta, hfull,
    Option.map_some] at hstat
  obtain ⟨-, hmeta⟩ := Prod.mk.inj (Except.ok.inj hstat)
  obtain rfl := Option.some.inj hmeta
  simp only [fillFileMeta] at hnothing
  split at hnothing
  · assumption
  · contradiction
  · contradiction
  · contradiction

/-- The files a download may write to: of a queued entry, and if it may not overwrite, only one
that is not there. -/
def Writable (download : Download) (w : World η) (entry : QueueEntry) (i : Nat) : Prop :=
  entry.state.queued ∧ Destination w entry i ∧ (download = .noClobber → w.disk.node i = none)

/-- What a download does once the destination of a queued entry is looked up. -/
def overStat (http : HttpScheme η) (fuel : Nat) (entry : QueueEntry) (toMeta : SiteFileMeta)
    (w : World η) : Download → Except Stop (World η × QueueEntry × Option SiteError)
  | .noClobber =>
      if toMeta.type = .nothing then copyEntry http fuel w entry
      else .ok (w, entry, some .fileExists)
  | .mirror => copyEntry http fuel w entry
  | .update => do
      let (w, asIs) ← leavesAsIs http w entry toMeta
      if asIs then .ok (w, { entry with state := ⟨false, true, entry.state.failed⟩ }, none)
      else copyEntry http fuel w entry

theorem run_cases {e : Option SiteError}
    (h : download.run http fuel w entry = .ok (w', entry', e)) :
    Quiet w w' ∧ entry' = entry ∨
      entry.state.queued ∧ ∃ toPath w₁ toMeta, entry.destinationPath = some toPath ∧
        siteStatOpenMeta http w entry.destinationSite toPath = .ok (w₁, some toMeta) ∧
        overStat http fuel entry toMeta w₁ download = .ok (w', entry', e) := by
  cases download
  all_goals
    simp only [Download.run, queueEntryDownloadNoClobber, queueEntryDownloadMirror,
      queueEntryDownloadUpdate] at h
    split at h
    · rename_i hqueued
      obtain ⟨toPath, hto, h⟩ := bind_eq_ok_iff.mp h
      obtain ⟨⟨w₁, found⟩, hstat, h⟩ := bind_eq_ok_iff.mp h
      cases found with
      | none =>
          obtain ⟨rfl, hentry⟩ := Prod.mk.inj (Except.ok.inj h)
          obtain ⟨rfl, -⟩ := Prod.mk.inj hentry
          exact .inl ⟨siteStatOpenMeta_quiet hstat, rfl⟩
      | some toMeta => exact .inr ⟨hqueued, toPath, w₁, toMeta, given_ok hto, hstat, h⟩
    · obtain ⟨rfl, hentry⟩ := Prod.mk.inj (Except.ok.inj h)
      obtain ⟨rfl, -⟩ := Prod.mk.inj hentry
      exact .inl ⟨Quiet.refl w, rfl⟩

theorem run_touches {e : Option SiteError}
    (h : download.run http fuel w entry = .ok (w', entry', e)) :
    Touches (Writable download w entry) w w' ∧ Settled entry entry' := by
  rcases run_cases h with ⟨hquiet, rfl⟩ | ⟨hqueued, toPath, w₁, toMeta, hto, hstat, h⟩
  · exact ⟨hquiet.touches _, .kept⟩
  have hquiet := siteStatOpenMeta_quiet hstat
  have hcopied : ∀ {w₁ : World η}, Quiet w w₁ →
      (∀ i, Destination w entry i → download = .noClobber → w.disk.node i = none) →
      copyEntry http fuel w₁ entry = .ok (w', entry', e) →
      Touches (Writable download w entry) w w' ∧ Settled entry entry' := by
    intro w₁ hquiet hnothing hcopy
    obtain ⟨htouches, hsettled⟩ := copyEntry_touches hqueued hcopy
    have hbefore := hquiet.touches (Writable download w entry)
    refine ⟨hbefore.trans (htouches.mono ?_), hsettled⟩
    rintro i ⟨path, hpath, haims⟩
    have hi : Destination w entry i := ⟨path, hpath, hbefore.aims haims⟩
    exact ⟨hqueued, hi, hnothing i hi⟩
  cases download with
  | noClobber =>
      rw [overStat] at h
      split at h
      · rename_i htype
        exact hcopied hquiet (fun i hi _ => node_of_stat hto hstat htype hi) h
      · obtain ⟨rfl, hentry⟩ := Prod.mk.inj (Except.ok.inj h)
        obtain ⟨rfl, -⟩ := Prod.mk.inj hentry
        exact ⟨hquiet.touches _, .kept⟩
  | mirror => exact hcopied hquiet (by simp) h
  | update =>
      obtain ⟨⟨w₂, asIs⟩, hleaves, h⟩ := bind_eq_ok_iff.mp h
      have hquiet := hquiet.trans (leavesAsIs_quiet hleaves)
      cases asIs with
      | true =>
          obtain ⟨rfl, hentry⟩ := Prod.mk.inj (Except.ok.inj h)
          obtain ⟨rfl, -⟩ := Prod.mk.inj hentry
          exact ⟨hquiet.touches _, .finished hqueued⟩
      | false => exact hcopied hquiet (by simp) h

theorem queueTurn_touches {i : Nat} {printed : List Printed}
    (h : queueTurn http download fuel i w entry = .ok (w', entry', printed)) :
    Touches (Writable download w entry) w w' ∧ Settled entry entry' := by
  have hpassed : (.ok (w, entry, []) : Except Stop (World η × QueueEntry × List Printed)) =
      .ok (w', entry', printed) →
      Touches (Writable download w entry) w w' ∧ Settled entry entry' := by
    intro h
    obtain ⟨rfl, hentry⟩ := Prod.mk.inj (Except.ok.inj h)
    obtain ⟨rfl, -⟩ := Prod.mk.inj hentry
    exact ⟨(Quiet.refl w).touches _, .kept⟩
  obtain ⟨src, -, h⟩ := bind_eq_ok_iff.mp h
  cases src with
  | none => exact hpassed h
  | some src =>
      obtain ⟨dst, -, h⟩ := bind_eq_ok_iff.mp h
      cases dst with
      | none => exact hpassed h
      | some dst =>
          obtain ⟨⟨w₁, entry₁, e⟩, hrun, h⟩ := bind_eq_ok_iff.mp h
          obtain ⟨rfl, hentry⟩ := Prod.mk.inj (Except.ok.inj h)
          obtain ⟨rfl, -⟩ := Prod.mk.inj hentry
          exact run_touches hrun

end Downloads

section Queues

variable {w w' : World η} {entries entries' : List QueueEntry} {download : Download} {fuel : Nat}
  {printed : List Printed}

/-- By induction on the queue: a file one turn leaves alone is left to the later ones as it was. -/
theorem queueFrom_touches {i : Nat}
    (h : queueFrom http download fuel i w entries = .ok (w', entries', printed)) :
    Touches (fun node => ∃ entry ∈ entries, Writable download w entry node) w w' ∧
      List.Forall₂ Settled entries entries' := by
  induction entries generalizing i w entries' printed with
  | nil =>
      obtain ⟨rfl, hentries⟩ := Prod.mk.inj (Except.ok.inj h)
      obtain ⟨rfl, -⟩ := Prod.mk.inj hentries
      exact ⟨(Quiet.refl w).touches _, .nil⟩
  | cons entry entries ih =>
      obtain ⟨⟨w₁, entry₁, printed₁⟩, hturn, h⟩ := bind_eq_ok_iff.mp h
      obtain ⟨⟨w₂, entries₂, later⟩, hfrom, h⟩ := bind_eq_ok_iff.mp h
      obtain ⟨rfl, hentries⟩ := Prod.mk.inj (Except.ok.inj h)
      obtain ⟨rfl, -⟩ := Prod.mk.inj hentries
      obtain ⟨hfirst, hsettled⟩ := queueTurn_touches hturn
      obtain ⟨hlater, hall⟩ := ih hfrom
      refine ⟨hfirst.over hlater (fun node hnode => ⟨entry, List.mem_cons_self, hnode⟩) ?_,
        .cons hsettled hall⟩
      rintro node hsame ⟨other, hother, hqueued, ⟨path, hpath, haims⟩, hnothing⟩
      exact ⟨other, List.mem_cons_of_mem _ hother, hqueued, ⟨path, hpath, hfirst.aims haims⟩,
        fun hmode => hsame ▸ hnothing hmode⟩

/-- Whatever is queued, from whatever sites: only files that queued entries name as their
destinations are written, by `START` only ones that were not there, and every entry is as it was
or settled. -/
theorem queueDownload_writes_destinations
    (h : queueDownload http download fuel w (some entries) = .ok (w', some entries', printed)) :
    (∀ i, w'.disk.node i ≠ w.disk.node i → ∃ entry ∈ entries, entry.state.queued ∧
      Destination w entry i ∧ (download = .noClobber → w.disk.node i = none)) ∧
    List.Forall₂ Settled entries entries' := by
  obtain ⟨⟨w₁, entries₁, printed₁⟩, hfrom, h⟩ := bind_eq_ok_iff.mp h
  obtain ⟨rfl, hentries⟩ := Prod.mk.inj (Except.ok.inj h)
  obtain ⟨hentries, -⟩ := Prod.mk.inj hentries
  obtain rfl := Option.some.inj hentries
  obtain ⟨htouches, hsettled⟩ := queueFrom_touches hfrom
  refine ⟨fun i hchanged => ?_, hsettled⟩
  by_contra hnone
  exact hchanged (htouches.node i hnone)

theorem queueDownload_writes_destinations_aToB :
    ∃ w' entries' printed, queueDownload noHttp .noClobber 1 twoPaths (some [aToB, aToB]) =
        .ok (w', some entries', printed) ∧
      (∀ i, w'.disk.node i ≠ twoPaths.disk.node i → ∃ entry ∈ [aToB, aToB], entry.state.queued ∧
        Destination twoPaths entry i ∧
        (Download.noClobber = .noClobber → twoPaths.disk.node i = none)) ∧
      List.Forall₂ Settled [aToB, aToB] entries' := by
  obtain ⟨w', entries', printed, hrun⟩ : ∃ w' entries' printed,
      queueDownload noHttp .noClobber 1 twoPaths (some [aToB, aToB]) =
        .ok (w', some entries', printed) := ⟨_, _, _, rfl⟩
  exact ⟨w', entries', printed, hrun, queueDownload_writes_destinations hrun⟩

end Queues

end Newth.Client.QueueStart
