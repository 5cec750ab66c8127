import Newth.Client.FileCopy

namespace Newth.Client.QueueUpdate

open Newth.Library.ByteString
open Newth.Library.Call
open Newth.Client.SiteFile
open Newth.Client.Site
open Newth.Client.Queue

section Dates

/-- The fields of a date as a calendar and a clock have them. -/
structure IsDate (t : PlatformTimeStruct) : Prop where
  mon : 0 ≤ t.mon ∧ t.mon < 12
  mday : 1 ≤ t.mday ∧ t.mday ≤ 31
  hour : 0 ≤ t.hour ∧ t.hour < 24
  min : 0 ≤ t.min ∧ t.min < 60
  sec : 0 ≤ t.sec ∧ t.sec < 60

/-- The fields of a date, the longest unit first. -/
def fields (t : PlatformTimeStruct) : List Int := [t.year, t.mon, t.mday, t.hour, t.min, t.sec]

/-- The first field two dates differ in says which is later. -/
def Later (s t : PlatformTimeStruct) : Prop := fields t < fields s

theorem later_iff {s t : PlatformTimeStruct} : Later s t ↔
    t.year < s.year ∨ t.year = s.year ∧ (t.mon < s.mon ∨ t.mon = s.mon ∧ (t.mday < s.mday ∨
      t.mday = s.mday ∧ (t.hour < s.hour ∨ t.hour = s.hour ∧ (t.min < s.min ∨
        t.min = s.min ∧ t.sec < s.sec)))) := by
  simp [Later, fields, List.cons_lt_cons_iff]

theorem compare_nonneg_iff {s t : PlatformTimeStruct} (hs : IsDate s) (ht : IsDate t) :
    0 ≤ platformTimeStructCompare t s ↔ ¬ Later t s := by
  obtain ⟨hmon, hmday, hhour, hmin, hsec⟩ := hs
  obtain ⟨hmon', hmday', hhour', hmin', hsec'⟩ := ht
  rw [later_iff]
  simp only [platformTimeStructCompare]
  split_ifs with h₁ h₂ h₃ h₄ h₅ h₆
  · omega
  · omega
  · omega
  · omega
  · omega
  · omega
  · omega

theorem eq_of_not_later {s t : PlatformTimeStruct} (hst : ¬ Later s t) (hts : ¬ Later t s) :
    s = t := by
  rw [later_iff] at hst hts
  obtain ⟨year, mon, mday, hour, min, sec⟩ := s
  obtain ⟨year', mon', mday', hour', min', sec'⟩ := t
  simp only [PlatformTimeStruct.mk.injEq]
  simp only at hst hts
  omega

theorem not_later_both {s t : PlatformTimeStruct} (h : Later s t) : ¬ Later t s := by
  rw [later_iff] at h ⊢
  omega

theorem not_later_self (t : PlatformTimeStruct) : ¬ Later t t := by
  rw [later_iff]
  omega

end Dates

section Opening

variable {η : Type} (http : HttpScheme η)

/-- How far a download comes before it writes: it returns, or goes on to open the destination for
writing. -/
inductive Progress (η : Type) where
  | returns (w : World η) (entry : QueueEntry) (e : Option SiteError)
  | opensWrite (w : World η) (toPath : Bytes)

/-- `copyEntry` up to `siteFileOpenWrite`. -/
def copyUntilOpen (w : World η) (entry : QueueEntry) : Except Stop (Progress η) := do
  let fromPath ← given entry.sourcePath
  let toPath ← given entry.destinationPath
  let (w, e) ← siteFileOpenRead http w entry.sourceSite fromPath
  if e.isSome then .ok (.returns w entry e)
  else
    match ← siteFileOpenMeta http w entry.sourceSite with
    | some ⟨_, some _, _, .file⟩ => .ok (.opensWrite w toPath)
    | some ⟨_, some _, _, .nothing⟩ | some ⟨_, some _, _, .directory⟩ => do
        let w ← siteFileClose http w entry.sourceSite
        .ok (.returns w entry (some .isDirectory))
    | _ => do
        let w ← siteFileClose http w entry.sourceSite
        .ok (.returns w entry (some .headerNotFound))

/-- `copyEntry` from `siteFileOpenWrite` on. -/
def copyFromOpen (fuel : Nat) (entry : QueueEntry) :
    Progress η → Except Stop (World η × QueueEntry × Option SiteError)
  | .returns w entry e => .ok (w, entry, e)
  | .opensWrite w toPath => do
      let (w, e) ← siteFileOpenWrite w entry.destinationSite toPath
      if e.isSome then do
        let w ← siteFileClose http w entry.sourceSite
        .ok (w, entry, e)
      else do
        let (w, ended) ← run (copyTurn http entry.sourceSite entry.destinationSite) fuel w
        let w ← siteFileClose http w entry.sourceSite
        let w ← siteFileClose http w entry.destinationSite
        if ended then
          .ok (w, { entry with state := ⟨false, true, entry.state.failed⟩ }, none)
        else
          .ok (w, { entry with state := ⟨false, entry.state.finished, true⟩ }, some .failed)

theorem copyClosed_eq (fuel : Nat) (w : World η) (entry : QueueEntry) (e : SiteError) :
    (do
      let w ← siteFileClose http w entry.sourceSite
      .ok (w, entry, some e)) =
    ((do
      let w ← siteFileClose http w entry.sourceSite
      .ok (.returns w entry (some e))) : Except Stop (Progress η)) >>=
        copyFromOpen http fuel entry := by
  cases siteFileClose http w entry.sourceSite with
  | error stop => rfl
  | ok w => rfl

theorem copyEntry_eq (fuel : Nat) (w : World η) (entry : QueueEntry) :
    copyEntry http fuel w entry = copyUntilOpen http w entry >>= copyFromOpen http fuel entry := by
  rw [copyEntry, copyUntilOpen]
  cases given entry.sourcePath with
  | error stop => rfl
  | ok fromPath =>
      cases given entry.destinationPath with
      | error stop => rfl
      | ok toPath =>
          simp only [ok_bind]
          cases siteFileOpenRead http w entry.sourceSite fromPath with
          | error stop => rfl
          | ok opened =>
              obtain ⟨w, e⟩ := opened
              simp only [ok_bind]
              cases e with
              | some e => rfl
              | none =>
                  simp only [Option.isSome_none, Bool.false_eq_true, if_false]
                  cases siteFileOpenMeta http w entry.sourceSite with
                  | error stop => rfl
                  | ok found =>
                      simp only [ok_bind]
                      rcases found with _ | ⟨date, _ | name, path, type⟩
                      · exact copyClosed_eq http fuel w entry .headerNotFound
                      · exact copyClosed_eq http fuel w entry .headerNotFound
                      · cases type with
                        | unknown => exact copyClosed_eq http fuel w entry .headerNotFound
                        | nothing => exact copyClosed_eq http fuel w entry .isDirectory
                        | directory => exact copyClosed_eq http fuel w entry .isDirectory
                        | file => rfl

/-- `queueEntryDownloadUpdate` up to `siteFileOpenWrite`. -/
def updateUntilOpen (w : World η) (entry : QueueEntry) : Except Stop (Progress η) := do
  if entry.state.queued then
    let toPath ← given entry.destinationPath
    match ← siteStatOpenMeta http w entry.destinationSite toPath with
    | (w, none) => .ok (.returns w entry (some .unableToResolvePath))
    | (w, some toMeta) => do
        let (w, asIs) ← leavesAsIs http w entry toMeta
        if asIs then .ok (.returns w { entry with state := ⟨false, true, entry.state.failed⟩ } none)
        else copyUntilOpen http w entry
  else .ok (.returns w entry (some .queueEntryNotReady))

theorem queueEntryDownloadUpdate_eq (fuel : Nat) (w : World η) (entry : QueueEntry) :
    queueEntryDownloadUpdate http fuel w entry =
      updateUntilOpen http w entry >>= copyFromOpen http fuel entry := by
  rw [queueEntryDownloadUpdate, updateUntilOpen]
  split
  · cases given entry.destinationPath with
    | error stop => rfl
    | ok toPath =>
        simp only [ok_bind]
        cases siteStatOpenMeta http w entry.destinationSite toPath with
        | error stop => rfl
        | ok found =>
            obtain ⟨w, toMeta⟩ := found
            cases toMeta with
            | none => rfl
            | some toMeta =>
                simp only [ok_bind]
                cases leavesAsIs http w entry toMeta with
                | error stop => rfl
                | ok left =>
                    obtain ⟨w, asIs⟩ := left
                    cases asIs with
                    | true => rfl
                    | false =>
                        simp only [ok_bind, Bool.false_eq_true, if_false]
                        exact copyEntry_eq http fuel w entry
  · rfl

end Opening

section Updates

variable {η : Type} {http : HttpScheme η}

/-- An entry that is queued, whose destination is a file last modified at `t` and whose source is
a file last modified at `s` that can be opened. -/
structure Outdated (http : HttpScheme η) (w : World η) (entry : QueueEntry)
    (s t : PlatformTimeStruct) : Prop where
  queued : entry.state.queued = true
  stats : ∃ toPath fromPath w₁ w₂ toMeta fromMeta,
    entry.destinationPath = some toPath ∧ entry.sourcePath = some fromPath ∧
    siteStatOpenMeta http w entry.destinationSite toPath = .ok (w₁, some toMeta) ∧
    toMeta.type = .file ∧ toMeta.modifiedDate = some t ∧
    siteStatOpenMeta http w₁ entry.sourceSite fromPath = .ok (w₂, some fromMeta) ∧
    fromMeta.type = .file ∧ fromMeta.modifiedDate = some s ∧
    ∃ w₃ date name path, siteFileOpenRead http w₂ entry.sourceSite fromPath = .ok (w₃, none) ∧
      siteFileOpenMeta http w₃ entry.sourceSite = .ok (some ⟨date, some name, path, .file⟩)

/-- The destination is opened for writing. -/
def Opens (http : HttpScheme η) (w : World η) (entry : QueueEntry) : Prop :=
  ∃ w' toPath, updateUntilOpen http w entry = .ok (.opensWrite w' toPath)

/-- The update comes back with the entry finished and every file as it was. -/
def LeavesAsIs (http : HttpScheme η) (w : World η) (entry : QueueEntry) : Prop :=
  ∃ w' entry', updateUntilOpen http w entry = .ok (.returns w' entry' none) ∧
    entry'.state.finished = true ∧ w'.disk = w.disk

theorem siteStatOpenMeta_disk {w w' : World η} {p : Option SitePointer} {path : Bytes}
    {found : Option SiteFileMeta} (h : siteStatOpenMeta http w p path = .ok (w', found)) :
    w'.disk = w.disk := by
  rw [siteStatOpenMeta] at h
  obtain ⟨site, -, h⟩ := bind_eq_ok_iff.mp h
  cases site with
  | file site =>
      obtain ⟨found', -, h⟩ := bind_eq_ok_iff.mp h
      rw [← (Prod.mk.inj (Except.ok.inj h)).1]
  | http site =>
      obtain ⟨⟨site', found'⟩, -, h⟩ := bind_eq_ok_iff.mp h
      rw [← (Prod.mk.inj (Except.ok.inj h)).1]

/-- The update opens the destination when its comparison says that the destination is the later
one, and leaves it as it is otherwise. -/
theorem update_of_compare {w : World η} {entry : QueueEntry} {s t : PlatformTimeStruct}
    (h : Outdated http w entry s t) :
    (platformTimeStructCompare t s < 0 → Opens http w entry) ∧
    (0 ≤ platformTimeStructCompare t s → ¬ Opens http w entry ∧ LeavesAsIs http w entry) := by
  obtain ⟨toPath, fromPath, w₁, w₂, toMeta, fromMeta, hto, hfrom, hstatTo, htoType, htoDate,
    hstatFrom, hfromType, hfromDate, w₃, date, name, path, hopen, hmeta⟩ := h.stats
  have hasIs : leavesAsIs http w₁ entry toMeta =
      .ok (w₂, decide (0 ≤ platformTimeStructCompare t s)) := by
    simp only [leavesAsIs, htoType, hfrom, given, hstatFrom, hfromType, htoDate, hfromDate, ok_bind,
      reduceCtorEq, if_false]
  have huntil : updateUntilOpen http w entry =
      if 0 ≤ platformTimeStructCompare t s then
        .ok (.returns w₂ { entry with state := ⟨false, true, entry.state.failed⟩ } none)
      else .ok (.opensWrite w₃ toPath) := by
    simp only [updateUntilOpen, h.queued, if_true, hto, given, hstatTo, hasIs, ok_bind,
      decide_eq_true_eq]
    split
    · rfl
    · simp only [copyUntilOpen, hfrom, hto, given, hopen, hmeta, ok_bind, Option.isSome_none,
        Bool.false_eq_true, if_false]
  constructor
  · intro hless
    rw [if_neg (Int.not_le.mpr hless)] at huntil
    exact ⟨w₃, toPath, huntil⟩
  · intro hnonneg
    rw [if_pos hnonneg] at huntil
    refine ⟨?_, w₂, _, huntil, rfl,
      (siteStatOpenMeta_disk hstatFrom).trans (siteStatOpenMeta_disk hstatTo)⟩
    rintro ⟨w', toPath', hopens⟩
    rw [huntil] at hopens
    simp at hopens

/-- The update overwrites exactly the outdated files only when source and destination are of the
same time: it takes the older for the newer. -/
theorem update_overwrites_outdated_iff {w : World η} {entry : QueueEntry}
    {s t : PlatformTimeStruct} (hs : IsDate s) (ht : IsDate t) (h : Outdated http w entry s t) :
    ((Opens http w entry ↔ Later s t) ∧ (¬ Opens http w entry → LeavesAsIs http w entry)) ↔
      s = t := by
  obtain ⟨hopens, hleaves⟩ := update_of_compare h
  have hcompare := compare_nonneg_iff hs ht
  constructor
  · rintro ⟨hiff, -⟩
    by_cases hless : platformTimeStructCompare t s < 0
    · have hlater : Later s t := hiff.mp (hopens hless)
      have hother : Later t s := by
        by_contra hnot
        exact absurd (hcompare.mpr hnot) (Int.not_le.mpr hless)
      exact absurd hother (not_later_both hlater)
    · have hnonneg := Int.not_lt.mp hless
      apply eq_of_not_later
      · exact fun hlater => (hleaves hnonneg).1 (hiff.mpr hlater)
      · exact hcompare.mp hnonneg
  · rintro rfl
    have hnonneg := hcompare.mpr (not_later_self s)
    obtain ⟨hnot, hsame⟩ := hleaves hnonneg
    exact ⟨iff_of_false hnot (not_later_self s), fun _ => hsame⟩

/-- One site with a file `/a` of one time to copy over a file `/b` of another. -/
def datedPaths (s t : PlatformTimeStruct) : World Empty :=
  { disk :=
      { inode := fun path => if path = text "/a" then 0 else 1
        node := fun inode =>
          if inode = 0 then some (.file (text "x") s)
          else if inode = 1 then some (.file (text "y") t) else none
        realPath := some
        now := s }
    sites := ⟨0, [.file ⟨text "file:///", none, noMeta⟩], 0, 0⟩ }

theorem datedPaths_outdated (s t : PlatformTimeStruct) :
    Outdated FileCopy.noHttp (datedPaths s t) FileCopy.aToB s t :=
  ⟨rfl, text "/b", text "/a", datedPaths s t, datedPaths s t, _, _, rfl, rfl, rfl, rfl, rfl, rfl,
    rfl, rfl, _, _, _, _, rfl, rfl⟩

def newYear : PlatformTimeStruct := ⟨125, 0, 1, 0, 0, 0⟩

def newYearsEve : PlatformTimeStruct := ⟨124, 11, 31, 23, 59, 59⟩

theorem isDate_newYear : IsDate newYear := ⟨by decide, by decide, by decide, by decide, by decide⟩

theorem update_overwrites_outdated_same :
    (Opens FileCopy.noHttp (datedPaths newYear newYear) FileCopy.aToB ↔ Later newYear newYear) ∧
    (¬ Opens FileCopy.noHttp (datedPaths newYear newYear) FileCopy.aToB →
      LeavesAsIs FileCopy.noHttp (datedPaths newYear newYear) FileCopy.aToB) :=
  (update_overwrites_outdated_iff isDate_newYear isDate_newYear
    (datedPaths_outdated newYear newYear)).mpr rfl

/-- A file of last year is not replaced by a newer one, and a newer one is by that of last year. -/
theorem update_takes_older :
    Later newYear newYearsEve ∧
      ¬ Opens FileCopy.noHttp (datedPaths newYear newYearsEve) FileCopy.aToB ∧
    ¬ Later newYearsEve newYear ∧
      Opens FileCopy.noHttp (datedPaths newYearsEve newYear) FileCopy.aToB := by
  refine ⟨?_, ?_, ?_, ?_⟩
  · rw [later_iff]
    decide
  · exact ((update_of_compare (datedPaths_outdated newYear newYearsEve)).2 (by decide)).1
  · rw [later_iff]
    decide
  · exact (update_of_compare (datedPaths_outdated newYearsEve newYear)).1 (by decide)

end Updates

end Newth.Client.QueueUpdate
