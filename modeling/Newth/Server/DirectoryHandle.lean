import Newth.Server.DirectoryListing

namespace Newth.Server.DirectoryHandle

open Newth.Library.ByteString
open Newth.Library.Call
open Newth.Server.DirectoryListing
open Newth.Server.Handlers
open Newth.Server.HttpHeader
open Newth.Server.Routines
open Newth.Server.Sendbufr

section Uses

/-- What is done to a `PlatformDir`: `platformDirRead`, a look at its path, the `free` of
`platformDirEntryGetStats`, and `platformDirClose`. -/
inductive HandleUse where
  | read
  | path
  | free
  | close
  deriving DecidableEq, Repr

def getStatsUses (entry : Entry) : List HandleUse :=
  if entry.stat.isNone then [.path, .free] else [.path]

def isDirectoryUses (entry : Entry) : List HandleUse :=
  if entry.dType.isSome then [] else getStatsUses entry

def entryUses (webPath : Bytes) (entry : Entry) : List HandleUse :=
  if webPath.length + entry.name.length + 3 < bufsiz then
    getStatsUses entry ++ isDirectoryUses entry
  else getStatsUses entry

/-- What `DirectoryRoutineContinue` does to the directory, with `left` visible entries to go.
It never asks whether the directory is still there. -/
def listUses (webPath : Bytes) : List Entry → Nat → List HandleUse
  | _, 0 => []
  | [], _ + 1 => [.read]
  | entry :: rest, left + 1 =>
      .read ::
        if platformDirEntryIsHidden entry then listUses webPath rest (left + 1)
        else entryUses webPath entry ++ listUses webPath rest left

/-- What one round of `RoutineTick` does to the directory of its routine. -/
def roundUses (routine : Routine) (channel : Channel) : List HandleUse :=
  match routine.state, routine.type with
  | .stateContinue, .dir dir =>
      listUses routine.webPath dir.directory.entries 10 ++
        match directoryRoutineContinue routine dir channel with
        | .ok (_, _, 0) => [.close]
        | _ => []
  | .stateFinish, .dir _ | .stateFail, .dir _ => [.close]
  | _, _ => []

/-- The entries a call looks at. -/
def looked (entries : List Entry) (left : Nat) : List Entry := (visible entries).take left

theorem free_mem_entryUses_iff (webPath : Bytes) (entry : Entry) :
    HandleUse.free ∈ entryUses webPath entry ↔ entry.stat = none := by
  have hstats : HandleUse.free ∈ getStatsUses entry ↔ entry.stat = none := by
    cases hstat : entry.stat with
    | none => simp [getStatsUses, hstat]
    | some directory => simp [getStatsUses, hstat]
  have hdirectory : HandleUse.free ∈ isDirectoryUses entry → entry.stat = none := by
    rw [isDirectoryUses]
    split
    · simp
    · exact hstats.mp
  rw [entryUses]
  split
  · rw [List.mem_append, hstats]
    exact or_iff_left_of_imp hdirectory
  · exact hstats

theorem close_notMem_entryUses (webPath : Bytes) (entry : Entry) :
    HandleUse.close ∉ entryUses webPath entry := by
  have hstats : HandleUse.close ∉ getStatsUses entry := by
    rw [getStatsUses]
    split <;> simp
  have hdirectory : HandleUse.close ∉ isDirectoryUses entry := by
    rw [isDirectoryUses]
    split
    · simp
    · exact hstats
  rw [entryUses]
  split
  · rw [List.mem_append, not_or]
    exact ⟨hstats, hdirectory⟩
  · exact hstats

theorem looked_cons_of_hidden {entry : Entry} (h : platformDirEntryIsHidden entry = true)
    (rest : List Entry) (left : Nat) : looked (entry :: rest) left = looked rest left := by
  rw [looked, visible_cons_of_hidden h, looked]

theorem looked_cons_of_shown {entry : Entry} (h : ¬ platformDirEntryIsHidden entry = true)
    (rest : List Entry) (left : Nat) :
    looked (entry :: rest) (left + 1) = entry :: looked rest left := by
  rw [looked, visible_cons_of_shown h, List.take_succ_cons, looked]

/-- A listing frees the directory exactly when it looks at an entry whose `stat` fails. -/
theorem free_mem_listUses_iff (webPath : Bytes) (entries : List Entry) (left : Nat) :
    HandleUse.free ∈ listUses webPath entries left ↔
      ∃ entry ∈ looked entries left, entry.stat = none := by
  induction entries generalizing left with
  | nil => cases left <;> simp [listUses, looked, visible]
  | cons entry rest ih =>
      cases left with
      | zero => simp [listUses, looked]
      | succ left =>
          rw [listUses]
          by_cases hhidden : platformDirEntryIsHidden entry = true
          · rw [if_pos hhidden, looked_cons_of_hidden hhidden, ← ih]
            simp
          · rw [if_neg hhidden, looked_cons_of_shown hhidden, List.mem_cons, List.mem_append,
              free_mem_entryUses_iff, ih]
            simp

theorem close_notMem_listUses (webPath : Bytes) (entries : List Entry) (left : Nat) :
    HandleUse.close ∉ listUses webPath entries left := by
  induction entries generalizing left with
  | nil => cases left <;> simp [listUses]
  | cons entry rest ih =>
      cases left with
      | zero => simp [listUses]
      | succ left =>
          rw [listUses, List.mem_cons, not_or]
          refine ⟨by simp, ?_⟩
          split
          · exact ih (left + 1)
          · rw [List.mem_append, not_or]
            exact ⟨close_notMem_entryUses webPath entry, ih left⟩

theorem listEntry_live {webPath : Bytes} {entry : Entry} {s s' : Listing}
    (hlive : s.dir.directory.live = true) (hstat : entry.stat ≠ none)
    (h : listEntry webPath entry s = .ok s') : s'.dir.directory.live = true := by
  obtain ⟨directory, hdirectory⟩ := Option.ne_none_iff_exists'.mp hstat
  have hstats : platformDirEntryGetStats entry s.dir.directory =
      .ok (s.dir.directory, some directory) := by
    simp [platformDirEntryGetStats, hlive, hdirectory]
  have hkind : platformDirEntryIsDirectory entry s.dir.directory =
      .ok (s.dir.directory, entry.dType.getD directory) := by
    rw [platformDirEntryIsDirectory]
    cases entry.dType with
    | none =>
        rw [hstats]
        rfl
    | some kind => rfl
  rw [listEntry, hstats, ok_bind] at h
  simp only [hkind, ok_bind] at h
  split at h
  · obtain ⟨buffer, -, h⟩ := bind_eq_ok_iff.mp h
    obtain rfl := Except.ok.inj h
    exact hlive
  · obtain rfl := Except.ok.inj h
    exact hlive

theorem listEntries_live {webPath : Bytes} {entries : List Entry} {left : Nat} {s : Listing}
    {result : Listing × Nat} (hlive : s.dir.directory.live = true)
    (hstat : ∀ entry ∈ looked entries left, entry.stat ≠ none)
    (h : listEntries webPath entries left s = .ok result) :
    result.1.dir.directory.live = true := by
  have hturns := listEntries_turns h
  clear h
  induction hturns with
  | full => exact hlive
  | ended => exact hlive
  | hidden live hidden later ih =>
      rw [looked_cons_of_hidden hidden] at hstat
      exact ih rfl hstat
  | listed live shown listed later ih =>
      rw [looked_cons_of_shown shown] at hstat
      have hentry := listEntry_live rfl (hstat _ List.mem_cons_self) listed
      exact ih hentry fun e he => hstat e (List.mem_cons_of_mem _ he)

end Uses

section Life

/-- Who has the directory: a routine of the array, nobody after its removal, or nobody
because the server has stopped. -/
inductive Owner where
  | held (routine : Routine)
  | removed
  | stopped

/-- A directory from `platformDirOpen` on. -/
structure Life where
  owner : Owner
  uses : List HandleUse

/-- Once `platformDirOpen` has opened the directory, `handleDir` hands it to the routine it
adds, or closes it at `handleDirAbort`. -/
def opened (world : World) (absolutePath : Bytes) (handled : Handled) : Option Life :=
  (world.dirOpen absolutePath).map fun _ =>
    match handled.added with
    | some routine => ⟨.held routine, []⟩
    | none => ⟨.removed, [.close]⟩

/-- What happens to a routine: a round of `RoutineTick`, and `RoutineArrayDelSocket` when
its connection is closed. -/
inductive LifeEvent where
  | round (deferred : List Nat) (channel : Channel)
  | delSocket

def live (life : Life) : LifeEvent → Life
  | .round deferred channel =>
      match life.owner with
      | .held routine =>
          let uses := life.uses ++ roundUses routine channel
          match advance deferred routine channel with
          | .ok t => ⟨if t.kept then .held t.routine else .removed, uses⟩
          | .error _ => ⟨.stopped, uses⟩
      | _ => life
  | .delSocket =>
      match life.owner with
      | .held _ => ⟨.removed, life.uses ++ [.close]⟩
      | _ => life

/-- Nothing is released. -/
def Unreleased (uses : List HandleUse) : Prop := .free ∉ uses ∧ .close ∉ uses

/-- The directory is released once, by `platformDirClose`, when its routine is removed, and
not used after that. -/
def OneRelease (life : Life) : Prop :=
  match life.owner with
  | .removed => ∃ uses, life.uses = uses ++ [.close] ∧ Unreleased uses
  | _ => Unreleased life.uses

/-- The routine does not come to an entry whose `stat` fails. -/
def Statable (life : Life) : LifeEvent → Prop
  | .round _ _ => ∀ routine dir, life.owner = .held routine → routine.state = .stateContinue →
      routine.type = .dir dir → ∀ entry ∈ looked dir.directory.entries 10, entry.stat ≠ none
  | .delSocket => True

def AllStatable : Life → List LifeEvent → Prop
  | _, [] => True
  | life, event :: events => Statable life event ∧ AllStatable (live life event) events

/-- A directory not given up yet is there. -/
def Sound (life : Life) : Prop :=
  OneRelease life ∧ ∀ routine, life.owner = .held routine →
    ∃ dir, routine.type = .dir dir ∧ dir.directory.live = true

theorem advance_dir {deferred : List Nat} {routine : Routine} {dir : DirectoryRoutine}
    {channel : Channel} (htype : routine.type = .dir dir) :
    (routine.state = .stateContinue ∧ advance deferred routine channel =
      (directoryRoutineContinue routine dir channel >>= fun result =>
        if result.2.2 ≠ 0 then .ok ⟨result.1, result.2.1, deferred, true⟩
        else retire deferred result.1 result.2.1)) ∨
    ((routine.state = .stateFinish ∨ routine.state = .stateFail) ∧
      advance deferred routine channel = retire deferred routine channel) ∨
    ((routine.state = .stateDefer ∨ routine.state = .stateFlush) ∧
      ∃ t, advance deferred routine channel = .ok t ∧ t.kept = true ∧
        t.routine.type = routine.type) := by
  cases hstate : routine.state with
  | stateContinue =>
      refine .inl ⟨rfl, ?_⟩
      rw [advance]
      simp only [hstate, htype]
  | stateFinish =>
      refine .inr (.inl ⟨.inl rfl, ?_⟩)
      rw [advance]
      simp only [hstate]
  | stateFail =>
      refine .inr (.inl ⟨.inr rfl, ?_⟩)
      rw [advance]
      simp only [hstate]
  | stateDefer =>
      refine .inr (.inr ⟨.inl rfl, ?_⟩)
      rw [advance]
      simp only [hstate]
      split
      · exact ⟨_, rfl, rfl, rfl⟩
      · split
        · exact ⟨_, rfl, rfl, rfl⟩
        · split
          · exact ⟨_, rfl, rfl, rfl⟩
          · split <;> exact ⟨_, rfl, rfl, rfl⟩
  | stateFlush =>
      refine .inr (.inr ⟨.inr rfl, ?_⟩)
      rw [advance]
      simp only [hstate]
      split
      · split <;> exact ⟨_, rfl, rfl, rfl⟩
      · exact ⟨_, rfl, rfl, rfl⟩

theorem directoryRoutineContinue_live {routine routine' : Routine} {dir : DirectoryRoutine}
    {channel channel' : Channel} {n : Nat} (hlive : dir.directory.live = true)
    (hstat : ∀ entry ∈ looked dir.directory.entries 10, entry.stat ≠ none)
    (h : directoryRoutineContinue routine dir channel = .ok (routine', channel', n)) :
    ∃ dir', routine'.type = .dir dir' ∧ dir'.directory.live = true := by
  rw [directoryRoutineContinue] at h
  obtain ⟨⟨s, m⟩, hs, h⟩ := bind_eq_ok_iff.mp h
  obtain ⟨rfl, -⟩ := Prod.mk.inj (Except.ok.inj h)
  exact ⟨s.dir, rfl, listEntries_live hlive hstat hs⟩

theorem retire_live {deferred : List Nat} {routine : Routine} {dir : DirectoryRoutine}
    {channel : Channel} (htype : routine.type = .dir dir) (hlive : dir.directory.live = true) :
    ∃ t, retire deferred routine channel = .ok t ∧ t.kept = false := by
  refine ⟨⟨routine, channel, deferred.filter (· ≠ routine.socketBuffer.clientSocket), false⟩, ?_,
    rfl⟩
  simp [retire, routineFree, htype, platformDirClose, hlive]

theorem Unreleased.append {uses uses' : List HandleUse} (h : Unreleased uses)
    (h' : Unreleased uses') : Unreleased (uses ++ uses') := by
  constructor
  · rw [List.mem_append, not_or]
    exact ⟨h.1, h'.1⟩
  · rw [List.mem_append, not_or]
    exact ⟨h.2, h'.2⟩

theorem unreleased_nil : Unreleased [] := ⟨by simp, by simp⟩

theorem sound_removed {uses uses' : List HandleUse} (h : Unreleased uses)
    (h' : Unreleased uses') : Sound ⟨.removed, uses ++ (uses' ++ [.close])⟩ :=
  ⟨⟨uses ++ uses', by rw [List.append_assoc], h.append h'⟩, by simp⟩

theorem sound_held {uses uses' : List HandleUse} {routine : Routine} {dir : DirectoryRoutine}
    (h : Unreleased uses) (h' : Unreleased uses') (htype : routine.type = .dir dir)
    (hlive : dir.directory.live = true) : Sound ⟨.held routine, uses ++ uses'⟩ := by
  refine ⟨h.append h', ?_⟩
  intro routine' howner
  obtain rfl : routine = routine' := by simpa using howner
  exact ⟨dir, htype, hlive⟩

theorem sound_step {life : Life} {event : LifeEvent} (h : Sound life)
    (hstatable : Statable life event) : Sound (live life event) := by
  obtain ⟨owner, uses⟩ := life
  cases owner with
  | removed => cases event <;> exact h
  | stopped => cases event <;> exact h
  | held routine =>
      obtain ⟨hone, hheld⟩ := h
      obtain ⟨dir, htype, hlive⟩ := hheld routine rfl
      cases event with
      | delSocket => exact @sound_removed uses [] hone unreleased_nil
      | round deferred channel =>
          simp only [live]
          rcases @advance_dir deferred routine dir channel htype with
            ⟨hstate, hadvance⟩ | ⟨hstate, hadvance⟩ | ⟨hstate, t, hadvance, hkept, hsame⟩
          · have hstat := hstatable routine dir rfl hstate htype
            have hlist : HandleUse.free ∉ listUses routine.webPath dir.directory.entries 10 := by
              rw [free_mem_listUses_iff]
              rintro ⟨entry, hentry, hnone⟩
              exact hstat entry hentry hnone
            have hclose := close_notMem_listUses routine.webPath dir.directory.entries 10
            rw [hadvance]
            cases hcontinue : directoryRoutineContinue routine dir channel with
            | error stop =>
                have huses : roundUses routine channel =
                    listUses routine.webPath dir.directory.entries 10 := by
                  simp [roundUses, hstate, htype, hcontinue]
                rw [huses, error_bind]
                exact ⟨hone.append ⟨hlist, hclose⟩, by simp⟩
            | ok result =>
                obtain ⟨routine', channel', n⟩ := result
                obtain ⟨dir', htype', hlive'⟩ := directoryRoutineContinue_live hlive hstat hcontinue
                rw [ok_bind]
                by_cases hn : n = 0
                · have huses : roundUses routine channel =
                      listUses routine.webPath dir.directory.entries 10 ++ [.close] := by
                    simp [roundUses, hstate, htype, hcontinue, hn]
                  obtain ⟨t, ht, hkept⟩ := @retire_live deferred _ _ channel' htype' hlive'
                  rw [huses, if_neg (not_not_intro hn), ht]
                  simp only [hkept]
                  exact sound_removed hone ⟨hlist, hclose⟩
                · have huses : roundUses routine channel =
                      listUses routine.webPath dir.directory.entries 10 := by
                    simp [roundUses, hstate, htype, hcontinue, hn]
                  rw [huses, if_pos hn]
                  exact sound_held hone ⟨hlist, hclose⟩ htype' hlive'
          · obtain ⟨t, ht, hkept⟩ := @retire_live deferred _ _ channel htype hlive
            have huses : roundUses routine channel = [] ++ [.close] := by
              rcases hstate with hstate | hstate <;> simp [roundUses, hstate, htype]
            rw [hadvance, ht, huses]
            simp only [hkept]
            exact sound_removed hone unreleased_nil
          · have huses : roundUses routine channel = [] := by
              rcases hstate with hstate | hstate <;> simp [roundUses, hstate]
            rw [hadvance, huses]
            simp only [hkept, if_true]
            exact sound_held hone unreleased_nil (hsame.trans htype) hlive

theorem free_of_not_statable {life : Life} {event : LifeEvent} (h : ¬ Statable life event) :
    .free ∈ (live life event).uses := by
  cases event with
  | delSocket => exact absurd trivial h
  | round deferred channel =>
      simp only [Statable] at h
      push Not at h
      obtain ⟨routine, dir, howner, hstate, htype, entry, hentry, hnone⟩ := h
      have hlist : HandleUse.free ∈ listUses routine.webPath dir.directory.entries 10 := by
        rw [free_mem_listUses_iff]
        exact ⟨entry, hentry, hnone⟩
      have huses : HandleUse.free ∈ life.uses ++ roundUses routine channel := by
        rw [roundUses, hstate, htype]
        exact List.mem_append_right _ (List.mem_append_left _ hlist)
      simp only [live, howner]
      split <;> exact huses

theorem free_mem_live {life : Life} (event : LifeEvent) (h : .free ∈ life.uses) :
    .free ∈ (live life event).uses := by
  cases event with
  | delSocket =>
      simp only [live]
      split
      · exact List.mem_append_left _ h
      · exact h
  | round deferred channel =>
      simp only [live]
      split
      · split <;> exact List.mem_append_left _ h
      · exact h

theorem free_notMem_of_oneRelease {life : Life} (h : OneRelease life) : .free ∉ life.uses := by
  obtain ⟨owner, uses⟩ := life
  cases owner with
  | held routine => exact h.1
  | stopped => exact h.1
  | removed =>
      obtain ⟨uses', rfl, hfree, -⟩ := h
      rw [List.mem_append, not_or]
      exact ⟨hfree, by simp⟩

theorem oneRelease_iff {life : Life} (h : Sound life) (events : List LifeEvent) :
    OneRelease (events.foldl live life) ↔ AllStatable life events := by
  induction events generalizing life with
  | nil => exact ⟨fun _ => trivial, fun _ => h.1⟩
  | cons event events ih =>
      rw [List.foldl_cons, AllStatable]
      by_cases hstatable : Statable life event
      · rw [ih (sound_step h hstatable)]
        simp only [hstatable, true_and]
      · have hfree : ∀ (events : List LifeEvent) (life : Life), .free ∈ life.uses →
            .free ∈ (events.foldl live life).uses := by
          intro events
          induction events with
          | nil => exact fun _ hmem => hmem
          | cons event events ih => exact fun life hmem => ih _ (free_mem_live event hmem)
        constructor
        · intro hone
          have hmem := hfree events _ (free_of_not_statable hstatable)
          exact absurd hmem (free_notMem_of_oneRelease hone)
        · exact fun hall => absurd hall.1 hstatable

theorem sound_opened {world : World} {clientSocket : Nat} {channel : Channel}
    {webPath absolutePath : Bytes} {type : HttpType} {st : FileStat} {handled : Handled}
    (h : handleDir world clientSocket channel webPath absolutePath type st = .ok handled)
    {life : Life} (hopened : opened world absolutePath handled = some life) : Sound life := by
  obtain ⟨entries, -, rfl⟩ := Option.map_eq_some_iff.mp hopened
  cases hadded : handled.added with
  | none => exact @sound_removed [] [] unreleased_nil unreleased_nil
  | some routine =>
      obtain ⟨entries, crumbs, head, -, -, -, -, -, rfl⟩ := handleDir_added h hadded
      exact @sound_held [] [] _ _ unreleased_nil unreleased_nil rfl rfl

/-- A directory that `handleDir` opens is released as it should be exactly while no entry
whose `stat` fails is come to. -/
theorem directory_released_iff {world : World} {clientSocket : Nat} {channel : Channel}
    {webPath absolutePath : Bytes} {type : HttpType} {st : FileStat} {handled : Handled}
    (h : handleDir world clientSocket channel webPath absolutePath type st = .ok handled)
    {life : Life} (hopened : opened world absolutePath handled = some life)
    (events : List LifeEvent) :
    OneRelease (events.foldl live life) ↔ AllStatable life events :=
  oneRelease_iff (sound_opened h hopened) events

/-- Two rounds, and the connection is closed. -/
def twoRounds : List LifeEvent := [.round [] ⟨[], []⟩, .round [] ⟨[], []⟩, .delSocket]

theorem directory_released_twoEntries :
    ∃ handled life, handleDir (folder twoEntries) 3 ⟨[], []⟩ (text "/") (text "/srv/") .httpGet
        ⟨0, 0, .directory⟩ = .ok handled ∧
      opened (folder twoEntries) (text "/srv/") handled = some life ∧
      (OneRelease (twoRounds.foldl live life) ↔ AllStatable life twoRounds) := by
  have hopens : (handleDir (folder twoEntries) 3 ⟨[], []⟩ (text "/") (text "/srv/") .httpGet
      ⟨0, 0, .directory⟩).toOption.any fun handled =>
        (opened (folder twoEntries) (text "/srv/") handled).isSome := by
    decide +kernel
  obtain ⟨handled, hhandled, hopens⟩ := (Option.any_eq_true _ _).mp hopens
  obtain ⟨life, hlife⟩ := Option.isSome_iff_exists.mp hopens
  rw [toOption_eq_some_iff] at hhandled
  exact ⟨handled, life, hhandled, hlife, directory_released_iff hhandled hlife twoRounds⟩

/-- A link that leads nowhere. -/
def dangling : List Entry := [⟨text "a", textual_a, short_a, some false, none⟩]

/-- The directory with the dangling link in it is freed while it is listed. -/
theorem directory_released_early :
    ∃ handled life, handleDir (folder dangling) 3 ⟨[], []⟩ (text "/") (text "/srv/") .httpGet
        ⟨0, 0, .directory⟩ = .ok handled ∧
      opened (folder dangling) (text "/srv/") handled = some life ∧
      ¬ OneRelease (twoRounds.foldl live life) := by
  have hfreed : (handleDir (folder dangling) 3 ⟨[], []⟩ (text "/") (text "/srv/") .httpGet
      ⟨0, 0, .directory⟩).toOption.any fun handled =>
        (opened (folder dangling) (text "/srv/") handled).any fun life =>
          .free ∈ (twoRounds.foldl live life).uses := by
    decide +kernel
  obtain ⟨handled, hhandled, hfreed⟩ := (Option.any_eq_true _ _).mp hfreed
  obtain ⟨life, hlife, hfreed⟩ := (Option.any_eq_true _ _).mp hfreed
  rw [toOption_eq_some_iff] at hhandled
  refine ⟨handled, life, hhandled, hlife, ?_⟩
  intro hone
  exact free_notMem_of_oneRelease hone (of_decide_eq_true hfreed)

end Life

end Newth.Server.DirectoryHandle
