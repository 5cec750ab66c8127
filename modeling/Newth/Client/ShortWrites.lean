import Newth.Client.QueueUpdate

namespace Newth.Client.ShortWrites

open Newth.Library.ByteString
open Newth.Library.Call
open Newth.Client.SiteFile
open Newth.Client.Site
open Newth.Client.Queue
open Newth.Client.FileCopy (Download)
open Newth.Client.QueueUpdate

section Model

variable {η : Type} (http : HttpScheme η)

/-- What comes of a download before `siteFileOpenRead`: it returns, or goes on to copy. -/
inductive Start (η : Type) where
  | returns (w : World η) (entry : QueueEntry) (e : Option SiteError)
  | copies (w : World η)

/-- The downloads up to `siteFileOpenRead`. -/
def start (download : Download) (w : World η) (entry : QueueEntry) : Except Stop (Start η) := do
  if entry.state.queued then
    let toPath ← given entry.destinationPath
    match ← siteStatOpenMeta http w entry.destinationSite toPath with
    | (w, none) => .ok (.returns w entry (some .unableToResolvePath))
    | (w, some toMeta) =>
        match download with
        | .noClobber =>
            .ok (if toMeta.type = .nothing then .copies w
              else .returns w entry (some .fileExists))
        | .mirror => .ok (.copies w)
        | .update => do
            let (w, asIs) ← leavesAsIs http w entry toMeta
            .ok (if asIs then .returns w { entry with state := ⟨false, true, entry.state.failed⟩ } none
              else .copies w)
  else .ok (.returns w entry (some .queueEntryNotReady))

end Model

section Parts

variable {η : Type} {http : HttpScheme η}

theorem run_eq (download : Download) (fuel : Nat) (w : World η) (entry : QueueEntry) :
    download.run http fuel w entry = (do
      match ← start http download w entry with
      | .returns w entry e => .ok (w, entry, e)
      | .copies w => copyEntry http fuel w entry) := by
  by_cases hqueued : entry.state.queued = true
  · cases hto : given entry.destinationPath with
    | error stop =>
        cases download <;>
          simp only [Download.run, queueEntryDownloadNoClobber, queueEntryDownloadMirror,
            queueEntryDownloadUpdate, start, hqueued, if_true, hto, error_bind]
    | ok toPath =>
        rcases hstat : siteStatOpenMeta http w entry.destinationSite toPath with
          stop | ⟨w₁, _ | toMeta⟩
        · cases download <;>
            simp only [Download.run, queueEntryDownloadNoClobber, queueEntryDownloadMirror,
              queueEntryDownloadUpdate, start, hqueued, if_true, hto, ok_bind, hstat, error_bind]
        · cases download <;>
            simp only [Download.run, queueEntryDownloadNoClobber, queueEntryDownloadMirror,
              queueEntryDownloadUpdate, start, hqueued, if_true, hto, ok_bind, hstat]
        · cases download with
          | noClobber =>
              simp only [Download.run, queueEntryDownloadNoClobber, start, hqueued, if_true, hto,
                ok_bind, hstat]
              by_cases htype : toMeta.type = .nothing
              · simp only [htype, if_true]
              · simp only [htype, if_false]
          | mirror =>
              simp only [Download.run, queueEntryDownloadMirror, start, hqueued, if_true, hto,
                ok_bind, hstat]
          | update =>
              simp only [Download.run, queueEntryDownloadUpdate, start, hqueued, if_true, hto,
                ok_bind, hstat]
              rcases leavesAsIs http w₁ entry toMeta with stop | ⟨w₂, _ | _⟩
              · rfl
              · rfl
              · rfl
  · cases download <;>
      simp only [Download.run, queueEntryDownloadNoClobber, queueEntryDownloadMirror,
        queueEntryDownloadUpdate, start, hqueued, Bool.false_eq_true, if_false, ok_bind]

end Parts

section Writes

/-- What is in the file of bytes that are written `n` at a time. -/
def stored (n : Nat) : List Write → Bytes → Bytes
  | [], bytes => bytes
  | write :: writes, bytes => write.keeps (bytes.take n) ++ stored n writes (bytes.drop n)

/-- Nothing is missing of any block of `n` bytes; the last block is what is left. -/
def StoresAll (n : Nat) (writes : List Write) (length : Nat) : Prop :=
  ∀ i (h : i < writes.length), i * n < length → writes[i] = .whole

instance (n : Nat) (writes : List Write) (length : Nat) : Decidable (StoresAll n writes length) :=
  inferInstanceAs (Decidable (∀ i (h : i < writes.length), i * n < length → writes[i] = .whole))

variable {n : Nat}

theorem keeps_length_le (write : Write) (data : Bytes) :
    (write.keeps data).length ≤ data.length :=
  List.length_take_le' _ _

theorem keeps_whole (data : Bytes) : Write.whole.keeps data = data :=
  List.take_length

theorem keeps_eq_self_iff {write : Write} {data : Bytes} (hdata : data ≠ []) :
    write.keeps data = data ↔ write = .whole := by
  have hpos := List.length_pos_iff.mpr hdata
  constructor
  · intro h
    have hlength := congrArg List.length h
    rw [Write.keeps, List.length_take] at hlength
    obtain ⟨short, lost⟩ := write
    rw [Write.whole, Write.mk.injEq]
    constructor
    · simp only at hlength
      omega
    · simp only at hlength
      omega
  · rintro rfl
    exact keeps_whole data

theorem stored_nil (writes : List Write) : stored n writes [] = [] := by
  induction writes with
  | nil => rfl
  | cons write writes ih => simp [stored, Write.keeps, ih]

theorem stored_block (writes : List Write) (bytes : Bytes) :
    (writes.headD .whole).keeps (bytes.take n) ++ stored n writes.tail (bytes.drop n) =
      stored n writes bytes := by
  cases writes with
  | nil =>
      show Write.whole.keeps (bytes.take n) ++ bytes.drop n = bytes
      rw [keeps_whole, List.take_append_drop]
  | cons write writes => rfl

theorem length_stored_le (writes : List Write) (bytes : Bytes) :
    (stored n writes bytes).length ≤ bytes.length := by
  induction writes generalizing bytes with
  | nil => exact le_rfl
  | cons write writes ih =>
      have hrest := ih (bytes.drop n)
      have hblock := keeps_length_le write (bytes.take n)
      rw [List.length_drop] at hrest
      rw [List.length_take] at hblock
      rw [stored, List.length_append]
      omega

theorem storesAll_cons_iff {write : Write} {writes : List Write} {length : Nat} :
    StoresAll n (write :: writes) length ↔
      (0 < length → write = .whole) ∧ StoresAll n writes (length - n) := by
  constructor
  · intro h
    refine ⟨fun hlength => h 0 (Nat.succ_pos _) (by rwa [Nat.zero_mul]), fun i hi hless => ?_⟩
    exact h (i + 1) (Nat.succ_lt_succ hi) (by rw [Nat.add_mul, Nat.one_mul]; omega)
  · rintro ⟨hfirst, hrest⟩ i hi hless
    cases i with
    | zero => exact hfirst (by rwa [Nat.zero_mul] at hless)
    | succ i =>
        rw [Nat.add_mul, Nat.one_mul] at hless
        exact hrest i (Nat.lt_of_succ_lt_succ hi) (by omega)

/-- Nothing is missing in the file just when nothing is of any of the blocks. -/
theorem stored_eq_self_iff (hn : 0 < n) (writes : List Write) (bytes : Bytes) :
    stored n writes bytes = bytes ↔ StoresAll n writes bytes.length := by
  induction writes generalizing bytes with
  | nil => exact iff_of_true rfl fun i hi => absurd hi (Nat.not_lt_zero i)
  | cons write writes ih =>
      rw [storesAll_cons_iff, ← List.length_drop, ← ih, stored]
      by_cases hbytes : bytes = []
      · subst hbytes
        simp [Write.keeps, stored_nil]
      have hblock : bytes.take n ≠ [] := by
        rw [ne_eq, List.take_eq_nil_iff]
        exact not_or.mpr ⟨hn.ne', hbytes⟩
      rw [forall_prop_of_true (List.length_pos_iff.mpr hbytes), ← keeps_eq_self_iff hblock]
      constructor
      · intro h
        have hsum := congrArg List.length (h.trans (List.take_append_drop n bytes).symm)
        have hrest := @length_stored_le n writes (bytes.drop n)
        have hfirst := keeps_length_le write (bytes.take n)
        rw [List.length_append, List.length_append] at hsum
        have hkept : write.keeps (bytes.take n) = bytes.take n :=
          (List.take_prefix _ _).eq_of_length (by rw [← Write.keeps]; omega)
        refine ⟨hkept, ?_⟩
        rw [hkept] at h
        exact List.append_cancel_left (h.trans (List.take_append_drop n bytes).symm)
      · rintro ⟨hfirst, hrest⟩
        rw [hfirst, hrest, List.take_append_drop]

end Writes

end Newth.Client.ShortWrites
