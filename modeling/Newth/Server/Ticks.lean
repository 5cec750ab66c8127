import Mathlib.Data.List.Nodup
import Newth.Library.Runs
import Newth.Server.Routines

namespace Newth.Server.Ticks

open Newth.Library.ByteString
open Newth.Library.Call
open Newth.Library.Runs
open Newth.Server.Routines
open Newth.Server.Sendbufr

/-- One `RoutineTick` with these answers from `serverDeferredSocketExists`. -/
def tickAnswering (server : Serving) (deferred : List Nat) : Except Stop Serving :=
  routineTick { server with deferred := deferred }

/-- Any number of ticks, with any answers. -/
abbrev Ticking : Serving → Serving → Prop := Run tickAnswering fun _ _ => True

theorem tickAnswering_rounds {server server' : Serving} {deferred : List Nat}
    (h : tickAnswering server deferred = .ok server') :
    Rounds server.routines server.net server'.routines server'.net := by
  obtain ⟨result, hresult, hserver⟩ := bind_eq_ok_iff.mp h
  obtain rfl := Except.ok.inj hserver
  exact tickFrom_rounds hresult

/-- A routine alone on its socket: what one round keeps, the ticks keep until it is
removed, and what its last round leaves on the socket stays. -/
theorem ticks_routine (invariant : Routine → Channel → Prop) (left : Channel → Prop) {s : Nat}
    (hround : ∀ deferred routine channel t, invariant routine channel →
      advance deferred routine channel = .ok t →
      (t.kept = true → invariant t.routine t.channel) ∧ (t.kept = false → left t.channel))
    {first last : Serving} (hrun : Ticking first last) (hnodup : (sockets first.routines).Nodup)
    {routine : Routine} (hmem : routine ∈ first.routines)
    (hsocket : routine.socketBuffer.clientSocket = s) (hfirst : invariant routine (first.net s)) :
    (∃ current ∈ last.routines, current.socketBuffer.clientSocket = s ∧
        invariant current (last.net s) ∧
        ∀ other ∈ last.routines, other.socketBuffer.clientSocket = s → other = current) ∨
      (s ∉ sockets last.routines ∧ left (last.net s)) := by
  have hlast : (sockets last.routines).Nodup ∧
      ((∃ current ∈ last.routines, current.socketBuffer.clientSocket = s ∧
          invariant current (last.net s)) ∨
        (s ∉ sockets last.routines ∧ left (last.net s))) := by
    refine run_invariant (fun server => (sockets server.routines).Nodup ∧
      ((∃ current ∈ server.routines, current.socketBuffer.clientSocket = s ∧
          invariant current (server.net s)) ∨
        (s ∉ sockets server.routines ∧ left (server.net s)))) ?_ hrun
      ⟨hnodup, .inl ⟨routine, hmem, hsocket, hfirst⟩⟩
    rintro server deferred server' ⟨hsingle, hstate⟩ - htick
    have hrounds := tickAnswering_rounds htick
    refine ⟨hsingle.sublist (rounds_sockets hrounds), ?_⟩
    rcases hstate with ⟨current, hcurrent, hs, hinvariant⟩ | ⟨hgone, hleft⟩
    · rcases rounds_focus hrounds hsingle hcurrent hs with
        ⟨hstays, hsame, -⟩ | ⟨deferred', t, hadvance, hchannel, hout⟩
      · left
        refine ⟨current, hstays, hs, ?_⟩
        rwa [hsame]
      · obtain ⟨hkeeps, hleaves⟩ := hround deferred' current _ t hinvariant hadvance
        rcases hout with ⟨hkept, hmem'⟩ | ⟨hremoved, hgone⟩
        · left
          refine ⟨t.routine, hmem', (advance_clientSocket hadvance).trans hs, ?_⟩
          rw [hchannel]
          exact hkeeps hkept
        · right
          rw [hchannel]
          exact ⟨hgone, hleaves hremoved⟩
    · right
      refine ⟨fun hmem' => hgone ((rounds_sockets hrounds).mem hmem'), ?_⟩
      rwa [rounds_other hrounds hgone]
  obtain ⟨hsingle, hstate⟩ := hlast
  rcases hstate with ⟨current, hcurrent, hs, hinvariant⟩ | hgone
  · left
    refine ⟨current, hcurrent, hs, hinvariant, ?_⟩
    intro other hother hsocket'
    exact List.inj_on_of_nodup_map hsingle hother hcurrent (hsocket'.trans hs.symm)
  · exact .inr hgone

/-- A routine alone on its socket whose rounds count something down is removed within that many
ticks, and one more for every routine there is: a tick that passes it over removes another. -/
theorem ticks_end (invariant : Routine → Channel → Prop) (left : Channel → Prop)
    (measure : Routine → Channel → Nat) {s : Nat}
    (hround : ∀ deferred routine channel t, invariant routine channel →
      advance deferred routine channel = .ok t →
      (t.kept = true → invariant t.routine t.channel ∧
        measure t.routine t.channel < measure routine channel) ∧
      (t.kept = false → left t.channel))
    {first last : Serving} {answers : List (List Nat)}
    (hrun : follow tickAnswering (fun _ _ => True) first answers = some last)
    (hnodup : (sockets first.routines).Nodup) {routine : Routine}
    (hmem : routine ∈ first.routines) (hsocket : routine.socketBuffer.clientSocket = s)
    (hfirst : invariant routine (first.net s))
    (hlong : measure routine (first.net s) + first.routines.length ≤ answers.length) :
    s ∉ sockets last.routines ∧ left (last.net s) := by
  induction answers generalizing first routine with
  | nil =>
      have hsome := List.length_pos_of_mem hmem
      simp only [List.length_nil] at hlong
      omega
  | cons deferred answers ih =>
      rw [follow, if_pos trivial] at hrun
      split at hrun
      · rename_i next htick
        have hrounds := tickAnswering_rounds htick
        have hsingle := hnodup.sublist (rounds_sockets hrounds)
        simp only [List.length_cons] at hlong
        rcases rounds_focus hrounds hnodup hmem hsocket with
          ⟨hstays, hsame, hless⟩ | ⟨deferred', t, hadvance, hchannel, hout⟩
        · refine ih hrun hsingle hstays hsocket ?_ ?_
          · rwa [hsame]
          · rw [hsame]
            omega
        · obtain ⟨hkeeps, hleaves⟩ := hround deferred' routine _ t hfirst hadvance
          have hshort := rounds_length hrounds
          rcases hout with ⟨hkept, hmem'⟩ | ⟨hremoved, hgone⟩
          · obtain ⟨hinvariant, hcount⟩ := hkeeps hkept
            refine ih hrun hsingle hmem' ((advance_clientSocket hadvance).trans hsocket) ?_ ?_
            · rwa [hchannel]
            · rw [hchannel]
              omega
          · refine run_invariant
              (fun server => s ∉ sockets server.routines ∧ left (server.net s)) ?_
              (run_of_follow hrun) ⟨hgone, ?_⟩
            · rintro server deferred'' server' ⟨hout, hleft⟩ - htick'
              have hrounds' := tickAnswering_rounds htick'
              refine ⟨fun hmem' => hout ((rounds_sockets hrounds').mem hmem'), ?_⟩
              rwa [rounds_other hrounds' hout]
            · rw [hchannel]
              exact hleaves hremoved
      · simp at hrun

section Deferral

/-- What a round does to the sockets waited on. -/
inductive Marks (socket : Nat) : (List Nat → List Nat) → Prop where
  | keeps : Marks socket id
  | defers : Marks socket (List.insert socket)
  | clears : Marks socket (List.filter (· ≠ socket))

theorem Marks.other {socket s : Nat} {mark : List Nat → List Nat} (h : Marks socket mark)
    (hs : s ≠ socket) (deferred : List Nat) : s ∈ mark deferred ↔ s ∈ deferred := by
  cases h with
  | keeps => rfl
  | defers => simp [hs]
  | clears => simp [hs]

theorem Marks.own {socket : Nat} {mark : List Nat → List Nat} (h : Marks socket mark)
    {deferred deferred' : List Nat} (hsame : socket ∈ deferred' ↔ socket ∈ deferred) :
    socket ∈ mark deferred' ↔ socket ∈ mark deferred := by
  cases h with
  | keeps => exact hsame
  | defers => simp
  | clears => simp

theorem retire_marks {deferred : List Nat} {routine : Routine} {channel : Channel} {t : Ticked}
    (h : retire deferred routine channel = .ok t) (deferred' : List Nat) :
    retire deferred' routine channel = .ok { t with
      deferred := deferred'.filter (· ≠ routine.socketBuffer.clientSocket) } := by
  obtain ⟨u, hfree, h⟩ := bind_eq_ok_iff.mp h
  obtain rfl := Except.ok.inj h
  rw [retire, hfree, ok_bind]

theorem advance_marks {deferred : List Nat} {routine : Routine} {channel : Channel} {t : Ticked}
    (h : advance deferred routine channel = .ok t) :
    ∃ mark, Marks routine.socketBuffer.clientSocket mark ∧ ∀ deferred',
      (routine.socketBuffer.clientSocket ∈ deferred' ↔
        routine.socketBuffer.clientSocket ∈ deferred) →
      advance deferred' routine channel = .ok { t with deferred := mark deferred' } := by
  rw [advance] at h
  simp only at h
  split at h
  · rename_i hstate
    split at h
    · rename_i hin
      obtain rfl := Except.ok.inj h
      refine ⟨id, .keeps, fun deferred' hsame => ?_⟩
      simp only [advance, hstate, if_pos (hsame.mpr hin), id]
    · rename_i hout
      refine ⟨id, .keeps, fun deferred' hsame => ?_⟩
      simp only [advance, hstate, if_neg (mt hsame.mp hout), id]
      split at h
      · rename_i hfail
        obtain rfl := Except.ok.inj h
        rw [if_pos hfail]
      · rename_i hfine
        rw [if_neg hfine]
        split at h
        · rename_i hsent
          obtain rfl := Except.ok.inj h
          rw [if_pos hsent]
        · rename_i hsent
          rw [if_neg hsent]
          split at h
          · rename_i hfull
            obtain rfl := Except.ok.inj h
            rw [if_pos hfull, hstate]
          · rename_i hroom
            obtain rfl := Except.ok.inj h
            rw [if_neg hroom]
  · rename_i hstate
    refine ⟨id, .keeps, fun deferred' hsame => ?_⟩
    simp only [advance, hstate, id]
    split at h
    · rename_i hstored
      rw [if_pos hstored]
      split at h
      · rename_i hfail
        obtain rfl := Except.ok.inj h
        rw [if_pos hfail]
      · rename_i hfine
        obtain rfl := Except.ok.inj h
        rw [if_neg hfine, hstate]
    · rename_i hnone
      obtain rfl := Except.ok.inj h
      rw [if_neg hnone]
  · rename_i hstate htype
    obtain rfl := Except.ok.inj h
    exact ⟨id, .keeps, fun deferred' _ => by simp only [advance, hstate, htype, id]⟩
  · rename_i file hstate htype
    obtain ⟨⟨routine', channel', written⟩, hcontinue, h⟩ := bind_eq_ok_iff.mp h
    have hsocket := fileRoutineContinue_clientSocket hcontinue
    simp only at h
    simp only [advance, hstate, htype, hcontinue, ok_bind]
    split at h
    · rename_i hwritten
      simp only [if_pos hwritten]
      split at h
      · rename_i hstream
        obtain rfl := Except.ok.inj h
        exact ⟨_, .defers, fun deferred' _ => by rw [if_pos hstream]⟩
      · rename_i hstream
        obtain rfl := Except.ok.inj h
        exact ⟨id, .keeps, fun deferred' _ => by rw [if_neg hstream]; rfl⟩
    · rename_i hwritten
      simp only [if_neg hwritten]
      split at h
      · rename_i hfail
        refine ⟨_, .clears, fun deferred' _ => ?_⟩
        rw [if_pos hfail, retire_marks h deferred', ← hsocket]
      · rename_i hfine
        simp only [if_neg hfine]
        split at h
        · rename_i hstored
          obtain rfl := Except.ok.inj h
          exact ⟨_, .defers, fun deferred' _ => by rw [if_pos hstored]⟩
        · rename_i hstored
          obtain rfl := Except.ok.inj h
          exact ⟨id, .keeps, fun deferred' _ => by rw [if_neg hstored]; rfl⟩
  · rename_i dir hstate htype
    obtain ⟨⟨routine', channel', written⟩, hcontinue, h⟩ := bind_eq_ok_iff.mp h
    have hsocket := directoryRoutineContinue_clientSocket hcontinue
    simp only at h
    simp only [advance, hstate, htype, hcontinue, ok_bind]
    split at h
    · rename_i hwritten
      obtain rfl := Except.ok.inj h
      exact ⟨id, .keeps, fun deferred' _ => by rw [if_pos hwritten]; rfl⟩
    · rename_i hwritten
      refine ⟨_, .clears, fun deferred' _ => ?_⟩
      rw [if_neg hwritten, retire_marks h deferred', ← hsocket]
  · rename_i hstate
    refine ⟨_, .clears, fun deferred' _ => ?_⟩
    simp only [advance, hstate]
    exact retire_marks h deferred'
  · rename_i hstate
    refine ⟨_, .clears, fun deferred' _ => ?_⟩
    simp only [advance, hstate]
    exact retire_marks h deferred'

theorem advance_deferred_other {deferred : List Nat} {routine : Routine} {channel : Channel}
    {t : Ticked} (h : advance deferred routine channel = .ok t) {s : Nat}
    (hs : s ≠ routine.socketBuffer.clientSocket) : s ∈ t.deferred ↔ s ∈ deferred := by
  obtain ⟨mark, hmark, hround⟩ := advance_marks h
  rw [Except.ok.inj (h.symm.trans (hround deferred Iff.rfl))]
  exact hmark.other hs deferred

theorem advance_congr {deferred deferred' : List Nat} {routine : Routine} {channel : Channel}
    {t : Ticked} (h : advance deferred routine channel = .ok t)
    (hsame : routine.socketBuffer.clientSocket ∈ deferred' ↔
      routine.socketBuffer.clientSocket ∈ deferred) :
    ∃ t', advance deferred' routine channel = .ok t' ∧ t'.routine = t.routine ∧
      t'.channel = t.channel ∧ t'.kept = t.kept ∧
      (routine.socketBuffer.clientSocket ∈ t'.deferred ↔
        routine.socketBuffer.clientSocket ∈ t.deferred) := by
  obtain ⟨mark, hmark, hround⟩ := advance_marks h
  have hlast : t.deferred = mark deferred :=
    congrArg Ticked.deferred (Except.ok.inj (h.symm.trans (hround deferred Iff.rfl)))
  refine ⟨_, hround deferred' hsame, rfl, rfl, rfl, ?_⟩
  rw [hlast]
  exact hmark.own hsame

theorem tickFrom_other {routines : List Routine} {deferred : List Nat} {net : Network}
    {result : List Routine × List Nat × Network} (h : tickFrom routines deferred net = .ok result)
    {s : Nat} (hs : s ∉ sockets routines) : s ∈ result.2.1 ↔ s ∈ deferred := by
  induction hlen : routines.length using Nat.strong_induction_on
    generalizing routines deferred net result with
  | _ n ih =>
      cases routines with
      | nil =>
          obtain rfl := Except.ok.inj h
          rfl
      | cons routine rest =>
          rw [List.length_cons] at hlen
          simp only [sockets, List.map_cons, List.mem_cons, not_or] at hs
          rw [tickFrom] at h
          obtain ⟨t, hadvance, h⟩ := bind_eq_ok_iff.mp h
          have hround := advance_deferred_other hadvance hs.1
          split at h
          · obtain ⟨tail, htail, h⟩ := bind_eq_ok_iff.mp h
            obtain rfl := Except.ok.inj h
            exact (ih rest.length (by omega) htail hs.2 rfl).trans hround
          · cases rest with
            | nil =>
                obtain rfl := Except.ok.inj h
                exact hround
            | cons skipped rest =>
                obtain ⟨tail, htail, h⟩ := bind_eq_ok_iff.mp h
                obtain rfl := Except.ok.inj h
                simp only [List.map_cons, List.mem_cons, not_or] at hs
                rw [List.length_cons] at hlen
                exact (ih rest.length (by omega) htail hs.2.2 rfl).trans hround

/-- A routine alone on its socket is passed over by a tick that removes one before it, or has the
round it would have by itself. -/
theorem tickFrom_focus {routines : List Routine} {deferred : List Nat} {net : Network}
    {result : List Routine × List Nat × Network}
    (h : tickFrom routines deferred net = .ok result) (hnodup : (sockets routines).Nodup)
    {r : Routine} (hr : r ∈ routines) {s : Nat} (hs : r.socketBuffer.clientSocket = s) :
    (r ∈ result.1 ∧ result.2.2 s = net s ∧ (s ∈ result.2.1 ↔ s ∈ deferred) ∧
        result.1.length < routines.length) ∨
      ∃ t, advance deferred r (net s) = .ok t ∧ result.2.2 s = t.channel ∧
        (s ∈ result.2.1 ↔ s ∈ t.deferred) ∧ ((t.kept = true ∧ t.routine ∈ result.1) ∨
          (t.kept = false ∧ s ∉ sockets result.1)) := by
  induction hlen : routines.length using Nat.strong_induction_on
    generalizing routines deferred net result with
  | _ n ih =>
      cases routines with
      | nil => simp at hr
      | cons routine rest =>
          simp only [sockets, List.map_cons, List.nodup_cons] at hnodup
          rw [List.length_cons] at hlen
          rw [tickFrom] at h
          obtain ⟨t, hadvance, h⟩ := bind_eq_ok_iff.mp h
          rcases List.mem_cons.mp hr with rfl | hlater
          · rw [hs] at hadvance h hnodup
            refine .inr ⟨t, hadvance, ?_⟩
            split at h
            · rename_i hkept
              obtain ⟨tail, htail, h⟩ := bind_eq_ok_iff.mp h
              obtain rfl := Except.ok.inj h
              refine ⟨?_, tickFrom_other htail hnodup.1, .inl ⟨hkept, List.mem_cons_self⟩⟩
              rw [rounds_other (tickFrom_rounds htail) hnodup.1, Function.update_self]
            · rename_i hkept
              have hgone : t.kept = false := by simpa using hkept
              cases rest with
              | nil =>
                  obtain rfl := Except.ok.inj h
                  exact ⟨Function.update_self .., Iff.rfl, .inr ⟨hgone, List.not_mem_nil⟩⟩
              | cons skipped rest =>
                  obtain ⟨tail, htail, h⟩ := bind_eq_ok_iff.mp h
                  obtain rfl := Except.ok.inj h
                  obtain ⟨hfirst, hsecond⟩ : s ≠ skipped.socketBuffer.clientSocket ∧
                      s ∉ sockets rest := by
                    simpa only [sockets, List.map_cons, List.mem_cons, not_or, ne_eq]
                      using hnodup.1
                  have hrounds := tickFrom_rounds htail
                  refine ⟨?_, tickFrom_other htail hsecond, .inr ⟨hgone, ?_⟩⟩
                  · rw [rounds_other hrounds hsecond, Function.update_self]
                  · simp only [sockets, List.map_cons, List.mem_cons, not_or]
                    exact ⟨hfirst, fun hmem => hsecond ((rounds_sockets hrounds).mem hmem)⟩
          · have hin : s ∈ sockets rest := hs ▸ List.mem_map_of_mem hlater
            have hne : s ≠ routine.socketBuffer.clientSocket := by
              rintro rfl
              exact hnodup.1 hin
            have hback : s ∈ t.deferred ↔ s ∈ deferred := advance_deferred_other hadvance hne
            -- the rounds before it do not change what its own round asks
            split at h
            · obtain ⟨tail, htail, h⟩ := bind_eq_ok_iff.mp h
              obtain rfl := Except.ok.inj h
              have hrest := ih rest.length (by omega) htail hnodup.2 hlater rfl
              rw [Function.update_of_ne hne] at hrest
              rcases hrest with ⟨hmem, hnet, hwait, hless⟩ | ⟨t', hround, hnet, hwait, hout⟩
              · refine .inl ⟨List.mem_cons_of_mem _ hmem, hnet, hwait.trans hback, ?_⟩
                rw [List.length_cons]
                omega
              · obtain ⟨t'', hround', hroutine, hchannel, hkept, hdeferred⟩ :=
                  advance_congr hround (hs ▸ hback.symm)
                rw [hs] at hdeferred
                refine .inr ⟨t'', hround', hnet.trans hchannel.symm, hwait.trans hdeferred.symm, ?_⟩
                rw [hroutine, hkept]
                rcases hout with ⟨hkept', hmem⟩ | ⟨hgone, hmem⟩
                · exact .inl ⟨hkept', List.mem_cons_of_mem _ hmem⟩
                · refine .inr ⟨hgone, ?_⟩
                  simp only [sockets, List.map_cons, List.mem_cons, not_or]
                  exact ⟨by rwa [advance_clientSocket hadvance], hmem⟩
            · cases rest with
              | nil => simp at hlater
              | cons skipped rest =>
                  obtain ⟨tail, htail, h⟩ := bind_eq_ok_iff.mp h
                  obtain rfl := Except.ok.inj h
                  have hshort := rounds_length (tickFrom_rounds htail)
                  obtain ⟨hskipped, hnodup⟩ := List.nodup_cons.mp hnodup.2
                  rw [List.length_cons] at hlen
                  rcases List.mem_cons.mp hlater with rfl | hlater
                  · have hlone : s ∉ sockets rest := hs ▸ hskipped
                    have hwait := (tickFrom_other htail hlone).trans hback
                    refine .inl ⟨List.mem_cons_self, ?_, hwait, ?_⟩
                    · rw [rounds_other (tickFrom_rounds htail) hlone, Function.update_of_ne hne]
                    · simp only [List.length_cons]
                      omega
                  · have hin : s ∈ sockets rest := hs ▸ List.mem_map_of_mem hlater
                    have hne' : s ≠ skipped.socketBuffer.clientSocket := fun heq =>
                      hskipped (by rwa [heq] at hin)
                    have hrest := ih rest.length (by omega) htail hnodup hlater rfl
                    rw [Function.update_of_ne hne] at hrest
                    rcases hrest with ⟨hmem, hnet, hwait, hless⟩ | ⟨t', hround, hnet, hwait, hout⟩
                    · refine .inl ⟨List.mem_cons_of_mem _ hmem, hnet, hwait.trans hback, ?_⟩
                      simp only [List.length_cons]
                      omega
                    · obtain ⟨t'', hround', hroutine, hchannel, hkept, hdeferred⟩ :=
                        advance_congr hround (hs ▸ hback.symm)
                      rw [hs] at hdeferred
                      refine .inr ⟨t'', hround', hnet.trans hchannel.symm,
                        hwait.trans hdeferred.symm, ?_⟩
                      rw [hroutine, hkept]
                      rcases hout with ⟨hkept', hmem⟩ | ⟨hgone, hmem⟩
                      · exact .inl ⟨hkept', List.mem_cons_of_mem _ hmem⟩
                      · refine .inr ⟨hgone, ?_⟩
                        simp only [sockets, List.map_cons, List.mem_cons, not_or]
                        exact ⟨hne', hmem⟩

end Deferral

end Newth.Server.Ticks
