import Newth.Server.PollArrays

namespace Newth.Server.SocketArrays

open Newth.Library.Blocks
open Newth.Library.Call
open Newth.Library.Runs
open Newth.Server.BackEnds
open Newth.Server.SelectArrays
open Newth.Server.PollArrays

section Closing

variable {heap : Heap Socket} {r n : Nat} {i : Int} {listed : List Socket}

/-- The loop of `platformCloseBindSockets`, from `i` on for so many turns. -/
def closeFrom : Nat → Socket → List Socket
  | 0, _ => []
  | n + 1, i => i :: closeFrom n (i + 1)

/-- The descriptors `platformCloseBindSockets` of `posix01.c` closes. -/
def platformCloseBindSockets (heap : Heap Socket) (sockets : Nat) : Except Stop (List Socket) := do
  let max ← load heap sockets 0
  .ok (closeFrom max.toNat 1)

theorem mem_closeFrom {socket : Int} : socket ∈ closeFrom n i ↔ i ≤ socket ∧ socket < i + n := by
  induction n generalizing i with
  | zero =>
      simp only [closeFrom, List.not_mem_nil, false_iff]
      omega
  | succ n ih =>
      rw [closeFrom, List.mem_cons, ih]
      constructor
      · rintro (rfl | ⟨hlow, hhigh⟩)
        · omega
        · omega
      · intro hboth
        by_cases hsame : socket = i
        · exact .inl hsame
        · exact .inr (by omega)

/-- The sockets in an array are closed, and nothing else is. -/
def ClosesListed (heap : Heap Socket) (sockets : Nat) (listed : List Socket) : Prop :=
  ∃ closed, platformCloseBindSockets heap sockets = .ok closed ∧
    ∀ socket, socket ∈ closed ↔ socket ∈ listed

theorem closesListed_iff (harray : heap r = some ((listed.length : Socket) :: listed)) :
    ClosesListed heap r listed ↔
      ∀ socket : Int, socket ∈ listed ↔ 1 ≤ socket ∧ socket ≤ listed.length := by
  have hmax : load heap r 0 = .ok (listed.length : Socket) := @load_behind _ _ _ [] _ _ harray
  have hcloses : platformCloseBindSockets heap r = .ok (closeFrom listed.length 1) := by
    rw [platformCloseBindSockets, hmax, ok_bind]
    exact congrArg (fun n => Except.ok (closeFrom n 1)) (Int.toNat_natCast _)
  have hclosed : ∀ socket : Int,
      socket ∈ closeFrom listed.length 1 ↔ 1 ≤ socket ∧ socket ≤ listed.length := by
    intro socket
    rw [mem_closeFrom]
    omega
  constructor
  · rintro ⟨closed, hcall, hsame⟩ socket
    rw [hcloses] at hcall
    obtain rfl := Except.ok.inj hcall
    exact (hsame socket).symm.trans (hclosed socket)
  · intro hlisted
    exact ⟨_, hcloses, fun socket => (hclosed socket).trans (hlisted socket).symm⟩

end Closing

section Results

theorem socketArrays_iff (heap heap' : Heap Socket) (array : Nat) (given : Grant Socket) :
    (∀ start now, Select.serverSetup ⟨∅, ∅, ∅, 0⟩ heap array = .ok start →
      Run selectMoves Served start now →
        Lists (Select.serverGetReadSocketArray now heap' (some given)) now.serverReadSockets.val ∧
          (Lists (Select.serverGetListenSocketArray now heap' (some given))
              now.serverListenSockets.val ↔ now.serverReadSockets = now.serverListenSockets) ∧
          (Lists (Select.serverGetWriteSocketArray now heap' (some given))
              now.serverWriteSockets.val ↔
            now.serverWriteSockets.card = now.serverReadSockets.card) ∧
          ∀ c, Served now c → ∃ next, selectMoves now c = .ok next) ∧
      (∀ listening spare grant start now,
        heap array = some ((listening.length : Socket) :: (listening ++ spare)) →
        (∀ memory, grant = some memory → heap memory.address = none) →
        (unstarted heap).serverSetup array grant = .ok start →
        Run pollMoves Spared ⟨start, fun _ => []⟩ now →
        now.server.poll.heap given.address = none →
          (Lists (now.server.serverGetListenSocketArray (some given)) listening ∧
            Lists (now.server.serverGetReadSocketArray (some given)) (now.sockets .servePoll) ∧
            Lists (now.server.serverGetWriteSocketArray (some given))
              (now.sockets .deferredPoll)) ∧
          ∀ c, Spared now c → ∃ next, pollMoves now c = .ok next) ∧
      ∀ listed, heap array = some ((listed.length : Socket) :: listed) →
        (ClosesListed heap array listed ↔
          ∀ socket : Int, socket ∈ listed ↔ 1 ≤ socket ∧ socket ≤ listed.length) :=
  ⟨fun _ _ hsetup hrun => select_arrays hsetup hrun heap' given,
    fun _ _ _ _ _ harray hgrant hsetup hrun hfree => poll_arrays harray hgrant hsetup hrun hfree,
    fun _ harray => closesListed_iff harray⟩

/-- The array of one listening socket. -/
def listenThree : Heap Socket := Function.update (fun _ => none) 1 (some [1, 3])

theorem socketArrays_iff_at :
    (∃ now, follow selectMoves Served ⟨{3}, {3}, ∅, 3⟩
        [.accept 4 none, .deferredAdd 4 none, .writable 4 none, .close 4 none] = some now ∧
      ∀ heap' given, Lists (Select.serverGetReadSocketArray now heap' (some given))
        now.serverReadSockets.val) ∧
      (∃ start now, (unstarted listenThree).serverSetup 1 (grantAt 2) = .ok start ∧
        follow pollMoves Spared ⟨start, fun _ => []⟩
          [.accept 4 (grantAt 3), .accept 5 (grantAt 3), .deferredAdd 4 (grantAt 4)] = some now ∧
        Lists (now.server.serverGetReadSocketArray (grantAt 5)) (now.sockets .servePoll)) ∧
      (ClosesListed listenThree 1 [3] ↔
        ∀ socket : Int, socket ∈ [3] ↔ 1 ≤ socket ∧ socket ≤ ([3] : List Socket).length) := by
  refine ⟨?_, ?_, (socketArrays_iff listenThree listenThree 1 ⟨5, fun _ => 0⟩).2.2 [3] rfl⟩
  · have hsetup : Select.serverSetup ⟨∅, ∅, ∅, 0⟩ listenThree 1 = .ok ⟨{3}, {3}, ∅, 3⟩ := rfl
    obtain ⟨now, hfollow⟩ : ∃ now, follow selectMoves Served ⟨{3}, {3}, ∅, 3⟩
        [.accept 4 none, .deferredAdd 4 none, .writable 4 none, .close 4 none] = some now :=
      ⟨_, rfl⟩
    exact ⟨now, hfollow, fun heap' given =>
      ((socketArrays_iff listenThree heap' 1 given).1 _ _ hsetup (run_of_follow hfollow)).1⟩
  · obtain ⟨start, now, hsetup, hfollow, hfree⟩ : ∃ start now,
        (unstarted listenThree).serverSetup 1 (grantAt 2) = .ok start ∧
        follow pollMoves Spared ⟨start, fun _ => []⟩
          [.accept 4 (grantAt 3), .accept 5 (grantAt 3), .deferredAdd 4 (grantAt 4)] = some now ∧
        now.server.poll.heap 5 = none := ⟨_, _, rfl, rfl, rfl⟩
    have hgrant : ∀ given, grantAt 2 = some given → listenThree given.address = none := by
      rintro given hgiven
      obtain rfl := Option.some.inj hgiven
      rfl
    exact ⟨start, now, hsetup, hfollow,
      ((socketArrays_iff listenThree listenThree 1 ⟨5, fun _ => 0⟩).2.1 [3] [] (grantAt 2) start now
        rfl hgrant hsetup (run_of_follow hfollow) hfree).1.2.1⟩

/-- With one connection open the array of the listening socket announces a second one, the second
socket to be deferred stands among the connections, and descriptor 1 is closed for socket 3. -/
theorem socketArrays_wrong :
    (∃ now heap, Select.serverSetup ⟨∅, ∅, ∅, 0⟩ listenThree 1 = .ok ⟨{3}, {3}, ∅, 3⟩ ∧
      Run selectMoves Served ⟨{3}, {3}, ∅, 3⟩ now ∧ now.serverListenSockets = {3} ∧
      Select.serverGetListenSocketArray now listenThree (grantAt 2) = .ok (heap, some 2) ∧
      heap 2 = some [2, 3, 0] ∧
      ¬ Lists (Select.serverGetListenSocketArray now listenThree (grantAt 2))
        now.serverListenSockets.val) ∧
      (∃ start now heap, (unstarted listenThree).serverSetup 1 (grantAt 2) = .ok start ∧
        Run pollMoves (fun _ _ => True) ⟨start, fun _ => []⟩ now ∧
        now.sockets .servePoll = [4, 5] ∧
        now.server.serverGetReadSocketArray (grantAt 5) = .ok (heap, some 5) ∧
        heap 5 = some [2, 4, 7] ∧
        ¬ Lists (now.server.serverGetReadSocketArray (grantAt 5)) (now.sockets .servePoll)) ∧
      platformCloseBindSockets listenThree 1 = .ok [1] ∧ ¬ ClosesListed listenThree 1 [3] := by
  refine ⟨?_, ?_, rfl, fun h => ?_⟩
  · have hsetup : Select.serverSetup ⟨∅, ∅, ∅, 0⟩ listenThree 1 = .ok ⟨{3}, {3}, ∅, 3⟩ := rfl
    obtain ⟨now, heap, hfollow, hlisten, hmore, hcall, hblock⟩ : ∃ now heap,
        follow selectMoves Served ⟨{3}, {3}, ∅, 3⟩ [.accept 4 none] = some now ∧
        now.serverListenSockets = {3} ∧ now.serverReadSockets ≠ now.serverListenSockets ∧
        Select.serverGetListenSocketArray now listenThree (grantAt 2) = .ok (heap, some 2) ∧
        heap 2 = some [2, 3, 0] := ⟨_, _, rfl, rfl, by decide, rfl, rfl⟩
    have hrun := run_of_follow hfollow
    exact ⟨now, heap, hsetup, hrun, hlisten, hcall, hblock, fun hlists =>
      hmore ((select_arrays hsetup hrun listenThree _).2.1.mp hlists)⟩
  · obtain ⟨start, now, heap, hsetup, hfollow, hsockets, hcall, hblock⟩ : ∃ start now heap,
        (unstarted listenThree).serverSetup 1 (grantAt 2) = .ok start ∧
        follow pollMoves (fun _ _ => True) ⟨start, fun _ => []⟩
          [.accept 4 (grantAt 3), .accept 5 (grantAt 3), .deferredAdd 6 (grantAt 4),
            .deferredAdd 7 (grantAt 3)] = some now ∧
        now.sockets .servePoll = [4, 5] ∧
        now.server.serverGetReadSocketArray (grantAt 5) = .ok (heap, some 5) ∧
        heap 5 = some [2, 4, 7] := ⟨_, _, _, rfl, rfl, rfl, rfl, rfl⟩
    refine ⟨start, now, heap, hsetup, run_of_follow hfollow, hsockets, hcall, hblock, ?_⟩
    rintro ⟨heap', r, listed, hcall', hblock', hlisted⟩
    rw [hcall] at hcall'
    obtain ⟨rfl, hr⟩ := Prod.mk.inj (Except.ok.inj hcall')
    obtain rfl := Option.some.inj hr
    rw [hblock] at hblock'
    obtain rfl : [4, 7] = listed := (List.cons.inj (Option.some.inj hblock')).2
    rw [hsockets] at hlisted
    exact absurd hlisted (by decide)
  · have hthree := ((@closesListed_iff listenThree 1 [3] rfl).mp h 3).mp (List.mem_singleton.mpr rfl)
    exact absurd hthree.2 (by decide)

end Results

end Newth.Server.SocketArrays
