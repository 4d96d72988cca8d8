import BitcoinServer.Client.Permits
import BitcoinServer.Client.Shutdown

/-!
Contract: how much one client can have running.

Live handler threads have different slots, since a slot is given to a new thread only after
its last one has been joined; so there are never more of them than slots, also where a flag was
cleared twice. A permit of `worker_sem` is free, held by a searching WORK handler, or lost with a
handler that was cancelled while it held one; none is ever made.
-/

namespace BitcoinServer.Client

open BitcoinServer.Command BitcoinServer.Work Transition

/-- The commands with a thread that has been created and has not ended. -/
def State.live (s : State) : Finset Nat :=
  (Finset.range s.count).filter fun c => (s.pc c).isLive

/-- The handlers that were cancelled between their `sem_wait` and their `sem_post`, and have
ended. -/
def State.lost (s : State) : Finset Nat :=
  (Finset.range s.count).filter fun c => (s.pc c).lostPermit = true

section Bounds

variable {jobOf : Nat → List UInt8 → Job} {s : State}

theorem Pc.permits_eq (pc : Pc) :
    pc.permits = (if pc.holdsPermit = true then 1 else 0) +
      if pc.lostPermit = true then 1 else 0 := by
  cases pc with
  | work at_ => cases at_ <;> rfl
  | cleanup via at_ => rcases via with _ | _ | _ <;> rfl
  | ended via => rcases via with _ | _ | _ <;> rfl
  | _ => rfl

theorem permits_eq_holders_add_lost : s.permits = s.holders + s.lost.card := by
  unfold State.permits State.holders State.lost
  rw [Finset.card_filter, Finset.card_filter, ← Finset.sum_add_distrib]
  exact Finset.sum_congr rfl fun c _ => (s.pc c).permits_eq

theorem permits_of_reachable (reached : Reachable (step jobOf) State.initial s) :
    s.workerSem + s.permits = concurrentWorkCount := by
  apply ReachableIf.invariant _ _ reached
  · rfl
  · intro source label target before total _ taken
    rw [permits_step (clientInv_of_reachable before) taken, total]

theorem mem_live (readerInv : ReaderInv s) {c : Nat} (isLive : (s.pc c).isLive) : c ∈ s.live := by
  refine Finset.mem_filter.mpr ⟨Finset.mem_range.mpr (readerInv.lt_count fun unread => ?_), isLive⟩
  have created := isLive.1
  rw [unread] at created
  cases created

/-- Live threads have slots of their own. -/
theorem card_live_le (poolInv : PoolInv s) (shutInv : ShutInv s) :
    s.live.card ≤ clientThreadCount := by
  have slots : ∀ c ∈ s.live, s.slot c ∈ Finset.range clientThreadCount := by
    intro c member
    obtain ⟨inRange, _⟩ := Finset.mem_filter.mp member
    exact Finset.mem_range.mpr (shutInv.slot c (Finset.mem_range.mp inRange))
  have apart : Set.InjOn s.slot s.live := by
    intro c first d second sameSlot
    have ⟨created, live⟩ := (Finset.mem_filter.mp first).2
    have ⟨otherCreated, otherLive⟩ := (Finset.mem_filter.mp second).2
    exact poolInv.live_unique created live otherCreated otherLive sameSlot
  have bound := Finset.card_le_card_of_injOn s.slot slots apart
  rwa [Finset.card_range] at bound

end Bounds

/-- In every run a client has at most `CLIENT_THREAD_COUNT` live handler threads, and its
`CONCURRENT_WORK_COUNT` permits are the free ones, those of searching handlers and those lost
with cancelled ones. -/
theorem threads_bounded (jobOf : Nat → List UInt8 → Job) {s : State}
    (reached : Reachable (step jobOf) State.initial s) :
    (∀ c, (s.pc c).isLive ↔ c ∈ s.live) ∧ s.live.card ≤ clientThreadCount ∧
      s.workerSem + s.holders + s.lost.card = concurrentWorkCount := by
  have inv := clientInv_of_reachable reached
  refine ⟨fun c => ⟨mem_live inv.reader, fun member => (Finset.mem_filter.mp member).2⟩,
    card_live_le inv.pool (shutInv_of_reachable reached), ?_⟩
  rw [Nat.add_assoc, ← permits_eq_holders_add_lost]
  exact permits_of_reachable reached

/-- One WORK is aborted while it polls: two permits are left. -/
theorem threads_bounded_aborted :
    ∃ s, Reachable (step hardJob) State.initial s ∧ s.pc 0 = .ended (.cancelled true) ∧
      s.workerSem + s.holders = 2 := by
  obtain ⟨s, reached, ended⟩ :=
    exists_reachable_of_run (step hardJob) State.initial abortedWork
      (fun s => decide (s.pc 0 = .ended (.cancelled true) ∧ s.lost.card = 1)) (by decide +kernel)
  obtain ⟨isOver, single⟩ := of_decide_eq_true ended
  have permits := (threads_bounded hardJob reached).2.2
  rw [single, concurrentWorkCount] at permits
  exact ⟨s, reached, isOver, by omega⟩

end BitcoinServer.Client
