import BitcoinServer.Client.Slots

/-!
Contract: what `client_handler_cleanup` leaves behind.

When the reader is done, the socket is closed, and `thread_avail_flags`,
`thread_pool` and the variables of `client_handler` are gone. The cleanup joins
the threads whose flags are 1, so a thread that is still running then has a flag
of 0.

Owns: no reply, search or queue access after the close in a run that claims no
slot between the two clears of its flag; and the one access that is left, the
second clear of a WORK handler.
-/

namespace BitcoinServer.Client

open BitcoinServer.Command BitcoinServer.Work Transition

/-- The slots that `client_handler_cleanup` is done with. -/
def Reader.passed : Reader → Option Nat
  | .cleanup i | .cleanupJoin i _ => some i
  | .finished => some clientThreadCount
  | _ => none

/-- A thread that has been created and has not ended. -/
def Pc.isLive (pc : Pc) : Prop := pc.created = true ∧ pc.finished = false

instance (pc : Pc) : Decidable pc.isLive := inferInstanceAs (Decidable (_ ∧ _))

/-- The slots of commands are slots of the arrays, and what still runs in a slot that the
cleanup is done with has a flag of 0. -/
structure ShutInv (s : State) : Prop where
  slot : ∀ c < s.count, s.slot c < clientThreadCount
  passed : ∀ i, s.reader.passed = some i → ∀ c, (s.pc c).isLive → s.slot c < i →
    s.flags (s.slot c) = false

section Shutdown

variable {jobOf : Nat → List UInt8 → Job} {job : Job} {s next : State} {label : Label} {c : Nat}

theorem shutInv_initial : ShutInv State.initial where
  slot c inCount := absurd inCount (Nat.not_lt_zero c)
  passed i passed := by cases passed

theorem ReaderRow.slot_lt (row : ReaderRow s next)
    (inArrays : ∀ c < s.count, s.slot c < clientThreadCount) :
    ∀ c < next.count, next.slot c < clientThreadCount := by
  cases row with
  | claim cmd k atClaim avail =>
      intro c inCount
      change c < s.count + 1 at inCount
      show Function.update s.slot s.count k c < clientThreadCount
      by_cases newest : c = s.count
      · rw [newest, Function.update_self]
        exact getAvailThread_lt avail
      · rw [Function.update_of_ne newest]
        exact inArrays c (by omega)
  | _ => simpa [State.join] using inArrays

/-- Joining a slot's thread, or finding that it has none, leaves nothing running in it. -/
theorem ShutInv.reader (inv : ShutInv s) (poolInv : PoolInv s) (row : ReaderRow s next) :
    ShutInv next := by
  refine ⟨row.slot_lt inv.slot, ?_⟩
  cases row with
  | cleanupNext i atCleanup skipped =>
      rintro j ⟨⟩ c live below
      change s.slot c < i + 1 at below
      by_cases before : s.slot c < i
      · exact inv.passed i (by rw [atCleanup, Reader.passed]) c live before
      · have here : s.slot c = i := by omega
        rcases skipped with free | empty
        · rwa [← here] at free
        · have pooled := poolInv.pool_of_live live.1 live.2
          rw [here, empty] at pooled
          cases pooled
  | cleanupCancel i thread atCleanup inRange busy current =>
      rintro j ⟨⟩ c live below
      simp only [pthreadCancel_pc, pthreadCancel_slot, pthreadCancel_flags] at live below ⊢
      exact inv.passed i (by rw [atCleanup, Reader.passed]) c live below
  | cleanupJoined i thread atJoin isOver =>
      rintro j ⟨⟩ c live below
      change s.slot c < i + 1 at below
      by_cases before : s.slot c < i
      · exact inv.passed i (by rw [atJoin, Reader.passed]) c live before
      · have here : s.slot c = i := by omega
        have pooled := poolInv.pool_of_live live.1 live.2
        rw [here, poolInv.cleanupJoin i thread atJoin] at pooled
        have same : thread = c := Option.some.inj pooled
        have running := live.2
        change (s.pc c).finished = false at running
        rw [← same, isOver] at running
        cases running
  | cleanupDone i atCleanup last =>
      rintro j ⟨⟩ c live below
      exact inv.passed i (by rw [atCleanup, Reader.passed]) c live (Nat.lt_of_lt_of_le below last)
  | disconnect atRead =>
      rintro j ⟨⟩ c live below
      exact absurd below (Nat.not_lt_zero _)
  | _ =>
      intro j passed
      cases passed

/-- Handlers only clear flags, and none of them starts to run again. -/
theorem ShutInv.handler {m : Move} (inv : ShutInv s)
    (row : HandlerRow job s c (s.pc c) m.pc m.effect) : ShutInv (s.perform c m) where
  slot := by
    rw [perform_count, perform_slot]
    exact inv.slot
  passed i passed d live below := by
    rw [perform_reader] at passed
    rw [perform_slot] at below
    rw [perform_pc] at live
    have wasLive : (s.pc d).isLive := by
      by_cases self : d = c
      · rw [self]
        exact row.live
      · rwa [Function.update_of_ne self] at live
    have free := inv.passed i passed d wasLive below
    rw [perform_flags, perform_slot]
    split
    · by_cases sameSlot : s.slot d = s.slot c
      · rw [sameSlot, Function.update_self]
      · rwa [Function.update_of_ne sameSlot]
    · exact free

theorem shutInv_of_reachable (reached : Reachable (step jobOf) State.initial s) : ShutInv s := by
  apply ReachableIf.invariant shutInv_initial _ reached
  intro source label target previous inv _ taken
  have clientInv := clientInv_of_reachable previous
  rcases step_cases taken with ⟨_, _, row⟩ | ⟨c, _, m, _, _, row, rfl⟩ | ⟨_, _, rfl⟩
  · exact inv.reader clientInv.pool row
  · exact inv.handler row
  · exact { inv with }

/-- When a client's resources have been freed, every thread that still runs has a flag of 0;
and if no slot was claimed between two clears of its flag, all that is left to run is the
second clear of a WORK handler. -/
theorem closed_leaves_second_clear (jobOf : Nat → List UInt8 → Job) :
    (∀ s, Reachable (step jobOf) State.initial s → s.reader = .finished →
      ∀ c, (s.pc c).isLive → s.flags (s.slot c) = false) ∧
    (∀ s, ReachableIf (step jobOf) ClaimsOver State.initial s → s.reader = .finished →
      ∀ c, (s.pc c).isLive →
        s.func c = .workHandler ∧ s.pc c = .wrapper ∧ s.cleared c = true) := by
  have inCount : ∀ s, Reachable (step jobOf) State.initial s → ∀ c, (s.pc c).isLive →
      c < s.count := by
    intro s reached c live
    apply (clientInv_of_reachable reached).reader.lt_count
    intro unread
    rw [Pc.isLive, unread] at live
    cases live.1
  have free : ∀ s, Reachable (step jobOf) State.initial s → s.reader = .finished →
      ∀ c, (s.pc c).isLive → s.flags (s.slot c) = false := by
    intro s reached closed c live
    have inv := shutInv_of_reachable reached
    exact inv.passed clientThreadCount (by rw [closed, Reader.passed]) c live
      (inv.slot c (inCount s reached c live))
  refine ⟨free, ?_⟩
  intro s reached closed c live
  have slotInv := slotInv_of_reachable reached
  have clearInv := clearInv_of_reachable reached.reachable
  have cleared : s.cleared c = true := by
    by_contra uncleared
    rw [Bool.not_eq_true] at uncleared
    have held := slotInv.held c (inCount s reached.reachable c live) uncleared
    rw [free s reached.reachable closed c live] at held
    cases held
  rcases clearInv.cleared c cleared with atWrapper | ⟨via, ended⟩
  · exact ⟨clearInv.isWork c cleared atWrapper, atWrapper, cleared⟩
  · have running := live.2
    rw [ended] at running
    cases running

/-- A WORK between its two clears when the client disconnects: the cleanup finds its flag at 0
and does not wait for it. -/
theorem second_clear_after_close :
    ∃ s, ReachableIf (step easyJob) ClaimsOver State.initial s ∧ s.reader = .finished ∧
      s.func 0 = .workHandler ∧ s.pc 0 = .wrapper ∧ s.cleared 0 = true := by
  obtain ⟨s, reached, closed⟩ :=
    exists_reachableIf_of_runIf (step easyJob) firstClaim NotClaiming
      [List.replicate 3 (.reader .move), [.reader (.create true)], solvedWork 0,
        [.reader .disconnect], List.replicate 21 (.reader .move)].flatten
      (fun s => decide (s.reader = .finished ∧ (s.pc 0).isLive)) (by decide +kernel)
  obtain ⟨isClosed, live⟩ := of_decide_eq_true closed
  have whole := firstClaim_reachable.trans (claimsOver_of_notClaiming reached)
  exact ⟨s, whole, isClosed, (closed_leaves_second_clear easyJob).2 s whole isClosed 0 live⟩

end Shutdown

end BitcoinServer.Client
