import BitcoinServer.Client.Turn
import Mathlib.Algebra.BigOperators.Group.Finset.Piecewise
import Mathlib.Algebra.Order.BigOperators.Group.Finset

/-!
Contract: the permits of `worker_sem`.

`work_handler_cleanup` never calls `sem_post`, so a handler that acts on a cancel
between `sem_wait` and `sem_post` takes its permit with it. In every reachable
state the semaphore, the live holders and the ended threads of this kind make up
`CONCURRENT_WORK_COUNT`; the permits are conserved just as long as no such
thread has ended.
-/

namespace BitcoinServer.Client

open BitcoinServer.Command BitcoinServer.Work Transition

/-- An ended WORK handler that acted on a cancel while it held a permit. -/
def Pc.lostPermit : Pc → Bool
  | .ended (.cancelled holding) => holding
  | _ => false

/-- The permits a thread accounts for: the one it holds, or the one it lost. -/
def Pc.permits (pc : Pc) : Nat :=
  if pc.holdsPermit = true ∨ pc.lostPermit = true then 1 else 0

/-- The live WORK handlers past `sem_wait` that have not reached `sem_post`. -/
def State.holders (s : State) : Nat :=
  ((Finset.range s.count).filter fun c => (s.pc c).holdsPermit = true).card

/-- The value of `worker_sem` and the permits held make up the initial value; once
every WORK has ended the semaphore is back at it. -/
def PermitsConserved (s : State) : Prop :=
  s.workerSem + s.holders = concurrentWorkCount ∧
    ((∀ c ∈ s.admitted, (s.pc c).finished = true) → s.workerSem = concurrentWorkCount)

instance (s : State) : Decidable (PermitsConserved s) :=
  inferInstanceAs (Decidable (_ ∧ _))

/-- The step does not end a WORK handler that acted on a cancel between its
`sem_wait` and its `sem_post`. -/
def KeepsPermits (s : State) (label : Label) : Prop :=
  ∀ c act, label = .handler c act → s.pc c ≠ .cleanup (.cancelled true) .resetFlag

/-! ## Counting -/

/-- The permits all commands account for. -/
def State.permits (s : State) : Nat :=
  ∑ c ∈ Finset.range s.count, (s.pc c).permits

private theorem sum_permits_update (pc : Nat → Pc) {count c : Nat} (inCount : c < count)
    (after : Pc) :
    (∑ d ∈ Finset.range count, (Function.update pc c after d).permits) + (pc c).permits =
      (∑ d ∈ Finset.range count, (pc d).permits) + after.permits := by
  have member : c ∈ Finset.range count := Finset.mem_range.mpr inCount
  have updated : (fun d => (Function.update pc c after d).permits) =
      Function.update (fun d => (pc d).permits) c after.permits :=
    Function.comp_update Pc.permits pc c after
  rw [updated, Finset.sum_update_of_mem member]
  have whole := Finset.add_sum_erase _ (fun d => (pc d).permits) member
  rw [Finset.erase_eq] at whole
  omega

theorem holders_eq_permits {s : State} (noneLost : ∀ c, (s.pc c).lostPermit = false) :
    s.holders = s.permits := by
  have each : ∀ c, (s.pc c).permits = if (s.pc c).holdsPermit = true then 1 else 0 := by
    intro c
    simp [Pc.permits, noneLost c]
  unfold State.holders State.permits
  rw [Finset.sum_congr rfl fun c _ => each c, Finset.card_filter]

theorem holders_lt_permits {s : State} {c : Nat} (inCount : c < s.count)
    (lost : (s.pc c).lostPermit = true) (notHolding : (s.pc c).holdsPermit = false) :
    s.holders < s.permits := by
  unfold State.holders State.permits
  rw [Finset.card_filter]
  apply Finset.sum_lt_sum
  · intro d _
    unfold Pc.permits
    split <;> simp_all
  · refine ⟨c, Finset.mem_range.mpr inCount, ?_⟩
    simp [Pc.permits, lost, notHolding]

/-! ## Steps -/

section Steps

variable {jobOf : Nat → List UInt8 → Job} {job : Job} {s next : State} {c : Nat}

theorem HandlerRow.permits {before after : Pc} {effect : Effect}
    (row : HandlerRow job s c before after effect) :
    effect.workerSem s.workerSem + after.permits = s.workerSem + before.permits := by
  cases row with
  | acquire permit => exact Nat.sub_add_cancel permit
  | resetFlag via => rcases via with _ | _ | _ <;> rfl
  | cancelled at_ point pending => cases at_ <;> rfl
  | countDown via | btchesJoined via i | cancelBtch via i | joinBtch via i | waitCome via atHead
  | waitAgain via | waitWake via | rmTid via => cases via <;> rfl
  | _ => rfl

theorem permits_reader (readerInv : ReaderInv s) (row : ReaderRow s next) :
    next.workerSem + next.permits = s.workerSem + s.permits := by
  cases row with
  | claim cmd slot atClaim avail =>
      have old : ∀ d ∈ Finset.range s.count,
          (Function.update s.pc s.count .claimed d).permits = (s.pc d).permits := by
        intro d inCount
        rw [Function.update_of_ne (Nat.ne_of_lt (Finset.mem_range.mp inCount))]
      show s.workerSem + ∑ d ∈ Finset.range (s.count + 1),
        (Function.update s.pc s.count .claimed d).permits = _
      rw [Finset.sum_range_succ, Finset.sum_congr rfl old, Function.update_self]
      rfl
  | created c atCreate =>
      have isCurrent : s.reader.current = some c := by rw [atCreate, Reader.current]
      have last := readerInv.current c isCurrent
      have inCount : c < s.count := by omega
      have moved := sum_permits_update s.pc inCount (firstPc (s.func c))
      rw [readerInv.pc_current isCurrent] at moved
      have holdsNone : (firstPc (s.func c)).permits = 0 := by
        cases s.func c <;> rfl
      rw [holdsNone] at moved
      exact congrArg (s.workerSem + ·) moved
  | notCreated c atCreate =>
      have isCurrent : s.reader.current = some c := by rw [atCreate, Reader.current]
      have last := readerInv.current c isCurrent
      have inCount : c < s.count := by omega
      have moved := sum_permits_update s.pc inCount .failed
      rw [readerInv.pc_current isCurrent] at moved
      exact congrArg (s.workerSem + ·) moved
  | _ => simp [State.permits, State.join]

theorem permits_handler {m : Move} (readerInv : ReaderInv s)
    (row : HandlerRow job s c (s.pc c) m.pc m.effect) :
    (s.perform c m).workerSem + (s.perform c m).permits = s.workerSem + s.permits := by
  have inCount : c < s.count := by
    apply readerInv.lt_count
    intro unread
    have created := row.live.1
    rw [unread] at created
    cases created
  have moved := sum_permits_update s.pc inCount m.pc
  have exchanged := row.permits
  unfold State.permits
  rw [perform_count, perform_pc, perform_workerSem]
  omega

theorem permits_step {label : Label} (inv : ClientInv s)
    (taken : step jobOf s label = some next) :
    next.workerSem + next.permits = s.workerSem + s.permits := by
  rcases step_cases taken with ⟨_, _, row⟩ | ⟨c, _, m, _, _, row, rfl⟩ | ⟨_, _, rfl⟩
  · exact permits_reader inv.reader row
  · exact permits_handler inv.reader row
  · rfl

theorem HandlerRow.lostPermit {before after : Pc} {effect : Effect}
    (row : HandlerRow job s c before after effect) (lost : after.lostPermit = true) :
    before = .cleanup (.cancelled true) .resetFlag := by
  cases row with
  | resetFlag via =>
      rcases via with _ | _ | _
      · cases lost
      · cases lost
      · rfl
  | _ => cases lost

theorem ReaderRow.lostPermit (row : ReaderRow s next) (noneLost : ∀ d, (s.pc d).lostPermit = false)
    (d : Nat) : (next.pc d).lostPermit = false := by
  rcases row.pc d with same | claimed | failed | first
  · rw [same]
    exact noneLost d
  · rw [claimed]
    rfl
  · rw [failed]
    rfl
  · rw [first]
    cases s.func d <;> rfl

end Steps

/-! ## Runs -/

section Runs

variable {jobOf : Nat → List UInt8 → Job} {s next : State} {label : Label}

/-- The invariant of the runs that lose no permit. -/
structure PermitInv (s : State) : Prop where
  client : ClientInv s
  total : s.workerSem + s.permits = concurrentWorkCount
  noneLost : ∀ c, (s.pc c).lostPermit = false

theorem permitInv_initial : PermitInv State.initial where
  client := clientInv_initial
  total := rfl
  noneLost _ := rfl

theorem PermitInv.step (inv : PermitInv s) (keeps : KeepsPermits s label)
    (taken : step jobOf s label = some next) : PermitInv next where
  client := inv.client.step taken
  total := by
    rw [permits_step inv.client taken]
    exact inv.total
  noneLost d := by
    rcases step_cases taken with ⟨_, _, row⟩ | ⟨c, act, m, isHandler, _, row, rfl⟩ | ⟨_, _, rfl⟩
    · exact row.lostPermit inv.noneLost d
    · rw [perform_pc]
      by_cases self : d = c
      · rw [self, Function.update_self]
        by_contra lost
        rw [Bool.not_eq_false] at lost
        exact keeps c act isHandler (row.lostPermit lost)
      · rw [Function.update_of_ne self]
        exact inv.noneLost d
    · exact inv.noneLost d

/-- A thread that holds a permit runs an admitted WORK. -/
theorem admitted_of_holdsPermit (inv : ClientInv s) {c : Nat}
    (holds : (s.pc c).holdsPermit = true) :
    c ∈ s.admitted ∧ (s.pc c).finished = false := by
  have runs := inv.queue.runs c
  cases atPc : s.pc c with
  | work at_ =>
      rw [atPc] at runs
      exact ⟨inv.queue.pushed c (.inr (by rw [atPc]; rfl)) runs, rfl⟩
  | cleanup via at_ =>
      rw [atPc] at runs
      exact ⟨inv.queue.pushed c (.inr (by rw [atPc]; rfl)) runs, rfl⟩
  | _ =>
      rw [atPc] at holds
      cases holds

theorem PermitInv.conserved (inv : PermitInv s) : PermitsConserved s := by
  have holders := inv.total
  rw [← holders_eq_permits inv.noneLost] at holders
  refine ⟨holders, fun allEnded => ?_⟩
  have noHolder : s.holders = 0 := by
    unfold State.holders
    rw [Finset.card_eq_zero, Finset.filter_eq_empty_iff]
    intro c _ holds
    obtain ⟨member, live⟩ := admitted_of_holdsPermit inv.client holds
    rw [allEnded c member] at live
    cases live
  omega

/-- A handler that ends with a permit takes it out of the count for good. -/
theorem PermitInv.broken (inv : PermitInv s) (loses : ¬ KeepsPermits s label)
    (taken : Client.step jobOf s label = some next) : ¬ PermitsConserved next := by
  unfold KeepsPermits at loses
  push Not at loses
  obtain ⟨c, act, rfl, atReset⟩ := loses
  have total := permits_step inv.client taken
  rw [inv.total] at total
  rw [Client.step, Option.map_eq_some_iff] at taken
  obtain ⟨m, moved, rfl⟩ := taken
  have ended : ((s.perform c m).pc c) = .ended (.cancelled true) := by
    have row := handlerStep_row moved
    rw [atReset] at row
    rw [perform_pc, Function.update_self]
    generalize m.pc = after, m.effect = effect at row
    cases row
    rfl
  have inCount : c < (s.perform c m).count := by
    rw [perform_count]
    exact inv.client.reader.lt_count (by simp [atReset])
  have fewer := holders_lt_permits inCount (by rw [ended]; rfl) (by rw [ended]; rfl)
  rintro ⟨conserved, _⟩
  omega

/-- The permits are conserved all along a run just when no step of it ends a WORK
handler that acted on a cancel between its `sem_wait` and its `sem_post`. -/
theorem permits_conserved_iff (jobOf : Nat → List UInt8 → Job) (labels : List Label) :
    AllStates (step jobOf) PermitsConserved State.initial labels ↔
      AllSteps (step jobOf) KeepsPermits State.initial labels :=
  allStates_iff_allSteps (fun _ inv => inv.conserved)
    (fun _ _ _ inv keeps taken => inv.step keeps taken)
    (fun _ _ _ inv loses taken => inv.broken loses taken) permitInv_initial labels

/-- A WORK that no nonce solves, an ABRT while it polls, and its cancelled cleanup. -/
def abortedWork : List Label :=
  [serve hardWork 4, moves 0 4, serve abrtCmd 3, moves 1 4, [.handler 0 .actCancel], moves 0 2,
    List.replicate 2 (.btch 0 0 .run), moves 0 5].flatten

/-- After one aborted WORK the semaphore stays at 2. -/
theorem aborted_work_keeps_permit :
    ¬ ∀ (jobOf : Nat → List UInt8 → Job) (s : State),
      Reachable (step jobOf) State.initial s → PermitsConserved s := by
  intro conserved
  obtain ⟨s, reached, lost⟩ :=
    exists_reachable_of_run (step hardJob) State.initial
      abortedWork (fun s => decide (¬ PermitsConserved s)) (by decide +kernel)
  exact of_decide_eq_true lost (conserved _ s reached)

end Runs

end BitcoinServer.Client
