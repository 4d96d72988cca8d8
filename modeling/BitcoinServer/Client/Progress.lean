import BitcoinServer.Client.Disconnect
import BitcoinServer.Client.Permits
import BitcoinServer.Client.Waiting

/-!
Contract: freedom from deadlock between the permits of `worker_sem` and the turns of
the work queue.

In the runs of this module no WORK handler is sent a cancel and every `pthread_create`
succeeds. A handler gives its permit back before it waits for its turn, so the head of
the queue never waits for a permit that only a handler behind it can give back.
-/

namespace BitcoinServer.Client

open BitcoinServer.Command BitcoinServer.Work Transition

/-- The thread that a step passes to `pthread_cancel`. -/
def State.cancels (s : State) : Label → Option Nat
  | .reader .move =>
      match s.reader with
      | .reuse c => s.pool (s.slot c)
      | .cleanup i => if i < clientThreadCount ∧ s.flags i then s.pool i else none
      | _ => none
  | .handler c .move =>
      match s.pc c with
      | .abrt (.atCancel _ thread) => thread
      | _ => none
  | _ => none

/-- The step cancels no WORK handler and is no failed `pthread_create`. -/
def Calm (s : State) (label : Label) : Prop :=
  label ≠ .reader (.create false) ∧ ∀ t ∈ s.cancels label, (s.pc t).inWork = false

instance (s : State) (label : Label) : Decidable (Calm s label) :=
  inferInstanceAs (Decidable (_ ∧ _))

/-- The next step of the handler only tests a shared value again without success, or
sleeps until it does. -/
def State.Spins (s : State) (c : Nat) : Prop :=
  match s.pc c with
  | .work .poll | .work .pollSleep => (s.search c).solution = 0
  | .work .turn | .work .turnSleep | .cleanup _ .wait | .cleanup _ .waitSleep =>
      getTid s.queue ≠ some (s.slot c)
  | _ => False

/-- A WORK handler that does not spin, or a batch of a WORK handler, can take a step. -/
def Progresses (jobOf : Nat → List UInt8 → Job) (s : State) : Prop :=
  ∃ c, (s.pc c).inWork = true ∧
    ((¬ s.Spins c ∧ (step jobOf s (.handler c .move)).isSome) ∨
      ∃ i, (step jobOf s (.btch c i .run)).isSome)

/-- The handler waits until its slot number is at the head of the queue. -/
def Pc.awaitsTurn : Pc → Bool
  | .work .turn | .work .turnSleep | .cleanup _ .wait | .cleanup _ .waitSleep => true
  | _ => false

/-- What holds in the runs without cancels and failed creations. -/
structure CalmInv (s : State) : Prop where
  unsent : ∀ c, s.cancelSent c = true → (s.pc c).created = true ∧ (s.pc c).inWork = false
  popped : ∀ c holding at_, s.pc c ≠ .cleanup (.cancelled holding) at_
  mutex : ∀ c, s.workerMutex = some c → s.pc c = .work .send ∨ s.pc c = .work .unlock
  joining : ∀ c via i, s.pc c = .cleanup via (.joinBtch i) → i < (s.search c).btches.length

section Steps

variable {jobOf : Nat → List UInt8 → Job} {job : Job} {s next : State} {label : Label} {c : Nat}
  {m : Move}

/-! ## Cancels and the mutex -/

theorem pthreadCancel_marks {thread : Option Nat} {abort : Bool} {t : Nat}
    (sent : (s.pthreadCancel thread abort).cancelSent t = true) :
    s.cancelSent t = true ∨ (thread = some t ∧ (s.pc t).created = true) := by
  rcases pthreadCancel_cases s thread abort with same | ⟨target, isTarget, created, same⟩
  · rw [same] at sent
    exact .inl sent
  · rw [same] at sent
    change Function.update s.cancelSent target true t = true at sent
    by_cases self : t = target
    · rw [self]
      exact .inr ⟨isTarget, created⟩
    · rw [Function.update_of_ne self] at sent
      exact .inl sent

/-- A cancel request is old, or is the one that the step makes. -/
theorem readerStep_sent {act : ReaderAct} (taken : readerStep s act = some next) {t : Nat}
    (sent : next.cancelSent t = true) :
    s.cancelSent t = true ∨ (t ∈ s.cancels (.reader act) ∧ (s.pc t).created = true) := by
  have row := readerStep_row taken
  cases row with
  | reuseCancel d thread atReuse previous =>
      cases act with
      | move =>
          rcases pthreadCancel_marks sent with already | ⟨⟨⟩, created⟩
          · exact .inl already
          · exact .inr ⟨by simp [State.cancels, atReuse, previous], created⟩
      | _ => simp [readerStep, atReuse] at taken
  | cleanupCancel i thread atCleanup inRange busy current =>
      cases act with
      | move =>
          rcases pthreadCancel_marks sent with already | ⟨⟨⟩, created⟩
          · exact .inl already
          · exact .inr ⟨by simp [State.cancels, atCleanup, inRange, busy, current], created⟩
      | _ => simp [readerStep, atCleanup] at taken
  | _ => exact .inl (by simpa [State.join, State.claim] using sent)

/-- Only the walk of an ABRT handler cancels a thread. -/
theorem HandlerRow.cancels {before after : Pc} {thread : Option Nat}
    (row : HandlerRow job s c before after (.cancel thread)) :
    ∃ node, before = .abrt (.atCancel node thread) := by
  generalize isCancel : Effect.cancel thread = effect at row
  cases row with
  | walkCancel node target =>
      cases isCancel
      exact ⟨node, rfl⟩
  | _ => cases isCancel

theorem handlerStep_sent {act : HandlerAct} (moved : handlerStep job s c act = some m) {t : Nat}
    (sent : (s.perform c m).cancelSent t = true) :
    s.cancelSent t = true ∨ (t ∈ s.cancels (.handler c act) ∧ (s.pc t).created = true) := by
  have row := handlerStep_row moved
  cases effect : m.effect with
  | cancel thread =>
      rw [effect] at row
      obtain ⟨node, atCancel⟩ := row.cancels
      cases act with
      | move =>
          simp only [State.perform, State.apply, effect] at sent
          rcases pthreadCancel_marks sent with already | ⟨isTarget, created⟩
          · exact .inl already
          · refine .inr ⟨by simp [State.cancels, atCancel, isTarget], ?_⟩
            by_cases self : t = c
            · rw [self, atCancel]
              rfl
            · simpa [Function.update_of_ne self] using created
      | actCancel | stale found =>
          simp [handlerStep, atCancel, cancelPoint, abrtHandlerStale] at moved
  | _ =>
      simp only [State.perform, State.apply, effect] at sent
      exact .inl sent

/-- The holder of `worker_mutex` writes its reply and unlocks. -/
theorem HandlerRow.mutex {before after : Pc} {effect : Effect}
    (row : HandlerRow job s c before after effect) :
    (effect = .lock → after = .work .send) ∧
      (before = .work .send ∨ before = .work .unlock →
        after = .work .send ∨ after = .work .unlock ∨ effect = .unlock) := by
  cases row with
  | lock free => exact ⟨fun _ => rfl, fun _ => .inl rfl⟩
  | send => exact ⟨nofun, fun _ => .inr (.inl rfl)⟩
  | unlock => exact ⟨nofun, fun _ => .inr (.inr rfl)⟩
  | cancelled at_ point pending =>
      refine ⟨nofun, ?_⟩
      rintro (atSend | atUnlock)
      · cases atSend
        cases point
      · cases atUnlock
        cases point
  | _ => exact ⟨nofun, by rintro (impossible | impossible) <;> cases impossible⟩

/-- A cleanup is run by a cancel only where the handler acted on one. -/
theorem HandlerRow.cancelledCleanup {before after : Pc} {effect : Effect} {holding : Bool}
    {at_ : CleanupPc} (row : HandlerRow job s c before after effect)
    (inside : after = .cleanup (.cancelled holding) at_) :
    (∃ from_, before = .cleanup (.cancelled holding) from_) ∨
      before.inWork = true ∧ s.cancelSent c = true := by
  cases row with
  | cancelled from_ point pending => exact .inr ⟨rfl, pending⟩
  | resetFlag via => cases via <;> cases inside
  | _ =>
      cases inside
      try exact .inl ⟨_, rfl⟩

theorem HandlerRow.joins {before after : Pc} {effect : Effect} {via : Via} {i : Nat}
    (row : HandlerRow job s c before after effect) (joins : after = .cleanup via (.joinBtch i)) :
    before = .cleanup via (.cancelBtch i) := by
  cases row with
  | cancelBtch via i =>
      cases joins
      rfl
  | resetFlag via => cases via <;> cases joins
  | _ => cases joins

/-- A handler joins a batch that it has created. -/
theorem handlerStep_joins {act : HandlerAct} {via : Via} {i : Nat}
    (moved : handlerStep job s c act = some m) (joins : m.pc = .cleanup via (.joinBtch i)) :
    i < m.search.btches.length := by
  have before := (handlerStep_row moved).joins joins
  cases act with
  | actCancel =>
      rw [handlerStep, before, Option.ite_none_right_eq_some] at moved
      cases via <;> cases moved.2
  | stale found => simp [handlerStep, before] at moved
  | move =>
      simp only [handlerStep, handlerMove, before, workHandlerCleanup] at moved
      split at moved
      · cases moved
        cases joins
      next cancelled taken =>
        cases moved
        cases searchStep_row taken with
        | cancelBtch i btch selected =>
            show i < ((s.search c).btches.set i _).length
            rw [List.length_set]
            exact (List.getElem?_eq_some_iff.mp selected).1

/-! ## The invariant -/

theorem calmInv_initial : CalmInv State.initial := by
  constructor <;> simp [State.initial]

theorem ReaderRow.workerMutex (row : ReaderRow s next) : next.workerMutex = s.workerMutex := by
  cases row <;> simp [State.join, State.claim]

theorem CalmInv.reader {act : ReaderAct} (inv : CalmInv s) (readerInv : ReaderInv s)
    (calm : Calm s (.reader act)) (taken : readerStep s act = some next) : CalmInv next := by
  have row := readerStep_row taken
  constructor
  · intro t sent
    have settled : (s.pc t).created = true ∧ (s.pc t).inWork = false := by
      rcases readerStep_sent taken sent with already | ⟨isTarget, created⟩
      · exact inv.unsent t already
      · exact ⟨created, calm.2 t isTarget⟩
    rw [row.pc_created readerInv settled.1]
    exact settled
  · intro t holding at_ inside
    rcases row.pc t with same | claimed | failed | first
    · exact inv.popped t holding at_ (same ▸ inside)
    · rw [claimed] at inside
      cases inside
    · rw [failed] at inside
      cases inside
    · rw [first] at inside
      cases func : s.func t <;> rw [func] at inside <;> cases inside
  · intro t locked
    rw [row.workerMutex] at locked
    have created : (s.pc t).created = true := by
      rcases inv.mutex t locked with atSend | atUnlock
      · rw [atSend]
        rfl
      · rw [atUnlock]
        rfl
    rw [row.pc_created readerInv created]
    exact inv.mutex t locked
  · intro t via i joins
    rw [row.search_sent.1]
    rcases row.pc t with same | claimed | failed | first
    · exact inv.joining t via i (same ▸ joins)
    · rw [claimed] at joins
      cases joins
    · rw [failed] at joins
      cases joins
    · rw [first] at joins
      cases func : s.func t <;> rw [func] at joins <;> cases joins

theorem CalmInv.handler {act : HandlerAct} (inv : CalmInv s) (calm : Calm s (.handler c act))
    (moved : handlerStep job s c act = some m) : CalmInv (s.perform c m) := by
  have row := handlerStep_row moved
  constructor
  · intro t sent
    have settled : (s.pc t).created = true ∧ (s.pc t).inWork = false := by
      rcases handlerStep_sent moved sent with already | ⟨isTarget, created⟩
      · exact inv.unsent t already
      · exact ⟨created, calm.2 t isTarget⟩
    rw [perform_pc]
    by_cases self : t = c
    · rw [self] at settled ⊢
      rw [Function.update_self]
      refine ⟨row.created, ?_⟩
      by_contra inWork
      rw [Bool.not_eq_false] at inWork
      rw [row.inWork inWork] at settled
      cases settled.2
    · rw [Function.update_of_ne self]
      exact settled
  · intro t holding at_ inside
    rw [perform_pc] at inside
    by_cases self : t = c
    · rw [self, Function.update_self] at inside
      rcases row.cancelledCleanup inside with ⟨from_, before⟩ | ⟨inWork, pending⟩
      · exact inv.popped c holding from_ before
      · rw [(inv.unsent c pending).2] at inWork
        cases inWork
    · rw [Function.update_of_ne self] at inside
      exact inv.popped t holding at_ inside
  · intro t locked
    rw [perform_workerMutex] at locked
    rw [perform_pc]
    by_cases self : t = c
    · rw [self, Function.update_self]
      cases effect : m.effect with
      | lock => exact .inl (row.mutex.1 effect)
      | unlock =>
          rw [effect] at locked
          cases locked
      | _ =>
          rw [effect, self] at locked
          rcases row.mutex.2 (inv.mutex c locked) with atSend | atUnlock | unlocks
          · exact .inl atSend
          · exact .inr atUnlock
          · rw [effect] at unlocks
            cases unlocks
    · rw [Function.update_of_ne self]
      split at locked
      · exact absurd (Option.some.inj locked).symm self
      · cases locked
      · exact inv.mutex t locked
  · intro t via i joins
    rw [perform_pc] at joins
    rw [perform_search]
    by_cases self : t = c
    · rw [self, Function.update_self] at joins ⊢
      exact handlerStep_joins moved joins
    · rw [Function.update_of_ne self] at joins ⊢
      exact inv.joining t via i joins

theorem CalmInv.step (inv : CalmInv s) (readerInv : ReaderInv s) (calm : Calm s label)
    (taken : Client.step jobOf s label = some next) : CalmInv next := by
  cases label with
  | reader act => exact inv.reader readerInv calm taken
  | handler t act =>
      rw [Client.step, Option.map_eq_some_iff] at taken
      obtain ⟨m, moved, rfl⟩ := taken
      exact inv.handler calm moved
  | btch t i act =>
      rw [Client.step, Option.map_eq_some_iff] at taken
      obtain ⟨search, moved, rfl⟩ := taken
      refine { inv with joining := fun d via j joins => ?_ }
      have inside := inv.joining d via j joins
      show j < (Function.update s.search t search d).btches.length
      by_cases self : d = t
      · subst self
        rw [Function.update_self, searchStep_btch_length moved]
        exact inside
      · rw [Function.update_of_ne self]
        exact inside
  | others count =>
      cases taken
      exact { inv with }

theorem calmInv_of_reachable (reached : ReachableIf (Client.step jobOf) Calm State.initial s) :
    CalmInv s :=
  reached.invariant calmInv_initial
    (fun _ _ _ before inv calm taken =>
      inv.step (clientInv_of_reachable before.reachable).reader calm taken)

/-- Without cancels no WORK is struck in its cleanup. -/
theorem notStruck_of_calm (reached : ReachableIf (Client.step jobOf) Calm State.initial s) :
    ReachableIf (Client.step jobOf) (fun s label => NotStruck s label ∧ CreatesWork s label)
      State.initial s := by
  induction reached with
  | refl => exact .here
  | @tail source target previous last inductionHypothesis =>
      obtain ⟨label, calm, taken⟩ := last
      have inv := calmInv_of_reachable previous
      refine inductionHypothesis.advance label ⟨?_, fun failed => absurd failed calm.1⟩ taken
      unfold NotStruck
      split
      next c =>
        rw [Client.step, Option.map_eq_some_iff] at taken
        obtain ⟨m, moved, _⟩ := taken
        rw [handlerStep, Option.ite_none_right_eq_some] at moved
        have outside := (inv.unsent c moved.1).2
        by_contra unguarded
        rw [Bool.not_eq_false] at unguarded
        rcases Pc.unguarded_cases unguarded with ⟨i, atJoin⟩ | atSleep
        · rw [atJoin] at outside
          cases outside
        · rw [atSleep] at outside
          cases outside
      next => trivial

/-- Without cancels no permit is lost. -/
theorem permitInv_of_calm (reached : ReachableIf (Client.step jobOf) Calm State.initial s) :
    PermitInv s := by
  apply reached.invariant permitInv_initial
  intro source label target before inv _ taken
  refine inv.step ?_ taken
  intro c act _ atReset
  exact (calmInv_of_reachable before).popped c true .resetFlag atReset

end Steps

/-! ## Enabled steps -/

section Enabled

variable {jobOf : Nat → List UInt8 → Job} {s : State} {c : Nat}

/-- A batch that has not ended can run. -/
theorem btch_runs {job : Job} {search : Search} {i : Nat} {btch : Btch}
    (selected : search.btches[i]? = some btch) (running : ¬ btch.Ended) :
    (searchStep job search (.btch i .run)).isSome := by
  unfold Btch.Ended at running
  simp only [searchStep, selected]
  cases pc : btch.pc <;> simp_all [workBtch]

theorem step_btch_isSome {i : Nat} {act : BtchAct} :
    (step jobOf s (.btch c i act)).isSome =
      (searchStep (jobOf c (s.cmd c)) (s.search c) (.btch i act)).isSome := by
  rw [step, Option.isSome_map]

theorem step_handler_isSome :
    (step jobOf s (.handler c .move)).isSome = (handlerMove (jobOf c (s.cmd c)) s c).isSome := by
  rw [step, Option.isSome_map, handlerStep]

/-- A handler whose next step neither waits nor spins goes on. -/
private theorem progresses_of_move (inWork : (s.pc c).inWork = true) (busy : ¬ s.Spins c)
    (moves : (handlerMove (jobOf c (s.cmd c)) s c).isSome) : Progresses jobOf s :=
  ⟨c, inWork, .inl ⟨busy, by rw [step_handler_isSome]; exact moves⟩⟩

/-- The holder of a permit, or a batch of it, goes on. -/
theorem holder_progresses (inv : CalmInv s)
    (searching : ∀ c, (s.pc c).polls = true → (s.search c).solution = 0 →
      ∃ i, (step jobOf s (.btch c i .run)).isSome)
    (holds : (s.pc c).holdsPermit = true) : Progresses jobOf s := by
  cases pc : s.pc c with
  | cleanup via at_ =>
      cases via with
      | popped => simp [pc, Pc.holdsPermit] at holds
      | cancelled holding => exact absurd pc (inv.popped c holding at_)
  | work at_ =>
      have inWork : (s.pc c).inWork = true := by
        rw [pc]
        rfl
      cases at_ with
      | create =>
          apply progresses_of_move inWork (by simp [State.Spins, pc])
          simp only [handlerMove, pc, workHandler]
          split <;> rfl
      | semPost =>
          exact progresses_of_move inWork (by simp [State.Spins, pc])
            (by simp [handlerMove, pc, workHandler])
      | poll | pollSleep =>
          by_cases nothing : (s.search c).solution = 0
          · exact ⟨c, inWork, .inr (searching c (by rw [pc]; rfl) nothing)⟩
          · exact progresses_of_move inWork (by simpa [State.Spins, pc] using nothing)
              (by simp [handlerMove, pc, workHandler])
      | _ => simp [pc, Pc.holdsPermit, WorkPc.holdsPermit] at holds
  | _ => simp [pc, Pc.holdsPermit] at holds

/-- Where no permit is left, some handler holds one. -/
theorem exists_holder (inv : PermitInv s) (none : s.workerSem = 0) :
    ∃ c, (s.pc c).holdsPermit = true := by
  have total := inv.conserved.1
  rw [none, Nat.zero_add] at total
  have positive : 0 < s.holders := by
    rw [total]
    decide
  obtain ⟨c, member⟩ := Finset.card_pos.mp positive
  exact ⟨c, (Finset.mem_filter.mp member).2⟩

/-- The WORK whose node is at the head of the queue does not wait for one behind it. -/
theorem head_progresses (inv : CalmInv s) (permitInv : PermitInv s)
    (searching : ∀ c, (s.pc c).polls = true → (s.search c).solution = 0 →
      ∃ i, (step jobOf s (.btch c i .run)).isSome)
    (queued : (s.pc c).queued = true) (atHead : getTid s.queue = some (s.slot c)) :
    Progresses jobOf s := by
  cases pc : s.pc c with
  | work at_ =>
      have inWork : (s.pc c).inWork = true := by
        rw [pc]
        rfl
      cases at_ with
      | create | poll | pollSleep | semPost =>
          exact holder_progresses inv searching (by rw [pc]; rfl)
      | start | send | unlock =>
          exact progresses_of_move inWork (by simp [State.Spins, pc])
            (by simp [handlerMove, pc, workHandler])
      | turn | turnSleep =>
          exact progresses_of_move inWork (by simp [State.Spins, pc, atHead])
            (by simp [handlerMove, pc, workHandler])
      | semWait =>
          by_cases permit : 0 < s.workerSem
          · exact progresses_of_move inWork (by simp [State.Spins, pc])
              (by simp [handlerMove, pc, workHandler, permit])
          · obtain ⟨holder, holds⟩ := exists_holder permitInv (Nat.eq_zero_of_not_pos permit)
            exact holder_progresses inv searching holds
      | lock =>
          cases locked : s.workerMutex with
          | none =>
              exact progresses_of_move inWork (by simp [State.Spins, pc])
                (by simp [handlerMove, pc, workHandler, locked])
          | some owner =>
              have replies := inv.mutex owner locked
              refine progresses_of_move (c := owner) ?_ ?_ ?_ <;>
                rcases replies with atSend | atUnlock <;>
                simp [*, Pc.inWork, State.Spins, handlerMove, workHandler]
  | cleanup via at_ =>
      have inWork : (s.pc c).inWork = true := by
        rw [pc]
        rfl
      cases at_ with
      | resetFlag => simp [pc, Pc.queued] at queued
      | countDown | rmTid =>
          exact progresses_of_move inWork (by simp [State.Spins, pc])
            (by simp [handlerMove, pc, workHandlerCleanup])
      | wait | waitSleep =>
          exact progresses_of_move inWork (by simp [State.Spins, pc, atHead])
            (by simp [handlerMove, pc, workHandlerCleanup])
      | cancelBtch i =>
          apply progresses_of_move inWork (by simp [State.Spins, pc])
          simp only [handlerMove, pc, workHandlerCleanup]
          split <;> rfl
      | joinBtch i =>
          have inside := inv.joining c via i pc
          have selected := List.getElem?_eq_getElem inside
          by_cases ended : (s.search c).btches[i].Ended
          · apply progresses_of_move inWork (by simp [State.Spins, pc])
            simp [handlerMove, pc, workHandlerCleanup, selected, ended]
          · refine ⟨c, inWork, .inr ⟨i, ?_⟩⟩
            rw [step_btch_isSome]
            exact btch_runs selected ended
  | _ => simp [pc, Pc.queued] at queued

end Enabled

/-! ## The theorem -/

/-- Permits and turns cannot block each other: the semaphore and the handlers between
`sem_wait` and `sem_post` account for all permits, a handler that waits for its turn holds
none, and with a nonempty queue some WORK goes on, or the reader is about to create the thread
of the one at the head. -/
theorem no_deadlock (jobOf : Nat → List UInt8 → Job) {s : State}
    (reached : ReachableIf (step jobOf) Calm State.initial s)
    (searching : ∀ c, (s.pc c).polls = true → (s.search c).solution = 0 →
      ∃ i, (step jobOf s (.btch c i .run)).isSome) :
    s.workerSem + s.holders = concurrentWorkCount ∧
      (∀ c, (s.pc c).awaitsTurn = true → (s.pc c).holdsPermit = false) ∧
      (s.queue ≠ [] → Progresses jobOf s ∨
        ∃ c, s.reader = .create c ∧ s.queue.head? = some ⟨s.slot c, c⟩) := by
  have inv := calmInv_of_reachable reached
  have permitInv := permitInv_of_calm reached
  have nodes := nodesLive_of_reachable (notStruck_of_calm reached)
  have clientInv := clientInv_of_reachable reached.reachable
  refine ⟨permitInv.conserved.1, ?_, ?_⟩
  · intro c awaits
    cases pc : s.pc c with
    | work at_ => cases at_ <;> simp_all [Pc.awaitsTurn, Pc.holdsPermit, WorkPc.holdsPermit]
    | cleanup via at_ =>
        cases via with
        | popped => rfl
        | cancelled holding => exact absurd pc (inv.popped c holding at_)
    | _ => rfl
  · intro nonempty
    obtain ⟨head, rest, queue⟩ := List.exists_cons_of_ne_nil nonempty
    have member : head ∈ s.queue := by
      rw [queue]
      exact List.mem_cons_self
    have own := clientInv.queue.own head member
    rcases nodes.live head member with creating | queued
    · refine .inr ⟨head.owner, creating, ?_⟩
      rw [queue, List.head?_cons, ← own]
    · refine .inl (head_progresses inv permitInv searching queued ?_)
      rw [queue, ← own]
      rfl

/-- The one WORK of a client sleeps in its wait loop, and its batch goes on. -/
theorem no_deadlock_polling :
    ∃ s, s.queue = [⟨0, 0⟩] ∧ s.pc 0 = .work .pollSleep ∧ Progresses easyJob s := by
  obtain ⟨s, reached, passed⟩ := exists_reachableIf_of_runIf (step easyJob) State.initial Calm
    (serve easyWork 4 ++ moves 0 4)
    (fun s => decide (s.queue = [⟨0, 0⟩] ∧ s.pc 0 = .work .pollSleep ∧ s.count = 1 ∧
      s.reader = .idle ∧ (step easyJob s (.btch 0 0 .run)).isSome))
    (by decide +kernel)
  obtain ⟨queue, atSleep, one, idle, runs⟩ := of_decide_eq_true passed
  have searching : ∀ c, (s.pc c).polls = true → (s.search c).solution = 0 →
      ∃ i, (step easyJob s (.btch c i .run)).isSome := by
    intro c polls _
    have read : c < s.count := by
      apply (clientInv_of_reachable reached.reachable).reader.lt_count
      intro unread
      rw [unread] at polls
      cases polls
    obtain rfl : c = 0 := by omega
    exact ⟨0, runs⟩
  refine ⟨s, queue, atSleep, ?_⟩
  rcases (no_deadlock easyJob reached searching).2.2 (by rw [queue]; decide) with
    progresses | ⟨c, creating, _⟩
  · exact progresses
  · rw [idle] at creating
    cases creating

/-- Between `push_tid` and `pthread_create` the queue is not empty, and there is no WORK
handler and no batch. -/
theorem pushed_before_created :
    ¬ ∀ (jobOf : Nat → List UInt8 → Job) (s : State),
      ReachableIf (step jobOf) Calm State.initial s →
      (∀ c, (s.pc c).polls = true → (s.search c).solution = 0 →
        ∃ i, (step jobOf s (.btch c i .run)).isSome) →
      s.queue ≠ [] →
        (∃ c act, (s.pc c).inWork = true ∧ (step jobOf s (.handler c act)).isSome) ∨
          ∃ c i act, (step jobOf s (.btch c i act)).isSome := by
  intro someWork
  obtain ⟨s, reached, passed⟩ := exists_reachableIf_of_runIf (step easyJob) State.initial Calm
    (.reader (.take easyWork) :: List.replicate 4 (.reader .move))
    (fun s => decide (s.queue ≠ [] ∧ s.count = 1 ∧ s.pc 0 = .claimed)) (by decide +kernel)
  obtain ⟨nonempty, one, claimed⟩ := of_decide_eq_true passed
  have readerInv := (clientInv_of_reachable reached.reachable).reader
  have outside : ∀ c, s.pc c = .claimed ∨ s.pc c = .unread := by
    intro c
    by_cases first : c = 0
    · exact .inl (first ▸ claimed)
    · exact .inr ((readerInv.unread c).mpr (by omega))
  have noPoll : ∀ c, (s.pc c).polls = true → (s.search c).solution = 0 →
      ∃ i, (step easyJob s (.btch c i .run)).isSome := by
    intro c polls
    rcases outside c with atClaim | unread
    · rw [atClaim] at polls
      cases polls
    · rw [unread] at polls
      cases polls
  rcases someWork easyJob s reached noPoll nonempty with ⟨c, _, inWork, _⟩ | ⟨c, i, act, runs⟩
  · rcases outside c with atClaim | unread
    · rw [atClaim] at inWork
      cases inWork
    · rw [unread] at inWork
      cases inWork
  · have uncreated : (s.pc c).created = false := by
      rcases outside c with atClaim | unread
      · rw [atClaim]
        rfl
      · rw [unread]
        rfl
    rw [step_btch_isSome, (waitInv_of_reachable reached.reachable).untouched c uncreated] at runs
    cases runs

end BitcoinServer.Client
