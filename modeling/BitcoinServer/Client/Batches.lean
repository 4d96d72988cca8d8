import BitcoinServer.Client.Endings
import BitcoinServer.Client.Waiting

/-!
Contract: a batch ends before what it uses is gone.

`work_btch` reads the target, the seed and `solution` of its handler, and its
arguments, `cancelled` and the mutex, which `work_handler_cleanup` frees behind
the loop that joins the batches. Owns: a running batch has a handler that has
not joined it, or one that a cancel has killed in that loop.
-/

namespace BitcoinServer.Client

open BitcoinServer.Command BitcoinServer.Work Transition

/-- The first batch that may still run. `struck` says whether a cancel may have killed the
handler in its cleanup. -/
def Pc.batchesFrom (struck : Bool) : Pc → Option Nat
  | .work _ | .cleanup _ .countDown => some 0
  | .cleanup _ (.cancelBtch i) | .cleanup _ (.joinBtch i) => some i
  | .died => if struck then some 0 else none
  | _ => none

/-- Batch `i` has been created and has not ended. -/
def BatchRuns (search : Search) (i : Nat) : Prop :=
  ∃ btch, search.btches[i]? = some btch ∧ ¬ btch.Ended

/-- Every running batch is one that its handler still has to join. -/
def BatchInv (struck : Bool) (s : State) : Prop :=
  ∀ c i, BatchRuns (s.search c) i → ∃ first ∈ (s.pc c).batchesFrom struck, first ≤ i

section Batches

variable {jobOf : Nat → List UInt8 → Job} {job : Job} {s next : State} {label : Label} {c : Nat}
  {m : Move} {struck : Bool}

theorem not_batchRuns_initial (i : Nat) : ¬ BatchRuns .initial i := by
  rintro ⟨btch, created, _⟩
  cases created

/-- A batch that has been replaced runs if both the old thread and the new one do. -/
theorem batchRuns_of_set {search : Search} {solution : UInt64} {cancelled : Bool} {i j : Nat}
    {btch moved : Btch} (selected : search.btches[j]? = some btch) (running : ¬ btch.Ended)
    (runs : BatchRuns ⟨solution, cancelled, search.btches.set j moved⟩ i) :
    BatchRuns search i := by
  obtain ⟨after, created, afterRuns⟩ := runs
  by_cases same : i = j
  · rw [same]
    exact ⟨btch, selected, running⟩
  · rw [List.getElem?_set_ne (Ne.symm same)] at created
    exact ⟨after, created, afterRuns⟩

theorem btchRow_running {search : Search} {btch moved : Btch} {act : BtchAct} {solution : UInt64}
    (row : BtchRow job search btch act moved solution) : ¬ btch.Ended := by
  unfold Btch.Ended
  cases row <;> simp [*]

/-- A batch that runs after a step of one of them was running before. -/
theorem batchRuns_of_btch {search moved : Search} {i j : Nat} {act : BtchAct}
    (taken : searchStep job search (.btch j act) = some moved) (runs : BatchRuns moved i) :
    BatchRuns search i := by
  have row := searchStep_row taken
  cases row with
  | btch j act btch after solution selected row =>
      exact batchRuns_of_set selected (btchRow_running row) runs

/-- A cancel request ends no batch and starts none. -/
theorem batchRuns_of_cancelBtch {search moved : Search} {i j : Nat}
    (taken : searchStep job search (.cancelBtch j) = some moved) (runs : BatchRuns moved i) :
    BatchRuns search i := by
  have row := searchStep_row taken
  cases row with
  | cancelBtch j btch selected =>
      obtain ⟨after, created, afterRuns⟩ := runs
      by_cases same : i = j
      · subst same
        refine ⟨btch, selected, fun isOver => afterRuns ?_⟩
        rw [List.getElem?_set_self', selected] at created
        cases created
        exact isOver
      · rw [List.getElem?_set_ne (Ne.symm same)] at created
        exact ⟨after, created, afterRuns⟩

/-- The cleanup leaves its loop when every batch has been joined. -/
theorem workHandlerCleanup_batches {via : Via} {at_ : CleanupPc} {i : Nat}
    (taken : workHandlerCleanup job s c via at_ = some m) (runs : BatchRuns m.search i) :
    BatchRuns (s.search c) i ∧
      ∀ first ∈ (Pc.cleanup via at_).batchesFrom struck, first ≤ i →
        ∃ later ∈ m.pc.batchesFrom struck, later ≤ i := by
  cases at_ with
  | countDown =>
      cases taken
      exact ⟨runs, fun _ _ _ => ⟨0, rfl, Nat.zero_le i⟩⟩
  | cancelBtch j =>
      cases cancelled : searchStep job (s.search c) (.cancelBtch j) with
      | none =>
          simp only [workHandlerCleanup, cancelled] at taken
          cases taken
          refine ⟨runs, ?_⟩
          rintro first ⟨⟩ reached
          have past : (s.search c).btches.length ≤ j := by
            cases selected : (s.search c).btches[j]? with
            | none => exact List.getElem?_eq_none_iff.mp selected
            | some btch => simp [searchStep, selected] at cancelled
          obtain ⟨btch, created, _⟩ := runs
          have inList : i < (s.search c).btches.length := (List.getElem?_eq_some_iff.mp created).1
          omega
      | some next =>
          simp only [workHandlerCleanup, cancelled] at taken
          cases taken
          refine ⟨batchRuns_of_cancelBtch cancelled runs, ?_⟩
          rintro first ⟨⟩ reached
          exact ⟨j, rfl, reached⟩
  | joinBtch j =>
      cases created : (s.search c).btches[j]? with
      | none => simp [workHandlerCleanup, created] at taken
      | some btch =>
          simp only [workHandlerCleanup, created, Option.ite_none_right_eq_some] at taken
          obtain ⟨isOver, ⟨⟩⟩ := taken
          refine ⟨runs, ?_⟩
          rintro first ⟨⟩ reached
          refine ⟨j + 1, rfl, Nat.lt_of_le_of_ne reached ?_⟩
          rintro rfl
          obtain ⟨other, same, running⟩ := runs
          rw [created] at same
          cases same
          exact running isOver
  | _ =>
      cases taken
      exact ⟨runs, fun _ impossible => by cases impossible⟩

theorem abrtHandler_search {at_ : AbrtPc} (taken : abrtHandler s c at_ = some m) :
    m.search = s.search c := by
  cases at_ with
  | atNode node =>
      rw [abrtHandler, Option.map_eq_some_iff] at taken
      obtain ⟨_, _, ⟨⟩⟩ := taken
      rfl
  | atNext node =>
      rw [abrtHandler, Option.ite_none_right_eq_some] at taken
      obtain ⟨_, ⟨⟩⟩ := taken
      rfl
  | _ =>
      cases taken
      rfl

theorem abrtHandlerStale_search {at_ : AbrtPc} {found : Option Nat}
    (taken : abrtHandlerStale s c found at_ = some m) : m.search = s.search c := by
  cases at_ with
  | atNode node | atNext node =>
      rw [abrtHandlerStale, Option.ite_none_left_eq_some] at taken
      obtain ⟨_, ⟨⟩⟩ := taken
      rfl
  | _ => cases taken

/-- `work_handler` goes on, or into its cleanup. -/
theorem HandlerRow.batchesFrom_work {before after : Pc} {effect : Effect} {at_ : WorkPc}
    (row : HandlerRow job s c before after effect) (inside : before = .work at_) :
    after.batchesFrom struck = some 0 := by
  cases row with
  | resetFlag via => cases inside
  | _ => first | rfl | cases inside

/-- A thread that acts on a cancel cleans up, or dies; in a popped cleanup it dies. -/
theorem cancelPoint_batchesFrom {before after : Pc} (point : cancelPoint before = some after) :
    after.batchesFrom struck = some 0 ∨
      after = .died ∧ (before.unguarded = true ∨ before.batchesFrom struck = none) := by
  cases before with
  | work at_ => cases at_ <;> cases point <;> exact .inl rfl
  | cleanup via at_ =>
      cases via with
      | cancelled holding => cases point
      | popped => cases at_ <;> cases point <;> exact .inr ⟨rfl, .inl rfl⟩
  | nap =>
      cases point
      exact .inr ⟨rfl, .inr rfl⟩
  | _ => cases point

/-- A step of a handler keeps the invariant for its own batches. -/
theorem handlerStep_batches {act : HandlerAct} {i : Nat}
    (taken : handlerStep job s c act = some m)
    (guarded : struck = false → act = .actCancel → (s.pc c).unguarded = false)
    (inv : ∀ i, BatchRuns (s.search c) i → ∃ first ∈ (s.pc c).batchesFrom struck, first ≤ i)
    (runs : BatchRuns m.search i) : ∃ later ∈ m.pc.batchesFrom struck, later ≤ i := by
  have fromStart : m.pc.batchesFrom struck = some 0 →
      ∃ later ∈ m.pc.batchesFrom struck, later ≤ i := fun all => ⟨0, all, Nat.zero_le i⟩
  cases act with
  | actCancel =>
      rw [handlerStep, Option.ite_none_right_eq_some, Option.map_eq_some_iff] at taken
      obtain ⟨_, pc, point, rfl⟩ := taken
      rcases cancelPoint_batchesFrom point with all | ⟨died, unguarded | none⟩
      · exact fromStart all
      · cases struck with
        | false =>
            rw [guarded rfl rfl] at unguarded
            cases unguarded
        | true => exact fromStart (by rw [died]; rfl)
      · obtain ⟨first, some, _⟩ := inv i runs
        rw [none] at some
        cases some
  | stale found =>
      cases before : s.pc c with
      | abrt at_ =>
          simp only [handlerStep, before] at taken
          rw [abrtHandlerStale_search taken] at runs
          obtain ⟨first, none, _⟩ := inv i runs
          rw [before] at none
          cases none
      | _ => simp [handlerStep, before] at taken
  | move =>
      rw [handlerStep] at taken
      cases before : s.pc c with
      | work at_ =>
          simp only [handlerMove, before] at taken
          exact fromStart ((workHandler_row taken).batchesFrom_work rfl)
      | cleanup via at_ =>
          simp only [handlerMove, before] at taken
          obtain ⟨ran, further⟩ := workHandlerCleanup_batches taken runs
          obtain ⟨first, stillFrom, reached⟩ := inv i ran
          rw [before] at stillFrom
          exact further first stillFrom reached
      | abrt at_ =>
          simp only [handlerMove, before] at taken
          rw [abrtHandler_search taken] at runs
          obtain ⟨first, none, _⟩ := inv i runs
          rw [before] at none
          cases none
      | body | nap | wake | wrapper =>
          simp only [handlerMove, before, Option.some.injEq] at taken
          rw [← taken] at runs
          obtain ⟨first, none, _⟩ := inv i runs
          rw [before] at none
          cases none
      | _ => simp [handlerMove, before] at taken

theorem batchInv_initial : BatchInv struck State.initial :=
  fun _ i runs => absurd runs (not_batchRuns_initial i)

theorem BatchInv.reader (inv : BatchInv struck s) (waitInv : WaitInv jobOf s)
    (readerInv : ReaderInv s) (row : ReaderRow s next) : BatchInv struck next := by
  intro c i runs
  rw [row.search_sent.1] at runs
  have created : (s.pc c).created = true := by
    by_contra uncreated
    rw [Bool.not_eq_true] at uncreated
    rw [waitInv.untouched c uncreated] at runs
    exact not_batchRuns_initial i runs
  rw [row.pc_created readerInv created]
  exact inv c i runs

theorem BatchInv.handler {act : HandlerAct} (inv : BatchInv struck s)
    (taken : handlerStep job s c act = some m)
    (guarded : struck = false → act = .actCancel → (s.pc c).unguarded = false) :
    BatchInv struck (s.perform c m) := by
  intro d i runs
  rw [perform_search] at runs
  rw [perform_pc]
  by_cases self : d = c
  · subst self
    rw [Function.update_self] at runs ⊢
    exact handlerStep_batches taken guarded (inv d) runs
  · rw [Function.update_of_ne self] at runs ⊢
    exact inv d i runs

theorem BatchInv.btch {search : Search} {j : Nat} {act : BtchAct} (inv : BatchInv struck s)
    (moved : searchStep job (s.search c) (.btch j act) = some search) :
    BatchInv struck { s with search := Function.update s.search c search } := by
  intro d i runs
  change BatchRuns (Function.update s.search c search d) i at runs
  by_cases self : d = c
  · subst self
    rw [Function.update_self] at runs
    exact inv d i (batchRuns_of_btch moved runs)
  · rw [Function.update_of_ne self] at runs
    exact inv d i runs

/-- Without a cancel in the popped cleanup of a WORK, no thread with running batches dies. -/
theorem BatchInv.step (inv : BatchInv struck s) (clientInv : ClientInv s)
    (waitInv : WaitInv jobOf s) (notStruck : struck = false → NotStruck s label)
    (taken : Client.step jobOf s label = some next) : BatchInv struck next := by
  cases label with
  | reader act => exact inv.reader waitInv clientInv.reader (readerStep_row taken)
  | handler c act =>
      rw [Client.step, Option.map_eq_some_iff] at taken
      obtain ⟨m, moved, rfl⟩ := taken
      apply inv.handler moved
      rintro unstruck rfl
      exact notStruck unstruck
  | btch c i act =>
      rw [Client.step, Option.map_eq_some_iff] at taken
      obtain ⟨search, moved, rfl⟩ := taken
      exact inv.btch moved
  | others count =>
      cases taken
      exact inv

theorem batchInv_of_reachable {allowed : State → Label → Prop}
    (notStruck : struck = false → ∀ s label, allowed s label → NotStruck s label)
    (reached : ReachableIf (Client.step jobOf) allowed State.initial s) : BatchInv struck s := by
  apply reached.invariant batchInv_initial
  intro source label target previous inv permitted taken
  exact inv.step (clientInv_of_reachable previous.reachable)
    (waitInv_of_reachable previous.reachable)
    (fun unstruck => notStruck unstruck source label permitted) taken

theorem Pc.batchesFrom_unstruck {pc : Pc} (alive : pc ≠ .died) :
    pc.batchesFrom true = pc.batchesFrom false := by
  cases pc with
  | died => exact absurd rfl alive
  | cleanup via at_ => cases at_ <;> rfl
  | _ => rfl

/-- A batch that can still make a step has a handler that has not joined it yet, unless a
cancel has killed the handler; and no handler is killed with a batch running in a run
without cancels in popped cleanups. -/
theorem batches_joined (jobOf : Nat → List UInt8 → Job) :
    (∀ s c i act next, Reachable (step jobOf) State.initial s →
      step jobOf s (.btch c i act) = some next →
        s.pc c = .died ∨ ∃ first ∈ (s.pc c).batchesFrom false, first ≤ i) ∧
    (∀ s c i act next, ReachableIf (step jobOf) NotStruck State.initial s →
      step jobOf s (.btch c i act) = some next →
        ∃ first ∈ (s.pc c).batchesFrom false, first ≤ i) := by
  have runs : ∀ s c i act next, step jobOf s (.btch c i act) = some next →
      BatchRuns (s.search c) i := by
    intro s c i act next taken
    rw [step, Option.map_eq_some_iff] at taken
    obtain ⟨search, moved, _⟩ := taken
    cases searchStep_row moved with
    | btch i act btch after solution selected row =>
        exact ⟨btch, selected, btchRow_running row⟩
  constructor
  · intro s c i act next reached taken
    have inv : BatchInv true s :=
      batchInv_of_reachable (fun impossible => by cases impossible) reached
    obtain ⟨first, stillFrom, before⟩ := inv c i (runs s c i act next taken)
    by_cases died : s.pc c = .died
    · exact .inl died
    · rw [Pc.batchesFrom_unstruck died] at stillFrom
      exact .inr ⟨first, stillFrom, before⟩
  · intro s c i act next reached taken
    exact batchInv_of_reachable (fun _ _ _ permitted => permitted) reached c i
      (runs s c i act next taken)

/-- A WORK with two batches, the first of which finds a solution. -/
def twoJob (_ : Nat) (_ : List UInt8) : Job := ⟨1, 2, fun _ => true, fun _ => []⟩

/-- The second batch still runs while the handler joins it. -/
theorem batches_joined_two :
    ∃ s next, step twoJob s (.btch 0 1 .run) = some next ∧ s.pc 0 = .cleanup .popped (.joinBtch 1) ∧
      ∃ first ∈ (s.pc 0).batchesFrom false, first ≤ 1 := by
  obtain ⟨s, reached, joins⟩ :=
    exists_reachableIf_of_runIf (step twoJob) State.initial NotStruck
      [serve easyWork 4, moves 0 4, List.replicate 4 (.btch 0 0 .run), moves 0 10].flatten
      (fun s => decide (s.pc 0 = .cleanup .popped (.joinBtch 1)) &&
        (step twoJob s (.btch 0 1 .run)).isSome) (by decide +kernel)
  rw [Bool.and_eq_true] at joins
  obtain ⟨next, taken⟩ := Option.isSome_iff_exists.mp joins.2
  exact ⟨s, next, taken, of_decide_eq_true joins.1,
    (batches_joined twoJob).2 s 0 1 .run next reached taken⟩

/-- A cancel kills the handler in that loop, and the batch runs on without it. -/
example : ∃ s, Reachable (step twoJob) State.initial s ∧ s.pc 0 = .died ∧
      (step twoJob s (.btch 0 1 .run)).isSome = true := by
  obtain ⟨s, reached, killed⟩ :=
    exists_reachable_of_run (step twoJob) State.initial
      [serve easyWork 4, moves 0 4, List.replicate 4 (.btch 0 0 .run), moves 0 10,
        serve abrtCmd 3, moves 1 4, [.handler 0 .actCancel]].flatten
      (fun s => decide (s.pc 0 = .died) && (step twoJob s (.btch 0 1 .run)).isSome)
      (by decide +kernel)
  rw [Bool.and_eq_true] at killed
  exact ⟨s, reached, of_decide_eq_true killed.1, killed.2⟩

end Batches

end BitcoinServer.Client
