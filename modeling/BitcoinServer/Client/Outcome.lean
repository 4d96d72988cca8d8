import BitcoinServer.Client.Progress

/-!
Contract: what becomes of a WORK command.

Owns, for every run: `worker_mutex` belongs to the one handler between its lock
and its unlock, and a WORK command has been answered exactly if its handler is
past `send_message`, and then once. A handler that a cancel has sent into its
cleanup never answers.
-/

namespace BitcoinServer.Client

open BitcoinServer.Command BitcoinServer.Work Transition

/-- A handler that holds `worker_mutex`. -/
def Pc.locks : Pc → Bool
  | .work .send | .work .unlock => true
  | _ => false

structure OutcomeInv (s : State) : Prop where
  mutex : ∀ c, s.workerMutex = some c ↔ (s.pc c).locks = true
  answered : ∀ c, c ∈ s.sent.map Prod.fst ↔
    s.func c = .workHandler ∧ (s.pc c).replied = true
  once : (s.sent.map Prod.fst).Nodup

section Outcome

variable {jobOf : Nat → List UInt8 → Job} {job : Job} {s next : State} {label : Label} {c : Nat}
  {m : Move}

theorem outcomeInv_initial : OutcomeInv State.initial := by
  constructor <;> simp [State.initial, Pc.locks, Pc.replied]

/-- A thread has the mutex from its lock to its unlock. -/
theorem HandlerRow.locks {before after : Pc} {effect : Effect}
    (row : HandlerRow job s c before after effect) :
    (after.locks = true ↔ effect = .lock ∨ before.locks = true ∧ effect ≠ .unlock) ∧
      (effect = .lock → s.workerMutex = none) ∧ (effect = .unlock → before.locks = true) := by
  cases row with
  | lock free => exact ⟨by simp [Pc.locks], fun _ => free, by simp⟩
  | resetFlag via => cases via <;> simp [Pc.locks, afterCleanup]
  | cancelled at_ point pending => cases at_ <;> simp [Pc.locks, cancelPoint] at point ⊢
  | _ => simp [Pc.locks]

/-- A WORK handler gets past `send_message` by calling it. -/
theorem HandlerRow.replied_iff {before after : Pc} {effect : Effect}
    (row : HandlerRow job s c before after effect) (runs : before.runs .workHandler) :
    after.replied = true ↔ before.replied = true ∨ ∃ line, effect = .send line := by
  cases row with
  | countDown via | btchesJoined via i | cancelBtch via i | joinBtch via i | waitCome via atHead
  | waitAgain via | waitWake via | rmTid via | resetFlag via =>
      cases via <;> simp [Pc.replied, afterCleanup]
  | cancelled at_ point pending => cases at_ <;> simp [Pc.replied, cancelPoint] at point ⊢
  | walkEmpty | walkEnd | reply | wake | diedNapping | nap | napOver => simp [Pc.runs] at runs
  | _ => simp [Pc.replied]

theorem firstPc_unanswered (func : WorkerFunc) :
    (firstPc func).locks = false ∧ (firstPc func).replied = false := by
  cases func <;> exact ⟨rfl, rfl⟩

/-- The reader's steps move no thread to or from its reply. -/
theorem ReaderRow.unanswered (readerInv : ReaderInv s) (row : ReaderRow s next) (t : Nat) :
    (next.pc t).locks = (s.pc t).locks ∧ (next.pc t).replied = (s.pc t).replied ∧
      ((s.pc t).replied = true → next.func t = s.func t) := by
  by_cases created : (s.pc t).created = true
  · rw [row.pc_created readerInv created]
    exact ⟨rfl, rfl, fun _ => row.func_created readerInv created⟩
  · have before : (s.pc t).locks = false ∧ (s.pc t).replied = false := by
      cases pc : s.pc t <;>
        first | exact ⟨rfl, rfl⟩ | (rw [pc] at created; exact absurd rfl created)
    have after : (next.pc t).locks = false ∧ (next.pc t).replied = false := by
      rcases row.pc t with same | claimed | failed | first
      · rw [same]
        exact before
      · rw [claimed]
        exact ⟨rfl, rfl⟩
      · rw [failed]
        exact ⟨rfl, rfl⟩
      · rw [first]
        exact firstPc_unanswered (s.func t)
    rw [before.1, before.2, after.1, after.2]
    exact ⟨rfl, rfl, fun impossible => by cases impossible⟩

theorem OutcomeInv.reader (inv : OutcomeInv s) (readerInv : ReaderInv s)
    (row : ReaderRow s next) : OutcomeInv next where
  mutex t := by
    rw [row.workerMutex, (row.unanswered readerInv t).1]
    exact inv.mutex t
  answered t := by
    obtain ⟨_, replied, func⟩ := row.unanswered readerInv t
    rw [row.search_sent.2, inv.answered t, replied]
    constructor
    · rintro ⟨isWork, isReplied⟩
      exact ⟨by rw [func isReplied, isWork], isReplied⟩
    · rintro ⟨isWork, isReplied⟩
      exact ⟨by rw [← func isReplied, isWork], isReplied⟩
  once := by
    rw [row.search_sent.2]
    exact inv.once

theorem mem_sent_perform (t : Nat) :
    t ∈ (s.perform c m).sent.map Prod.fst ↔
      t ∈ s.sent.map Prod.fst ∨ t = c ∧ ∃ line, m.effect = .send line := by
  rw [perform_sent]
  cases effect : m.effect <;> simp

/-- The lock is taken only when it is free, and given back only by its owner. -/
theorem OutcomeInv.mutex_handler (inv : OutcomeInv s)
    (row : HandlerRow job s c (s.pc c) m.pc m.effect) (t : Nat) :
    (s.perform c m).workerMutex = some t ↔ ((s.perform c m).pc t).locks = true := by
  obtain ⟨locks, free, held⟩ := row.locks
  have own := inv.mutex c
  have others := inv.mutex t
  rw [perform_workerMutex, perform_pc]
  by_cases self : t = c
  · rw [self, Function.update_self, locks]
    cases effect : m.effect <;> simp [own]
  · rw [Function.update_of_ne self]
    cases effect : m.effect with
    | lock =>
        rw [free effect] at others
        simp only [Option.some_inj, Ne.symm self, false_iff]
        exact fun locked => absurd (others.mpr locked) (by simp)
    | unlock =>
        have mine := own.mpr (held effect)
        rw [mine, Option.some_inj] at others
        simp only [reduceCtorEq, false_iff]
        exact fun locked => self (others.mpr locked).symm
    | _ => exact others

theorem OutcomeInv.answered_handler (inv : OutcomeInv s) (runs : (s.pc c).runs (s.func c))
    (row : HandlerRow job s c (s.pc c) m.pc m.effect) (t : Nat) :
    t ∈ (s.perform c m).sent.map Prod.fst ↔
      (s.perform c m).func t = .workHandler ∧ ((s.perform c m).pc t).replied = true := by
  rw [mem_sent_perform, perform_func, perform_pc, inv.answered t]
  by_cases self : t = c
  · rw [self, Function.update_self]
    by_cases isWork : s.func c = .workHandler
    · rw [isWork] at runs
      rw [row.replied_iff runs]
      simp [isWork]
    · have silent : ¬ ∃ line, m.effect = .send line := by
        rintro ⟨line, sends⟩
        rw [sends] at row
        rw [row.sends.1] at runs
        exact isWork runs
      simp [isWork, silent]
  · rw [Function.update_of_ne self]
    simp [self]

theorem OutcomeInv.handler (inv : OutcomeInv s) (runs : (s.pc c).runs (s.func c))
    (row : HandlerRow job s c (s.pc c) m.pc m.effect) : OutcomeInv (s.perform c m) where
  mutex := inv.mutex_handler row
  answered := inv.answered_handler runs row
  once := by
    rw [perform_sent]
    cases effect : m.effect with
    | send line =>
        rw [effect] at row
        rw [List.map_append, List.map_singleton, List.nodup_append]
        refine ⟨inv.once, List.nodup_singleton c, ?_⟩
        rintro t member other isOwn rfl
        rw [List.mem_singleton.mp isOwn, inv.answered, row.sends.1] at member
        cases member.2
    | _ => exact inv.once

theorem outcomeInv_of_reachable (reached : Reachable (step jobOf) State.initial s) :
    OutcomeInv s := by
  apply ReachableIf.invariant outcomeInv_initial _ reached
  intro source label target previous inv _ taken
  have clientInv := clientInv_of_reachable previous
  rcases step_cases taken with ⟨_, _, row⟩ | ⟨c, _, m, _, _, row, rfl⟩ | ⟨_, _, rfl⟩
  · exact inv.reader clientInv.reader row
  · exact inv.handler (clientInv.queue.runs c) row
  · exact { inv with }

/-- In every run, at most one handler is between its lock and its unlock of `worker_mutex`, and
a WORK command has been answered exactly if its handler is past its reply: once if it was not
cancelled before, and never if a cancel sent it into its cleanup. -/
theorem work_outcome (jobOf : Nat → List UInt8 → Job) {s : State}
    (reached : Reachable (step jobOf) State.initial s) :
    (∀ c d, (s.pc c).locks = true → (s.pc d).locks = true → c = d) ∧
    (∀ c, (s.sent.map Prod.fst).count c =
      if s.func c = .workHandler ∧ (s.pc c).replied = true then 1 else 0) := by
  have inv := outcomeInv_of_reachable reached
  constructor
  · intro c d first second
    have held := (inv.mutex c).mpr first
    rw [(inv.mutex d).mpr second] at held
    exact (Option.some.inj held).symm
  · intro c
    by_cases answered : s.func c = .workHandler ∧ (s.pc c).replied = true
    · rw [if_pos answered]
      exact List.count_eq_one_of_mem inv.once ((inv.answered c).mpr answered)
    · rw [if_neg answered]
      exact List.count_eq_zero.mpr fun member => answered ((inv.answered c).mp member)

/-- One WORK is answered, the next one aborted before its answer. -/
theorem work_outcome_two :
    ∃ s, Reachable (step easyJob) State.initial s ∧
      s.pc 1 = .cleanup (.cancelled false) .countDown ∧
      (s.sent.map Prod.fst).count 0 = 1 ∧ (s.sent.map Prod.fst).count 1 = 0 := by
  obtain ⟨s, reached, ended⟩ :=
    exists_reachable_of_run (step easyJob) State.initial
      [serve easyWork 4, solvedWork 0, moves 0 1, serve easyWork 5, moves 1 1, serve abrtCmd 3,
        moves 2 4, [.handler 1 .actCancel]].flatten
      (fun s => decide (s.func 0 = .workHandler ∧ (s.pc 0).replied = true ∧
        s.pc 1 = .cleanup (.cancelled false) .countDown)) (by decide +kernel)
  obtain ⟨isWork, replied, aborted⟩ := of_decide_eq_true ended
  have counts := (work_outcome easyJob reached).2
  refine ⟨s, reached, aborted, ?_, ?_⟩
  · rw [counts 0, if_pos ⟨isWork, replied⟩]
  · rw [counts 1, if_neg]
    rintro ⟨_, answered⟩
    rw [aborted] at answered
    cases answered

end Outcome

end BitcoinServer.Client
