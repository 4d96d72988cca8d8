import BitcoinServer.Client.Rows

/-!
Contract: what a step of a client leaves unchanged.

Owns: for each table of the state, its value after `pthreadCancel`, `join` and
`perform`; and the classes of program points that every handler row respects.
The flags, the queue, the semaphore and the records change only under the one
effect that is about them.
-/

namespace BitcoinServer.Client

open BitcoinServer.Command BitcoinServer.Work

/-! ## Cancels -/

section Cancel

variable (s : State) (thread : Option Nat) (abort : Bool)

/-- A cancel does nothing, or marks a thread. -/
theorem pthreadCancel_cases :
    s.pthreadCancel thread abort = s ∨
      ∃ t, thread = some t ∧ (s.pc t).created = true ∧
        s.pthreadCancel thread abort =
          { s with
            cancelSent := Function.update s.cancelSent t true
            aborted := Function.update s.aborted t (s.aborted t || abort) } := by
  cases thread with
  | none => exact .inl rfl
  | some t =>
      by_cases created : (s.pc t).created = true
      · exact .inr ⟨t, rfl, created, if_pos created⟩
      · exact .inl (if_neg created)

@[simp] theorem pthreadCancel_reader : (s.pthreadCancel thread abort).reader = s.reader := by
  rcases pthreadCancel_cases s thread abort with same | ⟨_, _, _, same⟩ <;> rw [same]

@[simp] theorem pthreadCancel_flags : (s.pthreadCancel thread abort).flags = s.flags := by
  rcases pthreadCancel_cases s thread abort with same | ⟨_, _, _, same⟩ <;> rw [same]

@[simp] theorem pthreadCancel_pool : (s.pthreadCancel thread abort).pool = s.pool := by
  rcases pthreadCancel_cases s thread abort with same | ⟨_, _, _, same⟩ <;> rw [same]

@[simp] theorem pthreadCancel_queue : (s.pthreadCancel thread abort).queue = s.queue := by
  rcases pthreadCancel_cases s thread abort with same | ⟨_, _, _, same⟩ <;> rw [same]

@[simp] theorem pthreadCancel_workerSem :
    (s.pthreadCancel thread abort).workerSem = s.workerSem := by
  rcases pthreadCancel_cases s thread abort with same | ⟨_, _, _, same⟩ <;> rw [same]

@[simp] theorem pthreadCancel_workerMutex :
    (s.pthreadCancel thread abort).workerMutex = s.workerMutex := by
  rcases pthreadCancel_cases s thread abort with same | ⟨_, _, _, same⟩ <;> rw [same]

@[simp] theorem pthreadCancel_globalWorkCount :
    (s.pthreadCancel thread abort).globalWorkCount = s.globalWorkCount := by
  rcases pthreadCancel_cases s thread abort with same | ⟨_, _, _, same⟩ <;> rw [same]

@[simp] theorem pthreadCancel_count : (s.pthreadCancel thread abort).count = s.count := by
  rcases pthreadCancel_cases s thread abort with same | ⟨_, _, _, same⟩ <;> rw [same]

@[simp] theorem pthreadCancel_cmd : (s.pthreadCancel thread abort).cmd = s.cmd := by
  rcases pthreadCancel_cases s thread abort with same | ⟨_, _, _, same⟩ <;> rw [same]

@[simp] theorem pthreadCancel_func : (s.pthreadCancel thread abort).func = s.func := by
  rcases pthreadCancel_cases s thread abort with same | ⟨_, _, _, same⟩ <;> rw [same]

@[simp] theorem pthreadCancel_slot : (s.pthreadCancel thread abort).slot = s.slot := by
  rcases pthreadCancel_cases s thread abort with same | ⟨_, _, _, same⟩ <;> rw [same]

@[simp] theorem pthreadCancel_pc : (s.pthreadCancel thread abort).pc = s.pc := by
  rcases pthreadCancel_cases s thread abort with same | ⟨_, _, _, same⟩ <;> rw [same]

@[simp] theorem pthreadCancel_search : (s.pthreadCancel thread abort).search = s.search := by
  rcases pthreadCancel_cases s thread abort with same | ⟨_, _, _, same⟩ <;> rw [same]

@[simp] theorem pthreadCancel_cleared : (s.pthreadCancel thread abort).cleared = s.cleared := by
  rcases pthreadCancel_cases s thread abort with same | ⟨_, _, _, same⟩ <;> rw [same]

@[simp] theorem pthreadCancel_joined : (s.pthreadCancel thread abort).joined = s.joined := by
  rcases pthreadCancel_cases s thread abort with same | ⟨_, _, _, same⟩ <;> rw [same]

@[simp] theorem pthreadCancel_admitted :
    (s.pthreadCancel thread abort).admitted = s.admitted := by
  rcases pthreadCancel_cases s thread abort with same | ⟨_, _, _, same⟩ <;> rw [same]

@[simp] theorem pthreadCancel_removed : (s.pthreadCancel thread abort).removed = s.removed := by
  rcases pthreadCancel_cases s thread abort with same | ⟨_, _, _, same⟩ <;> rw [same]

@[simp] theorem pthreadCancel_sent : (s.pthreadCancel thread abort).sent = s.sent := by
  rcases pthreadCancel_cases s thread abort with same | ⟨_, _, _, same⟩ <;> rw [same]

/-- A cancel request is never taken back. -/
theorem pthreadCancel_cancelSent {t : Nat} (sent : s.cancelSent t = true) :
    (s.pthreadCancel thread abort).cancelSent t = true := by
  rcases pthreadCancel_cases s thread abort with same | ⟨target, _, _, same⟩
  · rw [same]
    exact sent
  · rw [same]
    show Function.update s.cancelSent target true t = true
    by_cases self : t = target
    · rw [self, Function.update_self]
    · rw [Function.update_of_ne self, sent]

/-- Only a thread can be sent a cancel. -/
theorem pthreadCancel_aborted {t : Nat}
    (aborted : (s.pthreadCancel thread abort).aborted t = true) :
    s.aborted t = true ∨ (s.pc t).created = true := by
  rcases pthreadCancel_cases s thread abort with same | ⟨target, _, created, same⟩
  · rw [same] at aborted
    exact .inl aborted
  · rw [same] at aborted
    change Function.update s.aborted target _ t = true at aborted
    by_cases self : t = target
    · exact .inr (self ▸ created)
    · rw [Function.update_of_ne self] at aborted
      exact .inl aborted

end Cancel

/-! ## Effects -/

/-- The value of `worker_sem` after an effect. -/
def Effect.workerSem (before : Nat) : Effect → Nat
  | .takePermit => before - 1
  | .givePermit => before + 1
  | _ => before

section Perform

variable (s : State) (c : Nat) (m : Move)

@[simp] theorem perform_reader : (s.perform c m).reader = s.reader := by
  cases effect : m.effect <;> simp [State.perform, State.apply, effect]

@[simp] theorem perform_pool : (s.perform c m).pool = s.pool := by
  cases effect : m.effect <;> simp [State.perform, State.apply, effect]

@[simp] theorem perform_count : (s.perform c m).count = s.count := by
  cases effect : m.effect <;> simp [State.perform, State.apply, effect]

@[simp] theorem perform_cmd : (s.perform c m).cmd = s.cmd := by
  cases effect : m.effect <;> simp [State.perform, State.apply, effect]

@[simp] theorem perform_func : (s.perform c m).func = s.func := by
  cases effect : m.effect <;> simp [State.perform, State.apply, effect]

@[simp] theorem perform_slot : (s.perform c m).slot = s.slot := by
  cases effect : m.effect <;> simp [State.perform, State.apply, effect]

@[simp] theorem perform_joined : (s.perform c m).joined = s.joined := by
  cases effect : m.effect <;> simp [State.perform, State.apply, effect]

@[simp] theorem perform_admitted : (s.perform c m).admitted = s.admitted := by
  cases effect : m.effect <;> simp [State.perform, State.apply, effect]

@[simp] theorem perform_pc : (s.perform c m).pc = Function.update s.pc c m.pc := by
  cases effect : m.effect <;> simp [State.perform, State.apply, effect]

@[simp] theorem perform_search :
    (s.perform c m).search = Function.update s.search c m.search := by
  cases effect : m.effect <;> simp [State.perform, State.apply, effect]

theorem perform_queue :
    (s.perform c m).queue = if m.effect = .popQueue then s.queue.drop 1 else s.queue := by
  cases effect : m.effect <;> simp [State.perform, State.apply, effect]

theorem perform_removed :
    (s.perform c m).removed =
      if m.effect = .popQueue then s.removed ++ (s.queue.take 1).map Node.owner
      else s.removed := by
  cases effect : m.effect <;> simp [State.perform, State.apply, effect]

theorem perform_flags :
    (s.perform c m).flags =
      if m.effect = .clearFlag then Function.update s.flags (s.slot c) false else s.flags := by
  cases effect : m.effect <;> simp [State.perform, State.apply, effect]

theorem perform_cleared :
    (s.perform c m).cleared =
      if m.effect = .clearFlag then Function.update s.cleared c true else s.cleared := by
  cases effect : m.effect <;> simp [State.perform, State.apply, effect]

theorem perform_sent :
    (s.perform c m).sent =
      match m.effect with
      | .send line => s.sent ++ [(c, line)]
      | _ => s.sent := by
  cases effect : m.effect <;> simp [State.perform, State.apply, effect]

theorem perform_workerMutex :
    (s.perform c m).workerMutex =
      match m.effect with
      | .lock => some c
      | .unlock => none
      | _ => s.workerMutex := by
  cases effect : m.effect <;> simp [State.perform, State.apply, effect]

theorem perform_workerSem : (s.perform c m).workerSem = m.effect.workerSem s.workerSem := by
  cases effect : m.effect <;> simp [State.perform, State.apply, Effect.workerSem, effect]

end Perform

/-! ## Program points -/

/-- The handlers in which a command can be at a program point. -/
def Pc.runs (func : WorkerFunc) : Pc → Prop
  | .work _ | .cleanup _ _ | .ended (.cancelled _) => func = .workHandler
  | .abrt _ => func = .abrtHandler
  | .body | .wake => func ≠ .workHandler
  | .nap => func = .slepHandler
  | _ => True

section Rows

variable {job : Job} {s : State} {c : Nat} {before after : Pc} {effect : Effect}

/-- Only a thread that has been created and has not ended takes a step. -/
theorem HandlerRow.live (row : HandlerRow job s c before after effect) :
    before.created = true ∧ before.finished = false := by
  cases row <;> exact ⟨by rfl, rfl⟩

theorem HandlerRow.created (row : HandlerRow job s c before after effect) :
    after.created = true := by
  cases row with
  | resetFlag via => cases via <;> rfl
  | _ => rfl

theorem HandlerRow.runs (row : HandlerRow job s c before after effect)
    (runs : before.runs (s.func c)) : after.runs (s.func c) := by
  cases row with
  | resetFlag via =>
      cases via with
      | popped => trivial
      | cancelled holding => exact runs
  | nap sleeper => exact sleeper
  | napOver =>
      intro isWork
      rw [Pc.runs, isWork] at runs
      cases runs
  | _ => first | exact runs | trivial

end Rows

/-- The reader only claims a command, creates its thread or fails to. -/
theorem ReaderRow.pc {s next : State} (row : ReaderRow s next) (d : Nat) :
    next.pc d = s.pc d ∨ next.pc d = .claimed ∨ next.pc d = .failed ∨
      next.pc d = firstPc (s.func d) := by
  cases row with
  | claim cmd slot atClaim avail =>
      show Function.update s.pc s.count .claimed d = _ ∨ _
      by_cases same : d = s.count
      · exact .inr (.inl (by rw [same]; exact Function.update_self ..))
      · exact .inl (Function.update_of_ne same ..)
  | created c atCreate =>
      by_cases same : d = c
      · exact .inr (.inr (.inr (by rw [same]; exact Function.update_self ..)))
      · exact .inl (Function.update_of_ne same ..)
  | notCreated c atCreate =>
      by_cases same : d = c
      · exact .inr (.inr (.inl (by rw [same]; exact Function.update_self ..)))
      · exact .inl (Function.update_of_ne same ..)
  | _ => exact .inl (by simp [State.join])

theorem firstPc_runs (func : WorkerFunc) : (firstPc func).runs func := by
  cases func <;> simp [firstPc, Pc.runs]

theorem firstPc_live (func : WorkerFunc) :
    (firstPc func).created = true ∧ (firstPc func).finished = false := by
  cases func <;> exact ⟨by rfl, rfl⟩

end BitcoinServer.Client
