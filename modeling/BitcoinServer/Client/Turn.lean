import BitcoinServer.Client.Queue

/-!
Contract: nodes and turns, and the invariant of a whole run.

A WORK handler that has not called `rm_tid` has its own node on the queue, and
one that has passed a turn test still has its slot number at the head: the only
other thread that could pop that node would be a live thread of the same slot.
-/

namespace BitcoinServer.Client

open BitcoinServer.Command BitcoinServer.Work Transition

/-- A WORK handler past a test of `get_tid` that it passed, before `rm_tid`. -/
def Pc.hasTurn : Pc → Bool
  | .work .lock | .work .send | .work .unlock => true
  | .cleanup .popped at_ => at_ ≠ .resetFlag
  | .cleanup (.cancelled _) at_ => at_ = .rmTid
  | _ => false

structure TurnInv (s : State) : Prop where
  queued : ∀ c, (s.pc c).queued = true → ⟨s.slot c, c⟩ ∈ s.queue
  creating : ∀ c, s.reader = .create c → s.func c = .workHandler → ⟨s.slot c, c⟩ ∈ s.queue
  turn : ∀ c, (s.pc c).hasTurn = true → getTid s.queue = some (s.slot c)

section Rows

variable {job : Job} {s : State} {c : Nat} {before after : Pc} {effect : Effect}

theorem HandlerRow.queued (row : HandlerRow job s c before after effect)
    (queued : after.queued = true) : before.queued = true ∧ effect ≠ .popQueue := by
  cases row with
  | rmTid via => cases queued
  | resetFlag via => cases via <;> cases queued
  | _ => first | exact ⟨rfl, by simp⟩ | cases queued

theorem HandlerRow.hasTurn (row : HandlerRow job s c before after effect)
    (turn : after.hasTurn = true) :
    (before.hasTurn = true ∨ getTid s.queue = some (s.slot c)) ∧ effect ≠ .popQueue := by
  cases row with
  | turnCome atHead => exact ⟨.inr atHead, by simp⟩
  | waitCome via atHead => exact ⟨.inr atHead, by simp⟩
  | rmTid via => cases via <;> cases turn
  | resetFlag via => cases via <;> cases turn
  | cancelBtch via i | joinBtch via i | btchesJoined via i =>
      cases via with
      | popped => exact ⟨.inl rfl, by simp⟩
      | cancelled holding => simp [Pc.hasTurn] at turn
  | countDown via | waitAgain via | waitWake via =>
      cases via with
      | popped => exact ⟨.inl rfl, by simp⟩
      | cancelled holding => simp [Pc.hasTurn] at turn
  | _ => first | exact ⟨.inl rfl, by simp⟩ | simp [Pc.hasTurn] at turn

/-- Nodes are taken off the queue by `rm_tid` only. -/
theorem HandlerRow.pops (row : HandlerRow job s c before after effect)
    (pops : effect = .popQueue) :
    ∃ via, before = .cleanup via .rmTid ∧ after = .cleanup via .resetFlag := by
  subst pops
  cases row with
  | rmTid via => exact ⟨via, rfl, rfl⟩

theorem Pc.hasTurn_rmTid (via : Via) : (Pc.cleanup via .rmTid).hasTurn = true := by
  cases via <;> rfl

theorem Pc.live_of_queued {pc : Pc} (queued : pc.queued = true) :
    pc.created = true ∧ pc.finished = false := by
  cases pc <;> first | exact ⟨by rfl, rfl⟩ | cases queued

theorem Pc.queued_of_hasTurn {pc : Pc} (turn : pc.hasTurn = true) : pc.queued = true := by
  cases pc with
  | work at_ => rfl
  | cleanup via at_ =>
      cases via with
      | popped => exact turn
      | cancelled holding =>
          have atRmTid : at_ = .rmTid := by simpa [Pc.hasTurn] using turn
          rw [atRmTid]
          rfl
  | _ => cases turn

end Rows

/-! ## Steps of the reader -/

section ReaderSteps

variable {s next : State}

theorem TurnInv.frame (inv : TurnInv s) (sameQueue : next.queue = s.queue)
    (sameSlot : next.slot = s.slot) (samePc : next.pc = s.pc)
    (creating : ∀ c, next.reader = .create c → next.func c = .workHandler →
      ⟨s.slot c, c⟩ ∈ s.queue) : TurnInv next where
  queued := by
    rw [sameQueue, sameSlot, samePc]
    exact inv.queued
  creating := by
    rw [sameQueue, sameSlot]
    exact creating
  turn := by
    rw [sameQueue, sameSlot, samePc]
    exact inv.turn

private theorem TurnInv.claim (inv : TurnInv s) (cmd : List UInt8) (slot : Nat) :
    TurnInv (s.claim cmd slot) := by
  have fresh : ∀ c, (Function.update s.pc s.count .claimed c).queued = true → c ≠ s.count := by
    rintro c queued rfl
    rw [Function.update_self] at queued
    cases queued
  constructor
  · intro c queued
    have other := fresh c queued
    change (Function.update s.pc s.count .claimed c).queued = true at queued
    show ⟨Function.update s.slot s.count slot c, c⟩ ∈ s.queue
    rw [Function.update_of_ne other] at queued ⊢
    exact inv.queued c queued
  · intro c impossible
    cases impossible
  · intro c turn
    have other := fresh c (Pc.queued_of_hasTurn turn)
    change (Function.update s.pc s.count .claimed c).hasTurn = true at turn
    show getTid s.queue = some (Function.update s.slot s.count slot c)
    rw [Function.update_of_ne other] at turn ⊢
    exact inv.turn c turn

private theorem TurnInv.push (inv : TurnInv s) (c : Nat) :
    TurnInv { s with
      queue := s.queue ++ [⟨s.slot c, c⟩]
      admitted := s.admitted ++ [c]
      reader := .create c } where
  queued d queued := List.mem_append_left _ (inv.queued d queued)
  creating d creating _ := by
    cases creating
    exact List.mem_append_right _ (List.mem_singleton_self _)
  turn d turn := by
    have atHead := inv.turn d turn
    show getTid (s.queue ++ [Node.mk (s.slot c) c]) = some (s.slot d)
    cases queue : s.queue with
    | nil =>
        rw [queue] at atHead
        cases atHead
    | cons head rest =>
        rw [queue] at atHead
        exact atHead

private theorem TurnInv.created (inv : TurnInv s) {c : Nat} (atCreate : s.reader = .create c) :
    TurnInv { s with
      pc := Function.update s.pc c (firstPc (s.func c))
      pool := Function.update s.pool (s.slot c) (some c)
      reader := .idle } := by
  constructor
  · intro d queued
    change (Function.update s.pc c (firstPc (s.func c)) d).queued = true at queued
    show ⟨s.slot d, d⟩ ∈ s.queue
    by_cases same : d = c
    · subst same
      rw [Function.update_self] at queued
      apply inv.creating d atCreate
      cases func : s.func d <;> first | rfl | (rw [func] at queued; cases queued)
    · rw [Function.update_of_ne same] at queued
      exact inv.queued d queued
  · intro d impossible
    cases impossible
  · intro d turn
    change (Function.update s.pc c (firstPc (s.func c)) d).hasTurn = true at turn
    show getTid s.queue = some (s.slot d)
    by_cases same : d = c
    · subst same
      rw [Function.update_self] at turn
      cases func : s.func d <;> (rw [func] at turn; cases turn)
    · rw [Function.update_of_ne same] at turn
      exact inv.turn d turn

private theorem TurnInv.notCreated (inv : TurnInv s) (c : Nat) :
    TurnInv { s with pc := Function.update s.pc c .failed, reader := .idle } := by
  have other : ∀ d, (Function.update s.pc c .failed d).queued = true → d ≠ c := by
    rintro d queued rfl
    rw [Function.update_self] at queued
    cases queued
  constructor
  · intro d queued
    have notSelf := other d queued
    change (Function.update s.pc c .failed d).queued = true at queued
    rw [Function.update_of_ne notSelf] at queued
    exact inv.queued d queued
  · intro d impossible
    cases impossible
  · intro d turn
    have notSelf := other d (Pc.queued_of_hasTurn turn)
    change (Function.update s.pc c .failed d).hasTurn = true at turn
    rw [Function.update_of_ne notSelf] at turn
    exact inv.turn d turn

theorem TurnInv.reader (inv : TurnInv s) (row : ReaderRow s next) : TurnInv next := by
  cases row with
  | claim cmd slot atClaim avail => exact inv.claim cmd slot
  | push c atPush => exact inv.push c
  | created c atCreate => exact inv.created atCreate
  | notCreated c atCreate => exact inv.notCreated c
  | refuse c atDispatch isWork full =>
      apply inv.frame <;> simp
  | other c atDispatch notWork =>
      apply inv.frame <;> simp [notWork]
  | _ => apply inv.frame <;> simp [State.join]

end ReaderSteps

/-! ## Steps of the handlers -/

section HandlerSteps

variable {job : Job} {s : State} {c : Nat} {m : Move}

/-- A node of another slot than the head's stays on the queue. -/
private theorem mem_drop_of_ne {queue : List Node} {node : Node} (queued : node ∈ queue)
    (notHead : getTid queue ≠ some node.threadId) : node ∈ queue.drop 1 := by
  cases queue with
  | nil => cases queued
  | cons head rest =>
      rcases List.mem_cons.mp queued with isHead | later
      · rw [isHead] at notHead
        exact absurd rfl notHead
      · exact later

theorem TurnInv.handler (inv : TurnInv s) (poolInv : PoolInv s)
    (row : HandlerRow job s c (s.pc c) m.pc m.effect) : TurnInv (s.perform c m) := by
  obtain ⟨wasCreated, live⟩ := row.live
  -- A thread that pops has its slot number at the head, which no other live thread has.
  have popped : m.effect = .popQueue → getTid s.queue = some (s.slot c) := by
    intro pops
    obtain ⟨via, atRmTid, _⟩ := row.pops pops
    exact inv.turn c (by rw [atRmTid, Pc.hasTurn_rmTid])
  have otherSlot : ∀ d, d ≠ c → (s.pc d).queued = true → s.slot c ≠ s.slot d := by
    intro d other queued sameSlot
    obtain ⟨otherCreated, otherLive⟩ := Pc.live_of_queued queued
    exact other (poolInv.live_unique wasCreated live otherCreated otherLive sameSlot).symm
  constructor
  · intro d queued
    rw [perform_pc] at queued
    rw [perform_slot, perform_queue]
    by_cases self : d = c
    · subst self
      rw [Function.update_self] at queued
      obtain ⟨wasQueued, notPop⟩ := row.queued queued
      rw [if_neg notPop]
      exact inv.queued d wasQueued
    · rw [Function.update_of_ne self] at queued
      have member := inv.queued d queued
      split
      · next pops =>
          apply mem_drop_of_ne member
          rw [popped pops]
          simpa using otherSlot d self queued
      · exact member
  · intro d creating isWork
    rw [perform_reader] at creating
    rw [perform_func] at isWork
    rw [perform_slot, perform_queue]
    have member := inv.creating d creating isWork
    split
    · next pops =>
        apply mem_drop_of_ne member
        rw [popped pops]
        simpa using poolInv.slot_ne_ready (by rw [creating, Reader.ready]) wasCreated live
    · exact member
  · intro d turn
    rw [perform_pc] at turn
    rw [perform_slot, perform_queue]
    by_cases self : d = c
    · subst self
      rw [Function.update_self] at turn
      obtain ⟨had | atHead, notPop⟩ := row.hasTurn turn
      · rw [if_neg notPop]
        exact inv.turn d had
      · rw [if_neg notPop]
        exact atHead
    · rw [Function.update_of_ne self] at turn
      have atHead := inv.turn d turn
      have notPop : m.effect ≠ .popQueue := by
        intro pops
        rw [popped pops] at atHead
        exact otherSlot d self (Pc.queued_of_hasTurn turn) (Option.some.inj atHead)
      rw [if_neg notPop]
      exact atHead

end HandlerSteps

/-! ## Runs -/

section Runs

variable {jobOf : Nat → List UInt8 → Job} {s next : State} {label : Label}

/-- A step is a row of the reader, a row of a handler, or leaves everything but the
batches and the global count alone. -/
theorem step_cases (taken : step jobOf s label = some next) :
    (∃ act, label = .reader act ∧ ReaderRow s next) ∨
    (∃ c act m, label = .handler c act ∧ handlerStep (jobOf c (s.cmd c)) s c act = some m ∧
      HandlerRow (jobOf c (s.cmd c)) s c (s.pc c) m.pc m.effect ∧ next = s.perform c m) ∨
    (∃ search count, next = { s with search := search, globalWorkCount := count }) := by
  cases label with
  | reader act => exact .inl ⟨act, rfl, readerStep_row taken⟩
  | handler c act =>
      rw [step, Option.map_eq_some_iff] at taken
      obtain ⟨m, moved, rfl⟩ := taken
      exact .inr (.inl ⟨c, act, m, rfl, moved, handlerStep_row moved, rfl⟩)
  | btch c i act =>
      rw [step, Option.map_eq_some_iff] at taken
      obtain ⟨search, _, rfl⟩ := taken
      exact .inr (.inr ⟨_, _, rfl⟩)
  | others count =>
      cases taken
      exact .inr (.inr ⟨_, _, rfl⟩)

/-- What holds of every reachable state of a client, whatever has gone wrong in it. -/
structure ClientInv (s : State) : Prop where
  reader : ReaderInv s
  pool : PoolInv s
  queue : QueueInv s
  turn : TurnInv s

theorem clientInv_initial : ClientInv State.initial := by
  constructor <;> constructor <;> simp [State.initial, Reader.current, Reader.ready, Pc.created,
    Pc.runs, Pc.queued, Pc.hasTurn]

theorem ClientInv.step (inv : ClientInv s) (taken : step jobOf s label = some next) :
    ClientInv next := by
  rcases step_cases taken with ⟨_, _, row⟩ | ⟨c, _, m, _, _, row, rfl⟩ | ⟨_, _, rfl⟩
  · exact ⟨inv.reader.reader row, inv.pool.reader inv.reader row,
      inv.queue.reader inv.reader row, inv.turn.reader row⟩
  · exact ⟨inv.reader.handler row, inv.pool.handler row, inv.queue.handler row,
      inv.turn.handler inv.pool row⟩
  · exact ⟨{ inv.reader with }, { inv.pool with }, { inv.queue with }, { inv.turn with }⟩

theorem clientInv_of_reachable (reached : Reachable (Client.step jobOf) State.initial s) :
    ClientInv s :=
  reached.invariant clientInv_initial fun _ _ _ inv taken => inv.step taken

end Runs

end BitcoinServer.Client
