import BitcoinServer.Client.Turn

/-!
Contract: what a command leaves behind whose `pthread_create` fails.

By then the command has its slot's flag, and an admitted WORK its place in
`global_work_count` and its node on the queue. The other threads run on meanwhile, so the
marks of the command are what tells the client from what it would be without the command:
the state in which it was taken, with everything done to it that the other threads have
done since.
-/

namespace BitcoinServer.Client

open BitcoinServer.Command BitcoinServer.Work Transition

/-- The reader has taken `cmd`. -/
def State.taking (s : State) (cmd : List UInt8) : State := { s with reader := .claiming cmd }

/-- The flag of the slot of command `c`, the queue and `global_work_count` are as in `s`. -/
def SameTrace (c : Nat) (s after : State) : Prop :=
  after.flags (after.slot c) = s.flags (after.slot c) ∧ after.queue = s.queue ∧
    after.globalWorkCount = s.globalWorkCount

/-- The next step of the thread is a `reset_flag` on its slot. -/
def Pc.clears : Pc → Bool
  | .cleanup _ .resetFlag | .wrapper => true
  | _ => false

/-- The label's thread clears the flag of the slot that the reader has claimed. -/
def State.clearsClaimed (s : State) : Label → Bool
  | .handler t _ => (s.pc t).clears && s.reader.current.any fun c => s.slot t = s.slot c
  | _ => false

/-- What the label's thread, which is not the reader, does in state `now`, done to `s`. The
batches touch no flag, queue or `global_work_count`. -/
def State.meanwhile (jobOf : Nat → List UInt8 → Job) (s now : State) : Label → State
  | .handler t act => (handlerStep (jobOf t (now.cmd t)) now t act).elim s (s.perform t)
  | .others count =>
      { s with globalWorkCount := s.globalWorkCount + (count - now.globalWorkCount) }
  | .reader _ | .btch _ _ _ => s

/-- A command that has been taken and has no thread yet: the client, what the client would be
had the command not been taken, and whether the flag of its slot has been cleared again since
it was claimed. -/
structure Attempt where
  now : State
  without : State
  again : Bool

def Attempt.start (s : State) (cmd : List UInt8) : Attempt := ⟨s.taking cmd, s, false⟩

def Attempt.step (jobOf : Nat → List UInt8 → Job) (a : Attempt) (label : Label) :
    Option Attempt :=
  (Client.step jobOf a.now label).map fun next =>
    { now := next
      without := a.without.meanwhile jobOf a.now label
      again := a.again || a.now.clearsClaimed label }

/-- The step is not the `pthread_create` for the command. -/
def Attempt.Pending (_ : Attempt) (label : Label) : Prop :=
  ∀ succeeds, label ≠ .reader (.create succeeds)

instance (a : Attempt) (label : Label) : Decidable (a.Pending label) :=
  inferInstanceAs (Decidable (∀ succeeds, label ≠ .reader (.create succeeds)))

/-- The reader's command is a WORK that has been counted. -/
def State.counted (s : State) : Bool :=
  match s.reader with
  | .push _ => true
  | .create c => s.func c = .workHandler
  | _ => false

/-- The node that the reader has pushed for its command. -/
def State.pushed (s : State) : List Node :=
  match s.reader with
  | .create c => if s.func c = .workHandler then [⟨s.slot c, c⟩] else []
  | _ => []

/-- What tells the client from the one without the command that was taken in state `s`. -/
structure Attempt.Marks (s : State) (a : Attempt) : Prop where
  reader : ((∃ cmd, a.now.reader = .claiming cmd) ∧ a.now.count = s.count ∧
      a.now.flags = a.without.flags ∧ a.again = false) ∨
    (a.now.reader.current = some s.count ∧ a.without.flags (a.now.slot s.count) = false ∧
      a.now.flags (a.now.slot s.count) = !a.again)
  slot : ∀ t < s.count, a.without.slot t = a.now.slot t
  work : a.now.globalWorkCount = a.without.globalWorkCount + if a.now.counted then 1 else 0
  queue : a.now.queue = a.without.queue ++ a.now.pushed

section Rows

variable {job : Job} {s next : State} {c : Nat} {m : Move} {before after : Pc} {effect : Effect}

theorem HandlerRow.clearFlag_iff (row : HandlerRow job s c before after effect) :
    effect = .clearFlag ↔ before.clears = true := by
  cases row <;> simp [Pc.clears]

theorem perform_globalWorkCount :
    (s.perform c m).globalWorkCount =
      if m.effect = .countDown then s.globalWorkCount - 1 else s.globalWorkCount := by
  cases effect : m.effect <;> simp [State.perform, State.apply, effect]

/-- A pushed node carries the slot number of the reader's command. -/
theorem State.getTid_pushed {k : Nat} (atHead : getTid s.pushed = some k) :
    ∃ c, s.reader.ready = some c ∧ k = s.slot c := by
  unfold State.pushed at atHead
  split at atHead
  · next c atCreate =>
      split at atHead
      · exact ⟨c, by rw [atCreate, Reader.ready], (Option.some.inj atHead).symm⟩
      · cases atHead
  · cases atHead

/-- Only `pthread_create` brings the reader back to its loop. -/
theorem ReaderRow.idle (row : ReaderRow s next) (atIdle : next.reader = .idle) :
    ∃ c, s.reader = .create c := by
  cases row with
  | created c atCreate => exact ⟨c, atCreate⟩
  | notCreated c atCreate => exact ⟨c, atCreate⟩
  | _ => cases atIdle

end Rows

section Marks

variable {jobOf : Nat → List UInt8 → Job} {job : Job} {s : State} {a b : Attempt} {cmd : List UInt8}

/-- The number of the command is the one that comes after the commands of `s`. -/
theorem Attempt.Marks.current (marks : Marks s a) {c : Nat}
    (isCurrent : a.now.reader.current = some c) : c = s.count := by
  rcases marks.reader with ⟨⟨cmd, atClaim⟩, _⟩ | ⟨now, _⟩
  · rw [atClaim] at isCurrent
    cases isCurrent
  · rw [isCurrent] at now
    exact Option.some.inj now

/-- Every thread that runs is that of an earlier command. -/
theorem Attempt.Marks.earlier (marks : Marks s a) (readerInv : ReaderInv a.now) {t : Nat}
    (created : (a.now.pc t).created = true) : t < s.count := by
  have inCount : t < a.now.count := by
    apply readerInv.lt_count
    intro unread
    rw [unread] at created
    cases created
  rcases marks.reader with ⟨_, sameCount, _⟩ | ⟨isCurrent, _⟩
  · omega
  · have last := readerInv.current _ isCurrent
    have other : t ≠ s.count := by
      rintro rfl
      rw [readerInv.pc_current isCurrent] at created
      cases created
    omega

/-- The reader leaves its marks one by one. -/
theorem Attempt.Marks.reader_row {next : State} (marks : Marks s a) (queueInv : QueueInv a.now)
    (row : ReaderRow a.now next) (moves : next.reader ≠ .idle) :
    Marks s ⟨next, a.without, a.again⟩ := by
  -- What moves the reader on with its slot and leaves the counted mark as it is.
  have onward : ∀ c, a.now.reader.current = some c → next.reader.current = some c →
      next.flags = a.now.flags → next.slot = a.now.slot →
      next.globalWorkCount = a.without.globalWorkCount + (if next.counted then 1 else 0) →
      next.queue = a.without.queue ++ next.pushed → Marks s ⟨next, a.without, a.again⟩ := by
    intro c isCurrent stays sameFlags sameSlot work queue
    obtain rfl := marks.current isCurrent
    rcases marks.reader with ⟨⟨cmd, atClaim⟩, _⟩ | ⟨_, freed, flag⟩
    · rw [atClaim] at isCurrent
      cases isCurrent
    · refine ⟨.inr ⟨stays, ?_, ?_⟩, ?_, work, queue⟩
      · rw [sameSlot]
        exact freed
      · rw [sameFlags, sameSlot]
        exact flag
      · rw [sameSlot]
        exact marks.slot
  have work := marks.work
  have queue := marks.queue
  cases row with
  | claim cmd slot atClaim avail =>
      simp only [State.counted, State.pushed, atClaim] at work queue
      rcases marks.reader with ⟨_, sameCount, sameFlags, once⟩ | ⟨isCurrent, _⟩
      · have newSlot : (a.now.claim cmd slot).slot s.count = slot := by
          rw [← sameCount]
          exact Function.update_self ..
        refine ⟨.inr ⟨congrArg some sameCount, ?_, ?_⟩, ?_, work, queue⟩
        · rw [newSlot, ← sameFlags]
          exact flag_of_getAvailThread avail
        · rw [newSlot, once]
          exact Function.update_self ..
        · intro t inCount
          show _ = Function.update a.now.slot a.now.count slot t
          rw [Function.update_of_ne (by omega)]
          exact marks.slot t inCount
      · rw [atClaim] at isCurrent
        cases isCurrent
  | reuseFree c atReuse noThread =>
      simp only [State.counted, State.pushed, atReuse] at work queue
      exact onward c (by rw [atReuse]; rfl) rfl rfl rfl work queue
  | reuseCancel c thread atReuse previous =>
      simp only [State.counted, State.pushed, atReuse] at work queue
      apply onward c (by rw [atReuse]; rfl) rfl (pthreadCancel_flags ..) (pthreadCancel_slot ..)
      · rw [pthreadCancel_globalWorkCount]
        exact work
      · rw [pthreadCancel_queue]
        exact queue
  | reuseJoin c thread atJoin isOver =>
      simp only [State.counted, State.pushed, atJoin] at work queue
      exact onward c (by rw [atJoin]; rfl) rfl rfl rfl work queue
  | accept c atDispatch isWork room =>
      simp only [State.counted, State.pushed, atDispatch] at work queue
      refine onward c (by rw [atDispatch]; rfl) rfl rfl rfl ?_ queue
      show a.now.globalWorkCount + 1 = _
      rw [work]
      simp [State.counted]
  | refuse c atDispatch isWork full =>
      simp only [State.counted, State.pushed, atDispatch] at work queue
      apply onward c (by rw [atDispatch]; rfl) rfl rfl rfl
      · simpa [State.counted] using work
      · simpa [State.pushed] using queue
  | other c atDispatch notWork =>
      simp only [State.counted, State.pushed, atDispatch] at work queue
      apply onward c (by rw [atDispatch]; rfl) rfl rfl rfl
      · simpa [State.counted, notWork] using work
      · simpa [State.pushed, notWork] using queue
  | push c atPush =>
      simp only [State.counted, State.pushed, atPush, List.append_nil] at work queue
      have isWork : a.now.func c = .workHandler := queueInv.pushing c atPush
      apply onward c (by rw [atPush]; rfl) rfl rfl rfl
      · simpa [State.counted, isWork] using work
      · simpa [State.pushed, isWork] using queue
  | created c atCreate | notCreated c atCreate => exact absurd rfl moves
  | take cmd atReader | disconnect atReader | cleanupNext i atReader skipped
  | cleanupDone i atReader last | cleanupCancel i thread atReader inRange busy current
  | cleanupJoined i thread atReader isOver =>
      rcases marks.reader with ⟨⟨cmd, atClaim⟩, _⟩ | ⟨isCurrent, _⟩
      · rw [atReader] at atClaim
        cases atClaim
      · rw [atReader] at isCurrent
        cases isCurrent

/-- What a handler does with the command it does without it. -/
theorem Attempt.Marks.handler_row {t : Nat} {m : Move} {act : HandlerAct} (marks : Marks s a)
    (clientInv : ClientInv a.now)
    (row : HandlerRow job a.now t (a.now.pc t) m.pc m.effect) :
    Marks s ⟨a.now.perform t m, a.without.perform t m,
      a.again || a.now.clearsClaimed (.handler t act)⟩ := by
  obtain ⟨created, live⟩ := row.live
  have sameSlot := marks.slot t (marks.earlier clientInv.reader created)
  have clears := row.clearFlag_iff
  constructor
  · simp only [perform_reader, perform_count, perform_slot, perform_flags, sameSlot]
    rcases marks.reader with ⟨⟨cmd, atClaim⟩, sameCount, sameFlags, once⟩ | ⟨isCurrent, freed, flag⟩
    · refine .inl ⟨⟨cmd, atClaim⟩, sameCount, by rw [sameFlags], ?_⟩
      simp [once, State.clearsClaimed, atClaim, Reader.current]
    · refine .inr ⟨isCurrent, ?_, ?_⟩
      · split
        · by_cases here : a.now.slot s.count = a.now.slot t
          · rw [here, Function.update_self]
          · rw [Function.update_of_ne here]
            exact freed
        · exact freed
      · by_cases here : a.now.slot s.count = a.now.slot t
        · by_cases isClear : m.effect = .clearFlag
          · simp [isClear, here, State.clearsClaimed, clears.mp isClear, isCurrent]
          · have notClear : (a.now.pc t).clears = false := by
              simpa using mt clears.mpr isClear
            simp [isClear, State.clearsClaimed, notClear, flag]
        · rw [apply_ite (fun flags : Nat → Bool => flags (a.now.slot s.count)),
            Function.update_of_ne here, ite_self, flag]
          simp [State.clearsClaimed, isCurrent, Ne.symm here]
  · simp only [perform_slot]
    exact marks.slot
  · have sameCounted : (a.now.perform t m).counted = a.now.counted := by
      simp only [State.counted, perform_reader, perform_func]
    simp only [sameCounted, perform_globalWorkCount]
    have work := marks.work
    generalize (if a.now.counted = true then 1 else 0 : Int) = mark at work ⊢
    split
    · omega
    · exact work
  · have samePushed : (a.now.perform t m).pushed = a.now.pushed := by
      simp only [State.pushed, perform_reader, perform_func, perform_slot]
    simp only [samePushed, perform_queue]
    have queue := marks.queue
    split
    · next pops =>
        -- The node that is popped carries the slot number of a thread that runs.
        obtain ⟨via, atRmTid, _⟩ := row.pops pops
        have atHead := clientInv.turn.turn t (by rw [atRmTid, Pc.hasTurn_rmTid])
        cases without : a.without.queue with
        | nil =>
            rw [queue, without] at atHead
            obtain ⟨c, ready, sameSlots⟩ := State.getTid_pushed atHead
            exact absurd sameSlots (clientInv.pool.slot_ne_ready ready created live)
        | cons head rest =>
            rw [queue, without]
            rfl
    · exact queue

theorem Attempt.Marks.step {label : Label} (marks : Marks s a) (clientInv : ClientInv a.now)
    (pending : a.Pending label) (taken : a.step jobOf label = some b) : Marks s b := by
  rw [Attempt.step, Option.map_eq_some_iff] at taken
  obtain ⟨next, moved, rfl⟩ := taken
  cases label with
  | reader act =>
      rw [show (a.again || a.now.clearsClaimed (.reader act)) = a.again from Bool.or_false _]
      have row : ReaderRow a.now next := readerStep_row moved
      apply marks.reader_row clientInv.queue row
      intro atIdle
      obtain ⟨c, atCreate⟩ := row.idle atIdle
      cases act with
      | create succeeds => exact pending succeeds rfl
      | _ => simp [Client.step, readerStep, atCreate] at moved
  | handler t act =>
      rw [Client.step, Option.map_eq_some_iff] at moved
      obtain ⟨m, performed, rfl⟩ := moved
      rw [State.meanwhile, performed]
      exact marks.handler_row clientInv (handlerStep_row performed)
  | btch c i act =>
      rw [Client.step, Option.map_eq_some_iff] at moved
      obtain ⟨search, _, rfl⟩ := moved
      rw [show (a.again || a.now.clearsClaimed (.btch c i act)) = a.again from Bool.or_false _]
      exact { marks with }
  | others count =>
      cases moved
      rw [show (a.again || a.now.clearsClaimed (.others count)) = a.again from Bool.or_false _]
      refine ⟨marks.reader, marks.slot, ?_, marks.queue⟩
      have work := marks.work
      show count = _ + (count - a.now.globalWorkCount) + if a.now.counted = true then 1 else 0
      generalize (if a.now.counted = true then 1 else 0 : Int) = mark at work ⊢
      omega

/-- An attempt runs in the client. -/
theorem Attempt.now_reachable (before : Reachable (Client.step jobOf) State.initial s)
    (atIdle : s.reader = .idle)
    (reached : ReachableIf (Attempt.step jobOf) Attempt.Pending (.start s cmd) a) :
    Reachable (Client.step jobOf) State.initial a.now := by
  apply reached.invariant
  · exact before.advance (.reader (.take cmd)) (if_pos atIdle)
  · intro source label target _ inv _ taken
    rw [Attempt.step, Option.map_eq_some_iff] at taken
    obtain ⟨next, moved, rfl⟩ := taken
    exact inv.advance label moved

theorem Attempt.marks_of_reachable (before : Reachable (Client.step jobOf) State.initial s)
    (atIdle : s.reader = .idle)
    (reached : ReachableIf (Attempt.step jobOf) Attempt.Pending (.start s cmd) a) :
    Marks s a := by
  refine reached.invariant ?_ ?_
  · exact ⟨.inl ⟨⟨cmd, rfl⟩, rfl, rfl, rfl⟩, fun _ _ => rfl, (Int.add_zero _).symm,
      (List.append_nil _).symm⟩
  · intro source label target previous marks pending taken
    exact marks.step (clientInv_of_reachable (now_reachable before atIdle previous)) pending taken

/-- What is left of the command: the flag, unless it was cleared again, and of an admitted WORK
the node and the place in `global_work_count`. -/
theorem failedCreate_leaves {next : State} (marks : a.Marks s)
    (taken : Client.step jobOf a.now (.reader (.create false)) = some next) :
    a.without.flags (next.slot s.count) = false ∧ next.flags (next.slot s.count) = !a.again ∧
      if next.func s.count = .workHandler then
        next.queue = a.without.queue ++ [⟨next.slot s.count, s.count⟩] ∧
          next.globalWorkCount = a.without.globalWorkCount + 1
      else next.queue = a.without.queue ∧
        next.globalWorkCount = a.without.globalWorkCount := by
  change readerStep a.now (.create false) = some next at taken
  cases atReader : a.now.reader with
  | create c =>
      simp only [readerStep, atReader] at taken
      cases taken
      obtain rfl := marks.current (by rw [atReader, Reader.current])
      rcases marks.reader with ⟨⟨cmd, atClaim⟩, _⟩ | ⟨_, freed, flag⟩
      · rw [atReader] at atClaim
        cases atClaim
      · refine ⟨freed, flag, ?_⟩
        have work := marks.work
        have queue := marks.queue
        simp only [State.counted, State.pushed, atReader] at work queue
        show if a.now.func s.count = .workHandler then _ else _
        split
        · next isWork =>
            simp only [isWork, decide_true, if_true] at work queue
            exact ⟨queue, work⟩
        · next notWork =>
            simp only [notWork, decide_false, if_false, List.append_nil] at work queue
            exact ⟨queue, by simpa using work⟩
  | _ => simp [readerStep, atReader] at taken

/-- The client is as it would be without the command just if the flag was cleared again and
the command is no admitted WORK. -/
theorem failedCreate_sameTrace {next : State} (marks : a.Marks s)
    (taken : Client.step jobOf a.now (.reader (.create false)) = some next) :
    SameTrace s.count a.without next ↔ a.again = true ∧ next.func s.count ≠ .workHandler := by
  obtain ⟨freed, flag, marked⟩ := failedCreate_leaves marks taken
  rw [SameTrace, freed, flag]
  by_cases isWork : next.func s.count = .workHandler
  · rw [if_pos isWork] at marked
    refine iff_of_false ?_ fun again => again.2 isWork
    rintro ⟨_, _, work⟩
    omega
  · rw [if_neg isWork] at marked
    simp [marked, isWork]

/-- Compared with the state in which the command was taken, the other threads must also have
left the queue and the count as they were, and the flag was cleared since the claim just if it
was 0 then. -/
theorem failedCreate_asBefore {next : State} (clientInv : ClientInv s) (marks : a.Marks s)
    (taken : Client.step jobOf a.now (.reader (.create false)) = some next) :
    SameTrace s.count s next ↔ a.again = !s.flags (next.slot s.count) ∧
      next.func s.count ≠ .workHandler ∧ a.without.queue = s.queue ∧
        a.without.globalWorkCount = s.globalWorkCount := by
  obtain ⟨_, flag, marked⟩ := failedCreate_leaves marks taken
  rw [SameTrace, flag]
  by_cases isWork : next.func s.count = .workHandler
  · rw [if_pos isWork] at marked
    refine iff_of_false ?_ fun same => same.2.1 isWork
    rintro ⟨_, sameQueue, _⟩
    -- The node of the command is on no queue before it was taken.
    have pushed : (⟨next.slot s.count, s.count⟩ : Node) ∈ s.queue := by
      rw [← sameQueue, marked.1]
      exact List.mem_append_right _ (List.mem_singleton_self _)
    have below := (clientInv.queue.read _ (clientInv.queue.admitted_of_queued pushed)).1
    exact Nat.lt_irrefl _ below
  · rw [if_neg isWork] at marked
    rw [marked.1, marked.2]
    cases a.again <;> cases s.flags (next.slot s.count) <;> simp [isWork]

end Marks

end BitcoinServer.Client
