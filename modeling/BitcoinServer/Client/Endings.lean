import BitcoinServer.Client.Replies

/-!
Contract: what an ended WORK leaves behind.

`pthread_cleanup_pop(1)` unregisters `work_handler_cleanup` before it runs it, so a
cancel that is pending in a `pthread_join` or `sleep` of that run ends the thread on the
spot: its node stays on the queue and its flag stays set. A WORK that is not struck there
takes exactly its own node off the queue and clears its flag.
-/

namespace BitcoinServer.Client

open BitcoinServer.Command BitcoinServer.Work Transition

/-- Every admitted WORK whose thread has ended has had its own node removed once, and has
cleared its flag. -/
def LeavesQueue (s : State) : Prop :=
  ∀ c ∈ s.admitted, (s.pc c).finished = true →
    s.removed.count c = 1 ∧ c ∉ s.queue.map Node.owner ∧ s.cleared c = true

/-- The cancellation points of a cleanup that `pthread_cleanup_pop(1)` runs. -/
def Pc.unguarded : Pc → Bool
  | .cleanup .popped (.joinBtch _) | .cleanup .popped .waitSleep => true
  | _ => false

/-- The step is no cancel acted on in a cleanup that `pthread_cleanup_pop(1)` runs. -/
def NotStruck (s : State) : Label → Prop
  | .handler c .actCancel => (s.pc c).unguarded = false
  | _ => True

instance (s : State) : ∀ label, Decidable (NotStruck s label)
  | .handler c .actCancel => inferInstanceAs (Decidable ((s.pc c).unguarded = false))
  | .handler _ .move | .handler _ (.stale _) | .reader _ | .btch _ _ _ | .others _ =>
      inferInstanceAs (Decidable True)

/-- A thread that has called `rm_tid`, or that has none to call. -/
def Pc.pastRmTid : Pc → Bool
  | .cleanup _ .resetFlag | .wrapper | .ended _ => true
  | _ => false

structure EndInv (s : State) : Prop where
  died : ∀ c, s.pc c = .died → s.func c = .slepHandler
  removed : ∀ c ∈ s.admitted, (s.pc c).pastRmTid = true → c ∈ s.removed

theorem Pc.unguarded_cases {pc : Pc} (unguarded : pc.unguarded = true) :
    (∃ i, pc = .cleanup .popped (.joinBtch i)) ∨ pc = .cleanup .popped .waitSleep := by
  cases pc with
  | cleanup via at_ =>
      cases via with
      | cancelled holding => cases unguarded
      | popped =>
          cases at_ with
          | joinBtch i => exact .inl ⟨i, rfl⟩
          | waitSleep => exact .inr rfl
          | _ => cases unguarded
  | _ => cases unguarded

section Endings

variable {jobOf : Nat → List UInt8 → Job} {job : Job} {s next : State} {label : Label} {c : Nat}

theorem HandlerRow.died {before after : Pc} {effect : Effect}
    (row : HandlerRow job s c before after effect) (died : after = .died) :
    before = .nap ∨ before.unguarded = true := by
  subst died
  generalize isDied : Pc.died = after at row
  cases row with
  | diedInJoin i pending => exact .inr rfl
  | diedInSleep pending => exact .inr rfl
  | diedNapping pending => exact .inl rfl
  | resetFlag via => cases via <;> cases isDied
  | _ => cases isDied

/-- A thread dies only by acting on a cancel. -/
theorem actCancel_of_died {act : HandlerAct} {m : Move}
    (moved : handlerStep job s c act = some m) (died : m.pc = .died) : act = .actCancel := by
  have before := (handlerStep_row moved).died died
  cases act with
  | actCancel => rfl
  | stale found =>
      cases atPc : s.pc c with
      | abrt at_ =>
          rw [atPc] at before
          rcases before with napping | unguarded
          · cases napping
          · cases unguarded
      | _ => simp [handlerStep, atPc] at moved
  | move =>
      rw [handlerStep] at moved
      rcases before with napping | unguarded
      · simp only [handlerMove, napping, Option.some.injEq] at moved
        rw [← moved] at died
        cases died
      · rcases Pc.unguarded_cases unguarded with ⟨i, atJoin⟩ | atSleep
        · simp only [handlerMove, atJoin] at moved
          cases created : (s.search c).btches[i]? with
          | none => simp [workHandlerCleanup, created] at moved
          | some btch =>
              simp only [workHandlerCleanup, created, Option.ite_none_right_eq_some] at moved
              obtain ⟨_, ⟨⟩⟩ := moved
              cases died
        · simp only [handlerMove, atSleep] at moved
          cases moved
          cases died

/-- A WORK handler gets past `rm_tid` by calling it. -/
theorem HandlerRow.pastRmTid {before after : Pc} {effect : Effect}
    (row : HandlerRow job s c before after effect) (runs : before.runs .workHandler)
    (past : after.pastRmTid = true) : before.pastRmTid = true ∨ effect = .popQueue := by
  cases row with
  | rmTid via => exact .inr rfl
  | resetFlag via => exact .inl rfl
  | wrapper => exact .inl rfl
  | walkEmpty | walkEnd node => cases runs
  | reply | wake => exact absurd rfl runs
  | _ => cases past

theorem endInv_initial : EndInv State.initial := by
  constructor <;> simp [State.initial]

/-- The reader puts a thread at no point that is past `rm_tid`. -/
theorem ReaderRow.pc_same (row : ReaderRow s next) {t : Nat}
    (settled : (next.pc t).finished = true ∨ (next.pc t).pastRmTid = true) :
    next.pc t = s.pc t := by
  rcases row.pc t with same | claimed | failed | first
  · exact same
  · rw [claimed] at settled
    cases settled <;> contradiction
  · rw [failed] at settled
    cases settled <;> contradiction
  · rw [first] at settled
    cases func : s.func t <;> rw [func] at settled <;> cases settled <;> contradiction

theorem ReaderRow.removed (row : ReaderRow s next) : next.removed = s.removed := by
  cases row <;> simp [State.claim, State.join]

theorem ReaderRow.mem_admitted (readerInv : ReaderInv s) (row : ReaderRow s next) {t : Nat}
    (member : t ∈ next.admitted) : t ∈ s.admitted ∨ s.pc t = .claimed := by
  cases row with
  | push c atPush =>
      rcases List.mem_append.mp member with old | isNew
      · exact .inl old
      · rw [List.mem_singleton.mp isNew]
        exact .inr (readerInv.pc_current (by rw [atPush, Reader.current]))
  | _ => exact .inl (by simpa [State.claim, State.join] using member)

theorem EndInv.reader (inv : EndInv s) (readerInv : ReaderInv s) (row : ReaderRow s next) :
    EndInv next where
  died t died := by
    have before : s.pc t = .died := by
      rw [← row.pc_same (.inl (by rw [died]; rfl)), died]
    rw [row.func_created readerInv (by rw [before]; rfl)]
    exact inv.died t before
  removed t member past := by
    rw [row.pc_same (.inr past)] at past
    rw [row.removed]
    rcases row.mem_admitted readerInv member with old | claimed
    · exact inv.removed t old past
    · rw [claimed] at past
      cases past

theorem EndInv.handler {m : Move} (inv : EndInv s) (clientInv : ClientInv s)
    (ids : (s.queue.map Node.threadId).Nodup)
    (row : HandlerRow job s c (s.pc c) m.pc m.effect)
    (guarded : m.pc = .died → (s.pc c).unguarded = false) : EndInv (s.perform c m) where
  died t died := by
    rw [perform_pc] at died
    rw [perform_func]
    by_cases self : t = c
    · subst self
      rw [Function.update_self] at died
      rcases row.died died with napping | unguarded
      · have runs := clientInv.queue.runs t
        rw [napping] at runs
        exact runs
      · rw [guarded died] at unguarded
        cases unguarded
    · rw [Function.update_of_ne self] at died
      exact inv.died t died
  removed t member past := by
    rw [perform_admitted] at member
    rw [perform_pc] at past
    rw [perform_removed]
    -- Whatever is popped, the removed nodes stay removed.
    have stays : t ∈ s.removed → t ∈ if m.effect = .popQueue then
        s.removed ++ (s.queue.take 1).map Node.owner else s.removed := by
      intro already
      split
      · exact List.mem_append_left _ already
      · exact already
    by_cases self : t = c
    · subst self
      rw [Function.update_self] at past
      have runs := clientInv.queue.runs t
      rw [clientInv.queue.isWork t member] at runs
      rcases row.pastRmTid runs past with before | pops
      · exact stays (inv.removed t member before)
      · obtain ⟨via, atRmTid, _⟩ := row.pops pops
        have head := own_at_head ids (clientInv.turn.queued t (by rw [atRmTid]; rfl))
          (clientInv.turn.turn t (by rw [atRmTid, Pc.hasTurn_rmTid]))
        rw [if_pos pops, List.take_one, head]
        exact List.mem_append_right _ (List.mem_singleton_self t)
    · rw [Function.update_of_ne self] at past
      exact stays (inv.removed t member past)

theorem endInv_of_reachable
    (reached : ReachableIf (step jobOf) (fun s label => PushesFresh s label ∧ NotStruck s label)
      State.initial s) : EndInv s := by
  apply reached.invariant endInv_initial
  intro source label target previous inv ⟨_, notStruck⟩ taken
  have clientInv := clientInv_of_reachable previous.reachable
  have orderInv := orderInv_of_reachable (previous.mono fun _ _ both => both.1)
  rcases step_cases taken with ⟨_, _, row⟩ | ⟨c, act, m, isHandler, moved, row, rfl⟩ | ⟨_, _, rfl⟩
  · exact inv.reader clientInv.reader row
  · apply inv.handler clientInv orderInv.ids row
    intro died
    have struck := actCancel_of_died moved died
    subst isHandler struck
    exact notStruck
  · exact { inv with }

/-! ## Fresh pushes -/

/-- The command whose thread the reader is about to create. -/
def Reader.creating : Reader → Option Nat
  | .create c => some c
  | _ => none

/-- The step is no failed `pthread_create` of a WORK. -/
def CreatesWork (s : State) (label : Label) : Prop :=
  label = .reader (.create false) → ∀ c ∈ s.reader.creating, s.func c ≠ .workHandler

instance (s : State) (label : Label) : Decidable (CreatesWork s label) :=
  inferInstanceAs (Decidable (_ → _))

/-- The slot numbers on the queue are distinct and their owners still run, or are just
being created. -/
structure NodesLive (s : State) : Prop where
  ids : (s.queue.map Node.threadId).Nodup
  live : ∀ node ∈ s.queue, s.reader = .create node.owner ∨ (s.pc node.owner).queued = true

theorem HandlerRow.stays_queued {before after : Pc} {effect : Effect}
    (row : HandlerRow job s c before after effect) (queued : before.queued = true) :
    after.queued = true ∨ effect = .popQueue ∨ after = .died := by
  cases row with
  | rmTid via => exact .inr (.inl rfl)
  | diedInJoin i pending => exact .inr (.inr rfl)
  | diedInSleep pending => exact .inr (.inr rfl)
  | _ => first | exact .inl rfl | cases queued

theorem nodesLive_initial : NodesLive State.initial := by
  constructor <;> simp [State.initial]

theorem NodesLive.fresh (inv : NodesLive s) (clientInv : ClientInv s)
    (atPush : s.reader = .push c) : ∀ node ∈ s.queue, node.threadId ≠ s.slot c := by
  intro node member
  rcases inv.live node member with creating | queued
  · rw [atPush] at creating
    cases creating
  · obtain ⟨created, live⟩ := Pc.live_of_queued queued
    rw [clientInv.queue.own node member]
    exact clientInv.pool.slot_ne_ready (by rw [atPush, Reader.ready]) created live

theorem NodesLive.reader (inv : NodesLive s) (clientInv : ClientInv s) (row : ReaderRow s next)
    (creates : ∀ c, s.reader = .create c → s.func c = .workHandler →
      next.pc c = firstPc (s.func c)) : NodesLive next := by
  have queued : ∀ t, (s.pc t).queued = true → (next.pc t).queued = true := by
    intro t queued
    rw [row.pc_created clientInv.reader (Pc.live_of_queued queued).1]
    exact queued
  -- Steps that keep the queue, from a point other than `pthread_create` or to one past it.
  have keep : next.queue = s.queue → NodesLive next := by
    intro sameQueue
    constructor
    · rw [sameQueue]
      exact inv.ids
    · intro node member
      rw [sameQueue] at member
      rcases inv.live node member with creating | running
      · have isWork := clientInv.queue.isWork _ (clientInv.queue.admitted_of_queued member)
        right
        rw [creates _ creating isWork, isWork]
        rfl
      · exact .inr (queued _ running)
  cases row with
  | push c atPush =>
      constructor
      · show ((s.queue ++ [Node.mk (s.slot c) c]).map Node.threadId).Nodup
        rw [List.map_append, List.map_singleton, List.nodup_append]
        refine ⟨inv.ids, List.pairwise_singleton _ _, ?_⟩
        intro id member new isNew
        obtain ⟨node, onQueue, rfl⟩ := List.mem_map.mp member
        rw [List.mem_singleton.mp isNew]
        exact inv.fresh clientInv atPush node onQueue
      · intro node member
        rcases List.mem_append.mp member with old | isNew
        · rcases inv.live node old with creating | running
          · rw [atPush] at creating
            cases creating
          · exact .inr running
        · rw [List.mem_singleton.mp isNew]
          exact .inl rfl
  | _ => exact keep (by simp [State.claim, State.join])

theorem NodesLive.handler {m : Move} (inv : NodesLive s) (clientInv : ClientInv s)
    (row : HandlerRow job s c (s.pc c) m.pc m.effect) (survives : s.func c = .workHandler →
      m.pc ≠ .died) : NodesLive (s.perform c m) where
  ids := by
    rw [perform_queue]
    split
    · rw [List.map_drop]
      exact inv.ids.sublist (List.drop_sublist 1 _)
    · exact inv.ids
  live node member := by
    rw [perform_reader, perform_pc]
    have before : node ∈ s.queue := by
      rw [perform_queue] at member
      split at member
      · exact List.mem_of_mem_drop member
      · exact member
    rcases inv.live node before with creating | queued
    · exact .inl creating
    · right
      by_cases self : node.owner = c
      · rw [self] at queued
        rw [self, Function.update_self]
        have isWork := clientInv.queue.isWork _ (clientInv.queue.admitted_of_queued before)
        rw [self] at isWork
        rcases row.stays_queued queued with still | pops | died
        · exact still
        · -- The popped node is the owner's only one.
          obtain ⟨via, atRmTid, _⟩ := row.pops pops
          have head := own_at_head inv.ids (clientInv.turn.queued c queued)
            (clientInv.turn.turn c (by rw [atRmTid, Pc.hasTurn_rmTid]))
          rw [perform_queue, if_pos pops] at member
          have ids := inv.ids
          have own := clientInv.queue.own node before
          cases queue : s.queue with
          | nil =>
              rw [queue] at before
              cases before
          | cons first rest =>
              rw [queue] at member head ids
              cases Option.some.inj head
              rw [List.map_cons, List.nodup_cons] at ids
              rw [self] at own
              have inRest : node.threadId ∈ rest.map Node.threadId := List.mem_map_of_mem member
              rw [own] at inRest
              exact absurd inRest ids.1
        · exact absurd died (survives isWork)
      · rw [Function.update_of_ne self]
        exact queued

/-- A run in which no WORK is struck and no WORK fails to be created pushes only fresh
slot numbers. -/
theorem nodesLive_of_reachable
    (reached : ReachableIf (step jobOf) (fun s label => NotStruck s label ∧ CreatesWork s label)
      State.initial s) : NodesLive s := by
  apply reached.invariant nodesLive_initial
  intro source label target previous inv ⟨notStruck, createsWork⟩ taken
  have clientInv := clientInv_of_reachable previous.reachable
  rcases step_cases taken with ⟨act, isReader, row⟩ | ⟨c, act, m, isHandler, moved, row, rfl⟩ |
    ⟨_, _, rfl⟩
  · apply inv.reader clientInv row
    intro c atCreate isWork
    subst isReader
    cases act with
    | create succeeds =>
        cases succeeds with
        | false => exact absurd isWork (createsWork rfl c (by rw [atCreate]; rfl))
        | true =>
            simp only [step, readerStep, atCreate] at taken
            cases taken
            exact Function.update_self ..
    | _ => simp [step, readerStep, atCreate] at taken
  · apply inv.handler clientInv row
    intro isWork died
    have struck := actCancel_of_died moved died
    subst isHandler struck
    rcases row.died died with napping | unguarded
    · have runs := clientInv.queue.runs c
      rw [napping] at runs
      change source.func c = .slepHandler at runs
      rw [isWork] at runs
      cases runs
    · rw [show (source.pc c).unguarded = false from notStruck] at unguarded
      cases unguarded
  · exact { inv with }

theorem pushesFresh_of_notStruck
    (reached : ReachableIf (step jobOf) (fun s label => NotStruck s label ∧ CreatesWork s label)
      State.initial s) : ReachableIf (step jobOf) PushesFresh State.initial s := by
  induction reached with
  | refl => exact .here
  | tail previous last inductionHypothesis =>
      obtain ⟨label, _, taken⟩ := last
      apply inductionHypothesis.advance label _ taken
      intro _ c pushing
      have atPush : ∀ reader : Reader, c ∈ reader.pushing → reader = .push c := by
        intro reader pushing
        cases reader <;> first | cases pushing; rfl | cases pushing
      exact (nodesLive_of_reachable previous).fresh
        (clientInv_of_reachable (ReachableIf.reachable previous)) (atPush _ pushing)

/-! ## Ended WORK commands -/

theorem leavesQueue_of_endInv (inv : EndInv s) (clientInv : ClientInv s) (clearInv : ClearInv s) :
    LeavesQueue s := by
  intro c member isOver
  cases atPc : s.pc c with
  | ended via =>
      have removed := inv.removed c member (by rw [atPc]; rfl)
      have nodup := clientInv.queue.nodup
      rw [clientInv.queue.admitted, List.nodup_append] at nodup
      obtain ⟨removedOnce, _, apart⟩ := nodup
      refine ⟨by rw [removedOnce.count, if_pos removed], ?_, clearInv.ended c via atPc⟩
      intro queued
      exact apart c removed c queued rfl
  | died =>
      have isSleeper := inv.died c atPc
      rw [clientInv.queue.isWork c member] at isSleeper
      cases isSleeper
  | _ =>
      rw [atPc] at isOver
      cases isOver

/-- A WORK that dies never clears its flag. -/
theorem not_leavesQueue_of_died (clientInv : ClientInv s) (clearInv : ClearInv s)
    (died : s.pc c = .died) (isWork : s.func c = .workHandler) : ¬ LeavesQueue s := by
  intro leaves
  have member := clientInv.queue.pushed c (.inr (by rw [died]; rfl)) isWork
  have cleared := (leaves c member (by rw [died]; rfl)).2.2
  have isOver := clearInv.cleared c cleared
  rw [died] at isOver
  simp at isOver

theorem struck_breaks (clientInv : ClientInv s) (clearInv : ClearInv s)
    (taken : step jobOf s label = some next) (struck : ¬ NotStruck s label) :
    ¬ LeavesQueue next := by
  have nextInv := clientInv.step taken
  have nextClear := clearInv.step clientInv taken
  unfold NotStruck at struck
  split at struck
  · next c =>
      rw [Bool.not_eq_false] at struck
      have isWork : s.func c = .workHandler := by
        have runs := clientInv.queue.runs c
        rcases Pc.unguarded_cases struck with ⟨i, atJoin⟩ | atSleep
        · rwa [atJoin] at runs
        · rwa [atSleep] at runs
      have point : cancelPoint (s.pc c) = some .died := by
        rcases Pc.unguarded_cases struck with ⟨i, atJoin⟩ | atSleep
        · rw [atJoin]
          rfl
        · rw [atSleep]
          rfl
      rw [step, Option.map_eq_some_iff] at taken
      obtain ⟨m, moved, rfl⟩ := taken
      rw [handlerStep, point, Option.ite_none_right_eq_some] at moved
      obtain ⟨_, ⟨⟩⟩ := moved
      exact not_leavesQueue_of_died nextInv nextClear (Function.update_self ..) isWork
  · exact absurd trivial struck

/-- In every run that pushes no slot number still on the queue and strikes no WORK in a
cleanup that `pthread_cleanup_pop(1)` runs, an ended WORK has left the queue and cleared its
flag; and where a WORK is struck there, it has not. -/
theorem leaves_queue_iff (jobOf : Nat → List UInt8 → Job) :
    (∀ s, ReachableIf (step jobOf) (fun s label => PushesFresh s label ∧ NotStruck s label)
      State.initial s → LeavesQueue s) ∧
    (∀ s label next, Reachable (step jobOf) State.initial s → step jobOf s label = some next →
      ¬ NotStruck s label → ¬ LeavesQueue next) := by
  constructor
  · intro s reached
    exact leavesQueue_of_endInv (endInv_of_reachable reached)
      (clientInv_of_reachable reached.reachable) (clearInv_of_reachable reached.reachable)
  · intro s label next reached taken struck
    exact struck_breaks (clientInv_of_reachable reached) (clearInv_of_reachable reached) taken
      struck

/-- One WORK, solved and replied to, ends with an empty queue. -/
theorem leaves_queue_solved :
    ∃ s, s.admitted = [0] ∧ (s.pc 0).finished = true ∧ LeavesQueue s := by
  obtain ⟨s, reached, ended⟩ :=
    exists_reachableIf_of_runIf (step easyJob) State.initial
      (fun s label => PushesFresh s label ∧ NotStruck s label)
      (serve easyWork 4 ++ solvedWork 0 ++ moves 0 1)
      (fun s => decide (s.admitted = [0] ∧ (s.pc 0).finished = true)) (by decide +kernel)
  obtain ⟨admitted, finished⟩ := of_decide_eq_true ended
  exact ⟨s, admitted, finished, (leaves_queue_iff easyJob).1 s reached⟩

/-- ABRT reaches a WORK that joins its batches after its reply. -/
def struckWork : List Label :=
  [serve easyWork 4, moves 0 4, List.replicate 4 (.btch 0 0 .run), moves 0 9, serve abrtCmd 3,
    moves 1 4, [.handler 0 .actCancel]].flatten

theorem struck_work_stays_queued :
    ¬ ∀ (jobOf : Nat → List UInt8 → Job) (s : State),
      Reachable (step jobOf) State.initial s → LeavesQueue s := by
  intro leaves
  obtain ⟨s, reached, stuck⟩ :=
    exists_reachable_of_run (step easyJob) State.initial struckWork
      (fun s => decide (s.admitted = [0] ∧ (s.pc 0).finished = true ∧
        s.queue = [⟨0, 0⟩] ∧ s.flags 0 = true)) (by decide +kernel)
  obtain ⟨admitted, finished, queue, _⟩ := of_decide_eq_true stuck
  have left := (leaves easyJob s reached 0 (by rw [admitted]; decide) finished).2.1
  rw [queue] at left
  exact left (by decide)

end Endings

end BitcoinServer.Client
