import BitcoinServer.Client.Endings

/-!
Contract: what `abrt_handler` cancels.

The walk of `abrt_handler` reads the queue and `thread_pool` without the queue mutex,
while the reader pushes later commands and the WORK handlers free their nodes. It cancels
just the WORK commands read before the ABRT as long as nothing is pushed during the walk,
no node is freed under it, and the owners of the nodes it finds are created threads that
stay unjoined.
-/

namespace BitcoinServer.Client

open BitcoinServer.Command BitcoinServer.Work Transition

/-- Every thread that `abrt_handler` is about to pass to `pthread_cancel` is a created, not
yet joined WORK handler whose command was read before the ABRT. -/
def AbortsEarlier (s : State) : Prop :=
  ∀ a node thread, s.pc a = .abrt (.atCancel node thread) →
    ∃ t, thread = some t ∧ (s.pc t).created = true ∧ s.joined t = false ∧
      s.func t = .workHandler ∧ t < a

/-- An ABRT handler that has not finished its walk. -/
def Pc.walking : Pc → Bool
  | .abrt _ => true
  | _ => false

/-- The command on whose node an ABRT handler stands. -/
def Pc.standsOn : Pc → Option Nat
  | .abrt (.atNode node) | .abrt (.atSlot node _) | .abrt (.atCancel node _)
  | .abrt (.atNext node) => some node
  | _ => none

/-- The thread that the reader is about to join. -/
def Reader.joins : Reader → Option Nat
  | .joining _ thread | .cleanupJoin _ thread => some thread
  | _ => none

/-- The label's thread is about to call `rm_tid`. -/
def State.atRmTid (s : State) : Label → Bool
  | .handler c _ =>
      match s.pc c with
      | .cleanup _ .rmTid => true
      | _ => false
  | _ => false

/-- The step pushes no WORK and joins none whose node is on the queue during the walk of an
ABRT, takes no node off the queue on which a walk stands, and starts no ABRT handler while the
queue holds the node of a WORK whose `pthread_create` failed or whose thread has been joined. -/
structure WalksAlone (s : State) (label : Label) : Prop where
  noPush : label = .reader .move → ∀ c ∈ s.reader.pushing, ∀ a < s.count,
    (s.pc a).walking = false
  noJoin : label = .reader .move → ∀ t ∈ s.reader.joins, t ∈ s.queue.map Node.owner →
    ∀ a < s.count, (s.pc a).walking = false
  noPop : s.atRmTid label = true → ∀ a < s.count, ∀ node ∈ (s.pc a).standsOn,
    s.queue.head?.map Node.owner ≠ some node
  starts : label = .reader (.create true) → ∀ a ∈ s.reader.creating, s.func a = .abrtHandler →
    ∀ n ∈ s.queue.map Node.owner, s.pc n ≠ .failed ∧ s.joined n = false

instance (s : State) (label : Label) : Decidable (WalksAlone s label) :=
  decidable_of_iff
    ((label = .reader .move → ∀ c ∈ s.reader.pushing, ∀ a < s.count, (s.pc a).walking = false) ∧
      (label = .reader .move → ∀ t ∈ s.reader.joins, t ∈ s.queue.map Node.owner →
        ∀ a < s.count, (s.pc a).walking = false) ∧
      (s.atRmTid label = true → ∀ a < s.count, ∀ node ∈ (s.pc a).standsOn,
        s.queue.head?.map Node.owner ≠ some node) ∧
      (label = .reader (.create true) → ∀ a ∈ s.reader.creating, s.func a = .abrtHandler →
        ∀ n ∈ s.queue.map Node.owner, s.pc n ≠ .failed ∧ s.joined n = false))
    ⟨fun ⟨noPush, noJoin, noPop, starts⟩ => ⟨noPush, noJoin, noPop, starts⟩,
      fun ⟨noPush, noJoin, noPop, starts⟩ => ⟨noPush, noJoin, noPop, starts⟩⟩

/-- During a walk every node on the queue is that of an older WORK, created and not joined,
and the walk has read what belongs to such a node. -/
structure WalkInv (s : State) : Prop where
  earlier : ∀ a, (s.pc a).walking = true → ∀ n ∈ s.queue.map Node.owner, n < a
  live : ∀ a, (s.pc a).walking = true → ∀ n ∈ s.queue.map Node.owner,
    (s.pc n).created = true ∧ s.joined n = false
  stands : ∀ a node, (s.pc a).standsOn = some node → node ∈ s.queue.map Node.owner
  slot : ∀ a node k, s.pc a = .abrt (.atSlot node k) → k = s.slot node
  thread : ∀ a node thread, s.pc a = .abrt (.atCancel node thread) → thread = some node

section Walk

variable {jobOf : Nat → List UInt8 → Job} {job : Job} {s next : State} {label : Label} {c : Nat}

/-! ## Rows of the walk -/

section Rows

variable {before after : Pc} {effect : Effect} {node : Nat}

theorem HandlerRow.walking (row : HandlerRow job s c before after effect)
    (walking : after.walking = true) : before.walking = true ∧ effect ≠ .popQueue := by
  cases row with
  | rmTid via => cases walking
  | resetFlag via => cases via <;> cases walking
  | _ => first | exact ⟨rfl, by simp⟩ | cases walking

/-- A walk that stands on queued nodes only goes on to queued nodes. -/
theorem HandlerRow.stands (row : HandlerRow job s c before after effect)
    (queued : ∀ n, before.standsOn = some n → n ∈ s.queue.map Node.owner)
    (stands : after.standsOn = some node) : node ∈ s.queue.map Node.owner := by
  cases row with
  | walkHead head isQueued =>
      cases stands
      exact isQueued
  | walkNext last following isQueued =>
      cases stands
      exact isQueued
  | walkFreedNode freedNode found freed => exact absurd (queued _ rfl) freed
  | walkFreedNext freedNode found freed => exact absurd (queued _ rfl) freed
  | walkSlot entry isQueued => exact queued _ stands
  | walkPool last slot => exact queued _ stands
  | walkCancel last thread => exact queued _ stands
  | resetFlag via => cases via <;> cases stands
  | _ => cases stands

theorem HandlerRow.atSlot {k : Nat}
    (row : HandlerRow job s c before (.abrt (.atSlot node k)) effect) : ⟨k, node⟩ ∈ s.queue := by
  generalize isSlot : Pc.abrt (.atSlot node k) = after at row
  cases row with
  | walkSlot entry isQueued =>
      cases isSlot
      exact isQueued
  | resetFlag via => cases via <;> cases isSlot
  | _ => cases isSlot

theorem HandlerRow.atCancel {thread : Option Nat}
    (row : HandlerRow job s c before (.abrt (.atCancel node thread)) effect) :
    (∃ k, before = .abrt (.atSlot node k) ∧ thread = s.pool k) ∨
      (before.standsOn = some node ∧ node ∉ s.queue.map Node.owner) := by
  generalize isCancel : Pc.abrt (.atCancel node thread) = after at row
  cases row with
  | walkPool last slot =>
      cases isCancel
      exact .inl ⟨slot, rfl, rfl⟩
  | walkFreedNode freedNode found freed =>
      cases isCancel
      exact .inr ⟨rfl, freed⟩
  | resetFlag via => cases via <;> cases isCancel
  | _ => cases isCancel

theorem Pc.walking_of_standsOn {pc : Pc} (stands : pc.standsOn = some node) :
    pc.walking = true := by
  cases pc <;> first | rfl | cases stands

end Rows

/-! ## Steps -/

theorem walkInv_initial : WalkInv State.initial := by
  constructor <;> simp [State.initial, Pc.walking, Pc.standsOn]

/-- During a walk the owner of a node is found in its own slot. -/
theorem WalkInv.pooled (inv : WalkInv s) (clientInv : ClientInv s) {a n : Nat}
    (walking : (s.pc a).walking = true) (queued : n ∈ s.queue.map Node.owner) :
    s.pool (s.slot n) = some n := by
  obtain ⟨created, notJoined⟩ := inv.live a walking n queued
  exact clientInv.pool.pooled n created notJoined

theorem WalkInv.aborts (inv : WalkInv s) (clientInv : ClientInv s) : AbortsEarlier s := by
  intro a node thread atCancel
  have walking : (s.pc a).walking = true := by rw [atCancel]; rfl
  have queued := inv.stands a node (by rw [atCancel]; rfl)
  obtain ⟨entry, member, isOwner⟩ := List.mem_map.mp queued
  have admitted := clientInv.queue.admitted_of_queued member
  rw [isOwner] at admitted
  obtain ⟨created, notJoined⟩ := inv.live a walking node queued
  exact ⟨node, inv.thread a node thread atCancel, created, notJoined,
    clientInv.queue.isWork node admitted, inv.earlier a walking node queued⟩

theorem ReaderRow.queue (row : ReaderRow s next) :
    next.queue = s.queue ∨
      ∃ c, s.reader = .push c ∧ next.queue = s.queue ++ [⟨s.slot c, c⟩] := by
  cases row with
  | push c atPush => exact .inr ⟨c, atPush, rfl⟩
  | _ => exact .inl (by simp [State.claim, State.join])

theorem ReaderRow.slot (row : ReaderRow s next) {t : Nat} (inCount : t < s.count) :
    next.slot t = s.slot t := by
  cases row with
  | claim cmd slot atClaim avail => exact Function.update_of_ne (Nat.ne_of_lt inCount) ..
  | _ => simp [State.join]

/-- The reader starts a walk only by creating the thread of an ABRT. -/
theorem ReaderRow.walking (row : ReaderRow s next) {a : Nat}
    (walking : (next.pc a).walking = true) :
    next.pc a = s.pc a ∨
      (s.reader = .create a ∧ s.func a = .abrtHandler ∧ next.pc a = .abrt .enter) := by
  cases row with
  | claim cmd slot atClaim avail =>
      by_cases same : a = s.count
      · subst same
        change (Function.update s.pc s.count .claimed s.count).walking = true at walking
        rw [Function.update_self] at walking
        cases walking
      · exact .inl (Function.update_of_ne same ..)
  | created c atCreate =>
      by_cases same : a = c
      · subst same
        right
        change (Function.update s.pc a (firstPc (s.func a)) a).walking = true at walking
        show _ ∧ _ ∧ Function.update s.pc a (firstPc (s.func a)) a = _
        rw [Function.update_self] at walking ⊢
        cases func : s.func a <;> rw [func] at walking <;> first
          | exact ⟨atCreate, rfl, rfl⟩
          | cases walking
      · exact .inl (Function.update_of_ne same ..)
  | notCreated c atCreate =>
      by_cases same : a = c
      · subst same
        change (Function.update s.pc a .failed a).walking = true at walking
        rw [Function.update_self] at walking
        cases walking
      · exact .inl (Function.update_of_ne same ..)
  | _ => exact .inl (by simp [State.join])

/-- A reader that is neither at `read` nor at `pthread_create` only moves on. -/
theorem readerStep_move {act : ReaderAct} (taken : readerStep s act = some next)
    (busy : s.reader ≠ .idle) (notCreate : s.reader.creating = none) : act = .move := by
  cases act with
  | move => rfl
  | take cmd | disconnect => simp [readerStep, busy] at taken
  | create succeeds =>
      cases atReader : s.reader with
      | create c => simp [atReader, Reader.creating] at notCreate
      | _ => simp [readerStep, atReader] at taken

theorem ReaderRow.joined (row : ReaderRow s next) :
    next.joined = s.joined ∨
      ∃ t ∈ s.reader.joins, next.joined = Function.update s.joined t true := by
  cases row with
  | reuseJoin c thread atJoin isOver => exact .inr ⟨thread, by rw [atJoin]; rfl, rfl⟩
  | cleanupJoined i thread atJoin isOver => exact .inr ⟨thread, by rw [atJoin]; rfl, rfl⟩
  | _ => exact .inl (by simp [State.claim])

/-- While a walk goes on the reader leaves the queue and its threads alone. -/
private theorem WalkInv.reader_walking (inv : WalkInv s) (clientInv : ClientInv s)
    (row : ReaderRow s next)
    (noPush : ∀ c, s.reader = .push c → ∀ a, (s.pc a).walking = false)
    (noJoin : ∀ t ∈ s.reader.joins, t ∈ s.queue.map Node.owner → ∀ a, (s.pc a).walking = false)
    {a : Nat} (walking : (s.pc a).walking = true) :
    next.queue = s.queue ∧ ∀ n ∈ s.queue.map Node.owner,
      (next.pc n).created = true ∧ next.joined n = false := by
  constructor
  · rcases row.queue with same | ⟨c, atPush, _⟩
    · exact same
    · rw [noPush c atPush a] at walking
      cases walking
  · intro n queued
    obtain ⟨created, notJoined⟩ := inv.live a walking n queued
    rw [row.pc_created clientInv.reader created]
    refine ⟨created, ?_⟩
    rcases row.joined with same | ⟨t, joins, joined⟩
    · rw [same]
      exact notJoined
    · have other : n ≠ t := by
        rintro rfl
        rw [noJoin n joins queued a] at walking
        cases walking
      rw [joined, Function.update_of_ne other]
      exact notJoined

/-- An ABRT handler that starts finds only older WORKs on the queue, each with a thread unless
its creation failed. -/
private theorem queued_at_start (clientInv : ClientInv s) {a n : Nat}
    (atCreate : s.reader = .create a) (isAbrt : s.func a = .abrtHandler)
    (queued : n ∈ s.queue.map Node.owner) :
    n < a ∧ (s.pc n ≠ .failed → (s.pc n).created = true) := by
  obtain ⟨entry, onQueue, rfl⟩ := List.mem_map.mp queued
  have admitted := clientInv.queue.admitted_of_queued onQueue
  have below := (clientInv.queue.read _ admitted).1
  have last := clientInv.reader.current a (by rw [atCreate, Reader.current])
  have other : entry.owner ≠ a := by
    intro same
    have isWork := clientInv.queue.isWork _ admitted
    rw [same, isAbrt] at isWork
    cases isWork
  refine ⟨by omega, fun notFailed => ?_⟩
  have read : s.pc entry.owner ≠ .unread := by
    intro unread
    have beyond := (clientInv.reader.unread _).mp unread
    omega
  have notClaimed : s.pc entry.owner ≠ .claimed := by
    intro claimed
    have isCurrent := (clientInv.reader.claimed _).mp claimed
    rw [atCreate] at isCurrent
    exact other (Option.some.inj isCurrent).symm
  simp [Pc.created, read, notClaimed, notFailed]

theorem WalkInv.reader (inv : WalkInv s) (clientInv : ClientInv s) (row : ReaderRow s next)
    (noPush : ∀ c, s.reader = .push c → ∀ a, (s.pc a).walking = false)
    (noJoin : ∀ t ∈ s.reader.joins, t ∈ s.queue.map Node.owner → ∀ a, (s.pc a).walking = false)
    (starts : ∀ a, s.reader = .create a → s.func a = .abrtHandler → next.pc a = .abrt .enter →
      ∀ n ∈ s.queue.map Node.owner, s.pc n ≠ .failed ∧ s.joined n = false) : WalkInv next := by
  have sameQueue : ∀ a, s.reader = .create a → next.queue = s.queue := by
    intro a atCreate
    rcases row.queue with same | ⟨c, atPush, _⟩
    · exact same
    · rw [atCreate] at atPush
      cases atPush
  constructor
  · intro a walking n member
    rcases row.walking walking with same | ⟨atCreate, isAbrt, _⟩
    · rw [same] at walking
      rw [(inv.reader_walking clientInv row noPush noJoin walking).1] at member
      exact inv.earlier a walking n member
    · rw [sameQueue a atCreate] at member
      exact (queued_at_start clientInv atCreate isAbrt member).1
  · intro a walking n member
    rcases row.walking walking with same | ⟨atCreate, isAbrt, atEnter⟩
    · rw [same] at walking
      obtain ⟨unchanged, live⟩ := inv.reader_walking clientInv row noPush noJoin walking
      rw [unchanged] at member
      exact live n member
    · rw [sameQueue a atCreate] at member
      obtain ⟨notFailed, notJoined⟩ := starts a atCreate isAbrt atEnter n member
      have created := (queued_at_start clientInv atCreate isAbrt member).2 notFailed
      rw [row.pc_created clientInv.reader created]
      refine ⟨created, ?_⟩
      rcases row.joined with same | ⟨t, joins, _⟩
      · rw [same]
        exact notJoined
      · rw [atCreate] at joins
        cases joins
  · intro a node stands
    rcases row.walking (Pc.walking_of_standsOn stands) with same | ⟨_, _, atEnter⟩
    · rw [same] at stands
      rw [(inv.reader_walking clientInv row noPush noJoin (Pc.walking_of_standsOn stands)).1]
      exact inv.stands a node stands
    · rw [atEnter] at stands
      cases stands
  · intro a node k atSlot
    rcases row.walking (by rw [atSlot]; rfl) with same | ⟨_, _, atEnter⟩
    · rw [same] at atSlot
      have queued := inv.stands a node (by rw [atSlot]; rfl)
      have created := (inv.live a (by rw [atSlot]; rfl) node queued).1
      have inCount : node < s.count := by
        apply clientInv.reader.lt_count
        intro unread
        rw [unread] at created
        cases created
      rw [row.slot inCount]
      exact inv.slot a node k atSlot
    · rw [atEnter] at atSlot
      cases atSlot
  · intro a node thread atCancel
    rcases row.walking (by rw [atCancel]; rfl) with same | ⟨_, _, atEnter⟩
    · rw [same] at atCancel
      exact inv.thread a node thread atCancel
    · rw [atEnter] at atCancel
      cases atCancel

theorem WalkInv.handler {m : Move} (inv : WalkInv s) (clientInv : ClientInv s)
    (row : HandlerRow job s c (s.pc c) m.pc m.effect)
    (noPop : m.effect = .popQueue → ∀ a node, (s.pc a).standsOn = some node →
      s.queue.head?.map Node.owner ≠ some node) : WalkInv (s.perform c m) := by
  have shrinks : ∀ n ∈ (s.perform c m).queue.map Node.owner, n ∈ s.queue.map Node.owner := by
    intro n member
    rw [perform_queue] at member
    split at member
    · exact ((List.drop_sublist 1 s.queue).map Node.owner).subset member
    · exact member
  -- Without a pop the queue is the same.
  have same : m.effect ≠ .popQueue → (s.perform c m).queue = s.queue := by
    intro notPop
    rw [perform_queue, if_neg notPop]
  constructor
  · intro a walking n member
    rw [perform_pc] at walking
    by_cases self : a = c
    · subst self
      rw [Function.update_self] at walking
      exact inv.earlier a (row.walking walking).1 n (shrinks n member)
    · rw [Function.update_of_ne self] at walking
      exact inv.earlier a walking n (shrinks n member)
  · intro a walking n member
    rw [perform_pc] at walking
    rw [perform_pc, perform_joined]
    have wasWalking : (s.pc a).walking = true := by
      by_cases self : a = c
      · subst self
        rw [Function.update_self] at walking
        exact (row.walking walking).1
      · rwa [Function.update_of_ne self] at walking
    obtain ⟨created, notJoined⟩ := inv.live a wasWalking n (shrinks n member)
    refine ⟨?_, notJoined⟩
    by_cases self : n = c
    · rw [self, Function.update_self]
      exact row.created
    · rw [Function.update_of_ne self]
      exact created
  · intro a node stands
    rw [perform_pc] at stands
    by_cases self : a = c
    · subst self
      rw [Function.update_self] at stands
      rw [same (row.walking (Pc.walking_of_standsOn stands)).2]
      exact row.stands (inv.stands a) stands
    · rw [Function.update_of_ne self] at stands
      have queued := inv.stands a node stands
      by_cases pops : m.effect = .popQueue
      · have notHead := noPop pops a node stands
        rw [perform_queue, if_pos pops]
        cases queue : s.queue with
        | nil =>
            rw [queue] at queued
            cases queued
        | cons head rest =>
            rw [queue] at queued notHead
            rcases List.mem_cons.mp queued with isHead | later
            · exact absurd (congrArg some isHead.symm) notHead
            · exact later
      · rw [same pops]
        exact queued
  · intro a node k atSlot
    rw [perform_pc] at atSlot
    rw [perform_slot]
    by_cases self : a = c
    · subst self
      rw [Function.update_self] at atSlot
      rw [atSlot] at row
      exact clientInv.queue.own _ row.atSlot
    · rw [Function.update_of_ne self] at atSlot
      exact inv.slot a node k atSlot
  · intro a node thread atCancel
    rw [perform_pc] at atCancel
    by_cases self : a = c
    · subst self
      rw [Function.update_self] at atCancel
      rw [atCancel] at row
      rcases row.atCancel with ⟨k, atSlot, read⟩ | ⟨stands, freed⟩
      · have queued := inv.stands a node (by rw [atSlot]; rfl)
        rw [read, inv.slot a node k atSlot]
        exact inv.pooled clientInv (by rw [atSlot]; rfl) queued
      · exact absurd (inv.stands a node stands) freed
    · rw [Function.update_of_ne self] at atCancel
      exact inv.thread a node thread atCancel

/-! ## Runs -/

theorem walkInv_of_reachable
    (reached : ReachableIf (step jobOf) WalksAlone State.initial s) : WalkInv s := by
  apply reached.invariant walkInv_initial
  intro source label target previous inv alone taken
  have clientInv := clientInv_of_reachable previous.reachable
  have inCount : ∀ a, (source.pc a).walking = true → a < source.count := by
    intro a walking
    apply clientInv.reader.lt_count
    intro unread
    rw [unread] at walking
    cases walking
  rcases step_cases taken with ⟨act, isReader, row⟩ | ⟨c, act, m, isHandler, _, row, rfl⟩ |
    ⟨_, _, rfl⟩
  · subst isReader
    apply inv.reader clientInv row
    · intro c atPush a
      by_contra walking
      rw [Bool.not_eq_false] at walking
      have isMove := readerStep_move taken (by simp [atPush]) (by rw [atPush]; rfl)
      rw [alone.noPush (congrArg _ isMove) c (by rw [atPush]; rfl) a (inCount a walking)] at walking
      cases walking
    · intro t joins queued a
      by_contra walking
      rw [Bool.not_eq_false] at walking
      have isMove : act = .move := by
        apply readerStep_move taken <;> cases atReader : source.reader <;>
          simp [atReader, Reader.joins, Reader.creating] at joins ⊢
      rw [alone.noJoin (congrArg _ isMove) t joins queued a (inCount a walking)] at walking
      cases walking
    · intro a atCreate isAbrt atEnter
      have succeeds : Label.reader act = .reader (.create true) := by
        cases act with
        | create succeeds =>
            cases succeeds with
            | true => rfl
            | false =>
                simp only [step, readerStep, atCreate] at taken
                cases taken
                change Function.update source.pc a .failed a = .abrt .enter at atEnter
                rw [Function.update_self] at atEnter
                cases atEnter
        | _ => simp [step, readerStep, atCreate] at taken
      exact alone.starts succeeds a (by rw [atCreate]; rfl) isAbrt
  · apply inv.handler clientInv row
    intro pops a node stands
    obtain ⟨via, atRmTid, _⟩ := row.pops pops
    have popping : source.atRmTid label = true := by
      rw [isHandler, State.atRmTid, atRmTid]
    exact alone.noPop popping a (inCount a (Pc.walking_of_standsOn stands)) node stands
  · exact { inv with }

/-- In every run in which the walks of ABRT handlers are left alone, they cancel created,
unjoined WORK handlers of earlier commands only. -/
theorem aborts_earlier (jobOf : Nat → List UInt8 → Job) {s : State}
    (reached : ReachableIf (step jobOf) WalksAlone State.initial s) : AbortsEarlier s :=
  (walkInv_of_reachable reached).aborts (clientInv_of_reachable reached.reachable)

/-- An ABRT behind a WORK is about to cancel it. -/
theorem aborts_earlier_one :
    ∃ s, s.pc 1 = .abrt (.atCancel 0 (some 0)) ∧ AbortsEarlier s := by
  obtain ⟨s, reached, cancels⟩ :=
    exists_reachableIf_of_runIf (step easyJob) State.initial WalksAlone
      (serve easyWork 4 ++ moves 0 4 ++ serve abrtCmd 3 ++ moves 1 3)
      (fun s => decide (s.pc 1 = .abrt (.atCancel 0 (some 0)))) (by decide +kernel)
  exact ⟨s, of_decide_eq_true cancels, aborts_earlier easyJob reached⟩

/-- A WORK pipelined behind an ABRT, pushed before the ABRT handler reads the queue. -/
def overtakenAbort : List Label :=
  serve abrtCmd 3 ++ serve easyWork 4 ++ moves 0 3

/-- ABRT 0 is about to cancel WORK 1, which was read after it. -/
theorem abrt_cancels_later_work :
    ¬ ∀ (jobOf : Nat → List UInt8 → Job) (s : State),
      Reachable (step jobOf) State.initial s → AbortsEarlier s := by
  intro aborts
  obtain ⟨s, reached, cancels⟩ :=
    exists_reachable_of_run (step easyJob) State.initial overtakenAbort
      (fun s => decide (s.pc 0 = .abrt (.atCancel 1 (some 1)))) (by decide +kernel)
  obtain ⟨t, isOne, _, _, _, earlier⟩ := aborts easyJob s reached 0 1 _ (of_decide_eq_true cancels)
  cases isOne
  exact absurd earlier (by decide)

end Walk

end BitcoinServer.Client
