import BitcoinServer.Client.Abort

/-!
Contract: `client_handler_cleanup` after a disconnect.

The cleanup cancels and joins slot by slot, while a cancelled WORK waits in its own
cleanup until its slot number is at the head of the queue. So it blocks for as long as
the head belongs to a running WORK of a later slot, which it has not cancelled yet. It
does not where every running predecessor of a WORK has been sent a cancel before it.
-/

namespace BitcoinServer.Client

open BitcoinServer.Command BitcoinServer.Work Transition

/-- A WORK cleanup waits for its slot number at the head of the queue. -/
def Pc.waits : Pc → Bool
  | .cleanup _ .wait | .cleanup _ .waitSleep => true
  | _ => false

/-- When the reader is in `pthread_join` on slot `i` and the thread of that slot waits for
its turn in its cleanup, a running WORK at the head of the queue has been sent a cancel. -/
def NotBlocked (s : State) : Prop :=
  ∀ i t node, s.reader = .cleanupJoin i t → (s.pc t).waits = true →
    s.queue.head? = some node → node.threadId ≠ i → (s.pc node.owner).inWork = true →
    s.cancelSent node.owner = true

/-- The slot at which `client_handler_cleanup` is. -/
def Reader.cleaning : Reader → Option Nat
  | .cleanup i => some i
  | _ => none

/-- The step sends no cancel at disconnect to a WORK behind a running WORK that has not been
sent one. -/
def CancelsInOrder (s : State) (label : Label) : Prop :=
  label = .reader .move → ∀ i ∈ s.reader.cleaning, s.flags i = true → ∀ t ∈ s.pool i,
    (s.pc t).queued = true →
    ∀ node ∈ s.queue.takeWhile (fun entry => entry.owner ≠ t),
      (s.pc node.owner).inWork = true → s.cancelSent node.owner = true

instance (s : State) (label : Label) : Decidable (CancelsInOrder s label) :=
  inferInstanceAs (Decidable (_ → _))

/-- The running WORK handlers ahead of the one being joined have been sent a cancel. -/
def AheadCancelled (s : State) : Prop :=
  ∀ i t, s.reader = .cleanupJoin i t → (s.pc t).queued = true →
    ∀ node ∈ s.queue.takeWhile (fun entry => entry.owner ≠ t),
      (s.pc node.owner).inWork = true → s.cancelSent node.owner = true

section Disconnect

variable {jobOf : Nat → List UInt8 → Job} {job : Job} {s next : State} {label : Label} {c : Nat}

theorem HandlerRow.inWork {before after : Pc} {effect : Effect}
    (row : HandlerRow job s c before after effect) (inWork : after.inWork = true) :
    before.inWork = true := by
  cases row with
  | resetFlag via => rfl
  | _ => first | rfl | cases inWork

theorem Pc.queued_of_waits {pc : Pc} (waits : pc.waits = true) : pc.queued = true := by
  cases pc with
  | cleanup via at_ => cases at_ <;> first | rfl | cases waits
  | _ => cases waits

theorem perform_cancelSent {m : Move} {t : Nat} (sent : s.cancelSent t = true) :
    (s.perform c m).cancelSent t = true := by
  cases effect : m.effect with
  | cancel thread =>
      simp only [State.perform, State.apply, effect]
      exact pthreadCancel_cancelSent _ thread true sent
  | _ =>
      simp only [State.perform, State.apply, effect]
      exact sent

/-- Taking the head off the queue takes nobody else's predecessors away. -/
private theorem mem_takeWhile_of_drop {queue : List Node} {node : Node} {t : Nat}
    (headOther : ∀ head, queue.head? = some head → head.owner ≠ t)
    (member : node ∈ (queue.drop 1).takeWhile (fun entry => entry.owner ≠ t)) :
    node ∈ queue.takeWhile (fun entry => entry.owner ≠ t) := by
  cases queue with
  | nil => exact member
  | cons head rest =>
      rw [List.takeWhile_cons_of_pos (by simpa using headOther head rfl)]
      exact List.mem_cons_of_mem _ member

theorem aheadCancelled_reader (row : ReaderRow s next)
    (inOrder : ∀ i t, s.reader = .cleanup i → s.flags i = true → s.pool i = some t →
      (s.pc t).queued = true → ∀ node ∈ s.queue.takeWhile (fun entry => entry.owner ≠ t),
        (s.pc node.owner).inWork = true → s.cancelSent node.owner = true) :
    AheadCancelled next := by
  cases row with
  | cleanupCancel i thread atCleanup inRange busy current =>
      rintro j t ⟨⟩ queued node ahead inWork
      simp only [pthreadCancel_pc, pthreadCancel_queue] at queued ahead inWork
      exact pthreadCancel_cancelSent s _ true
        (inOrder i thread atCleanup busy current queued node ahead inWork)
  | _ =>
      intro j t impossible
      cases impossible

theorem AheadCancelled.handler {m : Move} (inv : AheadCancelled s) (clientInv : ClientInv s)
    (row : HandlerRow job s c (s.pc c) m.pc m.effect) : AheadCancelled (s.perform c m) := by
  intro i t atJoin queued node ahead inWork
  rw [perform_reader] at atJoin
  rw [perform_pc] at queued inWork
  have wasQueued : (s.pc t).queued = true ∧ (t = c → m.effect ≠ .popQueue) := by
    by_cases self : t = c
    · subst self
      rw [Function.update_self] at queued
      exact ⟨(row.queued queued).1, fun _ => (row.queued queued).2⟩
    · rw [Function.update_of_ne self] at queued
      exact ⟨queued, fun same => absurd same self⟩
  have wasInWork : (s.pc node.owner).inWork = true := by
    by_cases self : node.owner = c
    · rw [self, Function.update_self] at inWork
      rw [self]
      exact row.inWork inWork
    · rwa [Function.update_of_ne self] at inWork
  have wasAhead : node ∈ s.queue.takeWhile (fun entry => entry.owner ≠ t) := by
    rw [perform_queue] at ahead
    by_cases pops : m.effect = .popQueue
    · rw [if_pos pops] at ahead
      apply mem_takeWhile_of_drop _ ahead
      -- Only the joined thread itself could pop its own node.
      rintro head atHead rfl
      obtain ⟨via, atRmTid, _⟩ := row.pops pops
      have popper := clientInv.turn.turn c (by rw [atRmTid, Pc.hasTurn_rmTid])
      rw [getTid, atHead] at popper
      have sameSlot : s.slot c = s.slot head.owner := by
        rw [← clientInv.queue.own head (List.mem_of_head? atHead)]
        exact (Option.some.inj popper).symm
      obtain ⟨created, live⟩ := Pc.live_of_queued wasQueued.1
      have same := clientInv.pool.live_unique row.live.1 row.live.2 created live sameSlot
      exact wasQueued.2 same.symm pops
    · rwa [if_neg pops] at ahead
  exact perform_cancelSent (inv i t atJoin wasQueued.1 node wasAhead wasInWork)

theorem aheadCancelled_of_reachable
    (reached : ReachableIf (step jobOf) CancelsInOrder State.initial s) : AheadCancelled s := by
  have base : AheadCancelled State.initial := by
    intro i t impossible
    cases impossible
  apply reached.invariant base
  intro source label target previous inv inOrder taken
  rcases step_cases taken with ⟨act, isReader, row⟩ | ⟨c, _, m, _, _, row, rfl⟩ | ⟨_, _, rfl⟩
  · apply aheadCancelled_reader row
    intro i t atCleanup busy current
    have isMove : label = .reader .move := by
      subst isReader
      cases act with
      | move => rfl
      | _ => simp [step, readerStep, atCleanup] at taken
    exact inOrder isMove i (by rw [atCleanup]; rfl) busy t current
  · exact inv.handler (clientInv_of_reachable previous.reachable) row
  · exact inv

/-- WORK 1 in slot 1 is ahead of WORK 2, which has got the slot of the PING before it. -/
def slotsOutOfOrder : List Label :=
  [serve pingCmd 3, serve hardWork 4, moves 0 2, serve hardWork 5,
    [.reader .disconnect, .reader .move, .handler 2 .actCancel], moves 2 2].flatten

end Disconnect

end BitcoinServer.Client
