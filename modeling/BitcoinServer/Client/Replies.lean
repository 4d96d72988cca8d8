import BitcoinServer.Client.Slots

/-!
Contract: the order of the SOLN lines.

`work_handler` recognises its turn by its slot number at the head of the queue.
As long as no slot number is pushed that is still on the queue, the head is then
the handler's own node and the lines come out in the order of the admitted
commands. With the same number on the queue twice, a later command takes the
turn of a node whose owner is gone.
-/

namespace BitcoinServer.Client

open BitcoinServer.Command BitcoinServer.Work Transition

/-- The lines written so far belong to admitted WORK commands, in the order these were
read and at most one each; and a handler whose turn test succeeds has its own node at the
head of the queue. -/
structure RepliesInOrder (s : State) : Prop where
  readOrder : s.admitted.Pairwise (· < ·)
  order : (s.sent.map Prod.fst).Sublist s.admitted
  once : (s.sent.map Prod.fst).Nodup
  turn : ∀ c, s.pc c = .work .turn → getTid s.queue = some (s.slot c) →
    s.queue.head? = some ⟨s.slot c, c⟩

/-- The command that the reader is about to push. -/
def Reader.pushing : Reader → Option Nat
  | .push c => some c
  | _ => none

/-- The step does not push a slot number that is still on the queue. -/
def PushesFresh (s : State) (label : Label) : Prop :=
  label = .reader .move → ∀ c ∈ s.reader.pushing, ∀ node ∈ s.queue, node.threadId ≠ s.slot c

instance (s : State) (label : Label) : Decidable (PushesFresh s label) :=
  inferInstanceAs (Decidable (_ → _))

/-- A thread past `send_message` of `work_handler` (or past a point without one). -/
def Pc.replied : Pc → Bool
  | .work .unlock | .cleanup .popped _ | .wrapper | .ended .popped | .died => true
  | _ => false

structure OrderInv (s : State) : Prop where
  ids : (s.queue.map Node.threadId).Nodup
  order : (s.sent.map Prod.fst).Sublist (s.removed ++ (s.queue.map Node.owner).take 1)
  replied : ∀ c ∈ s.sent.map Prod.fst, (s.pc c).replied = true
  once : (s.sent.map Prod.fst).Nodup

section Order

variable {jobOf : Nat → List UInt8 → Job} {job : Job} {s next : State} {label : Label} {c : Nat}

theorem HandlerRow.replied {before after : Pc} {effect : Effect}
    (row : HandlerRow job s c before after effect) (replied : before.replied = true) :
    after.replied = true := by
  cases row with
  | countDown via | btchesJoined via i | cancelBtch via i | joinBtch via i | waitCome via atHead
  | waitAgain via | waitWake via | rmTid via | resetFlag via =>
      cases via with
      | popped => rfl
      | cancelled holding => cases replied
  | cancelled at_ point pending =>
      cases at_ with
      | unlock => cases point
      | _ => cases replied
  | _ => first | rfl | cases replied

theorem HandlerRow.sends {before after : Pc} {line : List UInt8}
    (row : HandlerRow job s c before after (.send line)) :
    before = .work .send ∧ after = .work .unlock ∧ line = job.result (s.search c).solution := by
  generalize isSend : Effect.send line = effect at row
  cases row with
  | send => exact ⟨rfl, rfl, Effect.send.inj isSend⟩
  | _ => cases isSend

/-- With distinct slot numbers on the queue, a queued handler that finds its number at the
head finds its own node there. -/
theorem own_at_head (ids : (s.queue.map Node.threadId).Nodup)
    (queued : ⟨s.slot c, c⟩ ∈ s.queue) (atHead : getTid s.queue = some (s.slot c)) :
    s.queue.head? = some ⟨s.slot c, c⟩ := by
  cases queue : s.queue with
  | nil =>
      rw [queue] at queued
      cases queued
  | cons head rest =>
      rw [queue] at queued atHead ids
      rcases List.mem_cons.mp queued with isHead | later
      · rw [isHead]
        rfl
      · have sameId : head.threadId = s.slot c := Option.some.inj atHead
        have inRest : s.slot c ∈ rest.map Node.threadId :=
          List.mem_map_of_mem (f := Node.threadId) later
        rw [List.map_cons, List.nodup_cons, sameId] at ids
        exact absurd inRest ids.1

theorem orderInv_initial : OrderInv State.initial := by
  constructor <;> simp [State.initial]

private theorem OrderInv.frame (inv : OrderInv s) (sameQueue : next.queue = s.queue)
    (sameRemoved : next.removed = s.removed) (sameSent : next.sent = s.sent)
    (replied : ∀ t, (s.pc t).replied = true → (next.pc t).replied = true) : OrderInv next where
  ids := by
    rw [sameQueue]
    exact inv.ids
  order := by
    rw [sameSent, sameRemoved, sameQueue]
    exact inv.order
  replied t sent := by
    rw [sameSent] at sent
    exact replied t (inv.replied t sent)
  once := by
    rw [sameSent]
    exact inv.once

theorem Pc.created_of_replied {pc : Pc} (replied : pc.replied = true) : pc.created = true := by
  cases pc <;> first | rfl | cases replied

theorem OrderInv.reader (inv : OrderInv s) (readerInv : ReaderInv s) (row : ReaderRow s next)
    (fresh : ∀ c, s.reader = .push c → ∀ node ∈ s.queue, node.threadId ≠ s.slot c) :
    OrderInv next := by
  have replied : ∀ t, (s.pc t).replied = true → (next.pc t).replied = true := by
    intro t replied
    rw [row.pc_created readerInv (Pc.created_of_replied replied)]
    exact replied
  cases row with
  | push c atPush =>
      constructor
      · show ((s.queue ++ [Node.mk (s.slot c) c]).map Node.threadId).Nodup
        rw [List.map_append, List.map_singleton, List.nodup_append]
        refine ⟨inv.ids, List.pairwise_singleton _ _, ?_⟩
        intro id member new isNew
        obtain ⟨node, queued, rfl⟩ := List.mem_map.mp member
        rw [List.mem_singleton.mp isNew]
        exact fresh c atPush node queued
      · show (s.sent.map Prod.fst).Sublist
          (s.removed ++ ((s.queue ++ [Node.mk (s.slot c) c]).map Node.owner).take 1)
        apply inv.order.trans
        apply List.Sublist.append_left
        cases s.queue with
        | nil => exact List.nil_sublist _
        | cons head rest => exact List.Sublist.refl _
      · exact inv.replied
      · exact inv.once
  | _ => apply inv.frame _ _ _ replied <;> simp [State.claim, State.join]

theorem OrderInv.handler {m : Move} (inv : OrderInv s) (turnInv : TurnInv s)
    (row : HandlerRow job s c (s.pc c) m.pc m.effect) : OrderInv (s.perform c m) := by
  have replied : ∀ t, (s.pc t).replied = true → ((s.perform c m).pc t).replied = true := by
    intro t replied
    rw [perform_pc]
    by_cases self : t = c
    · rw [self, Function.update_self]
      exact row.replied (self ▸ replied)
    · rw [Function.update_of_ne self]
      exact replied
  cases effect : m.effect with
  | popQueue =>
      constructor
      · rw [perform_queue, if_pos effect, List.map_drop]
        exact inv.ids.sublist (List.drop_sublist 1 _)
      · rw [perform_sent, effect, perform_removed, if_pos effect]
        apply inv.order.trans
        rw [List.map_take]
        exact List.sublist_append_left _ _
      · rw [perform_sent, effect]
        exact fun t sent => replied t (inv.replied t sent)
      · rw [perform_sent, effect]
        exact inv.once
  | send line =>
      have notPop : m.effect ≠ .popQueue := by simp [effect]
      rw [effect] at row
      obtain ⟨atSend, atUnlock, _⟩ := row.sends
      -- The sender is at the head and has not sent before.
      have head := own_at_head inv.ids (turnInv.queued c (by rw [atSend]; rfl))
        (turnInv.turn c (by rw [atSend]; rfl))
      have first : c ∉ s.sent.map Prod.fst := by
        intro already
        have past := inv.replied c already
        rw [atSend] at past
        cases past
      have owners : (s.queue.map Node.owner).take 1 = [c] := by
        rw [List.take_one, List.head?_map, head]
        rfl
      have sent : (s.perform c m).sent.map Prod.fst = s.sent.map Prod.fst ++ [c] := by
        rw [perform_sent, effect]
        simp
      have sentBefore : (s.sent.map Prod.fst).Sublist s.removed := by
        have order := inv.order
        rw [owners, List.sublist_append_iff] at order
        obtain ⟨left, right, split, leftSub, rightSub⟩ := order
        rcases List.sublist_singleton.mp rightSub with isNil | isHead
        · rw [split, isNil, List.append_nil]
          exact leftSub
        · rw [split, isHead] at first
          simp at first
      constructor
      · rw [perform_queue, if_neg notPop]
        exact inv.ids
      · rw [sent, perform_removed, perform_queue, if_neg notPop, if_neg notPop, owners]
        exact sentBefore.append (List.Sublist.refl _)
      · intro t isSent
        rw [sent, List.mem_append, List.mem_singleton] at isSent
        rcases isSent with already | isNew
        · exact replied t (inv.replied t already)
        · rw [isNew, perform_pc, Function.update_self, atUnlock]
          rfl
      · rw [sent, List.nodup_append]
        refine ⟨inv.once, List.pairwise_singleton _ _, ?_⟩
        intro a already b isNew
        rw [List.mem_singleton.mp isNew]
        rintro rfl
        exact first already
  | _ =>
      apply inv.frame _ _ _ replied
      · rw [perform_queue, effect, if_neg (by simp)]
      · rw [perform_removed, effect, if_neg (by simp)]
      · rw [perform_sent, effect]

theorem orderInv_of_reachable
    (reached : ReachableIf (step jobOf) PushesFresh State.initial s) : OrderInv s := by
  apply reached.invariant orderInv_initial
  intro source label target previous inv fresh taken
  have clientInv := clientInv_of_reachable previous.reachable
  rcases step_cases taken with ⟨act, isReader, row⟩ | ⟨c, _, m, _, _, row, rfl⟩ | ⟨_, _, rfl⟩
  · apply inv.reader clientInv.reader row
    intro c atPush
    apply fresh _ c
    · rw [atPush]
      rfl
    · subst isReader
      cases act with
      | move => rfl
      | _ => simp [step, readerStep, atPush] at taken
  · exact inv.handler clientInv.turn row
  · exact { inv with }

/-- In every run that never pushes a slot number still on the queue, the replies come in
the order of the requests. -/
theorem replies_in_order (jobOf : Nat → List UInt8 → Job) {s : State}
    (reached : ReachableIf (step jobOf) PushesFresh State.initial s) : RepliesInOrder s := by
  have inv := orderInv_of_reachable reached
  have clientInv := clientInv_of_reachable reached.reachable
  constructor
  · exact clientInv.queue.ascending
  · apply inv.order.trans
    rw [clientInv.queue.admitted]
    exact (List.take_sublist 1 _).append_left _
  · exact inv.once
  · intro c atTurn atHead
    exact own_at_head inv.ids (clientInv.turn.queued c (by rw [atTurn]; rfl)) atHead

/-- The second of two WORK commands is solved first and waits for its turn. -/
def twoWorks : List Label :=
  [serve easyWork 4, serve easyWork 4, moves 1 4, List.replicate 4 (.btch 1 0 .run), moves 1 4,
    solvedWork 0, moves 1 4].flatten

theorem replies_in_order_two : ∃ s, s.sent.map Prod.fst = [0, 1] ∧ RepliesInOrder s := by
  obtain ⟨s, reached, sent⟩ :=
    exists_reachableIf_of_runIf (step easyJob) State.initial PushesFresh twoWorks
      (fun s => decide (s.sent.map Prod.fst = [0, 1])) (by decide +kernel)
  exact ⟨s, of_decide_eq_true sent, replies_in_order easyJob reached⟩

/-- WORK 1 gets slot 0 between the two clears of WORK 0, so that PING gets the slot too and
cancels WORK 1 in the cleanup after its reply. WORK 4 in slot 0 then takes the turn of the
node that WORK 1 has left, before WORK 3 in slot 1. -/
def stolenTurn : List Label :=
  [serve easyWork 4, solvedWork 0, [.reader (.take easyWork), .reader .move, .reader .move],
    moves 0 1, List.replicate 3 (.reader .move), [.reader (.create true)],
    moves 1 4, List.replicate 4 (.btch 1 0 .run), moves 1 9,
    [.reader (.take pingCmd), .reader .move, .reader .move, .handler 1 .actCancel,
      .reader .move, .reader .move, .reader (.create true)],
    serve easyWork 4, moves 2 2, serve easyWork 5, solvedWork 4, solvedWork 3].flatten

theorem stale_node_overtakes :
    ¬ ∀ (jobOf : Nat → List UInt8 → Job) (s : State),
      Reachable (step jobOf) State.initial s → RepliesInOrder s := by
  intro inOrder
  obtain ⟨s, reached, overtaken⟩ :=
    exists_reachable_of_run (step easyJob) State.initial stolenTurn
      (fun s => decide (s.admitted = [0, 1, 3, 4] ∧ s.sent.map Prod.fst = [0, 1, 4, 3]))
      (by decide +kernel)
  obtain ⟨admitted, sent⟩ := of_decide_eq_true overtaken
  have order := (inOrder easyJob s reached).order
  rw [admitted, sent] at order
  revert order
  decide

end Order

end BitcoinServer.Client
