import BitcoinServer.Client.Slots
import BitcoinServer.Library.LinkedList

/-!
Contract: the work queue as `handler_helper.c` keeps it.

A node is a cell on the heap with a `thread_id` and a `next` pointer, and
`work_queue` is the pointer to the first one. `pushTid`, `rmTid` and
`OnHeap.getTid` are the functions of the source on such a heap; `none` is a read
through a pointer that is null or freed, or a walk that has not ended yet. The
system of a client with its heap takes the client's steps, and each step that
works on the queue also runs the function of the source that it stands for.

`malloc` may give back any address that is not allocated, also one that was freed
before. Every queue function holds `queue_mutex` from its first access to its
last, which is why it is one step. The walk of `abrt_handler`, which reads the
nodes without the mutex, is no part of this heap, nor are the nodes that are left
when a client ends.
-/

namespace BitcoinServer.Client

open BitcoinServer.Work LinkedList Transition

/-- The `queue_t` nodes; an address that is not allocated has none. -/
abbrev Heap : Type := Nat → Option (Cell Nat Nat)

/-! ## The functions of `handler_helper.c` -/

namespace OnHeap

/-- `curr->next = new`. -/
def setNext (heap : Heap) (curr new : Nat) : Option Heap :=
  (heap curr).map fun cell => Function.update heap curr (some { cell with next := some new })

/-- `push_tid`, with the node that `malloc` has given; the loop takes at most `turns` turns. -/
def pushTid (turns : Nat) (heap : Heap) (queue : Option Nat) (new tid : Nat) :
    Option (Heap × Option Nat) :=
  let heap := Function.update heap new (some ⟨tid, none⟩)
  match queue with
  | some curr =>
      ((lastFrom heap turns curr).bind fun last => setNext heap last new).map
        fun heap => (heap, queue)
  | none => some (heap, some new)

/-- `rm_tid`. -/
def rmTid (heap : Heap) (queue : Option Nat) : Option (Heap × Option Nat) :=
  match queue with
  | some tmp => (heap tmp).map fun cell => (Function.update heap tmp none, cell.next)
  | none => some (heap, none)

/-- `get_tid`. -/
def getTid (heap : Heap) (queue : Option Nat) : Option Int :=
  match queue with
  | some head => (heap head).map fun cell => cell.value
  | none => some (-1)

end OnHeap

/-- The heap has the nodes of the list that begins at `queue` and no others, and they carry
`tids` in this order. -/
def HoldsQueue (heap : Heap) (queue : Option Nat) (tids : List Nat) : Prop :=
  ∃ nodes, Chain heap queue nodes ∧ nodes.map Prod.snd = tids ∧
    ∀ address, (heap address).isSome = true ↔ address ∈ nodes.map Prod.fst

section Functions

variable {heap : Heap} {queue : Option Nat} {tids : List Nat}

theorem HoldsQueue.getTid (holds : HoldsQueue heap queue tids) :
    OnHeap.getTid heap queue = some (tids.head?.elim (-1) Nat.cast) := by
  obtain ⟨nodes, chain, rfl, _⟩ := holds
  cases chain with
  | nil => rfl
  | cons read behind => simp [OnHeap.getTid, read]

theorem HoldsQueue.rmTid (holds : HoldsQueue heap queue tids) :
    ∃ heap' queue', OnHeap.rmTid heap queue = some (heap', queue') ∧
      HoldsQueue heap' queue' (tids.drop 1) := by
  obtain ⟨nodes, chain, rfl, allocated⟩ := holds
  cases queue with
  | none =>
      cases chain
      exact ⟨heap, none, rfl, [], .nil, rfl, allocated⟩
  | some tmp =>
      obtain ⟨cell, behind, read, rfl, _⟩ := chain.read_head
      refine ⟨_, _, by rw [OnHeap.rmTid, read]; rfl, behind, chain.free read, rfl, ?_⟩
      have nodup := chain.nodup
      rw [List.map_cons, List.nodup_cons] at nodup
      intro address
      by_cases freed : address = tmp
      · rw [freed, Function.update_self]
        exact iff_of_false (by simp) nodup.1
      · rw [Function.update_of_ne freed, allocated, List.map_cons, List.mem_cons]
        exact or_iff_right freed

/-- The nodes once `push_tid` has filled in the new one, before it is linked. -/
theorem HoldsQueue.fresh {nodes : List (Nat × Nat)} {new : Nat} (tid : Nat)
    (chain : Chain heap queue nodes) (free : heap new = none) :
    new ∉ nodes.map Prod.fst ∧ Chain (Function.update heap new (some ⟨tid, none⟩)) queue nodes := by
  have outside : new ∉ nodes.map Prod.fst := by
    intro member
    have allocated := chain.isSome_of_mem member
    rw [free] at allocated
    cases allocated
  refine ⟨outside, chain.frame fun address member => Function.update_of_ne ?_ _ _⟩
  rintro rfl
  exact outside member

/-- `push_tid` returns: its loop reads each node at most once and none that is freed. -/
theorem HoldsQueue.pushTid_isSome (holds : HoldsQueue heap queue tids) {turns new : Nat} (tid : Nat)
    (free : heap new = none) (enough : tids.length ≤ turns) :
    ∃ after, OnHeap.pushTid turns heap queue new tid = some after := by
  obtain ⟨nodes, chain, rfl, _⟩ := holds
  obtain ⟨_, filled⟩ := HoldsQueue.fresh tid chain free
  cases queue with
  | none => exact ⟨_, rfl⟩
  | some curr =>
      rw [List.length_map] at enough
      obtain ⟨last, walked⟩ := filled.lastFrom_isSome enough
      obtain ⟨_, cell, read, _⟩ := filled.lastFrom_ends walked
      simp [OnHeap.pushTid, OnHeap.setNext, walked, read]

/-- Linking a node writes to one that is there. -/
theorem OnHeap.setNext_isSome {curr new : Nat} {heap' : Heap}
    (linked : OnHeap.setNext heap curr new = some heap') (address : Nat) :
    (heap' address).isSome = (heap address).isSome := by
  rw [OnHeap.setNext, Option.map_eq_some_iff] at linked
  obtain ⟨cell, read, rfl⟩ := linked
  by_cases same : address = curr
  · rw [same, Function.update_self, read]
    rfl
  · rw [Function.update_of_ne same]

/-- `push_tid` allocates the new node and nothing else. -/
theorem OnHeap.pushTid_allocated {turns new tid : Nat} {heap' : Heap} {queue' : Option Nat}
    (pushed : OnHeap.pushTid turns heap queue new tid = some (heap', queue')) (address : Nat) :
    (heap' address).isSome = true ↔ (heap address).isSome = true ∨ address = new := by
  have filled : (Function.update heap new (some ⟨tid, none⟩) address).isSome = true ↔
      (heap address).isSome = true ∨ address = new := by
    by_cases same : address = new
    · simp [same]
    · simp [same]
  cases queue with
  | none =>
      cases pushed
      exact filled
  | some curr =>
      simp only [OnHeap.pushTid, Option.map_eq_some_iff, Option.bind_eq_some_iff] at pushed
      obtain ⟨heap', ⟨last, _, linked⟩, ⟨⟩⟩ := pushed
      rw [OnHeap.setNext_isSome linked]
      exact filled

theorem HoldsQueue.pushTid (holds : HoldsQueue heap queue tids) {turns new tid : Nat}
    (free : heap new = none) {heap' : Heap} {queue' : Option Nat}
    (pushed : OnHeap.pushTid turns heap queue new tid = some (heap', queue')) :
    HoldsQueue heap' queue' (tids ++ [tid]) := by
  obtain ⟨nodes, chain, rfl, allocated⟩ := holds
  obtain ⟨outside, filled⟩ := HoldsQueue.fresh tid chain free
  refine ⟨nodes ++ [(new, tid)], ?_, by rw [List.map_append]; rfl, ?_⟩
  · cases queue with
    | none =>
        cases pushed
        cases chain
        have single : Chain (Function.update heap new (some ⟨tid, none⟩)) (some new) _ :=
          .cons (Function.update_self _ _ _) .nil
        exact single
    | some curr =>
        simp only [OnHeap.pushTid, Option.map_eq_some_iff, Option.bind_eq_some_iff] at pushed
        obtain ⟨heap', ⟨last, walked, linked⟩, ⟨⟩⟩ := pushed
        obtain ⟨member, cell, read, ends⟩ := filled.lastFrom_ends walked
        rw [OnHeap.setNext, read, Option.map_some, Option.some_inj] at linked
        subst linked
        exact filled.link member read ends (Function.update_self _ _ _) rfl outside
  · intro address
    rw [OnHeap.pushTid_allocated pushed, allocated, List.map_append, List.mem_append]
    exact or_congr_right List.mem_singleton.symm

end Functions

/-! ## The client on its heap -/

/-- The queue function that a step of the client calls, with its argument. -/
inductive QueueCall where
  | none
  | pushTid (tid : Nat)
  | rmTid
deriving DecidableEq, Repr

/-- `push_tid` is called by the reader, `rm_tid` by `work_handler_cleanup`. -/
def queueCall (s : State) : Label → QueueCall
  | .reader .move =>
      match s.reader with
      | .push c => .pushTid (s.slot c)
      | _ => .none
  | .handler c .move =>
      match s.pc c with
      | .cleanup _ .rmTid => .rmTid
      | _ => .none
  | _ => .none

/-- A client and the heap and pointer its work queue really is. -/
structure HeapClient where
  client : State
  heap : Heap
  queue : Option Nat

def HeapClient.initial : HeapClient := ⟨State.initial, fun _ => none, none⟩

/-- A step of the client, with what `malloc` gives and the turns that a loop takes at most. -/
structure HeapLabel where
  label : Label
  new : Nat
  turns : Nat
deriving DecidableEq, Repr

def heapStep (jobOf : Nat → List UInt8 → Job) (h : HeapClient) (l : HeapLabel) :
    Option HeapClient :=
  match step jobOf h.client l.label with
  | none => none
  | some next =>
      match queueCall h.client l.label with
      | .none => some ⟨next, h.heap, h.queue⟩
      | .pushTid tid =>
          if (h.heap l.new).isSome then none
          else
            (OnHeap.pushTid l.turns h.heap h.queue l.new tid).map
              fun (heap, queue) => ⟨next, heap, queue⟩
      | .rmTid => (OnHeap.rmTid h.heap h.queue).map fun (heap, queue) => ⟨next, heap, queue⟩

section Runs

variable {jobOf : Nat → List UInt8 → Job} {s next : State} {label : Label} {h h' : HeapClient}
  {l : HeapLabel}

/-- What a queue function does to the slot numbers in the queue. -/
def QueueCall.effect (tids : List Nat) : QueueCall → List Nat
  | .none => tids
  | .pushTid tid => tids ++ [tid]
  | .rmTid => tids.drop 1

/-- The slot numbers in the queue, in order. -/
def State.tids (s : State) : List Nat := s.queue.map Node.threadId

theorem readerStep_tids {act : ReaderAct} (taken : readerStep s act = some next) :
    next.tids = (queueCall s (.reader act)).effect s.tids := by
  have row := readerStep_row taken
  cases row with
  | push c atPush =>
      cases act with
      | move => simp [queueCall, atPush, QueueCall.effect, State.tids]
      | _ => simp [readerStep, atPush] at taken
  | _ =>
      cases act <;> simp_all [queueCall, QueueCall.effect, State.tids, State.claim, State.join]

/-- A handler takes a node off the queue just where its cleanup calls `rm_tid`. -/
theorem queueCall_handler {job : Job} {c : Nat} {act : HandlerAct} {m : Move}
    (moved : handlerStep job s c act = some m) :
    queueCall s (.handler c act) = if m.effect = .popQueue then .rmTid else .none := by
  by_cases pops : m.effect = .popQueue
  · obtain ⟨via, atRmTid, _⟩ := (handlerStep_row moved).pops pops
    rw [if_pos pops]
    cases act with
    | move => simp [queueCall, atRmTid]
    | _ => simp [handlerStep, atRmTid, cancelPoint] at moved
  · rw [if_neg pops]
    cases act with
    | move =>
        cases atPc : s.pc c with
        | cleanup via at_ =>
            cases at_ with
            | rmTid =>
                simp only [handlerStep, handlerMove, atPc, workHandlerCleanup,
                  Option.some_inj] at moved
                exact absurd (congrArg Move.effect moved.symm) pops
            | _ => simp [queueCall, atPc]
        | _ => simp [queueCall, atPc]
    | _ => rfl

theorem handlerStep_tids {job : Job} {c : Nat} {act : HandlerAct} {m : Move}
    (moved : handlerStep job s c act = some m) :
    (s.perform c m).tids = (queueCall s (.handler c act)).effect s.tids := by
  rw [State.tids, perform_queue, queueCall_handler moved]
  by_cases pops : m.effect = .popQueue
  · rw [if_pos pops, if_pos pops]
    exact List.map_drop
  · rw [if_neg pops, if_neg pops]
    rfl

theorem step_tids (taken : step jobOf s label = some next) :
    next.tids = (queueCall s label).effect s.tids := by
  cases label with
  | reader act => exact readerStep_tids taken
  | handler c act =>
      rw [step, Option.map_eq_some_iff] at taken
      obtain ⟨m, moved, rfl⟩ := taken
      exact handlerStep_tids moved
  | btch c i act =>
      rw [step, Option.map_eq_some_iff] at taken
      obtain ⟨search, _, rfl⟩ := taken
      rfl
  | others count =>
      cases taken
      rfl

/-- The client's part of a run is a run of the client, and the heap holds its queue. -/
theorem heapStep_holds (holds : HoldsQueue h.heap h.queue h.client.tids)
    (taken : heapStep jobOf h l = some h') :
    step jobOf h.client l.label = some h'.client ∧ HoldsQueue h'.heap h'.queue h'.client.tids := by
  rw [heapStep] at taken
  cases stepped : step jobOf h.client l.label with
  | none => simp [stepped] at taken
  | some next =>
      have tids := step_tids stepped
      simp only [stepped] at taken
      cases call : queueCall h.client l.label with
      | none =>
          rw [call] at tids taken
          cases taken
          exact ⟨rfl, tids ▸ holds⟩
      | pushTid tid =>
          rw [call] at tids
          simp only [call, Option.ite_none_left_eq_some, Option.map_eq_some_iff] at taken
          obtain ⟨free, ⟨heap, queue⟩, pushed, rfl⟩ := taken
          refine ⟨rfl, ?_⟩
          show HoldsQueue heap queue next.tids
          rw [tids]
          exact holds.pushTid (Option.not_isSome_iff_eq_none.mp free) pushed
      | rmTid =>
          rw [call] at tids
          simp only [call, Option.map_eq_some_iff] at taken
          obtain ⟨⟨heap, queue⟩, removed, rfl⟩ := taken
          obtain ⟨heap', queue', same, after⟩ := holds.rmTid
          rw [removed, Option.some_inj] at same
          cases same
          refine ⟨rfl, ?_⟩
          show HoldsQueue heap queue next.tids
          rw [tids]
          exact after

/-- Where the client can step, the queue function it calls returns. -/
theorem heapStep_isSome (holds : HoldsQueue h.heap h.queue h.client.tids)
    (stepped : step jobOf h.client l.label = some next) (free : h.heap l.new = none)
    (enough : h.client.queue.length ≤ l.turns) :
    ∃ h', heapStep jobOf h l = some h' ∧ h'.client = next := by
  rw [heapStep, stepped]
  cases call : queueCall h.client l.label with
  | none => exact ⟨_, rfl, rfl⟩
  | pushTid tid =>
      have inTids : h.client.tids.length ≤ l.turns := by
        rw [State.tids, List.length_map]
        exact enough
      obtain ⟨after, pushed⟩ := holds.pushTid_isSome tid free inTids
      exact ⟨⟨next, after.1, after.2⟩, by simp [free, pushed], rfl⟩
  | rmTid =>
      obtain ⟨heap, queue, removed, _⟩ := holds.rmTid
      exact ⟨⟨next, heap, queue⟩, by simp [removed], rfl⟩

theorem holds_of_reachable (reached : Reachable (heapStep jobOf) HeapClient.initial h) :
    Reachable (step jobOf) State.initial h.client ∧ HoldsQueue h.heap h.queue h.client.tids := by
  apply Reachable.invariant _ _ reached
  · exact ⟨.here, [], .nil, rfl, fun _ => iff_of_false Bool.false_ne_true List.not_mem_nil⟩
  · intro source label target ⟨clientReached, holds⟩ taken
    obtain ⟨stepped, after⟩ := heapStep_holds holds taken
    exact ⟨clientReached.advance label.label stepped, after⟩

/-- In every run, whatever addresses `malloc` gives: the heap holds the client's queue as a list
that ends and has all the allocated nodes in it, `get_tid` reads its head, and wherever the
client has a step the queue function in it returns. -/
theorem queue_on_heap (jobOf : Nat → List UInt8 → Job) {h : HeapClient}
    (reached : Reachable (heapStep jobOf) HeapClient.initial h) :
    Reachable (step jobOf) State.initial h.client ∧ HoldsQueue h.heap h.queue h.client.tids ∧
      OnHeap.getTid h.heap h.queue = some ((getTid h.client.queue).elim (-1) Nat.cast) ∧
      ∀ l next, step jobOf h.client l.label = some next → h.heap l.new = none →
        h.client.queue.length ≤ l.turns →
          ∃ h', heapStep jobOf h l = some h' ∧ h'.client = next := by
  obtain ⟨clientReached, holds⟩ := holds_of_reachable reached
  refine ⟨clientReached, holds, ?_, fun l next => heapStep_isSome holds⟩
  rw [holds.getTid, State.tids, getTid, List.head?_map]

/-- Labels under which `malloc` gives the node at `new`. -/
def mallocAt (new : Nat) (labels : List Label) : List HeapLabel :=
  labels.map fun label => ⟨label, new, 2⟩

/-- A second WORK is queued behind the first one, and a third one gets the freed node. -/
theorem queue_on_heap_reuse :
    ∃ h, Reachable (heapStep easyJob) HeapClient.initial h ∧ h.queue = some 9 ∧
      OnHeap.getTid h.heap h.queue = some 1 ∧ HoldsQueue h.heap h.queue [1, 0] := by
  obtain ⟨h, reached, ended⟩ :=
    exists_reachable_of_run (heapStep easyJob) HeapClient.initial
      [mallocAt 5 (serve easyWork 4), mallocAt 9 (serve easyWork 4),
        mallocAt 5 (solvedWork 0 ++ moves 0 1), mallocAt 5 (serve easyWork 5)].flatten
      (fun h => decide (h.queue = some 9 ∧ h.client.tids = [1, 0]))
      (by decide +kernel)
  obtain ⟨atNine, tids⟩ := of_decide_eq_true ended
  obtain ⟨_, holds, _, _⟩ := queue_on_heap easyJob reached
  rw [tids] at holds
  exact ⟨h, reached, atNine, holds.getTid, holds⟩

end Runs

end BitcoinServer.Client
