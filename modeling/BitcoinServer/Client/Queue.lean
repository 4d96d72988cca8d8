import BitcoinServer.Client.Control

/-!
Contract: the work queue.

In every reachable state the commands pushed so far are the ones taken off the
queue followed by the ones still on it, in the order they were read, and all of
them are WORK commands. A WORK handler's own node stays on the queue until the
handler has called `rm_tid`, and a handler that has seen its slot number at the
head still finds it there. That the node at the head is then its own needs more:
two nodes may carry the same slot number.
-/

namespace BitcoinServer.Client

open BitcoinServer.Command BitcoinServer.Work

/-- The command the reader is dispatching, while it is not yet past `push_tid`. -/
def Reader.unpushed : Reader → Option Nat
  | .reuse c | .joining c _ | .dispatch c | .push c => some c
  | _ => none

structure QueueInv (s : State) : Prop where
  admitted : s.admitted = s.removed ++ s.queue.map Node.owner
  ascending : s.admitted.Pairwise (· < ·)
  read : ∀ c ∈ s.admitted, c < s.count ∧ s.reader.unpushed ≠ some c
  isWork : ∀ c ∈ s.admitted, s.func c = .workHandler
  own : ∀ node ∈ s.queue, node.threadId = s.slot node.owner
  pushing : ∀ c, s.reader = .push c → s.func c = .workHandler
  pushed : ∀ c, s.reader = .create c ∨ (s.pc c).created = true →
    s.func c = .workHandler → c ∈ s.admitted
  runs : ∀ c, (s.pc c).runs (s.func c)

section Facts

variable {s : State}

theorem Reader.current_of_unpushed {reader : Reader} {c : Nat}
    (unpushed : reader.unpushed = some c) : reader.current = some c := by
  cases reader <;> first | exact unpushed | cases unpushed

theorem QueueInv.admitted_of_queued (inv : QueueInv s) {node : Node} (queued : node ∈ s.queue) :
    node.owner ∈ s.admitted := by
  rw [inv.admitted]
  exact List.mem_append_right _ (List.mem_map_of_mem queued)

theorem QueueInv.nodup (inv : QueueInv s) : s.admitted.Nodup :=
  inv.ascending.imp Nat.ne_of_lt

end Facts

/-! ## Steps of the reader -/

section ReaderSteps

variable {s next : State}

/-- What leaves the queue, the commands and the threads alone keeps `QueueInv`. -/
theorem QueueInv.frame (inv : QueueInv s) (sameQueue : next.queue = s.queue)
    (sameAdmitted : next.admitted = s.admitted) (sameRemoved : next.removed = s.removed)
    (sameCount : next.count = s.count) (sameFunc : next.func = s.func)
    (sameSlot : next.slot = s.slot) (samePc : next.pc = s.pc)
    (unpushed : ∀ c, next.reader.unpushed = some c → s.reader.unpushed = some c)
    (pushing : ∀ c, next.reader = .push c → s.func c = .workHandler)
    (pushed : ∀ c, next.reader = .create c → s.func c = .workHandler → c ∈ s.admitted) :
    QueueInv next where
  admitted := by
    rw [sameAdmitted, sameRemoved, sameQueue]
    exact inv.admitted
  ascending := by
    rw [sameAdmitted]
    exact inv.ascending
  read c member := by
    rw [sameAdmitted] at member
    obtain ⟨below, past⟩ := inv.read c member
    rw [sameCount]
    exact ⟨below, fun still => past (unpushed c still)⟩
  isWork := by
    rw [sameAdmitted, sameFunc]
    exact inv.isWork
  own := by
    rw [sameQueue, sameSlot]
    exact inv.own
  pushing := by
    rw [sameFunc]
    exact pushing
  pushed c past isWork := by
    rw [sameFunc] at isWork
    rw [samePc] at past
    rw [sameAdmitted]
    cases past with
    | inl creating => exact pushed c creating isWork
    | inr created => exact inv.pushed c (.inr created) isWork
  runs := by
    rw [samePc, sameFunc]
    exact inv.runs

private theorem QueueInv.claim (inv : QueueInv s) (cmd : List UInt8) (slot : Nat) :
    QueueInv (s.claim cmd slot) := by
  have old : ∀ c ∈ s.admitted, c ≠ s.count := fun c member =>
    Nat.ne_of_lt (inv.read c member).1
  constructor
  · exact inv.admitted
  · exact inv.ascending
  · intro c member
    have below := (inv.read c member).1
    refine ⟨Nat.lt_succ_of_lt below, ?_⟩
    show some s.count ≠ some c
    simpa using (old c member).symm
  · intro c member
    show Function.update s.func s.count (dispatch cmd) c = .workHandler
    rw [Function.update_of_ne (old c member)]
    exact inv.isWork c member
  · intro node queued
    show node.threadId = Function.update s.slot s.count slot node.owner
    rw [Function.update_of_ne (old _ (inv.admitted_of_queued queued))]
    exact inv.own node queued
  · intro c impossible
    cases impossible
  · intro c past isWork
    have created : (Function.update s.pc s.count .claimed c).created = true :=
      past.resolve_left (by simp [State.claim])
    have fresh : c ≠ s.count := by
      rintro rfl
      rw [Function.update_self] at created
      cases created
    rw [Function.update_of_ne fresh] at created
    change Function.update s.func s.count (dispatch cmd) c = .workHandler at isWork
    rw [Function.update_of_ne fresh] at isWork
    exact inv.pushed c (.inr created) isWork
  · intro c
    show (Function.update s.pc s.count .claimed c).runs
      (Function.update s.func s.count (dispatch cmd) c)
    by_cases same : c = s.count
    · rw [same, Function.update_self, Function.update_self]
      trivial
    · rw [Function.update_of_ne same, Function.update_of_ne same]
      exact inv.runs c

private theorem QueueInv.refuse (inv : QueueInv s) (readerInv : ReaderInv s) {c : Nat}
    (atDispatch : s.reader = .dispatch c) :
    QueueInv { s with func := Function.update s.func c .custHandler, reader := .create c } := by
  have unpushed : s.reader.unpushed = some c := by rw [atDispatch, Reader.unpushed]
  have claimed : s.pc c = .claimed :=
    readerInv.pc_current (Reader.current_of_unpushed unpushed)
  have other : ∀ d ∈ s.admitted, d ≠ c := by
    rintro d member rfl
    exact (inv.read d member).2 unpushed
  constructor
  · exact inv.admitted
  · exact inv.ascending
  · intro d member
    exact ⟨(inv.read d member).1, by simp [Reader.unpushed]⟩
  · intro d member
    show Function.update s.func c .custHandler d = .workHandler
    rw [Function.update_of_ne (other d member)]
    exact inv.isWork d member
  · exact inv.own
  · intro d impossible
    cases impossible
  · intro d past isWork
    change Function.update s.func c .custHandler d = .workHandler at isWork
    have notSelf : d ≠ c := by
      rintro rfl
      rw [Function.update_self] at isWork
      cases isWork
    rw [Function.update_of_ne notSelf] at isWork
    apply inv.pushed d _ isWork
    exact .inr (past.resolve_left (by simpa using Ne.symm notSelf))
  · intro d
    show (s.pc d).runs (Function.update s.func c .custHandler d)
    by_cases same : d = c
    · rw [same, claimed]
      trivial
    · rw [Function.update_of_ne same]
      exact inv.runs d

private theorem QueueInv.push (inv : QueueInv s) (readerInv : ReaderInv s) {c : Nat}
    (atPush : s.reader = .push c) :
    QueueInv { s with
      queue := s.queue ++ [⟨s.slot c, c⟩]
      admitted := s.admitted ++ [c]
      reader := .create c } := by
  have unpushed : s.reader.unpushed = some c := by rw [atPush, Reader.unpushed]
  have last := readerInv.current c (Reader.current_of_unpushed unpushed)
  have isWork := inv.pushing c atPush
  constructor
  · show s.admitted ++ [c] = s.removed ++ (s.queue ++ [Node.mk (s.slot c) c]).map Node.owner
    rw [inv.admitted]
    simp
  · show (s.admitted ++ [c]).Pairwise (· < ·)
    rw [List.pairwise_append]
    refine ⟨inv.ascending, List.pairwise_singleton _ _, ?_⟩
    intro a member b isNew
    rw [List.mem_singleton] at isNew
    obtain ⟨below, past⟩ := inv.read a member
    have notSelf : a ≠ c := by
      rintro rfl
      exact past unpushed
    omega
  · intro d member
    refine ⟨?_, by simp [Reader.unpushed]⟩
    show d < s.count
    rcases List.mem_append.mp member with old | isNew
    · exact (inv.read d old).1
    · rw [List.mem_singleton] at isNew
      omega
  · intro d member
    rcases List.mem_append.mp member with old | isNew
    · exact inv.isWork d old
    · rw [List.mem_singleton.mp isNew]
      exact isWork
  · intro node queued
    rcases List.mem_append.mp queued with old | isNew
    · exact inv.own node old
    · rw [List.mem_singleton.mp isNew]
  · intro d impossible
    cases impossible
  · intro d past isWork
    show d ∈ s.admitted ++ [c]
    rcases past with creating | created
    · cases creating
      exact List.mem_append_right _ (List.mem_singleton_self c)
    · exact List.mem_append_left _ (inv.pushed d (.inr created) isWork)
  · exact inv.runs

/-- Creating the thread of the current command, or failing to. -/
private theorem QueueInv.settle (inv : QueueInv s) {c : Nat} {pc : Pc} {pool : Nat → Option Nat}
    (atCreate : s.reader = .create c) (runs : pc.runs (s.func c)) :
    QueueInv { s with pc := Function.update s.pc c pc, pool := pool, reader := .idle } := by
  constructor
  · exact inv.admitted
  · exact inv.ascending
  · intro d member
    exact ⟨(inv.read d member).1, by simp [Reader.unpushed]⟩
  · exact inv.isWork
  · exact inv.own
  · intro d impossible
    cases impossible
  · intro d past isWork
    by_cases same : d = c
    · exact inv.pushed d (.inl (same ▸ atCreate)) isWork
    · have created := past.resolve_left (by simp)
      change (Function.update s.pc c pc d).created = true at created
      rw [Function.update_of_ne same] at created
      exact inv.pushed d (.inr created) isWork
  · intro d
    show (Function.update s.pc c pc d).runs (s.func d)
    by_cases same : d = c
    · rw [same, Function.update_self]
      exact runs
    · rw [Function.update_of_ne same]
      exact inv.runs d

theorem QueueInv.reader (inv : QueueInv s) (readerInv : ReaderInv s) (row : ReaderRow s next) :
    QueueInv next := by
  cases row with
  | claim cmd slot atClaim avail => exact inv.claim cmd slot
  | refuse c atDispatch isWork full => exact inv.refuse readerInv atDispatch
  | push c atPush => exact inv.push readerInv atPush
  | created c atCreate => exact inv.settle atCreate (firstPc_runs _)
  | notCreated c atCreate => exact inv.settle atCreate trivial
  | accept c atDispatch isWork room =>
      apply inv.frame <;> simp [Reader.unpushed, atDispatch, isWork]
  | other c atDispatch notWork =>
      apply inv.frame <;> simp [Reader.unpushed, notWork]
  | reuseFree c atReuse noThread =>
      apply inv.frame <;> simp [Reader.unpushed, atReuse]
  | reuseCancel c thread atReuse previous =>
      apply inv.frame <;> simp [Reader.unpushed, atReuse]
  | reuseJoin c thread atJoin isOver =>
      apply inv.frame <;> simp [Reader.unpushed, State.join, atJoin]
  | _ => apply inv.frame <;> simp [Reader.unpushed, State.join]

end ReaderSteps

/-! ## Steps of the handlers -/

section HandlerSteps

variable {job : Job} {s : State} {c : Nat} {m : Move}

theorem QueueInv.handler (inv : QueueInv s) (row : HandlerRow job s c (s.pc c) m.pc m.effect) :
    QueueInv (s.perform c m) := by
  have wasCreated := row.live.1
  constructor
  · rw [perform_admitted, perform_removed, perform_queue]
    by_cases pops : m.effect = .popQueue
    · rw [if_pos pops, if_pos pops, List.append_assoc, ← List.map_append, List.take_append_drop]
      exact inv.admitted
    · rw [if_neg pops, if_neg pops]
      exact inv.admitted
  · rw [perform_admitted]
    exact inv.ascending
  · rw [perform_admitted, perform_count, perform_reader]
    exact inv.read
  · rw [perform_admitted, perform_func]
    exact inv.isWork
  · intro node queued
    rw [perform_slot]
    rw [perform_queue] at queued
    apply inv.own node
    split at queued
    · exact List.mem_of_mem_drop queued
    · exact queued
  · rw [perform_reader, perform_func]
    exact inv.pushing
  · intro d past isWork
    rw [perform_reader, perform_pc] at past
    rw [perform_func] at isWork
    rw [perform_admitted]
    apply inv.pushed d _ isWork
    by_cases self : d = c
    · exact .inr (self ▸ wasCreated)
    · rw [Function.update_of_ne self] at past
      exact past
  · intro d
    rw [perform_pc, perform_func]
    by_cases self : d = c
    · rw [self, Function.update_self]
      exact row.runs (inv.runs c)
    · rw [Function.update_of_ne self]
      exact inv.runs d

end HandlerSteps

end BitcoinServer.Client
