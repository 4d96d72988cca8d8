import BitcoinServer.Client.Attempt
import BitcoinServer.Client.Slots
import BitcoinServer.Server.ClientSlots

/-!
Contract: what a failed `pthread_create` leaves behind.

`pthread_create` returns a positive error number when it fails, and both calls test for a
negative one. Even the branch of `main` for a negative result gives no flag back, and
`client_handler` has none that would undo anything: what makes up for the flag there is at
most the thread of an earlier command that clears it once more.
-/

namespace BitcoinServer.Server

open Transition

/-- The connection that `main` has accepted and not yet handed to a thread. -/
def Main.conn : Main → Option Nat
  | .claiming conn | .reuse conn _ | .joining conn _ _ | .create conn _ => some conn
  | .accept => none

/-- The connection that `main` is handling is nobody else's. -/
structure ConnInv (s : State) : Prop where
  closed : ∀ conn, s.closed conn = true → conn < s.accepted
  owned : ∀ t, t < s.count → s.conn t < s.accepted
  current : ∀ conn, s.main.conn = some conn → s.closed conn = false ∧ conn < s.accepted ∧
    ∀ t, t < s.count → s.conn t ≠ conn

section Connections

variable {s next : State} {label : Label}

theorem connInv_initial : ConnInv State.initial := by
  constructor <;> simp [State.initial, Main.conn]

/-- `main` goes on with its connection. -/
private theorem ConnInv.main (inv : ConnInv s) (sameClosed : next.closed = s.closed)
    (sameAccepted : next.accepted = s.accepted) (sameCount : next.count = s.count)
    (sameConn : next.conn = s.conn)
    (onward : ∀ conn, next.main.conn = some conn → s.main.conn = some conn) : ConnInv next := by
  constructor
  · rw [sameClosed, sameAccepted]
    exact inv.closed
  · rw [sameCount, sameConn, sameAccepted]
    exact inv.owned
  · intro conn current
    rw [sameClosed, sameAccepted, sameCount, sameConn]
    exact inv.current conn (onward conn current)

/-- A connection that `main` does not handle is closed. -/
private theorem ConnInv.close (inv : ConnInv s) {conn : Nat} (inAccepted : conn < s.accepted)
    (sameClosed : next.closed = Function.update s.closed conn true)
    (sameAccepted : next.accepted = s.accepted) (sameCount : next.count = s.count)
    (sameConn : next.conn = s.conn)
    (onward : ∀ other, next.main.conn = some other → s.main.conn = some other ∧ other ≠ conn) :
    ConnInv next := by
  constructor
  · intro other closed
    rw [sameClosed] at closed
    rw [sameAccepted]
    by_cases same : other = conn
    · rw [same]
      exact inAccepted
    · rw [Function.update_of_ne same] at closed
      exact inv.closed other closed
  · rw [sameCount, sameConn, sameAccepted]
    exact inv.owned
  · intro other current
    obtain ⟨before, distinct⟩ := onward other current
    rw [sameClosed, sameAccepted, sameCount, sameConn, Function.update_of_ne distinct]
    exact inv.current other before

theorem ConnInv.step (inv : ConnInv s) (poolInv : PoolInv s) (row : Row s label next) :
    ConnInv next := by
  have inAccepted : ∀ conn, s.main.conn = some conn → conn < s.accepted :=
    fun conn current => (inv.current conn current).2.1
  cases row with
  | connect atAccept =>
      constructor
      · exact fun conn closed => Nat.lt_succ_of_lt (inv.closed conn closed)
      · exact fun t inCount => Nat.lt_succ_of_lt (inv.owned t inCount)
      · intro conn current
        cases current
        refine ⟨?_, Nat.lt_succ_self _, fun t inCount => Nat.ne_of_lt (inv.owned t inCount)⟩
        by_contra closed
        rw [Bool.not_eq_false] at closed
        exact Nat.lt_irrefl _ (inv.closed _ closed)
  | refuse conn atClaim full =>
      exact inv.close (inAccepted conn (by rw [atClaim]; rfl)) rfl rfl rfl rfl nofun
  | negative error conn i atCreate isNegative =>
      exact inv.close (inAccepted conn (by rw [atCreate]; rfl)) rfl rfl rfl rfl nofun
  | claim conn i atClaim avail =>
      exact inv.main rfl rfl rfl rfl fun _ current => by rw [atClaim]; exact current
  | fresh conn i atReuse noThread =>
      exact inv.main rfl rfl rfl rfl fun _ current => by rw [atReuse]; exact current
  | join conn i thread atReuse previous =>
      exact inv.main rfl rfl rfl rfl fun _ current => by rw [atReuse]; exact current
  | joined conn i thread atJoin isOver =>
      exact inv.main rfl rfl rfl rfl fun _ current => by rw [atJoin]; exact current
  | notCreated error conn i atCreate positive => exact inv.main rfl rfl rfl rfl nofun
  | created conn i atCreate =>
      refine ⟨inv.closed, ?_, nofun⟩
      intro t inCount
      show Function.update s.conn s.count conn t < s.accepted
      change t < s.count + 1 at inCount
      by_cases self : t = s.count
      · rw [self, Function.update_self]
        exact inAccepted conn (by rw [atCreate]; rfl)
      · rw [Function.update_of_ne self]
        exact inv.owned t (by omega)
  | leave t atPc | testSet t atPc isSet | testClear t atPc isClear | reset t atPc =>
      exact inv.main rfl rfl rfl rfl fun _ current => current
  | close t atClose =>
      have inCount := poolInv.lt_count (t := t) (by rw [atClose]; nofun)
      refine inv.close (inv.owned t inCount) rfl rfl rfl rfl ?_
      intro other current
      exact ⟨current, ((inv.current other current).2.2 t inCount).symm⟩

theorem connInv_of_reachable (reached : Reachable Server.step State.initial s) : ConnInv s :=
  ReachableIf.invariant connInv_initial
    (fun _ _ _ before inv _ taken =>
      inv.step (poolInv_of_reachable before.reachable) (step_row taken))
    reached

/-- After a failed creation the connection stays open, with no thread to close it. -/
theorem failedCreate_open {error : Int} {conn i : Nat}
    (reached : Reachable Server.step State.initial s) (positive : 0 < error)
    (atCreate : s.main = .create conn i) (taken : Server.step s (.create error) = some next) :
    next.closed conn = false ∧ next.flags = s.flags ∧ next.count = s.count := by
  have open_ := ((connInv_of_reachable reached).current conn (by rw [atCreate]; rfl)).1
  simp only [Server.step, createStep, atCreate, if_neg (Int.not_lt.mpr (Int.le_of_lt positive)),
    if_neg (Int.ne_of_gt positive)] at taken
  cases taken
  exact ⟨open_, rfl, rfl⟩

end Connections

/-! ## The theorem -/

/-- A failed creation leaves no trace in `client_handler` just if another thread has cleared the
flag of the slot since it was claimed and the command is no admitted WORK, whether the client is
compared with what it would be without the command or with what it was before; in `main` it
always leaves the connection open. -/
theorem failed_creation_trace_iff (jobOf : Nat → List UInt8 → Work.Job) (cmd : List UInt8)
    (error : Int) (positive : 0 < error) :
    (∀ s a next, Reachable (Client.step jobOf) Client.State.initial s → s.reader = .idle →
      ReachableIf (Client.Attempt.step jobOf) Client.Attempt.Pending (.start s cmd) a →
      Client.step jobOf a.now (.reader (.create false)) = some next →
        (Client.SameTrace s.count a.without next ↔
          a.again = true ∧ next.func s.count ≠ .workHandler) ∧
        (Client.SameTrace s.count s next ↔
          a.again = !s.flags (next.slot s.count) ∧ next.func s.count ≠ .workHandler ∧
            a.without.queue = s.queue ∧ a.without.globalWorkCount = s.globalWorkCount)) ∧
    (∀ s next conn i, Reachable step State.initial s →
      s.main = .create conn i → step s (.create error) = some next →
        ¬ (next.flags i = false ∧ next.closed conn = true)) := by
  constructor
  · intro s a next before atIdle reached taken
    have marks := Client.Attempt.marks_of_reachable before atIdle reached
    exact ⟨Client.failedCreate_sameTrace marks taken,
      Client.failedCreate_asBefore (Client.clientInv_of_reachable before) marks taken⟩
  · rintro s next conn i reached atCreate taken ⟨_, closed⟩
    rw [(failedCreate_open reached positive atCreate taken).1] at closed
    cases closed

/-- The first command of a client is a WORK whose thread cannot be created. -/
private theorem failed_work :
    ∃ a next,
      ReachableIf (Client.Attempt.step Client.easyJob) Client.Attempt.Pending
        (.start Client.State.initial Client.easyWork) a ∧
      Client.step Client.easyJob a.now (.reader (.create false)) = some next ∧
      next.func 0 = .workHandler ∧ next.queue = [⟨0, 0⟩] ∧ next.globalWorkCount = 1 := by
  obtain ⟨a, reached, passed⟩ := exists_reachableIf_of_runIf
    (Client.Attempt.step Client.easyJob) (.start Client.State.initial Client.easyWork)
    Client.Attempt.Pending (List.replicate 4 (.reader .move))
    (fun a => (Client.step Client.easyJob a.now (.reader (.create false))).any
      fun next : Client.State => decide (next.func 0 = .workHandler ∧ next.queue = [⟨0, 0⟩] ∧
        next.globalWorkCount = 1)) (by decide +kernel)
  obtain ⟨next, taken, marks⟩ := (Option.any_eq_true _ _).mp passed
  exact ⟨a, next, reached, taken, of_decide_eq_true marks⟩

/-- PING gets the slot of a WORK between its two clears, and no thread. -/
private theorem failed_ping :
    ∃ s a next, Reachable (Client.step Client.easyJob) Client.State.initial s ∧
      s.reader = .idle ∧ s.count = 1 ∧
      ReachableIf (Client.Attempt.step Client.easyJob) Client.Attempt.Pending
        (.start s Client.pingCmd) a ∧
      Client.step Client.easyJob a.now (.reader (.create false)) = some next ∧
      a.again = true ∧ next.func 1 = .pingHandler := by
  have passed : ((run (Client.step Client.easyJob) Client.State.initial
      (Client.serve Client.easyWork 4 ++ Client.solvedWork 0)).any fun s =>
      decide (s.reader = .idle ∧ s.count = 1) &&
        (runIf (Client.Attempt.step Client.easyJob) (fun a label => decide (a.Pending label))
          (.start s Client.pingCmd)
          (.reader .move :: .handler 0 .move :: List.replicate 3 (.reader .move))).any fun a =>
          a.again && (Client.step Client.easyJob a.now (.reader (.create false))).any
            fun next : Client.State => decide (next.func 1 = .pingHandler)) = true := by
    decide +kernel
  simp only [Option.any_eq_true, Bool.and_eq_true, decide_eq_true_eq] at passed
  obtain ⟨s, ran, ⟨atIdle, one⟩, a, attempted, again, next, taken, isPing⟩ := passed
  exact ⟨s, a, next, reachableIf_of_runIf (fun _ _ _ => True.intro) ran, atIdle, one,
    reachableIf_of_runIf (fun _ _ => of_decide_eq_true) attempted, taken, again, isPing⟩

/-- The thread of the first client cannot be created. -/
private theorem failed_client :
    ∃ s next, Reachable step State.initial s ∧ s.main = .create 0 0 ∧
      step s (.create 11) = some next := by
  obtain ⟨s, reached, passed⟩ := exists_reachable_of_run step State.initial [.connect, .main, .main]
    (fun s => decide (s.main = .create 0 0)) (by decide +kernel)
  have atCreate : s.main = .create 0 0 := of_decide_eq_true passed
  exact ⟨s, _, reached, atCreate, by simp only [step, createStep, atCreate]; rfl⟩

/-- A WORK leaves its trace, a PING whose slot's flag is cleared once more does not, and `main`
leaves the connection open. -/
theorem failed_creation_trace_cases :
    (∃ a next, next.queue = [⟨0, 0⟩] ∧ ¬ Client.SameTrace 0 a next) ∧
      (∃ s next, next.func 1 = .pingHandler ∧ Client.SameTrace 1 s next) ∧
        ∃ next : State, ¬ (next.flags 0 = false ∧ next.closed 0 = true) := by
  obtain ⟨a, next, reached, taken, isWork, queue, _⟩ := failed_work
  obtain ⟨s, b, left, before, atIdle, one, attempted, failed, again, isPing⟩ := failed_ping
  obtain ⟨main, after, reachedMain, atCreate, unserved⟩ := failed_client
  have ofWork := ((failed_creation_trace_iff Client.easyJob Client.easyWork 11 (by decide)).1
    _ a next .here rfl reached taken).1
  have ofPing := ((failed_creation_trace_iff Client.easyJob Client.pingCmd 11 (by decide)).1
    s b left before atIdle attempted failed).1
  have ofClient := (failed_creation_trace_iff Client.easyJob Client.pingCmd 11 (by decide)).2
    main after 0 0 reachedMain atCreate unserved
  rw [one] at ofPing
  exact ⟨⟨a.without, next, queue, fun same => (ofWork.mp same).2 isWork⟩,
    ⟨b.without, left, isPing, ofPing.mpr ⟨again, by simp [isPing]⟩⟩, ⟨after, ofClient⟩⟩

/-- After a failed `pthread_create` for a WORK its slot, its queue entry and its place in
`global_work_count` stay taken, and `main` leaves its connection open. -/
theorem failed_work_keeps_entry :
    ¬ (∀ jobOf s cmd a next, Reachable (Client.step jobOf) Client.State.initial s →
        s.reader = .idle →
        ReachableIf (Client.Attempt.step jobOf) Client.Attempt.Pending (.start s cmd) a →
        Client.step jobOf a.now (.reader (.create false)) = some next →
          Client.SameTrace s.count s next) ∧
      ¬ (∀ s error next conn i, Reachable step State.initial s → 0 < error →
        s.main = .create conn i → step s (.create error) = some next →
          next.flags i = false ∧ next.closed conn = true) := by
  constructor
  · intro undone
    obtain ⟨a, next, reached, taken, _, queue, _⟩ := failed_work
    have sameQueue := (undone _ _ _ a next .here rfl reached taken).2.1
    rw [queue] at sameQueue
    cases sameQueue
  · intro undone
    obtain ⟨s, next, reached, atCreate, taken⟩ := failed_client
    have closed := (undone s 11 next 0 0 reached (by decide) atCreate taken).2
    rw [(failedCreate_open reached (by decide) atCreate taken).1] at closed
    cases closed

end BitcoinServer.Server
