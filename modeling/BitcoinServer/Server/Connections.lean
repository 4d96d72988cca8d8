import BitcoinServer.Server.Creation
import Mathlib.Data.Finset.Card

/-!
Contract: what becomes of the connections that `main` accepts.

A connection is handled by `main` until its client thread is created or it is closed, and then
belongs to that thread alone, which closes it once. The one way to lose it is the error that
`pthread_create` reports with a positive number.
-/

namespace BitcoinServer.Server

open Transition

/-- `client_handler_cleanup` has called `close`. -/
def ClientPc.pastClose : ClientPc → Bool
  | .test | .reset | .ended => true
  | _ => false

/-- The connection that a step closes. -/
def closing (s : State) : Label → Option Nat
  | .main =>
      match s.main with
      | .claiming conn => if getAvailThread s.flags clientCount = none then some conn else none
      | _ => none
  | .create error => if error < 0 then s.main.conn else none
  | .client t => if s.pc t = .closing then some (s.conn t) else none
  | .connect => none

/-- The client threads that have been created and have not ended. -/
def State.live (s : State) : Finset Nat :=
  (Finset.range s.count).filter fun t => (s.pc t).live = true

/-- `pthread_create` reports no error that `main` takes for a success. -/
def Reports (_ : State) (label : Label) : Prop := ∀ error, label = .create error → error ≤ 0

instance (s : State) : ∀ label, Decidable (Reports s label)
  | .create error => decidable_of_iff (error ≤ 0) (by simp [Reports])
  | .connect | .main | .client _ => .isTrue nofun

/-- A client thread has a connection of its own, open until it closes it, and a slot of the
array. -/
structure OwnerInv (s : State) : Prop where
  unique : ∀ t u, t < s.count → u < s.count → s.conn t = s.conn u → t = u
  closed : ∀ t, t < s.count → s.closed (s.conn t) = (s.pc t).pastClose
  claimed : ∀ i, s.main.claimed = some i → i < clientCount
  slot : ∀ t, t < s.count → s.slot t < clientCount

/-- Every connection that is open is handled by `main` or by a thread. -/
def NoneLost (s : State) : Prop :=
  ∀ conn < s.accepted, s.closed conn = false →
    s.main.conn = some conn ∨ ∃ t < s.count, s.conn t = conn

section Connections

variable {s next : State} {label : Label}

theorem ownerInv_initial : OwnerInv State.initial := by
  constructor <;> simp [State.initial, Main.claimed]

/-- `main` moves, or a thread does that has no `close` before it. -/
theorem OwnerInv.keep (inv : OwnerInv s) (sameCount : next.count = s.count)
    (sameConn : next.conn = s.conn) (sameSlot : next.slot = s.slot)
    (closed : ∀ t, t < s.count → next.closed (s.conn t) = (next.pc t).pastClose)
    (claimed : ∀ i, next.main.claimed = some i → i < clientCount) : OwnerInv next where
  unique := by
    rw [sameCount, sameConn]
    exact inv.unique
  closed := by
    rw [sameCount, sameConn]
    exact closed
  claimed := claimed
  slot := by
    rw [sameCount, sameSlot]
    exact inv.slot

/-- A thread moves on its own side of its `close`. -/
theorem OwnerInv.moved (inv : OwnerInv s) {t : Nat} {pc : ClientPc}
    (same : pc.pastClose = (s.pc t).pastClose) (u : Nat) (inCount : u < s.count) :
    s.closed (s.conn u) = (Function.update s.pc t pc u).pastClose := by
  by_cases self : u = t
  · rw [self, Function.update_self, same, ← inv.closed t (self ▸ inCount)]
  · rw [Function.update_of_ne self, inv.closed u inCount]

/-- `main` closes its own connection, which is no thread's. -/
theorem OwnerInv.refused (inv : OwnerInv s) (connInv : ConnInv s) {conn : Nat}
    (current : s.main.conn = some conn) (t : Nat) (inCount : t < s.count) :
    (s.close conn).closed (s.conn t) = (s.pc t).pastClose := by
  have other := (connInv.current conn current).2.2 t inCount
  show Function.update s.closed conn true (s.conn t) = _
  rw [Function.update_of_ne other, inv.closed t inCount]

theorem OwnerInv.spawn (inv : OwnerInv s) (connInv : ConnInv s) {conn i : Nat}
    (atCreate : s.main = .create conn i) : OwnerInv (s.spawn conn i) := by
  obtain ⟨opened, _, fresh⟩ := connInv.current conn (by rw [atCreate]; rfl)
  have old : ∀ t, t < s.count → (s.spawn conn i).conn t = s.conn t := fun t inCount =>
    Function.update_of_ne (Nat.ne_of_lt inCount) ..
  have own : (s.spawn conn i).conn s.count = conn := Function.update_self ..
  have oldOrNew : ∀ t, t < (s.spawn conn i).count → t < s.count ∨ t = s.count := by
    intro t inCount
    change t < s.count + 1 at inCount
    omega
  constructor
  · intro t u inCount otherInCount same
    rcases oldOrNew t inCount with before | rfl
    · rcases oldOrNew u otherInCount with otherBefore | rfl
      · rw [old t before, old u otherBefore] at same
        exact inv.unique t u before otherBefore same
      · rw [old t before, own] at same
        exact absurd same (fresh t before)
    · rcases oldOrNew u otherInCount with otherBefore | rfl
      · rw [own, old u otherBefore] at same
        exact absurd same.symm (fresh u otherBefore)
      · rfl
  · intro t inCount
    show s.closed ((s.spawn conn i).conn t) = (Function.update s.pc s.count .serving t).pastClose
    rcases oldOrNew t inCount with before | rfl
    · rw [old t before, Function.update_of_ne (Nat.ne_of_lt before), inv.closed t before]
    · rw [own, opened, Function.update_self]
      rfl
  · exact nofun
  · intro t inCount
    show Function.update s.slot s.count i t < clientCount
    rcases oldOrNew t inCount with before | rfl
    · rw [Function.update_of_ne (Nat.ne_of_lt before)]
      exact inv.slot t before
    · rw [Function.update_self]
      exact inv.claimed i (by rw [atCreate]; rfl)

theorem OwnerInv.step (inv : OwnerInv s) (connInv : ConnInv s) (poolInv : PoolInv s)
    (row : Row s label next) : OwnerInv next := by
  cases row with
  | connect atAccept => exact inv.keep rfl rfl rfl inv.closed nofun
  | refuse conn atClaim full =>
      exact inv.keep rfl rfl rfl (inv.refused connInv (by rw [atClaim]; rfl)) nofun
  | negative error conn i atCreate isNegative =>
      exact inv.keep rfl rfl rfl (inv.refused connInv (by rw [atCreate]; rfl)) nofun
  | claim conn i atClaim avail =>
      refine inv.keep rfl rfl rfl inv.closed ?_
      rintro j ⟨⟩
      exact List.mem_range.mp (List.mem_of_find?_eq_some avail)
  | fresh conn i atReuse noThread =>
      refine inv.keep rfl rfl rfl inv.closed fun j claimed => inv.claimed j ?_
      rw [atReuse]
      exact claimed
  | join conn i thread atReuse previous =>
      refine inv.keep rfl rfl rfl inv.closed fun j claimed => inv.claimed j ?_
      rw [atReuse]
      exact claimed
  | joined conn i thread atJoin isOver =>
      refine inv.keep rfl rfl rfl inv.closed fun j claimed => inv.claimed j ?_
      rw [atJoin]
      exact claimed
  | created conn i atCreate => exact inv.spawn connInv atCreate
  | notCreated error conn i atCreate positive => exact inv.keep rfl rfl rfl inv.closed nofun
  | leave t atPc | testSet t atPc isSet | testClear t atPc isClear | reset t atPc =>
      exact inv.keep rfl rfl rfl (inv.moved (by rw [atPc]; rfl)) inv.claimed
  | close t atClose =>
      have inCount := poolInv.lt_count (t := t) (by rw [atClose]; nofun)
      refine inv.keep rfl rfl rfl ?_ inv.claimed
      intro u otherInCount
      show Function.update s.closed (s.conn t) true (s.conn u) =
        (Function.update s.pc t .test u).pastClose
      by_cases self : u = t
      · rw [self, Function.update_self, Function.update_self]
        rfl
      · have other : s.conn u ≠ s.conn t := fun same =>
          self (inv.unique u t otherInCount inCount same)
        rw [Function.update_of_ne other, Function.update_of_ne self, inv.closed u otherInCount]

theorem ownerInv_of_reachable (reached : Reachable Server.step State.initial s) : OwnerInv s :=
  ReachableIf.invariant ownerInv_initial
    (fun _ _ _ before inv _ taken => inv.step (connInv_of_reachable before)
      (poolInv_of_reachable before) (step_row taken)) reached

/-- What a step closes was open. -/
theorem open_of_closing (inv : OwnerInv s) (connInv : ConnInv s) (poolInv : PoolInv s)
    {conn : Nat} (closes : closing s label = some conn) : s.closed conn = false := by
  cases label with
  | connect => cases closes
  | main =>
      cases atMain : s.main with
      | claiming current =>
          simp only [closing, atMain, Option.ite_none_right_eq_some, Option.some_inj] at closes
          exact (connInv.current conn (by rw [atMain, ← closes.2]; rfl)).1
      | _ => simp [closing, atMain] at closes
  | create error =>
      rw [closing, Option.ite_none_right_eq_some] at closes
      exact (connInv.current conn closes.2).1
  | client t =>
      rw [closing, Option.ite_none_right_eq_some, Option.some_inj] at closes
      obtain ⟨atClose, rfl⟩ := closes
      rw [inv.closed t (poolInv.lt_count (by rw [atClose]; nofun)), atClose]
      rfl

/-- Nobody loses a connection where `main` and the threads keep or close theirs. -/
theorem NoneLost.keep (noneLost : NoneLost s) (sameAccepted : next.accepted = s.accepted)
    (sameCount : next.count = s.count) (sameConn : next.conn = s.conn)
    (closed : ∀ conn, next.closed conn = false → s.closed conn = false)
    (main : ∀ conn, s.main.conn = some conn → next.closed conn = false →
      next.main.conn = some conn) : NoneLost next := by
  intro conn inAccepted isOpen
  rw [sameAccepted] at inAccepted
  rw [sameCount, sameConn]
  rcases noneLost conn inAccepted (closed conn isOpen) with current | owned
  · exact .inl (main conn current isOpen)
  · exact .inr owned

/-- `main` goes on with the connection that it has. -/
theorem NoneLost.onward (noneLost : NoneLost s) {main : Main} {flags : Nat → Bool}
    (same : s.main.conn = main.conn) : NoneLost { s with main := main, flags := flags } :=
  noneLost.keep rfl rfl rfl (fun _ => id) fun _ current _ => same.symm.trans current

theorem open_before_close {conn other : Nat} (isOpen : (s.close conn).closed other = false) :
    other ≠ conn ∧ s.closed other = false := by
  change Function.update s.closed conn true other = false at isOpen
  by_cases same : other = conn
  · rw [same, Function.update_self] at isOpen
    cases isOpen
  · rw [Function.update_of_ne same] at isOpen
    exact ⟨same, isOpen⟩

/-- `main` closes the connection that it has. -/
theorem NoneLost.refused (noneLost : NoneLost s) {conn : Nat} (current : s.main.conn = some conn) :
    NoneLost { s.close conn with main := .accept } := by
  refine noneLost.keep rfl rfl rfl (fun _ isOpen => (open_before_close isOpen).2) ?_
  intro other isCurrent isOpen
  rw [current, Option.some_inj] at isCurrent
  exact absurd isCurrent.symm (open_before_close isOpen).1

theorem NoneLost.step (noneLost : NoneLost s) (reports : Reports s label)
    (row : Row s label next) : NoneLost next := by
  cases row with
  | connect atAccept =>
      intro conn inAccepted isOpen
      change conn < s.accepted + 1 at inAccepted
      by_cases new : conn = s.accepted
      · exact .inl (congrArg some new.symm)
      · have owned := noneLost conn (by omega) isOpen
        rw [atAccept] at owned
        exact .inr (owned.resolve_left nofun)
  | refuse conn atClaim full => exact noneLost.refused (by rw [atClaim]; rfl)
  | negative error conn i atCreate isNegative => exact noneLost.refused (by rw [atCreate]; rfl)
  | claim conn i atClaim avail => exact noneLost.onward (by rw [atClaim]; rfl)
  | fresh conn i atReuse noThread => exact noneLost.onward (by rw [atReuse]; rfl)
  | join conn i thread atReuse previous => exact noneLost.onward (by rw [atReuse]; rfl)
  | joined conn i thread atJoin isOver => exact noneLost.onward (by rw [atJoin]; rfl)
  | created conn i atCreate =>
      intro other inAccepted isOpen
      rcases noneLost other inAccepted isOpen with current | ⟨t, inCount, own⟩
      · rw [atCreate] at current
        obtain rfl : conn = other := Option.some.inj current
        exact .inr ⟨s.count, Nat.lt_succ_self _, Function.update_self ..⟩
      · refine .inr ⟨t, Nat.lt_succ_of_lt inCount, ?_⟩
        exact (Function.update_of_ne (Nat.ne_of_lt inCount) ..).trans own
  | notCreated error conn i atCreate positive =>
      have reported := reports error rfl
      omega
  | leave t atPc | testSet t atPc isSet | testClear t atPc isClear | reset t atPc =>
      exact noneLost.keep rfl rfl rfl (fun _ => id) fun _ current _ => current
  | close t atClose =>
      exact noneLost.keep rfl rfl rfl (fun _ isOpen => (open_before_close isOpen).2)
        fun _ current _ => current

theorem noneLost_of_reachable (reached : ReachableIf Server.step Reports State.initial s) :
    NoneLost s :=
  reached.invariant (fun conn inAccepted => absurd inAccepted (Nat.not_lt_zero conn))
    fun _ _ _ _ noneLost reports taken => noneLost.step reports (step_row taken)

/-- Live client threads have slots of their own. -/
theorem card_live_le (poolInv : PoolInv s) (inv : OwnerInv s) : s.live.card ≤ clientCount := by
  have slots : ∀ t ∈ s.live, s.slot t ∈ Finset.range clientCount := by
    intro t member
    obtain ⟨inRange, _⟩ := Finset.mem_filter.mp member
    exact Finset.mem_range.mpr (inv.slot t (Finset.mem_range.mp inRange))
  have apart : Set.InjOn s.slot s.live := by
    intro t first u second same
    exact poolInv.live_unique (Finset.mem_filter.mp first).2 (Finset.mem_filter.mp second).2 same
  have bound := Finset.card_le_card_of_injOn s.slot slots apart
  rwa [Finset.card_range] at bound

end Connections

/-- In every run: a client thread has a connection of its own, which is closed exactly from its
`close` on; no connection is closed twice; at most `CLIENT_COUNT` client threads are live; and as
long as `pthread_create` reports no error that is taken for a success, every open connection
is handled by `main` or by its thread. -/
theorem connections_accounted {s : State} (reached : Reachable step State.initial s) :
    (∀ t u, t < s.count → u < s.count → s.conn t = s.conn u → t = u) ∧
    (∀ t < s.count, s.closed (s.conn t) = true ↔ (s.pc t).pastClose = true) ∧
    (∀ label conn, closing s label = some conn → s.closed conn = false) ∧
    s.live.card ≤ clientCount ∧
    (ReachableIf step Reports State.initial s → ∀ conn < s.accepted,
      s.closed conn = false ↔ s.main.conn = some conn ∨
        ∃ t < s.count, s.conn t = conn ∧ (s.pc t).pastClose = false) := by
  have connInv := connInv_of_reachable reached
  have poolInv := poolInv_of_reachable reached
  have inv := ownerInv_of_reachable reached
  refine ⟨inv.unique, fun t inCount => by rw [inv.closed t inCount],
    fun label conn => open_of_closing inv connInv poolInv, card_live_le poolInv inv, ?_⟩
  intro reporting conn inAccepted
  constructor
  · intro isOpen
    rcases noneLost_of_reachable reporting conn inAccepted isOpen with current | ⟨t, inCount, own⟩
    · exact .inl current
    · refine .inr ⟨t, inCount, own, ?_⟩
      rw [← inv.closed t inCount, own, isOpen]
  · rintro (current | ⟨t, inCount, rfl, before⟩)
    · exact (connInv.current conn current).1
    · rw [inv.closed t inCount, before]

/-- Two clients connect, and the first one leaves. -/
theorem connections_accounted_two :
    ∃ s, Reachable step State.initial s ∧ s.closed 0 = true ∧ s.closed 1 = false ∧
      ∃ t < s.count, s.conn t = 1 ∧ (s.pc t).pastClose = false := by
  obtain ⟨s, reached, ended⟩ := exists_reachableIf_of_runIf step State.initial Reports
    [[.connect, .main, .main, .create 0], [.connect, .main, .main, .create 0],
      List.replicate 2 (.client 0)].flatten
    (fun s => decide (s.main = .accept ∧ s.accepted = 2 ∧ s.closed 0 = true ∧ s.closed 1 = false))
    (by decide +kernel)
  obtain ⟨atAccept, accepted, closed, isOpen⟩ := of_decide_eq_true ended
  have owners := (connections_accounted reached.reachable).2.2.2.2 reached 1 (by omega)
  refine ⟨s, reached.reachable, closed, isOpen, (owners.mp isOpen).resolve_left ?_⟩
  rw [atAccept]
  exact nofun

end BitcoinServer.Server
