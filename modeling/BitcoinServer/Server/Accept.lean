import BitcoinServer.Threads
import BitcoinServer.Library.Transition
import Mathlib.Logic.Function.Basic

/-!
Contract: the accept loop of `main` and the slots of the client threads.

The parties are `main` and one thread for each client it has served; they share
`thread_avail_flags` and `thread_pool`. Client threads are numbered in the order of
their creation and connections in the order of `accept`. What a client thread does
inside the loop of `client_handler` is one step here, the one that leaves it.
-/

namespace BitcoinServer.Server

/-- `CLIENT_COUNT`. -/
def clientCount : Nat := 100

/-- Where `main` is, with the connection it has accepted: at `accept`, in
`get_avail_thread`, at `if(thread_pool[i])`, in `pthread_join`, at `pthread_create`. -/
inductive Main where
  | accept
  | claiming (conn : Nat)
  | reuse (conn i : Nat)
  | joining (conn i thread : Nat)
  | create (conn i : Nat)
deriving DecidableEq, Repr

/-- Where a client thread is: in the loop of `client_handler`, and in
`client_handler_cleanup` before its `close`, at the test of
`while(*(flags + client_id) == 1)`, in `reset_flag`. -/
inductive ClientPc where
  | uncreated | serving | closing | test | reset | ended
deriving DecidableEq, Repr

/-- `flags` and `pool` are indexed by slots, `slot`, `conn`, `pc` and `cleared` (the thread
has called `reset_flag`) by client threads, `closed` by connections. -/
structure State where
  main : Main
  flags : Nat → Bool
  pool : Nat → Option Nat
  count : Nat
  slot : Nat → Nat
  conn : Nat → Nat
  pc : Nat → ClientPc
  cleared : Nat → Bool
  accepted : Nat
  closed : Nat → Bool

/-- The server when it starts to listen. -/
def State.initial : State where
  main := .accept
  flags := fun _ => false
  pool := fun _ => none
  count := 0
  slot := fun _ => 0
  conn := fun _ => 0
  pc := fun _ => .uncreated
  cleared := fun _ => false
  accepted := 0
  closed := fun _ => false

/-- A client connects, `main` goes on, `pthread_create` returns `error`, a client thread
goes on. -/
inductive Label where
  | connect
  | main
  | create (error : Int)
  | client (thread : Nat)
deriving DecidableEq, Repr

def State.close (s : State) (conn : Nat) : State :=
  { s with closed := Function.update s.closed conn true }

/-- The thread that `pthread_create` starts in slot `i` for `conn`. -/
def State.spawn (s : State) (conn i : Nat) : State :=
  { s with
    main := .accept
    count := s.count + 1
    pool := Function.update s.pool i (some s.count)
    slot := Function.update s.slot s.count i
    conn := Function.update s.conn s.count conn
    pc := Function.update s.pc s.count .serving }

/-- `main` after `accept` and before `pthread_create`. -/
def mainStep (s : State) : Option State :=
  match s.main with
  | .claiming conn =>
      match getAvailThread s.flags clientCount with
      | none => some { s.close conn with main := .accept }
      | some i => some { s with flags := Function.update s.flags i true, main := .reuse conn i }
  | .reuse conn i =>
      match s.pool i with
      | none => some { s with main := .create conn i }
      | some thread => some { s with main := .joining conn i thread }
  | .joining conn i thread =>
      if s.pc thread = .ended then some { s with main := .create conn i } else none
  | .accept | .create _ _ => none

/-- `if((pthread_create(..)) < 0)`. On a positive error no thread is created, and what
`thread_pool[i]` holds is left as it was. -/
def createStep (s : State) (error : Int) : Option State :=
  match s.main with
  | .create conn i =>
      if error < 0 then some { s.close conn with main := .accept }
      else if error = 0 then some (s.spawn conn i)
      else some { s with main := .accept }
  | _ => none

/-- `client_handler` and `client_handler_cleanup`. -/
def clientStep (s : State) (t : Nat) : Option State :=
  match s.pc t with
  | .serving => some { s with pc := Function.update s.pc t .closing }
  | .closing => some { s.close (s.conn t) with pc := Function.update s.pc t .test }
  | .test =>
      some { s with pc := Function.update s.pc t (if s.flags (s.slot t) then .reset else .ended) }
  | .reset =>
      some { s with
        flags := Function.update s.flags (s.slot t) false
        cleared := Function.update s.cleared t true
        pc := Function.update s.pc t .test }
  | .uncreated | .ended => none

def step (s : State) : Label → Option State
  | .connect =>
      if s.main = .accept then
        some { s with main := .claiming s.accepted, accepted := s.accepted + 1 }
      else none
  | .main => mainStep s
  | .create error => createStep s error
  | .client t => clientStep s t

/-! ## What a step can do -/

inductive Row (s : State) : Label → State → Prop where
  | connect (atAccept : s.main = .accept) :
      Row s .connect { s with main := .claiming s.accepted, accepted := s.accepted + 1 }
  | refuse (conn : Nat) (atClaim : s.main = .claiming conn)
      (full : getAvailThread s.flags clientCount = none) :
      Row s .main { s.close conn with main := .accept }
  | claim (conn i : Nat) (atClaim : s.main = .claiming conn)
      (avail : getAvailThread s.flags clientCount = some i) :
      Row s .main { s with flags := Function.update s.flags i true, main := .reuse conn i }
  | fresh (conn i : Nat) (atReuse : s.main = .reuse conn i) (noThread : s.pool i = none) :
      Row s .main { s with main := .create conn i }
  | join (conn i thread : Nat) (atReuse : s.main = .reuse conn i)
      (previous : s.pool i = some thread) :
      Row s .main { s with main := .joining conn i thread }
  | joined (conn i thread : Nat) (atJoin : s.main = .joining conn i thread)
      (isOver : s.pc thread = .ended) : Row s .main { s with main := .create conn i }
  | negative (error : Int) (conn i : Nat) (atCreate : s.main = .create conn i)
      (isNegative : error < 0) : Row s (.create error) { s.close conn with main := .accept }
  | created (conn i : Nat) (atCreate : s.main = .create conn i) :
      Row s (.create 0) (s.spawn conn i)
  | notCreated (error : Int) (conn i : Nat) (atCreate : s.main = .create conn i)
      (positive : 0 < error) : Row s (.create error) { s with main := .accept }
  | leave (t : Nat) (atLoop : s.pc t = .serving) :
      Row s (.client t) { s with pc := Function.update s.pc t .closing }
  | close (t : Nat) (atClose : s.pc t = .closing) :
      Row s (.client t) { s.close (s.conn t) with pc := Function.update s.pc t .test }
  | testSet (t : Nat) (atTest : s.pc t = .test) (isSet : s.flags (s.slot t) = true) :
      Row s (.client t) { s with pc := Function.update s.pc t .reset }
  | testClear (t : Nat) (atTest : s.pc t = .test) (isClear : s.flags (s.slot t) = false) :
      Row s (.client t) { s with pc := Function.update s.pc t .ended }
  | reset (t : Nat) (atReset : s.pc t = .reset) :
      Row s (.client t) { s with
        flags := Function.update s.flags (s.slot t) false
        cleared := Function.update s.cleared t true
        pc := Function.update s.pc t .test }

section Rows

variable {s next : State}

theorem mainStep_row (taken : mainStep s = some next) : Row s .main next := by
  cases atMain : s.main with
  | claiming conn =>
      cases avail : getAvailThread s.flags clientCount with
      | none =>
          simp only [mainStep, atMain, avail] at taken
          cases taken
          exact .refuse conn atMain avail
      | some i =>
          simp only [mainStep, atMain, avail] at taken
          cases taken
          exact .claim conn i atMain avail
  | reuse conn i =>
      cases previous : s.pool i with
      | none =>
          simp only [mainStep, atMain, previous] at taken
          cases taken
          exact .fresh conn i atMain previous
      | some thread =>
          simp only [mainStep, atMain, previous] at taken
          cases taken
          exact .join conn i thread atMain previous
  | joining conn i thread =>
      simp only [mainStep, atMain, Option.ite_none_right_eq_some] at taken
      obtain ⟨isOver, ⟨⟩⟩ := taken
      exact .joined conn i thread atMain isOver
  | _ => simp [mainStep, atMain] at taken

theorem createStep_row {error : Int} (taken : createStep s error = some next) :
    Row s (.create error) next := by
  cases atMain : s.main with
  | create conn i =>
      simp only [createStep, atMain] at taken
      by_cases isNegative : error < 0
      · rw [if_pos isNegative] at taken
        cases taken
        exact .negative error conn i atMain isNegative
      · rw [if_neg isNegative] at taken
        by_cases success : error = 0
        · rw [if_pos success] at taken
          cases taken
          subst success
          exact .created conn i atMain
        · rw [if_neg success] at taken
          cases taken
          exact .notCreated error conn i atMain (by omega)
  | _ => simp [createStep, atMain] at taken

theorem clientStep_row {t : Nat} (taken : clientStep s t = some next) : Row s (.client t) next := by
  cases atPc : s.pc t with
  | serving =>
      simp only [clientStep, atPc] at taken
      cases taken
      exact .leave t atPc
  | closing =>
      simp only [clientStep, atPc] at taken
      cases taken
      exact .close t atPc
  | test =>
      simp only [clientStep, atPc] at taken
      cases taken
      by_cases isSet : s.flags (s.slot t) = true
      · rw [if_pos isSet]
        exact .testSet t atPc isSet
      · rw [if_neg isSet]
        exact .testClear t atPc (by simpa using isSet)
  | reset =>
      simp only [clientStep, atPc] at taken
      cases taken
      exact .reset t atPc
  | _ => simp [clientStep, atPc] at taken

theorem step_row {label : Label} (taken : step s label = some next) : Row s label next := by
  cases label with
  | connect =>
      rw [step, Option.ite_none_right_eq_some] at taken
      obtain ⟨atAccept, ⟨⟩⟩ := taken
      exact .connect atAccept
  | main => exact mainStep_row taken
  | create error => exact createStep_row taken
  | client t => exact clientStep_row taken

end Rows

end BitcoinServer.Server
