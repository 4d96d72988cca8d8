import BitcoinServer.Client.Step
import BitcoinServer.Library.Transition

/-!
Contract: all clients of the server together with `global_work_count`.

A client takes the steps of its own model, except that the two places where it
counts its WORK commands are drawn apart: the admission of a WORK command loads the
counter and stores it under `global_work_mutex`, and `work_handler_cleanup` loads and
stores it without the mutex. The counter in a client's own state is not used between
these steps.

`active` records the WORK commands that a store has admitted and that no store of their
cleanup has counted down yet. No step reads it.
-/

namespace BitcoinServer.Server.GlobalWork

open BitcoinServer.Command BitcoinServer.Work

/-! ## The clients' own steps -/

/-- The WORK command whose admission is next, if the reader is there. -/
def admission (s : Client.State) : Option Nat :=
  match s.reader with
  | .dispatch c => if s.func c = .workHandler then some c else none
  | _ => none

/-- `global_work_count--` of `work_handler_cleanup`. -/
def atCountDown : Client.Pc → Bool
  | .cleanup _ .countDown => true
  | _ => false

/-- The steps that read or write `global_work_count`. -/
def counts (s : Client.State) : Client.Label → Bool
  | .reader .move => (admission s).isSome
  | .handler c .move => atCountDown (s.pc c)
  | .others _ => true
  | _ => false

/-- `pthread_create`, which comes behind the unlock. -/
def creates : Client.Label → Bool
  | .reader (.create _) => true
  | _ => false

/-! ## All clients -/

/-- The threads that load and store the counter: the reader of client `i`, and the
cleanup of its command `c`. -/
inductive Thread where
  | reader (i : Nat)
  | cleanup (i c : Nat)
deriving DecidableEq, Repr

/-- `loaded` has the threads between their load and their store, with the values that they
have loaded. -/
structure State where
  clients : Nat → Client.State
  globalWorkCount : Int
  globalWorkMutex : Option Nat
  loaded : List (Thread × Int)
  active : List (Nat × Nat)

def State.initial : State where
  clients := fun _ => .initial
  globalWorkCount := 0
  globalWorkMutex := none
  loaded := []
  active := []

inductive Label where
  | client (i : Nat) (label : Client.Label)
  | lock (i : Nat)
  | admitLoad (i : Nat)
  | admitStore (i : Nat)
  | unlock (i : Nat)
  | countLoad (i c : Nat)
  | countStore (i c : Nat)
deriving DecidableEq, Repr

def State.valueOf (s : State) (thread : Thread) : Option Int := s.loaded.lookup thread

def State.setClient (s : State) (i : Nat) (next : Client.State) : State :=
  { s with clients := Function.update s.clients i next }

/-- The thread reads the counter. -/
def State.load (s : State) (thread : Thread) : State :=
  { s with loaded := (thread, s.globalWorkCount) :: s.loaded }

/-- The thread is past its store. -/
def State.forget (s : State) (thread : Thread) : State :=
  { s with loaded := s.loaded.filter fun entry => entry.1 ≠ thread }

/-- Client `i` with the value that its thread goes on with. -/
def State.withValue (s : State) (i : Nat) (value : Int) : Client.State :=
  { s.clients i with globalWorkCount := value }

/-- `if(global_work_count < GLOBAL_WORK_LIMIT)` for command `c` of client `i`, with the
store of `global_work_count++`. -/
def State.countUp (s : State) (i c : Nat) (value : Int) : State :=
  let next := (s.withValue i value).choose c
  let after := (s.setClient i next).forget (.reader i)
  if value < Client.globalWorkLimit then
    { after with globalWorkCount := next.globalWorkCount, active := (i, c) :: s.active }
  else after

/-- The store of `global_work_count--`. -/
def State.countDown (s : State) (i c : Nat) (next : Client.State) : State :=
  { (s.setClient i next).forget (.cleanup i c) with
    globalWorkCount := next.globalWorkCount
    active := s.active.erase (i, c) }

/-- `jobOf i c cmd` is what `work_handler` makes of command `c` of client `i`. -/
def step (jobOf : Nat → Nat → List UInt8 → Job) (s : State) : Label → Option State
  | .client i label =>
      if counts (s.clients i) label ∨ (creates label ∧ s.globalWorkMutex = some i) then none
      else (Client.step (jobOf i) (s.clients i) label).map (s.setClient i)
  | .lock i =>
      if (admission (s.clients i)).isSome ∧ s.globalWorkMutex = none then
        some { s with globalWorkMutex := some i }
      else none
  | .admitLoad i =>
      if (admission (s.clients i)).isSome ∧ s.globalWorkMutex = some i ∧
          s.valueOf (.reader i) = none then
        some (s.load (.reader i))
      else none
  | .admitStore i =>
      match admission (s.clients i), s.valueOf (.reader i) with
      | some c, some value => some (s.countUp i c value)
      | _, _ => none
  | .unlock i =>
      match (s.clients i).reader with
      | .create _ =>
          if s.globalWorkMutex = some i then some { s with globalWorkMutex := none } else none
      | _ => none
  | .countLoad i c =>
      if atCountDown ((s.clients i).pc c) ∧ s.valueOf (.cleanup i c) = none then
        some (s.load (.cleanup i c))
      else none
  | .countStore i c =>
      if atCountDown ((s.clients i).pc c) then
        match s.valueOf (.cleanup i c) with
        | some value =>
            (Client.step (jobOf i) (s.withValue i value) (.handler c .move)).map (s.countDown i c)
        | none => none
      else none

/-! ## What a step can do -/

inductive Row (jobOf : Nat → Nat → List UInt8 → Job) (s : State) : Label → State → Prop where
  | client (i : Nat) (label : Client.Label) (next : Client.State)
      (apart : counts (s.clients i) label = false)
      (unlocked : creates label = true → s.globalWorkMutex ≠ some i)
      (taken : Client.step (jobOf i) (s.clients i) label = some next) :
      Row jobOf s (.client i label) (s.setClient i next)
  | lock (i c : Nat) (atAdmission : admission (s.clients i) = some c)
      (free : s.globalWorkMutex = none) :
      Row jobOf s (.lock i) { s with globalWorkMutex := some i }
  | admitLoad (i c : Nat) (atAdmission : admission (s.clients i) = some c)
      (held : s.globalWorkMutex = some i) (fresh : s.valueOf (.reader i) = none) :
      Row jobOf s (.admitLoad i) (s.load (.reader i))
  | admitStore (i c : Nat) (value : Int) (atAdmission : admission (s.clients i) = some c)
      (loaded : s.valueOf (.reader i) = some value) :
      Row jobOf s (.admitStore i) (s.countUp i c value)
  | unlock (i c : Nat) (atCreate : (s.clients i).reader = .create c)
      (held : s.globalWorkMutex = some i) :
      Row jobOf s (.unlock i) { s with globalWorkMutex := none }
  | countLoad (i c : Nat) (atCount : atCountDown ((s.clients i).pc c) = true)
      (fresh : s.valueOf (.cleanup i c) = none) :
      Row jobOf s (.countLoad i c) (s.load (.cleanup i c))
  | countStore (i c : Nat) (value : Int) (next : Client.State)
      (atCount : atCountDown ((s.clients i).pc c) = true)
      (loaded : s.valueOf (.cleanup i c) = some value)
      (taken : Client.step (jobOf i) (s.withValue i value) (.handler c .move) = some next) :
      Row jobOf s (.countStore i c) (s.countDown i c next)

theorem step_row {jobOf : Nat → Nat → List UInt8 → Job} {s next : State} {label : Label}
    (taken : step jobOf s label = some next) : Row jobOf s label next := by
  cases label with
  | client i label =>
      rw [step, Option.ite_none_left_eq_some, Option.map_eq_some_iff] at taken
      obtain ⟨allowed, after, taken, rfl⟩ := taken
      rw [not_or, Bool.not_eq_true] at allowed
      exact .client i label after allowed.1 (fun isCreate held => allowed.2 ⟨isCreate, held⟩) taken
  | lock i =>
      rw [step, Option.ite_none_right_eq_some] at taken
      obtain ⟨⟨atAdmission, free⟩, ⟨⟩⟩ := taken
      obtain ⟨c, atAdmission⟩ := Option.isSome_iff_exists.mp atAdmission
      exact .lock i c atAdmission free
  | admitLoad i =>
      rw [step, Option.ite_none_right_eq_some] at taken
      obtain ⟨⟨atAdmission, held, fresh⟩, ⟨⟩⟩ := taken
      obtain ⟨c, atAdmission⟩ := Option.isSome_iff_exists.mp atAdmission
      exact .admitLoad i c atAdmission held fresh
  | admitStore i =>
      rw [step] at taken
      split at taken
      next c value atAdmission loaded =>
        cases taken
        exact .admitStore i c value atAdmission loaded
      next => contradiction
  | unlock i =>
      rw [step] at taken
      split at taken
      next c atCreate =>
        rw [Option.ite_none_right_eq_some] at taken
        obtain ⟨held, ⟨⟩⟩ := taken
        exact .unlock i c atCreate held
      next => contradiction
  | countLoad i c =>
      rw [step, Option.ite_none_right_eq_some] at taken
      obtain ⟨⟨atCount, fresh⟩, ⟨⟩⟩ := taken
      exact .countLoad i c atCount fresh
  | countStore i c =>
      rw [step, Option.ite_none_right_eq_some] at taken
      obtain ⟨atCount, taken⟩ := taken
      split at taken
      next value loaded =>
        obtain ⟨after, moved, rfl⟩ := Option.map_eq_some_iff.mp taken
        exact .countStore i c value after atCount loaded moved
      next => contradiction

/-! ## Spelling out a run -/

/-- Client `i` gets a WORK command through its admission, or its refusal, and creates the
thread; `pushes` is 1 for the first and 0 for the second. -/
def admitWork (i pushes : Nat) (cmd : List UInt8) : List Label :=
  [.client i (.reader (.take cmd)), .client i (.reader .move), .client i (.reader .move), .lock i,
    .admitLoad i, .admitStore i] ++ List.replicate pushes (.client i (.reader .move)) ++
    [.unlock i, .client i (.reader (.create true))]

/-- Client `i` disconnects, and the thread of its command `c` in slot `c` gets to its
cleanup. -/
def abandon (i c : Nat) : List Label :=
  .client i (.reader .disconnect) :: (List.replicate (c + 1) (.client i (.reader .move)) ++
    [.client i (.handler c .actCancel)])

end BitcoinServer.Server.GlobalWork
