import BitcoinServer.Client.Turn
import BitcoinServer.Server.GlobalWork

/-!
Contract: `global_work_count` against the WORK commands that are counted in it.

A store is undisturbed where the counter still has the value that its thread loaded.
As long as all stores are, the counter is the number of the WORK commands between their
admission and the count-down of their cleanup, and the first other store ends that.
`global_work_mutex` keeps the admissions apart from each other; nothing keeps them, or
other cleanups, apart from a cleanup.
-/

namespace BitcoinServer.Server.GlobalWork

open BitcoinServer.Command BitcoinServer.Work Transition

/-! ## Counted commands of one client -/

/-- The reader has admitted command `c` and not created its thread yet. -/
def Admits (s : Client.State) (c : Nat) : Prop :=
  s.reader = .push c ∨ (s.reader = .create c ∧ s.func c = .workHandler)

/-- `work_handler`, and its cleanup before it has counted down. -/
def isCounted : Client.Pc → Bool
  | .work _ | .cleanup _ .countDown => true
  | _ => false

/-- The command has been admitted and its cleanup has not counted it down. -/
def Counted (s : Client.State) (c : Nat) : Prop :=
  Admits s c ∨ isCounted (s.pc c) = true

section Clients

variable {jobOf : Nat → List UInt8 → Job} {job : Job} {s next : Client.State} {c : Nat}

theorem admission_eq_some {d : Nat} (atAdmission : admission s = some d) :
    s.reader = .dispatch d ∧ s.func d = .workHandler := by
  unfold admission at atAdmission
  split at atAdmission
  next c atDispatch =>
    rw [Option.ite_none_right_eq_some, Option.some.injEq] at atAdmission
    obtain ⟨isWork, rfl⟩ := atAdmission
    exact ⟨atDispatch, isWork⟩
  next => contradiction

theorem admission_of_dispatch (atDispatch : s.reader = .dispatch c)
    (isWork : s.func c = .workHandler) : admission s = some c := by
  unfold admission
  rw [atDispatch]
  exact if_pos isWork

theorem firstPc_isCounted (func : WorkerFunc) :
    isCounted (Client.firstPc func) = true ↔ func = .workHandler := by
  cases func <;> decide

/-- The command at hand has no thread yet. -/
theorem not_counted_current (readerInv : Client.ReaderInv s) (current : s.reader.current = some c) :
    isCounted (s.pc c) = false := by
  rw [readerInv.pc_current current]
  rfl

/-- A thread that runs is not the one at hand. -/
theorem not_admits_of_created (readerInv : Client.ReaderInv s) (created : s.pc c ≠ .claimed) :
    ¬ Admits s c := by
  intro admits
  apply created
  rcases admits with atPush | ⟨atCreate, _⟩
  · exact readerInv.pc_current (by rw [atPush, Client.Reader.current])
  · exact readerInv.pc_current (by rw [atCreate, Client.Reader.current])

/-- A successful `pthread_create`. -/
theorem createStep_eq {act : Client.ReaderAct} (succeeds : act ≠ .create false)
    (taken : Client.readerStep s act = some next) (atCreate : s.reader = .create c) :
    next.pc c = Client.firstPc (s.func c) := by
  cases act with
  | create result =>
      cases result with
      | false => exact absurd rfl succeeds
      | true =>
          simp only [Client.readerStep, atCreate, if_true, Option.some.injEq] at taken
          rw [← taken]
          exact Function.update_self c _ s.pc
  | _ => simp [Client.readerStep, atCreate] at taken

/-- The reader counts no command outside the admission. -/
theorem counted_reader {act : Client.ReaderAct} (inv : Client.ClientInv s)
    (apart : counts s (.reader act) = false) (succeeds : act ≠ .create false)
    (taken : Client.readerStep s act = some next) (d : Nat) : Counted next d ↔ Counted s d := by
  have row := Client.readerStep_row taken
  have notAdmission : ∀ c, s.reader = .dispatch c → s.func c ≠ .workHandler := by
    intro c atDispatch isWork
    cases act with
    | move =>
        have isAdmission := admission_of_dispatch atDispatch isWork
        rw [counts, isAdmission] at apart
        exact Bool.noConfusion apart
    | _ => simp [Client.readerStep, atDispatch] at taken
  unfold Counted Admits
  cases row with
  | accept c atDispatch isWork room => exact absurd isWork (notAdmission c atDispatch)
  | refuse c atDispatch isWork full => exact absurd isWork (notAdmission c atDispatch)
  | other c atDispatch notWork =>
      have noOther : ¬ (c = d ∧ s.func d = .workHandler) := by
        rintro ⟨rfl, isWork⟩
        exact notWork isWork
      simp [atDispatch, noOther]
  | claim cmd slot atClaim avail =>
      by_cases new : d = s.count
      · simp [Client.State.claim, atClaim, new, inv.reader.pc_count, isCounted]
      · simp [Client.State.claim, atClaim, new]
  | push c atPush =>
      have isWork := inv.queue.pushing c atPush
      by_cases self : d = c
      · simp [atPush, self, isWork]
      · simp [atPush, Ne.symm self]
  | created c atCreate =>
      have claimed :=
        not_counted_current inv.reader (c := c) (by rw [atCreate, Client.Reader.current])
      by_cases self : d = c
      · simp [atCreate, self, claimed, firstPc_isCounted]
      · simp [atCreate, self, Ne.symm self]
  | notCreated c atCreate =>
      have started := createStep_eq succeeds taken atCreate
      rw [show Client.State.pc _ c = .failed from Function.update_self c _ s.pc] at started
      exact absurd started (by cases s.func c <;> decide)
  | _ => simp [Client.State.join, *]

/-- A handler is counted until its cleanup counts down. -/
theorem isCounted_of_row {before after : Client.Pc} {effect : Client.Effect}
    (row : Client.HandlerRow job s c before after effect) (apart : atCountDown before = false) :
    isCounted after = isCounted before := by
  cases row with
  | countDown via => cases apart
  | resetFlag via => cases via <;> rfl
  | _ => rfl

theorem counted_perform {m : Client.Move} {act : Client.HandlerAct}
    (apart : counts s (.handler c act) = false)
    (moved : Client.handlerStep job s c act = some m) (d : Nat) :
    Counted (s.perform c m) d ↔ Counted s d := by
  have row := Client.handlerStep_row moved
  have notCount : atCountDown (s.pc c) = false := by
    cases atCount : atCountDown (s.pc c) with
    | false => rfl
    | true =>
        unfold atCountDown at atCount
        split at atCount
        next via before =>
          cases act with
          | move =>
              rw [counts, before] at apart
              exact Bool.noConfusion apart
          | actCancel =>
              cases via <;> simp [Client.handlerStep, before, Client.cancelPoint] at moved
          | stale found => simp [Client.handlerStep, before] at moved
        next => contradiction
  have same := isCounted_of_row row notCount
  unfold Counted Admits
  rw [Client.perform_reader, Client.perform_func, Client.perform_pc]
  by_cases self : d = c
  · rw [self, Function.update_self, same]
  · rw [Function.update_of_ne self]

/-- No step outside of the two counting places changes what is counted. -/
theorem counted_client {label : Client.Label} (inv : Client.ClientInv s)
    (apart : counts s label = false) (succeeds : label ≠ .reader (.create false))
    (taken : Client.step jobOf s label = some next) (d : Nat) : Counted next d ↔ Counted s d := by
  cases label with
  | reader act => exact counted_reader inv apart (fun fails => succeeds (by rw [fails])) taken d
  | handler c act =>
      obtain ⟨m, moved, rfl⟩ := Option.map_eq_some_iff.mp taken
      exact counted_perform apart moved d
  | btch c i act =>
      obtain ⟨search, _, rfl⟩ := Option.map_eq_some_iff.mp taken
      exact Iff.rfl
  | others count => cases apart

/-- The store of the admission, with room or without. -/
theorem counted_choose (readerInv : Client.ReaderInv s) (atAdmission : admission s = some c)
    (d : Nat) : (Counted (s.choose c) d ↔
      Counted s d ∨ (d = c ∧ s.globalWorkCount < Client.globalWorkLimit)) ∧ ¬ Counted s c := by
  obtain ⟨atDispatch, isWork⟩ := admission_eq_some atAdmission
  have claimed := not_counted_current readerInv (c := c) (by rw [atDispatch, Client.Reader.current])
  unfold Counted Admits Client.State.choose
  rw [if_pos isWork]
  constructor
  · by_cases room : s.globalWorkCount < Client.globalWorkLimit
    · rw [if_pos room]
      by_cases self : d = c
      · simp [self, room]
      · simp [self, Ne.symm self, atDispatch]
    · rw [if_neg room]
      by_cases self : d = c
      · simp [self, room, atDispatch]
      · simp [self, Ne.symm self, atDispatch]
  · simp [atDispatch, claimed]

/-- The step that counts down. -/
theorem counted_countDown (readerInv : Client.ReaderInv s) (atCount : atCountDown (s.pc c) = true)
    (taken : Client.step jobOf s (.handler c .move) = some next) :
    next.globalWorkCount = s.globalWorkCount - 1 ∧ Counted s c ∧
      ∀ d, Counted next d ↔ Counted s d ∧ d ≠ c := by
  unfold atCountDown at atCount
  split at atCount
  next via before =>
    obtain ⟨m, moved, rfl⟩ := Option.map_eq_some_iff.mp taken
    simp only [Client.handlerStep, Client.handlerMove, before, Client.workHandlerCleanup,
      Option.some.injEq] at moved
    have notAdmitted := not_admits_of_created readerInv (c := c) (by simp [before])
    have counted : Counted s c := Or.inr (by rw [before]; rfl)
    refine ⟨by rw [← moved]; rfl, counted, ?_⟩
    intro d
    have sameAdmits : Admits (s.perform c m) d ↔ Admits s d := by
      unfold Admits
      rw [Client.perform_reader, Client.perform_func]
    unfold Counted
    rw [sameAdmits, Client.perform_pc, ← moved]
    by_cases self : d = c
    · rw [self, Function.update_self]
      simp [notAdmitted, isCounted]
    · rw [Function.update_of_ne self]
      simp [self]
  next => contradiction

end Clients

/-! ## All clients -/

/-- A store finds the value that its thread has loaded. A refused admission stores
nothing. -/
def Undisturbed (s : State) : Label → Prop
  | .admitStore i => ∀ value ∈ s.valueOf (.reader i),
      value < Client.globalWorkLimit → s.globalWorkCount = value
  | .countStore i c => ∀ value ∈ s.valueOf (.cleanup i c), s.globalWorkCount = value
  | _ => True

instance decidableUndisturbed (s : State) : (label : Label) → Decidable (Undisturbed s label)
  | .admitStore i => inferInstanceAs (Decidable (∀ value ∈ s.valueOf (.reader i),
      value < Client.globalWorkLimit → s.globalWorkCount = value))
  | .countStore i c =>
      inferInstanceAs (Decidable (∀ value ∈ s.valueOf (.cleanup i c), s.globalWorkCount = value))
  | .client _ _ | .lock _ | .admitLoad _ | .unlock _ | .countLoad _ _ => .isTrue True.intro

theorem undisturbed_admitStore_iff {s : State} {i : Nat} {value : Int}
    (loaded : s.valueOf (.reader i) = some value) : Undisturbed s (.admitStore i) ↔
      (value < Client.globalWorkLimit → s.globalWorkCount = value) := by
  simp [Undisturbed, loaded]

theorem undisturbed_countStore_iff {s : State} {i c : Nat} {value : Int}
    (loaded : s.valueOf (.cleanup i c) = some value) :
    Undisturbed s (.countStore i c) ↔ s.globalWorkCount = value := by
  simp [Undisturbed, loaded]

/-- Every `pthread_create` succeeds. -/
def Succeeds (label : Label) : Prop := ∀ i, label ≠ .client i (.reader (.create false))

instance decidableSucceeds : (label : Label) → Decidable (Succeeds label)
  | .client i label =>
      decidable_of_iff (label ≠ .reader (.create false)) (by simp [Succeeds])
  | .lock _ | .admitLoad _ | .admitStore _ | .unlock _ | .countLoad _ _ | .countStore _ _ =>
      .isTrue nofun

/-- The counter is the number of the counted commands, and is at most the limit. -/
structure Accounted (s : State) : Prop where
  count : s.globalWorkCount = s.active.length
  nodup : s.active.Nodup
  counted : ∀ i c, (i, c) ∈ s.active ↔ Counted (s.clients i) c
  bounded : s.globalWorkCount ≤ Client.globalWorkLimit

section Stores

variable (s : State) {i c : Nat} {value : Int}

theorem countUp_clients (i c : Nat) (value : Int) : (s.countUp i c value).clients =
    Function.update s.clients i ((s.withValue i value).choose c) := by
  unfold State.countUp
  split <;> rfl

/-- The store of an admission that finds room. -/
theorem countUp_of_room (atAdmission : admission (s.clients i) = some c)
    (room : value < Client.globalWorkLimit) :
    (s.countUp i c value).globalWorkCount = value + 1 ∧
      (s.countUp i c value).active = (i, c) :: s.active := by
  have isWork : (s.withValue i value).func c = .workHandler := (admission_eq_some atAdmission).2
  have stored : ((s.withValue i value).choose c).globalWorkCount = value + 1 := by
    unfold Client.State.choose
    rw [if_pos isWork, if_pos (show (s.withValue i value).globalWorkCount < _ from room)]
    rfl
  unfold State.countUp
  simp only [if_pos room, stored, and_self]

/-- An admission that finds no room stores nothing. -/
theorem countUp_of_full (full : ¬ value < Client.globalWorkLimit) :
    (s.countUp i c value).globalWorkCount = s.globalWorkCount ∧
      (s.countUp i c value).active = s.active := by
  unfold State.countUp
  simp only [if_neg full]
  exact ⟨rfl, rfl⟩

end Stores

section Runs

variable {jobOf : Nat → Nat → List UInt8 → Job} {s next : State} {label : Label}

/-- Every client runs as in its own model, where others set the counter. -/
theorem client_reachable (reached : Reachable (step jobOf) State.initial s) (i : Nat) :
    Reachable (Client.step (jobOf i)) Client.State.initial (s.clients i) := by
  revert i
  apply reached.invariant (fun _ => ReachableIf.here)
  intro s label next reachable taken i
  have moved : ∀ (j : Nat) (after : Client.State),
      Reachable (Client.step (jobOf j)) Client.State.initial after →
        Reachable (Client.step (jobOf i)) Client.State.initial
          (Function.update s.clients j after i) := by
    intro j after reachedAfter
    by_cases same : i = j
    · subst same
      rwa [Function.update_self]
    · rw [Function.update_of_ne same]
      exact reachable i
  have withValue : ∀ (j : Nat) (value : Int),
      Reachable (Client.step (jobOf j)) Client.State.initial (s.withValue j value) := fun j value =>
    (reachable j).advance (.others value) rfl
  cases step_row taken with
  | client j label after apart unlocked clientStep =>
      exact moved j after ((reachable j).advance label clientStep)
  | admitStore j c value atAdmission loaded =>
      have atDispatch := (admission_eq_some atAdmission).1
      have chosen := moved j _ ((withValue j value).advance (.reader .move)
        (show Client.readerStep _ .move = some ((s.withValue j value).choose c) by
          rw [Client.readerStep, show (s.withValue j value).reader = .dispatch c from atDispatch]))
      rw [countUp_clients]
      exact chosen
  | countStore j c value after atCount loaded clientStep =>
      exact moved j after ((withValue j value).advance _ clientStep)
  | lock | admitLoad | unlock | countLoad => exact reachable i

theorem clientInv_withValue (reached : Reachable (step jobOf) State.initial s) (i : Nat)
    (value : Int) : Client.ClientInv (s.withValue i value) :=
  Client.clientInv_of_reachable
    ((client_reachable reached i).advance (.others value) rfl)

/-- The list of all clients, when client `i` gets to `after` and only its own commands
come or go. -/
theorem Accounted.counted_update (accounted : Accounted s) {i : Nat} {after : Client.State}
    {active : List (Nat × Nat)} (own : ∀ c, (i, c) ∈ active ↔ Counted after c)
    (others : ∀ j c, j ≠ i → ((j, c) ∈ active ↔ (j, c) ∈ s.active)) (j c : Nat) :
    (j, c) ∈ active ↔ Counted (Function.update s.clients i after j) c := by
  by_cases self : j = i
  · rw [self, Function.update_self]
    exact own c
  · rw [Function.update_of_ne self, others j c self]
    exact accounted.counted j c

/-- An admission that finds room stores one more. -/
theorem Accounted.admitted (accounted : Accounted s) {i c : Nat} {value : Int}
    (clientInv : Client.ClientInv (s.withValue i value))
    (atAdmission : admission (s.clients i) = some c) (room : value < Client.globalWorkLimit)
    (found : s.globalWorkCount = value) : Accounted (s.countUp i c value) := by
  obtain ⟨stored, active⟩ := countUp_of_room s atAdmission room
  have chosen : ∀ d, Counted ((s.withValue i value).choose c) d ↔ (i, d) ∈ s.active ∨ d = c := by
    intro d
    rw [(counted_choose clientInv.reader atAdmission d).1, accounted.counted i d]
    exact or_congr Iff.rfl (and_iff_left room)
  have fresh : (i, c) ∉ s.active := fun member =>
    (counted_choose clientInv.reader atAdmission c).2 ((accounted.counted i c).mp member)
  have account := accounted.count
  constructor
  · rw [stored, active, List.length_cons]
    omega
  · rw [active]
    exact List.nodup_cons.mpr ⟨fresh, accounted.nodup⟩
  · rw [active, countUp_clients]
    apply accounted.counted_update
    · intro d
      rw [chosen, List.mem_cons, Prod.mk.injEq]
      simp only [true_and]
      exact or_comm
    · intro j d other
      rw [List.mem_cons, Prod.mk.injEq]
      simp only [other, false_and, false_or]
  · rw [stored]
    omega

/-- An admission that finds none leaves the counter and the list. -/
theorem Accounted.refused (accounted : Accounted s) {i c : Nat} {value : Int}
    (clientInv : Client.ClientInv (s.withValue i value))
    (atAdmission : admission (s.clients i) = some c) (full : ¬ value < Client.globalWorkLimit) :
    Accounted (s.countUp i c value) := by
  obtain ⟨stored, active⟩ := countUp_of_full s (i := i) (c := c) full
  constructor
  · rw [stored, active]
    exact accounted.count
  · rw [active]
    exact accounted.nodup
  · rw [active, countUp_clients]
    apply accounted.counted_update
    · intro d
      rw [(counted_choose clientInv.reader atAdmission d).1, accounted.counted i d]
      exact (or_iff_left fun room => full room.2).symm
    · exact fun _ _ _ => Iff.rfl
  · rw [stored]
    exact accounted.bounded

/-- A count-down takes one command off the list. -/
theorem Accounted.countedDown (accounted : Accounted s) {i c : Nat} {after : Client.State}
    (stored : after.globalWorkCount = s.globalWorkCount - 1) (counted : Counted (s.clients i) c)
    (same : ∀ d, Counted after d ↔ Counted (s.clients i) d ∧ d ≠ c) :
    Accounted (s.countDown i c after) := by
  have member : (i, c) ∈ s.active := (accounted.counted i c).mpr counted
  have length := List.length_erase_of_mem member
  have positive := List.length_pos_of_mem member
  have account := accounted.count
  have bounded := accounted.bounded
  constructor
  · show after.globalWorkCount = ((s.active.erase (i, c)).length : Int)
    omega
  · exact accounted.nodup.erase (i, c)
  · apply accounted.counted_update
    · intro d
      show (i, d) ∈ s.active.erase (i, c) ↔ _
      rw [same, accounted.nodup.mem_erase_iff, accounted.counted, Ne, Prod.mk.injEq]
      simp only [true_and]
      exact and_comm
    · intro j d other
      show (j, d) ∈ s.active.erase (i, c) ↔ _
      rw [accounted.nodup.mem_erase_iff, Ne, Prod.mk.injEq]
      simp only [other, false_and, not_false_eq_true, true_and]
  · show after.globalWorkCount ≤ _
    omega

/-- An undisturbed store keeps the account. -/
theorem Accounted.step (accounted : Accounted s) (reached : Reachable (step jobOf) State.initial s)
    (undisturbed : Undisturbed s label) (succeeds : Succeeds label)
    (taken : GlobalWork.step jobOf s label = some next) : Accounted next := by
  cases step_row taken with
  | client i label after apart unlocked clientStep =>
      have clientInv := Client.clientInv_of_reachable (client_reachable reached i)
      have same :=
        counted_client clientInv apart (fun fails => succeeds i (by rw [fails])) clientStep
      refine ⟨accounted.count, accounted.nodup, ?_, accounted.bounded⟩
      apply accounted.counted_update
      · exact fun c => (accounted.counted i c).trans (same c).symm
      · exact fun _ _ _ => Iff.rfl
  | admitStore i c value atAdmission loaded =>
      have clientInv := clientInv_withValue reached i value
      by_cases room : value < Client.globalWorkLimit
      · exact accounted.admitted clientInv atAdmission room
          ((undisturbed_admitStore_iff loaded).mp undisturbed room)
      · exact accounted.refused clientInv atAdmission room
  | countStore i c value after atCount loaded clientStep =>
      obtain ⟨stored, counted, same⟩ :=
        counted_countDown (clientInv_withValue reached i value).reader atCount clientStep
      have found := (undisturbed_countStore_iff loaded).mp undisturbed
      exact accounted.countedDown (by rw [found]; exact stored) counted same
  | lock | admitLoad | unlock | countLoad =>
      exact ⟨accounted.count, accounted.nodup, accounted.counted, accounted.bounded⟩

/-- A disturbed store does not. -/
theorem Accounted.broken (accounted : Accounted s) (reached : Reachable (GlobalWork.step jobOf)
      State.initial s) (disturbed : ¬ Undisturbed s label)
    (taken : GlobalWork.step jobOf s label = some next) :
    next.globalWorkCount ≠ next.active.length := by
  have account := accounted.count
  cases step_row taken with
  | admitStore i c value atAdmission loaded =>
      rw [undisturbed_admitStore_iff loaded, Classical.not_imp] at disturbed
      obtain ⟨room, changed⟩ := disturbed
      obtain ⟨stored, active⟩ := countUp_of_room s atAdmission room
      rw [stored, active, List.length_cons]
      omega
  | countStore i c value after atCount loaded clientStep =>
      rw [undisturbed_countStore_iff loaded] at disturbed
      obtain ⟨stored, counted, -⟩ :=
        counted_countDown (clientInv_withValue reached i value).reader atCount clientStep
      have member : (i, c) ∈ s.active := (accounted.counted i c).mpr counted
      have length := List.length_erase_of_mem member
      have positive := List.length_pos_of_mem member
      have count : after.globalWorkCount = value - 1 := stored
      show after.globalWorkCount ≠ ((s.active.erase (i, c)).length : Int)
      omega
  | client | lock | admitLoad | unlock | countLoad => exact absurd True.intro disturbed

theorem accounted_initial : Accounted State.initial where
  count := rfl
  nodup := List.nodup_nil
  counted i c := by simp [State.initial, Counted, Admits, Client.State.initial, isCounted]
  bounded := by decide

end Runs

/-! ## What the mutex does -/

section Mutex

variable {jobOf : Nat → Nat → List UInt8 → Job} {s t next : State} {label : Label} {i : Nat}

theorem valueOf_load (s : State) (thread other : Thread) :
    (s.load thread).valueOf other =
      if other = thread then some s.globalWorkCount else s.valueOf other := by
  show ((thread, s.globalWorkCount) :: s.loaded).lookup other = _
  rw [List.lookup_cons]
  by_cases same : other = thread
  · rw [if_pos same, beq_iff_eq.mpr same]
  · rw [if_neg same, beq_eq_false_iff_ne.mpr same]
    rfl

theorem valueOf_forget (s : State) (thread other : Thread) :
    (s.forget thread).valueOf other = if other = thread then none else s.valueOf other := by
  show (s.loaded.filter fun entry => entry.1 ≠ thread).lookup other =
    if other = thread then none else s.loaded.lookup other
  induction s.loaded with
  | nil => simp
  | cons entry loaded inductionHypothesis =>
      by_cases dropped : entry.1 = thread
      · rw [List.filter_cons_of_neg (by simpa using dropped), inductionHypothesis]
        by_cases same : other = thread
        · rw [if_pos same, if_pos same]
        · rw [if_neg same, if_neg same, List.lookup_cons, dropped, beq_eq_false_iff_ne.mpr same]
      · rw [List.filter_cons_of_pos (by simpa using dropped), List.lookup_cons, List.lookup_cons,
          inductionHypothesis]
        by_cases found : other = entry.1
        · rw [beq_iff_eq.mpr found, found]
          exact (if_neg dropped).symm
        · rw [beq_eq_false_iff_ne.mpr found]

theorem countUp_valueOf (s : State) (i c : Nat) (value : Int) (other : Thread) :
    (s.countUp i c value).valueOf other =
      if other = .reader i then none else s.valueOf other := by
  rw [← valueOf_forget]
  unfold State.countUp
  split <;> rfl

/-- A reader waits in its admission while its client does anything else. -/
theorem admission_client {jobOf : Nat → List UInt8 → Job} {s next : Client.State}
    {label : Client.Label} {c : Nat} (apart : ∀ act, label = .reader act → counts s label = false)
    (atAdmission : admission s = some c) (taken : Client.step jobOf s label = some next) :
    admission next = some c := by
  have atDispatch := (admission_eq_some atAdmission).1
  cases label with
  | reader act =>
      have outside := apart act rfl
      cases act with
      | move =>
          rw [counts, atAdmission] at outside
          exact Bool.noConfusion outside
      | _ => simp [Client.step, Client.readerStep, atDispatch] at taken
  | handler d act =>
      obtain ⟨m, _, rfl⟩ := Option.map_eq_some_iff.mp taken
      unfold admission
      rw [Client.perform_reader, Client.perform_func]
      exact atAdmission
  | btch d j act =>
      obtain ⟨search, _, rfl⟩ := Option.map_eq_some_iff.mp taken
      exact atAdmission
  | others count =>
      cases taken
      exact atAdmission

/-- A reader between its load and its store is in its admission and holds the mutex. -/
def Excluded (s : State) : Prop :=
  ∀ i value, s.valueOf (.reader i) = some value →
    s.globalWorkMutex = some i ∧ ∃ c, admission (s.clients i) = some c

/-- Two readers are not between their load and their store at once. -/
theorem Excluded.eq (excluded : Excluded s) {j : Nat} {value other : Int}
    (first : s.valueOf (.reader i) = some value) (second : s.valueOf (.reader j) = some other) :
    i = j := by
  have mine := (excluded i value first).1
  have theirs := (excluded j other second).1
  rw [mine] at theirs
  exact Option.some.inj theirs

/-- A reader in its admission stays there when client `j` gets to `after`. -/
theorem admission_update {j c : Nat} {after : Client.State}
    (atAdmission : admission (s.clients i) = some c)
    (own : admission (s.clients j) = some c → admission after = some c) :
    admission (Function.update s.clients j after i) = some c := by
  by_cases same : i = j
  · rw [same, Function.update_self]
    exact own (same ▸ atAdmission)
  · rw [Function.update_of_ne same]
    exact atAdmission

theorem Excluded.step (excluded : Excluded s) (taken : GlobalWork.step jobOf s label = some next) :
    Excluded next := by
  intro i value loaded
  cases step_row taken with
  | client j label after apart unlocked clientStep =>
      obtain ⟨held, c, atAdmission⟩ := excluded i value loaded
      exact ⟨held, c, admission_update atAdmission fun atSame =>
        admission_client (fun _ _ => apart) atSame clientStep⟩
  | lock j c atAdmission free =>
      have held := (excluded i value loaded).1
      rw [free] at held
      contradiction
  | admitLoad j c atAdmission held fresh =>
      rw [valueOf_load] at loaded
      by_cases same : i = j
      · subst same
        exact ⟨held, c, atAdmission⟩
      · rw [if_neg (by simpa using same)] at loaded
        exact excluded i value loaded
  | admitStore j c other atAdmission stored =>
      rw [countUp_valueOf] at loaded
      by_cases same : i = j
      · rw [same, if_pos rfl] at loaded
        contradiction
      · rw [if_neg (by simpa using same)] at loaded
        exact absurd (excluded.eq loaded stored) same
  | unlock j c atCreate held =>
      obtain ⟨mine, d, atAdmission⟩ := excluded i value loaded
      rw [held] at mine
      cases mine
      rw [(admission_eq_some atAdmission).1] at atCreate
      contradiction
  | countLoad j c atCount fresh =>
      rw [valueOf_load, if_neg nofun] at loaded
      exact excluded i value loaded
  | countStore j c other after atCount stored clientStep =>
      have kept : s.valueOf (.reader i) = some value := by
        rw [← loaded]
        exact ((valueOf_forget (s.setClient j after) (.cleanup j c) (.reader i)).trans
          (if_neg nofun)).symm
      obtain ⟨held, d, atAdmission⟩ := excluded i value kept
      refine ⟨held, d, admission_update atAdmission fun atSame => ?_⟩
      refine admission_client (s := s.withValue j other) ?_ atSame clientStep
      nofun

theorem excluded_of_reachable (reached : Reachable (step jobOf) State.initial s) : Excluded s :=
  reached.invariant (fun _ _ loaded => by simp [State.valueOf, State.initial] at loaded)
    fun _ _ _ excluded taken => excluded.step taken

/-- Only the store of a cleanup disturbs an admission: until then the counter has the value
that the reader has loaded. -/
theorem admission_undisturbed (reached : Reachable (step jobOf) State.initial s)
    (current : ∀ value ∈ s.valueOf (.reader i), value = s.globalWorkCount)
    (further : ReachableIf (step jobOf) (fun _ label => ∀ j c, label ≠ .countStore j c) s t) :
    Undisturbed t (.admitStore i) := by
  have upToDate : ∀ value ∈ t.valueOf (.reader i), value = t.globalWorkCount := by
    apply further.invariant current
    intro before label next earlier current noCountDown taken value loaded
    have excluded := excluded_of_reachable (reached.trans earlier.reachable)
    cases step_row taken with
    | admitLoad j c atAdmission held fresh =>
        rw [valueOf_load] at loaded
        by_cases same : i = j
        · rw [same, if_pos rfl] at loaded
          exact (Option.some.inj loaded).symm
        · rw [if_neg (by simpa using same)] at loaded
          exact current value loaded
    | admitStore j c other atAdmission stored =>
        rw [countUp_valueOf] at loaded
        by_cases same : i = j
        · rw [same, if_pos rfl] at loaded
          contradiction
        · rw [if_neg (by simpa using same)] at loaded
          exact absurd (excluded.eq loaded stored) same
    | countLoad j c atCount fresh =>
        rw [valueOf_load, if_neg nofun] at loaded
        exact current value loaded
    | countStore j c other after atCount stored clientStep => exact absurd rfl (noCountDown j c)
    | client | lock | unlock => exact current value loaded
  intro value loaded _
  exact (upToDate value loaded).symm

/-- Client 1 is between its load and its store while the WORK handler of client 0 moves. -/
theorem admission_undisturbed_second : ∃ t : State, t.valueOf (.reader 1) = some 1 ∧
    Undisturbed t (.admitStore 1) := by
  obtain ⟨s, reached, loaded⟩ :=
    exists_reachable_of_run (GlobalWork.step fun _ => Client.easyJob) State.initial
      (admitWork 0 1 Client.easyWork ++ (admitWork 1 1 Client.easyWork).take 5)
      (fun s => decide (∀ value ∈ s.valueOf (.reader 1), value = s.globalWorkCount) &&
        (GlobalWork.step (fun _ => Client.easyJob) s (.client 0 (.handler 0 .move))).any
          fun t : State => decide (t.valueOf (.reader 1) = some 1)) (by decide +kernel)
  rw [Bool.and_eq_true, Option.any_eq_true] at loaded
  obtain ⟨current, t, taken, between⟩ := loaded
  exact ⟨t, of_decide_eq_true between, admission_undisturbed reached (of_decide_eq_true current)
    (ReachableIf.here.advance (.client 0 (.handler 0 .move)) (fun _ _ same => by cases same)
      taken)⟩

end Mutex

/-! ## The account -/

/-- As long as no store is disturbed, `global_work_count` is the number of the WORK commands
that are admitted and not counted down, and is between 0 and the limit; a disturbed store
makes it differ from their number. -/
theorem work_accounted (jobOf : Nat → Nat → List UInt8 → Job) {s : State}
    (reached : ReachableIf (step jobOf) (fun s label => Succeeds label ∧ Undisturbed s label)
      State.initial s) :
    (s.globalWorkCount = s.active.length ∧ 0 ≤ s.globalWorkCount ∧
        s.globalWorkCount ≤ Client.globalWorkLimit) ∧
      (s.active.Nodup ∧ ∀ i c, (i, c) ∈ s.active ↔ Counted (s.clients i) c) ∧
      ∀ label next, ¬ Undisturbed s label → step jobOf s label = some next →
        next.globalWorkCount ≠ next.active.length := by
  have accounted : Accounted s := by
    apply reached.invariant accounted_initial
    intro before label next earlier accounted allowed taken
    exact accounted.step earlier.reachable allowed.2 allowed.1 taken
  have count := accounted.count
  refine ⟨⟨count, by omega, accounted.bounded⟩, ⟨accounted.nodup, accounted.counted⟩, ?_⟩
  intro label next disturbed taken
  exact accounted.broken reached.reachable disturbed taken

/-- Client 0 gets a WORK command admitted and abandons it, then client 1 gets one admitted. -/
def twoClients : List Label :=
  [admitWork 0 1 Client.easyWork, abandon 0 0, [.countLoad 0 0, .countStore 0 0],
    admitWork 1 1 Client.easyWork].flatten

theorem work_accounted_two : ∃ s : State, s.active = [(1, 0)] ∧ s.globalWorkCount = 1 ∧
    ∀ i c, (i, c) ∈ s.active ↔ Counted (s.clients i) c := by
  obtain ⟨s, reached, active⟩ :=
    exists_reachableIf_of_runIf (step fun _ => Client.easyJob) State.initial
      (fun s label => Succeeds label ∧ Undisturbed s label) twoClients
      (fun s => decide (s.active = [(1, 0)])) (by decide +kernel)
  have isActive : s.active = [(1, 0)] := of_decide_eq_true active
  obtain ⟨⟨count, -⟩, ⟨-, counted⟩, -⟩ := work_accounted (fun _ => Client.easyJob) reached
  rw [isActive] at count
  exact ⟨s, isActive, count, counted⟩

/-- The same, with client 1 admitted between the load and the store of the cleanup. -/
def lostUpdate : List Label :=
  [admitWork 0 1 Client.easyWork, abandon 0 0, [.countLoad 0 0],
    admitWork 1 1 Client.easyWork, [.countStore 0 0]].flatten

/-- One WORK command is admitted, no thread is between its load and its store, and the
counter is 0. -/
theorem work_count_lost :
    ¬ ∀ (jobOf : Nat → Nat → List UInt8 → Job) (s : State),
      ReachableIf (step jobOf) (fun _ label => Succeeds label) State.initial s →
        s.loaded = [] → s.globalWorkCount = s.active.length := by
  intro counts
  obtain ⟨s, reached, lost⟩ :=
    exists_reachableIf_of_runIf (step fun _ => Client.easyJob) State.initial
      (fun _ label => Succeeds label) lostUpdate
      (fun s => decide (s.loaded = [] ∧ s.globalWorkCount = 0 ∧ s.active = [(1, 0)]))
      (by decide +kernel)
  obtain ⟨settled, zero, active⟩ := of_decide_eq_true lost
  have count := counts (fun _ => Client.easyJob) s reached settled
  rw [zero, active] at count
  contradiction

end BitcoinServer.Server.GlobalWork
