import BitcoinServer.Client.Frame

/-!
Contract: the reader's command and the thread pool.

In every reachable state at most one command has been claimed and not created,
namely the one the reader is dispatching, and `thread_pool` holds, for every slot,
the latest thread created in it; that thread has been joined before another
command is pushed or created in the slot. So two threads of one slot never run
at the same time.
-/

namespace BitcoinServer.Client

open BitcoinServer.Command BitcoinServer.Work

/-- The command the reader is dispatching. -/
def Reader.current : Reader → Option Nat
  | .reuse c | .joining c _ | .dispatch c | .push c | .create c => some c
  | _ => none

/-- The command the reader is dispatching, once the slot's last thread is joined. -/
def Reader.ready : Reader → Option Nat
  | .dispatch c | .push c | .create c => some c
  | _ => none

structure ReaderInv (s : State) : Prop where
  current : ∀ c, s.reader.current = some c → c + 1 = s.count
  claimed : ∀ c, s.pc c = .claimed ↔ s.reader.current = some c
  unread : ∀ c, s.pc c = .unread ↔ s.count ≤ c

structure PoolInv (s : State) : Prop where
  slot : ∀ k t, s.pool k = some t → s.slot t = k ∧ (s.pc t).created = true
  pooled : ∀ c, (s.pc c).created = true → s.joined c = false → s.pool (s.slot c) = some c
  joined : ∀ t, s.joined t = true → (s.pc t).finished = true
  joining : ∀ c t, s.reader = .joining c t → s.pool (s.slot c) = some t
  ready : ∀ c t, s.reader.ready = some c → s.pool (s.slot c) = some t → s.joined t = true
  cleanupJoin : ∀ i t, s.reader = .cleanupJoin i t → s.pool i = some t

section Facts

variable {s : State}

theorem Pc.created_of_finished {pc : Pc} (isOver : pc.finished = true) : pc.created = true := by
  cases pc <;> first | rfl | cases isOver

theorem Reader.current_of_ready {reader : Reader} {c : Nat} (ready : reader.ready = some c) :
    reader.current = some c := by
  cases reader <;> first | exact ready | cases ready

theorem ReaderInv.pc_current (inv : ReaderInv s) {c : Nat}
    (current : s.reader.current = some c) : s.pc c = .claimed :=
  (inv.claimed c).mpr current

theorem ReaderInv.lt_count (inv : ReaderInv s) {c : Nat} (read : s.pc c ≠ .unread) :
    c < s.count :=
  Nat.lt_of_not_le fun beyond => read ((inv.unread c).mpr beyond)

theorem ReaderInv.pc_count (inv : ReaderInv s) : s.pc s.count = .unread :=
  (inv.unread s.count).mpr (Nat.le_refl _)

theorem PoolInv.not_joined (inv : PoolInv s) {c : Nat} (live : (s.pc c).finished = false) :
    s.joined c = false := by
  by_contra joined
  rw [Bool.not_eq_false] at joined
  rw [inv.joined c joined] at live
  cases live

theorem PoolInv.pool_of_live (inv : PoolInv s) {c : Nat} (created : (s.pc c).created = true)
    (live : (s.pc c).finished = false) : s.pool (s.slot c) = some c :=
  inv.pooled c created (inv.not_joined live)

/-- Two live threads never share a slot. -/
theorem PoolInv.live_unique (inv : PoolInv s) {c d : Nat}
    (created : (s.pc c).created = true) (live : (s.pc c).finished = false)
    (otherCreated : (s.pc d).created = true) (otherLive : (s.pc d).finished = false)
    (sameSlot : s.slot c = s.slot d) : c = d := by
  have mine := inv.pool_of_live created live
  have theirs := inv.pool_of_live otherCreated otherLive
  rw [sameSlot, theirs] at mine
  exact (Option.some.inj mine).symm

/-- No live thread has the slot of a command about to be pushed or created. -/
theorem PoolInv.slot_ne_ready (inv : PoolInv s) {c d : Nat} (ready : s.reader.ready = some d)
    (created : (s.pc c).created = true) (live : (s.pc c).finished = false) :
    s.slot c ≠ s.slot d := by
  intro sameSlot
  have pooled := inv.pool_of_live created live
  rw [sameSlot] at pooled
  have joined := inv.ready d c ready pooled
  rw [inv.not_joined live] at joined
  cases joined

end Facts

/-! ## Steps of the reader -/

section ReaderSteps

variable {s next : State}

/-- What only moves the reader on keeps `ReaderInv`. -/
theorem ReaderInv.frame (inv : ReaderInv s) (sameReader : next.reader.current = s.reader.current)
    (samePc : next.pc = s.pc) (sameCount : next.count = s.count) : ReaderInv next where
  current c := by
    rw [sameReader, sameCount]
    exact inv.current c
  claimed c := by
    rw [samePc, sameReader]
    exact inv.claimed c
  unread c := by
    rw [samePc, sameCount]
    exact inv.unread c

private theorem ReaderInv.settle (inv : ReaderInv s) (c : Nat) (pc : Pc)
    (current : s.reader.current = some c) (read : pc ≠ .unread) (settled : pc ≠ .claimed)
    (idle : next.reader.current = none) (settledPc : next.pc = Function.update s.pc c pc)
    (sameCount : next.count = s.count) : ReaderInv next where
  current d claimed := by
    rw [idle] at claimed
    cases claimed
  claimed d := by
    rw [idle, settledPc]
    by_cases same : d = c
    · subst same
      rw [Function.update_self]
      exact ⟨fun claimed => absurd claimed settled, fun none => by cases none⟩
    · rw [Function.update_of_ne same, inv.claimed d, current]
      exact ⟨fun other => absurd (Option.some.inj other).symm same, fun none => by cases none⟩
  unread d := by
    rw [sameCount, settledPc]
    by_cases same : d = c
    · subst same
      rw [Function.update_self]
      have inCount := inv.current d current
      exact ⟨fun unread => absurd unread read, fun beyond => by omega⟩
    · rw [Function.update_of_ne same]
      exact inv.unread d

theorem ReaderInv.reader (inv : ReaderInv s) (row : ReaderRow s next) : ReaderInv next := by
  cases row with
  | claim cmd slot atClaim avail =>
      constructor
      · intro c claimed
        cases claimed
        rfl
      · intro c
        show Function.update s.pc s.count .claimed c = .claimed ↔ some s.count = some c
        by_cases same : c = s.count
        · simp [same]
        · rw [Function.update_of_ne same, inv.claimed c, atClaim]
          simp [Reader.current, Ne.symm same]
      · intro c
        show Function.update s.pc s.count .claimed c = .unread ↔ s.count + 1 ≤ c
        by_cases same : c = s.count
        · simp [same]
        · rw [Function.update_of_ne same, inv.unread c]
          omega
  | created c atCreate =>
      apply inv.settle c (firstPc (s.func c)) (by rw [atCreate, Reader.current])
      · cases s.func c <;> simp [firstPc]
      · cases s.func c <;> simp [firstPc]
      all_goals rfl
  | notCreated c atCreate =>
      apply inv.settle c .failed (by rw [atCreate, Reader.current])
        (by simp) (by simp)
      all_goals rfl
  | _ => apply inv.frame <;> simp [Reader.current, State.join, *]

/-- What leaves the pool, the slots and the threads alone keeps `PoolInv`, if the
reader's new point asks for nothing new. -/
theorem PoolInv.frame (inv : PoolInv s) (samePool : next.pool = s.pool)
    (sameSlot : next.slot = s.slot) (samePc : next.pc = s.pc) (sameJoined : next.joined = s.joined)
    (joining : ∀ c t, next.reader = .joining c t → s.pool (s.slot c) = some t)
    (ready : ∀ c t, next.reader.ready = some c → s.pool (s.slot c) = some t → s.joined t = true)
    (cleanupJoin : ∀ i t, next.reader = .cleanupJoin i t → s.pool i = some t) : PoolInv next where
  slot := by
    rw [samePool, sameSlot, samePc]
    exact inv.slot
  pooled := by
    rw [samePool, sameSlot, samePc, sameJoined]
    exact inv.pooled
  joined := by
    rw [samePc, sameJoined]
    exact inv.joined
  joining := by
    rw [samePool, sameSlot]
    exact joining
  ready := by
    rw [samePool, sameSlot, sameJoined]
    exact ready
  cleanupJoin := by
    rw [samePool]
    exact cleanupJoin

private theorem PoolInv.join (inv : PoolInv s) {thread : Nat}
    (isOver : (s.pc thread).finished = true) (reader : Reader)
    (ready : ∀ c, reader.ready = some c → s.pool (s.slot c) = some thread)
    (notJoining : ∀ c t, reader ≠ .joining c t) (notCleanup : ∀ i t, reader ≠ .cleanupJoin i t) :
    PoolInv { s.join thread with reader := reader } where
  slot := inv.slot
  pooled c created joined := by
    apply inv.pooled c created
    by_cases same : c = thread
    · subst same
      simp [State.join] at joined
    · simpa [State.join, Function.update_of_ne same] using joined
  joined t joined := by
    by_cases same : t = thread
    · subst same
      exact isOver
    · exact inv.joined t (by simpa [State.join, Function.update_of_ne same] using joined)
  joining c t joining := absurd joining (notJoining c t)
  ready c t isReady pooled := by
    have same : thread = t := by
      have latest := ready c isReady
      rw [show s.pool (s.slot c) = some t from pooled] at latest
      exact (Option.some.inj latest).symm
    subst same
    simp [State.join]
  cleanupJoin i t cleanup := absurd cleanup (notCleanup i t)

private theorem PoolInv.claim (inv : PoolInv s) (readerInv : ReaderInv s) (cmd : List UInt8)
    (slot : Nat) : PoolInv (s.claim cmd slot) := by
  have notCreated : (s.pc s.count).created = false := by
    rw [readerInv.pc_count]
    rfl
  -- The number of the new command is nobody's thread yet.
  have other : ∀ t, (s.pc t).created = true → t ≠ s.count := by
    rintro t created rfl
    rw [notCreated] at created
    cases created
  have notClaimed : ∀ t, (Function.update s.pc s.count .claimed t).created = true →
      t ≠ s.count := by
    rintro t created rfl
    rw [Function.update_self] at created
    cases created
  constructor
  · intro k t pooled
    obtain ⟨sameSlot, created⟩ := inv.slot k t pooled
    have fresh := other t created
    simp only [State.claim, Function.update_of_ne fresh]
    exact ⟨sameSlot, created⟩
  · intro c created joined
    have fresh := notClaimed c created
    simp only [State.claim, Function.update_of_ne fresh] at created ⊢
    exact inv.pooled c created joined
  · intro t joined
    have isOver := inv.joined t joined
    have fresh := other t (Pc.created_of_finished isOver)
    simpa only [State.claim, Function.update_of_ne fresh] using isOver
  all_goals
    intro _ _ impossible
    cases impossible

private theorem PoolInv.created (inv : PoolInv s) (readerInv : ReaderInv s) {c : Nat}
    (atCreate : s.reader = .create c) :
    PoolInv { s with
      pc := Function.update s.pc c (firstPc (s.func c))
      pool := Function.update s.pool (s.slot c) (some c)
      reader := .idle } := by
  have isReady : s.reader.ready = some c := by rw [atCreate, Reader.ready]
  have claimed : s.pc c = .claimed :=
    readerInv.pc_current (Reader.current_of_ready isReady)
  have other : ∀ t, (s.pc t).created = true → t ≠ c := by
    rintro t created rfl
    rw [claimed] at created
    cases created
  obtain ⟨nowCreated, _⟩ := firstPc_live (s.func c)
  constructor
  · intro k t pooled
    change Function.update s.pool (s.slot c) (some c) k = some t at pooled
    show s.slot t = k ∧ (Function.update s.pc c (firstPc (s.func c)) t).created = true
    by_cases same : k = s.slot c
    · rw [same, Function.update_self] at pooled
      cases pooled
      rw [Function.update_self]
      exact ⟨same.symm, nowCreated⟩
    · rw [Function.update_of_ne same] at pooled
      obtain ⟨sameSlot, created⟩ := inv.slot k t pooled
      rw [Function.update_of_ne (other t created)]
      exact ⟨sameSlot, created⟩
  · intro d created notJoined
    change (Function.update s.pc c (firstPc (s.func c)) d).created = true at created
    show Function.update s.pool (s.slot c) (some c) (s.slot d) = some d
    by_cases same : d = c
    · rw [same, Function.update_self]
    · rw [Function.update_of_ne same] at created
      have pooled := inv.pooled d created notJoined
      have otherSlot : s.slot d ≠ s.slot c := by
        intro sameSlot
        rw [sameSlot] at pooled
        have joined := inv.ready c d isReady pooled
        change s.joined d = false at notJoined
        rw [notJoined] at joined
        cases joined
      rw [Function.update_of_ne otherSlot]
      exact pooled
  · intro t joined
    have isOver := inv.joined t joined
    show (Function.update s.pc c (firstPc (s.func c)) t).finished = true
    rw [Function.update_of_ne (other t (Pc.created_of_finished isOver))]
    exact isOver
  all_goals
    intro _ _ impossible
    cases impossible

private theorem PoolInv.notCreated (inv : PoolInv s) (readerInv : ReaderInv s) {c : Nat}
    (atCreate : s.reader = .create c) :
    PoolInv { s with pc := Function.update s.pc c .failed, reader := .idle } := by
  have claimed : s.pc c = .claimed :=
    readerInv.pc_current (by rw [atCreate, Reader.current])
  have other : ∀ t, (s.pc t).created = true → t ≠ c := by
    rintro t created rfl
    rw [claimed] at created
    cases created
  constructor
  · intro k t pooled
    obtain ⟨sameSlot, created⟩ := inv.slot k t pooled
    refine ⟨sameSlot, ?_⟩
    show (Function.update s.pc c .failed t).created = true
    rw [Function.update_of_ne (other t created)]
    exact created
  · intro d created joined
    have notSelf : d ≠ c := by
      rintro rfl
      change (Function.update s.pc d .failed d).created = true at created
      rw [Function.update_self] at created
      cases created
    change (Function.update s.pc c .failed d).created = true at created
    rw [Function.update_of_ne notSelf] at created
    exact inv.pooled d created joined
  · intro t joined
    have isOver := inv.joined t joined
    show (Function.update s.pc c .failed t).finished = true
    rw [Function.update_of_ne (other t (Pc.created_of_finished isOver))]
    exact isOver
  all_goals
    intro _ _ impossible
    cases impossible

theorem PoolInv.reader (inv : PoolInv s) (readerInv : ReaderInv s) (row : ReaderRow s next) :
    PoolInv next := by
  cases row with
  | claim cmd slot atClaim avail => exact inv.claim readerInv cmd slot
  | created c atCreate => exact inv.created readerInv atCreate
  | notCreated c atCreate => exact inv.notCreated readerInv atCreate
  | reuseJoin c thread atJoin isOver =>
      apply inv.join isOver
      · rintro _ ⟨⟩
        exact inv.joining c thread atJoin
      all_goals
        intro _ _ impossible
        cases impossible
  | cleanupJoined i thread atJoin isOver =>
      apply inv.join isOver <;> (intros; simp_all [Reader.ready])
  | reuseFree c atReuse noThread =>
      apply inv.frame <;> simp [Reader.ready]
      rintro _ t rfl pooled
      rw [noThread] at pooled
      cases pooled
  | reuseCancel c thread atReuse previous =>
      apply inv.frame <;> simp [Reader.ready, previous]
  | accept c atDispatch isWork room =>
      apply inv.frame <;> simp [Reader.ready]
      rintro _ t rfl
      exact inv.ready _ t (by rw [atDispatch, Reader.ready])
  | refuse c atDispatch isWork full =>
      apply inv.frame <;> simp [Reader.ready]
      rintro _ t rfl
      exact inv.ready _ t (by rw [atDispatch, Reader.ready])
  | other c atDispatch notWork =>
      apply inv.frame <;> simp [Reader.ready]
      rintro _ t rfl
      exact inv.ready _ t (by rw [atDispatch, Reader.ready])
  | push c atPush =>
      apply inv.frame <;> simp [Reader.ready]
      rintro _ t rfl
      exact inv.ready _ t (by rw [atPush, Reader.ready])
  | cleanupCancel i thread atCleanup inRange busy current =>
      apply inv.frame <;> simp [Reader.ready, current]
  | _ => apply inv.frame <;> simp [Reader.ready]

end ReaderSteps

/-! ## Steps of the handlers -/

section HandlerSteps

variable {job : Job} {s : State} {c : Nat} {m : Move}

theorem ReaderInv.handler (inv : ReaderInv s) (row : HandlerRow job s c (s.pc c) m.pc m.effect) :
    ReaderInv (s.perform c m) := by
  obtain ⟨wasCreated, _⟩ := row.live
  have isCreated := row.created
  -- Neither the old point of the thread nor the new one is `claimed` or `unread`.
  have same : ∀ pc : Pc, pc.created = false → ∀ d,
      (Function.update s.pc c m.pc d = pc ↔ s.pc d = pc) := by
    intro pc notCreated d
    by_cases self : d = c
    · subst self
      rw [Function.update_self]
      constructor
      · rintro rfl
        rw [isCreated] at notCreated
        cases notCreated
      · rintro rfl
        rw [wasCreated] at notCreated
        cases notCreated
    · rw [Function.update_of_ne self]
  constructor
  · intro d
    rw [perform_reader, perform_count]
    exact inv.current d
  · intro d
    rw [perform_reader, perform_pc, same .claimed rfl d]
    exact inv.claimed d
  · intro d
    rw [perform_count, perform_pc, same .unread rfl d]
    exact inv.unread d

theorem PoolInv.handler (inv : PoolInv s) (row : HandlerRow job s c (s.pc c) m.pc m.effect) :
    PoolInv (s.perform c m) := by
  obtain ⟨wasCreated, live⟩ := row.live
  have isCreated := row.created
  have sameCreated : ∀ d, (Function.update s.pc c m.pc d).created = (s.pc d).created := by
    intro d
    by_cases self : d = c
    · rw [self, Function.update_self, isCreated, wasCreated]
    · rw [Function.update_of_ne self]
  constructor
  · intro k t pooled
    rw [perform_pool] at pooled
    rw [perform_slot, perform_pc, sameCreated]
    exact inv.slot k t pooled
  · intro d created joined
    rw [perform_pc, sameCreated] at created
    rw [perform_joined] at joined
    rw [perform_pool, perform_slot]
    exact inv.pooled d created joined
  · intro t joined
    rw [perform_joined] at joined
    have isOver := inv.joined t joined
    have other : t ≠ c := by
      rintro rfl
      rw [isOver] at live
      cases live
    rw [perform_pc, Function.update_of_ne other]
    exact isOver
  · rw [perform_reader, perform_pool, perform_slot]
    exact inv.joining
  · rw [perform_reader, perform_pool, perform_slot, perform_joined]
    exact inv.ready
  · rw [perform_reader, perform_pool]
    exact inv.cleanupJoin

end HandlerSteps

end BitcoinServer.Client
