import BitcoinServer.Client.Turn

/-!
Contract: the slots and their flags.

A WORK thread clears the flag of its slot twice, in `work_handler_cleanup` and
again in `handler_wrapper`. If `get_avail_thread` returns the slot between the
two, the second clear is one of the new command's flag. A slot stays with its
command as long as no slot is returned in that window.
-/

namespace BitcoinServer.Client

open BitcoinServer.Command BitcoinServer.Work Transition

/-- The flag of a slot is 1 from the claim on until the command has cleared it or was
cancelled by ABRT or at disconnect; a slot that `get_avail_thread` would return has no
unfinished command; and the thread that is cancelled and joined at reuse has ended. -/
structure SlotExclusive (s : State) : Prop where
  held : ∀ c < s.count, s.cleared c = false → s.aborted c = false → s.flags (s.slot c) = true
  avail : ∀ k, getAvailThread s.flags clientThreadCount = some k →
    ∀ c < s.count, s.slot c = k → s.cleared c = true
  reuse : ∀ c t, s.reader = .reuse c ∨ s.reader = .joining c t →
    s.pool (s.slot c) = some t → s.cleared t = true ∧ (s.pc t).finished = true

/-- The step does not take a slot from `get_avail_thread` whose WORK is between its
two clears of the flag. -/
def ClaimsOver (s : State) (label : Label) : Prop :=
  ∀ cmd k t, label = .reader .move → s.reader = .claiming cmd →
    getAvailThread s.flags clientThreadCount = some k → s.slot t = k → s.pc t = .wrapper →
      s.cleared t = false

/-! ## Clears -/

/-- Where a thread is that has cleared its flag, or was cancelled. Only a WORK clears it
twice. -/
structure ClearInv (s : State) : Prop where
  cleared : ∀ c, s.cleared c = true → s.pc c = .wrapper ∨ ∃ via, s.pc c = .ended via
  ended : ∀ c via, s.pc c = .ended via → s.cleared c = true
  aborted : ∀ c, s.aborted c = true → (s.pc c).created = true
  isWork : ∀ c, s.cleared c = true → s.pc c = .wrapper → s.func c = .workHandler

section Clears

variable {jobOf : Nat → List UInt8 → Job} {job : Job} {s next : State} {label : Label} {c : Nat}

theorem HandlerRow.ended {before after : Pc} {effect : Effect} {via : Via}
    (row : HandlerRow job s c before after effect) (ended : after = .ended via) :
    effect = .clearFlag := by
  subst ended
  generalize isEnded : Pc.ended via = after at row
  cases row <;> first | rfl | cases isEnded

theorem HandlerRow.clears {before after : Pc} {effect : Effect}
    (row : HandlerRow job s c before after effect)
    (cleared : effect = .clearFlag ∨ before = .wrapper) :
    after = .wrapper ∨ ∃ via, after = .ended via := by
  cases row with
  | resetFlag via =>
      cases via with
      | popped => exact .inl rfl
      | cancelled holding => exact .inr ⟨.cancelled holding, rfl⟩
  | wrapper => exact .inr ⟨.popped, rfl⟩
  | _ => simp at cleared

/-- A thread that has a clear still to come after one is that of a WORK. -/
theorem HandlerRow.secondClear {before after : Pc} {effect : Effect}
    (row : HandlerRow job s c before after effect) (clears : effect = .clearFlag)
    (atWrapper : after = .wrapper) (runs : before.runs (s.func c)) :
    s.func c = .workHandler := by
  cases row with
  | resetFlag via => exact runs
  | wrapper => cases atWrapper
  | _ => cases clears

theorem perform_aborted {m : Move} {t : Nat} (aborted : (s.perform c m).aborted t = true) :
    s.aborted t = true ∨ (Function.update s.pc c m.pc t).created = true := by
  cases effect : m.effect with
  | cancel thread =>
      simp only [State.perform, State.apply, effect] at aborted
      exact pthreadCancel_aborted _ thread true aborted
  | _ =>
      simp only [State.perform, State.apply, effect] at aborted
      exact .inl aborted

theorem ReaderRow.cleared (row : ReaderRow s next) : next.cleared = s.cleared := by
  cases row <;> simp [State.claim, State.join]

theorem ReaderRow.aborted (row : ReaderRow s next) {t : Nat} (aborted : next.aborted t = true) :
    s.aborted t = true ∨ (s.pc t).created = true := by
  cases row with
  | reuseCancel c thread atReuse previous =>
      exact pthreadCancel_aborted s (some thread) false aborted
  | cleanupCancel i thread atCleanup inRange busy current =>
      exact pthreadCancel_aborted s (some thread) true aborted
  | _ => exact .inl aborted

/-- The reader's steps leave a created thread where it is. -/
theorem ReaderRow.pc_created (readerInv : ReaderInv s) (row : ReaderRow s next) {t : Nat}
    (created : (s.pc t).created = true) : next.pc t = s.pc t := by
  have notSettled : ∀ d, s.reader = .create d → t ≠ d := by
    rintro d atCreate rfl
    rw [readerInv.pc_current (by rw [atCreate, Reader.current])] at created
    cases created
  cases row with
  | claim cmd slot atClaim avail =>
      apply Function.update_of_ne
      rintro rfl
      rw [readerInv.pc_count] at created
      cases created
  | created d atCreate => exact Function.update_of_ne (notSettled d atCreate) ..
  | notCreated d atCreate => exact Function.update_of_ne (notSettled d atCreate) ..
  | _ => simp [State.join]

theorem ReaderRow.func_created (readerInv : ReaderInv s) (row : ReaderRow s next) {t : Nat}
    (created : (s.pc t).created = true) : next.func t = s.func t := by
  cases row with
  | claim cmd slot atClaim avail =>
      apply Function.update_of_ne
      rintro rfl
      rw [readerInv.pc_count] at created
      cases created
  | refuse c atDispatch isWork full =>
      apply Function.update_of_ne
      rintro rfl
      rw [readerInv.pc_current (by rw [atDispatch, Reader.current])] at created
      cases created
  | _ => simp [State.join]

theorem clearInv_initial : ClearInv State.initial := by
  constructor <;> simp [State.initial]

theorem ClearInv.reader (inv : ClearInv s) (readerInv : ReaderInv s) (row : ReaderRow s next) :
    ClearInv next where
  cleared c cleared := by
    rw [row.cleared] at cleared
    have isOver := inv.cleared c cleared
    rw [row.pc_created readerInv]
    · exact isOver
    · rcases isOver with atWrapper | ⟨via, ended⟩
      · rw [atWrapper]
        rfl
      · rw [ended]
        rfl
  ended c via ended := by
    rw [row.cleared]
    rcases row.pc c with same | claimed | failed | first
    · exact inv.ended c via (same ▸ ended)
    · rw [claimed] at ended
      cases ended
    · rw [failed] at ended
      cases ended
    · rw [first] at ended
      have live := (firstPc_live (s.func c)).2
      rw [ended] at live
      cases live
  aborted c aborted := by
    rcases row.aborted aborted with already | created
    · rw [row.pc_created readerInv (inv.aborted c already)]
      exact inv.aborted c already
    · rw [row.pc_created readerInv created]
      exact created
  isWork c cleared atWrapper := by
    rw [row.cleared] at cleared
    have created : (s.pc c).created = true := by
      rcases inv.cleared c cleared with wrapper | ⟨via, ended⟩
      · rw [wrapper]
        rfl
      · rw [ended]
        rfl
    rw [row.pc_created readerInv created] at atWrapper
    rw [row.func_created readerInv created]
    exact inv.isWork c cleared atWrapper

theorem ClearInv.handler {m : Move} (inv : ClearInv s) (queueInv : QueueInv s)
    (row : HandlerRow job s c (s.pc c) m.pc m.effect) : ClearInv (s.perform c m) where
  cleared d cleared := by
    rw [perform_cleared] at cleared
    rw [perform_pc]
    by_cases self : d = c
    · subst self
      rw [Function.update_self]
      by_cases clears : m.effect = .clearFlag
      · exact row.clears (.inl clears)
      · rw [if_neg clears] at cleared
        rcases inv.cleared d cleared with atWrapper | ⟨via, ended⟩
        · exact row.clears (.inr atWrapper)
        · have live := row.live.2
          rw [ended] at live
          cases live
    · rw [Function.update_of_ne self]
      apply inv.cleared d
      split at cleared
      · rwa [Function.update_of_ne self] at cleared
      · exact cleared
  ended d via ended := by
    rw [perform_pc] at ended
    rw [perform_cleared]
    by_cases self : d = c
    · subst self
      rw [Function.update_self] at ended
      rw [if_pos (row.ended ended), Function.update_self]
    · rw [Function.update_of_ne self] at ended
      have cleared := inv.ended d via ended
      split
      · rwa [Function.update_of_ne self]
      · exact cleared
  aborted d aborted := by
    rw [perform_pc]
    rcases perform_aborted aborted with already | created
    · have created := inv.aborted d already
      by_cases self : d = c
      · rw [self, Function.update_self]
        exact row.created
      · rw [Function.update_of_ne self]
        exact created
    · exact created
  isWork d cleared atWrapper := by
    rw [perform_cleared] at cleared
    rw [perform_pc] at atWrapper
    rw [perform_func]
    by_cases self : d = c
    · subst self
      rw [Function.update_self] at atWrapper
      by_cases clears : m.effect = .clearFlag
      · exact row.secondClear clears atWrapper (queueInv.runs d)
      · rw [if_neg clears] at cleared
        rcases inv.cleared d cleared with wrapper | ⟨via, ended⟩
        · rw [wrapper, atWrapper] at row
          cases row
        · have live := row.live.2
          rw [ended] at live
          cases live
    · rw [Function.update_of_ne self] at atWrapper
      apply inv.isWork d _ atWrapper
      split at cleared
      · rwa [Function.update_of_ne self] at cleared
      · exact cleared

theorem ClearInv.step (inv : ClearInv s) (clientInv : ClientInv s)
    (taken : step jobOf s label = some next) : ClearInv next := by
  rcases step_cases taken with ⟨_, _, row⟩ | ⟨c, _, m, _, _, row, rfl⟩ | ⟨_, _, rfl⟩
  · exact inv.reader clientInv.reader row
  · exact inv.handler clientInv.queue row
  · exact { inv with }

theorem clearInv_of_reachable (reached : Reachable (Client.step jobOf) State.initial s) :
    ClearInv s :=
  ReachableIf.invariant clearInv_initial
    (fun _ _ _ previous inv _ taken => inv.step (clientInv_of_reachable previous) taken) reached

end Clears

/-! ## Slots -/

/-- What holds as long as no slot is claimed between two clears: an uncleared command
has its flag, and every earlier command of a slot is over. -/
structure SlotInv (s : State) : Prop where
  held : ∀ c < s.count, s.cleared c = false → s.flags (s.slot c) = true
  isOver : ∀ c d, c < d → d < s.count → s.slot c = s.slot d →
    s.cleared c = true ∧ (s.pc c).finished = true

section Slots

variable {jobOf : Nat → List UInt8 → Job} {job : Job} {s next : State} {label : Label} {c : Nat}

theorem slotInv_initial : SlotInv State.initial := by
  constructor <;> simp [State.initial]

/-- Steps that leave the flags, the slots and the ended threads alone. -/
private theorem SlotInv.frame (inv : SlotInv s) (sameCount : next.count = s.count)
    (sameFlags : next.flags = s.flags) (sameSlot : next.slot = s.slot)
    (sameCleared : next.cleared = s.cleared)
    (finished : ∀ t, (s.pc t).finished = true → (next.pc t).finished = true) :
    SlotInv next where
  held := by
    rw [sameCount, sameFlags, sameSlot, sameCleared]
    exact inv.held
  isOver c d earlier inCount sameSlots := by
    rw [sameCount] at inCount
    rw [sameSlot] at sameSlots
    rw [sameCleared]
    obtain ⟨cleared, isOver⟩ := inv.isOver c d earlier inCount sameSlots
    exact ⟨cleared, finished c isOver⟩

private theorem SlotInv.claim (inv : SlotInv s) (clearInv : ClearInv s) (cmd : List UInt8)
    {k : Nat} (avail : getAvailThread s.flags clientThreadCount = some k)
    (isOver : ∀ t, s.slot t = k → s.pc t = .wrapper → s.cleared t = false) :
    SlotInv (s.claim cmd k) := by
  have free := flag_of_getAvailThread avail
  constructor
  · intro c inCount uncleared
    change c < s.count + 1 at inCount
    show Function.update s.flags k true (Function.update s.slot s.count k c) = true
    by_cases same : c = s.count
    · rw [same, Function.update_self, Function.update_self]
    · rw [Function.update_of_ne same]
      have held := inv.held c (by omega) uncleared
      by_cases sameSlot : s.slot c = k
      · rw [sameSlot, Function.update_self]
      · rw [Function.update_of_ne sameSlot]
        exact held
  · intro c d earlier inCount sameSlots
    change d < s.count + 1 at inCount
    have old : c ≠ s.count := by omega
    have oldOver : s.cleared c = true ∧ (s.pc c).finished = true := by
      change Function.update s.slot s.count k c = Function.update s.slot s.count k d at sameSlots
      rw [Function.update_of_ne old] at sameSlots
      by_cases newest : d = s.count
      · rw [newest, Function.update_self] at sameSlots
        -- The flag was 0, so every command of the slot has cleared it.
        have cleared : s.cleared c = true := by
          by_contra uncleared
          rw [Bool.not_eq_true] at uncleared
          have held := inv.held c (by omega) uncleared
          rw [sameSlots, free] at held
          cases held
        refine ⟨cleared, ?_⟩
        rcases clearInv.cleared c cleared with atWrapper | ⟨via, ended⟩
        · rw [isOver c sameSlots atWrapper] at cleared
          cases cleared
        · rw [ended]
          rfl
      · rw [Function.update_of_ne newest] at sameSlots
        exact inv.isOver c d earlier (by omega) sameSlots
    refine ⟨oldOver.1, ?_⟩
    show (Function.update s.pc s.count .claimed c).finished = true
    rw [Function.update_of_ne old]
    exact oldOver.2

theorem SlotInv.reader (inv : SlotInv s) (readerInv : ReaderInv s) (clearInv : ClearInv s)
    (row : ReaderRow s next) (claims : ∀ cmd k t, s.reader = .claiming cmd →
      getAvailThread s.flags clientThreadCount = some k → s.slot t = k → s.pc t = .wrapper →
        s.cleared t = false) :
    SlotInv next := by
  have finished : ∀ t, (s.pc t).finished = true → (next.pc t).finished = true := by
    intro t isOver
    rw [row.pc_created readerInv (Pc.created_of_finished isOver)]
    exact isOver
  cases row with
  | claim cmd k atClaim avail =>
      exact inv.claim clearInv cmd avail (claims cmd k · atClaim avail)
  | _ =>
      apply inv.frame _ _ _ _ finished <;> simp [State.join]

theorem SlotInv.handler {m : Move} (inv : SlotInv s) (readerInv : ReaderInv s)
    (row : HandlerRow job s c (s.pc c) m.pc m.effect) : SlotInv (s.perform c m) := by
  have live := row.live.2
  have inCount : c < s.count := by
    apply readerInv.lt_count
    intro unread
    have created := row.live.1
    rw [unread] at created
    cases created
  have finished : ∀ t, (s.pc t).finished = true → ((s.perform c m).pc t).finished = true := by
    intro t isOver
    have other : t ≠ c := by
      rintro rfl
      rw [live] at isOver
      cases isOver
    rw [perform_pc, Function.update_of_ne other]
    exact isOver
  by_cases clears : m.effect = .clearFlag
  · constructor
    · intro d below uncleared
      rw [perform_count] at below
      rw [perform_cleared, if_pos clears] at uncleared
      rw [perform_flags, perform_slot, if_pos clears]
      have other : d ≠ c := by
        rintro rfl
        rw [Function.update_self] at uncleared
        cases uncleared
      rw [Function.update_of_ne other] at uncleared
      have otherSlot : s.slot d ≠ s.slot c := by
        intro sameSlot
        rcases Nat.lt_or_gt_of_ne other with before | after
        · rw [(inv.isOver d c before inCount sameSlot).1] at uncleared
          cases uncleared
        · rw [(inv.isOver c d after below sameSlot.symm).2] at live
          cases live
      rw [Function.update_of_ne otherSlot]
      exact inv.held d below uncleared
    · intro d e earlier below sameSlot
      rw [perform_count] at below
      rw [perform_slot] at sameSlot
      obtain ⟨cleared, isOver⟩ := inv.isOver d e earlier below sameSlot
      refine ⟨?_, finished d isOver⟩
      rw [perform_cleared, if_pos clears]
      by_cases self : d = c
      · rw [self, Function.update_self]
      · rwa [Function.update_of_ne self]
  · apply inv.frame (perform_count ..) _ (perform_slot ..) _ finished
    · rw [perform_flags, if_neg clears]
    · rw [perform_cleared, if_neg clears]

theorem slotInv_of_reachable
    (reached : ReachableIf (step jobOf) ClaimsOver State.initial s) : SlotInv s := by
  apply reached.invariant slotInv_initial
  intro source label target previous inv claims taken
  have clientInv := clientInv_of_reachable previous.reachable
  have clearInv := clearInv_of_reachable previous.reachable
  rcases step_cases taken with ⟨act, isReader, row⟩ | ⟨c, _, m, _, _, row, rfl⟩ | ⟨_, _, rfl⟩
  · apply inv.reader clientInv.reader clearInv row
    intro cmd k t atClaim avail
    apply claims cmd k t _ atClaim avail
    -- Only a move leaves the point in `get_avail_thread`.
    subst isReader
    cases act with
    | move => rfl
    | _ => simp [step, readerStep, atClaim] at taken
  · exact inv.handler clientInv.reader row
  · exact { inv with }

theorem slotExclusive_of_slotInv (inv : SlotInv s) (clientInv : ClientInv s) :
    SlotExclusive s where
  held c inCount uncleared _ := inv.held c inCount uncleared
  avail k avail c inCount isSlot := by
    by_contra uncleared
    rw [Bool.not_eq_true] at uncleared
    have held := inv.held c inCount uncleared
    rw [isSlot, flag_of_getAvailThread avail] at held
    cases held
  reuse c t atReuse pooled := by
    have isCurrent : s.reader.current = some c := by
      rcases atReuse with atReuse | atJoin
      · rw [atReuse, Reader.current]
      · rw [atJoin, Reader.current]
    obtain ⟨sameSlot, created⟩ := clientInv.pool.slot _ t pooled
    have last := clientInv.reader.current c isCurrent
    have inCount : t < s.count := by
      apply clientInv.reader.lt_count
      intro unread
      rw [unread] at created
      cases created
    have other : t ≠ c := by
      rintro rfl
      rw [clientInv.reader.pc_current isCurrent] at created
      cases created
    exact inv.isOver t c (by omega) (by omega) sameSlot

/-- The thread between its two clears, run on, clears the flag of the new command. -/
theorem doubleClear_breaks (clientInv : ClientInv s) (clearInv : ClearInv s)
    (taken : step jobOf s label = some next) (violates : ¬ ClaimsOver s label) :
    ∃ act later, step jobOf next act = some later ∧ ¬ SlotExclusive later := by
  unfold ClaimsOver at violates
  push Not at violates
  obtain ⟨cmd, k, t, rfl, atClaim, avail, isSlot, atWrapper, cleared⟩ := violates
  simp only [step, readerStep, atClaim, avail] at taken
  cases taken
  have old : t ≠ s.count := by
    rintro rfl
    rw [clientInv.reader.pc_count] at atWrapper
    cases atWrapper
  have wrapper : (s.claim cmd k).pc t = .wrapper := by
    show Function.update s.pc s.count .claimed t = .wrapper
    rw [Function.update_of_ne old, atWrapper]
  refine ⟨.handler t .move,
    (s.claim cmd k).perform t ⟨.ended .popped, (s.claim cmd k).search t, .clearFlag⟩, ?_, ?_⟩
  · simp [step, handlerStep, handlerMove, wrapper]
  · intro exclusive
    have uncleared : s.cleared s.count = false := by
      by_contra already
      rw [Bool.not_eq_false] at already
      have isOver := clearInv.cleared s.count already
      rw [clientInv.reader.pc_count] at isOver
      simp at isOver
    have notAborted : s.aborted s.count = false := by
      by_contra already
      rw [Bool.not_eq_false] at already
      have created := clearInv.aborted s.count already
      rw [clientInv.reader.pc_count] at created
      cases created
    have held := exclusive.held s.count
    rw [perform_count, perform_cleared, perform_flags, perform_slot] at held
    have slotOld : (s.claim cmd k).slot t = k := by
      show Function.update s.slot s.count k t = k
      rw [Function.update_of_ne old, isSlot]
    have slotNew : (s.claim cmd k).slot s.count = k := Function.update_self ..
    rw [if_pos rfl, if_pos rfl, Function.update_of_ne old.symm, slotOld, slotNew,
      Function.update_self] at held
    have lost := held (Nat.lt_succ_self _) uncleared notAborted
    cases lost

/-- In every run in which `get_avail_thread` never returns the slot of a WORK between its
two clears of the flag, the slots are exclusive; any step that does return such a slot
leads to a state from which one step of that WORK's thread breaks the exclusion. -/
theorem slots_exclusive_iff (jobOf : Nat → List UInt8 → Job) :
    (∀ s, ReachableIf (step jobOf) ClaimsOver State.initial s → SlotExclusive s) ∧
    (∀ s label next, Reachable (step jobOf) State.initial s → step jobOf s label = some next →
      ¬ ClaimsOver s label → ∃ act later, step jobOf next act = some later ∧
        ¬ SlotExclusive later) := by
  constructor
  · intro s reached
    exact slotExclusive_of_slotInv (slotInv_of_reachable reached)
      (clientInv_of_reachable reached.reachable)
  · intro s label next reached taken violates
    exact doubleClear_breaks (clientInv_of_reachable reached) (clearInv_of_reachable reached)
      taken violates

/-- A WORK solved and replied to, up to and including its first clear of its flag. -/
def solvedWork (c : Nat) : List Label :=
  moves c 4 ++ List.replicate 4 (.btch c 0 .run) ++ moves c 14

/-- The reader is not about to claim a slot. -/
def NotClaiming (s : State) (_ : Label) : Prop :=
  ∀ cmd, s.reader ≠ .claiming cmd

instance (s : State) (label : Label) : Decidable (NotClaiming s label) :=
  match atClaim : s.reader with
  | .claiming cmd => isFalse fun elsewhere => elsewhere cmd atClaim
  | .idle | .reuse _ | .joining _ _ | .dispatch _ | .push _ | .create _ | .cleanup _
  | .cleanupJoin _ _ | .finished => isTrue fun cmd => by simp [atClaim]

theorem claimsOver_of_notClaiming {origin : State}
    (reached : ReachableIf (step jobOf) NotClaiming origin s) :
    ReachableIf (step jobOf) ClaimsOver origin s :=
  reached.mono fun _ _ elsewhere cmd _ _ _ atClaim => absurd atClaim (elsewhere cmd)

/-- A client whose first command has got a slot. -/
def firstClaim : State :=
  State.claim { State.initial with reader := .claiming easyWork } easyWork 0

theorem firstClaim_reachable : ReachableIf (step easyJob) ClaimsOver State.initial firstClaim := by
  apply ReachableIf.advance (.reader .move)
    (ReachableIf.advance (.reader (.take easyWork)) .here _ rfl) _ rfl
  · intro _ _ _ isMove
    cases isMove
  · intro _ _ _ _ _ _ _ atWrapper
    cases atWrapper

/-- A PING that gets the slot of a WORK whose thread has ended holds it. -/
theorem slots_exclusive_reused :
    ∃ s, ReachableIf (step easyJob) ClaimsOver State.initial s ∧ s.reader = .reuse 1 ∧
      s.func 0 = .workHandler ∧ s.slot 1 = s.slot 0 ∧ s.pool (s.slot 1) = some 0 ∧
        SlotExclusive s := by
  obtain ⟨s, reached, atClaim⟩ :=
    exists_reachableIf_of_runIf (step easyJob) firstClaim NotClaiming
      [List.replicate 3 (.reader .move), [.reader (.create true)], solvedWork 0, moves 0 1,
        [.reader (.take pingCmd)]].flatten
      (fun s => decide (s.reader = .claiming pingCmd ∧
        getAvailThread s.flags clientThreadCount = some 0 ∧ s.count = 1 ∧
          s.pc 0 = .ended .popped ∧ s.func 0 = .workHandler ∧ s.slot 0 = 0 ∧ s.pool 0 = some 0))
      (by decide +kernel)
  obtain ⟨claiming, avail, one, ended, isWork, slot, pooled⟩ := of_decide_eq_true atClaim
  have whole := firstClaim_reachable.trans (claimsOver_of_notClaiming reached)
  have readerInv := (clientInv_of_reachable whole.reachable).reader
  have claims : ClaimsOver s (.reader .move) := by
    intro _ _ t _ _ _ _ atWrapper
    have inCount := readerInv.lt_count (c := t) (by simp [atWrapper])
    obtain rfl : t = 0 := by omega
    rw [ended] at atWrapper
    cases atWrapper
  have taken : step easyJob s (.reader .move) = some (s.claim pingCmd 0) := by
    simp only [step, readerStep, claiming, avail]
  have reused := whole.advance _ claims taken
  exact ⟨_, reused, by simp [State.claim, one], by simp [State.claim, one, isWork],
    by simp [State.claim, one, slot], by simp [State.claim, one, pooled],
    (slots_exclusive_iff easyJob).1 _ reused⟩

/-- PING gets the slot of a WORK between its two clears, and loses the flag. -/
def doubleClear : List Label :=
  [serve easyWork 4, solvedWork 0, [.reader (.take pingCmd), .reader .move], moves 0 1].flatten

theorem double_clear_frees_slot :
    ¬ ∀ (jobOf : Nat → List UInt8 → Job) (s : State),
      Reachable (step jobOf) State.initial s → SlotExclusive s := by
  intro exclusive
  obtain ⟨s, reached, lost⟩ :=
    exists_reachable_of_run (step easyJob) State.initial doubleClear
      (fun s => decide (1 < s.count ∧ s.cleared 1 = false ∧ s.aborted 1 = false ∧
        s.flags (s.slot 1) = false))
      (by decide +kernel)
  obtain ⟨claimed, uncleared, notAborted, free⟩ := of_decide_eq_true lost
  have held := (exclusive _ s reached).held 1 claimed uncleared notAborted
  rw [free] at held
  cases held

end Slots

end BitcoinServer.Client
