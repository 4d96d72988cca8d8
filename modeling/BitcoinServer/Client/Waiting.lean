import BitcoinServer.Client.Answers
import BitcoinServer.Work.Conclusive

/-!
Contract: a WORK handler in its wait loop.

While a handler is in `work_handler` nobody stops its batches, and from its first poll
on all of them have been created. Owns the exact condition on a job under which no
handler waits for batches that have all ended: some nonce is recordable.
-/

namespace BitcoinServer.Client

open BitcoinServer.Command BitcoinServer.Solution BitcoinServer.Work CText Transition

/-- The handler is in the loop `while(solution == 0) sleep(1)`. -/
def Pc.polls : Pc → Bool
  | .work .poll | .work .pollSleep => true
  | _ => false

structure WaitInv (jobOf : Nat → List UInt8 → Job) (s : State) : Prop where
  untouched : ∀ c, (s.pc c).created = false → s.search c = .initial
  undisturbed : ∀ c at_, s.pc c = .work at_ → (s.search c).Undisturbed
  spawned : ∀ c, (s.pc c).polls = true →
    (jobOf c (s.cmd c)).threadCount ≤ (s.search c).btches.length

/-! ## Steps -/

section Steps

variable {jobOf : Nat → List UInt8 → Job} {s next : State} {label : Label} {c : Nat} {m : Move}

theorem waitInv_initial : WaitInv jobOf State.initial where
  untouched _ _ := rfl
  undisturbed := nofun
  spawned := nofun

/-- `work_handler` only creates batches. -/
theorem workHandler_undisturbed {job : Job} {at_ : WorkPc}
    (undisturbed : (s.search c).Undisturbed) (taken : workHandler job s c at_ = some m) :
    m.search.Undisturbed := by
  cases at_ with
  | create =>
      cases spawned : searchStep job (s.search c) .spawn with
      | none =>
          simp only [workHandler, spawned] at taken
          cases taken
          exact undisturbed
      | some next =>
          simp only [workHandler, spawned] at taken
          cases taken
          exact undisturbed.spawn spawned
  | semWait | lock =>
      rw [workHandler, Option.ite_none_right_eq_some] at taken
      obtain ⟨_, ⟨⟩⟩ := taken
      exact undisturbed
  | _ =>
      cases taken
      exact undisturbed

/-- The loop that creates the batches is over when the first poll comes. -/
theorem workHandler_spawned {job : Job} {at_ : WorkPc}
    (spawned : (Pc.work at_).polls = true → job.threadCount ≤ (s.search c).btches.length)
    (taken : workHandler job s c at_ = some m) (polls : m.pc.polls = true) :
    job.threadCount ≤ m.search.btches.length := by
  cases at_ with
  | create =>
      cases created : searchStep job (s.search c) .spawn with
      | none =>
          simp only [workHandler, created] at taken
          cases taken
          simp only [searchStep] at created
          split at created
          · contradiction
          next full => exact Nat.le_of_not_lt full
      | some next =>
          simp only [workHandler, created] at taken
          cases taken
          by_cases more : next.btches.length < job.threadCount
          · rw [if_pos more] at polls
            cases polls
          · exact Nat.le_of_not_lt more
  | poll | pollSleep =>
      cases taken
      exact spawned rfl
  | semWait | lock =>
      rw [workHandler, Option.ite_none_right_eq_some] at taken
      obtain ⟨_, ⟨⟩⟩ := taken
      cases polls
  | turn =>
      cases taken
      by_cases atHead : getTid s.queue = some (s.slot c)
      · rw [if_pos atHead] at polls
        cases polls
      · rw [if_neg atHead] at polls
        cases polls
  | _ =>
      cases taken
      cases polls

/-- `work_handler` is entered only by creating its thread. -/
theorem HandlerRow.from_work {job : Job} {before after : Pc} {effect : Effect}
    (row : HandlerRow job s c before after effect) {inside : WorkPc}
    (reached : after = .work inside) :
    ∃ at_, before = .work at_ := by
  cases row with
  | resetFlag via => cases via <;> cases reached
  | _ => first | exact ⟨_, rfl⟩ | cases reached

theorem handlerStep_work {job : Job} {act : HandlerAct} {after : WorkPc}
    (taken : handlerStep job s c act = some m) (inside : m.pc = .work after) :
    ∃ at_, s.pc c = .work at_ ∧ workHandler job s c at_ = some m := by
  obtain ⟨at_, before⟩ := (handlerStep_row taken).from_work inside
  refine ⟨at_, before, ?_⟩
  cases act with
  | move => simpa only [handlerStep, handlerMove, before] using taken
  | stale found => simp [handlerStep, before] at taken
  | actCancel =>
      rw [handlerStep, Option.ite_none_right_eq_some, Option.map_eq_some_iff] at taken
      obtain ⟨_, pc, point, ⟨⟩⟩ := taken
      rw [before] at point
      subst inside
      cases at_ <;> cases point

theorem WaitInv.reader (inv : WaitInv jobOf s) (readerInv : ReaderInv s) (row : ReaderRow s next) :
    WaitInv jobOf next := by
  obtain ⟨search, _⟩ := row.search_sent
  constructor
  · intro t uncreated
    rw [search]
    apply inv.untouched t
    by_contra created
    rw [Bool.not_eq_false] at created
    rw [row.pc_created readerInv created, created] at uncreated
    cases uncreated
  · intro t at_ inside
    rw [search]
    by_cases created : (s.pc t).created = true
    · rw [row.pc_created readerInv created] at inside
      exact inv.undisturbed t at_ inside
    · rw [inv.untouched t (Bool.not_eq_true _ ▸ created)]
      exact undisturbed_initial
  · intro t polls
    rw [search]
    have same : next.pc t = s.pc t := by
      rcases row.pc t with same | claimed | failed | first
      · exact same
      · rw [claimed] at polls
        cases polls
      · rw [failed] at polls
        cases polls
      · rw [first] at polls
        cases func : s.func t <;> rw [func] at polls <;> cases polls
    rw [same] at polls
    have read : t < s.count := by
      apply readerInv.lt_count
      intro unread
      rw [unread] at polls
      cases polls
    rw [row.cmd read]
    exact inv.spawned t polls

theorem WaitInv.handler {act : HandlerAct} (inv : WaitInv jobOf s)
    (moved : handlerStep (jobOf c (s.cmd c)) s c act = some m) : WaitInv jobOf (s.perform c m) := by
  have row := handlerStep_row moved
  constructor
  · intro t uncreated
    rw [perform_pc] at uncreated
    rw [perform_search]
    by_cases self : t = c
    · rw [self, Function.update_self, row.created] at uncreated
      cases uncreated
    · rw [Function.update_of_ne self] at uncreated ⊢
      exact inv.untouched t uncreated
  · intro t at_ inside
    rw [perform_pc] at inside
    rw [perform_search]
    by_cases self : t = c
    · rw [self, Function.update_self] at inside ⊢
      obtain ⟨before, atBefore, taken⟩ := handlerStep_work moved inside
      exact workHandler_undisturbed (inv.undisturbed c before atBefore) taken
    · rw [Function.update_of_ne self] at inside ⊢
      exact inv.undisturbed t at_ inside
  · intro t polls
    rw [perform_pc] at polls
    rw [perform_search, perform_cmd]
    by_cases self : t = c
    · rw [self, Function.update_self] at polls ⊢
      have inside : ∃ after, m.pc = .work after := by
        cases pc : m.pc with
        | work after => exact ⟨after, rfl⟩
        | _ => simp [pc, Pc.polls] at polls
      obtain ⟨after, inside⟩ := inside
      obtain ⟨before, atBefore, taken⟩ := handlerStep_work moved inside
      exact workHandler_spawned (fun waited => inv.spawned c (atBefore ▸ waited)) taken polls
    · rw [Function.update_of_ne self] at polls ⊢
      exact inv.spawned t polls

theorem WaitInv.btch {i : Nat} {act : BtchAct} {search : Search} (inv : WaitInv jobOf s)
    (moved : searchStep (jobOf c (s.cmd c)) (s.search c) (.btch i act) = some search) :
    WaitInv jobOf { s with search := Function.update s.search c search } := by
  constructor
  · intro t uncreated
    show Function.update s.search c search t = _
    by_cases self : t = c
    · subst self
      rw [inv.untouched t uncreated] at moved
      cases moved
    · rw [Function.update_of_ne self]
      exact inv.untouched t uncreated
  · intro t at_ inside
    show (Function.update s.search c search t).Undisturbed
    by_cases self : t = c
    · subst self
      rw [Function.update_self]
      exact (inv.undisturbed t at_ inside).btch moved
    · rw [Function.update_of_ne self]
      exact inv.undisturbed t at_ inside
  · intro t polls
    show _ ≤ (Function.update s.search c search t).btches.length
    have spawned := inv.spawned t polls
    by_cases self : t = c
    · subst self
      rw [Function.update_self, searchStep_btch_length moved]
      exact spawned
    · rw [Function.update_of_ne self]
      exact spawned

theorem WaitInv.step (inv : WaitInv jobOf s) (readerInv : ReaderInv s)
    (taken : Client.step jobOf s label = some next) : WaitInv jobOf next := by
  cases label with
  | reader act => exact inv.reader readerInv (readerStep_row taken)
  | handler t act =>
      rw [Client.step, Option.map_eq_some_iff] at taken
      obtain ⟨m, moved, rfl⟩ := taken
      exact inv.handler moved
  | btch t i act =>
      rw [Client.step, Option.map_eq_some_iff] at taken
      obtain ⟨search, moved, rfl⟩ := taken
      exact inv.btch moved
  | others count =>
      cases taken
      exact { inv with }

theorem waitInv_of_reachable (reached : Reachable (Client.step jobOf) State.initial s) :
    WaitInv jobOf s :=
  ReachableIf.invariant waitInv_initial
    (fun _ _ _ before inv _ taken => inv.step (clientInv_of_reachable before).reader taken) reached

end Steps

/-! ## Runs that end waiting -/

section Lift

variable {job : Job} {s : State} {c : Nat}

/-- What the batches of a command can do on their own, they can do in its client. -/
theorem reach_searched {search target : Search} (own : s.search c = search)
    (onward : ReachableIf (searchStep job) BtchRuns search target) :
    Reachable (step fun _ _ => job) s
      { s with search := Function.update s.search c target } := by
  induction onward with
  | refl =>
      rw [← own, Function.update_eq_self]
      exact ReachableIf.here
  | @tail middle target _ last inductionHypothesis =>
      obtain ⟨_, ⟨i, rfl⟩, taken⟩ := last
      refine inductionHypothesis.advance (.btch c i .run) ?_
      show (searchStep job (Function.update s.search c middle c) (.btch i .run)).map _ = _
      rw [Function.update_self, taken, Option.map_some, Function.update_idem]

/-- One turn of the loop that creates the batches. -/
private theorem spawn_move {count : Nat} (room : count < job.threadCount)
    (atCreate : s.pc c = .work .create)
    (created : s.search c = ⟨0, false, (List.range count).map job.btch⟩) :
    ∃ next, step (fun _ _ => job) s (.handler c .move) = some next ∧
      next.search c = ⟨0, false, (List.range (count + 1)).map job.btch⟩ ∧
      next.pc c = .work (if count + 1 < job.threadCount then .create else .poll) ∧
      next.cancelSent = s.cancelSent := by
  have spawned : searchStep job (s.search c) .spawn =
      some ⟨0, false, (List.range (count + 1)).map job.btch⟩ := by
    rw [created, searchStep, if_pos (by simpa using room), List.range_succ, List.map_append]
    simp
  refine ⟨s.perform c ⟨.work (if count + 1 < job.threadCount then .create else .poll),
    ⟨0, false, (List.range (count + 1)).map job.btch⟩, .none⟩, ?_, ?_, ?_, rfl⟩
  · simp [step, handlerStep, handlerMove, atCreate, workHandler, spawned]
  · rw [perform_search, Function.update_self]
  · rw [perform_pc, Function.update_self]

/-- From the loop that creates the batches a handler can come to its wait loop. -/
private theorem reach_poll (count remaining : Nat) (total : count + remaining + 1 = job.threadCount)
    (atCreate : s.pc c = .work .create) (uncancelled : s.cancelSent c = false)
    (created : s.search c = ⟨0, false, (List.range count).map job.btch⟩) :
    ∃ next, Reachable (step fun _ _ => job) s next ∧ next.pc c = .work .poll ∧
      next.cancelSent c = false ∧ next.search c = job.emptyHanded 0 := by
  induction remaining generalizing count s with
  | zero =>
      obtain ⟨next, taken, spawned, pc, sameCancels⟩ := spawn_move (by omega) atCreate created
      rw [if_neg (by omega)] at pc
      refine ⟨next, Reachable.advance _ .here taken, pc, sameCancels ▸ uncancelled, ?_⟩
      have all : count + 1 = job.threadCount := total
      simp [spawned, Job.emptyHanded, all]
  | succ remaining inductionHypothesis =>
      obtain ⟨next, taken, spawned, pc, sameCancels⟩ := spawn_move (by omega) atCreate created
      rw [if_pos (by omega)] at pc
      rw [← sameCancels] at uncancelled
      obtain ⟨last, onward, waiting⟩ :=
        inductionHypothesis (count + 1) (by omega) pc uncancelled spawned
      exact ⟨last, (Reachable.advance _ .here taken).trans onward, waiting⟩

end Lift

/-- A WORK gets a slot, a permit and comes to the loop that creates its batches. -/
private theorem reach_create (job : Job) :
    ∃ s, Reachable (step fun _ _ => job) State.initial s ∧ s.pc 0 = .work .create ∧
      s.cancelSent 0 = false ∧ s.search 0 = .initial := by
  obtain ⟨s, reached, passed⟩ := exists_reachable_of_run (step fun _ _ => job) State.initial
    (serve easyWork 4 ++ moves 0 2)
    (fun s => decide (s.pc 0 = .work .create ∧ s.cancelSent 0 = false ∧ s.search 0 = .initial))
    (by rfl)
  exact ⟨s, reached, of_decide_eq_true passed⟩

/-! ## The exact condition -/

/-- Wherever a client runs a WORK with this job, a handler that waits uncancelled has
a batch that has not ended, or a solution. -/
def NeverStuck (job : Job) : Prop :=
  ∀ (jobOf : Nat → List UInt8 → Job) (s : State) (c : Nat),
    (∀ t cmd, (jobOf t cmd).threadCount < 2 ^ 31) → jobOf c (s.cmd c) = job →
      Reachable (step jobOf) State.initial s → (s.pc c).polls = true → s.cancelSent c = false →
        (s.search c).solution ≠ 0 ∨ ∃ btch ∈ (s.search c).btches, ¬ btch.Ended

theorem neverStuck_iff (job : Job) (positive : 0 < job.threadCount)
    (isInt : job.threadCount < 2 ^ 31) : NeverStuck job ↔ ∃ nonce, job.Recordable nonce := by
  constructor
  · intro never
    by_contra unrecorded
    obtain ⟨created, reachedCreated, atCreate, unsent, search⟩ := reach_create job
    have total : 0 + (job.threadCount - 1) + 1 = job.threadCount := by omega
    obtain ⟨s, reached, atPoll, uncancelled, searching⟩ :=
      reach_poll 0 (job.threadCount - 1) total atCreate unsent search
    have left :=
      emptyHanded_of_unrecorded positive isInt (not_exists.mp unrecorded) _ (Nat.le_refl _)
    have reachedLeft := (reachedCreated.trans reached).trans (reach_searched searching left)
    have pending := never (fun _ _ => job) _ 0 (fun _ _ => isInt) rfl reachedLeft
      (by rw [atPoll, Pc.polls]) uncancelled
    simp only [Function.update_self] at pending
    rcases pending with found | ⟨btch, present, running⟩
    · exact found rfl
    · obtain ⟨i, inCount, rfl⟩ := List.mem_map.mp present
      rw [if_pos (List.mem_range.mp inCount)] at running
      exact running (.inl rfl)
  · rintro ⟨nonce, recordable⟩ jobOf s c areInts isJob reached polls _
    by_contra stuck
    rw [not_or, not_exists, not_not] at stuck
    obtain ⟨nothing, ended⟩ := stuck
    have inv := waitInv_of_reachable reached
    have searched := searchInv_of_reachable (areInts c (s.cmd c))
      ((answerInv_of_reachable areInts reached).search c)
    have spawned := inv.spawned c polls
    rw [isJob] at searched spawned
    have undisturbed : (s.search c).Undisturbed := by
      cases pc : s.pc c with
      | work at_ => exact inv.undisturbed c at_ pc
      | _ => simp [pc, Pc.polls] at polls
    have allEnded : (s.search c).AllEnded job :=
      ⟨Nat.le_antisymm searched.count spawned, fun btch present =>
        not_not.mp fun running => ended btch ⟨present, running⟩⟩
    exact solution_ne_zero_of_recordable positive isInt recordable searched allEnded
      undisturbed.noneCancelled nothing

theorem neverStuck_seven : NeverStuck sevenJob :=
  (neverStuck_iff sevenJob (by decide) (by decide)).mpr
    ⟨7, by decide, by decide, by decide, by decide⟩

/-- Difficulty `20ffffff`, start nonce `ffffffffffffffff` and one batch. -/
def topWork : WorkFields where
  difficulty := ⟨ascii ['2', '0', 'f', 'f', 'f', 'f', 'f', 'f'], length_easyDifficulty,
    isHex_easyDifficulty⟩
  seed := ⟨List.replicate 64 48, length_zeroSeed, isHex_zeroSeed⟩
  n := ⟨List.replicate 16 102, rfl, by decide +kernel⟩
  threadCount := ⟨ascii ['0', '1'], length_oneThread, isHex_oneThread⟩
  positive := positive_oneThread

/-- What `work_handler` makes of `topWork`, where every hash is 0. -/
def topWorkJob : Job :=
  workJob .littleEndian (fun _ => uint256Init) ⟨0, [], 0, 0, []⟩ topWork.command

/-- The one batch of `topWork` has an empty range: it leaves at once, and the handler
waits for it. -/
theorem topWork_stuck : ¬ NeverStuck topWorkJob := by
  intro never
  obtain ⟨s, reached, passed⟩ := exists_reachable_of_run
    (step fun _ => workJob .littleEndian (fun _ => uint256Init) ⟨0, [], 0, 0, []⟩) State.initial
    (serve topWork.command 4 ++ moves 0 4 ++ [.btch 0 0 .run, .btch 0 0 .run])
    (fun s => decide (s.cmd 0 = topWork.command ∧ s.pc 0 = .work .pollSleep ∧
      s.cancelSent 0 = false ∧ (s.search 0).solution = 0 ∧
        ∀ btch ∈ (s.search 0).btches, btch.Ended))
    (by decide +kernel)
  obtain ⟨isTop, atSleep, uncancelled, nothing, ended⟩ := of_decide_eq_true passed
  rcases never _ s 0 (fun _ cmd => workJob_isInt _ _ _ cmd) (by rw [isTop, topWorkJob]) reached
    (by rw [atSleep, Pc.polls]) uncancelled with found | ⟨btch, present, running⟩
  · exact found nothing
  · exact running (ended btch present)

end BitcoinServer.Client
