import BitcoinServer.Work.SearchInvariant

/-!
Contract: when a search that finds nothing proves that there is nothing.

The last range ends at `UINT64_MAX` and `work_btch` leaves at `trying >= end`,
so `UINT64_MAX` itself is never tried; and `0`, the value of `*solution` for
"nothing found", is also a nonce. `Job.Conclusive` says exactly when neither
matters. `emptyHanded` is the run of the search in which every batch, one after
the other, leaves its loop without a nonzero solution; it exists whenever
`Job.Conclusive` fails.
-/

namespace BitcoinServer.Work

open Transition

/-- A valid nonce that a batch can record: below `UINT64_MAX`, and, when a
success at nonce `0` ends the first batch, outside that batch's range. -/
def Job.Recordable (job : Job) (nonce : UInt64) : Prop :=
  job.n ≤ nonce ∧ nonce < uint64Max ∧ job.isValidSoln nonce = true ∧
    (job.n = 0 → job.isValidSoln 0 = true → job.stop 0 ≤ nonce)

/-- No nonce from `n` on is valid, or some batch records one. -/
def Job.Conclusive (job : Job) : Prop :=
  (∀ nonce, job.n ≤ nonce → job.isValidSoln nonce = false) ∨
    ∃ nonce, job.Recordable nonce

/-- When every batch has exited, none was cancelled and `solution` is still 0, no nonce from
`n` on is valid. -/
def Job.FailureConclusive (job : Job) : Prop :=
  ∀ search, Reachable (searchStep job) .initial search → search.AllEnded job →
    search.NoneCancelled → search.solution = 0 →
      ∀ nonce, job.n ≤ nonce → job.isValidSoln nonce = false

section Recorded

variable {job : Job} {search : Search}

/-- A batch that left without a solution has tried its whole range, or it is
the first one, stopped by a success at nonce `0`. -/
theorem range_tried (positive : 0 < job.threadCount) (isInt : job.threadCount < 2 ^ 31)
    {i : Nat} {btch : Btch} (inCount : i < job.threadCount)
    (holds : BtchInv job search i btch) (exited : btch.pc = .exited)
    (uncancelled : search.cancelled = false) (nothing : search.solution = 0) :
    btch.trying.toNat = (job.stop i).toNat ∨
      (i = 0 ∧ job.n = 0 ∧ job.isValidSoln 0 = true) := by
  rcases holds.left exited with nonzero | cancelled | finished | ⟨atZero, valid⟩
  · exact absurd nothing nonzero
  · simp [uncancelled] at cancelled
  · exact Or.inl (holds.stop_eq ▸ finished)
  · right
    have fromStart := holds.from_start
    rw [holds.start_eq, toNat_start job isInt (Nat.le_of_lt inCount), atZero] at fromStart
    have sum_zero : job.n.toNat + i * job.chunk.toNat = 0 := Nat.le_zero.mp fromStart
    have n_zero : job.n.toNat = 0 := by omega
    have wide : 0 < job.chunk.toNat := by
      rw [toNat_chunk job isInt, n_zero]
      exact Nat.div_pos (by omega) positive
    have product : i * job.chunk.toNat = 0 := by omega
    have first : i = 0 := by
      rcases Nat.mul_eq_zero.mp product with zero | zero
      · exact zero
      · omega
    exact ⟨first, UInt64.toNat_inj.mp n_zero, valid⟩

/-- A recordable nonce is recorded by the time all batches have left. -/
theorem solution_ne_zero_of_recordable (positive : 0 < job.threadCount)
    (isInt : job.threadCount < 2 ^ 31) {nonce : UInt64} (recordable : job.Recordable nonce)
    (holds : SearchInv job search) (ended : search.AllEnded job)
    (uncancelled : search.NoneCancelled) : search.solution ≠ 0 := by
  intro nothing
  obtain ⟨atLeast, below, valid, outside⟩ := recordable
  obtain ⟨i, inCount, fromStart, beforeStop⟩ := exists_range job positive isInt
    (UInt64.le_iff_toNat_le.mp atLeast) (UInt64.lt_iff_toNat_lt.mp below)
  have inside : i < search.btches.length := ended.1 ▸ inCount
  have own := holds.btch i _ (List.getElem?_eq_getElem inside)
  have exited : search.btches[i].pc = .exited :=
    (ended.2 _ (List.getElem_mem inside)).resolve_right
      (uncancelled.2 _ (List.getElem_mem inside))
  rcases range_tried positive isInt inCount own exited uncancelled.1 nothing with
    finished | ⟨rfl, n_zero, zeroValid⟩
  · have rejected := own.rejected nonce (own.start_eq ▸ fromStart) (finished ▸ beforeStop)
    simp [valid] at rejected
  · have past := UInt64.le_iff_toNat_le.mp (outside n_zero zeroValid)
    omega

end Recorded

/-! ## Undisturbed batches -/

/-- No batch has been told to stop. -/
def Search.Undisturbed (search : Search) : Prop :=
  search.cancelled = false ∧ ∀ btch ∈ search.btches, btch.cancelSent = false ∧ btch.pc ≠ .cancelled

section Undisturbed

variable {job : Job} {search next : Search}

theorem Search.Undisturbed.noneCancelled (undisturbed : search.Undisturbed) :
    search.NoneCancelled :=
  ⟨undisturbed.1, fun btch present => (undisturbed.2 btch present).2⟩

theorem undisturbed_initial : Search.initial.Undisturbed :=
  ⟨rfl, fun _ present => absurd present List.not_mem_nil⟩

/-- A batch that nobody cancels goes on uncancelled. -/
theorem BtchRow.undisturbed {btch moved : Btch} {act : BtchAct} {solution : UInt64}
    (row : BtchRow job search btch act moved solution) (unsent : btch.cancelSent = false) :
    moved.cancelSent = false ∧ moved.pc ≠ .cancelled := by
  cases row with
  | cancel atCheck sent =>
      rw [unsent] at sent
      contradiction
  | _ => exact ⟨unsent, nofun⟩

theorem Search.Undisturbed.spawn (undisturbed : search.Undisturbed)
    (taken : searchStep job search .spawn = some next) : next.Undisturbed := by
  cases searchStep_row taken with
  | spawn room =>
      refine ⟨undisturbed.1, fun btch present => ?_⟩
      rcases List.mem_append.mp present with old | new
      · exact undisturbed.2 btch old
      · rw [List.mem_singleton.mp new]
        exact ⟨rfl, nofun⟩

theorem Search.Undisturbed.btch {i : Nat} {act : BtchAct} (undisturbed : search.Undisturbed)
    (taken : searchStep job search (.btch i act) = some next) : next.Undisturbed := by
  cases searchStep_row taken with
  | btch i act btch moved solution selected row =>
      refine ⟨undisturbed.1, fun other present => ?_⟩
      rcases List.mem_or_eq_of_mem_set present with old | rfl
      · exact undisturbed.2 other old
      · exact row.undisturbed (undisturbed.2 btch (List.mem_of_getElem? selected)).1

end Undisturbed

/-! ## A run that finds nothing -/

section EmptyHanded

variable {job : Job} {search : Search}

/-- Where batch `i` ends in the empty-handed run. -/
def Job.lastTried (job : Job) (i : Nat) : UInt64 :=
  if i = 0 ∧ job.n = 0 ∧ job.isValidSoln 0 = true then 0 else job.stop i

def Job.leftBtch (job : Job) (i : Nat) : Btch :=
  { job.btch i with trying := job.lastTried i, pc := .exited }

/-- All batches exist and the first `count` of them have left. -/
def Job.emptyHanded (job : Job) (count : Nat) : Search :=
  ⟨0, false, (List.range job.threadCount).map fun i =>
    if i < count then job.leftBtch i else job.btch i⟩

private theorem reach_spawned (job : Job) (count : Nat) (inCount : count ≤ job.threadCount) :
    Reachable (searchStep job) .initial ⟨0, false, (List.range count).map job.btch⟩ := by
  induction count with
  | zero => exact ReachableIf.here
  | succ count inductionHypothesis =>
      refine (inductionHypothesis (by omega)).advance .spawn ?_
      simp only [searchStep, List.length_map, List.length_range]
      rw [if_pos (by omega), List.range_succ, List.map_append]
      rfl

/-- The step is one of a batch that goes on. -/
def BtchRuns (_ : Search) (label : SearchAct) : Prop := ∃ i, label = .btch i .run

/-- A batch step that leaves the solution `0`, lifted to the search. -/
private theorem reach_btch (job : Job) (search : Search) (i : Nat) (btch moved : Btch)
    (nothing : search.solution = 0)
    (selected : search.btches[i]? = some btch)
    (moves : workBtch job search btch .run = some (moved, 0)) :
    ReachableIf (searchStep job) BtchRuns search
      { search with btches := search.btches.set i moved } := by
  apply ReachableIf.advance (.btch i .run) .here ⟨i, rfl⟩
  simp only [searchStep, selected, moves, nothing]

/-- A batch in its loop passes the test on `*solution`. -/
private theorem reach_guard (job : Job) (search : Search) (i : Nat) (btch : Btch)
    (nothing : search.solution = 0)
    (selected : search.btches[i]? = some btch) (atLoop : btch.pc = .loop) :
    ReachableIf (searchStep job) BtchRuns search
      { search with btches := search.btches.set i { btch with pc := .guard } } := by
  apply reach_btch job search i btch _ nothing selected
  simp [workBtch, atLoop, nothing]

/-- A batch short of its range end comes to the check of its next nonce. -/
private theorem reach_check (job : Job) (search : Search) (i : Nat) (btch : Btch)
    (nothing : search.solution = 0)
    (uncancelled : search.cancelled = false) (selected : search.btches[i]? = some btch)
    (atLoop : btch.pc = .loop) (ahead : ¬ btch.stop ≤ btch.trying) :
    ReachableIf (searchStep job) BtchRuns search
      { search with btches := search.btches.set i { btch with pc := .check } } := by
  have inside := (List.getElem?_eq_some_iff.mp selected).1
  apply (reach_guard job search i btch nothing selected atLoop).trans
  have passed := reach_btch job
        { search with btches := search.btches.set i { btch with pc := .guard } }
        i { btch with pc := .guard } { btch with pc := .check } nothing
    (List.getElem?_set_self inside) (by simp [workBtch, nothing, uncancelled, ahead])
  simpa only [List.set_set] using passed

/-- A batch whose remaining nonces are all invalid walks to its range end. -/
private theorem reach_exhausted (job : Job) (search : Search) (i remaining : Nat) (btch : Btch)
    (nothing : search.solution = 0) (uncancelled : search.cancelled = false)
    (selected : search.btches[i]? = some btch) (atLoop : btch.pc = .loop)
    (distance : btch.trying.toNat + remaining = btch.stop.toNat)
    (invalid : ∀ nonce : UInt64, btch.trying.toNat ≤ nonce.toNat →
      nonce.toNat < btch.stop.toNat → job.isValidSoln nonce = false) :
    ReachableIf (searchStep job) BtchRuns search { search with
      btches := search.btches.set i { btch with trying := btch.stop, pc := .exited } } := by
  have inside := (List.getElem?_eq_some_iff.mp selected).1
  induction remaining generalizing search btch with
  | zero =>
      have atStop : btch.trying = btch.stop := UInt64.toNat_inj.mp (by omega)
      apply (reach_guard job search i btch nothing selected atLoop).trans
      have finished := reach_btch job
        { search with btches := search.btches.set i { btch with pc := .guard } }
        i { btch with pc := .guard } { btch with trying := btch.stop, pc := .exited } nothing
        (List.getElem?_set_self inside) (by simp [workBtch, nothing, atStop])
      simpa only [List.set_set] using finished
  | succ remaining inductionHypothesis =>
      have room := le_uint64Max btch.stop
      have successor : (btch.trying + 1).toNat = btch.trying.toNat + 1 := by
        rw [UInt64.toNat_add]
        exact Nat.mod_eq_of_lt (by simp; omega)
      have ahead : ¬ btch.stop ≤ btch.trying := fun finished => by
        have := UInt64.le_iff_toNat_le.mp finished
        omega
      have rejects := invalid btch.trying (Nat.le_refl _) (by omega)
      apply (reach_check job search i btch nothing uncancelled selected atLoop ahead).trans
      -- the check rejects one nonce and the batch is back at its loop, one nonce further
      have rejected := reach_btch job
        { search with btches := search.btches.set i { btch with pc := .check } }
        i { btch with pc := .check } { btch with trying := btch.trying + 1, pc := .loop } nothing
        (List.getElem?_set_self inside) (by simp [workBtch, rejects, nothing])
      simp only [List.set_set] at rejected
      apply rejected.trans
      have onward := inductionHypothesis
        { search with
          btches := search.btches.set i { btch with trying := btch.trying + 1, pc := .loop } }
        { btch with trying := btch.trying + 1, pc := .loop } nothing uncancelled
        (List.getElem?_set_self inside) rfl (by simp only; omega)
        (fun nonce fromNext => invalid nonce (by simp only at fromNext; omega))
        (by simpa using inside)
      simpa only [List.set_set] using onward

/-- A batch that succeeds at nonce `0` leaves, having stored `0`. -/
private theorem reach_zeroStored (job : Job) (search : Search) (i : Nat) (btch : Btch)
    (nothing : search.solution = 0)
    (uncancelled : search.cancelled = false) (selected : search.btches[i]? = some btch)
    (atLoop : btch.pc = .loop) (atZero : btch.trying = 0) (nonempty : ¬ btch.stop ≤ 0)
    (valid : job.isValidSoln 0 = true) :
    ReachableIf (searchStep job) BtchRuns search
      { search with btches := search.btches.set i { btch with trying := 0, pc := .exited } } := by
  have inside := (List.getElem?_eq_some_iff.mp selected).1
  have ahead : ¬ btch.stop ≤ btch.trying := by
    rw [atZero]
    exact nonempty
  apply (reach_check job search i btch nothing uncancelled selected atLoop ahead).trans
  have accepted := reach_btch job
        { search with btches := search.btches.set i { btch with pc := .check } }
        i { btch with pc := .check } { btch with pc := .store } nothing
    (List.getElem?_set_self inside) (by simp [workBtch, atZero, valid, nothing])
  simp only [List.set_set] at accepted
  apply accepted.trans
  have stored := reach_btch job
        { search with btches := search.btches.set i { btch with pc := .store } }
        i { btch with pc := .store } { btch with trying := 0, pc := .exited } nothing
    (List.getElem?_set_self inside) (by simp [workBtch, atZero, nothing])
  simpa only [List.set_set] using stored

private theorem emptyHanded_select (job : Job) {count i : Nat} (inCount : i < job.threadCount)
    (pending : count ≤ i) : (job.emptyHanded count).btches[i]? = some (job.btch i) := by
  simp [Job.emptyHanded, inCount, Nat.not_lt.mpr pending]

private theorem emptyHanded_set (count : Nat) :
    (job.emptyHanded count).btches.set count (job.leftBtch count) =
      (job.emptyHanded (count + 1)).btches := by
  apply List.ext_getElem (by simp [Job.emptyHanded])
  intro i inside _
  have inCount : i < job.threadCount := by simpa [Job.emptyHanded] using inside
  by_cases same : count = i
  · subst same
    simp [Job.emptyHanded]
  · rw [List.getElem_set_ne same]
    simp only [Job.emptyHanded, List.getElem_map, List.getElem_range]
    by_cases before : i < count
    · rw [if_pos before, if_pos (by omega)]
    · rw [if_neg before, if_neg (by omega)]

/-- If no batch can record a nonce, the batches can all leave empty-handed. -/
theorem emptyHanded_of_unrecorded (positive : 0 < job.threadCount)
    (isInt : job.threadCount < 2 ^ 31) (unrecorded : ∀ nonce, ¬ job.Recordable nonce) (count : Nat)
    (inCount : count ≤ job.threadCount) :
    ReachableIf (searchStep job) BtchRuns (job.emptyHanded 0) (job.emptyHanded count) := by
  induction count with
  | zero => exact .here
  | succ count inductionHypothesis =>
      refine (inductionHypothesis (by omega)).trans ?_
      have selected := emptyHanded_select job (i := count) (by omega) (Nat.le_refl _)
      have target : { job.emptyHanded count with
          btches := (job.emptyHanded count).btches.set count (job.leftBtch count) } =
            job.emptyHanded (count + 1) := by
        rw [emptyHanded_set]
        rfl
      rw [← target]
      by_cases stuck : count = 0 ∧ job.n = 0 ∧ job.isValidSoln 0 = true
      · obtain ⟨rfl, n_zero, valid⟩ := stuck
        have start_zero : job.start 0 = 0 := by simp [Job.start, n_zero]
        have wide : 0 < (job.stop 0).toNat := by
          rw [toNat_stop job isInt positive, toNat_chunk job isInt, n_zero]
          split
          · omega
          · have room : job.threadCount ≤ 2 ^ 64 - 1 := by omega
            rw [UInt64.toNat_zero, Nat.sub_zero, Nat.zero_add, Nat.zero_add, Nat.one_mul]
            exact Nat.div_pos room positive
        have left : job.leftBtch 0 = { job.btch 0 with trying := 0, pc := .exited } := by
          simp [Job.leftBtch, Job.lastTried, n_zero, valid]
        rw [left]
        apply reach_zeroStored job _ 0 _ rfl rfl selected rfl start_zero _ valid
        intro empty
        have := UInt64.le_iff_toNat_le.mp empty
        simp only [Job.btch, UInt64.toNat_zero] at this
        omega
      · have left : job.leftBtch count =
            { job.btch count with trying := job.stop count, pc := .exited } := by
          simp [Job.leftBtch, Job.lastTried, stuck]
        rw [left]
        have ordered := start_le_stop job isInt (i := count) (by omega)
        apply reach_exhausted job _ count ((job.stop count).toNat - (job.start count).toNat) _
          rfl rfl selected rfl (by simp only [Job.btch]; omega)
        intro nonce fromStart beforeStop
        simp only [Job.btch] at fromStart beforeStop
        by_contra valid
        apply unrecorded nonce
        have stopBound := le_uint64Max (job.stop count)
        have base := toNat_start job isInt (i := count) (by omega)
        refine ⟨UInt64.le_iff_toNat_le.mpr (by omega),
          UInt64.lt_iff_toNat_lt.mpr (by rw [toNat_uint64Max]; omega), by simpa using valid,
          fun n_zero zeroValid => ?_⟩
        -- the first batch is stuck at `0`, so this is a later one and starts past its range
        have later : count ≠ 0 := fun first => stuck ⟨first, n_zero, zeroValid⟩
        apply UInt64.le_iff_toNat_le.mpr
        rw [toNat_stop job isInt positive, if_neg (by omega)]
        have chunks : 1 * job.chunk.toNat ≤ count * job.chunk.toNat :=
          Nat.mul_le_mul_right _ (by omega)
        omega

theorem reach_emptyHanded (positive : 0 < job.threadCount) (isInt : job.threadCount < 2 ^ 31)
    (unrecorded : ∀ nonce, ¬ job.Recordable nonce) :
    Reachable (searchStep job) .initial (job.emptyHanded job.threadCount) := by
  have spawned : Reachable (searchStep job) .initial (job.emptyHanded 0) := by
    simpa [Job.emptyHanded] using reach_spawned job job.threadCount (Nat.le_refl _)
  have left := emptyHanded_of_unrecorded positive isInt unrecorded _ (Nat.le_refl _)
  exact spawned.trans left.reachable

end EmptyHanded

/-! ## The exact condition -/

/-- Every search that ends uncancelled and without a solution proves that no
nonce from `n` on is valid, if and only if the job is conclusive. -/
theorem failed_search_conclusive_iff (job : Job) (positive : 0 < job.threadCount)
    (isInt : job.threadCount < 2 ^ 31) :
    job.FailureConclusive ↔ job.Conclusive := by
  constructor
  · intro conclusive
    by_cases recordable : ∃ nonce, job.Recordable nonce
    · exact Or.inr recordable
    · refine Or.inl (conclusive (job.emptyHanded job.threadCount) ?_ ?_ ?_ rfl)
      · exact reach_emptyHanded positive isInt (not_exists.mp recordable)
      · refine ⟨by simp [Job.emptyHanded], fun btch present => Or.inl ?_⟩
        obtain ⟨i, inCount, rfl⟩ := List.mem_map.mp present
        rw [if_pos (List.mem_range.mp inCount)]
        rfl
      · refine ⟨rfl, fun btch present => ?_⟩
        obtain ⟨i, inCount, rfl⟩ := List.mem_map.mp present
        rw [if_pos (List.mem_range.mp inCount)]
        nofun
  · rintro (invalid | ⟨nonce, recordable⟩) search reached ended uncancelled nothing
    · exact invalid
    · exact absurd nothing (solution_ne_zero_of_recordable positive isInt recordable
        (searchInv_of_reachable isInt reached) ended uncancelled)

/-- Two batches from nonce `5` on, where only nonce `7` is valid. -/
def sevenJob : Job := ⟨5, 2, (· == 7), fun _ => []⟩

theorem failed_search_conclusive_seven : sevenJob.FailureConclusive :=
  (failed_search_conclusive_iff sevenJob (by decide) (by decide)).mpr
    (Or.inr ⟨7, by decide, by decide, by decide, by decide⟩)

/-- One batch from `UINT64_MAX` on, with a target that every hash meets. -/
def topJob : Job := ⟨uint64Max, 1, fun _ => true, fun _ => []⟩

/-- The only batch of `topJob` has an empty range and leaves at once: the one
nonce there is goes untried. -/
theorem failed_search_skips_uint64Max : ¬ topJob.FailureConclusive := by
  intro conclusive
  obtain ⟨search, reached, finished⟩ := exists_reachable_of_run (searchStep topJob) .initial
    [.spawn, .btch 0 .run, .btch 0 .run]
    (fun search => decide (search.AllEnded topJob ∧ search.NoneCancelled ∧ search.solution = 0))
    (by decide)
  obtain ⟨ended, uncancelled, nothing⟩ := of_decide_eq_true finished
  have rejected := conclusive search reached ended uncancelled nothing uint64Max (by decide)
  exact Bool.noConfusion rejected

end BitcoinServer.Work
