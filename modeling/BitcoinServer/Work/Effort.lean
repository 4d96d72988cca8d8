import BitcoinServer.Work.Conclusive
import BitcoinServer.Work.Partition
import Mathlib.Algebra.BigOperators.Group.Finset.Basic
import Mathlib.Algebra.Order.BigOperators.Group.Finset

/-!
Contract: the work that a search does, and no more.

Owns the nonces on which a run of the batches evaluates `is_valid_soln`, whichever way the
batches are scheduled: none twice, since a batch goes up through a range that no other batch has,
and all of them where nothing has been found or stopped. What a batch has left to do goes down
with each of its steps, so that no schedule keeps the batches busy for ever.
-/

namespace BitcoinServer.Work

open Transition

def SearchAct.isBtch : SearchAct → Bool
  | .btch _ _ => true
  | _ => false

/-- Batch `i`, as it will be created where there is none yet. -/
def Search.btchAt (job : Job) (search : Search) (i : Nat) : Btch :=
  search.btches[i]?.getD (job.btch i)

/-- The nonce on which a step of a batch evaluates `is_valid_soln`. -/
def Btch.tests (btch : Btch) : BtchAct → List UInt64
  | .run => if btch.pc = .check then [btch.trying] else []
  | .cancel => []

def Search.tests (job : Job) (search : Search) : SearchAct → List UInt64
  | .btch i act => (search.btchAt job i).tests act
  | _ => []

/-- The nonces on which a run evaluates `is_valid_soln`, in the order of the run. -/
def tested (job : Job) : Search → List SearchAct → List UInt64
  | _, [] => []
  | search, label :: labels =>
      match searchStep job search label with
      | none => []
      | some next => search.tests job label ++ tested job next labels

/-- The first nonce that a batch may still test; its end where it tests none any more. -/
def Btch.next (btch : Btch) : Nat :=
  match btch.pc with
  | .loop | .guard | .check => btch.trying.toNat
  | .store | .exited | .cancelled => btch.stop.toNat

/-- A bound on the steps that a batch can still take: three for each nonce ahead of it. -/
def Btch.steps (btch : Btch) : Nat :=
  match btch.pc with
  | .loop => 3 * (btch.stop.toNat - btch.trying.toNat) + 2
  | .guard => 3 * (btch.stop.toNat - btch.trying.toNat) + 1
  | .check => 3 * (btch.stop.toNat - btch.trying.toNat)
  | .store => 1
  | .exited | .cancelled => 0

/-! ## One batch -/

section Row

variable {job : Job} {search : Search} {i : Nat} {btch moved : Btch} {act : BtchAct}
  {solution : UInt64}

theorem toNat_succ_of_inside (holds : BtchInv job search i btch) (atCheck : btch.pc = .check) :
    (btch.trying + 1).toNat = btch.trying.toNat + 1 := by
  have ahead := holds.inside (Or.inl atCheck)
  have room := le_uint64Max btch.stop
  rw [UInt64.toNat_add]
  exact Nat.mod_eq_of_lt (by simp; omega)

/-- A batch steps to the next nonce just where it has tested one and rejected it. -/
theorem BtchRow.trying (row : BtchRow job search btch act moved solution)
    (holds : BtchInv job search i btch) :
    moved.trying = btch.trying ∨
      (btch.tests act = [btch.trying] ∧ moved.trying.toNat = btch.trying.toNat + 1) := by
  cases row with
  | reject atCheck invalid =>
      exact Or.inr ⟨if_pos atCheck, toNat_succ_of_inside holds atCheck⟩
  | _ => exact Or.inl rfl

/-- A batch never goes back, and passes each nonce that it tests. -/
theorem BtchRow.next_le (row : BtchRow job search btch act moved solution)
    (holds : BtchInv job search i btch) : btch.next ≤ moved.next := by
  have inRange := holds.to_stop
  cases row with
  | reject atCheck invalid =>
      simp only [Btch.next, atCheck, toNat_succ_of_inside holds atCheck]
      omega
  | loopOn at_ | loopOut at_ | guardOn at_ | guardOut at_ | accept at_ | store at_
  | storeLate at_ | cancel at_ =>
      simp only [Btch.next, at_]
      omega

theorem BtchRow.tests (row : BtchRow job search btch act moved solution)
    (holds : BtchInv job search i btch) :
    btch.tests act = [] ∨
      (btch.tests act = [btch.trying] ∧ btch.next = btch.trying.toNat ∧
        btch.trying.toNat < btch.stop.toNat ∧ btch.trying.toNat < moved.next) := by
  by_cases atCheck : btch.pc = .check
  · cases act with
    | cancel => exact Or.inl rfl
    | run =>
        have ahead := holds.inside (Or.inl atCheck)
        refine Or.inr ⟨if_pos atCheck, by simp only [Btch.next, atCheck], ahead, ?_⟩
        cases row with
        | accept =>
            simp only [Btch.next]
            exact ahead
        | reject =>
            simp only [Btch.next, toNat_succ_of_inside holds atCheck]
            omega
        | loopOn at_ | loopOut at_ | guardOn at_ | guardOut at_ | store at_ | storeLate at_ =>
            rw [atCheck] at at_
            cases at_
  · left
    cases act with
    | run => exact if_neg atCheck
    | cancel => rfl

theorem BtchInv.start_le_next (holds : BtchInv job search i btch) :
    (job.start i).toNat ≤ btch.next := by
  have fromStart := holds.from_start
  have inRange := holds.to_stop
  rw [holds.start_eq] at fromStart
  unfold Btch.next
  split <;> omega

/-- Every step of a batch leaves it less to do. -/
theorem BtchRow.steps_lt (row : BtchRow job search btch act moved solution)
    (holds : BtchInv job search i btch) : moved.steps < btch.steps := by
  have inside := holds.inside
  cases row with
  | accept atCheck | cancel atCheck =>
      have ahead := inside (Or.inl atCheck)
      simp only [Btch.steps, atCheck]
      omega
  | reject atCheck invalid =>
      have ahead := inside (Or.inl atCheck)
      simp only [Btch.steps, atCheck, toNat_succ_of_inside holds atCheck]
      omega
  | loopOn at_ | loopOut at_ | guardOn at_ | guardOut at_ | store at_ | storeLate at_ =>
      simp only [Btch.steps, at_]
      omega

end Row

/-! ## All batches -/

section Step

variable {job : Job} {search next : Search} {label : SearchAct}

theorem btchInv_btchAt (isInt : job.threadCount < 2 ^ 31) (holds : SearchInv job search) {i : Nat}
    (inCount : i < job.threadCount) : BtchInv job search i (search.btchAt job i) := by
  unfold Search.btchAt
  cases present : search.btches[i]? with
  | none => exact btchInv_spawn isInt inCount
  | some btch => exact holds.btch i btch present

theorem btchAt_of_selected {i : Nat} {btch : Btch} (selected : search.btches[i]? = some btch) :
    search.btchAt job i = btch := by
  rw [Search.btchAt, selected, Option.getD_some]

/-- A batch is created as `btchAt` has it before. -/
theorem btchAt_spawn (job : Job) (search : Search) (j : Nat) :
    Search.btchAt job
      { search with btches := search.btches ++ [job.btch search.btches.length] } j =
        search.btchAt job j := by
  unfold Search.btchAt
  rcases Nat.lt_trichotomy j search.btches.length with old | rfl | later
  · rw [List.getElem?_append_left old]
  · simp
  · rw [List.getElem?_append_right (Nat.le_of_lt later),
      List.getElem?_eq_none (Nat.le_of_lt later), List.getElem?_eq_none]
    simp only [List.length_singleton]
    omega

/-- A step moves one batch by a row of its own, or leaves all of them where they are. -/
theorem btchAt_step (holds : SearchInv job search)
    (taken : searchStep job search label = some next) :
    (∃ i < job.threadCount, ∃ act solution, label = .btch i act ∧
      BtchRow job search (search.btchAt job i) act (next.btchAt job i) solution ∧
      ∀ j, j ≠ i → next.btchAt job j = search.btchAt job j) ∨
    (label.isBtch = false ∧
      ∀ j, ∃ sent, next.btchAt job j = { search.btchAt job j with cancelSent := sent }) := by
  cases searchStep_row taken with
  | spawn room =>
      exact Or.inr ⟨rfl, fun j => ⟨(search.btchAt job j).cancelSent, btchAt_spawn job search j⟩⟩
  | btch i act btch moved solution selected row =>
      have inside : i < search.btches.length := (List.getElem?_eq_some_iff.mp selected).1
      refine Or.inl ⟨i, Nat.lt_of_lt_of_le inside holds.count, act, solution, rfl, ?_, ?_⟩
      · rw [btchAt_of_selected selected]
        simpa [Search.btchAt, inside] using row
      · intro j other
        simp only [Search.btchAt, List.getElem?_set_ne (Ne.symm other)]
  | setCancelled => exact Or.inr ⟨rfl, fun j => ⟨(search.btchAt job j).cancelSent, rfl⟩⟩
  | cancelBtch i btch selected =>
      have inside : i < search.btches.length := (List.getElem?_eq_some_iff.mp selected).1
      refine Or.inr ⟨rfl, fun j => ?_⟩
      by_cases same : j = i
      · subst same
        rw [btchAt_of_selected selected]
        exact ⟨true, by simp [Search.btchAt, inside]⟩
      · refine ⟨(search.btchAt job j).cancelSent, ?_⟩
        simp only [Search.btchAt, List.getElem?_set_ne (Ne.symm same)]

/-- Batch `i` steps to the next nonce just where a step of it has tested one. -/
theorem trying_of_step (isInt : job.threadCount < 2 ^ 31) (holds : SearchInv job search)
    (taken : searchStep job search label = some next) {i : Nat} (inCount : i < job.threadCount) :
    (next.btchAt job i).trying = (search.btchAt job i).trying ∨
      (search.tests job label = [(search.btchAt job i).trying] ∧
        (next.btchAt job i).trying.toNat = (search.btchAt job i).trying.toNat + 1) := by
  rcases btchAt_step holds taken with ⟨mover, _, act, solution, rfl, row, rest⟩ | ⟨_, still⟩
  · by_cases same : i = mover
    · subst same
      exact row.trying (btchInv_btchAt isInt holds inCount)
    · exact Or.inl (congrArg Btch.trying (rest i same))
  · obtain ⟨sent, unmoved⟩ := still i
    left
    rw [unmoved]

theorem tests_of_isBtch (still : label.isBtch = false) : search.tests job label = [] := by
  cases label with
  | btch i act => cases still
  | _ => rfl

/-- A step that does not move batch `i` leaves it where it is. -/
theorem next_le_of_step (isInt : job.threadCount < 2 ^ 31) (holds : SearchInv job search)
    (taken : searchStep job search label = some next) {i : Nat} (inCount : i < job.threadCount) :
    (search.btchAt job i).next ≤ (next.btchAt job i).next := by
  rcases btchAt_step holds taken with ⟨mover, _, act, solution, _, row, rest⟩ | ⟨_, still⟩
  · by_cases same : i = mover
    · subst same
      exact row.next_le (btchInv_btchAt isInt holds inCount)
    · rw [rest i same]
  · obtain ⟨sent, unmoved⟩ := still i
    rw [unmoved]
    exact Nat.le_refl _

/-- A nonce that a step tests was ahead of one batch, and no longer is. -/
theorem tests_step (isInt : job.threadCount < 2 ^ 31) (holds : SearchInv job search)
    (taken : searchStep job search label = some next) :
    search.tests job label = [] ∨
      ∃ nonce, search.tests job label = [nonce] ∧ ∃ i < job.threadCount,
        (search.btchAt job i).next = nonce.toNat ∧ nonce.toNat < (job.stop i).toNat ∧
          nonce.toNat < (next.btchAt job i).next := by
  rcases btchAt_step holds taken with ⟨i, inCount, act, solution, rfl, row, _⟩ | ⟨still, _⟩
  · have own := btchInv_btchAt isInt holds inCount
    rcases row.tests own with nothing | ⟨testing, ahead, inside, passed⟩
    · exact Or.inl nothing
    · exact Or.inr ⟨_, testing, i, inCount, ahead, own.stop_eq ▸ inside, passed⟩
  · exact Or.inl (tests_of_isBtch still)

/-- Whatever a run tests lies ahead of some batch, and is tested once. -/
theorem tested_ahead (isInt : job.threadCount < 2 ^ 31) (labels : List SearchAct) {search : Search}
    (holds : SearchInv job search) :
    (∀ nonce ∈ tested job search labels, ∃ i < job.threadCount,
      (search.btchAt job i).next ≤ nonce.toNat ∧ nonce.toNat < (job.stop i).toNat) ∧
    (tested job search labels).Nodup := by
  induction labels generalizing search with
  | nil => exact ⟨nofun, List.nodup_nil⟩
  | cons label labels inductionHypothesis =>
      cases taken : searchStep job search label with
      | none => simp [tested, taken]
      | some next =>
          have after := holds.step isInt taken
          obtain ⟨ahead, once⟩ := inductionHypothesis after
          have still : ∀ nonce ∈ tested job next labels, ∃ i < job.threadCount,
              (search.btchAt job i).next ≤ nonce.toNat ∧ nonce.toNat < (job.stop i).toNat := by
            intro nonce member
            obtain ⟨i, inCount, atLeast, below⟩ := ahead nonce member
            exact ⟨i, inCount,
              Nat.le_trans (next_le_of_step isInt holds taken inCount) atLeast, below⟩
          simp only [tested, taken]
          rcases tests_step isInt holds taken with
            nothing | ⟨first, testing, i, inCount, atNext, inRange, passed⟩
          · rw [nothing, List.nil_append]
            exact ⟨still, once⟩
          rw [testing, List.singleton_append]
          constructor
          · intro nonce member
            rcases List.mem_cons.mp member with rfl | later
            · exact ⟨i, inCount, Nat.le_of_eq atNext, inRange⟩
            · exact still nonce later
          · refine List.nodup_cons.mpr ⟨fun again => ?_, once⟩
            -- The batch that tested it is past it, and no other batch has it in its range.
            obtain ⟨j, jCount, atLeast, below⟩ := ahead first again
            by_cases same : j = i
            · subst same
              omega
            · have own := (btchInv_btchAt isInt holds inCount).start_le_next
              have other := (btchInv_btchAt isInt after jCount).start_le_next
              rcases Nat.lt_or_gt_of_ne same with before | behind
              · have apart := stop_le_start isInt before inCount
                omega
              · have apart := stop_le_start isInt behind jCount
                omega

/-- The nonces that a batch has passed in the course of a run have been tested in it. -/
theorem mem_tested (isInt : job.threadCount < 2 ^ 31) {labels : List SearchAct}
    {search final : Search} (holds : SearchInv job search)
    (ran : run (searchStep job) search labels = some final) {i : Nat}
    (inCount : i < job.threadCount) {nonce : UInt64}
    (atLeast : (search.btchAt job i).trying.toNat ≤ nonce.toNat)
    (passed : nonce.toNat < (final.btchAt job i).trying.toNat) :
    nonce ∈ tested job search labels := by
  induction labels generalizing search with
  | nil =>
      obtain rfl : search = final := by simpa [run, runIf] using ran
      omega
  | cons label labels inductionHypothesis =>
      obtain ⟨middle, taken, rest⟩ := run_cons ran
      simp only [tested, taken, List.mem_append]
      have later := inductionHypothesis (holds.step isInt taken) rest
      rcases trying_of_step isInt holds taken inCount with same | ⟨testing, successor⟩
      · exact Or.inr (later (same ▸ atLeast))
      · by_cases first : nonce = (search.btchAt job i).trying
        · rw [testing, first]
          exact Or.inl (List.mem_singleton.mpr rfl)
        · have different : nonce.toNat ≠ (search.btchAt job i).trying.toNat :=
            fun equal => first (UInt64.toNat_inj.mp equal)
          exact Or.inr (later (by omega))

/-- What the batches have left to do, created or not. -/
def Search.steps (job : Job) (search : Search) : Nat :=
  ∑ i ∈ Finset.range job.threadCount, (search.btchAt job i).steps

theorem steps_step (isInt : job.threadCount < 2 ^ 31) (holds : SearchInv job search)
    (taken : searchStep job search label = some next) :
    next.steps job + (if label.isBtch then 1 else 0) ≤ search.steps job := by
  rcases btchAt_step holds taken with ⟨i, inCount, act, solution, rfl, row, rest⟩ | ⟨still, kept⟩
  · have less := row.steps_lt (btchInv_btchAt isInt holds inCount)
    show next.steps job < search.steps job
    refine Finset.sum_lt_sum (fun j _ => ?_) ⟨i, Finset.mem_range.mpr inCount, less⟩
    by_cases same : j = i
    · subst same
      exact Nat.le_of_lt less
    · rw [rest j same]
  · rw [still, if_neg Bool.false_ne_true, Nat.add_zero]
    refine Finset.sum_le_sum fun j _ => ?_
    obtain ⟨sent, unmoved⟩ := kept j
    rw [unmoved]
    exact Nat.le_refl _

/-- The ranges before batch `i` fill up the nonces from `n` to where it starts. -/
theorem sum_steps_initial (isInt : job.threadCount < 2 ^ 31) {i : Nat}
    (inCount : i < job.threadCount) :
    (∑ j ∈ Finset.range i, (Search.initial.btchAt job j).steps) + 3 * job.n.toNat =
      3 * (job.start i).toNat + 2 * i := by
  induction i with
  | zero => simp [toNat_start job isInt (Nat.zero_le _)]
  | succ i inductionHypothesis =>
      have before := inductionHypothesis (by omega)
      have ordered := start_le_stop job isInt (i := i) (by omega)
      have own : (Search.initial.btchAt job i).steps =
          3 * ((job.stop i).toNat - (job.start i).toNat) + 2 := rfl
      rw [Finset.sum_range_succ, ← stop_eq_start_succ inCount, own]
      omega

theorem steps_initial (positive : 0 < job.threadCount) (isInt : job.threadCount < 2 ^ 31) :
    Search.initial.steps job = 3 * (2 ^ 64 - 1 - job.n.toNat) + 2 * job.threadCount := by
  obtain ⟨last, count⟩ : ∃ last, job.threadCount = last + 1 := ⟨job.threadCount - 1, by omega⟩
  have before := sum_steps_initial isInt (i := last) (by omega)
  have ordered := start_le_stop job isInt (i := last) (by omega)
  have own : (Search.initial.btchAt job last).steps =
      3 * ((job.stop last).toNat - (job.start last).toNat) + 2 := rfl
  have lowest := le_start isInt (i := last) (by omega)
  rw [toNat_stop job isInt (by omega), if_pos count.symm] at own ordered
  rw [Search.steps, count, Finset.sum_range_succ, own]
  omega

end Step

/-- However the batches are scheduled, no nonce is tested twice and none outside the search
space, and the batches take no more steps than three for each nonce and two for each batch; a
search that nothing stopped and that found nothing has tested every nonce, unless a success at
nonce `0` ended the first batch. -/
theorem search_effort (job : Job) (positive : 0 < job.threadCount)
    (isInt : job.threadCount < 2 ^ 31) {labels : List SearchAct} {search : Search}
    (ran : run (searchStep job) .initial labels = some search) :
    (tested job .initial labels).Nodup ∧
    (∀ nonce ∈ tested job .initial labels, job.n ≤ nonce ∧ nonce < uint64Max) ∧
    labels.countP SearchAct.isBtch ≤
      3 * (2 ^ 64 - 1 - job.n.toNat) + 2 * job.threadCount ∧
    (search.AllEnded job → search.NoneCancelled → search.solution = 0 →
      ¬ (job.n = 0 ∧ job.isValidSoln 0 = true) →
        ∀ nonce, job.n ≤ nonce → nonce < uint64Max → nonce ∈ tested job .initial labels) := by
  obtain ⟨ahead, once⟩ := tested_ahead isInt labels searchInv_initial
  refine ⟨once, ?_, ?_, ?_⟩
  · intro nonce member
    obtain ⟨i, inCount, atLeast, below⟩ := ahead nonce member
    have start := (btchInv_btchAt isInt searchInv_initial inCount).start_le_next
    have lowest := le_start isInt inCount
    have highest := le_uint64Max (job.stop i)
    refine ⟨UInt64.le_iff_toNat_le.mpr (by omega), UInt64.lt_iff_toNat_lt.mpr ?_⟩
    rw [toNat_uint64Max]
    omega
  · have bound := countP_add_measure_le SearchAct.isBtch
      (fun _ _ _ holds taken => holds.step isInt taken)
      (fun _ _ _ holds taken => steps_step isInt holds taken) searchInv_initial ran
    rw [steps_initial positive isInt] at bound
    omega
  · intro ended uncancelled nothing noZero nonce atLeast below
    obtain ⟨i, inCount, fromStart, beforeStop⟩ := exists_range job positive isInt
      (UInt64.le_iff_toNat_le.mp atLeast) (UInt64.lt_iff_toNat_lt.mp below)
    have inside : i < search.btches.length := ended.1 ▸ inCount
    have present : search.btchAt job i = search.btches[i] := by
      simp [Search.btchAt, inside]
    have member := List.getElem_mem inside
    have exited := (ended.2 _ member).resolve_right (uncancelled.2 _ member)
    have own := (searchInv_of_reachable isInt (reachableIf_of_runIf (fun _ _ _ => True.intro)
      ran)).btch i _ (List.getElem?_eq_getElem inside)
    apply mem_tested isInt searchInv_initial ran inCount fromStart
    rcases range_tried positive isInt inCount own exited uncancelled.1 nothing with
      finished | ⟨_, zeroStart, zeroValid⟩
    · rw [present, finished]
      exact beforeStop
    · exact absurd ⟨zeroStart, zeroValid⟩ noZero

/-- Two batches for the last three nonces, none of them valid. -/
def hopelessJob : Job := ⟨uint64Max - 3, 2, fun _ => false, fun _ => []⟩

/-- Both batches to their end, in as many steps as the bound allows. -/
def hopelessRun : List SearchAct :=
  [.spawn, .spawn] ++ List.replicate 5 (.btch 0 .run) ++ List.replicate 8 (.btch 1 .run)

/-- The first batch of `sevenJob` tests three nonces, in nine steps; the batches of `hopelessJob`
test every nonce. -/
theorem search_effort_runs :
    (tested sevenJob .initial (.spawn :: List.replicate 9 (.btch 0 .run))).Nodup ∧
      tested sevenJob .initial (.spawn :: List.replicate 9 (.btch 0 .run)) = [5, 6, 7] ∧
      hopelessRun.countP SearchAct.isBtch = 3 * 3 + 2 * 2 ∧
      ∀ nonce, uint64Max - 3 ≤ nonce → nonce < uint64Max →
        nonce ∈ tested hopelessJob .initial hopelessRun := by
  obtain ⟨search, ran⟩ : ∃ search, run (searchStep sevenJob) .initial
      (.spawn :: List.replicate 9 (.btch 0 .run)) = some search :=
    Option.isSome_iff_exists.mp (by decide)
  have passed : ((run (searchStep hopelessJob) .initial hopelessRun).any fun search => decide
      (search.AllEnded hopelessJob ∧ search.NoneCancelled ∧ search.solution = 0)) = true := by
    decide
  obtain ⟨failed, ranOut, finished⟩ := (Option.any_eq_true _ _).mp passed
  obtain ⟨ended, uncancelled, nothing⟩ := of_decide_eq_true finished
  exact ⟨(search_effort sevenJob (by decide) (by decide) ran).1, by decide, by decide,
    (search_effort hopelessJob (by decide) (by decide) ranOut).2.2.2 ended uncancelled nothing
      (by decide)⟩

end BitcoinServer.Work
