import BitcoinServer.Work.Conclusive
import Mathlib.Order.Bounds.Defs

/-!
Contract: what a solution that the search reports stands for.

Owns the history of the shared `solution`: which batch stored it, that it is the
least valid nonce of that batch's range, and that nothing overwrites it.
-/

namespace BitcoinServer.Work

open Transition

/-- The valid nonces of the range of batch `i`. -/
def Job.validIn (job : Job) (i : Nat) : Set UInt64 :=
  { nonce | job.start i ≤ nonce ∧ nonce < job.stop i ∧ job.isValidSoln nonce = true }

/-- The valid nonces from the start nonce on. -/
def Job.validFrom (job : Job) : Set UInt64 :=
  { nonce | job.n ≤ nonce ∧ job.isValidSoln nonce = true }

/-- The solution of `search` is the one that batch `i` stored when there was none. -/
def StoredBy (job : Job) (i : Nat) (search : Search) : Prop :=
  ∃ before after, Reachable (searchStep job) .initial before ∧ before.solution = 0 ∧
    searchStep job before (.btch i .run) = some after ∧ after.solution = search.solution ∧
      Reachable (searchStep job) after search

section Stores

variable {job : Job} {search next : Search} {label : SearchAct}

/-- Only a batch makes the solution nonzero, and it takes the least valid nonce of its
range. -/
theorem SearchInv.stores (holds : SearchInv job search) (nothing : search.solution = 0)
    (taken : searchStep job search label = some next) (nonzero : next.solution ≠ 0) :
    ∃ i < job.threadCount, label = .btch i .run ∧ IsLeast (job.validIn i) next.solution := by
  cases searchStep_row taken with
  | btch i act btch moved solution selected row =>
      have inside : i < search.btches.length := (List.getElem?_eq_some_iff.mp selected).1
      obtain ⟨rfl, fromStart, beforeStop, valid, least⟩ :=
        row.stores (holds.btch i btch selected) nothing nonzero
      refine ⟨i, Nat.lt_of_lt_of_le inside holds.count, rfl,
        ⟨UInt64.le_iff_toNat_le.mpr fromStart, UInt64.lt_iff_toNat_lt.mpr beforeStop, valid⟩, ?_⟩
      rintro nonce ⟨atLeast, _, nonceValid⟩
      apply UInt64.le_iff_toNat_le.mpr
      by_contra smaller
      have rejected := least nonce (UInt64.le_iff_toNat_le.mp atLeast) (Nat.lt_of_not_le smaller)
      exact Bool.noConfusion (nonceValid.symm.trans rejected)
  | _ => exact absurd nothing nonzero

/-- Every solution has been stored by a batch that found it first in its own range. -/
theorem storedBy_of_reachable (isInt : job.threadCount < 2 ^ 31)
    (reached : Reachable (searchStep job) .initial search) (nonzero : search.solution ≠ 0) :
    ∃ i < job.threadCount, StoredBy job i search ∧ IsLeast (job.validIn i) search.solution := by
  suffices history : search.solution ≠ 0 → ∃ i < job.threadCount, StoredBy job i search ∧
      IsLeast (job.validIn i) search.solution from history nonzero
  apply ReachableIf.invariant ?_ ?_ reached
  · exact fun nonzero => absurd rfl nonzero
  intro source label target reachedSource history _ taken nonzero
  by_cases nothing : source.solution = 0
  · obtain ⟨i, inCount, rfl, least⟩ :=
      (searchInv_of_reachable isInt reachedSource.reachable).stores nothing taken nonzero
    exact ⟨i, inCount, ⟨source, target, reachedSource, nothing, taken, rfl, .here⟩, least⟩
  · have kept := searchStep_keeps_solution taken nothing
    obtain ⟨i, inCount, ⟨before, after, reachedBefore, empty, stored, same, onward⟩, least⟩ :=
      history nothing
    refine ⟨i, inCount, ⟨before, after, reachedBefore, empty, stored, same.trans kept.symm,
      onward.advance label taken⟩, ?_⟩
    rw [kept]
    exact least

/-- A solution is never overwritten. -/
theorem solution_kept {later : Search} (nonzero : search.solution ≠ 0)
    (onward : Reachable (searchStep job) search later) : later.solution = search.solution := by
  apply onward.invariant ?_ ?_
  · rfl
  · intro source label target same taken
    exact (searchStep_keeps_solution taken (same ▸ nonzero)).trans same

end Stores

/-- The ranges of the batches lie between the start nonce and `UINT64_MAX`. -/
theorem range_within (job : Job) (isInt : job.threadCount < 2 ^ 31) {i : Nat}
    (inCount : i < job.threadCount) {nonce : UInt64} (inRange : nonce ∈ job.validIn i) :
    job.n ≤ nonce ∧ nonce < uint64Max := by
  obtain ⟨fromStart, beforeStop, _⟩ := inRange
  have start := toNat_start job isInt (Nat.le_of_lt inCount)
  have stop := le_uint64Max (job.stop i)
  have lower := UInt64.le_iff_toNat_le.mp fromStart
  have upper := UInt64.lt_iff_toNat_lt.mp beforeStop
  refine ⟨UInt64.le_iff_toNat_le.mpr ?_, UInt64.lt_iff_toNat_lt.mpr ?_⟩
  · omega
  · rw [toNat_uint64Max]
    omega

/-- The one batch of a job with one thread has the whole range. -/
theorem isLeast_validFrom (job : Job) (single : job.threadCount = 1) {i : Nat}
    (inCount : i < job.threadCount) {solution : UInt64}
    (least : IsLeast (job.validIn i) solution) : IsLeast job.validFrom solution := by
  have isInt : job.threadCount < 2 ^ 31 := by omega
  have within := range_within job isInt inCount least.1
  refine ⟨⟨within.1, least.1.2.2⟩, ?_⟩
  rintro nonce ⟨atLeast, valid⟩
  have first : i = 0 := by omega
  subst first
  have start : job.start 0 = job.n := by
    apply UInt64.toNat_inj.mp
    rw [toNat_start job isInt (Nat.zero_le _), Nat.zero_mul, Nat.add_zero]
  have stop : job.stop 0 = uint64Max := if_pos single.symm
  by_cases below : nonce < uint64Max
  · exact least.2 ⟨start.symm ▸ atLeast, stop.symm ▸ below, valid⟩
  · exact UInt64.le_of_lt (UInt64.lt_of_lt_of_le within.2 (UInt64.not_lt.mp below))

/-- The search is safe under every schedule of its batches. -/
theorem solution_safe (job : Job) (isInt : job.threadCount < 2 ^ 31) {search : Search}
    (reached : Reachable (searchStep job) .initial search) :
    search.solution = 0 ∨
      job.isValidSoln search.solution = true ∧
      (job.n ≤ search.solution ∧ search.solution < uint64Max) ∧
      (∃ i < job.threadCount, StoredBy job i search ∧ IsLeast (job.validIn i) search.solution) ∧
      (∀ later, Reachable (searchStep job) search later → later.solution = search.solution) ∧
      (job.threadCount = 1 → IsLeast job.validFrom search.solution) := by
  by_cases nothing : search.solution = 0
  · exact Or.inl nothing
  · obtain ⟨i, inCount, stored, least⟩ := storedBy_of_reachable isInt reached nothing
    refine Or.inr ⟨least.1.2.2, range_within job isInt inCount least.1,
      ⟨i, inCount, stored, least⟩, ?_, ?_⟩
    · exact fun later onward => solution_kept nothing onward
    · exact fun single => isLeast_validFrom job single inCount least

/-- The first batch of `sevenJob` stores nonce `7`. -/
theorem solution_safe_seven : ∃ search, search.solution = 7 ∧
    ∃ i < 2, StoredBy sevenJob i search ∧ IsLeast (sevenJob.validIn i) 7 := by
  obtain ⟨search, reached, passed⟩ := exists_reachable_of_run (searchStep sevenJob) .initial
    (.spawn :: .spawn :: List.replicate 10 (.btch 0 .run))
    (fun search => decide (search.solution = 7)) (by decide)
  have seven : search.solution = 7 := of_decide_eq_true passed
  rcases solution_safe sevenJob (by decide) reached with nothing | ⟨_, _, stored, _⟩
  · rw [seven] at nothing
    contradiction
  · exact ⟨search, seven, seven ▸ stored⟩

end BitcoinServer.Work
