import BitcoinServer.Work.Search
import Mathlib.Data.Set.Lattice
import Mathlib.Order.CompletePartialOrder
import Mathlib.Order.Interval.Set.Disjoint

/-!
Contract: the ranges that `work_handler` gives to its batches.

Owns that the ranges are a partition of the nonces from the start nonce up to but not
including `UINT64_MAX`, in the order of the batches, and that no bound of a range wraps
around on the way.
-/

namespace BitcoinServer.Work

/-- The nonces that batch `i` goes through if nothing stops it. -/
def Job.range (job : Job) (i : Nat) : Set Nat := Set.Ico (job.start i).toNat (job.stop i).toNat

section Ranges

variable {job : Job}

/-- A batch that is not the last one stops where the next one starts. -/
theorem stop_eq_start_succ {i : Nat} (notLast : i + 1 < job.threadCount) :
    job.stop i = job.start (i + 1) := by
  unfold Job.stop Job.start
  rw [if_neg (by omega)]

variable (isInt : job.threadCount < 2 ^ 31)

include isInt

theorem start_mono {i j : Nat} (before : i ≤ j) (inCount : j < job.threadCount) :
    (job.start i).toNat ≤ (job.start j).toNat := by
  rw [toNat_start job isInt (by omega), toNat_start job isInt (Nat.le_of_lt inCount)]
  have product := Nat.mul_le_mul_right job.chunk.toNat before
  omega

theorem stop_le_start {i j : Nat} (before : i < j) (inCount : j < job.threadCount) :
    (job.stop i).toNat ≤ (job.start j).toNat := by
  rw [stop_eq_start_succ (by omega)]
  exact start_mono isInt before inCount

theorem ranges_disjoint {i j : Nat} (before : i < j) (inCount : j < job.threadCount) :
    Disjoint (job.range i) (job.range j) := by
  apply Set.Ico_disjoint_Ico.mpr
  have apart := stop_le_start isInt before inCount
  omega

theorem le_start {i : Nat} (inCount : i < job.threadCount) :
    job.n.toNat ≤ (job.start i).toNat := by
  rw [toNat_start job isInt (Nat.le_of_lt inCount)]
  exact Nat.le_add_right _ _

theorem iUnion_range (positive : 0 < job.threadCount) :
    ⋃ i < job.threadCount, job.range i = Set.Ico job.n.toNat (2 ^ 64 - 1) := by
  ext nonce
  simp only [Set.mem_iUnion, exists_prop]
  constructor
  · rintro ⟨i, inCount, started, notStopped⟩
    have stopBound := le_uint64Max (job.stop i)
    exact ⟨Nat.le_trans (le_start isInt inCount) started, by omega⟩
  · rintro ⟨atLeast, below⟩
    have value : (UInt64.ofNat nonce).toNat = nonce :=
      UInt64.toNat_ofNat_of_lt' (Nat.lt_of_lt_of_le below (by decide))
    obtain ⟨i, inCount, started, notStopped⟩ :=
      exists_range job positive isInt
        (by omega : job.n.toNat ≤ (UInt64.ofNat nonce).toNat) (by omega)
    rw [value] at started notStopped
    exact ⟨i, inCount, started, notStopped⟩

end Ranges

/-- The ranges of the batches partition the nonces from `n` up to `UINT64_MAX`: no product
and no sum wraps around, they are consecutive and disjoint, and nothing is left out. -/
theorem ranges_partition (job : Job) (positive : 0 < job.threadCount)
    (isInt : job.threadCount < 2 ^ 31) :
    (∀ i ≤ job.threadCount, (UInt64.ofNat i * job.chunk).toNat = i * job.chunk.toNat ∧
      (job.n + UInt64.ofNat i * job.chunk).toNat = job.n.toNat + i * job.chunk.toNat) ∧
    (∀ i < job.threadCount, job.n ≤ job.start i ∧ job.start i ≤ job.stop i) ∧
    (∀ i, i + 1 < job.threadCount → job.stop i = job.start (i + 1)) ∧
    (∀ i < job.threadCount, ∀ j < job.threadCount, i ≠ j →
      Disjoint (job.range i) (job.range j)) ∧
    ⋃ i < job.threadCount, job.range i = Set.Ico job.n.toNat (2 ^ 64 - 1) := by
  refine ⟨?_, ?_, ?_, ?_, iUnion_range isInt positive⟩
  · intro i inCount
    obtain ⟨sum, small⟩ := toNat_offset job isInt inCount
    refine ⟨?_, sum⟩
    rw [UInt64.toNat_mul, toNat_ofInt (by omega), Nat.mod_eq_of_lt (by omega)]
  · intro i inCount
    exact ⟨UInt64.le_iff_toNat_le.mpr (le_start isInt inCount),
      UInt64.le_iff_toNat_le.mpr (start_le_stop job isInt inCount)⟩
  · exact fun i notLast => stop_eq_start_succ notLast
  · intro i iCount j jCount apart
    rcases Nat.lt_or_gt_of_ne apart with before | after
    · exact ranges_disjoint isInt before jCount
    · exact (ranges_disjoint isInt after iCount).symm

/-- Seven batches for the last two nonces: all of them go to the last one. Four batches for all
nonces share them. -/
theorem ranges_partition_top :
    ⋃ i < 7, (⟨uint64Max - 2, 7, fun _ => false, fun _ => []⟩ : Job).range i =
        Set.Ico (2 ^ 64 - 3) (2 ^ 64 - 1) ∧
      ⋃ i < 4, (⟨0, 4, fun _ => false, fun _ => []⟩ : Job).range i = Set.Ico 0 (2 ^ 64 - 1) ∧
      (⟨0, 4, fun _ => false, fun _ => []⟩ : Job).chunk = 0x3fffffffffffffff :=
  ⟨(ranges_partition ⟨uint64Max - 2, 7, fun _ => false, fun _ => []⟩ (by decide)
      (by decide)).2.2.2.2,
    (ranges_partition ⟨0, 4, fun _ => false, fun _ => []⟩ (by decide) (by decide)).2.2.2.2,
    by decide⟩

end BitcoinServer.Work
