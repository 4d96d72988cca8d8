import BitcoinServer.Solution.Verify

/-!
Contract: the 40 bytes that mining and verification hash.

`get_x` takes the host for a big-endian one where `ntohl` leaves the solution
unchanged. Owns the exact condition under which the bytes are the seed and the
big-endian solution.
-/

namespace BitcoinServer.Solution

/-! ## Bytes in memory -/

theorem memory_bigEndian (count value : Nat) :
    Host.memory .bigEndian count value = BigEndian.ofNat count value := by
  induction count generalizing value with
  | zero => rfl
  | succ count inductionHypothesis =>
      have shifted : ∀ i, UInt8.ofNat (value >>> (8 * (i + 1))) =
          UInt8.ofNat ((value / 256) >>> (8 * i)) := by
        intro i
        rw [Nat.mul_add, Nat.mul_one, Nat.add_comm, Nat.shiftRight_add,
          Nat.shiftRight_eq_div_pow value 8]
      rw [BigEndian.ofNat, ← inductionHypothesis]
      show (List.map _ (List.range (count + 1))).reverse =
        (List.map _ (List.range count)).reverse ++ _
      rw [List.range_succ_eq_map, List.map_cons, List.reverse_cons, List.map_map]
      congr 2
      exact List.map_congr_left fun i _ => shifted i

theorem memory_littleEndian (count value : Nat) :
    Host.memory .littleEndian count value = (BigEndian.ofNat count value).reverse := by
  rw [← memory_bigEndian]
  exact (List.reverse_reverse _).symm

/-- The bytes that `get_x` shifts out of a solution. -/
theorem shifted_bytes (solution : UInt64) :
    ((List.range 8).map fun i => ((solution >>> UInt64.ofNat (8 * i)) &&& 0xFF).toUInt8).reverse =
      BigEndian.ofNat 8 solution.toNat := by
  rw [← memory_bigEndian]
  show _ = (List.map _ (List.range 8)).reverse
  congr 1
  apply List.map_congr_left
  intro i inRange
  have small : 8 * i < 64 := by
    have := List.mem_range.mp inRange
    omega
  apply UInt8.toNat_inj.mp
  rw [UInt64.toNat_toUInt8, UInt64.toNat_and, UInt64.toNat_shiftRight, UInt8.toNat_ofNat',
    UInt64.toNat_ofNat_of_lt' (Nat.lt_trans small (by decide)), Nat.mod_eq_of_lt small,
    show (0xFF : UInt64).toNat = 2 ^ 8 - 1 from rfl, Nat.and_two_pow_sub_one_eq_mod, Nat.mod_mod]

/-! ## The test of the host -/

/-- A solution below 2^32 whose four bytes read the same from both ends. -/
def IsMirrored (solution : UInt64) : Prop :=
  solution.toNat < 2 ^ 32 ∧
    (BigEndian.ofNat 4 solution.toNat).reverse = BigEndian.ofNat 4 solution.toNat

instance (solution : UInt64) : Decidable (IsMirrored solution) :=
  inferInstanceAs (Decidable (_ ∧ _))

/-- `ntohl(solution) == solution` as a little-endian host sees it. -/
theorem ntohl_eq_self_iff (solution : UInt64) :
    (ntohl .littleEndian solution.toUInt32).toUInt64 = solution ↔ IsMirrored solution := by
  have swapped : (ntohl .littleEndian solution.toUInt32).toUInt64.toNat =
      BigEndian.toNat (BigEndian.ofNat 4 (solution.toNat % 2 ^ 32)).reverse := by
    have bound := BigEndian.toNat_lt (BigEndian.ofNat 4 (solution.toNat % 2 ^ 32)).reverse
    rw [List.length_reverse, BigEndian.length_ofNat] at bound
    rw [UInt32.toNat_toUInt64, ntohl, memory_littleEndian, UInt64.toNat_toUInt32,
      UInt32.toNat_ofNat_of_lt' bound]
  constructor
  · intro same
    rw [same] at swapped
    have below : solution.toNat < 2 ^ 32 := by
      rw [← same, UInt32.toNat_toUInt64]
      exact UInt32.toNat_lt _
    rw [Nat.mod_eq_of_lt below] at swapped
    refine ⟨below, BigEndian.eq_of_toNat_eq List.length_reverse ?_⟩
    rw [← swapped, BigEndian.toNat_ofNat_of_lt below]
  · rintro ⟨below, mirrored⟩
    apply UInt64.toNat_inj.mp
    rw [swapped, Nat.mod_eq_of_lt below, mirrored, BigEndian.toNat_ofNat_of_lt below]

/-! ## The hashed block -/

/-- The seed and the eight big-endian bytes of the solution. -/
def hashedBlock (seed : Uint256) (solution : UInt64) : List UInt8 :=
  seed.bytes ++ BigEndian.ofNat 8 solution.toNat

/-- A big-endian host copies what it would otherwise shift out. -/
theorem getX_bigEndian (seed : Uint256) (solution : UInt64) :
    getX .bigEndian seed solution = hashedBlock seed solution := by
  unfold getX hashedBlock
  rw [shifted_bytes, memory_bigEndian, ite_self]

/-- A mirrored solution sends a little-endian host into the branch for big-endian ones,
and the copy from memory is the wrong way round. -/
theorem getX_littleEndian_mirrored (seed : Uint256) {solution : UInt64}
    (mirrored : IsMirrored solution) :
    getX .littleEndian seed solution =
      seed.bytes ++ (BigEndian.ofNat 8 solution.toNat).reverse := by
  unfold getX
  rw [if_neg (not_not_intro ((ntohl_eq_self_iff solution).mpr mirrored)), memory_littleEndian]

theorem getX_littleEndian (seed : Uint256) {solution : UInt64}
    (unmirrored : ¬ IsMirrored solution) :
    getX .littleEndian seed solution = hashedBlock seed solution := by
  unfold getX hashedBlock
  rw [if_pos (fun same => unmirrored ((ntohl_eq_self_iff solution).mp same)), shifted_bytes]

/-- Eight bytes of a number below 2^32 that read the same from both ends are zeros. -/
theorem eq_zero_of_mirrored_eight {solution : UInt64} (below : solution.toNat < 2 ^ 32)
    (same : (BigEndian.ofNat 8 solution.toNat).reverse = BigEndian.ofNat 8 solution.toNat) :
    solution = 0 := by
  have bound : solution.toNat < 256 ^ 4 := below
  have wide : BigEndian.ofNat 8 solution.toNat =
      List.replicate 4 0 ++ BigEndian.ofNat 4 solution.toNat := BigEndian.ofNat_add 4 bound
  rw [wide, List.reverse_append] at same
  have front : (BigEndian.ofNat 4 solution.toNat).reverse = List.replicate 4 0 :=
    (List.append_inj same (by
      rw [List.length_reverse, BigEndian.length_ofNat, List.length_replicate])).1
  have zeros : BigEndian.ofNat 4 solution.toNat = List.replicate 4 0 := by
    rw [← List.reverse_reverse (BigEndian.ofNat 4 solution.toNat), front, List.reverse_replicate]
  apply UInt64.toNat_inj.mp
  calc solution.toNat
      _ = BigEndian.toNat (BigEndian.ofNat 4 solution.toNat) :=
          (BigEndian.toNat_ofNat_of_lt bound).symm
      _ = 0 := by rw [zeros, BigEndian.toNat_zeros]

/-- `get_x` returns the seed and the big-endian solution, except on a little-endian host for
a mirrored solution other than 0. -/
theorem getX_eq_hashedBlock_iff (host : Host) (seed : Uint256) (solution : UInt64) :
    getX host seed solution = hashedBlock seed solution ↔
      host = .bigEndian ∨ solution = 0 ∨ ¬ IsMirrored solution := by
  match host with
  | .bigEndian => exact iff_of_true (getX_bigEndian seed solution) (Or.inl rfl)
  | .littleEndian =>
      by_cases mirrored : IsMirrored solution
      · rw [getX_littleEndian_mirrored seed mirrored, hashedBlock, List.append_cancel_left_eq]
        constructor
        · exact fun same => Or.inr (Or.inl (eq_zero_of_mirrored_eight mirrored.1 same))
        · rintro (isBig | rfl | unmirrored)
          · exact Host.noConfusion isBig
          · rfl
          · exact absurd mirrored unmirrored
      · exact iff_of_true (getX_littleEndian seed mirrored) (Or.inr (Or.inr mirrored))

/-- Solution `01000001` is its own byte swap. -/
theorem getX_mirrored_reversed :
    ¬ ∀ (host : Host) (seed : Uint256) (solution : UInt64),
      getX host seed solution = hashedBlock seed solution := by
  intro always
  have swapped := always .littleEndian uint256Init 0x01000001
  exact absurd swapped (by decide)

end BitcoinServer.Solution
