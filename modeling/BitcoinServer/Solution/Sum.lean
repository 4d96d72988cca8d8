import BitcoinServer.Solution.Buffers

/-!
Contract: what `uint256_add` computes.

The loop goes from the first byte to the last, so a carry goes into the byte behind it,
which is the less significant one. Read as a sum of big-endian numbers the result is
right for the operands that have no carry to make.

Owns the bytes that the loop stores, the exact set of operands for which they are
those of the sum, and the sum that they are for all operands: the one of the numbers whose
first byte is the least significant one.
-/

namespace BitcoinServer.Solution

/-- What the loop of `uint256_add` carries into byte `k`. -/
def carryInto (a b : Uint256) : Nat → Nat
  | 0 => 0
  | k + 1 => ((a.byte k).toNat + (b.byte k).toNat + carryInto a b k) / 256

/-- No two bytes of one place add up to more than a byte holds. -/
def AddsBytewise (a b : Uint256) : Prop :=
  ∀ k < 32, (a.byte k).toNat + (b.byte k).toNat < 256

instance (a b : Uint256) : Decidable (AddsBytewise a b) :=
  inferInstanceAs (Decidable (∀ k < 32, _))

section Addition

variable (a b : Uint256)

theorem carryInto_le_one (k : Nat) : carryInto a b k ≤ 1 := by
  induction k with
  | zero => exact Nat.zero_le 1
  | succ k inductionHypothesis =>
      have left := (a.byte k).toNat_lt
      have right := (b.byte k).toNat_lt
      rw [carryInto]
      omega

/-- What the loop stores, with `left` iterations to go. -/
theorem byte_addLoop (left : Nat) (temp : UInt16) (res : Uint256) (inRange : left ≤ 32)
    (carried : (temp >>> 8).toNat = carryInto a b (32 - left)) (k : Nat) (inBuffer : k < 32) :
    ((addLoop a b left temp res).byte k).toNat =
      if 32 - left ≤ k then ((a.byte k).toNat + (b.byte k).toNat + carryInto a b k) % 256
      else (res.byte k).toNat := by
  induction left generalizing temp res with
  | zero => rw [addLoop, if_neg (by omega)]
  | succ left inductionHypothesis =>
      have at_k : 32 - (left + 1) = 31 - left := by omega
      have first := (a.byte (31 - left)).toNat_lt
      have second := (b.byte (31 - left)).toNat_lt
      have small := carryInto_le_one a b (31 - left)
      rw [at_k] at carried
      have sum : ((temp >>> 8) + ((a.byte (31 - left)).toUInt16 +
          (b.byte (31 - left)).toUInt16)).toNat =
          (a.byte (31 - left)).toNat + (b.byte (31 - left)).toNat + carryInto a b (31 - left) := by
        rw [UInt16.toNat_add, UInt16.toNat_add, carried, UInt8.toNat_toUInt16,
          UInt8.toNat_toUInt16]
        omega
      have next : 32 - left = 31 - left + 1 := by omega
      rw [addLoop, inductionHypothesis _ _ (by omega) (by
        rw [UInt16.toNat_shiftRight, sum, next, carryInto, Nat.shiftRight_eq_div_pow]
        rfl), Uint256.byte_set _ _ (by omega), at_k]
      rcases Nat.lt_trichotomy k (31 - left) with below | same | above
      · rw [if_neg (by omega), if_neg (by omega), if_neg (by omega)]
      · rw [if_neg (by omega), if_pos same, if_pos (by omega), UInt16.toNat_toUInt8,
          UInt16.toNat_and, sum, same, show (0xff : UInt16).toNat = 2 ^ 8 - 1 from rfl,
          Nat.and_two_pow_sub_one_eq_mod]
        omega
      · rw [if_pos (by omega), if_pos (by omega)]

theorem byte_uint256Add (res : Uint256) {k : Nat} (inBuffer : k < 32) :
    ((uint256Add res a b).byte k).toNat =
      ((a.byte k).toNat + (b.byte k).toNat + carryInto a b k) % 256 := by
  rw [uint256Add, byte_addLoop a b 32 0 res (Nat.le_refl 32) rfl k inBuffer, if_pos (by omega)]

/-- Every byte of the destination is written. -/
theorem uint256Add_congr (res other : Uint256) : uint256Add res a b = uint256Add other a b := by
  apply Uint256.ext_byte
  intro k inBuffer
  apply UInt8.toNat_inj.mp
  rw [byte_uint256Add a b res inBuffer, byte_uint256Add a b other inBuffer]

theorem carryInto_of_bytewise (bytewise : AddsBytewise a b) {k : Nat} (inRange : k ≤ 32) :
    carryInto a b k = 0 := by
  induction k with
  | zero => rfl
  | succ k inductionHypothesis =>
      have fits := bytewise k inRange
      rw [carryInto, inductionHypothesis (by omega)]
      omega

/-- What the sum of two numbers carries into the byte `m` places before the last. -/
theorem carry_succ_byte {m : Nat} (inRange : m < 32) :
    BigEndian.carry a.toNat b.toNat (m + 1) =
      ((a.byte (31 - m)).toNat + (b.byte (31 - m)).toNat +
        BigEndian.carry a.toNat b.toNat m) / 256 := by
  rw [BigEndian.carry_succ, a.toNat_byte (by omega), b.toNat_byte (by omega),
    show 31 - (31 - m) = m by omega]

theorem digit_sum {k : Nat} (inBuffer : k < 32) :
    (a.toNat + b.toNat) / 256 ^ (31 - k) % 256 =
      ((a.byte k).toNat + (b.byte k).toNat +
        BigEndian.carry a.toNat b.toNat (31 - k)) % 256 := by
  rw [BigEndian.digit_add, a.toNat_byte inBuffer, b.toNat_byte inBuffer]

theorem carry_of_bytewise (bytewise : AddsBytewise a b) {m : Nat} (inRange : m ≤ 32) :
    BigEndian.carry a.toNat b.toNat m = 0 := by
  induction m with
  | zero => exact BigEndian.carry_zero _ _
  | succ m inductionHypothesis =>
      have fits := bytewise (31 - m) (by omega)
      rw [carry_succ_byte a b inRange, inductionHypothesis (by omega)]
      omega

/-- Carries that reach every byte alike from both ends are none at all. -/
theorem bytewise_of_same_carries
    (same : ∀ k < 32, carryInto a b k = BigEndian.carry a.toNat b.toNat (31 - k)) :
    AddsBytewise a b := by
  -- The carry into byte `k + 2` from the front is the one into byte `k` from the back.
  have period : ∀ k, k + 1 < 32 → carryInto a b (k + 2) = carryInto a b k := by
    intro k inside
    have back := carry_succ_byte a b (m := 30 - k) (by omega)
    rw [show 30 - k + 1 = 31 - k by omega, show 31 - (30 - k) = k + 1 by omega,
      show 30 - k = 31 - (k + 1) by omega, ← same k (by omega), ← same (k + 1) inside] at back
    exact back.symm
  have evenZero : ∀ k, 2 * k ≤ 32 → carryInto a b (2 * k) = 0 := by
    intro k inRange
    induction k with
    | zero => rfl
    | succ k inductionHypothesis =>
        rw [show 2 * (k + 1) = 2 * k + 2 by omega, period _ (by omega)]
        exact inductionHypothesis (by omega)
  have oddZero : ∀ k, k ≤ 15 → carryInto a b (31 - 2 * k) = 0 := by
    intro k inRange
    induction k with
    | zero =>
        rw [same 31 (by decide)]
        exact BigEndian.carry_zero _ _
    | succ k inductionHypothesis =>
        rw [← period _ (by omega), show 31 - 2 * (k + 1) + 2 = 31 - 2 * k by omega]
        exact inductionHypothesis (by omega)
  have noCarry : ∀ k, k ≤ 32 → carryInto a b k = 0 := by
    intro k inRange
    rcases Nat.mod_two_eq_zero_or_one k with even | odd
    · rw [show k = 2 * (k / 2) by omega]
      exact evenZero _ (by omega)
    · rw [show k = 31 - 2 * ((31 - k) / 2) by omega]
      exact oddZero _ (by omega)
  intro k inBuffer
  have next := noCarry (k + 1) (by omega)
  rw [carryInto, noCarry k (by omega)] at next
  omega

/-- The routine adds the numbers exactly where no byte carries. -/
theorem uint256Add_eq_iff (res : Uint256) :
    uint256Add res a b = .ofNat (a.toNat + b.toNat) ↔ AddsBytewise a b := by
  rw [Uint256.eq_ofNat_iff_byte]
  constructor
  · intro sums
    apply bytewise_of_same_carries
    intro k inBuffer
    have stored := sums k inBuffer
    rw [byte_uint256Add a b res inBuffer, digit_sum a b inBuffer] at stored
    have front := carryInto_le_one a b k
    have back := BigEndian.carry_le_one a.toNat b.toNat (31 - k)
    omega
  · intro bytewise k inBuffer
    rw [byte_uint256Add a b res inBuffer, digit_sum a b inBuffer,
      carryInto_of_bytewise a b bytewise (by omega), carry_of_bytewise a b bytewise (by omega)]

end Addition

/-- Into any buffer, an operand or not, `uint256_add` stores the sum exactly when no byte
carries. -/
theorem Store.add_exact_iff {σ : Type} [DecidableEq σ] (s : Store σ) (res a b : σ) :
    s.uint256Add res a b res = .ofNat ((s a).toNat + (s b).toNat) ↔
      AddsBytewise (s a) (s b) := by
  rw [uint256Add_eq, Function.update_self]
  exact uint256Add_eq_iff (s a) (s b) (s res)

/-- `255 + 1` is `0`: the carry leaves at the last byte. -/
theorem Store.add_loses_carry :
    ¬ ∀ (s : Store (Fin 3)) (res a b : Fin 3),
      s.uint256Add res a b res = .ofNat ((s a).toNat + (s b).toNat) := by
  intro always
  have stored := always
    (fun name => if name = 1 then uint256Init.set 31 255 else uint256One) 0 1 2
  rw [uint256Add_eq, Function.update_self, uint256Add_eq_iff] at stored
  exact absurd stored (by decide)

/-! ## The first byte as the least significant one -/

namespace Uint256

/-- The bytes from the last one to the first. -/
def reversed (a : Uint256) : Uint256 :=
  ⟨a.bytes.reverse, by rw [List.length_reverse, a.length_eq]⟩

/-- The number of which byte `k` is the digit at `256 ^ k`. -/
def littleEndian (a : Uint256) : Nat := a.reversed.toNat

theorem byte_reversed (a : Uint256) {k : Nat} (inRange : k < 32) :
    a.reversed.byte k = a.byte (31 - k) := by
  have inBytes : k < a.bytes.length := by rw [a.length_eq]; exact inRange
  unfold byte reversed
  rw [List.getD_eq_getElem?_getD, List.getD_eq_getElem?_getD, List.getElem?_reverse inBytes,
    a.length_eq]

theorem littleEndian_byte (a : Uint256) {k : Nat} (inRange : k < 32) :
    (a.byte k).toNat = a.littleEndian / 256 ^ k % 256 := by
  have digit := a.reversed.toNat_byte (k := 31 - k) (by omega)
  rw [a.byte_reversed (by omega), show 31 - (31 - k) = k by omega] at digit
  exact digit

theorem littleEndian_eq_iff (a : Uint256) (number : Nat) :
    a.littleEndian = number % 2 ^ 256 ↔ ∀ k < 32, (a.byte k).toNat = number / 256 ^ k % 256 := by
  rw [littleEndian, ← eq_ofNat_iff, eq_ofNat_iff_byte]
  constructor
  · intro digits k inRange
    have digit := digits (31 - k) (by omega)
    rw [a.byte_reversed (by omega), show 31 - (31 - k) = k by omega] at digit
    exact digit
  · intro digits k inRange
    rw [a.byte_reversed inRange]
    exact digits (31 - k) (by omega)

end Uint256

section LittleEndian

variable (a b : Uint256)

/-- The carries of the loop are those of the two numbers. -/
theorem carryInto_eq_carry {m : Nat} (inRange : m ≤ 32) :
    carryInto a b m = BigEndian.carry a.littleEndian b.littleEndian m := by
  induction m with
  | zero => exact (BigEndian.carry_zero _ _).symm
  | succ m inductionHypothesis =>
      rw [BigEndian.carry_succ, ← a.littleEndian_byte inRange, ← b.littleEndian_byte inRange,
        carryInto, inductionHypothesis (by omega)]

theorem littleEndian_uint256Add (res : Uint256) :
    (uint256Add res a b).littleEndian = (a.littleEndian + b.littleEndian) % 2 ^ 256 := by
  rw [Uint256.littleEndian_eq_iff]
  intro k inBuffer
  rw [byte_uint256Add a b res inBuffer, BigEndian.digit_add, a.littleEndian_byte inBuffer,
    b.littleEndian_byte inBuffer, carryInto_eq_carry a b (by omega)]

end LittleEndian

/-- For all operands and any destination, an operand or not, `uint256_add` stores the sum of the
numbers whose least significant byte is the first one. -/
theorem Store.add_littleEndian {σ : Type} [DecidableEq σ] (s : Store σ) (res a b : σ) :
    (s.uint256Add res a b res).littleEndian =
      ((s a).littleEndian + (s b).littleEndian) % 2 ^ 256 := by
  rw [uint256Add_eq, Function.update_self]
  exact littleEndian_uint256Add (s a) (s b) (s res)

end BitcoinServer.Solution
