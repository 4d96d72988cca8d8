import BitcoinServer.Solution.Shift
import Mathlib.Data.Nat.Bitwise

/-!
Contract: what `uint256_mul` computes.

The loop goes through the bits of the second operand from the last one up. For each one
set it shifts the first operand into `temp` and adds `temp` to `acc`. `temp` is not
cleared between two shifts, so the bytes that a shift leaves alone still hold those of
the shift before it.

Owns the exact set of operands for which every shift and every addition of the loop is
exact, which is where `acc` is the product with the bits seen so far throughout, and the
product itself for these operands.
-/

namespace BitcoinServer.Solution

/-- What `temp` holds when the loop comes to bit `n`: the operand shifted by the highest
bit set below `n`. -/
def rowBelow (a b : Uint256) (n : Nat) : Uint256 :=
  if b.toNat % 2 ^ n = 0 then uint256Init
  else .ofNat (a.toNat * 2 ^ Nat.log2 (b.toNat % 2 ^ n))

/-- The product with the bits below `n`. -/
def partialProduct (a b : Uint256) (n : Nat) : Uint256 :=
  .ofNat (a.toNat * (b.toNat % 2 ^ n))

/-- What bit `n` adds to the product. -/
def rowAt (a : Uint256) (n : Nat) : Uint256 := .ofNat (a.toNat * 2 ^ n)

/-- No shift of the loop misplaces a bit or leaves a byte of an earlier one behind, and no
addition carries from byte to byte. -/
def MultipliesCleanly (a b : Uint256) : Prop :=
  ∀ n < 256, b.toNat.testBit n = true →
    ShiftsCleanly a (UInt8.ofNat n) ∧ TailClear (rowBelow a b n) (UInt8.ofNat n) ∧
      AddsBytewise (partialProduct a b n) (rowAt a n)

instance (a b : Uint256) : Decidable (MultipliesCleanly a b) :=
  Nat.decidableBallLT 256 _

/-- `temp` and `acc` of `uint256_mul` after `n` iterations. -/
def mulState (a b : Uint256) : Nat → Uint256 × Uint256
  | 0 => (uint256Init, uint256Init)
  | n + 1 =>
      let before := mulState a b n
      if testBit b (255 - n) then
        let shifted := uint256Sl before.1 a (UInt8.ofNat n)
        (shifted, uint256Add before.2 before.2 shifted)
      else before

namespace Uint256

/-- Only the number modulo `2 ^ 256` counts. -/
theorem ofNat_congr {number other : Nat} (same : number % 2 ^ 256 = other % 2 ^ 256) :
    ofNat number = ofNat other := by
  rw [eq_ofNat_iff, toNat_ofNat, same]

theorem ofNat_toNat (a : Uint256) : ofNat a.toNat = a := by
  symm
  rw [eq_ofNat_iff, Nat.mod_eq_of_lt a.toNat_lt]

end Uint256

/-! ## Bits -/

private theorem byte_bit : ∀ (byte : Fin 256) (j : Fin 8),
    decide (UInt8.ofNat byte &&& (1 <<< UInt8.ofNat j) > 0) = Nat.testBit byte j := by
  decide +kernel

/-- The test of the loop reads a bit of the number. -/
theorem testBit_eq (b : Uint256) {n : Nat} (inRange : n < 256) :
    testBit b (255 - n) = b.toNat.testBit n := by
  have bit := byte_bit ⟨(b.byte (31 - n / 8)).toNat, (b.byte (31 - n / 8)).toNat_lt⟩
    ⟨n % 8, Nat.mod_lt _ (by decide)⟩
  rw [UInt8.ofNat_toNat] at bit
  unfold testBit
  rw [show (255 - n) / 8 = 31 - n / 8 by omega, show 7 - (255 - n) % 8 = n % 8 by omega]
  refine bit.trans ?_
  show ((b.byte (31 - n / 8)).toNat).testBit (n % 8) = _
  rw [b.toNat_byte (by omega), show 31 - (31 - n / 8) = n / 8 by omega,
    show (256 : Nat) = 2 ^ 8 from rfl, ← Nat.pow_mul, Nat.testBit_mod_two_pow,
    Nat.testBit_div_two_pow, decide_eq_true (Nat.mod_lt n (by decide)), Bool.true_and]
  congr 1
  omega

section Loop

variable (a b : Uint256)

/-- The loop goes through the states one after the other. -/
theorem mulLoop_state {n : Nat} (inRange : n ≤ 256) :
    mulLoop a b (256 - n) (mulState a b n).1 (mulState a b n).2 = uint256Mul a b := by
  induction n with
  | zero => rfl
  | succ n inductionHypothesis =>
      rw [← inductionHypothesis (by omega), show 256 - n = 256 - (n + 1) + 1 by omega, mulLoop,
        show 256 - (n + 1) = 255 - n by omega, mulState]
      by_cases isSet : testBit b (255 - n) = true
      · simp only [if_pos isSet, show 255 - (255 - n) = n by omega]
      · simp only [if_neg isSet]

theorem uint256Mul_state : uint256Mul a b = (mulState a b 256).2 :=
  (mulLoop_state a b (Nat.le_refl 256)).symm

variable {a b} {n : Nat}

theorem mod_succ_of_set (isSet : b.toNat.testBit n = true) :
    b.toNat % 2 ^ (n + 1) = b.toNat % 2 ^ n + 2 ^ n := by
  rw [Nat.mod_pow_succ, ← Nat.toNat_testBit, isSet]
  simp

theorem mod_succ_of_clear (clear : b.toNat.testBit n = false) :
    b.toNat % 2 ^ (n + 1) = b.toNat % 2 ^ n := by
  rw [Nat.mod_pow_succ, ← Nat.toNat_testBit, clear]
  simp

theorem rowBelow_succ_of_set (isSet : b.toNat.testBit n = true) :
    rowBelow a b (n + 1) = rowAt a n := by
  have positive := Nat.two_pow_pos n
  have below := Nat.mod_lt b.toNat positive
  have top : Nat.log2 (b.toNat % 2 ^ n + 2 ^ n) = n :=
    (Nat.log2_eq_iff (by omega)).mpr ⟨by omega, by rw [Nat.pow_succ]; omega⟩
  unfold rowBelow rowAt
  rw [mod_succ_of_set isSet, if_neg (by omega), top]

theorem rowBelow_succ_of_clear (clear : b.toNat.testBit n = false) :
    rowBelow a b (n + 1) = rowBelow a b n := by
  unfold rowBelow
  rw [mod_succ_of_clear clear]

theorem partialProduct_succ_of_set (isSet : b.toNat.testBit n = true) :
    partialProduct a b (n + 1) =
      .ofNat ((partialProduct a b n).toNat + (rowAt a n).toNat) := by
  unfold partialProduct rowAt
  apply Uint256.ofNat_congr
  rw [mod_succ_of_set isSet, Uint256.toNat_ofNat, Uint256.toNat_ofNat, Nat.mul_add,
    ← Nat.add_mod]

theorem partialProduct_succ_of_clear (clear : b.toNat.testBit n = false) :
    partialProduct a b (n + 1) = partialProduct a b n := by
  unfold partialProduct
  rw [mod_succ_of_clear clear]

/-- One iteration is exact where its shift and its addition are. -/
theorem mulState_succ_exact_iff (inRange : n < 256)
    (before : mulState a b n = (rowBelow a b n, partialProduct a b n)) :
    mulState a b (n + 1) = (rowBelow a b (n + 1), partialProduct a b (n + 1)) ↔
      (b.toNat.testBit n = true → ShiftsCleanly a (UInt8.ofNat n) ∧
        TailClear (rowBelow a b n) (UInt8.ofNat n) ∧
        AddsBytewise (partialProduct a b n) (rowAt a n)) := by
  have shift : (UInt8.ofNat n).toNat = n := UInt8.toNat_ofNat_of_lt' inRange
  rw [mulState, before]
  simp only [testBit_eq b inRange]
  cases bit : b.toNat.testBit n with
  | false =>
      rw [rowBelow_succ_of_clear bit, partialProduct_succ_of_clear bit]
      simp
  | true =>
      rw [rowBelow_succ_of_set bit, partialProduct_succ_of_set bit]
      simp only [if_true, Prod.mk.injEq, forall_const]
      have shifted := uint256Sl_eq_iff (rowBelow a b n) a (UInt8.ofNat n)
      rw [shift] at shifted
      constructor
      · rintro ⟨row, product⟩
        obtain ⟨clean, clear⟩ := shifted.mp row
        rw [row] at product
        exact ⟨clean, clear, (uint256Add_eq_iff _ _ _).mp product⟩
      · rintro ⟨clean, clear, bytewise⟩
        have row := shifted.mpr ⟨clean, clear⟩
        refine ⟨row, ?_⟩
        rw [row]
        exact (uint256Add_eq_iff _ _ _).mpr bytewise

/-- The loop's invariant, that `acc` is the product with the bits seen so far and `temp` the
last row, holds throughout exactly for the clean operands. -/
theorem mulState_exact_iff :
    (∀ n ≤ 256, mulState a b n = (rowBelow a b n, partialProduct a b n)) ↔
      MultipliesCleanly a b := by
  constructor
  · intro states n inRange
    exact (mulState_succ_exact_iff inRange (states n (by omega))).mp (states (n + 1) inRange)
  · intro clean n inRange
    induction n with
    | zero =>
        unfold rowBelow partialProduct
        rw [Nat.pow_zero, Nat.mod_one, if_pos rfl, Nat.mul_zero,
          show Uint256.ofNat 0 = uint256Init by decide]
        rfl
    | succ n inductionHypothesis =>
        exact (mulState_succ_exact_iff inRange (inductionHypothesis (by omega))).mpr
          (clean n inRange)

theorem uint256Mul_of_clean (clean : MultipliesCleanly a b) :
    uint256Mul a b = .ofNat (a.toNat * b.toNat) := by
  have last := mulState_exact_iff.mpr clean 256 (Nat.le_refl 256)
  rw [uint256Mul_state, last]
  show partialProduct a b 256 = _
  rw [partialProduct, Nat.mod_eq_of_lt b.toNat_lt]

end Loop

/-- Whatever `res` held and whether or not it is an operand, `uint256_mul` stores the
product of clean operands; clean are exactly those for which the loop's invariant holds in
every iteration. -/
theorem Store.mul_exact {σ : Type} [DecidableEq σ] (s : Store σ) (res a b : σ) :
    (MultipliesCleanly (s a) (s b) →
      s.uint256Mul res a b res = .ofNat ((s a).toNat * (s b).toNat)) ∧
    (MultipliesCleanly (s a) (s b) ↔ ∀ n ≤ 256,
      mulState (s a) (s b) n = (rowBelow (s a) (s b) n, partialProduct (s a) (s b) n)) := by
  rw [uint256Mul_eq, Function.update_self]
  exact ⟨uint256Mul_of_clean, mulState_exact_iff.symm⟩

/-- The square of 16, in the buffer of both operands. -/
theorem Store.mul_exact_sixteen :
    Store.uint256Mul (fun _ : Unit => Uint256.ofNat 16) () () () () = .ofNat (16 * 16) :=
  (Store.mul_exact (fun _ => Uint256.ofNat 16) () () ()).1 (by decide +kernel)

/-- `1 * 257` leaves the byte of the first row in `temp` and adds it twice. -/
theorem Store.mul_repeats_row :
    ¬ ∀ (s : Store Bool) (res a b : Bool),
      s.uint256Mul res a b res = .ofNat ((s a).toNat * (s b).toNat) := by
  intro always
  have stored := always (fun name => if name then uint256One else .ofNat 257) true true false
  rw [uint256Mul_eq, Function.update_self] at stored
  exact absurd stored (by decide +kernel)

/-- A misplaced bit and a misplaced carry can make up for each other. -/
theorem mul_errors_cancel :
    uint256Mul (.ofNat 0x702080) (.ofNat (2 ^ 233 + 2 ^ 240)) =
        .ofNat (0x702080 * (2 ^ 233 + 2 ^ 240)) ∧
      ¬ MultipliesCleanly (.ofNat 0x702080) (.ofNat (2 ^ 233 + 2 ^ 240)) := by
  refine ⟨by decide +kernel, fun clean => ?_⟩
  have first := (clean 233 (by decide) (by decide +kernel)).1
  exact absurd first (by decide +kernel)

end BitcoinServer.Solution
