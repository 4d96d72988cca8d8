import BitcoinServer.Library.SquareMultiply
import BitcoinServer.Solution.Power

/-!
Contract: the loop of `uint256_exp` with any operation in place of `uint256_mul`.

The loop squares `acc` and collects the odd digits in `temp`; the product behind it takes
the last digit, at the exponent 1. Over an associative operation with the value 1 as its
unit the two hold the power at all times.

Owns the power that the loop stores over such an operation, how many products it makes, and
that a wrong power of `uint256_exp` shows a wrong product of `uint256_mul`.
-/

namespace BitcoinServer.Solution

/-- An associative operation on 32 bytes, with the value 1 as its unit. -/
structure Operation where
  mul : Uint256 → Uint256 → Uint256
  assoc : ∀ a b c, mul (mul a b) c = mul a (mul b c)
  one_mul : ∀ a, mul uint256One a = a
  mul_one : ∀ a, mul a uint256One = a

namespace Operation

/-- The `count`-fold product of `base`. -/
def power (op : Operation) (base : Uint256) : Nat → Uint256
  | 0 => uint256One
  | count + 1 => op.mul (op.power base count) base

/-- The monoid whose powers are the `count`-fold products. -/
abbrev monoid (op : Operation) : Monoid Uint256 where
  mul := op.mul
  mul_assoc := op.assoc
  one := uint256One
  one_mul := op.one_mul
  mul_one := op.mul_one
  npow count base := op.power base count
  npow_zero _ := rfl
  npow_succ _ _ := rfl

theorem loop_eq_power (op : Operation) {exp : Nat} (positive : 0 < exp) (base : Uint256) :
    SquareMultiply.loop op.mul exp base uint256One = op.power base exp :=
  (@SquareMultiply.loop_eq _ op.monoid _ positive base uint256One).trans (op.mul_one _)

/-! ## The product modulo `2 ^ 256` -/

theorem mod_assoc (a b c : Uint256) :
    Uint256.ofNat ((Uint256.ofNat (a.toNat * b.toNat)).toNat * c.toNat) =
      .ofNat (a.toNat * (Uint256.ofNat (b.toNat * c.toNat)).toNat) := by
  apply Uint256.ofNat_congr
  rw [Uint256.toNat_ofNat, Uint256.toNat_ofNat, Nat.mod_mul_mod, Nat.mul_mod_mod, Nat.mul_assoc]

theorem mod_one_mul (a : Uint256) : Uint256.ofNat (uint256One.toNat * a.toNat) = a := by
  rw [show uint256One.toNat = 1 by decide, Nat.one_mul, Uint256.ofNat_toNat]

theorem mod_mul_one (a : Uint256) : Uint256.ofNat (a.toNat * uint256One.toNat) = a := by
  rw [Nat.mul_comm, mod_one_mul]

def modular : Operation where
  mul a b := .ofNat (a.toNat * b.toNat)
  assoc := mod_assoc
  one_mul := mod_one_mul
  mul_one := mod_mul_one

theorem modular_power (base : Uint256) (count : Nat) :
    modular.power base count = .ofNat (base.toNat ^ count) := by
  induction count with
  | zero => exact (by decide : uint256One = .ofNat 1)
  | succ count inductionHypothesis =>
      rw [power, inductionHypothesis]
      apply Uint256.ofNat_congr
      rw [Uint256.toNat_ofNat, Nat.mod_mul_mod, ← Nat.pow_succ]

end Operation

/-! ## The loop on buffers -/

section

variable {σ : Type} [DecidableEq σ]

/-- The operation in place of `uint256_mul`. -/
def Operation.call (op : Operation) : Routine σ := fun s res a b =>
  Function.update s res (op.mul (s a) (s b))

theorem computes_call (op : Operation) : Store.Computes (op.call : Routine σ) op.mul :=
  fun _ _ _ _ => rfl

end

/-! ## Powers -/

/-- The factors of the products that `uint256_exp` makes, in their order. -/
def expProducts (mul : Uint256 → Uint256 → Uint256) (base : Uint256) (exp : UInt32) :
    List (Uint256 × Uint256) :=
  if exp = 0 then [] else SquareMultiply.products mul exp.toNat base uint256One

theorem length_expProducts_le (mul : Uint256 → Uint256 → Uint256) (base : Uint256)
    (exp : UInt32) : (expProducts mul base exp).length ≤ 63 := by
  unfold expProducts
  by_cases isZero : exp = 0
  · rw [if_pos isZero]
    exact Nat.zero_le _
  · rw [if_neg isZero]
    exact SquareMultiply.length_products_le mul 31 exp.toNat_lt base uint256One

/-- Where every product of `uint256_exp` is that of the operation, so is the power. -/
theorem uint256Exp_of_products (op : Operation) {base : Uint256} {exp : UInt32}
    (agree : ∀ factors ∈ expProducts uint256Mul base exp,
      uint256Mul factors.1 factors.2 = op.mul factors.1 factors.2) :
    (if exp = 0 then uint256One else SquareMultiply.loop uint256Mul exp.toNat base uint256One) =
      op.power base exp.toNat := by
  unfold expProducts at agree
  by_cases isZero : exp = 0
  · rw [if_pos isZero, isZero]
    rfl
  · rw [if_neg isZero] at agree
    rw [if_neg isZero, SquareMultiply.loop_congr _ agree, op.loop_eq_power (exponent_pos isZero)]

/-- Over an operation the loop stores the `exp`-fold product of the base, after 63 products at
most; a power of `uint256_exp` that is not the one modulo `2 ^ 256` comes from a product that
is not. -/
theorem Store.exp_by_operation {σ : Type} [DecidableEq σ] (op : Operation) (s : Store σ)
    (res base : σ) (exp : UInt32) (apart : res ≠ base) :
    s.uint256ExpBy op.call res base exp =
        Function.update s res (op.power (s base) exp.toNat) ∧
      (exp = 0 → s.uint256ExpBy op.call res base exp res = uint256One) ∧
      (expProducts op.mul (s base) exp).length ≤ 63 ∧
      (s.uint256Exp res base exp res ≠ .ofNat ((s base).toNat ^ exp.toNat) →
        ∃ factors ∈ expProducts Solution.uint256Mul (s base) exp,
          Solution.uint256Mul factors.1 factors.2 ≠
            .ofNat (factors.1.toNat * factors.2.toNat)) := by
  have stored := uint256ExpBy_eq (computes_call op) s apart exp
  refine ⟨?_, fun isZero => ?_, length_expProducts_le _ _ _, fun wrong => ?_⟩
  · rw [stored]
    by_cases isZero : exp = 0
    · rw [if_pos isZero, isZero]
      rfl
    · rw [if_neg isZero, op.loop_eq_power (exponent_pos isZero)]
  · rw [stored, if_pos isZero, Function.update_self]
  · by_contra right
    apply wrong
    rw [← uint256ExpBy_uint256Mul, uint256ExpBy_eq uint256Mul_eq s apart, Function.update_self,
      uint256Exp_of_products Operation.modular, Operation.modular_power]
    intro factors made
    by_contra differs
    exact right ⟨factors, made, differs⟩

theorem Store.exp_by_modular :
    twoAndOne.uint256ExpBy Operation.modular.call false true 0x3f false = .ofNat (2 ^ 63) := by
  rw [(Store.exp_by_operation .modular twoAndOne false true 0x3f (by decide)).1,
    Function.update_self, Operation.modular_power, show (twoAndOne true).toNat = 2 by decide]
  rfl

end BitcoinServer.Solution
