import Mathlib.Algebra.Group.Defs
import Mathlib.Algebra.Group.Nat.Defs

/-!
Contract: powers by squaring, from the lowest binary digit of the exponent up.

`acc` is squared in every round and multiplied into `temp` where the exponent is odd. The
rounds end at the exponent 1, and one product of the two follows.

Owns the value of the loop over a monoid, the products that it makes over any operation, their
number, and that two operations which agree on these products give one result.
-/

namespace SquareMultiply

universe u

variable {M : Type u} (mul : M → M → M)

/-- The rounds, and the product behind them. -/
def loop (exp : Nat) (acc temp : M) : M :=
  if 1 < exp then
    if exp % 2 = 0 then loop (exp / 2) (mul acc acc) temp
    else loop ((exp - 1) / 2) (mul acc acc) (mul acc temp)
  else mul acc temp
termination_by exp
decreasing_by all_goals omega

/-- The factors of the products, in the order in which they are made. -/
def products (exp : Nat) (acc temp : M) : List (M × M) :=
  if 1 < exp then
    if exp % 2 = 0 then (acc, acc) :: products (exp / 2) (mul acc acc) temp
    else (acc, temp) :: (acc, acc) :: products ((exp - 1) / 2) (mul acc acc) (mul acc temp)
  else [(acc, temp)]
termination_by exp
decreasing_by all_goals omega

/-- Where `acc` and `temp` are numbered, the rounds add their numbers: in each the number of `acc`
times the exponent, with that of `temp`, stays what it was. -/
theorem loop_numbered (accOf tempOf : Nat → M) (Reached : Nat → Nat → Prop)
    (square : ∀ p q, Reached p q → mul (accOf p) (accOf p) = accOf (p + p))
    (product : ∀ p q, Reached p q → mul (accOf p) (tempOf q) = tempOf (p + q))
    (even : ∀ p q, Reached p q → Reached (p + p) q)
    (odd : ∀ p q, Reached p q → Reached (p + p) (p + q))
    {exp p q : Nat} (positive : 0 < exp) (reached : Reached p q) :
    loop mul exp (accOf p) (tempOf q) = tempOf (p * exp + q) := by
  induction exp using Nat.strongRecOn generalizing p q with
  | ind exp inductionHypothesis =>
      rw [loop]
      by_cases more : 1 < exp
      · rw [if_pos more]
        rcases Nat.mod_two_eq_zero_or_one exp with isEven | isOdd
        · have whole : 2 * (exp / 2) = exp := by omega
          rw [if_pos isEven, square p q reached,
            inductionHypothesis (exp / 2) (by omega) (by omega) (even p q reached)]
          congr 1
          calc (p + p) * (exp / 2) + q = p * (2 * (exp / 2)) + q := by
                rw [← Nat.two_mul, Nat.mul_right_comm, Nat.mul_comm (2 * _) p]
            _ = p * exp + q := by rw [whole]
        · have whole : 2 * ((exp - 1) / 2) + 1 = exp := by omega
          rw [if_neg (by omega), square p q reached, product p q reached,
            inductionHypothesis ((exp - 1) / 2) (by omega) (by omega) (odd p q reached)]
          congr 1
          calc (p + p) * ((exp - 1) / 2) + (p + q)
              = p * (2 * ((exp - 1) / 2)) + p + q := by
                rw [← Nat.two_mul, Nat.mul_right_comm, Nat.mul_comm (2 * _) p, Nat.add_assoc]
            _ = p * exp + q := by rw [← Nat.mul_succ, Nat.succ_eq_add_one, whole]
      · rw [if_neg more, product p q reached, show exp = 1 by omega, Nat.mul_one]

/-- Over a monoid the loop has the power of its first `acc`. -/
theorem loop_eq [Monoid M] {exp : Nat} (positive : 0 < exp) (acc temp : M) :
    loop (· * ·) exp acc temp = acc ^ exp * temp := by
  have square : ∀ p : Nat, acc ^ p * acc ^ p = acc ^ (p + p) := fun p => (pow_add acc p p).symm
  have product : ∀ p q : Nat, acc ^ p * (acc ^ q * temp) = acc ^ (p + q) * temp := fun p q => by
    rw [pow_add, mul_assoc]
  have numbered : loop (· * ·) exp (acc ^ 1) (acc ^ 0 * temp) = acc ^ (1 * exp + 0) * temp :=
    loop_numbered (· * ·) (acc ^ ·) (acc ^ · * temp) (fun _ _ => True) (fun p _ _ => square p)
      (fun p q _ => product p q) (fun _ _ _ => trivial) (fun _ _ _ => trivial) positive trivial
  rwa [pow_one, pow_zero, one_mul, Nat.one_mul, Nat.add_zero] at numbered

/-- Two operations that agree on the products of one run give its result. -/
theorem loop_congr {other : M → M → M} {exp : Nat} {acc temp : M}
    (agree : ∀ factors ∈ products mul exp acc temp,
      mul factors.1 factors.2 = other factors.1 factors.2) :
    loop mul exp acc temp = loop other exp acc temp := by
  fun_induction loop mul exp acc temp with
  | case1 exp acc temp more even inductionHypothesis =>
      rw [products, if_pos more, if_pos even] at agree
      obtain ⟨square, later⟩ := List.forall_mem_cons.mp agree
      conv => rhs; rw [loop, if_pos more, if_pos even]
      rw [inductionHypothesis later, square]
  | case2 exp acc temp more odd inductionHypothesis =>
      rw [products, if_pos more, if_neg odd] at agree
      obtain ⟨product, square, later⟩ := List.forall_mem_cons.mp agree |>.imp_right
        List.forall_mem_cons.mp
      conv => rhs; rw [loop, if_pos more, if_neg odd]
      rw [inductionHypothesis later, square, product]
  | case3 exp acc temp last =>
      rw [products, if_neg last] at agree
      conv => rhs; rw [loop, if_neg last]
      exact agree (acc, temp) (List.mem_singleton_self _)

/-- A round makes two products at most, and halves the exponent. -/
theorem length_products_le {exp : Nat} (digits : Nat) (below : exp < 2 ^ (digits + 1))
    (acc temp : M) : (products mul exp acc temp).length ≤ 2 * digits + 1 := by
  induction digits generalizing exp acc temp with
  | zero =>
      rw [products, if_neg (by omega)]
      exact Nat.le_refl 1
  | succ digits inductionHypothesis =>
      have half : exp / 2 < 2 ^ (digits + 1) := by
        rw [Nat.pow_succ] at below
        omega
      have even := inductionHypothesis half (mul acc acc) temp
      have odd := inductionHypothesis (by omega : (exp - 1) / 2 < 2 ^ (digits + 1))
        (mul acc acc) (mul acc temp)
      rw [products]
      by_cases more : 1 < exp
      · rw [if_pos more]
        by_cases isEven : exp % 2 = 0
        · rw [if_pos isEven, List.length_cons]
          omega
        · rw [if_neg isEven, List.length_cons, List.length_cons]
          omega
      · rw [if_neg more, List.length_singleton]
        omega

end SquareMultiply
