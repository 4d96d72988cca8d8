import BitcoinServer.Solution.Product

/-!
Contract: what `uint256_exp` computes, into a buffer of its own and into its base.

Its `acc` runs through the squares of the base and its `temp` collects those of the
binary digits that are set. `acc` gets the base only where the destination is another
buffer; a power of `base` into `base` starts from zeros.

Owns the powers of two, which are exact for every exponent, and the comparison of the
routines called in place with the same calls into a separate destination.
-/

namespace BitcoinServer.Solution

/-! ## Powers of two -/

/-- A byte of a power of two has at most one bit set. -/
theorem byte_two_pow_lt (p : Nat) {j r : Nat} (inBuffer : j < 32) (room : p % 8 + r < 8) :
    ((Uint256.ofNat (2 ^ p)).byte j).toNat < 2 ^ (8 - r) := by
  have digit := (Uint256.eq_ofNat_iff_byte (.ofNat (2 ^ p)) (2 ^ p)).mp rfl j inBuffer
  rw [digit, show (256 : Nat) = 2 ^ 8 from rfl, ← Nat.pow_mul]
  rcases Nat.lt_or_ge p (8 * (31 - j)) with small | large
  · rw [Nat.div_eq_of_lt (Nat.pow_lt_pow_right (by decide) small)]
    exact Nat.two_pow_pos _
  · rw [Nat.pow_div large (by decide)]
    rcases Nat.lt_or_ge (p - 8 * (31 - j)) 8 with inByte | above
    · rw [Nat.mod_eq_of_lt (Nat.pow_lt_pow_right (by decide) inByte)]
      exact Nat.pow_lt_pow_right (by decide) (by omega)
    · rw [Nat.mod_eq_zero_of_dvd (Nat.pow_dvd_pow 2 above)]
      exact Nat.two_pow_pos _

theorem addsBytewise_zero (x : Uint256) : AddsBytewise uint256Init x := by
  intro k _
  have bound := (x.byte k).toNat_lt
  rw [byte_uint256Init, UInt8.toNat_zero]
  omega

theorem ofNat_zero : Uint256.ofNat 0 = uint256Init := by decide

/-- Powers of two whose bits within a byte stay in one byte, or cross it by halves,
multiply exactly. -/
theorem uint256Mul_twos {p q : Nat} (crosses : q % 8 = 0 ∨ q % 8 = 4 ∨ p % 8 + q % 8 < 8) :
    uint256Mul (.ofNat (2 ^ p)) (.ofNat (2 ^ q)) = .ofNat (2 ^ (p + q)) := by
  have clean : MultipliesCleanly (.ofNat (2 ^ p)) (.ofNat (2 ^ q)) := by
    intro n inRange isSet
    have shift : (UInt8.ofNat n).toNat = n := UInt8.toNat_ofNat_of_lt' inRange
    rw [Uint256.toNat_ofNat, Nat.testBit_mod_two_pow, Nat.testBit_two_pow, Bool.and_eq_true,
      decide_eq_true_eq, decide_eq_true_eq] at isSet
    obtain ⟨-, rfl⟩ := isSet
    have nothing : (Uint256.ofNat (2 ^ q)).toNat % 2 ^ q = 0 := by
      rw [Uint256.toNat_ofNat, Nat.mod_mod_of_dvd _ (Nat.pow_dvd_pow 2 (Nat.le_of_lt inRange)),
        Nat.mod_self]
    refine ⟨?_, ?_, ?_⟩
    · unfold ShiftsCleanly
      rw [shift]
      rcases crosses with whole | half | within
      · exact Or.inl whole
      · exact Or.inr (Or.inl half)
      · exact Or.inr (Or.inr fun j inBuffer _ => byte_two_pow_lt p inBuffer within)
    · intro k _ _
      rw [rowBelow, if_pos nothing, byte_uint256Init]
    · rw [partialProduct, nothing, Nat.mul_zero, ofNat_zero]
      exact addsBytewise_zero _
  rw [uint256Mul_of_clean clean]
  apply Uint256.ofNat_congr
  rw [Uint256.toNat_ofNat, Uint256.toNat_ofNat, ← Nat.mul_mod, ← Nat.pow_add]

/-- The exponents `2 ^ k` that `acc` goes through, within a byte. -/
theorem two_pow_mod_eight (k : Nat) :
    2 ^ k = 1 ∨ 2 ^ k = 2 ∨ 2 ^ k = 4 ∨ 2 ^ k % 8 = 0 := by
  match k with
  | 0 => exact Or.inl rfl
  | 1 => exact Or.inr (Or.inl rfl)
  | 2 => exact Or.inr (Or.inr (Or.inl rfl))
  | k + 3 =>
      refine Or.inr (Or.inr (Or.inr ?_))
      rw [Nat.pow_add]
      omega

/-- Square-and-multiply on powers of two: `acc` holds `2 ^ (2 ^ k)` and `temp` the part of the
exponent that is less than `2 ^ k`. -/
theorem expLoop_twos (exp k r : Nat) (positive : 0 < exp) (below : r < 2 ^ k) :
    expLoop exp (.ofNat (2 ^ 2 ^ k)) (.ofNat (2 ^ r)) = .ofNat (2 ^ (2 ^ k * exp + r)) := by
  have double : ∀ k, 2 ^ k + 2 ^ k = 2 ^ (k + 1) := fun k => by rw [Nat.pow_succ, Nat.mul_two]
  rw [← loop_uint256Mul]
  refine SquareMultiply.loop_numbered uint256Mul (fun p => .ofNat (2 ^ p)) (fun q => .ofNat (2 ^ q))
    (fun p q => ∃ k, p = 2 ^ k ∧ q < 2 ^ k) ?square ?product ?even ?odd positive ⟨k, rfl, below⟩
  case square =>
    rintro p q ⟨k, rfl, -⟩
    have place := two_pow_mod_eight k
    exact uint256Mul_twos (by omega)
  case product =>
    rintro p q ⟨k, rfl, below⟩
    have place := two_pow_mod_eight k
    exact uint256Mul_twos (by omega)
  case even =>
    rintro p q ⟨k, rfl, below⟩
    exact ⟨k + 1, double k, by have := double k; omega⟩
  case odd =>
    rintro p q ⟨k, rfl, below⟩
    exact ⟨k + 1, double k, by have := double k; omega⟩

theorem exponent_pos {exp : UInt32} (nonzero : exp ≠ 0) : 0 < exp.toNat :=
  Nat.pos_of_ne_zero fun same => nonzero (UInt32.toNat_inj.mp same)

theorem uint256Exp_twos (exp : UInt32) :
    uint256Exp byteTwo exp = .ofNat (2 ^ exp.toNat) := by
  have two : byteTwo = .ofNat (2 ^ 2 ^ 0) := by decide
  have one : uint256One = .ofNat (2 ^ 0) := by decide
  unfold uint256Exp
  by_cases isZero : exp = 0
  · rw [if_pos isZero, isZero]
    exact one
  · rw [if_neg isZero, two, one, expLoop_twos _ 0 0 (exponent_pos isZero) (by decide),
      Nat.pow_zero, Nat.one_mul, Nat.add_zero]

/-- `uint256_exp` of `BYTE_TWO` into another buffer is exact for every exponent, and 0 from 256
on. -/
theorem Store.exp_two_exact {σ : Type} [DecidableEq σ] (s : Store σ) (res base : σ)
    (exp : UInt32) (apart : res ≠ base) (isTwo : s base = byteTwo) :
    s.uint256Exp res base exp res = .ofNat (2 ^ exp.toNat) ∧
      (256 ≤ exp.toNat → s.uint256Exp res base exp res = uint256Init) := by
  have power : s.uint256Exp res base exp res = .ofNat (2 ^ exp.toNat) := by
    rw [uint256Exp_eq s apart, Function.update_self, isTwo, uint256Exp_twos]
  refine ⟨power, fun large => ?_⟩
  rw [power, ← ofNat_zero]
  apply Uint256.ofNat_congr
  exact Nat.mod_eq_zero_of_dvd (Nat.pow_dvd_pow 2 large)

/-- `BYTE_TWO` and a second buffer. -/
def twoAndOne : Store Bool := fun name => if name then byteTwo else uint256One

theorem Store.exp_two_exact_high :
    twoAndOne.uint256Exp false true 0x3f false = .ofNat (2 ^ 63) :=
  (Store.exp_two_exact twoAndOne false true 0x3f (by decide) rfl).1

/-! ## Calls in place -/

theorem uint256Mul_zero (b : Uint256) : uint256Mul uint256Init b = uint256Init := by
  have row : ∀ n, Uint256.ofNat (uint256Init.toNat * n) = uint256Init := fun n => by
    rw [show uint256Init.toNat = 0 by decide, Nat.zero_mul, ofNat_zero]
  have clean : MultipliesCleanly uint256Init b := by
    intro n inRange _
    refine ⟨Or.inr (Or.inr fun j _ _ => ?_), fun k _ _ => ?_, ?_⟩
    · rw [byte_uint256Init]
      exact Nat.two_pow_pos _
    · rw [rowBelow, row, ite_self, byte_uint256Init]
    · rw [partialProduct, row]
      exact addsBytewise_zero _
  rw [uint256Mul_of_clean clean, row]

theorem expLoop_zero (exp : Nat) {acc : Uint256} (temp : Uint256) (zero : acc = uint256Init) :
    expLoop exp acc temp = uint256Init := by
  fun_induction expLoop exp acc temp with
  | case1 exp acc temp more even inductionHypothesis =>
      exact inductionHypothesis (by rw [zero, uint256Mul_zero])
  | case2 exp acc temp more odd inductionHypothesis =>
      exact inductionHypothesis (by rw [zero, uint256Mul_zero])
  | case3 exp acc temp last => rw [zero, uint256Mul_zero]

/-- Into its own base `uint256_exp` never copies the base. -/
theorem Store.uint256Exp_inPlace {σ : Type} [DecidableEq σ] (s : Store σ) (base : σ)
    (exp : UInt32) :
    s.uint256Exp base base exp base = if exp = 0 then uint256One else uint256Init := by
  unfold Store.uint256Exp
  by_cases isZero : exp = 0
  · rw [if_pos isZero, if_pos isZero, one_eq, Function.update_self]
  · have blank : ((s.push ExpLocal).set (.inr .temp) 31 1) (.inr .acc) = uint256Init :=
      Function.update_of_ne (by simp) _ _
    rw [if_neg isZero, if_neg isZero, if_neg (not_not_intro rfl)]
    show (((s.push ExpLocal).set (.inr .temp) 31 1).expLoop base exp.toNat).pop base = _
    rw [expLoop_eq, Function.update_self, expLoop_zero _ _ blank]

/-- Every choice of the destination is alike for `uint256_add` and `uint256_mul`. For
`uint256_exp` the base is, where the exponent or the base is 0; for any other exponent the call
leaves 0 in its base, which for `BYTE_TWO` is the power from 256 on. -/
theorem Store.in_place_agrees {σ : Type} [DecidableEq σ] (s : Store σ)
    (res dest a b base : σ) (exp : UInt32) (apart : dest ≠ base) :
    s.uint256Add res a b res = s.uint256Add dest a b dest ∧
    s.uint256Mul res a b res = s.uint256Mul dest a b dest ∧
    (exp = 0 ∨ s base = uint256Init →
      s.uint256Exp base base exp base = s.uint256Exp dest base exp dest) ∧
    (exp ≠ 0 → s.uint256Exp base base exp base = uint256Init) ∧
    (s base = byteTwo →
      (s.uint256Exp base base exp base = s.uint256Exp dest base exp dest ↔
        exp = 0 ∨ 256 ≤ exp.toNat)) := by
  rw [uint256Exp_inPlace, uint256Exp_eq s apart, Function.update_self]
  refine ⟨?sum, ?product, ?zero, fun nonzero => if_neg nonzero, ?two⟩
  case sum =>
    rw [uint256Add_eq, uint256Add_eq, Function.update_self, Function.update_self]
    exact uint256Add_congr _ _ _ _
  case product =>
    rw [uint256Mul_eq, uint256Mul_eq, Function.update_self, Function.update_self]
  case zero =>
    rintro (rfl | zero)
    · rfl
    · rw [zero, Solution.uint256Exp]
      split
      · rfl
      · exact (expLoop_zero _ _ rfl).symm
  case two =>
    intro isTwo
    rw [isTwo, uint256Exp_twos]
    by_cases isZero : exp = 0
    · rw [if_pos isZero, isZero]
      exact iff_of_true (by decide) (Or.inl rfl)
    · rw [if_neg isZero, or_iff_right isZero, Uint256.eq_ofNat_iff,
        show uint256Init.toNat = 0 by decide, eq_comm, ← Nat.dvd_iff_mod_eq_zero]
      exact Nat.pow_dvd_pow_iff_le_right (by decide)

/-- The power for the exponent 0, and powers of 0 and of `BYTE_TWO` that are 0. -/
theorem Store.in_place_agrees_zero :
    twoAndOne.uint256Exp true true 0 true = twoAndOne.uint256Exp false true 0 false ∧
      Store.uint256Exp (fun _ : Bool => uint256Init) true true 5 true =
        Store.uint256Exp (fun _ => uint256Init) false true 5 false ∧
      twoAndOne.uint256Exp true true 300 true = twoAndOne.uint256Exp false true 300 false :=
  ⟨(Store.in_place_agrees twoAndOne true false true true true 0 (by decide)).2.2.1 (Or.inl rfl),
    (Store.in_place_agrees (fun _ => uint256Init) true false true true true 5
      (by decide)).2.2.1 (Or.inr rfl),
    ((Store.in_place_agrees twoAndOne true false true true true 300
      (by decide)).2.2.2.2 rfl).mpr (Or.inr (by decide))⟩

/-- `2 ^ 1` into its own base is 0. -/
theorem Store.in_place_power_lost :
    ¬ ∀ (s : Store Bool) (res dest a b base : Bool) (exp : UInt32), dest ≠ base →
      s.uint256Add res a b res = s.uint256Add dest a b dest ∧
        s.uint256Mul res a b res = s.uint256Mul dest a b dest ∧
        s.uint256Exp base base exp base = s.uint256Exp dest base exp dest := by
  intro always
  obtain ⟨-, -, same⟩ := always twoAndOne true false true true true 1 (by decide)
  rw [uint256Exp_inPlace, uint256Exp_eq _ (by decide), Function.update_self] at same
  exact absurd same (by decide +kernel)

end BitcoinServer.Solution
