import BitcoinServer.Solution.Sum

/-!
Contract: what `uint256_sl` computes.

The bits that leave a byte are masked and then shifted down by `move_n` where the next
byte needs them shifted down by `8 - move_n`. The two are the same for `move_n = 4`,
and for `move_n = 0`, where no bit leaves its byte. The last `shift / 8` bytes of the
destination keep what they held.

Owns the bytes that the loop stores and the exact set of operands, shifts and
destinations for which they are those of the product with a power of two.
-/

namespace BitcoinServer.Solution

/-- `(a[j] & mask) >> move_n`. -/
def carriedBits (moveN byte : UInt8) : UInt8 :=
  (byte &&& UInt8.ofNat (0xff <<< (8 - moveN.toNat))) >>> moveN

/-- A shift whose carried bits come out in the right place, or an operand that has none
to carry. -/
def ShiftsCleanly (a : Uint256) (shift : UInt8) : Prop :=
  shift.toNat % 8 = 0 ∨ shift.toNat % 8 = 4 ∨
    ∀ j < 32, shift.toNat / 8 < j → (a.byte j).toNat < 2 ^ (8 - shift.toNat % 8)

/-- The bytes that a shift does not write are zeros. -/
def TailClear (res : Uint256) (shift : UInt8) : Prop :=
  ∀ k < 32, 32 - shift.toNat / 8 ≤ k → res.byte k = 0

instance (a : Uint256) (shift : UInt8) : Decidable (ShiftsCleanly a shift) :=
  inferInstanceAs (Decidable (_ ∨ _ ∨ ∀ j < 32, _))

instance (res : Uint256) (shift : UInt8) : Decidable (TailClear res shift) :=
  inferInstanceAs (Decidable (∀ k < 32, _))

/-! ## One byte -/

/-- The carried bits against the bits that leave the byte, for every byte and every
`move_n`. -/
private theorem carriedBits_cases : ∀ (n : Fin 8) (byte : Fin 256),
    let carried := carriedBits (UInt8.ofNat n) (UInt8.ofNat byte)
    (n.val = 0 ∨ n.val = 4 → carried.toNat = byte / 2 ^ (8 - n.val)) ∧
      (byte.val < 2 ^ (8 - n.val) → carried.toNat = 0) ∧
      (carried.toNat % 2 ^ n.val = byte / 2 ^ (8 - n.val) →
        n.val = 0 ∨ n.val = 4 ∨ byte.val < 2 ^ (8 - n.val)) := by
  decide +kernel

section Byte

variable {moveN : UInt8} (inByte : moveN.toNat < 8) (byte carried next : UInt8)

include inByte

theorem carriedBits_eq (clean : moveN.toNat = 0 ∨ moveN.toNat = 4 ∨
    next.toNat < 2 ^ (8 - moveN.toNat)) :
    (carriedBits moveN next).toNat = next.toNat / 2 ^ (8 - moveN.toNat) := by
  obtain ⟨right, none, -⟩ := carriedBits_cases ⟨moveN.toNat, inByte⟩ ⟨next.toNat, next.toNat_lt⟩
  simp only [UInt8.ofNat_toNat] at right none
  rcases clean with whole | half | small
  · exact right (Or.inl whole)
  · exact right (Or.inr half)
  · rw [none small, Nat.div_eq_of_lt small]

theorem clean_of_carriedBits
    (same : (carriedBits moveN next).toNat % 2 ^ moveN.toNat =
      next.toNat / 2 ^ (8 - moveN.toNat)) :
    moveN.toNat = 0 ∨ moveN.toNat = 4 ∨ next.toNat < 2 ^ (8 - moveN.toNat) := by
  obtain ⟨-, -, clean⟩ := carriedBits_cases ⟨moveN.toNat, inByte⟩ ⟨next.toNat, next.toNat_lt⟩
  simp only [UInt8.ofNat_toNat] at clean
  exact clean same

theorem toNat_shifted :
    (byte <<< moveN).toNat = 2 ^ moveN.toNat * (byte.toNat % 2 ^ (8 - moveN.toNat)) := by
  have split : 2 ^ moveN.toNat * 2 ^ (8 - moveN.toNat) = 2 ^ 8 := by
    rw [← Nat.pow_add, Nat.add_sub_cancel' (Nat.le_of_lt inByte)]
  rw [UInt8.toNat_shiftLeft, Nat.mod_eq_of_lt inByte, Nat.shiftLeft_eq, Nat.mul_comm, ← split,
    Nat.mul_mod_mul_left]

/-- The lower bits of a stored byte are the carried ones. -/
theorem shifted_or_mod :
    ((byte <<< moveN) ||| carried).toNat % 2 ^ moveN.toNat =
      carried.toNat % 2 ^ moveN.toNat := by
  rw [UInt8.toNat_or, Nat.or_mod_two_pow, toNat_shifted inByte, Nat.mul_mod_right, Nat.zero_or]

/-- Carried bits that fit below the shifted ones are added to them. -/
theorem shifted_or_of_lt (fits : carried.toNat < 2 ^ moveN.toNat) :
    ((byte <<< moveN) ||| carried).toNat =
      (byte.toNat * 2 ^ moveN.toNat + carried.toNat) % 256 := by
  have split : 256 = 2 ^ moveN.toNat * 2 ^ (8 - moveN.toNat) := by
    rw [← Nat.pow_add, Nat.add_sub_cancel' (Nat.le_of_lt inByte)]
  rw [UInt8.toNat_or, toNat_shifted inByte, ← Nat.two_pow_add_eq_or_of_lt fits,
    Nat.mul_comm byte.toNat, Nat.add_comm, Nat.add_comm (_ * byte.toNat), split, Nat.mod_mul,
    Nat.add_mul_mod_self_left, Nat.mod_eq_of_lt fits, Nat.add_mul_div_left _ _ (Nat.two_pow_pos _),
    Nat.div_eq_of_lt fits, Nat.zero_add]

theorem bits_out_lt : next.toNat / 2 ^ (8 - moveN.toNat) < 2 ^ moveN.toNat := by
  have split : 256 = 2 ^ (8 - moveN.toNat) * 2 ^ moveN.toNat := by
    rw [← Nat.pow_add, Nat.sub_add_cancel (Nat.le_of_lt inByte)]
  have bound : next.toNat < 256 := next.toNat_lt
  rw [split] at bound
  exact Nat.div_lt_of_lt_mul bound

/-- A stored byte is right exactly when its carried bits are. -/
theorem stored_byte_iff :
    ((byte <<< moveN) ||| carriedBits moveN next).toNat =
        (byte.toNat * 2 ^ moveN.toNat + next.toNat / 2 ^ (8 - moveN.toNat)) % 256 ↔
      moveN.toNat = 0 ∨ moveN.toNat = 4 ∨ next.toNat < 2 ^ (8 - moveN.toNat) := by
  have fits := bits_out_lt inByte next
  constructor
  · intro stored
    apply clean_of_carriedBits inByte
    have lower := congrArg (· % 2 ^ moveN.toNat) stored
    have divides : 2 ^ moveN.toNat ∣ 256 := ⟨2 ^ (8 - moveN.toNat), by
      rw [← Nat.pow_add, Nat.add_sub_cancel' (Nat.le_of_lt inByte)]⟩
    simp only [shifted_or_mod inByte, Nat.mod_mod_of_dvd _ divides, Nat.mul_add_mod_self_right,
      Nat.mod_eq_of_lt fits] at lower
    exact lower
  · intro clean
    rw [shifted_or_of_lt inByte _ _ (by rw [carriedBits_eq inByte next clean]; exact fits),
      carriedBits_eq inByte next clean]

end Byte

/-! ## All bytes -/

section Shift

variable (res a : Uint256) (shift : UInt8)

theorem toNat_moveN : (shift % 8).toNat = shift.toNat % 8 := by
  rw [UInt8.toNat_mod]
  rfl

theorem toNat_moveBytes : (shift / 8).toNat = shift.toNat / 8 := by
  rw [UInt8.toNat_div]
  rfl

/-- What a shift stores; a byte behind the last one carries nothing. -/
theorem byte_uint256Sl {k : Nat} (inBuffer : k < 32) :
    (uint256Sl res a shift).byte k =
      if k + shift.toNat / 8 < 32 then
        (a.byte (k + shift.toNat / 8) <<< (shift % 8)) |||
          carriedBits (shift % 8) (a.byte (k + shift.toNat / 8 + 1))
      else res.byte k := by
  have shiftBound := shift.toNat_lt
  unfold uint256Sl
  by_cases isZero : shift = 0
  · subst isZero
    have copied := (stored_byte_iff (by decide : (0 % 8 : UInt8).toNat < 8) (a.byte k)
      (a.byte (k + 1))).mpr (Or.inl rfl)
    have first := (a.byte k).toNat_lt
    have second := (a.byte (k + 1)).toNat_lt
    rw [if_pos rfl]
    show a.byte k = if k < 32 then (a.byte k <<< (0 % 8)) ||| carriedBits (0 % 8) (a.byte (k + 1))
      else res.byte k
    rw [if_pos inBuffer]
    apply UInt8.toNat_inj.mp
    rw [copied, show (0 % 8 : UInt8).toNat = 0 from rfl]
    omega
  · rw [if_neg isZero, toNat_moveBytes, byte_slLoop _ _ _ _ _ _ _ (by omega) (by omega)]
    by_cases inside : k + shift.toNat / 8 < 32
    · rw [if_pos (by omega), if_pos inside,
        show k + (31 + 1 - (32 - shift.toNat / 8)) = k + shift.toNat / 8 by omega,
        show k + 1 + (31 + 1 - (32 - shift.toNat / 8)) = k + shift.toNat / 8 + 1 by omega]
      by_cases last : k + 1 = 32 - shift.toNat / 8
      · rw [if_pos last, a.byte_of_le (i := k + shift.toNat / 8 + 1) (by omega), carriedBits,
          UInt8.zero_and, UInt8.zero_shiftRight]
      · rw [if_neg last]
        rfl
    · rw [if_neg (by omega), if_neg inside]

/-- What the product with `2 ^ shift` has in the same place. -/
theorem digit_shifted {k : Nat} (inBuffer : k < 32) :
    a.toNat * 2 ^ shift.toNat / 256 ^ (31 - k) % 256 =
      if k + shift.toNat / 8 < 32 then
        ((a.byte (k + shift.toNat / 8)).toNat * 2 ^ (shift.toNat % 8) +
          (a.byte (k + shift.toNat / 8 + 1)).toNat / 2 ^ (8 - shift.toNat % 8)) % 256
      else 0 := by
  have inByte : shift.toNat % 8 ≤ 8 := Nat.le_of_lt (Nat.mod_lt _ (by decide))
  have whole : a.toNat * 2 ^ shift.toNat =
      a.toNat * 2 ^ (shift.toNat % 8) * 256 ^ (shift.toNat / 8) := by
    rw [Nat.mul_assoc, show (256 : Nat) = 2 ^ 8 from rfl, ← Nat.pow_mul, ← Nat.pow_add,
      Nat.mod_add_div]
  rw [whole]
  generalize shift.toNat / 8 = b
  generalize shift.toNat % 8 = n at inByte
  by_cases inside : k + b < 32
  · have places : 256 ^ (31 - k) = 256 ^ (31 - (k + b)) * 256 ^ b := by
      rw [← Nat.pow_add]
      congr 1
      omega
    rw [if_pos inside, places, Nat.mul_div_mul_right _ _ (Nat.pow_pos (by decide)),
      a.toNat_byte inside]
    rcases Nat.lt_or_ge (k + b + 1) 32 with more | last
    · rw [a.toNat_byte more, show 31 - (k + b) = 31 - (k + b + 1) + 1 by omega]
      exact BigEndian.digit_mul_two_pow _ _ inByte
    · rw [a.byte_of_le last, show 31 - (k + b) = 0 by omega]
      simp [Nat.mul_mod]
  · have places : 256 ^ b = 256 ^ (31 - k) * 256 * 256 ^ (b - (32 - k)) := by
      rw [← Nat.pow_succ, ← Nat.pow_add]
      congr 1
      omega
    rw [if_neg inside, places, ← Nat.mul_assoc, ← Nat.mul_assoc,
      Nat.mul_right_comm _ (256 ^ (31 - k)), Nat.mul_right_comm _ (256 ^ (31 - k)),
      Nat.mul_div_cancel _ (Nat.pow_pos (by decide)), Nat.mul_right_comm, Nat.mul_mod_left]

/-- A shift is exact exactly where nothing is misplaced and nothing left over. -/
theorem uint256Sl_eq_iff :
    uint256Sl res a shift = .ofNat (a.toNat * 2 ^ shift.toNat) ↔
      ShiftsCleanly a shift ∧ TailClear res shift := by
  have inByte : (shift % 8).toNat < 8 := by
    rw [toNat_moveN]
    exact Nat.mod_lt _ (by decide)
  rw [Uint256.eq_ofNat_iff_byte]
  constructor
  · intro stored
    constructor
    · by_contra misplaced
      simp only [ShiftsCleanly, not_or, not_forall, Nat.not_lt] at misplaced
      obtain ⟨notWhole, notHalf, j, inBuffer, behind, carries⟩ := misplaced
      have atByte := stored (j - 1 - shift.toNat / 8) (by omega)
      rw [byte_uint256Sl _ _ _ (by omega), digit_shifted _ _ (by omega), if_pos (by omega),
        if_pos (by omega), show j - 1 - shift.toNat / 8 + shift.toNat / 8 + 1 = j by omega,
        ← toNat_moveN, stored_byte_iff inByte, toNat_moveN] at atByte
      omega
    · intro k inBuffer unwritten
      have atByte := stored k inBuffer
      rw [byte_uint256Sl _ _ _ inBuffer, digit_shifted _ _ inBuffer, if_neg (by omega),
        if_neg (by omega)] at atByte
      exact UInt8.toNat_inj.mp atByte
  · rintro ⟨clean, clear⟩ k inBuffer
    rw [byte_uint256Sl _ _ _ inBuffer, digit_shifted _ _ inBuffer]
    by_cases inside : k + shift.toNat / 8 < 32
    · rw [if_pos inside, if_pos inside, ← toNat_moveN, stored_byte_iff inByte, toNat_moveN]
      rcases clean with whole | half | small
      · exact Or.inl whole
      · exact Or.inr (Or.inl half)
      · rcases Nat.lt_or_ge (k + shift.toNat / 8 + 1) 32 with more | last
        · exact Or.inr (Or.inr (small _ more (by omega)))
        · rw [a.byte_of_le last]
          exact Or.inr (Or.inr (Nat.two_pow_pos _))
    · rw [if_neg inside, if_neg inside, clear k inBuffer (by omega)]
      rfl

end Shift

/-- Into a zeroed buffer other than the operand a shift stores the product with its power
of two exactly when its carried bits come out in the right place. -/
theorem Store.shift_exact_iff {σ : Type} [DecidableEq σ] (s : Store σ) (res a : σ)
    (shift : UInt8) (apart : res ≠ a) (zeroed : s res = uint256Init) :
    s.uint256Sl res a shift res = .ofNat ((s a).toNat * 2 ^ shift.toNat) ↔
      ShiftsCleanly (s a) shift := by
  have clear : TailClear (s res) shift := fun k _ _ => by rw [zeroed, byte_uint256Init]
  rw [uint256Sl_eq s apart, Function.update_self, uint256Sl_eq_iff, and_iff_left clear]

/-- A buffer with `0x80` in its last byte, and a zeroed one. -/
def highBit : Store Bool := fun name => if name then uint256Init.set 31 0x80 else uint256Init

theorem Store.shift_exact_half :
    highBit.uint256Sl false true 4 false = .ofNat ((highBit true).toNat * 2 ^ 4) :=
  (Store.shift_exact_iff highBit false true 4 (by decide) rfl).mpr (by decide)

/-- `0x80 << 1` is `0x4000`. -/
theorem Store.shift_misplaces_carry :
    ¬ ∀ (s : Store Bool) (res a : Bool) (shift : UInt8), res ≠ a → s res = uint256Init →
      s.uint256Sl res a shift res = .ofNat ((s a).toNat * 2 ^ shift.toNat) := by
  intro always
  have stored := always highBit false true 1 (by decide) rfl
  rw [uint256Sl_eq _ (by decide), Function.update_self, uint256Sl_eq_iff] at stored
  exact absurd stored.1 (by decide)

/-! ## Two prior contents of the destination -/

/-- A stored byte depends on the destination only where the loop does not come. -/
theorem uint256Sl_congr_iff (first second a : Uint256) (shift : UInt8) :
    uint256Sl first a shift = uint256Sl second a shift ↔
      ∀ k < 32, 32 - shift.toNat / 8 ≤ k → first.byte k = second.byte k := by
  constructor
  · intro same k inBuffer unwritten
    have atByte := congrArg (Uint256.byte · k) same
    simp only [byte_uint256Sl _ _ _ inBuffer] at atByte
    rwa [if_neg (by omega), if_neg (by omega)] at atByte
  · intro agree
    apply Uint256.ext_byte
    intro k inBuffer
    rw [byte_uint256Sl _ _ _ inBuffer, byte_uint256Sl _ _ _ inBuffer]
    by_cases inside : k + shift.toNat / 8 < 32
    · rw [if_pos inside, if_pos inside]
    · rw [if_neg inside, if_neg inside]
      exact agree k inBuffer (by omega)

/-- Every prior content gives the same bytes for the shifts within a byte, and for no others. -/
theorem uint256Sl_forgets_iff (a : Uint256) (shift : UInt8) :
    (∀ first second, uint256Sl first a shift = uint256Sl second a shift) ↔ shift.toNat < 8 := by
  have bound := shift.toNat_lt
  constructor
  · intro same
    by_contra whole
    have atLast := (uint256Sl_congr_iff uint256Init uint256One a shift).mp (same _ _) 31
      (by decide) (by omega)
    exact absurd atLast (by decide)
  · intro within first second
    exact (uint256Sl_congr_iff first second a shift).mpr fun k inBuffer unwritten => by omega

/-- In place a shift reads nothing but its operand. -/
theorem Store.slLoop_congr {σ : Type} [DecidableEq σ] {s t : Store σ} {a : σ} (same : s a = t a)
    (moveN mask : UInt8) (count j : Nat) (carry : UInt8) :
    s.slLoop a a moveN mask count j carry a = t.slLoop a a moveN mask count j carry a := by
  induction count generalizing s t j carry with
  | zero => exact same
  | succ i inductionHypothesis =>
      have stored : ∀ value, (s.set a i value) a = (t.set a i value) a := fun value => by
        rw [Store.set, Store.set, Function.update_self, Function.update_self, same]
      simp only [slLoop]
      rw [same, stored]
      exact inductionHypothesis (stored _) _ _

theorem Store.uint256Sl_congr {σ : Type} [DecidableEq σ] {s t : Store σ} {a : σ}
    (same : s a = t a) (shift : UInt8) : s.uint256Sl a a shift a = t.uint256Sl a a shift a := by
  unfold uint256Sl
  by_cases isZero : shift = 0
  · simp only [if_pos isZero, memcpy_self, same]
  · simp only [if_neg isZero]
    exact slLoop_congr same _ _ _ _ _

/-- Two runs of a shift on the same operand store the same bytes exactly when the destination
held the same in its last `shift / 8` bytes. -/
theorem Store.shift_forgets_iff {σ : Type} [DecidableEq σ] (s t : Store σ) (res a : σ)
    (shift : UInt8) (same : s a = t a) :
    s.uint256Sl res a shift res = t.uint256Sl res a shift res ↔
      ∀ k < 32, 32 - shift.toNat / 8 ≤ k → (s res).byte k = (t res).byte k := by
  by_cases apart : res = a
  · subst apart
    refine iff_of_true (uint256Sl_congr same shift) fun k _ _ => ?_
    rw [same]
  · rw [uint256Sl_eq s apart, uint256Sl_eq t apart, Function.update_self, Function.update_self,
      same, uint256Sl_congr_iff]

/-- The same operand with the value 1 in the destination. -/
def overOne : Store Bool := fun name => if name then uint256Init.set 31 0x80 else uint256One

theorem Store.shift_forgets_within :
    highBit.uint256Sl false true 7 false = overOne.uint256Sl false true 7 false :=
  (Store.shift_forgets_iff highBit overOne false true 7 rfl).mpr fun _ inBuffer unwritten =>
    absurd inBuffer (Nat.not_lt.mpr unwritten)

/-- A shift by a whole byte keeps the last byte of the destination. -/
theorem Store.shift_keeps_tail :
    ¬ ∀ (s t : Store Bool) (res a : Bool) (shift : UInt8), s a = t a →
      s.uint256Sl res a shift res = t.uint256Sl res a shift res := by
  intro always
  have stored := always highBit overOne false true 8 rfl
  rw [uint256Sl_eq _ (by decide), uint256Sl_eq _ (by decide), Function.update_self,
    Function.update_self, show highBit true = overOne true from rfl, uint256Sl_congr_iff] at stored
  exact absurd (stored 31 (by decide) (by decide)) (by decide)

end BitcoinServer.Solution
