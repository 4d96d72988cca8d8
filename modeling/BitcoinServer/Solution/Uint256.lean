import BitcoinServer.Library.BigEndian
import BitcoinServer.Library.CText
import BitcoinServer.Library.SquareMultiply
import Mathlib.Tactic.Common

/-!
Contract: the 256-bit arithmetic of `uint256.h`.

A `Uint256` is a `BYTE[32]`, read as a big-endian number. The functions here
take the destination's old bytes where the source leaves some of them in place,
and a destination other than the operands.

Owns what the square-and-multiply of a target needs: multiplication by a power
of two with a multiple of 8 as its exponent is one shift by whole bytes, and
the powers of two that `uint256_exp` goes through from `2 ^ 8` on stay of this
kind. The other operands, and destinations that are operands, are left to the
modules after this one.
-/

namespace BitcoinServer.Solution

/-- A `BYTE[32]`. -/
structure Uint256 where
  bytes : List UInt8
  length_eq : bytes.length = 32
deriving DecidableEq

namespace Uint256

/-- `a[i]`. -/
def byte (a : Uint256) (i : Nat) : UInt8 := a.bytes.getD i 0

/-- `a[i] = value`. -/
def set (a : Uint256) (i : Nat) (value : UInt8) : Uint256 :=
  ⟨a.bytes.set i value, by rw [List.length_set, a.length_eq]⟩

def toNat (a : Uint256) : Nat := BigEndian.toNat a.bytes

@[ext] theorem ext {a b : Uint256} (same : a.bytes = b.bytes) : a = b := by
  cases a
  cases b
  cases same
  rfl

theorem ext_byte {a b : Uint256} (same : ∀ i < 32, a.byte i = b.byte i) : a = b := by
  apply ext
  apply List.ext_getElem (by rw [a.length_eq, b.length_eq])
  intro i inA inB
  have atByte := same i (by rw [← a.length_eq]; exact inA)
  simpa [byte, List.getD_eq_getElem?_getD, inA, inB] using atByte

theorem byte_set (a : Uint256) {i k : Nat} (value : UInt8) (inRange : i < 32) :
    (a.set i value).byte k = if k = i then value else a.byte k := by
  unfold byte set
  simp only [List.getD_eq_getElem?_getD, List.getElem?_set, a.length_eq, inRange]
  by_cases same : k = i
  · simp [same]
  · simp [same, Ne.symm same]

/-- The big-endian bytes of a number modulo `2 ^ 256`. -/
def ofNat (number : Nat) : Uint256 :=
  ⟨BigEndian.ofNat 32 number, BigEndian.length_ofNat 32 number⟩

theorem toNat_lt (a : Uint256) : a.toNat < 2 ^ 256 := by
  have bound := BigEndian.toNat_lt a.bytes
  rw [a.length_eq] at bound
  exact bound

theorem toNat_ofNat (number : Nat) : (ofNat number).toNat = number % 2 ^ 256 :=
  BigEndian.toNat_ofNat 32 number

theorem toNat_byte (a : Uint256) {k : Nat} (inRange : k < 32) :
    (a.byte k).toNat = a.toNat / 256 ^ (31 - k) % 256 := by
  have digit := BigEndian.toNat_getD a.bytes (i := k) (by rw [a.length_eq]; exact inRange)
  rw [a.length_eq] at digit
  exact digit

theorem eq_ofNat_iff (a : Uint256) (number : Nat) :
    a = ofNat number ↔ a.toNat = number % 2 ^ 256 := by
  constructor
  · rintro rfl
    exact toNat_ofNat number
  · intro same
    apply ext
    apply BigEndian.eq_of_toNat_eq
    · rw [a.length_eq, (ofNat number).length_eq]
    · exact same.trans (toNat_ofNat number).symm

/-- Thirty-two bytes are a number when each is its digit. -/
theorem eq_ofNat_iff_byte (a : Uint256) (number : Nat) :
    a = ofNat number ↔ ∀ k < 32, (a.byte k).toNat = number / 256 ^ (31 - k) % 256 := by
  have digit : ∀ k < 32, ((ofNat number).byte k).toNat = number / 256 ^ (31 - k) % 256 := by
    intro k inRange
    rw [toNat_byte _ inRange, toNat_ofNat, show 2 ^ 256 = 256 ^ 32 by rfl,
      BigEndian.digit_mod number (by omega)]
  constructor
  · rintro rfl
    exact digit
  · intro same
    apply ext_byte
    intro k inRange
    apply UInt8.toNat_inj.mp
    rw [same k inRange, digit k inRange]

end Uint256

/-- `uint256_init`. -/
def uint256Init : Uint256 := ⟨List.replicate 32 0, by simp⟩

/-- The loop of `uint256_sl`, with `i + 1` iterations to go. -/
def slLoop (a : Uint256) (moveN mask : UInt8) : Nat → Nat → UInt8 → Uint256 → Uint256
  | 0, _, _, res => res
  | i + 1, j, carry, res =>
      slLoop a moveN mask i (j - 1) ((a.byte j &&& mask) >>> moveN)
        (res.set i ((a.byte j <<< moveN) ||| carry))

/-- `uint256_sl` into a buffer that holds `res`. -/
def uint256Sl (res a : Uint256) (shift : UInt8) : Uint256 :=
  let b := shift / 8
  let moveN := shift % 8
  let mask := UInt8.ofNat (0xff <<< (8 - moveN.toNat))
  if shift = 0 then a
  else slLoop a moveN mask (32 - b.toNat) 31 0 res

/-- The loop of `uint256_add`, with `left` iterations to go. -/
def addLoop (aa bb : Uint256) : Nat → UInt16 → Uint256 → Uint256
  | 0, _, res => res
  | left + 1, temp, res =>
      let i := 31 - left
      let sum := (temp >>> 8) + ((aa.byte i).toUInt16 + (bb.byte i).toUInt16)
      addLoop aa bb left sum (res.set i (sum &&& 0xff).toUInt8)

/-- `uint256_add` into a buffer that holds `res`. -/
def uint256Add (res a b : Uint256) : Uint256 := addLoop a b 32 0 res

/-- Bit `i` of `bb`, counted from the most significant: `bb[i/8] & (1 << (7 - (i % 8)))`. -/
def testBit (bb : Uint256) (i : Nat) : Bool :=
  bb.byte (i / 8) &&& (1 <<< UInt8.ofNat (7 - i % 8)) > 0

/-- The loop of `uint256_mul`, with `i + 1` iterations to go. -/
def mulLoop (aa bb : Uint256) : Nat → Uint256 → Uint256 → Uint256
  | 0, _, acc => acc
  | i + 1, temp, acc =>
      if testBit bb i then
        let shifted := uint256Sl temp aa (UInt8.ofNat (255 - i))
        mulLoop aa bb i shifted (uint256Add acc acc shifted)
      else mulLoop aa bb i temp acc

/-- `uint256_mul`; every byte of the destination is written. -/
def uint256Mul (a b : Uint256) : Uint256 := mulLoop a b 256 uint256Init uint256Init

/-- `1`, as `uint256_exp` spells it. -/
def uint256One : Uint256 := uint256Init.set 31 1

/-- The loop of `uint256_exp` and the product after it. -/
def expLoop (exp : Nat) (acc temp : Uint256) : Uint256 :=
  if 1 < exp then
    if exp % 2 = 0 then expLoop (exp / 2) (uint256Mul acc acc) temp
    else expLoop ((exp - 1) / 2) (uint256Mul acc acc) (uint256Mul acc temp)
  else uint256Mul acc temp
termination_by exp
decreasing_by all_goals omega

/-- `uint256_exp` into a buffer other than `base`. -/
def uint256Exp (base : Uint256) (exp : UInt32) : Uint256 :=
  if exp = 0 then uint256One else expLoop exp.toNat base uint256One

/-- `BYTE_TWO`. -/
def byteTwo : Uint256 := uint256Init.set 31 2

/-! ## Shifts by whole bytes -/

/-- `a` shifted left by `m` bytes, in 32 bytes. -/
def Uint256.shiftBytes (a : Uint256) (m : Nat) : Uint256 :=
  ⟨(a.bytes ++ List.replicate m 0).drop m, by simp [a.length_eq]⟩

namespace Uint256

theorem byte_of_le (a : Uint256) {i : Nat} (beyond : 32 ≤ i) : a.byte i = 0 := by
  have length := a.length_eq
  unfold byte
  rw [List.getD_eq_getElem?_getD, List.getElem?_eq_none (by omega)]
  rfl

theorem byte_shiftBytes (a : Uint256) (m k : Nat) (inRange : k < 32) :
    (a.shiftBytes m).byte k = a.byte (k + m) := by
  have length := a.length_eq
  unfold shiftBytes byte
  simp only [List.getD_eq_getElem?_getD, List.getElem?_drop, List.getElem?_append, length]
  by_cases inside : m + k < 32
  · rw [if_pos inside, Nat.add_comm m k]
  · rw [if_neg inside, List.getElem?_replicate, if_pos (by omega),
      List.getElem?_eq_none (by omega)]
    rfl

theorem shiftBytes_shiftBytes (a : Uint256) (m k : Nat) :
    (a.shiftBytes m).shiftBytes k = a.shiftBytes (m + k) := by
  apply ext_byte
  intro i inRange
  rw [byte_shiftBytes _ _ _ inRange, byte_shiftBytes _ _ _ inRange]
  by_cases inside : i + k < 32
  · rw [byte_shiftBytes _ _ _ inside]
    congr 1
    omega
  · rw [byte_of_le _ (by omega), byte_of_le _ (by omega)]

theorem shiftBytes_zero (a : Uint256) : a.shiftBytes 0 = a := by
  apply ext
  simp [shiftBytes]

/-- Shifting by bytes multiplies by a power of 256. -/
theorem toNat_shiftBytes (a : Uint256) (m : Nat) :
    (a.shiftBytes m).toNat = a.toNat * 256 ^ m % 2 ^ 256 := by
  have length : (a.bytes ++ List.replicate m 0).length - m = 32 := by
    rw [List.length_append, a.length_eq, List.length_replicate]
    omega
  unfold toNat shiftBytes
  rw [BigEndian.toNat_drop, BigEndian.toNat_append_zeros, length,
    show (256 : Nat) ^ 32 = 2 ^ 256 by norm_num]

end Uint256

theorem byte_uint256Init (k : Nat) : uint256Init.byte k = 0 := by
  show (List.replicate 32 (0 : UInt8)).getD k 0 = 0
  rw [List.getD_eq_getElem?_getD, List.getElem?_replicate]
  split <;> rfl

/-- What the loop of `uint256_sl` writes, byte by byte. -/
theorem byte_slLoop (a : Uint256) (moveN mask : UInt8) (count j : Nat) (carry : UInt8)
    (res : Uint256) (inRange : count ≤ 32) (reach : count ≤ j + 1) (k : Nat) :
    (slLoop a moveN mask count j carry res).byte k =
      if k < count then
        (a.byte (k + (j + 1 - count)) <<< moveN) |||
          if k + 1 = count then carry
          else (a.byte (k + 1 + (j + 1 - count)) &&& mask) >>> moveN
      else res.byte k := by
  induction count generalizing j carry res with
  | zero => rfl
  | succ i inductionHypothesis =>
      rw [slLoop]
      rcases Nat.eq_zero_or_pos i with isLast | more
      · subst isLast
        rw [slLoop, Uint256.byte_set _ _ (by omega)]
        by_cases first : k = 0
        · subst first
          simp
        · simp [first]
      · rw [inductionHypothesis (j - 1) _ _ (by omega) (by omega),
          Uint256.byte_set _ _ (by omega)]
        rw [show j - 1 + 1 - i = j + 1 - (i + 1) by omega]
        rcases Nat.lt_trichotomy k i with below | same | above
        · have inside : k < i + 1 := by omega
          have notFirst : ¬ k + 1 = i + 1 := by omega
          simp only [below, inside, notFirst, if_true, if_false]
          by_cases last : k + 1 = i
          · rw [if_pos last, last, show i + (j + 1 - (i + 1)) = j by omega]
          · rw [if_neg last]
        · subst same
          rw [if_neg (by omega), if_pos rfl, if_pos (by omega), if_pos rfl,
            show k + (j + 1 - (k + 1)) = j by omega]
        · rw [if_neg (by omega), if_neg (by omega), if_neg (by omega)]

/-- A shift by `m` bytes into a zeroed buffer. -/
theorem uint256Sl_bytes (a : Uint256) {m : Nat} (inRange : m < 32) :
    uint256Sl uint256Init a (UInt8.ofNat (8 * m)) = a.shiftBytes m := by
  have shift : (UInt8.ofNat (8 * m)).toNat = 8 * m := UInt8.toNat_ofNat_of_lt' (by
    unfold UInt8.size
    omega)
  by_cases isZero : m = 0
  · subst isZero
    rw [a.shiftBytes_zero]
    rfl
  · have notZero : ¬ UInt8.ofNat (8 * m) = 0 := by
      intro same
      rw [same, UInt8.toNat_zero] at shift
      omega
    have whole : UInt8.ofNat (8 * m) % 8 = 0 := by
      apply UInt8.toNat_inj.mp
      rw [UInt8.toNat_mod, shift]
      simp
    have bytes : (UInt8.ofNat (8 * m) / 8).toNat = m := by
      rw [UInt8.toNat_div, shift]
      simp
    apply Uint256.ext_byte
    intro k inBuffer
    unfold uint256Sl
    rw [if_neg notZero, bytes, whole, byte_slLoop _ _ _ _ _ _ _ (by omega) (by omega),
      Uint256.byte_shiftBytes _ _ _ inBuffer]
    rw [show UInt8.ofNat (0xff <<< (8 - (0 : UInt8).toNat)) = 0 by rfl]
    by_cases inside : k < 32 - m
    · rw [if_pos inside, show k + (31 + 1 - (32 - m)) = k + m by omega]
      split <;> simp
    · rw [if_neg inside, Uint256.byte_of_le a (by omega)]
      exact byte_uint256Init k

/-! ## Products with one bit -/

theorem byte_addLoop_zero (x : Uint256) (left : Nat) (temp : UInt16) (res : Uint256)
    (inRange : left ≤ 32) (noCarry : temp >>> 8 = 0) (k : Nat) (inBuffer : k < 32) :
    (addLoop uint256Init x left temp res).byte k =
      if 32 - left ≤ k then x.byte k else res.byte k := by
  have everyByte : ∀ byte : UInt8, (byte.toUInt16 >>> 8 = 0) ∧
      (byte.toUInt16 &&& 0xff).toUInt8 = byte := CText.forall_byte (by decide +kernel)
  induction left generalizing temp res with
  | zero => rw [addLoop, if_neg (by omega)]
  | succ left inductionHypothesis =>
      have sum : (temp >>> 8) + ((uint256Init.byte (31 - left)).toUInt16 +
          (x.byte (31 - left)).toUInt16) = (x.byte (31 - left)).toUInt16 := by
        rw [noCarry, byte_uint256Init]
        simp
      rw [addLoop, sum, inductionHypothesis _ _ (by omega) (everyByte _).1, (everyByte _).2,
        Uint256.byte_set _ _ (by omega)]
      rcases Nat.lt_trichotomy k (31 - left) with below | same | above
      · rw [if_neg (by omega), if_neg (by omega), if_neg (by omega)]
      · rw [if_neg (by omega), if_pos same, if_pos (by omega), same]
      · rw [if_pos (by omega), if_pos (by omega)]

/-- Adding to zero copies. -/
theorem uint256Add_zero (x : Uint256) : uint256Add uint256Init uint256Init x = x := by
  apply Uint256.ext_byte
  intro k inBuffer
  rw [uint256Add, byte_addLoop_zero x 32 0 _ (Nat.le_refl _) rfl k inBuffer, if_pos (by omega)]

theorem mulLoop_none (aa bb : Uint256) (count : Nat) (temp acc : Uint256)
    (clear : ∀ i < count, testBit bb i = false) : mulLoop aa bb count temp acc = acc := by
  induction count with
  | zero => rfl
  | succ i inductionHypothesis =>
      rw [mulLoop, if_neg (by simp [clear i (Nat.lt_succ_self i)])]
      exact inductionHypothesis fun j below => clear j (by omega)

/-- A factor with one bit set costs one shift. -/
theorem mulLoop_single (aa bb : Uint256) (p : Nat) (isSet : testBit bb p = true)
    (count : Nat) (only : ∀ i < count, testBit bb i = true → i = p) (inRange : p < count) :
    mulLoop aa bb count uint256Init uint256Init =
      uint256Sl uint256Init aa (UInt8.ofNat (255 - p)) := by
  induction count with
  | zero => omega
  | succ i inductionHypothesis =>
      rw [mulLoop]
      by_cases atBit : i = p
      · subst atBit
        rw [if_pos isSet]
        show mulLoop aa bb i _ (uint256Add uint256Init uint256Init _) = _
        rw [uint256Add_zero]
        apply mulLoop_none
        intro j below
        by_contra alsoSet
        rw [Bool.not_eq_false] at alsoSet
        have same := only j (by omega) alsoSet
        omega
      · have clear : ¬ testBit bb i = true := fun alsoSet => atBit (only i (by omega) alsoSet)
        rw [if_neg clear]
        exact inductionHypothesis (fun j below => only j (by omega)) (by omega)

/-! ## Powers of 256 -/

/-- `256 ^ m`, which is 0 from `m = 32` on. -/
def pow256 (m : Nat) : Uint256 := uint256One.shiftBytes m

theorem byte_uint256One (k : Nat) : uint256One.byte k = if k = 31 then 1 else 0 := by
  rw [uint256One, Uint256.byte_set _ _ (by decide), byte_uint256Init]

theorem testBit_pow256 (m i : Nat) (inRange : i < 256) :
    testBit (pow256 m) i = true ↔ i + 8 * m = 255 := by
  have everyShift : ∀ shift : Fin 8,
      decide ((1 : UInt8) &&& (1 <<< UInt8.ofNat shift) > 0) = decide (shift = 0) := by decide
  have byte : (pow256 m).byte (i / 8) = if i / 8 + m = 31 then 1 else 0 := by
    rw [pow256, Uint256.byte_shiftBytes _ _ _ (by omega), byte_uint256One]
  unfold testBit
  rw [byte]
  by_cases atByte : i / 8 + m = 31
  · have atShift := everyShift ⟨7 - i % 8, by omega⟩
    rw [if_pos atByte, atShift, decide_eq_true_iff, Fin.ext_iff]
    simp only [Fin.val_zero]
    omega
  · rw [if_neg atByte]
    simp only [UInt8.zero_and, gt_iff_lt, UInt8.lt_irrefl, decide_false, Bool.false_eq_true,
      false_iff]
    omega

/-- Multiplying by a power of 256 shifts by bytes. -/
theorem uint256Mul_pow256 (a : Uint256) (m : Nat) : uint256Mul a (pow256 m) = a.shiftBytes m := by
  unfold uint256Mul
  by_cases inRange : m < 32
  · have only : ∀ i < 256, testBit (pow256 m) i = true → i = 255 - 8 * m := by
      intro i inBits isSet
      have atBit := (testBit_pow256 m i inBits).mp isSet
      omega
    have isSet : testBit (pow256 m) (255 - 8 * m) = true :=
      (testBit_pow256 m _ (by omega)).mpr (by omega)
    rw [mulLoop_single a _ _ isSet 256 only (by omega), show 255 - (255 - 8 * m) = 8 * m by omega,
      uint256Sl_bytes a inRange]
  · rw [mulLoop_none]
    · apply Uint256.ext_byte
      intro k inBuffer
      rw [byte_uint256Init, Uint256.byte_shiftBytes _ _ _ inBuffer,
        Uint256.byte_of_le _ (by omega)]
    · intro i inBits
      by_contra isSet
      rw [Bool.not_eq_false, testBit_pow256 m i inBits] at isSet
      omega

theorem uint256Mul_pow256_pow256 (m k : Nat) :
    uint256Mul (pow256 m) (pow256 k) = pow256 (m + k) := by
  rw [uint256Mul_pow256, pow256, Uint256.shiftBytes_shiftBytes, pow256]

theorem loop_uint256Mul (exp : Nat) (acc temp : Uint256) :
    SquareMultiply.loop uint256Mul exp acc temp = expLoop exp acc temp := by
  fun_induction expLoop exp acc temp with
  | case1 exp acc temp more even inductionHypothesis =>
      rw [SquareMultiply.loop, if_pos more, if_pos even]
      exact inductionHypothesis
  | case2 exp acc temp more odd inductionHypothesis =>
      rw [SquareMultiply.loop, if_pos more, if_neg odd]
      exact inductionHypothesis
  | case3 exp acc temp last => rw [SquareMultiply.loop, if_neg last]

/-- Square-and-multiply on powers of 256. -/
theorem expLoop_pow256 (exp p q : Nat) (positive : 0 < exp) :
    expLoop exp (pow256 p) (pow256 q) = pow256 (p * exp + q) := by
  rw [← loop_uint256Mul]
  exact SquareMultiply.loop_numbered uint256Mul pow256 pow256 (fun _ _ => True)
    (fun m _ _ => uint256Mul_pow256_pow256 m m) (fun m k _ => uint256Mul_pow256_pow256 m k)
    (fun _ _ _ => trivial) (fun _ _ _ => trivial) positive trivial

theorem uint256One_eq_pow256 : uint256One = pow256 0 :=
  (Uint256.shiftBytes_zero uint256One).symm

private theorem square_two : uint256Mul byteTwo byteTwo = uint256Init.set 31 4 := by
  decide +kernel

private theorem square_four :
    uint256Mul (uint256Init.set 31 4) (uint256Init.set 31 4) = uint256Init.set 31 16 := by
  decide +kernel

/-- The one square that carries from byte to byte does so by half a byte. -/
private theorem square_sixteen :
    uint256Mul (uint256Init.set 31 16) (uint256Init.set 31 16) = pow256 1 := by
  decide +kernel

/-- Two to a multiple of 8. -/
theorem uint256Exp_byteTwo (k : Nat) (isUint32 : 8 * k < 2 ^ 32) :
    uint256Exp byteTwo (UInt32.ofNat (8 * k)) = pow256 k := by
  have value : (UInt32.ofNat (8 * k)).toNat = 8 * k := UInt32.toNat_ofNat_of_lt' isUint32
  unfold uint256Exp
  rcases Nat.eq_zero_or_pos k with isZero | positive
  · subst isZero
    exact uint256One_eq_pow256
  · have notZero : ¬ UInt32.ofNat (8 * k) = 0 := by
      intro same
      rw [same, UInt32.toNat_zero] at value
      omega
    rw [if_neg notZero, value]
    rw [expLoop, if_pos (by omega), if_pos (by omega), square_two,
      show 8 * k / 2 = 4 * k by omega]
    rw [expLoop, if_pos (by omega), if_pos (by omega), square_four,
      show 4 * k / 2 = 2 * k by omega]
    rw [expLoop, if_pos (by omega), if_pos (by omega), square_sixteen,
      show 2 * k / 2 = k by omega]
    rw [uint256One_eq_pow256, expLoop_pow256 k 1 0 positive, Nat.one_mul, Nat.add_zero]

end BitcoinServer.Solution
