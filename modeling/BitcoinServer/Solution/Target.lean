import BitcoinServer.Solution.Uint256

/-!
Contract: the target and the seed that a difficulty and a seed field stand for.

`soln_handler` and `work_handler` read the difficulty with `%x`, swap its bytes with
`ntohl` and hand it to `get_target`; they copy the seed with `%s` and decode it two
digits at a time.
-/

namespace BitcoinServer.Solution

open CText

/-! ## Byte order -/

inductive Host where
  | littleEndian
  | bigEndian
deriving DecidableEq, Repr

/-- The bytes of a `count`-byte integer from its lowest address on. -/
def Host.memory (host : Host) (count value : Nat) : List UInt8 :=
  let bytes := (List.range count).map fun i => UInt8.ofNat (value >>> (8 * i))
  match host with
  | .littleEndian => bytes
  | .bigEndian => bytes.reverse

/-- `ntohl`, and `htonl`: the memory of the argument read as a big-endian number. -/
def ntohl (host : Host) (value : UInt32) : UInt32 :=
  UInt32.ofNat (BigEndian.toNat (host.memory 4 value.toNat))

/-! ## The source's functions -/

/-- `hstob` on a buffer from `pos` on, with `size` bytes to go. -/
def hstob : List UInt8 → Nat → List UInt8
  | _, 0 => []
  | pos, size + 1 =>
      (match sscanf [.hex (some 2) 8] (cString pos) with
        | .number value :: _ => UInt8.ofNat value
        | _ => 0) :: hstob (pos.drop 2) size

theorem length_hstob (pos : List UInt8) (size : Nat) : (hstob pos size).length = size := by
  induction size generalizing pos with
  | zero => rfl
  | succ size inductionHypothesis => rw [hstob, List.length_cons, inductionHypothesis]

/-- `seed_from_raw`. -/
def seedFromRaw (rawSeed : List UInt8) : Uint256 := ⟨hstob rawSeed 32, length_hstob rawSeed 32⟩

/-- `hstob` decodes digits up to the terminator behind them. -/
theorem hstob_digits (count : Nat) (digits rest : List UInt8)
    (allHex : ∀ byte ∈ digits, IsHex byte) (even : digits.length = 2 * count) :
    hstob (digits ++ 0 :: rest) count = spelledBytes digits := by
  induction count generalizing digits with
  | zero =>
      rw [List.length_eq_zero_iff.mp even]
      rfl
  | succ count inductionHypothesis =>
      match digits, even with
      | high :: low :: digits, even =>
          have tailHex : ∀ byte ∈ digits, IsHex byte := fun byte member =>
            allHex byte (List.mem_cons_of_mem _ (List.mem_cons_of_mem _ member))
          have pairHex : ∀ byte ∈ [high, low], IsHex byte := fun byte member =>
            allHex byte (List.mem_append_left digits member)
          have whole : cString ([high, low] ++ digits ++ 0 :: rest) = [high, low] ++ digits :=
            cString_append_nul (fun byte member => (allHex byte member).separates.2.2.2.2.2) rest
          have read := scanHex_digits [high, low] digits 2 pairHex (by simp) (Nat.le_refl 2)
            (by simp) (.inl ⟨rfl, Nat.le_refl 2⟩)
          have small : hexNumber [high, low] % 2 ^ 8 = hexNumber [high, low] :=
            Nat.mod_eq_of_lt (hexNumber_lt [high, low])
          have starts : ([high, low] ++ digits).dropWhile isSpace = [high, low] ++ digits :=
            dropWhile_isSpace_of_head (by
              rintro byte ⟨⟩
              exact (allHex high List.mem_cons_self).separates.1)
          show hstob ([high, low] ++ digits ++ 0 :: rest) (count + 1) = _
          rw [hstob, whole, sscanf]
          simp only [starts, Option.getD_some, read, small]
          show UInt8.ofNat (hexNumber [high, low]) :: hstob (digits ++ 0 :: rest) count = _
          rw [inductionHypothesis digits tailHex (by simp only [List.length_cons] at even; omega)]
          rfl

/-- The bytes that 64 digits spell. -/
def seedOf (digits : HexField 64) : Uint256 :=
  ⟨spelledBytes digits.digits, spelledBytes_length 32 _ digits.length_eq⟩

theorem seedFromRaw_digits (digits : HexField 64) (rest : List UInt8) :
    seedFromRaw (digits.digits ++ 0 :: rest) = seedOf digits :=
  Uint256.ext (hstob_digits 32 digits.digits rest digits.isHex digits.length_eq)

/-- `get_target`. -/
def getTarget (difficulty : UInt32) : Uint256 :=
  let alpha : Int := (difficulty &&& 0xFF).toNat
  let beta := ((uint256Init.set 29 ((difficulty >>> 8) &&& 0xFF).toUInt8).set 30
    ((difficulty >>> 16) &&& 0xFF).toUInt8).set 31 ((difficulty >>> 24) &&& 0xFF).toUInt8
  uint256Mul beta (uint256Exp byteTwo (UInt32.ofInt (8 * (alpha - 3))))

/-! ## The target -/

/-- A three-byte number in a `Uint256`. -/
theorem toNat_low_bytes (high middle low : UInt8) :
    (((uint256Init.set 29 high).set 30 middle).set 31 low).toNat =
      high.toNat * 2 ^ 16 + middle.toNat * 2 ^ 8 + low.toNat := by
  show BigEndian.toNat (List.replicate 29 0 ++ [high, middle, low]) = _
  rw [BigEndian.toNat_append, BigEndian.toNat_zeros, BigEndian.toNat_cons, BigEndian.toNat_cons,
    BigEndian.toNat_singleton]
  simp only [List.length_cons, List.length_nil]
  omega

/-- `alpha` of `get_target`. -/
def alphaOf (difficulty : UInt32) : Nat := difficulty.toNat % 256

/-- The number in `beta` of `get_target`: bits 8-15, 16-23 and 24-31 in this order. -/
def betaOf (difficulty : UInt32) : Nat :=
  difficulty.toNat / 2 ^ 8 % 2 ^ 8 * 2 ^ 16 + difficulty.toNat / 2 ^ 16 % 2 ^ 8 * 2 ^ 8 +
    difficulty.toNat / 2 ^ 24

/-- Where the exponent is a number of bytes, `get_target` shifts `beta` by so many. -/
theorem toNat_getTarget_shift (difficulty : UInt32) (count : Nat) (inWord : 8 * count < 2 ^ 32)
    (exponent : UInt32.ofInt (8 * ((alphaOf difficulty : Int) - 3)) = UInt32.ofNat (8 * count)) :
    (getTarget difficulty).toNat = betaOf difficulty * 256 ^ count % 2 ^ 256 := by
  have low : (difficulty &&& 0xFF).toNat = alphaOf difficulty := by
    rw [UInt32.toNat_and]
    exact Nat.and_two_pow_sub_one_eq_mod difficulty.toNat 8
  have byte : ∀ shift : UInt32, shift.toNat < 32 →
      ((difficulty >>> shift) &&& 0xFF).toUInt8.toNat =
        difficulty.toNat / 2 ^ shift.toNat % 2 ^ 8 := by
    intro shift inRange
    rw [UInt32.toNat_toUInt8, UInt32.toNat_and, UInt32.toNat_shiftRight,
      Nat.mod_eq_of_lt inRange, Nat.shiftRight_eq_div_pow,
      show (0xFF : UInt32).toNat = 2 ^ 8 - 1 from rfl, Nat.and_two_pow_sub_one_eq_mod]
    omega
  have topByte : difficulty.toNat / 2 ^ 24 % 2 ^ 8 = difficulty.toNat / 2 ^ 24 :=
    Nat.mod_eq_of_lt (Nat.div_lt_of_lt_mul difficulty.toNat_lt)
  unfold getTarget
  rw [low]
  show (uint256Mul _
    (uint256Exp byteTwo (UInt32.ofInt (8 * ((alphaOf difficulty : Int) - 3))))).toNat = _
  rw [exponent, uint256Exp_byteTwo _ inWord, uint256Mul_pow256, Uint256.toNat_shiftBytes,
    toNat_low_bytes, byte 8 (by decide), byte 16 (by decide), byte 24 (by decide)]
  show (_ + difficulty.toNat / 2 ^ 24 % 2 ^ 8) * _ % _ = _
  rw [topByte]
  rfl

theorem toNat_getTarget (difficulty : UInt32) (atLeast : 3 ≤ alphaOf difficulty) :
    (getTarget difficulty).toNat =
      betaOf difficulty * 2 ^ (8 * (alphaOf difficulty - 3)) % 2 ^ 256 := by
  have isByte : alphaOf difficulty < 256 := Nat.mod_lt _ (by decide)
  have exponent : UInt32.ofInt (8 * ((alphaOf difficulty : Int) - 3)) =
      UInt32.ofNat (8 * (alphaOf difficulty - 3)) := by
    rw [UInt32.ofInt]
    congr 1
    omega
  have power : (256 : Nat) ^ (alphaOf difficulty - 3) = 2 ^ (8 * (alphaOf difficulty - 3)) := by
    rw [Nat.pow_mul]
  rw [toNat_getTarget_shift difficulty _ (by omega) exponent, power]

/-- `get_target` shifts `beta`, whose big-endian bytes are bits 8-15, 16-23 and 24-31 of the
difficulty, left by `alpha - 3` bytes; what leaves the 256 bits is lost. -/
theorem getTarget_expands (difficulty : UInt32) (atLeast : 3 ≤ difficulty.toNat % 256) :
    BigEndian.toNat (getTarget difficulty).bytes =
      BigEndian.toNat [(difficulty >>> 8).toUInt8, (difficulty >>> 16).toUInt8,
        (difficulty >>> 24).toUInt8] * 2 ^ (8 * (difficulty.toNat % 256 - 3)) % 2 ^ 256 := by
  have byte : ∀ shift : UInt32, shift.toNat < 32 →
      (difficulty >>> shift).toUInt8.toNat = difficulty.toNat / 2 ^ shift.toNat % 2 ^ 8 := by
    intro shift inRange
    rw [UInt32.toNat_toUInt8, UInt32.toNat_shiftRight, Nat.mod_eq_of_lt inRange,
      Nat.shiftRight_eq_div_pow]
  have first : (difficulty >>> 8).toUInt8.toNat = difficulty.toNat / 2 ^ 8 % 2 ^ 8 :=
    byte 8 (by decide)
  have second : (difficulty >>> 16).toUInt8.toNat = difficulty.toNat / 2 ^ 16 % 2 ^ 8 :=
    byte 16 (by decide)
  have third : (difficulty >>> 24).toUInt8.toNat = difficulty.toNat / 2 ^ 24 := by
    have top : difficulty.toNat / 2 ^ 24 < 2 ^ 8 := Nat.div_lt_of_lt_mul difficulty.toNat_lt
    exact (byte 24 (by decide)).trans (Nat.mod_eq_of_lt top)
  have beta : BigEndian.toNat [(difficulty >>> 8).toUInt8, (difficulty >>> 16).toUInt8,
      (difficulty >>> 24).toUInt8] = betaOf difficulty := by
    rw [BigEndian.toNat_cons, BigEndian.toNat_cons, BigEndian.toNat_singleton, first, second,
      third, betaOf]
    simp only [List.length_cons, List.length_nil]
    omega
  rw [beta]
  exact toNat_getTarget difficulty atLeast

/-- The largest `beta` with an `alpha` of 34 loses its two leading bytes. -/
theorem getTarget_expands_overflowing :
    BigEndian.toNat (getTarget 0xFFFFFF22).bytes = 0xFF * 2 ^ 248 := by
  rw [getTarget_expands 0xFFFFFF22 (by decide)]
  decide

/-! ## Small exponents -/

/-- A negative `8 * (alpha - 3)` is passed as a `uint32_t` near `2 ^ 32`. -/
theorem toNat_exponent {alpha : Nat} (below : alpha < 3) :
    (UInt32.ofInt (8 * ((alpha : Int) - 3))).toNat = 2 ^ 32 - 8 * (3 - alpha) := by
  rw [UInt32.ofInt, UInt32.toNat_ofNat']
  omega

/-- The power for such an exponent overflows to 0, and with it the target. -/
theorem toNat_getTarget_small (difficulty : UInt32) (below : alphaOf difficulty < 3) :
    (getTarget difficulty).toNat = 0 := by
  have exponent : UInt32.ofInt (8 * ((alphaOf difficulty : Int) - 3)) =
      UInt32.ofNat (8 * (2 ^ 29 - 3 + alphaOf difficulty)) := by
    apply UInt32.toNat_inj.mp
    rw [toNat_exponent below, UInt32.toNat_ofNat']
    omega
  have bytes : (2 : Nat) ^ 256 = 256 ^ 32 := by norm_num
  rw [toNat_getTarget_shift difficulty _ (by omega) exponent, bytes]
  exact Nat.mod_eq_zero_of_dvd (Nat.dvd_mul_left_of_dvd (Nat.pow_dvd_pow 256 (by omega)) _)

/-- For an `alpha` below 3 the target is the formula rounded down where that is 0, and only
there; the exponent that is passed wraps around for each of them, so no `alpha` below 3 is
handled as it should be. -/
theorem getTarget_small_wraps (difficulty : UInt32) (below : difficulty.toNat % 256 < 3) :
    let alpha := difficulty.toNat % 256
    let beta := BigEndian.toNat [(difficulty >>> 8).toUInt8, (difficulty >>> 16).toUInt8,
      (difficulty >>> 24).toUInt8]
    let exponent : Int := 8 * ((alpha : Int) - 3)
    ¬ (getTarget difficulty = .ofNat (beta / 2 ^ (8 * (3 - alpha))) ∧
      ((UInt32.ofInt exponent).toNat : Int) = exponent) ∧
    (getTarget difficulty = .ofNat (beta / 2 ^ (8 * (3 - alpha))) ↔
      beta < 2 ^ (8 * (3 - alpha))) ∧
    (UInt32.ofInt exponent).toNat = 2 ^ 32 - 8 * (3 - alpha) := by
  intro alpha beta exponent
  have passed : (UInt32.ofInt exponent).toNat = 2 ^ 32 - 8 * (3 - alpha) := toNat_exponent below
  have negative : exponent < 0 := by
    show 8 * ((alpha : Int) - 3) < 0
    have small : (alpha : Int) < 3 := Int.ofNat_lt.mpr below
    omega
  refine ⟨?_, ?_, passed⟩
  · rintro ⟨_, unwrapped⟩
    omega
  · have small : beta < 256 ^ 3 := BigEndian.toNat_lt _
    have shrinks : beta / 2 ^ (8 * (3 - alpha)) ≤ beta := Nat.div_le_self _ _
    have fits : beta / 2 ^ (8 * (3 - alpha)) < 2 ^ 256 :=
      Nat.lt_of_le_of_lt shrinks (Nat.lt_trans small (by norm_num))
    rw [Uint256.eq_ofNat_iff, toNat_getTarget_small difficulty below, Nat.mod_eq_of_lt fits,
      eq_comm, Nat.div_eq_zero_iff_lt (Nat.two_pow_pos _)]

/-- Argument `0x00020001` has an `alpha` of 1 and a `beta` of 512: its target is right, its
exponent is not. -/
theorem getTarget_small_wraps_one :
    getTarget 0x00020001 = .ofNat (512 / 2 ^ 16) ∧
      (UInt32.ofInt (8 * ((1 : Int) - 3))).toNat = 2 ^ 32 - 16 :=
  ⟨(getTarget_small_wraps 0x00020001 (by decide)).2.1.mpr (by decide),
    (getTarget_small_wraps 0x00020001 (by decide)).2.2⟩

/-- With an `alpha` of 2 the target of any `beta` from 256 on is lost. -/
theorem getTarget_small_lost :
    ¬ ∀ difficulty : UInt32, difficulty.toNat % 256 < 3 →
      getTarget difficulty = .ofNat (BigEndian.toNat [(difficulty >>> 8).toUInt8,
        (difficulty >>> 16).toUInt8, (difficulty >>> 24).toUInt8] /
          2 ^ (8 * (3 - difficulty.toNat % 256))) := by
  intro always
  have target := always 0xFFFFFF02 (by decide)
  rw [Uint256.eq_ofNat_iff, toNat_getTarget_small _ (by decide)] at target
  exact absurd target (by decide)

/-! ## Difficulty fields -/

/-- The first byte that the digits of a difficulty spell. -/
def alphaField (digits : HexField 8) : Nat := hexNumber (digits.digits.take 2)

/-- The number that the other three bytes spell. -/
def betaField (digits : HexField 8) : Nat := hexNumber (digits.digits.drop 2)

theorem alphaField_betaField (digits : HexField 8) :
    alphaField digits = digits.number / 2 ^ 24 ∧ betaField digits = digits.number % 2 ^ 24 := by
  have rest : (digits.digits.drop 2).length = 6 := by
    rw [List.length_drop, digits.length_eq]
  have split := hexNumber_append (digits.digits.take 2) (digits.digits.drop 2)
  have small := hexNumber_lt (digits.digits.drop 2)
  rw [List.take_append_drop, rest] at split
  rw [rest] at small
  unfold alphaField betaField HexField.number
  omega

/-- `ntohl` on a little-endian host reverses the four bytes. -/
theorem toNat_ntohl_littleEndian (value : UInt32) :
    (ntohl .littleEndian value).toNat =
      value.toNat % 2 ^ 8 * 2 ^ 24 + value.toNat / 2 ^ 8 % 2 ^ 8 * 2 ^ 16 +
        value.toNat / 2 ^ 16 % 2 ^ 8 * 2 ^ 8 + value.toNat / 2 ^ 24 := by
  have top : value.toNat / 2 ^ 24 < 2 ^ 8 := Nat.div_lt_of_lt_mul value.toNat_lt
  show (UInt32.ofNat (BigEndian.toNat [UInt8.ofNat value.toNat, UInt8.ofNat (value.toNat >>> 8),
    UInt8.ofNat (value.toNat >>> 16), UInt8.ofNat (value.toNat >>> 24)])).toNat = _
  rw [BigEndian.toNat_cons, BigEndian.toNat_cons, BigEndian.toNat_cons,
    BigEndian.toNat_singleton]
  simp only [UInt8.toNat_ofNat', UInt32.toNat_ofNat', Nat.shiftRight_eq_div_pow, List.length_cons,
    List.length_nil, Nat.mod_eq_of_lt top]
  have low := Nat.mod_lt value.toNat (by decide : 0 < 2 ^ 8)
  have second := Nat.mod_lt (value.toNat / 2 ^ 8) (by decide : 0 < 2 ^ 8)
  have third := Nat.mod_lt (value.toNat / 2 ^ 16) (by decide : 0 < 2 ^ 8)
  rw [Nat.mod_eq_of_lt (by omega)]
  omega

theorem toNat_ntohl_bigEndian (value : UInt32) : (ntohl .bigEndian value).toNat = value.toNat := by
  have top : value.toNat / 2 ^ 24 < 2 ^ 8 := Nat.div_lt_of_lt_mul value.toNat_lt
  show (UInt32.ofNat (BigEndian.toNat [UInt8.ofNat (value.toNat >>> 24),
    UInt8.ofNat (value.toNat >>> 16), UInt8.ofNat (value.toNat >>> 8),
    UInt8.ofNat value.toNat])).toNat = _
  rw [BigEndian.toNat_cons, BigEndian.toNat_cons, BigEndian.toNat_cons,
    BigEndian.toNat_singleton]
  simp only [UInt8.toNat_ofNat', UInt32.toNat_ofNat', Nat.shiftRight_eq_div_pow, List.length_cons,
    List.length_nil, Nat.mod_eq_of_lt top]
  have bytes : value.toNat / 2 ^ 24 * 256 ^ (0 + 1 + 1 + 1) +
      (value.toNat / 2 ^ 16 % 2 ^ 8 * 256 ^ (0 + 1 + 1) +
        (value.toNat / 2 ^ 8 % 2 ^ 8 * 256 ^ (0 + 1) + value.toNat % 2 ^ 8)) = value.toNat := by
    omega
  rw [bytes, Nat.mod_eq_of_lt value.toNat_lt]

/-- The base-256 digits of a four-digit number. -/
private theorem four_digits {number first second third last : Nat}
    (spelled : number = first * 2 ^ 24 + second * 2 ^ 16 + third * 2 ^ 8 + last)
    (isSecond : second < 2 ^ 8) (isThird : third < 2 ^ 8) (isLast : last < 2 ^ 8) :
    number % 256 = last ∧ number / 2 ^ 8 % 2 ^ 8 = third ∧ number / 2 ^ 16 % 2 ^ 8 = second ∧
      number / 2 ^ 24 = first := by
  refine ⟨?_, ?_, ?_, ?_⟩ <;> omega

/-- `htonl` takes back what `ntohl` does. -/
theorem ntohl_ntohl (host : Host) (value : UInt32) : ntohl host (ntohl host value) = value := by
  apply UInt32.toNat_inj.mp
  match host with
  | .bigEndian => rw [toNat_ntohl_bigEndian, toNat_ntohl_bigEndian]
  | .littleEndian =>
      have top : value.toNat / 2 ^ 24 < 2 ^ 8 := Nat.div_lt_of_lt_mul value.toNat_lt
      obtain ⟨low, third, second, high⟩ :=
        four_digits (toNat_ntohl_littleEndian value) (Nat.mod_lt _ (by decide))
          (Nat.mod_lt _ (by decide)) top
      have last : (ntohl .littleEndian value).toNat % 2 ^ 8 = value.toNat / 2 ^ 24 := low
      rw [toNat_ntohl_littleEndian, high, second, third, last]
      clear low last third second high
      omega

private theorem three_digits (number : Nat) :
    number / 2 ^ 16 % 2 ^ 8 * 2 ^ 16 + number / 2 ^ 8 % 2 ^ 8 * 2 ^ 8 + number % 2 ^ 8 =
      number % 2 ^ 24 := by
  omega

/-- `%x` and `ntohl` take the digits of a difficulty to a number whose lowest byte
is the first one spelled. -/
theorem ntohl_field (digits : HexField 8) :
    alphaOf (ntohl .littleEndian (UInt32.ofNat digits.number)) = alphaField digits ∧
      betaOf (ntohl .littleEndian (UInt32.ofNat digits.number)) = betaField digits := by
  obtain ⟨alpha, beta⟩ := alphaField_betaField digits
  have bound : digits.number < 2 ^ 32 := digits.number_lt
  have number : (UInt32.ofNat digits.number).toNat = digits.number :=
    UInt32.toNat_ofNat_of_lt' bound
  obtain ⟨low, third, second, high⟩ :=
    four_digits (toNat_ntohl_littleEndian (UInt32.ofNat digits.number))
      (Nat.mod_lt _ (by decide)) (Nat.mod_lt _ (by decide)) (by rw [number]; omega)
  rw [number] at low third second high
  rw [alpha, beta]
  unfold alphaOf betaOf
  rw [low, third, second, high]
  exact ⟨rfl, three_digits _⟩

end BitcoinServer.Solution
