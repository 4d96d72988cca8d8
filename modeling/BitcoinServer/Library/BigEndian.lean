import Mathlib.Data.Nat.Digits.Defs
import Mathlib.Tactic.IntervalCases

/-!
Contract: big-endian numbers in byte lists.

Owns the value of a byte string read as a big-endian number, how it splits over
concatenation, dropping the leading bytes as a remainder, and the comparison of
two strings of one length by their first difference; the other way, the bytes of a
number; each byte as a digit; the carries of a sum, and the digits of a shifted number.
-/

namespace BigEndian

/-- The number whose base-256 digits are the bytes, most significant first. -/
def toNat (bytes : List UInt8) : Nat :=
  Nat.ofDigits 256 (bytes.reverse.map UInt8.toNat)

@[simp] theorem toNat_nil : toNat [] = 0 := rfl

theorem toNat_append (front back : List UInt8) :
    toNat (front ++ back) = toNat front * 256 ^ back.length + toNat back := by
  unfold toNat
  rw [List.reverse_append, List.map_append, Nat.ofDigits_append, List.length_map,
    List.length_reverse]
  ring

theorem toNat_singleton (byte : UInt8) : toNat [byte] = byte.toNat :=
  Nat.ofDigits_singleton

theorem toNat_cons (byte : UInt8) (rest : List UInt8) :
    toNat (byte :: rest) = byte.toNat * 256 ^ rest.length + toNat rest := by
  rw [← List.singleton_append, toNat_append, toNat_singleton]

theorem toNat_lt (bytes : List UInt8) : toNat bytes < 256 ^ bytes.length := by
  have digits : ∀ digit ∈ bytes.reverse.map UInt8.toNat, digit < 256 := by
    intro digit member
    obtain ⟨byte, _, rfl⟩ := List.mem_map.mp member
    exact byte.toNat_lt
  have bound := Nat.ofDigits_lt_base_pow_length (by decide : 1 < 256) digits
  rwa [List.length_map, List.length_reverse] at bound

theorem toNat_zeros (count : Nat) : toNat (List.replicate count 0) = 0 := by
  induction count with
  | zero => rfl
  | succ count inductionHypothesis =>
      rw [List.replicate_succ, toNat_cons, inductionHypothesis]
      simp

/-- Trailing zero bytes multiply. -/
theorem toNat_append_zeros (bytes : List UInt8) (count : Nat) :
    toNat (bytes ++ List.replicate count 0) = toNat bytes * 256 ^ count := by
  rw [toNat_append, toNat_zeros, List.length_replicate, Nat.add_zero]

/-- Dropping the leading bytes keeps the remainder. -/
theorem toNat_drop (bytes : List UInt8) (count : Nat) :
    toNat (bytes.drop count) = toNat bytes % 256 ^ (bytes.length - count) := by
  have bound := toNat_lt (bytes.drop count)
  have split := toNat_append (bytes.take count) (bytes.drop count)
  rw [List.take_append_drop] at split
  rw [List.length_drop] at bound split
  rw [split, Nat.mul_add_mod_of_lt bound]

/-- A smaller leading byte makes a smaller number. -/
theorem toNat_cons_lt {byte other : UInt8} {rest otherRest : List UInt8}
    (sameLength : rest.length = otherRest.length) (smaller : byte < other) :
    toNat (byte :: rest) < toNat (other :: otherRest) := by
  have bound := toNat_lt rest
  have first : byte.toNat + 1 ≤ other.toNat := UInt8.lt_iff_toNat_lt.mp smaller
  have product := Nat.mul_le_mul_right (256 ^ rest.length) first
  rw [toNat_cons, toNat_cons, ← sameLength]
  rw [Nat.add_mul, Nat.one_mul] at product
  omega

/-! ## The bytes of a number -/

/-- The lowest `count` bytes of a number, most significant first. -/
def ofNat : Nat → Nat → List UInt8
  | 0, _ => []
  | count + 1, number => ofNat count (number / 256) ++ [UInt8.ofNat number]

theorem length_ofNat (count number : Nat) : (ofNat count number).length = count := by
  induction count generalizing number with
  | zero => rfl
  | succ count inductionHypothesis =>
      rw [ofNat, List.length_append, inductionHypothesis, List.length_singleton]

theorem toNat_ofNat (count number : Nat) : toNat (ofNat count number) = number % 256 ^ count := by
  induction count generalizing number with
  | zero => rw [ofNat, toNat_nil, Nat.pow_zero, Nat.mod_one]
  | succ count inductionHypothesis =>
      have split : number % 256 ^ (count + 1) =
          number % 256 + 256 * (number / 256 % 256 ^ count) := by
        rw [Nat.pow_succ', Nat.mod_mul]
      rw [ofNat, toNat_append, inductionHypothesis, toNat_singleton, UInt8.toNat_ofNat',
        List.length_singleton, Nat.pow_one, split]
      omega

theorem toNat_ofNat_of_lt {count number : Nat} (bound : number < 256 ^ count) :
    toNat (ofNat count number) = number := by
  rw [toNat_ofNat, Nat.mod_eq_of_lt bound]

/-- Strings of one length are the same if they spell the same number. -/
theorem eq_of_toNat_eq {front back : List UInt8} (sameLength : front.length = back.length)
    (same : toNat front = toNat back) : front = back := by
  have digits : ∀ bytes : List UInt8, ∀ digit ∈ bytes.reverse.map UInt8.toNat, digit < 256 := by
    intro bytes digit member
    obtain ⟨byte, _, rfl⟩ := List.mem_map.mp member
    exact byte.toNat_lt
  have spelled := Nat.ofDigits_inj_of_len_eq (by decide : 1 < 256)
    (by rw [List.length_map, List.length_map, List.length_reverse, List.length_reverse, sameLength])
    (digits front) (digits back) same
  have reversed : front.reverse = back.reverse :=
    List.map_inj_right (fun _ _ => UInt8.toNat_inj.mp) |>.mp spelled
  exact List.reverse_inj.mp reversed

/-- Further bytes of a number that fits are zeros. -/
theorem ofNat_add {count number : Nat} (more : Nat) (bound : number < 256 ^ count) :
    ofNat (more + count) number = List.replicate more 0 ++ ofNat count number := by
  have wider : number < 256 ^ (more + count) :=
    Nat.lt_of_lt_of_le bound (Nat.pow_le_pow_right (by decide) (Nat.le_add_left count more))
  apply eq_of_toNat_eq
  · rw [length_ofNat, List.length_append, List.length_replicate, length_ofNat]
  · rw [toNat_ofNat_of_lt wider, toNat_append, toNat_zeros, toNat_ofNat_of_lt bound, Nat.zero_mul,
      Nat.zero_add]

/-! ## Single digits -/

/-- A byte of a string is a digit of its number. -/
theorem toNat_getD (bytes : List UInt8) {i : Nat} (inside : i < bytes.length) :
    (bytes.getD i 0).toNat = toNat bytes / 256 ^ (bytes.length - 1 - i) % 256 := by
  have parts : bytes = bytes.take i ++ bytes[i] :: bytes.drop (i + 1) := by
    rw [List.getElem_cons_drop, List.take_append_drop]
  have behind : (bytes.drop (i + 1)).length = bytes.length - 1 - i := by
    rw [List.length_drop]
    omega
  have below := toNat_lt (bytes.drop (i + 1))
  have number : toNat bytes = toNat (bytes.drop (i + 1)) + 256 ^ (bytes.length - 1 - i) *
      (bytes[i].toNat + 256 * toNat (bytes.take i)) := by
    conv => lhs; rw [parts]
    rw [toNat_append, toNat_cons, List.length_cons, behind]
    ring
  rw [behind] at below
  rw [number, Nat.add_mul_div_left _ _ (Nat.pow_pos (by decide)), Nat.div_eq_of_lt below,
    Nat.zero_add, Nat.add_mul_mod_self_left, Nat.mod_eq_of_lt bytes[i].toNat_lt,
    List.getD_eq_getElem?_getD, List.getElem?_eq_getElem inside, Option.getD_some]

/-- Cutting a number to its lowest bytes keeps their digits. -/
theorem digit_mod {k count : Nat} (number : Nat) (inside : k < count) :
    number % 256 ^ count / 256 ^ k % 256 = number / 256 ^ k % 256 := by
  have split : 256 ^ count = 256 ^ k * (256 * 256 ^ (count - 1 - k)) := by
    rw [← Nat.pow_succ', ← Nat.pow_add]
    congr 1
    omega
  rw [split, Nat.mod_mul_right_div_self, Nat.mod_mul_right_mod]

/-- What a sum carries into its digit `k`. -/
def carry (x y k : Nat) : Nat := (x % 256 ^ k + y % 256 ^ k) / 256 ^ k

theorem carry_zero (x y : Nat) : carry x y 0 = 0 := by
  rw [carry, Nat.pow_zero, Nat.mod_one, Nat.mod_one]

theorem carry_le_one (x y k : Nat) : carry x y k ≤ 1 := by
  have positive : 0 < 256 ^ k := Nat.pow_pos (by decide)
  have left := Nat.mod_lt x positive
  have right := Nat.mod_lt y positive
  have bound : (x % 256 ^ k + y % 256 ^ k) / 256 ^ k < 2 :=
    (Nat.div_lt_iff_lt_mul positive).mpr (by omega)
  unfold carry
  omega

/-- The digits of two numbers and the carry add up to the quotient of the sum. -/
theorem add_div_pow (x y k : Nat) :
    (x + y) / 256 ^ k = x / 256 ^ k + y / 256 ^ k + carry x y k := by
  have positive : 0 < 256 ^ k := Nat.pow_pos (by decide)
  have split : x + y = x % 256 ^ k + y % 256 ^ k + 256 ^ k * (x / 256 ^ k + y / 256 ^ k) := by
    have left := Nat.mod_add_div x (256 ^ k)
    have right := Nat.mod_add_div y (256 ^ k)
    rw [Nat.mul_add]
    omega
  rw [split, Nat.add_mul_div_left _ _ positive, carry]
  omega

theorem digit_add (x y k : Nat) :
    (x + y) / 256 ^ k % 256 = (x / 256 ^ k % 256 + y / 256 ^ k % 256 + carry x y k) % 256 := by
  rw [add_div_pow]
  omega

theorem carry_succ (x y k : Nat) :
    carry x y (k + 1) = (x / 256 ^ k % 256 + y / 256 ^ k % 256 + carry x y k) / 256 := by
  have sum := add_div_pow x y k
  have next := add_div_pow x y (k + 1)
  have quotient : ∀ number : Nat, number / 256 ^ (k + 1) = number / 256 ^ k / 256 := fun number =>
    by rw [Nat.pow_succ, Nat.div_div_eq_div_mul]
  rw [quotient, quotient, quotient, sum] at next
  omega

/-- The digits of a product with a power of two below a whole digit. -/
theorem digit_mul_two_pow (x k : Nat) {n : Nat} (inByte : n ≤ 8) :
    x * 2 ^ n / 256 ^ (k + 1) % 256 =
      (x / 256 ^ (k + 1) % 256 * 2 ^ n + x / 256 ^ k % 256 / 2 ^ (8 - n)) % 256 := by
  have byte : 2 ^ (8 - n) * 2 ^ n = 256 := by
    rw [← Nat.pow_add, Nat.sub_add_cancel inByte]
  have place : 256 ^ (k + 1) = 256 ^ k * 2 ^ (8 - n) * 2 ^ n := by
    rw [Nat.mul_assoc, byte, Nat.pow_succ]
  have cancelled : x * 2 ^ n / 256 ^ (k + 1) = x / 256 ^ k / 2 ^ (8 - n) := by
    rw [place, Nat.mul_div_mul_right _ _ (Nat.two_pow_pos n), Nat.div_div_eq_div_mul]
  have above : x / 256 ^ (k + 1) = x / 256 ^ k / 256 := by
    rw [Nat.pow_succ, Nat.div_div_eq_div_mul]
  rw [cancelled, above]
  generalize x / 256 ^ k = quotient
  interval_cases n <;> omega

end BigEndian
