import BitcoinServer.Library.SecureHash
import BitcoinServer.Solution.Uint256

/-!
Contract: `sha256.c`.

A context and a destination start with whatever memory holds, as in the
source, which sets only some of a context's fields before it uses it.

Owns the functions of the source, and that the table, the schedule and the
rounds of `sha256_transform` are the ones of the standard.
-/

namespace BitcoinServer.Solution

open SecureHash (Chain Word)

/-! ## The source's macros and table -/

/-- `ROTRIGHT`. -/
def rotright (a b : UInt32) : UInt32 := (a >>> b) ||| (a <<< (32 - b))

/-- `CH`. -/
def ch (x y z : UInt32) : UInt32 := (x &&& y) ^^^ (~~~x &&& z)

/-- `MAJ`. -/
def maj (x y z : UInt32) : UInt32 := (x &&& y) ^^^ (x &&& z) ^^^ (y &&& z)

/-- `EP0`. -/
def ep0 (x : UInt32) : UInt32 := rotright x 2 ^^^ rotright x 13 ^^^ rotright x 22

/-- `EP1`. -/
def ep1 (x : UInt32) : UInt32 := rotright x 6 ^^^ rotright x 11 ^^^ rotright x 25

/-- `SIG0`. -/
def sig0 (x : UInt32) : UInt32 := rotright x 7 ^^^ rotright x 18 ^^^ (x >>> 3)

/-- `SIG1`. -/
def sig1 (x : UInt32) : UInt32 := rotright x 17 ^^^ rotright x 19 ^^^ (x >>> 10)

/-- `k`. -/
def k : List UInt32 := [
  0x428a2f98, 0x71374491, 0xb5c0fbcf, 0xe9b5dba5, 0x3956c25b, 0x59f111f1, 0x923f82a4, 0xab1c5ed5,
  0xd807aa98, 0x12835b01, 0x243185be, 0x550c7dc3, 0x72be5d74, 0x80deb1fe, 0x9bdc06a7, 0xc19bf174,
  0xe49b69c1, 0xefbe4786, 0x0fc19dc6, 0x240ca1cc, 0x2de92c6f, 0x4a7484aa, 0x5cb0a9dc, 0x76f988da,
  0x983e5152, 0xa831c66d, 0xb00327c8, 0xbf597fc7, 0xc6e00bf3, 0xd5a79147, 0x06ca6351, 0x14292967,
  0x27b70a85, 0x2e1b2138, 0x4d2c6dfc, 0x53380d13, 0x650a7354, 0x766a0abb, 0x81c2c92e, 0x92722c85,
  0xa2bfe8a1, 0xa81a664b, 0xc24b8b70, 0xc76c51a3, 0xd192e819, 0xd6990624, 0xf40e3585, 0x106aa070,
  0x19a4c116, 0x1e376c08, 0x2748774c, 0x34b0bcb5, 0x391c0cb3, 0x4ed8aa4a, 0x5b9cca4f, 0x682e6ff3,
  0x748f82ee, 0x78a5636f, 0x84c87814, 0x8cc70208, 0x90befffa, 0xa4506ceb, 0xbef9a3f7, 0xc67178f2]

/-! ## One block -/

/-- `SHA256_CTX`. -/
structure Sha256Ctx where
  data : Vector UInt8 64
  datalen : UInt32
  bitlen : UInt64
  state : Vector UInt32 8

/-- The first loop of `sha256_transform`: `m[0]` to `m[15]`. -/
def blockWords (data : List UInt8) : List UInt32 :=
  (List.range 16).map fun i =>
    let j := 4 * i
    ((data.getD j 0).toUInt32 <<< 24) ||| ((data.getD (j + 1) 0).toUInt32 <<< 16) |||
      ((data.getD (j + 2) 0).toUInt32 <<< 8) ||| (data.getD (j + 3) 0).toUInt32

/-- The second loop of `sha256_transform`, from `i = m.length` on. -/
def extendWords : Nat → List UInt32 → List UInt32
  | 0, m => m
  | count + 1, m =>
      let i := m.length
      extendWords count (m ++ [sig1 (m.getD (i - 2) 0) + m.getD (i - 7) 0 +
        sig0 (m.getD (i - 15) 0) + m.getD (i - 16) 0])

/-- `a` to `h` in `sha256_transform`. -/
structure Working where
  a : UInt32
  b : UInt32
  c : UInt32
  d : UInt32
  e : UInt32
  f : UInt32
  g : UInt32
  h : UInt32

/-- One turn of the third loop of `sha256_transform`. -/
def Working.turn (m : List UInt32) (w : Working) (i : Nat) : Working :=
  let t1 := w.h + ep1 w.e + ch w.e w.f w.g + k.getD i 0 + m.getD i 0
  let t2 := ep0 w.a + maj w.a w.b w.c
  { a := t1 + t2, b := w.a, c := w.b, d := w.c, e := w.d + t1, f := w.e, g := w.f, h := w.g }

/-- The third loop of `sha256_transform`. -/
def Working.turns (m : List UInt32) (w : Working) : Working :=
  (List.range 64).foldl (Working.turn m) w

/-- `a = ctx->state[0];` and so on. -/
def Working.load (state : Vector UInt32 8) : Working :=
  { a := state[0], b := state[1], c := state[2], d := state[3]
    e := state[4], f := state[5], g := state[6], h := state[7] }

/-- `sha256_transform`. -/
def sha256Transform (ctx : Sha256Ctx) (data : List UInt8) : Sha256Ctx :=
  let m := extendWords 48 (blockWords data)
  let state := ctx.state
  let w := (Working.load state).turns m
  { ctx with
    state := #v[state[0] + w.a, state[1] + w.b, state[2] + w.c, state[3] + w.d,
      state[4] + w.e, state[5] + w.f, state[6] + w.g, state[7] + w.h] }

@[simp] theorem sha256Transform_data (ctx : Sha256Ctx) (data : List UInt8) :
    (sha256Transform ctx data).data = ctx.data := rfl

@[simp] theorem sha256Transform_datalen (ctx : Sha256Ctx) (data : List UInt8) :
    (sha256Transform ctx data).datalen = ctx.datalen := rfl

@[simp] theorem sha256Transform_bitlen (ctx : Sha256Ctx) (data : List UInt8) :
    (sha256Transform ctx data).bitlen = ctx.bitlen := rfl

/-! ## A message -/

/-- The words that `sha256_init` sets. -/
def initialState : Vector UInt32 8 :=
  #v[0x6a09e667, 0xbb67ae85, 0x3c6ef372, 0xa54ff53a,
    0x510e527f, 0x9b05688c, 0x1f83d9ab, 0x5be0cd19]

/-- `sha256_init`: `data` keeps what it holds. -/
def sha256Init (ctx : Sha256Ctx) : Sha256Ctx :=
  { ctx with datalen := 0, bitlen := 0, state := initialState }

/-- The body of the loop of `sha256_update`. -/
def updateByte (ctx : Sha256Ctx) (byte : UInt8) : Sha256Ctx :=
  let ctx := { ctx with data := ctx.data.set! ctx.datalen.toNat byte }
  let ctx := { ctx with datalen := ctx.datalen + 1 }
  if ctx.datalen = 64 then
    let ctx := sha256Transform ctx ctx.data.toList
    { ctx with bitlen := ctx.bitlen + 512, datalen := 0 }
  else ctx

/-- The loop of `sha256_update`, with a bound on its turns. The counter `i` is a `WORD`, `len` a
`size_t`. -/
def updateLoop (data : List UInt8) (len : UInt64) :
    Nat → UInt32 → Sha256Ctx → Option Sha256Ctx
  | 0, _, _ => none
  | fuel + 1, i, ctx =>
      if i.toUInt64 < len then
        updateLoop data len fuel (i + 1) (updateByte ctx (data.getD i.toNat 0))
      else some ctx

/-- `sha256_update`: a loop that ends does so within `len` turns. -/
def sha256Update (ctx : Sha256Ctx) (data : List UInt8) (len : UInt64) : Option Sha256Ctx :=
  updateLoop data len (len.toNat + 1) 0 ctx

/-- `while (i < stop) ctx->data[i++] = 0x00;` -/
def padZeros (data : Vector UInt8 64) (i stop : Nat) : Vector UInt8 64 :=
  (List.range' i (stop - i)).foldl (fun data i => data.set! i 0) data

/-- The eight assignments of the length to `ctx->data`, from `data[63]` to `data[56]`. -/
def putBitlen (data : Vector UInt8 64) (bitlen : UInt64) : Vector UInt8 64 :=
  (List.range 8).foldl
    (fun data n => data.set! (63 - n) (bitlen >>> UInt64.ofNat (8 * n)).toUInt8) data

/-- `(ctx->state[j] >> (24 - i * 8)) & 0x000000ff`. -/
def hashByte (state : Vector UInt32 8) (i j : Nat) : UInt8 :=
  ((state.toList.getD j 0 >>> UInt32.ofNat (24 - i * 8)) &&& 0x000000ff).toUInt8

/-- The body of the last loop of `sha256_final`: `hash[i]`, `hash[i + 4]` up to `hash[i + 28]`. -/
def putColumn (state : Vector UInt32 8) (hash : Uint256) (i : Nat) : Uint256 :=
  (List.range 8).foldl (fun hash j => hash.set (i + 4 * j) (hashByte state i j)) hash

/-- The last loop of `sha256_final`. -/
def putHash (state : Vector UInt32 8) (hash : Uint256) : Uint256 :=
  (List.range 4).foldl (putColumn state) hash

/-- `sha256_final`. -/
def sha256Final (ctx : Sha256Ctx) (hash : Uint256) : Sha256Ctx × Uint256 :=
  let i := ctx.datalen.toNat
  let ctx :=
    if ctx.datalen < 56 then
      { ctx with data := padZeros (ctx.data.set! i 0x80) (i + 1) 56 }
    else
      let ctx := { ctx with data := padZeros (ctx.data.set! i 0x80) (i + 1) 64 }
      let ctx := sha256Transform ctx ctx.data.toList
      { ctx with data := padZeros ctx.data 0 56 }
  let ctx := { ctx with bitlen := ctx.bitlen + (ctx.datalen * 8).toUInt64 }
  let ctx := { ctx with data := putBitlen ctx.data ctx.bitlen }
  let ctx := sha256Transform ctx ctx.data.toList
  (ctx, putHash ctx.state hash)

/-! ## The table -/

/-- The first 64 primes. -/
def primes : List Nat := [
  2, 3, 5, 7, 11, 13, 17, 19, 23, 29, 31, 37, 41, 43, 47, 53, 59, 61, 67, 71, 73, 79, 83, 89, 97,
  101, 103, 107, 109, 113, 127, 131, 137, 139, 149, 151, 157, 163, 167, 173, 179, 181, 191, 193,
  197, 199, 211, 223, 227, 229, 233, 239, 241, 251, 257, 263, 269, 271, 277, 281, 283, 293, 307,
  311]

/-- Below 324 the divisors up to 17 decide. -/
theorem prime_iff {n : Nat} (small : n < 324) :
    Nat.Prime n ↔ 2 ≤ n ∧ ∀ m < 18, 2 ≤ m → m ∣ n → m = n := by
  rw [Nat.prime_def_le_sqrt]
  constructor
  · rintro ⟨atLeast, noDivisor⟩
    refine ⟨atLeast, ?_⟩
    rintro m - least ⟨cofactor, product⟩
    by_contra different
    have two : 2 ≤ cofactor := by
      match cofactor, product with
      | 0, product => omega
      | 1, product => omega
      | cofactor + 2, _ => omega
    rcases Nat.le_total m cofactor with smaller | larger
    · exact noDivisor m least (Nat.le_sqrt.mpr (product ▸ Nat.mul_le_mul_left m smaller))
        ⟨cofactor, product⟩
    · exact noDivisor cofactor two
        (Nat.le_sqrt.mpr (product ▸ Nat.mul_le_mul_right cofactor larger))
        ⟨m, by rw [product, Nat.mul_comm]⟩
  · rintro ⟨atLeast, noDivisor⟩
    refine ⟨atLeast, ?_⟩
    intro m least root divides
    have square := Nat.le_sqrt.mp root
    have below : m < 18 := by
      by_contra above
      have large := Nat.mul_le_mul (Nat.not_lt.mp above) (Nat.not_lt.mp above)
      omega
    have same := noDivisor m below least divides
    have larger := Nat.mul_le_mul_right m least
    omega

theorem filter_prime : ((List.range 312).filter fun n => Nat.Prime n) = primes := by
  have divisors : ((List.range 312).filter fun n =>
      2 ≤ n ∧ ∀ m < 18, 2 ≤ m → m ∣ n → m = n) = primes := by decide +kernel
  rw [← divisors]
  apply List.filter_congr
  intro n inRange
  have small : n < 324 := Nat.lt_trans (List.mem_range.mp inRange) (by decide)
  exact decide_eq_decide.mpr (prime_iff small)

theorem nth_prime {i : Nat} (inTable : i < 64) : Nat.nth Nat.Prime i = primes.getD i 0 := by
  have inside : i < primes.length := inTable
  have found : ((List.range 312).filter fun n => Nat.Prime n)[i]? = some (primes.getD i 0) := by
    rw [filter_prime, List.getElem?_eq_getElem inside, List.getD_eq_getElem?_getD,
      List.getElem?_eq_getElem inside, Option.getD_some]
  exact SecureHash.nth_of_filter found

/-- The root of the `i`-th prime, in 32nd binary places, whose fraction a word is. -/
def rootWith (degree i : Nat) (word : UInt32) : Nat :=
  2 ^ 32 * Nat.findGreatest (fun n => n ^ degree ≤ primes.getD i 0) 17 + word.toNat

theorem toBitVec_eq_rootFraction {degree i : Nat} {word : UInt32} (inTable : i < 64)
    (positive : degree ≠ 0)
    (below : rootWith degree i word ^ degree ≤ primes.getD i 0 * 2 ^ (32 * degree))
    (above : primes.getD i 0 * 2 ^ (32 * degree) < (rootWith degree i word + 1) ^ degree) :
    word.toBitVec = SecureHash.rootFraction degree (Nat.nth Nat.Prime i) := by
  have fraction : BitVec.ofNat 32 (rootWith degree i word) = word.toBitVec := by
    apply BitVec.eq_of_toNat_eq
    rw [BitVec.toNat_ofNat, rootWith, Nat.mul_add_mod, Nat.mod_eq_of_lt word.toNat_lt]
    rfl
  rw [nth_prime inTable, SecureHash.rootFraction_eq positive below above, fraction]

theorem cubeRoot_bounds : ∀ i < 64,
    rootWith 3 i (k.getD i 0) ^ 3 ≤ primes.getD i 0 * 2 ^ (32 * 3) ∧
      primes.getD i 0 * 2 ^ (32 * 3) < (rootWith 3 i (k.getD i 0) + 1) ^ 3 := by
  decide +kernel

/-- The table holds the constants of the standard. -/
theorem k_eq_roundConstant {i : Nat} (inTable : i < 64) :
    (k.getD i 0).toBitVec = SecureHash.roundConstant i :=
  toBitVec_eq_rootFraction inTable (by decide) (cubeRoot_bounds i inTable).1
    (cubeRoot_bounds i inTable).2

theorem squareRoot_bounds : ∀ i < 8,
    rootWith 2 i (initialState.toList.getD i 0) ^ 2 ≤ primes.getD i 0 * 2 ^ (32 * 2) ∧
      primes.getD i 0 * 2 ^ (32 * 2) < (rootWith 2 i (initialState.toList.getD i 0) + 1) ^ 2 := by
  decide +kernel

theorem initialState_eq_initialConstant {i : Nat} (inState : i < 8) :
    (initialState.toList.getD i 0).toBitVec = SecureHash.initialConstant i :=
  toBitVec_eq_rootFraction (Nat.lt_trans inState (by decide)) (by decide)
    (squareRoot_bounds i inState).1 (squareRoot_bounds i inState).2

/-! ## The transformation -/

/-- The words of a context as the standard has them. -/
def chainOf (state : Vector UInt32 8) : Chain :=
  { a := state[0].toBitVec, b := state[1].toBitVec, c := state[2].toBitVec
    d := state[3].toBitVec, e := state[4].toBitVec, f := state[5].toBitVec
    g := state[6].toBitVec, h := state[7].toBitVec }

def Working.chain (w : Working) : Chain :=
  { a := w.a.toBitVec, b := w.b.toBitVec, c := w.c.toBitVec, d := w.d.toBitVec
    e := w.e.toBitVec, f := w.f.toBitVec, g := w.g.toBitVec, h := w.h.toBitVec }

/-- `sha256_init` sets the words of the standard. -/
theorem chainOf_initialState : chainOf initialState = SecureHash.initialChain := by
  have word : ∀ i < 8, (initialState.toList.getD i 0).toBitVec = SecureHash.initialConstant i :=
    fun i inState => initialState_eq_initialConstant inState
  exact Chain.ext (word 0 (by decide)) (word 1 (by decide)) (word 2 (by decide))
    (word 3 (by decide)) (word 4 (by decide)) (word 5 (by decide)) (word 6 (by decide))
    (word 7 (by decide))

/-- The two shifts of the macro are a rotation. -/
theorem toBitVec_rotright (a : UInt32) (n : Nat) (positive : 0 < n) (inWord : n < 32) :
    (rotright a (UInt32.ofNat n)).toBitVec = a.toBitVec.rotateRight n := by
  have amount : ((UInt32.ofNat n).toBitVec % 32).toNat = n := by
    show n % 2 ^ 32 % 32 = n
    omega
  have rest : ((32 - UInt32.ofNat n).toBitVec % 32).toNat = 32 - n := by
    show (2 ^ 32 - n % 2 ^ 32 + 32) % 2 ^ 32 % 32 = 32 - n
    omega
  unfold rotright
  rw [UInt32.toBitVec_or, UInt32.toBitVec_shiftRight, UInt32.toBitVec_shiftLeft,
    BitVec.ushiftRight_eq', BitVec.shiftLeft_eq', amount, rest, BitVec.rotateRight_def,
    Nat.mod_eq_of_lt inWord]

/-- The shape of all four functions on one word. -/
theorem toBitVec_rotations (x other : UInt32) {i j : Nat} (first : 0 < i ∧ i < 32)
    (second : 0 < j ∧ j < 32) :
    (rotright x (UInt32.ofNat i) ^^^ rotright x (UInt32.ofNat j) ^^^ other).toBitVec =
      x.toBitVec.rotateRight i ^^^ x.toBitVec.rotateRight j ^^^ other.toBitVec := by
  rw [UInt32.toBitVec_xor, UInt32.toBitVec_xor, toBitVec_rotright x i first.1 first.2,
    toBitVec_rotright x j second.1 second.2]

theorem toBitVec_ep0 (x : UInt32) : (ep0 x).toBitVec = SecureHash.bigSigma0 x.toBitVec := by
  have rotated : (rotright x 22).toBitVec = x.toBitVec.rotateRight 22 :=
    toBitVec_rotright x 22 (by decide) (by decide)
  unfold SecureHash.bigSigma0
  rw [← rotated]
  exact toBitVec_rotations x (rotright x 22) (by decide) (by decide)

theorem toBitVec_ep1 (x : UInt32) : (ep1 x).toBitVec = SecureHash.bigSigma1 x.toBitVec := by
  have rotated : (rotright x 25).toBitVec = x.toBitVec.rotateRight 25 :=
    toBitVec_rotright x 25 (by decide) (by decide)
  unfold SecureHash.bigSigma1
  rw [← rotated]
  exact toBitVec_rotations x (rotright x 25) (by decide) (by decide)

theorem toBitVec_sig0 (x : UInt32) : (sig0 x).toBitVec = SecureHash.smallSigma0 x.toBitVec :=
  toBitVec_rotations x (x >>> 3) (by decide) (by decide)

theorem toBitVec_sig1 (x : UInt32) : (sig1 x).toBitVec = SecureHash.smallSigma1 x.toBitVec :=
  toBitVec_rotations x (x >>> 10) (by decide) (by decide)

/-- One turn of the loop is one round. -/
theorem chain_turn {m : List UInt32} {w : Working} {i : Nat} {word : Word} (inTable : i < 64)
    (scheduled : (m.getD i 0).toBitVec = word) :
    (w.turn m i).chain = w.chain.round (SecureHash.roundConstant i) word := by
  have constant := k_eq_roundConstant inTable
  have t1 : (w.h + ep1 w.e + ch w.e w.f w.g + k.getD i 0 + m.getD i 0).toBitVec =
      SecureHash.firstSum (SecureHash.roundConstant i) word w.e.toBitVec w.f.toBitVec
        w.g.toBitVec w.h.toBitVec := by
    simp only [UInt32.toBitVec_add]
    rw [constant, scheduled, toBitVec_ep1]
    rfl
  have t2 : (ep0 w.a + maj w.a w.b w.c).toBitVec =
      SecureHash.secondSum w.a.toBitVec w.b.toBitVec w.c.toBitVec := by
    rw [UInt32.toBitVec_add, toBitVec_ep0]
    rfl
  ext1
  case a =>
    show (_ + _ : UInt32).toBitVec = _ + _
    rw [UInt32.toBitVec_add, t1, t2]
    rfl
  case e =>
    show (_ + _ : UInt32).toBitVec = _ + _
    rw [UInt32.toBitVec_add, t1]
    rfl
  all_goals rfl

/-- The first turns of the loop make the first rounds. -/
theorem chain_foldl_turn {m : List UInt32} {word : Nat → Word} {count : Nat} (inTable : count ≤ 64)
    (scheduled : ∀ i < count, (m.getD i 0).toBitVec = word i) (w : Working) :
    ((List.range count).foldl (Working.turn m) w).chain =
      (List.range count).foldl
        (fun chain t => chain.round (SecureHash.roundConstant t) (word t)) w.chain := by
  induction count with
  | zero => rfl
  | succ count inductionHypothesis =>
      have before := inductionHypothesis (Nat.le_of_succ_le inTable)
        fun i inRange => scheduled i (Nat.lt_succ_of_lt inRange)
      rw [List.range_succ, List.foldl_append, List.foldl_append, ← before]
      exact chain_turn inTable (scheduled count (Nat.lt_succ_self count))

/-! ## The schedule -/

theorem toNat_byte_shiftLeft (byte : UInt8) {n : Nat} (inWord : n ≤ 24) :
    (byte.toUInt32 <<< UInt32.ofNat n).toNat = 2 ^ n * byte.toNat := by
  have amount : (UInt32.ofNat n).toNat % 32 = n := by
    rw [UInt32.toNat_ofNat']
    omega
  have bound : 2 ^ n * byte.toNat < 2 ^ 32 := by
    have power : 2 ^ n ≤ 2 ^ 24 := Nat.pow_le_pow_right (by decide) inWord
    have product := Nat.mul_lt_mul_of_le_of_lt power byte.toNat_lt (by decide)
    omega
  rw [UInt32.toNat_shiftLeft, amount, UInt8.toNat_toUInt32, Nat.shiftLeft_eq, Nat.mul_comm,
    Nat.mod_eq_of_lt bound]

/-- Four bytes put together by shifts are their big-endian number. -/
theorem toNat_four_bytes (a b c d : UInt8) :
    ((a.toUInt32 <<< 24) ||| (b.toUInt32 <<< 16) ||| (c.toUInt32 <<< 8) ||| d.toUInt32).toNat =
      BigEndian.toNat [a, b, c, d] := by
  have shiftedA : (a.toUInt32 <<< 24).toNat = 2 ^ 24 * a.toNat := toNat_byte_shiftLeft a (by decide)
  have shiftedB : (b.toUInt32 <<< 16).toNat = 2 ^ 16 * b.toNat := toNat_byte_shiftLeft b (by decide)
  have shiftedC : (c.toUInt32 <<< 8).toNat = 2 ^ 8 * c.toNat := toNat_byte_shiftLeft c (by decide)
  have boundB := b.toNat_lt
  have boundC := c.toNat_lt
  have boundD := d.toNat_lt
  simp only [UInt32.toNat_or, shiftedA, shiftedB, shiftedC, UInt8.toNat_toUInt32, Nat.or_assoc]
  rw [← Nat.two_pow_add_eq_or_of_lt boundD c.toNat,
    ← Nat.two_pow_add_eq_or_of_lt (i := 16) (by omega) b.toNat,
    ← Nat.two_pow_add_eq_or_of_lt (i := 24) (by omega) a.toNat]
  simp only [BigEndian.toNat_cons, BigEndian.toNat_nil, List.length_cons, List.length_nil]
  omega

theorem four_of_drop {bytes : List UInt8} {i : Nat} (inside : i + 4 ≤ bytes.length) :
    (bytes.drop i).take 4 = [bytes.getD i 0, bytes.getD (i + 1) 0, bytes.getD (i + 2) 0,
      bytes.getD (i + 3) 0] := by
  have byte : ∀ n < bytes.length, bytes.drop n = bytes.getD n 0 :: bytes.drop (n + 1) := by
    intro n inBytes
    rw [List.drop_eq_getElem_cons inBytes, List.getD_eq_getElem?_getD,
      List.getElem?_eq_getElem inBytes, Option.getD_some]
  rw [byte i (by omega), byte (i + 1) (by omega), byte (i + 2) (by omega), byte (i + 3) (by omega)]
  rfl

theorem getD_blockWords {data : List UInt8} (full : data.length = 64) {t : Nat} (inBlock : t < 16) :
    ((blockWords data).getD t 0).toBitVec = SecureHash.blockWord data t := by
  have word : (blockWords data).getD t 0 = ((data.getD (4 * t) 0).toUInt32 <<< 24) |||
      ((data.getD (4 * t + 1) 0).toUInt32 <<< 16) |||
      ((data.getD (4 * t + 2) 0).toUInt32 <<< 8) ||| (data.getD (4 * t + 3) 0).toUInt32 := by
    unfold blockWords
    rw [List.getD_eq_getElem?_getD, List.getElem?_map, List.getElem?_range inBlock]
    rfl
  apply BitVec.eq_of_toNat_eq
  unfold SecureHash.blockWord
  rw [word, UInt32.toNat_toBitVec, toNat_four_bytes, ← four_of_drop (by omega), BitVec.toNat_ofNat]
  have bound := BigEndian.toNat_lt ((data.drop (4 * t)).take 4)
  have four : ((data.drop (4 * t)).take 4).length = 4 := by
    rw [List.length_take, List.length_drop]
    omega
  rw [four] at bound
  exact (Nat.mod_eq_of_lt bound).symm

/-- The loop goes on with the recurrence. -/
theorem extendWords_scheduled {data : List UInt8} {m : List UInt32} (first : 16 ≤ m.length)
    (scheduled : ∀ t < m.length, (m.getD t 0).toBitVec = SecureHash.schedule data t)
    (count : Nat) : ∀ t < m.length + count,
      ((extendWords count m).getD t 0).toBitVec = SecureHash.schedule data t := by
  induction count generalizing m with
  | zero => exact scheduled
  | succ count inductionHypothesis =>
      let next := sig1 (m.getD (m.length - 2) 0) + m.getD (m.length - 7) 0 +
        sig0 (m.getD (m.length - 15) 0) + m.getD (m.length - 16) 0
      have nextWord : next.toBitVec = SecureHash.schedule data m.length := by
        rw [SecureHash.schedule, if_neg (Nat.not_lt.mpr first), ← scheduled _ (by omega),
          ← scheduled _ (by omega), ← scheduled _ (by omega), ← scheduled _ (by omega),
          ← toBitVec_sig0, ← toBitVec_sig1]
        rfl
      have longer : (m ++ [next]).length = m.length + 1 := List.length_append
      have further := inductionHypothesis (m := m ++ [next]) (by omega) (by
        intro t inRange
        by_cases old : t < m.length
        · rw [List.getD_append _ _ _ _ old]
          exact scheduled t old
        · have last : t = m.length := by omega
          rw [last, List.getD_append_right _ _ _ _ (Nat.le_refl _), Nat.sub_self]
          exact nextWord)
      intro t inRange
      exact further t (by omega)

/-- `m` holds the schedule of the block. -/
theorem extendWords_blockWords {data : List UInt8} (full : data.length = 64) :
    ∀ t < 64, ((extendWords 48 (blockWords data)).getD t 0).toBitVec =
      SecureHash.schedule data t := by
  have first : (blockWords data).length = 16 := by
    rw [blockWords, List.length_map, List.length_range]
  have scheduled : ∀ t < (blockWords data).length,
      ((blockWords data).getD t 0).toBitVec = SecureHash.schedule data t := by
    intro t inRange
    rw [first] at inRange
    rw [SecureHash.schedule, if_pos inRange, getD_blockWords full inRange]
  have extended := extendWords_scheduled (by rw [first]) scheduled 48
  rwa [first] at extended

/-- The third loop makes the 64 rounds, if `m` holds their words. -/
theorem chain_turns {m : List UInt32} {word : Nat → Word}
    (scheduled : ∀ t < 64, (m.getD t 0).toBitVec = word t) (w : Working) :
    (w.turns m).chain = w.chain.rounds SecureHash.roundConstant word := by
  unfold Working.turns Chain.rounds
  exact chain_foldl_turn (Nat.le_refl 64) scheduled w

/-- What the rounds make of a state is added to it. -/
theorem chainOf_sha256Transform_add (ctx : Sha256Ctx) (data : List UInt8) :
    chainOf (sha256Transform ctx data).state = chainOf ctx.state +
      ((Working.load ctx.state).turns (extendWords 48 (blockWords data))).chain := by
  unfold sha256Transform
  ext1 <;> exact UInt32.toBitVec_add

/-- `sha256_transform` is the compression function of the standard. -/
theorem chainOf_sha256Transform (ctx : Sha256Ctx) {data : List UInt8} (full : data.length = 64) :
    chainOf (sha256Transform ctx data).state = SecureHash.compress (chainOf ctx.state) data := by
  rw [chainOf_sha256Transform_add, chain_turns (extendWords_blockWords full)]
  rfl

/-! ## The words of a state and of a chain -/

theorem Working.chain_bijective : Function.Bijective Working.chain := by
  let back (chain : Chain) : Working :=
    { a := ⟨chain.a⟩, b := ⟨chain.b⟩, c := ⟨chain.c⟩, d := ⟨chain.d⟩
      e := ⟨chain.e⟩, f := ⟨chain.f⟩, g := ⟨chain.g⟩, h := ⟨chain.h⟩ }
  exact Function.bijective_iff_has_inverse.mpr ⟨back, fun _ => rfl, fun _ => rfl⟩

theorem chainOf_bijective : Function.Bijective chainOf := by
  let back (chain : Chain) : Vector UInt32 8 :=
    #v[⟨chain.a⟩, ⟨chain.b⟩, ⟨chain.c⟩, ⟨chain.d⟩, ⟨chain.e⟩, ⟨chain.f⟩, ⟨chain.g⟩, ⟨chain.h⟩]
  refine Function.bijective_iff_has_inverse.mpr ⟨back, ?_, fun _ => rfl⟩
  intro state
  apply Vector.ext
  intro i inState
  interval_cases i <;> rfl

/-- The turns permute the working variables, whatever the words are. -/
theorem bijective_turns (m : List UInt32) : Function.Bijective (Working.turns m) := by
  let word := fun t => (m.getD t 0).toBitVec
  have permutes := Chain.bijective_rounds SecureHash.roundConstant word
  have scheduled : ∀ t < 64, (m.getD t 0).toBitVec = word t := fun _ _ => rfl
  have same : Working.chain ∘ Working.turns m =
      Chain.rounds SecureHash.roundConstant word ∘ Working.chain := by
    funext w
    rw [Function.comp_apply, Function.comp_apply]
    exact chain_turns scheduled w
  have composed : Function.Bijective (Working.chain ∘ Working.turns m) := by
    rw [same]
    exact permutes.comp Working.chain_bijective
  exact (Working.chain_bijective.of_comp_iff' _).mp composed

/-- For each block the rounds of `sha256_transform` lose nothing, and exactly one state comes
out of `sha256_transform` as it went in. -/
theorem transform_permutes (data : List UInt8) :
    Function.Bijective (Working.turns (extendWords 48 (blockWords data))) ∧
    ∃! state : Vector UInt32 8, ∀ ctx : Sha256Ctx, ctx.state = state →
      (sha256Transform ctx data).state = state := by
  refine ⟨bijective_turns _, ?_⟩
  let word := fun t => ((extendWords 48 (blockWords data)).getD t 0).toBitVec
  have fixed_iff : ∀ ctx : Sha256Ctx, (sha256Transform ctx data).state = ctx.state ↔
      chainOf ctx.state + (chainOf ctx.state).rounds SecureHash.roundConstant word =
        chainOf ctx.state := by
    intro ctx
    have rounds : ((Working.load ctx.state).turns (extendWords 48 (blockWords data))).chain =
        (chainOf ctx.state).rounds SecureHash.roundConstant word :=
      chain_turns (fun _ _ => rfl) (Working.load ctx.state)
    rw [← rounds, ← chainOf_sha256Transform_add]
    exact chainOf_bijective.injective.eq_iff.symm
  obtain ⟨chain, fixed, only⟩ := SecureHash.existsUnique_fixed SecureHash.roundConstant word
  obtain ⟨state, rfl⟩ := chainOf_bijective.surjective chain
  refine ⟨state, ?_, ?_⟩
  · rintro ctx rfl
    exact (fixed_iff ctx).mpr fixed
  · intro other stays
    let ctx : Sha256Ctx := ⟨Vector.replicate 64 0, 0, 0, other⟩
    exact chainOf_bijective.injective (only _ ((fixed_iff ctx).mp (stays ctx rfl)))

end BitcoinServer.Solution
