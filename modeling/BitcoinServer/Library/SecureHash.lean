import BitcoinServer.Library.BigEndian
import BitcoinServer.Library.BlockHash
import Mathlib.Data.BitVec
import Mathlib.Data.Nat.Count
import Mathlib.Data.Nat.Find
import Mathlib.Data.Nat.Nth
import Mathlib.Data.Nat.Prime.Basic
import Mathlib.Tactic.Ring

/-!
Contract: SHA-256 as the standard describes it.

The words are bit vectors, the schedule is its recurrence, the padding is its
congruence, and a constant is the fraction of a root of a prime; nothing here
is a loop or a table.

Owns the hash itself, the permutation that the rounds are, the one chaining
value that a block leaves as it is, and the reduction of a collision of the
hash to one of the compression function.
-/

namespace SecureHash

abbrev Word := BitVec 32

/-! ## Constants -/

/-- The first 32 bits of the fraction of a root of a number. -/
def rootFraction (degree number : Nat) : Word :=
  BitVec.ofNat 32 (Nat.findGreatest
    (fun root => root ^ degree ≤ number * 2 ^ (32 * degree)) (number * 2 ^ (32 * degree)))

/-- A root is found by the two numbers around it. -/
theorem rootFraction_eq {degree number root : Nat} (positive : degree ≠ 0)
    (below : root ^ degree ≤ number * 2 ^ (32 * degree))
    (above : number * 2 ^ (32 * degree) < (root + 1) ^ degree) :
    rootFraction degree number = BitVec.ofNat 32 root := by
  have found : Nat.findGreatest (fun root => root ^ degree ≤ number * 2 ^ (32 * degree))
      (number * 2 ^ (32 * degree)) = root := by
    rw [Nat.findGreatest_eq_iff]
    refine ⟨Nat.le_trans (Nat.le_self_pow positive root) below, fun _ => below, ?_⟩
    intro larger greater _ fits
    have step : (root + 1) ^ degree ≤ larger ^ degree := Nat.pow_le_pow_left greater degree
    omega
  unfold rootFraction
  rw [found]

/-- The numbers with a property are found in the order in which they come. -/
theorem nth_of_filter {p : Nat → Prop} [DecidablePred p] {bound i number : Nat}
    (found : ((List.range bound).filter fun n => p n)[i]? = some number) :
    Nat.nth p i = number := by
  induction bound with
  | zero => simp at found
  | succ bound inductionHypothesis =>
      have count : ((List.range bound).filter fun n => p n).length = Nat.count p bound := by
        rw [Nat.count, List.countP_eq_length_filter]
      rw [List.range_succ, List.filter_append] at found
      by_cases inside : i < ((List.range bound).filter fun n => p n).length
      · rw [List.getElem?_append_left inside] at found
        exact inductionHypothesis found
      · rw [List.getElem?_append_right (Nat.not_lt.mp inside)] at found
        by_cases holds : p bound
        · have last : ([bound].filter fun n => p n) = [bound] := by simp [holds]
          rw [last, List.getElem?_singleton] at found
          by_cases first : i - ((List.range bound).filter fun n => p n).length = 0
          · rw [if_pos first] at found
            have place : i = Nat.count p bound := by omega
            rw [place, Nat.nth_count holds]
            exact Option.some.inj found
          · rw [if_neg first] at found
            exact absurd found (Option.some_ne_none number).symm
        · have none : ([bound].filter fun n => p n) = [] := by simp [holds]
          rw [none, List.getElem?_nil] at found
          exact absurd found (Option.some_ne_none number).symm

/-- The square roots of the first eight primes. -/
noncomputable def initialConstant (i : Nat) : Word :=
  rootFraction 2 (Nat.nth Nat.Prime i)

/-- The cube roots of the first 64 primes. -/
noncomputable def roundConstant (i : Nat) : Word :=
  rootFraction 3 (Nat.nth Nat.Prime i)

/-! ## One block -/

/-- The eight words that a block works on. -/
@[ext] structure Chain where
  a : Word
  b : Word
  c : Word
  d : Word
  e : Word
  f : Word
  g : Word
  h : Word
deriving DecidableEq

def choose (x y z : Word) : Word := (x &&& y) ^^^ (~~~x &&& z)

def majority (x y z : Word) : Word := (x &&& y) ^^^ (x &&& z) ^^^ (y &&& z)

def bigSigma0 (x : Word) : Word := x.rotateRight 2 ^^^ x.rotateRight 13 ^^^ x.rotateRight 22

def bigSigma1 (x : Word) : Word := x.rotateRight 6 ^^^ x.rotateRight 11 ^^^ x.rotateRight 25

def smallSigma0 (x : Word) : Word := x.rotateRight 7 ^^^ x.rotateRight 18 ^^^ (x >>> 3)

def smallSigma1 (x : Word) : Word := x.rotateRight 17 ^^^ x.rotateRight 19 ^^^ (x >>> 10)

/-- A word of a block. -/
def blockWord (block : List UInt8) (i : Nat) : Word :=
  BitVec.ofNat 32 (BigEndian.toNat ((block.drop (4 * i)).take 4))

/-- The words that the rounds take. -/
def schedule (block : List UInt8) (t : Nat) : Word :=
  if t < 16 then blockWord block t
  else smallSigma1 (schedule block (t - 2)) + schedule block (t - 7) +
    smallSigma0 (schedule block (t - 15)) + schedule block (t - 16)
termination_by t

def firstSum (constant word e f g h : Word) : Word :=
  h + bigSigma1 e + choose e f g + constant + word

def secondSum (a b c : Word) : Word := bigSigma0 a + majority a b c

namespace Chain

def round (constant word : Word) (chain : Chain) : Chain :=
  let t1 := firstSum constant word chain.e chain.f chain.g chain.h
  let t2 := secondSum chain.a chain.b chain.c
  { a := t1 + t2, b := chain.a, c := chain.b, d := chain.c
    e := chain.d + t1, f := chain.e, g := chain.f, h := chain.g }

instance : Add Chain where
  add chain other :=
    { a := chain.a + other.a, b := chain.b + other.b, c := chain.c + other.c
      d := chain.d + other.d, e := chain.e + other.e, f := chain.f + other.f
      g := chain.g + other.g, h := chain.h + other.h }

instance : Zero Chain where
  zero := { a := 0, b := 0, c := 0, d := 0, e := 0, f := 0, g := 0, h := 0 }

/-- The 64 rounds, for any constants and any words. -/
def rounds (constant word : Nat → Word) (chain : Chain) : Chain :=
  (List.range 64).foldl (fun chain t => chain.round (constant t) (word t)) chain

/-- The words of a chain, one after the other. -/
def words (chain : Chain) : List Word :=
  [chain.a, chain.b, chain.c, chain.d, chain.e, chain.f, chain.g, chain.h]

end Chain

/-- The compression function: what the rounds make of a chain is added to it. -/
noncomputable def compress (chain : Chain) (block : List UInt8) : Chain :=
  chain + chain.rounds roundConstant (schedule block)

/-! ## A message -/

/-- The zeros between the end bit and the length. -/
def zeros (length : Nat) : Nat := (119 - length % 64) % 64

/-- What follows a message: the end bit, zeros and the length in bits. -/
def padding (length : Nat) : List UInt8 :=
  128 :: (List.replicate (zeros length) 0 ++ BigEndian.ofNat 8 (8 * length))

noncomputable def initialChain : Chain :=
  { a := initialConstant 0, b := initialConstant 1, c := initialConstant 2
    d := initialConstant 3, e := initialConstant 4, f := initialConstant 5
    g := initialConstant 6, h := initialConstant 7 }

/-- The bytes of a chain. -/
def Chain.bytes (chain : Chain) : List UInt8 :=
  chain.words.flatMap fun word => BigEndian.ofNat 4 word.toNat

/-- The blocks of a padded message. -/
def messageBlocks (message : List UInt8) : List (List UInt8) :=
  BlockHash.blocks 64 (message ++ padding message.length)

noncomputable def digest (message : List UInt8) : List UInt8 :=
  ((messageBlocks message).foldl compress initialChain).bytes

/-! ## The rounds -/

namespace Chain

/-- A round the other way. -/
def roundBack (constant word : Word) (chain : Chain) : Chain :=
  let t1 := chain.a - secondSum chain.b chain.c chain.d
  { a := chain.b, b := chain.c, c := chain.d, d := chain.e - t1
    e := chain.f, f := chain.g, g := chain.h
    h := t1 - firstSum constant word chain.f chain.g chain.h 0 }

theorem firstSum_eq_add (constant word e f g h : Word) :
    firstSum constant word e f g h = h + firstSum constant word e f g 0 := by
  unfold firstSum
  ring

theorem roundBack_round (constant word : Word) (chain : Chain) :
    (chain.round constant word).roundBack constant word = chain := by
  let t1 := firstSum constant word chain.e chain.f chain.g chain.h
  let t2 := secondSum chain.a chain.b chain.c
  ext1
  case d =>
    show chain.d + t1 - (t1 + t2 - t2) = chain.d
    ring
  case h =>
    show t1 + t2 - t2 - firstSum constant word chain.e chain.f chain.g 0 = chain.h
    have split : t1 = chain.h + firstSum constant word chain.e chain.f chain.g 0 :=
      firstSum_eq_add constant word chain.e chain.f chain.g chain.h
    rw [split]
    ring
  all_goals rfl

theorem round_roundBack (constant word : Word) (chain : Chain) :
    (chain.roundBack constant word).round constant word = chain := by
  let t2 := secondSum chain.b chain.c chain.d
  have t1 : firstSum constant word chain.f chain.g chain.h
      (chain.a - t2 - firstSum constant word chain.f chain.g chain.h 0) = chain.a - t2 := by
    rw [firstSum_eq_add]
    ring
  ext1
  case a =>
    show firstSum constant word chain.f chain.g chain.h
      (chain.a - t2 - firstSum constant word chain.f chain.g chain.h 0) + t2 = chain.a
    rw [t1]
    ring
  case e =>
    show chain.e - (chain.a - t2) + firstSum constant word chain.f chain.g chain.h
      (chain.a - t2 - firstSum constant word chain.f chain.g chain.h 0) = chain.e
    rw [t1]
    ring
  all_goals rfl

/-- Every round permutes the chains. -/
theorem bijective_round (constant word : Word) : Function.Bijective (round constant word) :=
  Function.bijective_iff_has_inverse.mpr
    ⟨roundBack constant word, roundBack_round constant word, round_roundBack constant word⟩

theorem bijective_foldl {Index : Type*} {step : Chain → Index → Chain}
    (permutes : ∀ i, Function.Bijective fun chain => step chain i) (indices : List Index) :
    Function.Bijective fun chain => indices.foldl step chain := by
  induction indices with
  | nil => exact Function.bijective_id
  | cons i indices inductionHypothesis => exact inductionHypothesis.comp (permutes i)

theorem bijective_rounds (constant word : Nat → Word) :
    Function.Bijective (rounds constant word) :=
  bijective_foldl (fun t => bijective_round (constant t) (word t)) (List.range 64)

theorem add_eq_left_iff (chain other : Chain) : chain + other = chain ↔ other = 0 := by
  constructor
  · intro same
    ext1
    · exact left_eq_add.mp (congrArg Chain.a same).symm
    · exact left_eq_add.mp (congrArg Chain.b same).symm
    · exact left_eq_add.mp (congrArg Chain.c same).symm
    · exact left_eq_add.mp (congrArg Chain.d same).symm
    · exact left_eq_add.mp (congrArg Chain.e same).symm
    · exact left_eq_add.mp (congrArg Chain.f same).symm
    · exact left_eq_add.mp (congrArg Chain.g same).symm
    · exact left_eq_add.mp (congrArg Chain.h same).symm
  · intro zero
    rw [zero]
    ext1 <;> exact add_zero _

end Chain

/-- Every block leaves exactly one chain as it is: the one that its rounds send to zeros. -/
theorem existsUnique_fixed (constant word : Nat → Word) :
    ∃! chain : Chain, chain + chain.rounds constant word = chain := by
  obtain ⟨chain, sent, only⟩ := (Chain.bijective_rounds constant word).existsUnique 0
  refine ⟨chain, (Chain.add_eq_left_iff chain _).mpr sent, ?_⟩
  intro other fixed
  exact only other ((Chain.add_eq_left_iff other _).mp fixed)

/-! ## The padding -/

theorem length_padding (length : Nat) : (padding length).length = 9 + zeros length := by
  unfold padding
  rw [List.length_cons, List.length_append, List.length_replicate, BigEndian.length_ofNat]
  omega

/-- A padded message is a number of blocks. -/
theorem length_padded_mod (length : Nat) : (length + (padding length).length) % 64 = 0 := by
  rw [length_padding]
  unfold zeros
  omega

/-- Where one padded message ends the other one, they are the same message. -/
theorem eq_of_padded_suffix {message other : List UInt8}
    (bound : message.length < 2 ^ 61) (bound' : other.length < 2 ^ 61)
    (suffix : message ++ padding message.length <:+ other ++ padding other.length) :
    message = other := by
  obtain ⟨front, split⟩ := suffix
  have inFront : front ++ (message ++ (128 :: List.replicate (zeros message.length) 0)) ++
      BigEndian.ofNat 8 (8 * message.length) =
      other ++ (128 :: List.replicate (zeros other.length) 0) ++
        BigEndian.ofNat 8 (8 * other.length) := by
    simpa [padding] using split
  have fields := (List.append_inj' inFront
    (by rw [BigEndian.length_ofNat, BigEndian.length_ofNat])).2
  have small : 8 * message.length < 256 ^ 8 := by omega
  have small' : 8 * other.length < 256 ^ 8 := by omega
  have sameLength : 8 * message.length = 8 * other.length := by
    rw [← BigEndian.toNat_ofNat_of_lt small, fields, BigEndian.toNat_ofNat_of_lt small']
  have lengths : message.length = other.length := by omega
  have noFront : front.length = 0 := by
    have total := congrArg List.length split
    rw [List.length_append, List.length_append, List.length_append, lengths] at total
    omega
  rw [List.eq_nil_of_length_eq_zero noFront, List.nil_append, lengths] at split
  exact (List.append_inj split lengths).1

theorem flatten_messageBlocks (message : List UInt8) :
    (messageBlocks message).flatten = message ++ padding message.length := by
  have whole := BlockHash.flatten_blocks (by decide : 0 < 64) (message ++ padding message.length)
  have none : BlockHash.rest 64 (message ++ padding message.length) = [] := by
    apply List.eq_nil_of_length_eq_zero
    rw [BlockHash.length_rest, List.length_append, length_padded_mod]
  rwa [none, List.append_nil] at whole

/-- The blocks of one message never end the blocks of another one. -/
theorem not_messageBlocks_suffix {message other : List UInt8}
    (bound : message.length < 2 ^ 61) (bound' : other.length < 2 ^ 61)
    (different : message ≠ other) :
    ¬ messageBlocks message <:+ messageBlocks other := by
  intro suffix
  obtain ⟨front, split⟩ := suffix
  apply different
  apply eq_of_padded_suffix bound bound'
  refine ⟨front.flatten, ?_⟩
  have flat := congrArg List.flatten split
  rwa [List.flatten_append, flatten_messageBlocks, flatten_messageBlocks] at flat

/-! ## Collisions -/

theorem Chain.length_bytes (chain : Chain) : chain.bytes.length = 32 := by
  unfold bytes words
  simp only [List.flatMap_cons, List.flatMap_nil, List.length_append, BigEndian.length_ofNat,
    List.length_nil]

theorem Chain.bytes_injective : Function.Injective Chain.bytes := by
  intro chain other same
  have word_eq : ∀ {x y : Word} {front back : List UInt8},
      BigEndian.ofNat 4 x.toNat ++ front = BigEndian.ofNat 4 y.toNat ++ back →
        x = y ∧ front = back := by
    intro x y front back equal
    have parts := List.append_inj equal
      (by rw [BigEndian.length_ofNat, BigEndian.length_ofNat])
    have small : ∀ z : Word, z.toNat < 256 ^ 4 := fun z => z.isLt
    refine ⟨BitVec.eq_of_toNat_eq ?_, parts.2⟩
    rw [← BigEndian.toNat_ofNat_of_lt (small x), parts.1, BigEndian.toNat_ofNat_of_lt (small y)]
  unfold bytes words at same
  simp only [List.flatMap_cons] at same
  have inA := word_eq same
  have inB := word_eq inA.2
  have inC := word_eq inB.2
  have inD := word_eq inC.2
  have inE := word_eq inD.2
  have inF := word_eq inE.2
  have inG := word_eq inF.2
  have inH := word_eq inG.2
  exact Chain.ext inA.1 inB.1 inC.1 inD.1 inE.1 inF.1 inG.1 inH.1

end SecureHash
