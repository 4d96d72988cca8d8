import Mathlib.Data.List.Infix
import Mathlib.Tactic.Common

/-!
Contract: hashes that fold a compression function over blocks of one size.

Owns the blocks of a string and what is left behind them, how both follow an
append, and the reduction of a collision of the folded function to a collision
of the compression function.

The compression function, the symbols and the chaining values are parameters.
-/

namespace BlockHash

variable {Symbol State : Type*}

/-! ## Blocks -/

/-- The full blocks of a string. -/
def blocks (size : Nat) (data : List Symbol) : List (List Symbol) :=
  (List.range (data.length / size)).map fun i => (data.drop (size * i)).take size

/-- What the full blocks leave of a string. -/
def rest (size : Nat) (data : List Symbol) : List Symbol :=
  data.drop (size * (data.length / size))

theorem length_of_mem_blocks {size : Nat} {data block : List Symbol}
    (member : block ∈ blocks size data) : block.length = size := by
  obtain ⟨i, inRange, rfl⟩ := List.mem_map.mp member
  have fits : size * (i + 1) ≤ size * (data.length / size) :=
    Nat.mul_le_mul_left size (List.mem_range.mp inRange)
  have total := Nat.mul_div_le data.length size
  rw [Nat.mul_add, Nat.mul_one] at fits
  rw [List.length_take, List.length_drop]
  omega

theorem length_rest (size : Nat) (data : List Symbol) :
    (rest size data).length = data.length % size := by
  have split := Nat.div_add_mod data.length size
  unfold rest
  rw [List.length_drop]
  omega

@[simp] theorem blocks_nil (size : Nat) : blocks size ([] : List Symbol) = [] := by
  unfold blocks
  rw [List.length_nil, Nat.zero_div]
  rfl

@[simp] theorem rest_nil (size : Nat) : rest size ([] : List Symbol) = [] := List.drop_nil

theorem blocks_of_short {size : Nat} {data : List Symbol} (short : data.length < size) :
    blocks size data = [] := by
  unfold blocks
  rw [Nat.div_eq_of_lt short]
  rfl

theorem rest_of_short {size : Nat} {data : List Symbol} (short : data.length < size) :
    rest size data = data := by
  unfold rest
  rw [Nat.div_eq_of_lt short]
  rfl

section Append

variable {size : Nat} {block : List Symbol}

theorem length_div_append (positive : 0 < size) (full : block.length = size)
    (data : List Symbol) : (block ++ data).length / size = data.length / size + 1 := by
  rw [List.length_append, full, Nat.add_div_left data.length positive]

/-- A full block in front is the first block. -/
theorem blocks_append (positive : 0 < size) (full : block.length = size) (data : List Symbol) :
    blocks size (block ++ data) = block :: blocks size data := by
  unfold blocks
  rw [length_div_append positive full, List.range_succ_eq_map, List.map_cons, List.map_map]
  congr 1
  · rw [Nat.mul_zero, List.drop_zero, ← full, List.take_left]
  · apply List.map_congr_left
    intro i _
    show ((block ++ data).drop (size * (i + 1))).take size = _
    have behind : size * (i + 1) = block.length + size * i := by
      rw [full, Nat.mul_add, Nat.mul_one, Nat.add_comm]
    rw [behind, List.drop_length_add_append]

theorem rest_append (positive : 0 < size) (full : block.length = size) (data : List Symbol) :
    rest size (block ++ data) = rest size data := by
  have behind : size * (data.length / size + 1) = block.length + size * (data.length / size) := by
    rw [full, Nat.mul_add, Nat.mul_one, Nat.add_comm]
  unfold rest
  rw [length_div_append positive full, behind, List.drop_length_add_append]

theorem blocks_of_full (positive : 0 < size) (full : block.length = size) :
    blocks size block = [block] := by
  have first := blocks_append positive full []
  rwa [List.append_nil, blocks_nil] at first

theorem rest_of_full (positive : 0 < size) (full : block.length = size) :
    rest size block = [] := by
  have first := rest_append positive full []
  rwa [List.append_nil, rest_nil] at first

/-- Blocks in front are the first blocks, whatever follows them. -/
theorem blocks_flatten_append (positive : 0 < size) {front : List (List Symbol)}
    (full : ∀ block ∈ front, block.length = size) (data : List Symbol) :
    blocks size (front.flatten ++ data) = front ++ blocks size data := by
  induction front with
  | nil => rfl
  | cons block front inductionHypothesis =>
      have behind := inductionHypothesis fun other member =>
        full other (List.mem_cons_of_mem block member)
      rw [List.flatten_cons, List.append_assoc,
        blocks_append positive (full block List.mem_cons_self), behind]
      rfl

theorem rest_flatten_append (positive : 0 < size) {front : List (List Symbol)}
    (full : ∀ block ∈ front, block.length = size) (data : List Symbol) :
    rest size (front.flatten ++ data) = rest size data := by
  induction front with
  | nil => rfl
  | cons block front inductionHypothesis =>
      have behind := inductionHypothesis fun other member =>
        full other (List.mem_cons_of_mem block member)
      rw [List.flatten_cons, List.append_assoc,
        rest_append positive (full block List.mem_cons_self), behind]

end Append

/-- The blocks and the rest put the string together again. -/
theorem flatten_blocks {size : Nat} (positive : 0 < size) (data : List Symbol) :
    (blocks size data).flatten ++ rest size data = data := by
  induction length : data.length using Nat.strongRecOn generalizing data with
  | ind n inductionHypothesis =>
      by_cases short : data.length < size
      · rw [blocks_of_short short, rest_of_short short]
        rfl
      · have full : (data.take size).length = size := by
          rw [List.length_take]
          omega
        have shorter : (data.drop size).length < n := by
          rw [List.length_drop]
          omega
        have behind := inductionHypothesis _ shorter (data.drop size) rfl
        have split : data.take size ++ data.drop size = data := List.take_append_drop size data
        rw [← split, blocks_append positive full, rest_append positive full,
          List.flatten_cons, List.append_assoc, behind]

/-- The blocks of a string with more behind it. -/
theorem blocks_append_data {size : Nat} (positive : 0 < size) (data more : List Symbol) :
    blocks size (data ++ more) = blocks size data ++ blocks size (rest size data ++ more) := by
  have split := flatten_blocks positive data
  calc blocks size (data ++ more)
      = blocks size ((blocks size data).flatten ++ (rest size data ++ more)) := by
        rw [← List.append_assoc, split]
    _ = blocks size data ++ blocks size (rest size data ++ more) :=
        blocks_flatten_append positive (fun _ member => length_of_mem_blocks member) _

theorem rest_append_data {size : Nat} (positive : 0 < size) (data more : List Symbol) :
    rest size (data ++ more) = rest size (rest size data ++ more) := by
  have split := flatten_blocks positive data
  calc rest size (data ++ more)
      = rest size ((blocks size data).flatten ++ (rest size data ++ more)) := by
        rw [← List.append_assoc, split]
    _ = rest size (rest size data ++ more) :=
        rest_flatten_append positive (fun _ member => length_of_mem_blocks member) _

/-! ## Collisions -/

/-- Two strings of blocks come to one chaining value at blocks that they do not share: there
the compression function takes two different inputs to one result. -/
def CollidesIn (compress : State → List Symbol → State) (state state' : State)
    (front back : List (List Symbol)) : Prop :=
  ∃ before block before' block' after, front = before ++ block :: after ∧
    back = before' ++ block' :: after ∧
    (before.foldl compress state ≠ before'.foldl compress state' ∨ block ≠ block') ∧
    compress (before.foldl compress state) block = compress (before'.foldl compress state') block'

theorem CollidesIn.append {compress : State → List Symbol → State} {state state' : State}
    {front back : List (List Symbol)} (collides : CollidesIn compress state state' front back)
    (last : List (List Symbol)) :
    CollidesIn compress state state' (front ++ last) (back ++ last) := by
  obtain ⟨before, block, before', block', after, inFront, inBack, different, same⟩ := collides
  refine ⟨before, block, before', block', after ++ last, ?_, ?_, different, same⟩
  · rw [inFront, List.append_assoc, List.cons_append]
  · rw [inBack, List.append_assoc, List.cons_append]

/-- Where two folds meet, and neither string of blocks ends the other one, the compression
function collides: read from the back, the strings differ somewhere. -/
theorem collidesIn_of_foldl_eq {compress : State → List Symbol → State}
    {front back : List (List Symbol)} {state state' : State}
    (notSuffix : ¬ front <:+ back) (notSuffix' : ¬ back <:+ front)
    (same : front.foldl compress state = back.foldl compress state') :
    CollidesIn compress state state' front back := by
  induction front using List.reverseRecOn generalizing back with
  | nil => exact absurd List.nil_suffix notSuffix
  | append_singleton front block inductionHypothesis =>
      cases back using List.reverseRecOn with
      | nil => exact absurd List.nil_suffix notSuffix'
      | append_singleton back block' =>
          have last : compress (front.foldl compress state) block =
              compress (back.foldl compress state') block' := by
            simpa using same
          by_cases equal : front.foldl compress state = back.foldl compress state' ∧ block = block'
          · -- the last blocks agree: the difference lies further to the front
            have before := equal.1
            have blocksAgree := equal.2
            subst blocksAgree
            apply (inductionHypothesis _ _ before).append [block]
            · intro suffix
              exact notSuffix ((List.suffix_append_inj_of_length_eq rfl).mpr ⟨suffix, rfl⟩)
            · intro suffix
              exact notSuffix' ((List.suffix_append_inj_of_length_eq rfl).mpr ⟨suffix, rfl⟩)
          · refine ⟨front, block, back, block', [], rfl, rfl, ?_, last⟩
            rwa [not_and_or] at equal

end BlockHash
