import Mathlib.Data.List.Basic
import Mathlib.Tactic.Common

/-!
Contract: cutting a list at a terminator of two letters.

`split` cuts greedily at each leftmost terminator. It keeps every letter, none of its
pieces holds a terminator, and it can be computed in portions: the letters behind the
last terminator are all that a later portion needs.
-/

namespace LineSplit

variable {α : Type} [DecidableEq α] (cr lf : α)

/-- What stands before and behind the leftmost terminator. -/
def cut : List α → Option (List α × List α)
  | first :: second :: rest =>
      if first = cr ∧ second = lf then some ([], rest)
      else (cut (second :: rest)).map fun parts => (first :: parts.1, parts.2)
  | _ => none

variable {cr lf} {input front back : List α}

theorem eq_of_cut (found : cut cr lf input = some (front, back)) :
    input = front ++ cr :: lf :: back := by
  induction input generalizing front with
  | nil => contradiction
  | cons first tail inductionHypothesis =>
      match tail with
      | [] => contradiction
      | second :: rest =>
          rw [cut] at found
          split at found
          next terminator =>
            obtain ⟨rfl, rfl⟩ := terminator
            obtain ⟨rfl, rfl⟩ := Prod.mk.inj (Option.some.inj found)
            rfl
          next =>
            obtain ⟨parts, later, same⟩ := Option.map_eq_some_iff.mp found
            obtain ⟨rfl, rfl⟩ := Prod.mk.inj same
            rw [inductionHypothesis later]
            rfl

theorem length_of_cut (found : cut cr lf input = some (front, back)) :
    input.length = front.length + back.length + 2 := by
  have parts := congrArg List.length (eq_of_cut found)
  simp only [List.length_append, List.length_cons] at parts
  omega

/-- Letters behind a list do not move its leftmost terminator. -/
theorem cut_append (found : cut cr lf input = some (front, back)) (more : List α) :
    cut cr lf (input ++ more) = some (front, back ++ more) := by
  induction input generalizing front with
  | nil => contradiction
  | cons first tail inductionHypothesis =>
      match tail with
      | [] => contradiction
      | second :: rest =>
          rw [cut] at found
          show cut cr lf (first :: second :: (rest ++ more)) = _
          rw [cut]
          split at found
          next terminator =>
            obtain ⟨rfl, rfl⟩ := Prod.mk.inj (Option.some.inj found)
            rw [if_pos terminator]
          next other =>
            obtain ⟨parts, later, same⟩ := Option.map_eq_some_iff.mp found
            obtain ⟨rfl, rfl⟩ := Prod.mk.inj same
            have moved := inductionHypothesis later
            rw [List.cons_append] at moved
            rw [if_neg other, moved]
            rfl

/-- A piece without the first letter of the terminator is what stands before it. -/
theorem cut_of_free (free : ∀ letter ∈ front, letter ≠ cr) :
    cut cr lf (front ++ cr :: lf :: back) = some (front, back) := by
  induction front with
  | nil => exact if_pos ⟨rfl, rfl⟩
  | cons first tail inductionHypothesis =>
      have later := inductionHypothesis fun letter member =>
        free letter (List.mem_cons_of_mem _ member)
      have notHere : first ≠ cr := free first List.mem_cons_self
      match tail with
      | [] =>
          show cut cr lf (first :: cr :: lf :: back) = _
          rw [cut, if_neg (fun both => notHere both.1),
            show cr :: lf :: back = [] ++ cr :: lf :: back from rfl, later]
          rfl
      | second :: tail =>
          show cut cr lf (first :: second :: (tail ++ cr :: lf :: back)) = _
          rw [List.cons_append] at later
          rw [cut, if_neg (fun both => notHere both.1), later]
          rfl

theorem cut_eq_none_iff : cut cr lf input = none ↔ ¬ [cr, lf] <:+: input := by
  induction input with
  | nil => simp [cut]
  | cons first tail inductionHypothesis =>
      match tail with
      | [] => simp [cut, List.infix_cons_iff]
      | second :: rest =>
          rw [cut, List.infix_cons_iff]
          by_cases terminator : first = cr ∧ second = lf
          · rw [if_pos terminator]
            obtain ⟨rfl, rfl⟩ := terminator
            simp
          · rw [if_neg terminator, Option.map_eq_none_iff, inductionHypothesis]
            have notHere : ¬ [cr, lf] <+: first :: second :: rest := by
              rw [List.cons_prefix_cons, List.cons_prefix_cons]
              rintro ⟨rfl, rfl, -⟩
              exact terminator ⟨rfl, rfl⟩
            simp [notHere]

/-- No terminator starts before the one that is cut out. -/
theorem front_of_cut (found : cut cr lf input = some (front, back)) :
    ¬ [cr, lf] <:+: front ++ [cr] := by
  intro earlier
  have whole : input = (front ++ [cr]) ++ lf :: back := by
    rw [eq_of_cut found, List.append_assoc]
    rfl
  match first : cut cr lf (front ++ [cr]) with
  | none => exact cut_eq_none_iff.mp first earlier
  | some (before, behind) =>
      have short := length_of_cut first
      have again := cut_append first (lf :: back)
      rw [← whole, found, Option.some.injEq, Prod.mk.injEq] at again
      rw [← again.1, List.length_append, List.length_singleton] at short
      omega

/-- The terminator of `cut` is the first one that a loop over the positions finds. -/
theorem find_terminator :
    ((List.range (input.length - 1)).find? fun i =>
      decide (input[i]? = some cr ∧ input[i + 1]? = some lf)) =
      (cut cr lf input).map fun parts => parts.1.length := by
  induction input with
  | nil => rfl
  | cons first tail inductionHypothesis =>
      match tail with
      | [] => rfl
      | second :: rest =>
          show ((List.range (rest.length + 1)).find? _) = _
          rw [List.range_succ_eq_map, List.find?_cons, cut]
          by_cases terminator : first = cr ∧ second = lf
          · simp [terminator]
          · rw [if_neg terminator]
            simp only [List.getElem?_cons_zero, List.getElem?_cons_succ, Nat.zero_add,
              Option.some.injEq, terminator, decide_false, List.find?_map, Option.map_map]
            have later := congrArg (Option.map Nat.succ) inductionHypothesis
            rw [Option.map_map] at later
            exact later

variable (cr lf) in
/-- The pieces between the terminators, and what stands behind the last one. -/
def split (input : List α) : List (List α) × List α :=
  match _found : cut cr lf input with
  | none => ([], input)
  | some (front, back) => (front :: (split back).1, (split back).2)
termination_by input.length
decreasing_by all_goals
  have shorter := length_of_cut _found
  omega

theorem split_of_cut_none (none : cut cr lf input = none) : split cr lf input = ([], input) := by
  rw [split]
  split
  next => rfl
  next => simp_all

theorem split_of_cut (found : cut cr lf input = some (front, back)) :
    split cr lf input = (front :: (split cr lf back).1, (split cr lf back).2) := by
  rw [split]
  split
  next none => simp [none] at found
  next other =>
    rw [found] at other
    obtain ⟨rfl, rfl⟩ := Prod.mk.inj (Option.some.inj other)
    rfl

variable (cr lf)

/-- A later portion is cut together with what the earlier one left over. -/
theorem split_append (input more : List α) :
    split cr lf (input ++ more) =
      ((split cr lf input).1 ++ (split cr lf ((split cr lf input).2 ++ more)).1,
        (split cr lf ((split cr lf input).2 ++ more)).2) := by
  fun_induction split cr lf input with
  | case1 input none => rfl
  | case2 input front back found inductionHypothesis =>
      rw [split_of_cut (cut_append found more), inductionHypothesis]
      rfl

/-- No letter is lost, doubled or moved. -/
theorem join_split (input : List α) :
    (split cr lf input).1.flatMap (fun piece => piece ++ [cr, lf]) ++ (split cr lf input).2 =
      input := by
  fun_induction split cr lf input with
  | case1 input none => rfl
  | case2 input front back found inductionHypothesis =>
      rw [List.flatMap_cons, List.append_assoc, inductionHypothesis, eq_of_cut found,
        List.append_assoc]
      rfl

theorem length_remainder (input : List α) :
    (split cr lf input).2.length ≤ input.length := by
  have whole := congrArg List.length (join_split cr lf input)
  rw [List.length_append] at whole
  omega

theorem cut_remainder (input : List α) : cut cr lf (split cr lf input).2 = none := by
  fun_induction split cr lf input with
  | case1 input none => exact none
  | case2 input front back found inductionHypothesis => exact inductionHypothesis

/-- Every piece ends at the first terminator behind its start. -/
theorem piece_of_split (input : List α) :
    ∀ piece ∈ (split cr lf input).1, ¬ [cr, lf] <:+: piece ++ [cr] := by
  fun_induction split cr lf input with
  | case1 input none => simp
  | case2 input front back found inductionHypothesis =>
      intro piece member
      rcases List.mem_cons.mp member with rfl | later
      · exact front_of_cut found
      · exact inductionHypothesis piece later

/-! ## Streams of lines -/

section Lines

variable {cr} {lines : List (List α)}

/-- Lines without the first letter of the terminator are the pieces of their stream. -/
theorem split_lines (free : ∀ line ∈ lines, ∀ letter ∈ line, letter ≠ cr) :
    split cr lf (lines.flatMap fun line => line ++ [cr, lf]) = (lines, []) := by
  induction lines with
  | nil => exact split_of_cut_none rfl
  | cons line lines inductionHypothesis =>
      have later := inductionHypothesis fun other member =>
        free other (List.mem_cons_of_mem line member)
      let stream := lines.flatMap fun line => line ++ [cr, lf]
      have first : cut cr lf (line ++ cr :: lf :: stream) = some (line, stream) :=
        cut_of_free (free line List.mem_cons_self)
      rw [List.flatMap_cons, List.append_assoc, List.cons_append, List.cons_append,
        List.nil_append, split_of_cut first, later]

/-- Wherever a stream of lines is cut, what the first part leaves over is nothing or the start
of one line. -/
theorem length_remainder_of_lines (free : ∀ line ∈ lines, ∀ letter ∈ line, letter ≠ cr)
    {n : Nat} (short : ∀ line ∈ lines, line.length ≤ n)
    (stream : lines.flatMap (fun line => line ++ [cr, lf]) = front ++ back) :
    (split cr lf front).2.length ≤ n + 1 := by
  have whole := split_lines lf free
  rw [stream, split_append, Prod.mk.injEq] at whole
  obtain ⟨pieces, nothing⟩ := whole
  match found : cut cr lf ((split cr lf front).2 ++ back) with
  | none =>
      rw [split_of_cut_none found, List.append_eq_nil_iff] at nothing
      rw [nothing.1]
      exact Nat.zero_le _
  | some (piece, behind) =>
      -- the next terminator is the one of the line that the first part ends in
      rw [split_of_cut found] at pieces
      have member : piece ∈ lines := by
        rw [← pieces]
        exact List.mem_append_right _ List.mem_cons_self
      have bound := short piece member
      by_contra long
      have inside : piece ++ [cr, lf] <+: (split cr lf front).2 := by
        apply List.prefix_of_prefix_length_le _ (List.prefix_append _ back)
        · rw [List.length_append]
          show piece.length + 2 ≤ _
          omega
        · rw [eq_of_cut found]
          exact ⟨behind, by simp⟩
      have terminator : [cr, lf] <:+: (split cr lf front).2 :=
        (List.suffix_append piece [cr, lf]).isInfix.trans inside.isInfix
      exact cut_eq_none_iff.mp (cut_remainder cr lf front) terminator

end Lines

end LineSplit
