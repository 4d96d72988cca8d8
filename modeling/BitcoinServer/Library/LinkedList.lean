import Mathlib.Data.List.Nodup
import Mathlib.Logic.Function.Basic

/-!
Contract: singly linked lists on a heap.

Owns the relation between a heap and the list it holds from a head pointer on,
that the heap determines that list and puts no cell in it twice, the loop that
walks to the last cell, and how the list changes when a cell is linked behind the
last one or the head is taken off and freed.

A null pointer is `none`, and so is the content of an address that is not
allocated. Addresses and values are parameters.
-/

namespace LinkedList

variable {Address Value : Type*}

structure Cell (Address Value : Type*) where
  value : Value
  next : Option Address
deriving DecidableEq, Repr

/-- `heap` holds the list of `nodes`, addresses with their values, from `head` on. -/
inductive Chain (heap : Address → Option (Cell Address Value)) :
    Option Address → List (Address × Value) → Prop
  | nil : Chain heap none []
  | cons {address : Address} {cell : Cell Address Value} {nodes : List (Address × Value)}
      (read : heap address = some cell) (behind : Chain heap cell.next nodes) :
      Chain heap (some address) ((address, cell.value) :: nodes)

/-- Follow the links from the cell at `address` to the last one, in at most `turns` reads. -/
def lastFrom (heap : Address → Option (Cell Address Value)) : Nat → Address → Option Address
  | 0, _ => none
  | turns + 1, address =>
      match heap address with
      | none => none
      | some cell =>
          match cell.next with
          | none => some address
          | some next => lastFrom heap turns next

section Chains

variable {heap other : Address → Option (Cell Address Value)} {head : Option Address}
  {nodes nodes' : List (Address × Value)}

theorem Chain.read_head {address : Address} (chain : Chain heap (some address) nodes) :
    ∃ cell nodes', heap address = some cell ∧ nodes = (address, cell.value) :: nodes' ∧
      Chain heap cell.next nodes' := by
  cases chain with
  | cons read behind => exact ⟨_, _, read, rfl, behind⟩

/-- The heap and the head determine the list. -/
theorem Chain.unique (chain : Chain heap head nodes) (chain' : Chain heap head nodes') :
    nodes = nodes' := by
  induction chain generalizing nodes' with
  | nil =>
      cases chain'
      rfl
  | cons read behind inductionHypothesis =>
      obtain ⟨cell', behind', read', rfl, follows⟩ := chain'.read_head
      rw [read, Option.some_inj] at read'
      subst read'
      rw [inductionHypothesis follows]

/-- From every cell of the list on, the heap holds a part of the list. -/
theorem Chain.from_mem (chain : Chain heap head nodes) {address : Address}
    (member : address ∈ nodes.map Prod.fst) :
    ∃ behind, Chain heap (some address) behind ∧ behind.length ≤ nodes.length := by
  induction chain with
  | nil => cases member
  | cons read behind inductionHypothesis =>
      rw [List.map_cons, List.mem_cons] at member
      rcases member with first | later
      · exact ⟨_, first ▸ .cons read behind, Nat.le_refl _⟩
      · obtain ⟨part, chain, shorter⟩ := inductionHypothesis later
        exact ⟨part, chain, Nat.le_succ_of_le shorter⟩

/-- A list that ends goes through no cell twice. -/
theorem Chain.nodup (chain : Chain heap head nodes) : (nodes.map Prod.fst).Nodup := by
  induction chain with
  | nil => exact List.nodup_nil
  | cons read behind inductionHypothesis =>
      rw [List.map_cons, List.nodup_cons]
      refine ⟨fun again => ?_, inductionHypothesis⟩
      -- met again, the cell would begin a shorter list than the one it begins
      obtain ⟨part, chain, shorter⟩ := behind.from_mem again
      have same := chain.unique (.cons read behind)
      rw [same, List.length_cons] at shorter
      omega

theorem Chain.isSome_of_mem (chain : Chain heap head nodes) {address : Address}
    (member : address ∈ nodes.map Prod.fst) : (heap address).isSome = true := by
  obtain ⟨part, chain, _⟩ := chain.from_mem member
  obtain ⟨cell, _, read, _⟩ := chain.read_head
  rw [read]
  rfl

/-- The list stays where only other cells change. -/
theorem Chain.frame (chain : Chain heap head nodes)
    (unchanged : ∀ address ∈ nodes.map Prod.fst, other address = heap address) :
    Chain other head nodes := by
  induction chain with
  | nil => exact .nil
  | cons read behind inductionHypothesis =>
      have here := unchanged _ List.mem_cons_self
      apply Chain.cons (here.trans read)
      exact inductionHypothesis fun address member =>
        unchanged address (List.mem_cons_of_mem _ member)

/-- The walk from the head of a list ends, after one read for each cell. -/
theorem Chain.lastFrom_isSome {address : Address} (chain : Chain heap (some address) nodes)
    {turns : Nat} (enough : nodes.length ≤ turns) :
    ∃ last, lastFrom heap turns address = some last := by
  induction nodes generalizing address turns with
  | nil => cases chain
  | cons node nodes inductionHypothesis =>
      obtain ⟨cell, _, read, isNode, follows⟩ := chain.read_head
      cases isNode
      cases turns with
      | zero => exact absurd enough (Nat.not_succ_le_zero _)
      | succ turns =>
          cases next : cell.next with
          | none => exact ⟨address, by simp [lastFrom, read, next]⟩
          | some behind =>
              rw [next] at follows
              obtain ⟨last, walked⟩ :=
                inductionHypothesis follows (Nat.le_of_succ_le_succ enough)
              exact ⟨last, by simp [lastFrom, read, next, walked]⟩

/-- What the walk ends at is a cell of the list that has no successor. -/
theorem Chain.lastFrom_ends {turns : Nat} {address last : Address}
    (chain : Chain heap (some address) nodes) (walked : lastFrom heap turns address = some last) :
    last ∈ nodes.map Prod.fst ∧ ∃ cell, heap last = some cell ∧ cell.next = none := by
  induction turns generalizing address nodes with
  | zero => cases walked
  | succ turns inductionHypothesis =>
      obtain ⟨cell, behind, read, rfl, follows⟩ := chain.read_head
      simp only [lastFrom, read] at walked
      cases next : cell.next with
      | none =>
          simp only [next, Option.some_inj] at walked
          subst walked
          exact ⟨List.mem_cons_self, cell, read, next⟩
      | some nextAddress =>
          rw [next] at follows
          simp only [next] at walked
          obtain ⟨member, ends⟩ := inductionHypothesis follows walked
          exact ⟨List.mem_cons_of_mem _ member, ends⟩

end Chains

/-! ## Appending and popping -/

section Change

variable [DecidableEq Address] {heap : Address → Option (Cell Address Value)}
  {head : Option Address} {nodes : List (Address × Value)}

/-- A list with its last cell linked to a new cell. -/
theorem Chain.link {last fresh : Address} {cell new : Cell Address Value}
    (chain : Chain heap head nodes) (member : last ∈ nodes.map Prod.fst)
    (lastRead : heap last = some cell) (ends : cell.next = none)
    (freshRead : heap fresh = some new) (isLast : new.next = none)
    (outside : fresh ∉ nodes.map Prod.fst) :
    Chain (Function.update heap last (some { cell with next := some fresh })) head
      (nodes ++ [(fresh, new.value)]) := by
  induction chain with
  | nil => cases member
  | @cons address here nodes read behind inductionHypothesis =>
      rw [List.map_cons, List.mem_cons, not_or] at outside
      by_cases first : last = address
      · -- the last cell has no successor, so the list ended here
        subst first
        rw [read, Option.some_inj] at lastRead
        subst lastRead
        rw [ends] at behind
        cases behind
        let linked : Cell Address Value := { here with next := some fresh }
        have single : Chain (Function.update heap last (some linked)) linked.next
            [(fresh, new.value)] := by
          apply Chain.cons
          · rw [Function.update_of_ne outside.1, freshRead]
          · rw [isLast]
            exact .nil
        have both := single.cons (Function.update_self last (some linked) heap)
        exact both
      · rw [List.map_cons, List.mem_cons] at member
        have rest := inductionHypothesis (member.resolve_left first) outside.2
        apply rest.cons
        rw [Function.update_of_ne (Ne.symm first), read]

/-- What is left of a list when its head is freed. -/
theorem Chain.free {address : Address} {cell : Cell Address Value}
    (chain : Chain heap (some address) nodes) (read : heap address = some cell) :
    Chain (Function.update heap address none) cell.next (nodes.drop 1) := by
  have nodup := chain.nodup
  obtain ⟨cell', _, read', rfl, behind⟩ := chain.read_head
  rw [read, Option.some_inj] at read'
  subst read'
  rw [List.map_cons, List.nodup_cons] at nodup
  apply behind.frame
  intro other member
  apply Function.update_of_ne
  rintro rfl
  exact nodup.1 member

end Change

end LinkedList
