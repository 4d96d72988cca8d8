import Mathlib.Logic.Relation

/-!
Contract: reachability and runs of a labelled step function.

A system is a function `step : State → Label → Option State`; a label names
the party that moves and resolves every nondeterministic choice of that move,
and `none` says that the move is not possible. `ReachableIf` restricts every
step to a condition on the state it is taken from, which is how a result about
"every run whose steps all meet a condition" is stated.
-/

namespace Transition

universe u v

section Reachability

variable {State : Type u} {Label : Type v}
variable (step : State → Label → Option State)

/-- One step under a label that `allowed` accepts in the source state. -/
def StepIf (allowed : State → Label → Prop) (source target : State) : Prop :=
  ∃ label, allowed source label ∧ step source label = some target

/-- States reached from `origin` by steps that all meet `allowed`. -/
def ReachableIf (allowed : State → Label → Prop) (origin state : State) : Prop :=
  Relation.ReflTransGen (StepIf step allowed) origin state

/-- States reached from `origin` by any steps. -/
def Reachable (origin state : State) : Prop :=
  ReachableIf step (fun _ _ => True) origin state

/-- Fold a list of labels through the step function, as long as each passes `test`
in the state it is taken from. -/
def runIf (test : State → Label → Bool) : State → List Label → Option State
  | state, [] => some state
  | state, label :: labels =>
      if test state label then
        match step state label with
        | none => none
        | some next => runIf test next labels
      else none

/-- Fold a list of labels through the step function. -/
def run (origin : State) (labels : List Label) : Option State :=
  runIf step (fun _ _ => true) origin labels

/-- Every step that a list of labels takes meets `allowed`. -/
def AllSteps (allowed : State → Label → Prop) : State → List Label → Prop
  | _, [] => True
  | state, label :: labels =>
      ∀ next, step state label = some next → allowed state label ∧ AllSteps allowed next labels

/-- Every state that a list of labels goes through meets `property`. -/
def AllStates (property : State → Prop) : State → List Label → Prop
  | state, [] => property state
  | state, label :: labels =>
      property state ∧ ∀ next, step state label = some next → AllStates property next labels

variable {step} {allowed stricter : State → Label → Prop} {origin state next : State}

theorem ReachableIf.here : ReachableIf step allowed origin origin :=
  Relation.ReflTransGen.refl

theorem ReachableIf.advance (label : Label)
    (reached : ReachableIf step allowed origin state)
    (permitted : allowed state label) (taken : step state label = some next) :
    ReachableIf step allowed origin next :=
  Relation.ReflTransGen.tail reached ⟨label, permitted, taken⟩

theorem Reachable.advance (label : Label) (reached : Reachable step origin state)
    (taken : step state label = some next) : Reachable step origin next :=
  ReachableIf.advance label reached True.intro taken

theorem ReachableIf.trans {middle : State} (first : ReachableIf step allowed origin middle)
    (second : ReachableIf step allowed middle state) : ReachableIf step allowed origin state :=
  Relation.ReflTransGen.trans first second

theorem Reachable.trans {middle : State} (first : Reachable step origin middle)
    (second : Reachable step middle state) : Reachable step origin state :=
  ReachableIf.trans first second

/-- A stricter step condition reaches fewer states. -/
theorem ReachableIf.mono
    (weaker : ∀ source label, stricter source label → allowed source label)
    (reached : ReachableIf step stricter origin state) :
    ReachableIf step allowed origin state := by
  induction reached with
  | refl => exact .here
  | tail _ last inductionHypothesis =>
      obtain ⟨label, permitted, taken⟩ := last
      exact inductionHypothesis.advance label (weaker _ _ permitted) taken

theorem ReachableIf.reachable (reached : ReachableIf step allowed origin state) :
    Reachable step origin state :=
  reached.mono fun _ _ _ => True.intro

/-- The invariant rule: what holds at first and is kept by every permitted
step out of a reachable state holds in every reachable state. -/
theorem ReachableIf.invariant {property : State → Prop}
    (base : property origin)
    (preserved : ∀ source label target,
      ReachableIf step allowed origin source → property source →
        allowed source label → step source label = some target → property target)
    (reached : ReachableIf step allowed origin state) : property state := by
  induction reached with
  | refl => exact base
  | tail previous last inductionHypothesis =>
      obtain ⟨label, permitted, taken⟩ := last
      exact preserved _ label _ previous inductionHypothesis permitted taken

/-- The invariant rule for unrestricted runs. -/
theorem Reachable.invariant {property : State → Prop}
    (base : property origin)
    (preserved : ∀ source label target,
      property source → step source label = some target → property target)
    (reached : Reachable step origin state) : property state :=
  ReachableIf.invariant base
    (fun source label target _ holds _ taken =>
      preserved source label target holds taken) reached

/-- The rule for an exact condition: where an invariant gives the property, every
permitted step keeps the invariant and every other step breaks the property, the
property holds all along a run just when all its steps are permitted. -/
theorem allStates_iff_allSteps {invariant property : State → Prop}
    (sound : ∀ state, invariant state → property state)
    (kept : ∀ state label next, invariant state → allowed state label →
      step state label = some next → invariant next)
    (broken : ∀ state label next, invariant state → ¬ allowed state label →
      step state label = some next → ¬ property next)
    (base : invariant origin) (labels : List Label) :
    AllStates step property origin labels ↔ AllSteps step allowed origin labels := by
  induction labels generalizing origin with
  | nil => exact iff_of_true (sound origin base) True.intro
  | cons label labels inductionHypothesis =>
      constructor
      · rintro ⟨_, later⟩ next taken
        by_cases permitted : allowed origin label
        · have holds := kept origin label next base permitted taken
          exact ⟨permitted, (inductionHypothesis holds).mp (later next taken)⟩
        · have fails := broken origin label next base permitted taken
          have holds := later next taken
          cases labels with
          | nil => exact absurd holds fails
          | cons _ _ => exact absurd holds.1 fails
      · intro steps
        refine ⟨sound origin base, fun next taken => ?_⟩
        obtain ⟨permitted, later⟩ := steps next taken
        exact (inductionHypothesis (kept origin label next base permitted taken)).mpr later

theorem reachableIf_of_runIf {test : State → Label → Bool}
    (sound : ∀ source label, test source label = true → allowed source label)
    {labels : List Label} (complete : runIf step test origin labels = some state) :
    ReachableIf step allowed origin state := by
  induction labels generalizing origin with
  | nil =>
      rw [runIf, Option.some.injEq] at complete
      exact complete ▸ ReachableIf.here
  | cons label labels inductionHypothesis =>
      rw [runIf, Option.ite_none_right_eq_some] at complete
      obtain ⟨passes, complete⟩ := complete
      cases taken : step origin label with
      | none => simp [taken] at complete
      | some middle =>
          simp only [taken] at complete
          have first : StepIf step allowed origin middle := ⟨label, sound _ _ passes, taken⟩
          exact Relation.ReflTransGen.head first (inductionHypothesis complete)

/-- A run of tested steps that ends in a state passing `check` reaches such a state. -/
theorem exists_reachableIf_of_runIf (step : State → Label → Option State) (origin : State)
    (allowed : State → Label → Prop) [∀ source label, Decidable (allowed source label)]
    (labels : List Label) (check : State → Bool)
    (passes : (runIf step (fun source label => decide (allowed source label)) origin labels).any
      check = true) :
    ∃ state, ReachableIf step allowed origin state ∧ check state = true := by
  cases complete : runIf step (fun source label => decide (allowed source label)) origin labels with
  | none => simp [complete] at passes
  | some state =>
      rw [complete, Option.any_some] at passes
      exact ⟨state, reachableIf_of_runIf (fun _ _ => of_decide_eq_true) complete, passes⟩

/-- A run that ends in a state passing the test `check` reaches such a state. -/
theorem exists_reachable_of_run (step : State → Label → Option State) (origin : State)
    (labels : List Label) (check : State → Bool)
    (passes : (run step origin labels).any check = true) :
    ∃ state, Reachable step origin state ∧ check state = true := by
  cases complete : run step origin labels with
  | none => simp [complete] at passes
  | some state =>
      rw [complete, Option.any_some] at passes
      exact ⟨state, reachableIf_of_runIf (fun _ _ _ => True.intro) complete, passes⟩

/-! ## Bounded effort -/

theorem run_cons {label : Label} {labels : List Label}
    (ran : run step origin (label :: labels) = some state) :
    ∃ middle, step origin label = some middle ∧ run step middle labels = some state := by
  cases taken : step origin label with
  | none => simp [run, runIf, taken] at ran
  | some middle => exact ⟨middle, rfl, by simpa [run, runIf, taken] using ran⟩

/-- The measure rule: where no step raises a measure and every counted one lowers it, a run
takes no more counted steps than the measure was at first. -/
theorem countP_add_measure_le (counted : Label → Bool) {invariant : State → Prop}
    {measure : State → Nat}
    (kept : ∀ state label next, invariant state → step state label = some next → invariant next)
    (lowered : ∀ state label next, invariant state → step state label = some next →
      measure next + (if counted label then 1 else 0) ≤ measure state)
    (base : invariant origin) {labels : List Label}
    (ran : run step origin labels = some state) :
    labels.countP counted + measure state ≤ measure origin := by
  induction labels generalizing origin with
  | nil =>
      obtain rfl : origin = state := by simpa [run, runIf] using ran
      simp
  | cons label labels inductionHypothesis =>
      obtain ⟨middle, taken, rest⟩ := run_cons ran
      have first := lowered origin label middle base taken
      have later := inductionHypothesis (kept origin label middle base taken) rest
      rw [List.countP_cons]
      omega

end Reachability

end Transition
