import BitcoinServer.Solution.Uint256

/-!
Contract: the routines of `uint256.h` on buffers that may be the same.

A store gives every named buffer its 32 bytes. A routine gets the names of its
destination and its operands; its own arrays are further names, added at its start and
dropped at its end. No name stands for `NULL`.

Owns the effect of each routine on the store: only the destination changes, to what the
functions on values say, for every way in which the names of `uint256_add` and
`uint256_mul` coincide, and for a destination other than the operand of `uint256_sl`. The
effect of `uint256_exp` is that of its loop for any routine in place of `uint256_mul`.
-/

namespace BitcoinServer.Solution

/-- The bytes of each buffer. -/
abbrev Store (σ : Type) := σ → Uint256

/-- A routine with a destination and two operands, as `uint256_mul` is. -/
abbrev Routine (σ : Type) := Store σ → σ → σ → σ → Store σ

/-- `aa` and `bb` of `uint256_add`. -/
inductive AddLocal where
  | aa | bb
deriving DecidableEq

/-- The arrays of `uint256_mul`. -/
inductive MulLocal where
  | temp | acc | aa | bb
deriving DecidableEq

/-- The arrays of `uint256_exp`. -/
inductive ExpLocal where
  | temp | acc
deriving DecidableEq

namespace Store

section

variable {σ ι : Type}

/-- A call's arrays, set up with `uint256_init`, on top of the caller's buffers. -/
def push (s : Store σ) (ι : Type) : Store (σ ⊕ ι) := Sum.elim s fun _ => uint256Init

/-- The caller's buffers at the return of a call. -/
def pop (s : Store (σ ⊕ ι)) : Store σ := fun name => s (.inl name)

end

variable {σ : Type} [DecidableEq σ]

/-- `name[i] = value`. -/
def set (s : Store σ) (name : σ) (i : Nat) (value : UInt8) : Store σ :=
  Function.update s name ((s name).set i value)

/-- `memcpy(dst, src, 32)`. -/
def memcpy (s : Store σ) (dst src : σ) : Store σ := Function.update s dst (s src)

/-! ## The source's functions -/

/-- The loop of `uint256_sl`, with `i + 1` iterations to go. -/
def slLoop (s : Store σ) (res a : σ) (moveN mask : UInt8) : Nat → Nat → UInt8 → Store σ
  | 0, _, _ => s
  | i + 1, j, carry =>
      let s := s.set res i (((s a).byte j <<< moveN) ||| carry)
      slLoop s res a moveN mask i (j - 1) (((s a).byte j &&& mask) >>> moveN)

/-- `uint256_sl`. -/
def uint256Sl (s : Store σ) (res a : σ) (shift : UInt8) : Store σ :=
  let b := shift / 8
  let moveN := shift % 8
  let mask := UInt8.ofNat (0xff <<< (8 - moveN.toNat))
  if shift = 0 then s.memcpy res a
  else s.slLoop res a moveN mask (32 - b.toNat) 31 0

/-- The loop of `uint256_add`, with `left` iterations to go. -/
def addLoop (s : Store (σ ⊕ AddLocal)) (res : σ) : Nat → UInt16 → Store (σ ⊕ AddLocal)
  | 0, _ => s
  | left + 1, temp =>
      let i := 31 - left
      let sum := (temp >>> 8) +
        (((s (.inr .aa)).byte i).toUInt16 + ((s (.inr .bb)).byte i).toUInt16)
      addLoop (s.set (.inl res) i (sum &&& 0xff).toUInt8) res left sum

/-- `uint256_add`. -/
def uint256Add (s : Store σ) (res a b : σ) : Store σ :=
  let s := s.push AddLocal
  let s := s.memcpy (.inr .aa) (.inl a)
  let s := s.memcpy (.inr .bb) (.inl b)
  (s.addLoop res 32 0).pop

/-- The loop of `uint256_mul`, with `i + 1` iterations to go. -/
def mulLoop (s : Store (σ ⊕ MulLocal)) : Nat → Store (σ ⊕ MulLocal)
  | 0 => s
  | i + 1 =>
      if testBit (s (.inr .bb)) i then
        let s := s.uint256Sl (.inr .temp) (.inr .aa) (UInt8.ofNat (255 - i))
        let s := s.uint256Add (.inr .acc) (.inr .acc) (.inr .temp)
        mulLoop s i
      else mulLoop s i

/-- `uint256_mul`. -/
def uint256Mul (s : Store σ) (res a b : σ) : Store σ :=
  let s := s.push MulLocal
  let s := s.memcpy (.inr .bb) (.inl b)
  let s := s.memcpy (.inr .aa) (.inl a)
  let s := s.mulLoop 256
  (s.memcpy (.inl res) (.inr .acc)).pop

/-- The loop of `uint256_exp` and the product after it. -/
def expLoop (s : Store (σ ⊕ ExpLocal)) (res : σ) (exp : Nat) : Store (σ ⊕ ExpLocal) :=
  if 1 < exp then
    if exp % 2 = 0 then
      expLoop (s.uint256Mul (.inr .acc) (.inr .acc) (.inr .acc)) res (exp / 2)
    else
      let s := s.uint256Mul (.inr .temp) (.inr .acc) (.inr .temp)
      let s := s.uint256Mul (.inr .acc) (.inr .acc) (.inr .acc)
      expLoop s res ((exp - 1) / 2)
  else s.uint256Mul (.inl res) (.inr .acc) (.inr .temp)
termination_by exp
decreasing_by all_goals omega

/-- `uint256_exp`. -/
def uint256Exp (s : Store σ) (res base : σ) (exp : UInt32) : Store σ :=
  if exp = 0 then ((List.range 31).foldl (fun s i => s.set res i 0) s).set res 31 1
  else
    let s := s.push ExpLocal
    let s := if res ≠ base then s.memcpy (.inr .acc) (.inl base) else s
    let s := s.set (.inr .temp) 31 1
    (s.expLoop res exp.toNat).pop

/-! ## Another routine in place of `uint256_mul` -/

/-- The routine changes its destination only, to the value of `mul`. -/
def Computes (routine : Routine σ) (mul : Uint256 → Uint256 → Uint256) : Prop :=
  ∀ s res a b, routine s res a b = Function.update s res (mul (s a) (s b))

/-- The loop of `uint256_exp` and the product after it. -/
def expLoopBy (mul : Routine (σ ⊕ ExpLocal)) (s : Store (σ ⊕ ExpLocal)) (res : σ) (exp : Nat) :
    Store (σ ⊕ ExpLocal) :=
  if 1 < exp then
    if exp % 2 = 0 then
      expLoopBy mul (mul s (.inr .acc) (.inr .acc) (.inr .acc)) res (exp / 2)
    else
      let s := mul s (.inr .temp) (.inr .acc) (.inr .temp)
      let s := mul s (.inr .acc) (.inr .acc) (.inr .acc)
      expLoopBy mul s res ((exp - 1) / 2)
  else mul s (.inl res) (.inr .acc) (.inr .temp)
termination_by exp
decreasing_by all_goals omega

/-- `uint256_exp` with `mul` in place of `uint256_mul`. -/
def uint256ExpBy (mul : Routine (σ ⊕ ExpLocal)) (s : Store σ) (res base : σ) (exp : UInt32) :
    Store σ :=
  if exp = 0 then ((List.range 31).foldl (fun s i => s.set res i 0) s).set res 31 1
  else
    let s := s.push ExpLocal
    let s := if res ≠ base then s.memcpy (.inr .acc) (.inl base) else s
    let s := s.set (.inr .temp) 31 1
    (s.expLoopBy mul res exp.toNat).pop

/-! ## Effects -/

@[simp] theorem pop_update_inl {ι : Type} [DecidableEq ι] (s : Store (σ ⊕ ι)) (name : σ)
    (value : Uint256) :
    pop (Function.update s (.inl name) value) = Function.update s.pop name value := by
  funext other
  by_cases same : other = name
  · subst same
    simp [pop]
  · simp [pop, same]

@[simp] theorem pop_update_inr {ι : Type} [DecidableEq ι] (s : Store (σ ⊕ ι)) (name : ι)
    (value : Uint256) : pop (Function.update s (.inr name) value) = s.pop := by
  funext other
  simp [pop]

theorem memcpy_self (s : Store σ) (dst src : σ) : s.memcpy dst src dst = s src :=
  Function.update_self _ _ _

theorem memcpy_of_ne (s : Store σ) {dst other : σ} (apart : other ≠ dst) (src : σ) :
    s.memcpy dst src other = s other :=
  Function.update_of_ne apart _ _

theorem pop_memcpy_inr {ι : Type} [DecidableEq ι] (s : Store (σ ⊕ ι)) (dst : ι)
    (src : σ ⊕ ι) : (s.memcpy (.inr dst) src).pop = s.pop :=
  pop_update_inr s dst (s src)

/-- Away from its operand the loop of `uint256_sl` writes what the values say. -/
theorem slLoop_eq (s : Store σ) {res a : σ} (apart : res ≠ a) (moveN mask : UInt8)
    (count j : Nat) (carry : UInt8) :
    s.slLoop res a moveN mask count j carry =
      Function.update s res (Solution.slLoop (s a) moveN mask count j carry (s res)) := by
  induction count generalizing s j carry with
  | zero => exact (Function.update_eq_self res s).symm
  | succ i inductionHypothesis =>
      have operand : ∀ value, (s.set res i value) a = s a := fun value =>
        Function.update_of_ne apart.symm _ _
      have destination : ∀ value, (s.set res i value) res = (s res).set i value := fun value =>
        Function.update_self _ _ _
      rw [slLoop, inductionHypothesis, Solution.slLoop, operand, destination]
      exact Function.update_idem _ _ _

theorem uint256Sl_eq (s : Store σ) {res a : σ} (apart : res ≠ a) (shift : UInt8) :
    s.uint256Sl res a shift =
      Function.update s res (Solution.uint256Sl (s res) (s a) shift) := by
  unfold uint256Sl Solution.uint256Sl
  by_cases isZero : shift = 0
  · simp only [if_pos isZero]
    rfl
  · simp only [if_neg isZero]
    exact slLoop_eq s apart _ _ _ _ _

theorem addLoop_eq (s : Store (σ ⊕ AddLocal)) (res : σ) (left : Nat) (temp : UInt16) :
    s.addLoop res left temp =
      Function.update s (.inl res)
        (Solution.addLoop (s (.inr .aa)) (s (.inr .bb)) left temp (s (.inl res))) := by
  induction left generalizing s temp with
  | zero => exact (Function.update_eq_self _ s).symm
  | succ left inductionHypothesis =>
      have copies : ∀ (name : AddLocal) (i : Nat) (value : UInt8),
          (s.set (.inl res) i value) (.inr name) = s (.inr name) := fun _ _ _ =>
        Function.update_of_ne Sum.inr_ne_inl _ _
      have destination : ∀ (i : Nat) (value : UInt8),
          (s.set (.inl res) i value) (.inl res) = (s (.inl res)).set i value := fun _ _ =>
        Function.update_self _ _ _
      rw [addLoop, inductionHypothesis, Solution.addLoop, copies, copies, destination]
      exact Function.update_idem _ _ _

/-- The private copies of `uint256_add` make every choice of the destination alike. -/
theorem uint256Add_eq (s : Store σ) (res a b : σ) :
    s.uint256Add res a b =
      Function.update s res (Solution.uint256Add (s res) (s a) (s b)) := by
  let copied := ((s.push AddLocal).memcpy (.inr .aa) (.inl a)).memcpy (.inr .bb) (.inl b)
  have callers : copied.pop = s := (pop_memcpy_inr _ _ _).trans (pop_memcpy_inr _ _ _)
  have first : copied (.inr .aa) = s a :=
    (memcpy_of_ne _ (by simp) _).trans (memcpy_self _ _ _)
  have second : copied (.inr .bb) = s b :=
    (memcpy_self _ _ _).trans (memcpy_of_ne _ (by simp) _)
  have destination : copied (.inl res) = s res := congrFun callers res
  show (copied.addLoop res 32 0).pop = _
  rw [addLoop_eq, pop_update_inl, callers, first, second, destination]
  rfl

/-- The names that the loop of `uint256_mul` leaves alone, and what it does to `acc`. -/
theorem mulLoop_eq (s : Store (σ ⊕ MulLocal)) (count : Nat) :
    (s.mulLoop count).pop = s.pop ∧
      s.mulLoop count (.inr .acc) = Solution.mulLoop (s (.inr .aa)) (s (.inr .bb)) count
        (s (.inr .temp)) (s (.inr .acc)) := by
  induction count generalizing s with
  | zero => exact ⟨rfl, rfl⟩
  | succ i inductionHypothesis =>
      by_cases isSet : testBit (s (.inr .bb)) i = true
      · have apart : (.inr .temp : σ ⊕ MulLocal) ≠ .inr .aa := nofun
        obtain ⟨callers, product⟩ := inductionHypothesis
          ((s.uint256Sl (.inr .temp) (.inr .aa) (UInt8.ofNat (255 - i))).uint256Add
            (.inr .acc) (.inr .acc) (.inr .temp))
        rw [mulLoop, if_pos isSet, Solution.mulLoop, if_pos isSet]
        refine ⟨callers.trans ?_, product.trans ?_⟩
        · rw [uint256Add_eq, uint256Sl_eq s apart, pop_update_inr, pop_update_inr]
        · rw [uint256Add_eq, uint256Sl_eq s apart]
          simp
      · rw [mulLoop, if_neg isSet, Solution.mulLoop, if_neg isSet]
        exact inductionHypothesis s

theorem uint256Mul_eq (s : Store σ) (res a b : σ) :
    s.uint256Mul res a b = Function.update s res (Solution.uint256Mul (s a) (s b)) := by
  let copied := ((s.push MulLocal).memcpy (.inr .bb) (.inl b)).memcpy (.inr .aa) (.inl a)
  have callers : copied.pop = s := (pop_memcpy_inr _ _ _).trans (pop_memcpy_inr _ _ _)
  have first : copied (.inr .aa) = s a :=
    (memcpy_self _ _ _).trans (memcpy_of_ne _ (by simp) _)
  have second : copied (.inr .bb) = s b :=
    (memcpy_of_ne _ (by simp) _).trans (memcpy_self _ _ _)
  have blankTemp : copied (.inr .temp) = uint256Init :=
    (memcpy_of_ne _ (by simp) _).trans (memcpy_of_ne _ (by simp) _)
  have blankAcc : copied (.inr .acc) = uint256Init :=
    (memcpy_of_ne _ (by simp) _).trans (memcpy_of_ne _ (by simp) _)
  obtain ⟨untouched, product⟩ := mulLoop_eq copied 256
  show ((copied.mulLoop 256).memcpy (.inl res) (.inr .acc)).pop = _
  rw [memcpy, pop_update_inl, untouched, product, callers, first, second, blankTemp,
    blankAcc]
  rfl

theorem expLoopBy_eq {routine : Routine (σ ⊕ ExpLocal)} {mul : Uint256 → Uint256 → Uint256}
    (computes : Computes routine mul) (s : Store (σ ⊕ ExpLocal)) (res : σ) (exp : Nat) :
    (s.expLoopBy routine res exp).pop =
      Function.update s.pop res
        (SquareMultiply.loop mul exp (s (.inr .acc)) (s (.inr .temp))) := by
  fun_induction Store.expLoopBy routine s res exp with
  | case1 s exp more even inductionHypothesis =>
      conv => rhs; rw [SquareMultiply.loop, if_pos more, if_pos even]
      rw [inductionHypothesis, computes]
      simp
  | case2 s exp more odd multiplied squared inductionHypothesis =>
      conv => rhs; rw [SquareMultiply.loop, if_pos more, if_neg odd]
      rw [inductionHypothesis]
      simp [squared, multiplied, computes _]
  | case3 s exp last =>
      rw [computes, pop_update_inl, SquareMultiply.loop, if_neg last]

theorem expLoopBy_uint256Mul (s : Store (σ ⊕ ExpLocal)) (res : σ) (exp : Nat) :
    s.expLoopBy uint256Mul res exp = s.expLoop res exp := by
  fun_induction Store.expLoop s res exp with
  | case1 s exp more even inductionHypothesis =>
      rw [expLoopBy, if_pos more, if_pos even]
      exact inductionHypothesis
  | case2 s exp more odd multiplied squared inductionHypothesis =>
      rw [expLoopBy, if_pos more, if_neg odd]
      exact inductionHypothesis
  | case3 s exp last => rw [expLoopBy, if_neg last]

theorem expLoop_eq (s : Store (σ ⊕ ExpLocal)) (res : σ) (exp : Nat) :
    (s.expLoop res exp).pop =
      Function.update s.pop res (Solution.expLoop exp (s (.inr .acc)) (s (.inr .temp))) := by
  rw [← expLoopBy_uint256Mul, expLoopBy_eq uint256Mul_eq, loop_uint256Mul]

/-- The loop of `uint256_exp` for the exponent 0. -/
theorem zeroLoop_eq (s : Store σ) (res : σ) (count : Nat) :
    (List.range count).foldl (fun s i => s.set res i 0) s =
      Function.update s res
        ((List.range count).foldl (fun value i => Uint256.set value i 0) (s res)) := by
  induction count with
  | zero => exact (Function.update_eq_self res s).symm
  | succ count inductionHypothesis =>
      rw [List.range_succ, List.foldl_append, List.foldl_append, inductionHypothesis]
      show set _ res count 0 = Function.update s res (Uint256.set _ count 0)
      rw [set, Function.update_self, Function.update_idem]

omit [DecidableEq σ] in
theorem byte_zeroLoop (value : Uint256) {count : Nat} (inBuffer : count ≤ 32) (k : Nat) :
    ((List.range count).foldl (fun value i => Uint256.set value i 0) value).byte k =
      if k < count then 0 else value.byte k := by
  induction count with
  | zero => rfl
  | succ count inductionHypothesis =>
      rw [List.range_succ, List.foldl_append]
      show (Uint256.set _ count 0).byte k = _
      rw [Uint256.byte_set _ _ (by omega), inductionHypothesis (by omega)]
      by_cases last : k = count
      · rw [if_pos last, if_pos (by omega)]
      · rw [if_neg last]
        by_cases below : k < count
        · rw [if_pos below, if_pos (by omega)]
        · rw [if_neg below, if_neg (by omega)]

theorem one_eq (s : Store σ) (res : σ) :
    ((List.range 31).foldl (fun s i => s.set res i 0) s).set res 31 1 =
      Function.update s res uint256One := by
  generalize count_eq : 31 = count
  have written : (((List.range count).foldl (fun value i => Uint256.set value i 0)
      (s res)).set count 1) = uint256One := by
    apply Uint256.ext_byte
    intro k inBuffer
    rw [Uint256.byte_set _ _ (by omega), byte_zeroLoop _ (by omega), byte_uint256One]
    by_cases last : k = count
    · rw [if_pos last, if_pos (by omega)]
    · rw [if_neg last, if_pos (by omega), if_neg (by omega)]
  rw [zeroLoop_eq, set, Function.update_self, Function.update_idem, written]

/-- Into another buffer the loop stores what it computes from the base and 1. -/
theorem uint256ExpBy_eq {routine : Routine (σ ⊕ ExpLocal)} {mul : Uint256 → Uint256 → Uint256}
    (computes : Computes routine mul) (s : Store σ) {res base : σ} (apart : res ≠ base)
    (exp : UInt32) :
    s.uint256ExpBy routine res base exp =
      Function.update s res (if exp = 0 then uint256One
        else SquareMultiply.loop mul exp.toNat (s base) uint256One) := by
  unfold uint256ExpBy
  by_cases isZero : exp = 0
  · rw [if_pos isZero, if_pos isZero, one_eq]
  · rw [if_neg isZero, if_neg isZero]
    simp only [ne_eq, apart, not_false_eq_true, if_true]
    let started := ((s.push ExpLocal).memcpy (.inr .acc) (.inl base)).set (.inr .temp) 31 1
    have callers : started.pop = s := (pop_update_inr _ _ _).trans (pop_memcpy_inr _ _ _)
    have power : started (.inr .acc) = s base :=
      (Function.update_of_ne (by simp) _ _).trans (memcpy_self _ _ _)
    have one : started (.inr .temp) = uint256One := by
      refine (Function.update_self _ _ _).trans ?_
      rw [memcpy_of_ne _ (by simp)]
      rfl
    show (started.expLoopBy routine res exp.toNat).pop = _
    rw [expLoopBy_eq computes, callers, power, one]

theorem uint256ExpBy_uint256Mul (s : Store σ) (res base : σ) (exp : UInt32) :
    s.uint256ExpBy uint256Mul res base exp = s.uint256Exp res base exp := by
  simp only [uint256ExpBy, uint256Exp, expLoopBy_uint256Mul]

/-- Into another buffer `uint256_exp` computes the power. -/
theorem uint256Exp_eq (s : Store σ) {res base : σ} (apart : res ≠ base) (exp : UInt32) :
    s.uint256Exp res base exp =
      Function.update s res (Solution.uint256Exp (s base) exp) := by
  rw [← uint256ExpBy_uint256Mul, uint256ExpBy_eq uint256Mul_eq s apart, loop_uint256Mul]
  rfl

end Store

end BitcoinServer.Solution
