import Cyue.Mpak.Release
import Mathlib.Algebra.BigOperators.Group.Finset.Basic

/-!
# How long the parser runs

Each frame of the stack can still cost so many turns: those of its elements
that are left, each with a frame above it that is full of elements itself.
The stack has sixteen levels, so the sum over the frames is a number, and
every turn that goes on lowers it, whatever the bytes are.

The one way not to return is inside a turn, when `sbuf::malloc` is asked for more
than 2^63 bytes.
-/

namespace Cyue.Mpak.Release

open Bytes Memory

variable {ρ : Type}

/-! ## What is left to do -/

/-- The turns of a value with so many levels for its elements and theirs. -/
def valueTurns : ℕ → ℕ
  | 0 => 0
  | levels + 1 => 4 + 2 * sizeMax * (valueTurns levels + 1)

/-- The turns for one element of a container on that level: the turn that asks
for it and those of its value. -/
def elementTurns (level : ℕ) : ℕ := valueTurns (unpackStackDepth - 1 - level) + 1

/-- The turns that a frame can still take, with those of the frames above it. -/
def frameTurns (level : ℕ) (frame : StackMem) : ℕ :=
  let left := frame.requireLen - (frame.nPopObj + 1)
  match frame.status with
  | .initial => 4 + 2 * sizeMax * elementTurns level
  | .processLength => 3 + 2 * max sizeMax frame.requireLen * elementTurns level
  | .processData => 1
  | .processArray => 1 + left * elementTurns level
  | .processMap => 1 + (2 * left + 1) * elementTurns level
  | .processMapVal => 1 + 2 * left * elementTurns level

def turnsBelow (ctx : Context ρ) : ℕ :=
  ∑ level ∈ Finset.range ctx.stackHeight, frameTurns level (ctx.stack level)

def potential (ctx : Context ρ) : ℕ := turnsBelow ctx + frameTurns ctx.stackHeight ctx.top

theorem frameTurns_pos (level : ℕ) (frame : StackMem) : 0 < frameTurns level frame := by
  unfold frameTurns
  dsimp only
  split <;> omega

/-- A frame that has just been pushed is one element of the frame below it. -/
theorem frameTurns_pushed {level : ℕ} (room : level + 1 < unpackStackDepth) (frame : StackMem)
    (initial : frame.status = .initial) :
    frameTurns (level + 1) frame + 1 = elementTurns level := by
  have levels : unpackStackDepth - 1 - level = unpackStackDepth - 1 - (level + 1) + 1 := by
    omega
  unfold frameTurns
  rw [initial]
  dsimp only
  rw [elementTurns, elementTurns, levels, valueTurns]

theorem turnsBelow_setTop (ctx : Context ρ) (frame : StackMem) :
    turnsBelow (ctx.setTop frame) = turnsBelow ctx := by
  refine Finset.sum_congr rfl fun level inside => ?_
  have under : level < ctx.stackHeight := Finset.mem_range.mp inside
  simp only [Context.setTop, Function.update_of_ne (Nat.ne_of_lt under)]

theorem turnsBelow_congr {ctx other : Context ρ} (height : ctx.stackHeight = other.stackHeight)
    (stack : ctx.stack = other.stack) : turnsBelow ctx = turnsBelow other := by
  rw [turnsBelow, turnsBelow, height, stack]

@[simp] theorem turnsBelow_write (ctx : Context ρ) (slot : Slot) (obj : Obj ρ) :
    turnsBelow (ctx.write slot obj) = turnsBelow ctx :=
  turnsBelow_congr (Context.write_stackHeight ctx slot obj) (Context.write_stack ctx slot obj)

/-! ## A turn that goes on -/

def Turn.Below (turn : Turn ρ) (budget : ℕ) : Prop :=
  ∀ next, turn.next = .go next → potential next < budget

theorem Turn.Below.after {turn : Turn ρ} {budget : ℕ} (below : turn.Below budget)
    (reads : List (ℕ × ℕ)) (asserts : Bool) : (turn.after reads asserts).Below budget := below

theorem waitNextBuffer_below (ctx : Context ρ) (ofs budget : ℕ) :
    (waitNextBuffer ctx ofs).Below budget := fun _ same => nomatch same

theorem error_below (ctx : Context ρ) (ofs budget : ℕ) : (error ctx ofs).Below budget :=
  fun _ same => nomatch same

theorem keepStack_below {ctx : Context ρ} {budget : ℕ} (ofs : ℕ)
    (enough : potential ctx < budget) : (keepStack ctx ofs).Below budget := by
  intro next same
  cases same
  exact enough

theorem popStack_below {ctx : Context ρ} {budget : ℕ} (input : Input ρ) (ofs : ℕ)
    (enough : turnsBelow ctx < budget) : (popStack input ctx ofs).Below budget := by
  intro next same
  unfold popStack at same
  cases height : ctx.stackHeight with
  | zero => simp [height] at same
  | succ level =>
      simp only [height, Nat.add_one_ne_zero, if_false, Nat.add_sub_cancel] at same
      cases same
      rw [turnsBelow, height, Finset.sum_range_succ] at enough
      exact enough

theorem pushStack_below {ctx : Context ρ} {budget : ℕ} (obj : Slot × Bool) (ofs : ℕ)
    (enough : potential ctx + elementTurns ctx.stackHeight ≤ budget) :
    (pushStack ctx obj ofs).Below budget := by
  intro next same
  unfold pushStack at same
  dsimp only at same
  split at same
  · cases same
  · next room =>
      cases same
      have under : turnsBelow ({ ctx with stackHeight := ctx.stackHeight + 1 } : Context ρ) =
          potential ctx := Finset.sum_range_succ _ _
      rw [potential, turnsBelow_setTop, under, Context.setTop_top, Context.setTop_stackHeight]
      refine Nat.lt_of_lt_of_le (Nat.add_lt_add_left ?_ _) enough
      exact Nat.lt_of_succ_le (Nat.le_of_eq (frameTurns_pushed (Nat.lt_of_not_le room) _ rfl))

/-- A container that has been started costs its elements. -/
theorem started_below {ctx next : Context ρ} {budget : ℕ} (height : next.stackHeight =
    ctx.stackHeight) (stack : next.stack = ctx.stack) {frame : StackMem} (obj : Slot × Bool)
    (ofs : ℕ) (enough : turnsBelow ctx + frameTurns ctx.stackHeight frame +
      elementTurns ctx.stackHeight ≤ budget) :
    (pushStack (next.setTop frame) obj ofs).Below budget := by
  apply pushStack_below
  rw [potential, turnsBelow_setTop, turnsBelow_congr height stack, Context.setTop_top,
    Context.setTop_stackHeight, height]
  exact enough

/-- The elements of a container that has just been started. -/
theorem frameTurns_started (level : ℕ) {left : ℕ} (sp : StackMem) (shape : Shape)
    (len : sp.requireLen = left + 1) :
    frameTurns level (started sp shape) + elementTurns level ≤
      1 + 2 * sp.requireLen * elementTurns level := by
  cases shape with
  | array =>
      simp only [started, frameTurns, len, Nat.zero_add, Nat.add_sub_cancel]
      rw [Nat.mul_assoc, Nat.add_mul]
      omega
  | map =>
      simp only [started, frameTurns, len, Nat.zero_add, Nat.add_sub_cancel, Nat.add_mul]
      rw [Nat.mul_add, Nat.add_mul]
      omega

theorem lengthCheck_below {env : Env ρ} {input : Input ρ} {ctx : Context ρ} {budget : ℕ}
    (ofs : ℕ) (enough : turnsBelow ctx + 1 +
      2 * ctx.top.requireLen * elementTurns ctx.stackHeight < budget) :
    (lengthCheck env input ctx ofs).Below budget := by
  by_cases container : ∃ shape : Shape, ctx.top.requireType = shape.kind
  · obtain ⟨shape, kind⟩ := container
    rw [lengthCheck_container env input ofs kind]
    split
    · exact fun _ same => nomatch same
    · exact error_below _ _ _
    · next made =>
        obtain ⟨height, stack⟩ := init_stack made
        split
        · apply popStack_below
          rw [turnsBelow_congr height stack]
          omega
        · next some_left =>
            apply started_below height stack
            obtain ⟨left, len⟩ := Nat.exists_eq_add_one_of_ne_zero some_left
            have cost := frameTurns_started ctx.stackHeight ctx.top shape len
            omega
  · rw [lengthCheck_other env input ofs fun shape kind => container ⟨shape, kind⟩]
    apply keepStack_below
    rw [potential, turnsBelow_setTop, Context.setTop_top, Context.setTop_stackHeight]
    simp only [frameTurns]
    omega

theorem turnInitial_below (env : Env ρ) (input : Input ρ) {ctx : Context ρ} {budget : ℕ}
    (ofs : ℕ) (b : UInt8)
    (enough : turnsBelow ctx + 3 + 2 * sizeMax * elementTurns ctx.stackHeight < budget) :
    (turnInitial env input ctx ofs b).Below budget := by
  have size : 256 ≤ sizeMax := by decide
  refine turnInitial_cases (motive := fun turn => turn.Below budget) b ?stores ?tags ?counts ?fails
  case stores =>
    intro obj _
    apply popStack_below
    rw [turnsBelow_write]
    omega
  case tags =>
    intro frame _ status
    apply keepStack_below
    rw [potential, turnsBelow_setTop, Context.setTop_top, Context.setTop_stackHeight]
    rcases status with ⟨length, short⟩ | ⟨data, _⟩
    · have within : frame.requireLen ≤ sizeMax := by omega
      simp only [frameTurns, length, max_eq_left within]
      omega
    · simp only [frameTurns, data]
      omega
  case counts =>
    intro requireLen short requireType
    apply lengthCheck_below
    rw [turnsBelow_setTop, Context.setTop_top, Context.setTop_stackHeight]
    have within : requireLen ≤ sizeMax := by omega
    have scaled := Nat.mul_le_mul_right (elementTurns ctx.stackHeight)
      (Nat.mul_le_mul_left 2 within)
    dsimp only
    omega
  case fails => exact error_below _ _ _

theorem lengthRead_le (input : Input ρ) (ofs tmp : ℕ) :
    lengthRead input ofs tmp ≤ max sizeMax tmp := by
  unfold lengthRead
  split
  · next known =>
      have bound := beNat_lt (load input.mem ofs tmp)
      rw [load_length] at bound
      have width : tmp ≤ 8 := by
        simp only [castable, decide_eq_true_eq] at known
        omega
      have wide : 256 ^ tmp ≤ sizeMax := Nat.pow_le_pow_right (by decide) width
      exact Nat.le_trans (Nat.le_of_lt (Nat.lt_of_lt_of_le bound wide)) (Nat.le_max_left _ _)
  · exact Nat.le_max_right _ _

theorem turnLength_below (env : Env ρ) (input : Input ρ) {ctx : Context ρ} (ofs : ℕ)
    (status : ctx.top.status = .processLength) :
    (turnLength env input ctx ofs).Below (potential ctx) := by
  unfold turnLength
  dsimp only
  split
  · exact waitNextBuffer_below _ _ _
  · apply Turn.Below.after
    apply lengthCheck_below
    rw [turnsBelow_setTop, Context.setTop_top, Context.setTop_stackHeight, potential]
    have scaled := Nat.mul_le_mul_right (elementTurns ctx.stackHeight)
      (Nat.mul_le_mul_left 2 (lengthRead_le input ofs ctx.top.requireLen))
    simp only [frameTurns, status]
    omega

theorem turnData_below (input : Input ρ) (ctx : Context ρ) (ofs : ℕ) :
    (turnData input ctx ofs).Below (potential ctx) := by
  refine turnData_cases (motive := fun turn => turn.Below (potential ctx)) ?_ ?_ ?_
  · exact waitNextBuffer_below _ _ _
  · intro obj reads asserts
    apply Turn.Below.after
    apply popStack_below
    rw [turnsBelow_write, potential]
    exact Nat.lt_add_of_pos_right (frameTurns_pos _ _)
  · exact error_below _ _ _

/-- What is left of a container before and behind one of its elements. -/
theorem one_less {len pops : ℕ} (more : pops + 1 < len) :
    ∃ left, len - (pops + 1) = left + 1 ∧ len - (pops + 1 + 1) = left := by
  obtain ⟨left, rfl⟩ := Nat.exists_eq_add_of_lt more
  exact ⟨left, by omega, by omega⟩

theorem turnArray_below (env : Env ρ) (input : Input ρ) {ctx : Context ρ} (ofs : ℕ)
    (status : ctx.top.status = .processArray) :
    (turnArray env input ctx ofs).Below (potential ctx) := by
  unfold turnArray
  dsimp only
  split
  · next more =>
      apply started_below rfl rfl
      obtain ⟨left, now, then_⟩ := one_less more
      simp only [potential, frameTurns, status, now, then_, Nat.add_mul]
      omega
  · apply popStack_below
    rw [turnsBelow_setTop, potential]
    exact Nat.lt_add_of_pos_right (frameTurns_pos _ _)

theorem turnMap_below (env : Env ρ) {ctx : Context ρ} (ofs : ℕ)
    (status : ctx.top.status = .processMap) :
    (turnMap env ctx ofs).Below (potential ctx) := by
  apply started_below rfl rfl
  simp only [potential, frameTurns, status, Nat.add_mul]
  omega

theorem turnMapVal_below (env : Env ρ) (input : Input ρ) {ctx : Context ρ} (ofs : ℕ)
    (status : ctx.top.status = .processMapVal) :
    (turnMapVal env input ctx ofs).Below (potential ctx) := by
  unfold turnMapVal
  dsimp only
  split
  · next more =>
      apply started_below rfl rfl
      obtain ⟨left, now, then_⟩ := one_less more
      simp only [potential, frameTurns, status, now, then_, Nat.add_mul, Nat.mul_add]
      omega
  · apply popStack_below
    rw [turnsBelow_setTop, potential]
    exact Nat.lt_add_of_pos_right (frameTurns_pos _ _)

/-- Every turn that goes on leaves less to do. -/
theorem turn_below (env : Env ρ) (input : Input ρ) (ctx : Context ρ) (ofs : ℕ) :
    (turn env input ctx ofs).Below (potential ctx) := by
  unfold turn
  split
  · next status =>
      split
      · apply Turn.Below.after
        apply turnInitial_below
        simp only [potential, frameTurns, status]
        omega
      · exact waitNextBuffer_below _ _ _
  · next status => exact turnLength_below env input ofs status
  · exact turnData_below input ctx ofs
  · next status => exact turnArray_below env input ofs status
  · next status => exact turnMap_below env ofs status
  · next status => exact turnMapVal_below env input ofs status

/-! ## A turn that does not end -/

/-- The turn is about to ask `sbuf::malloc` for more than it can cover. -/
def Oversized (input : Input ρ) (ctx : Context ρ) (ofs : ℕ) : Prop :=
  ctx.top.status = .processLength ∧ lacking input ctx.top.requireLen ofs = false ∧
    ∃ shape : Shape, ctx.top.requireType = shape.kind ∧
      2 ^ 63 < request shape (lengthRead input ofs ctx.top.requireLen)

theorem request_le (shape : Shape) (sz : ℕ) : request shape sz ≤ 48 * sz := by
  have small : entrySize shape ≤ 48 := by cases shape <;> decide
  calc request shape sz ≤ sz * entrySize shape := Nat.mod_le _ _
    _ ≤ sz * 48 := Nat.mul_le_mul_left sz small
    _ = 48 * sz := Nat.mul_comm sz 48

/-- No field of the format is as long as that: it takes the number of entries
of a container that was refused, read as the width of a length field. -/
theorem Oversized.width {input : Input ρ} {ctx : Context ρ} {ofs : ℕ}
    (oversized : Oversized input ctx ofs) :
    ctx.top.requireLen = 8 ∨ 2 ^ 32 ≤ ctx.top.requireLen := by
  obtain ⟨-, -, shape, -, large⟩ := oversized
  have bound := request_le shape (lengthRead input ofs ctx.top.requireLen)
  unfold lengthRead at bound large
  split at large
  · next known =>
      rw [if_pos known] at bound
      have number := beNat_lt (load input.mem ofs ctx.top.requireLen)
      rw [load_length] at number
      simp only [castable, decide_eq_true_eq] at known
      unfold castTo at bound large
      rcases known with width | width | width | width
      · rw [width] at bound large number
        omega
      · rw [width] at bound large number
        omega
      · rw [width] at bound large number
        omega
      · exact .inl width
  · next unknown =>
      rw [if_neg unknown] at bound
      exact .inr (by omega)

theorem init_hangs {shape : Shape} {malloc : Malloc} {ctx : Context ρ} {d : Slot} {sz : ℕ} :
    init shape malloc ctx d sz = .hangs ↔ 2 ^ 63 < request shape sz := by
  unfold init
  constructor
  · intro hangs
    split_ifs at hangs with _ large
    exact large
  · intro large
    have some_entry : sz ≠ 0 := by
      rintro rfl
      simp [request] at large
    rw [if_neg some_entry, if_pos large]

@[simp] theorem popStack_hangs (input : Input ρ) (ctx : Context ρ) (ofs : ℕ) :
    (popStack input ctx ofs).next ≠ .hangs := by
  unfold popStack
  split <;> exact fun same => nomatch same

@[simp] theorem pushStack_hangs (ctx : Context ρ) (obj : Slot × Bool) (ofs : ℕ) :
    (pushStack ctx obj ofs).next ≠ .hangs := by
  unfold pushStack
  dsimp only
  split <;> exact fun same => nomatch same

@[simp] theorem error_hangs (ctx : Context ρ) (ofs : ℕ) : (error ctx ofs).next ≠ .hangs :=
  fun same => nomatch same

@[simp] theorem keepStack_hangs (ctx : Context ρ) (ofs : ℕ) :
    (keepStack ctx ofs).next ≠ .hangs := fun same => nomatch same

@[simp] theorem waitNextBuffer_hangs (ctx : Context ρ) (ofs : ℕ) :
    (waitNextBuffer ctx ofs).next ≠ .hangs := fun same => nomatch same

@[simp] theorem after_next (turn : Turn ρ) (reads : List (ℕ × ℕ)) (asserts : Bool) :
    (turn.after reads asserts).next = turn.next := rfl

theorem lengthCheck_hangs {env : Env ρ} {input : Input ρ} {ctx : Context ρ} {ofs : ℕ} :
    (lengthCheck env input ctx ofs).next = .hangs ↔
      ∃ shape : Shape, ctx.top.requireType = shape.kind ∧
        2 ^ 63 < request shape ctx.top.requireLen := by
  by_cases container : ∃ shape : Shape, ctx.top.requireType = shape.kind
  · obtain ⟨shape, kind⟩ := container
    have only : (∃ shape : Shape, ctx.top.requireType = shape.kind ∧
        2 ^ 63 < request shape ctx.top.requireLen) ↔
        2 ^ 63 < request shape ctx.top.requireLen := by
      constructor
      · rintro ⟨other, same, large⟩
        have equal : other = shape := by
          cases other <;> cases shape <;> first | rfl | exact nomatch same.symm.trans kind
        exact equal ▸ large
      · exact fun large => ⟨shape, kind, large⟩
    rw [lengthCheck_container env input ofs kind, only,
      ← @init_hangs ρ shape env.malloc ctx ctx.top.d]
    cases init shape env.malloc ctx ctx.top.d ctx.top.requireLen with
    | hangs => exact iff_of_true rfl rfl
    | refused => exact iff_of_false (error_hangs _ _) (fun same => nomatch same)
    | made next =>
        refine iff_of_false ?_ (fun same => nomatch same)
        dsimp only
        split
        · exact popStack_hangs _ _ _
        · exact pushStack_hangs _ _ _
  · rw [lengthCheck_other env input ofs fun shape kind => container ⟨shape, kind⟩]
    exact iff_of_false (keepStack_hangs _ _) fun ⟨shape, kind, _⟩ => container ⟨shape, kind⟩

theorem turnInitial_hangs (env : Env ρ) (input : Input ρ) (ctx : Context ρ) (ofs : ℕ)
    (b : UInt8) : (turnInitial env input ctx ofs b).next ≠ .hangs := by
  refine turnInitial_cases (motive := fun turn => turn.next ≠ .hangs) b ?_ ?_ ?_ ?_
  · exact fun obj _ => popStack_hangs _ _ _
  · exact fun frame _ _ => keepStack_hangs _ _
  · intro requireLen short requireType hangs
    obtain ⟨shape, -, large⟩ := lengthCheck_hangs.mp hangs
    rw [Context.setTop_top] at large
    have bound := request_le shape requireLen
    dsimp only at large
    omega
  · exact error_hangs _ _

theorem turnData_hangs (input : Input ρ) (ctx : Context ρ) (ofs : ℕ) :
    (turnData input ctx ofs).next ≠ .hangs := by
  refine turnData_cases (motive := fun turn => turn.next ≠ .hangs) ?_ ?_ ?_
  · exact waitNextBuffer_hangs _ _
  · exact fun obj _ _ => popStack_hangs _ _ _
  · exact error_hangs _ _

/-- A turn ends unless it asks for too much. -/
theorem turn_hangs (env : Env ρ) (input : Input ρ) (ctx : Context ρ) (ofs : ℕ) :
    (turn env input ctx ofs).next = .hangs ↔ Oversized input ctx ofs := by
  unfold turn Oversized
  cases status : ctx.top.status with
  | initial =>
      refine iff_of_false ?_ (fun oversized => nomatch oversized.1)
      dsimp only
      split
      · exact turnInitial_hangs env input ctx _ _
      · exact waitNextBuffer_hangs _ _
  | processLength =>
      simp only [turnLength]
      split
      · next short => simp [short]
      · next there => simp [there, lengthCheck_hangs]
  | processData =>
      exact iff_of_false (turnData_hangs input ctx ofs) fun oversized => nomatch oversized.1
  | processArray =>
      refine iff_of_false ?_ (fun oversized => nomatch oversized.1)
      dsimp only [turnArray]
      split
      · exact pushStack_hangs _ _ _
      · exact popStack_hangs _ _ _
  | processMap =>
      exact iff_of_false (pushStack_hangs _ _ _) fun oversized => nomatch oversized.1
  | processMapVal =>
      refine iff_of_false ?_ (fun oversized => nomatch oversized.1)
      dsimp only [turnMapVal]
      split
      · exact pushStack_hangs _ _ _
      · exact popStack_hangs _ _ _

/-! ## The loop -/

section

variable {envs : ℕ → Env ρ} {input : Input ρ} {ctx : Context ρ} {ofs : ℕ}

/-- As long as the loop runs, what is left and what has been done add up to what
there was. -/
theorem loop_running {n ofs' : ℕ} {next : Context ρ}
    (running : loop envs input ctx ofs n = .running next ofs') :
    potential next + n ≤ potential ctx := by
  induction n generalizing next ofs' with
  | zero =>
      cases running
      exact Nat.le_refl _
  | succ n ih =>
      rw [loop] at running
      cases before : loop envs input ctx ofs n with
      | returned ret next ofs' => rw [before] at running; cases running
      | hung => rw [before] at running; cases running
      | running prior ofs'' =>
          have budget := ih before
          have falls := turn_below (envs n) input prior ofs''
          rw [before, Loop.step] at running
          cases ends : (turn (envs n) input prior ofs'').next with
          | go after =>
              rw [ends] at running
              cases running
              have less := falls _ ends
              omega
          | ret ret after => rw [ends] at running; cases running
          | tooNested after => rw [ends] at running; cases running
          | hangs => rw [ends] at running; cases running

/-- What the loop has ended with it keeps. -/
theorem loop_ended {n m : ℕ} (le : n ≤ m) {ended : Loop ρ}
    (reached : loop envs input ctx ofs n = ended)
    (final : ∀ next ofs', ended ≠ .running next ofs') : loop envs input ctx ofs m = ended := by
  induction m, le using Nat.le_induction with
  | base => exact reached
  | succ m _ ih =>
      rw [loop, ih]
      cases ended with
      | running next ofs' => exact absurd rfl (final next ofs')
      | returned ret next ofs' => rfl
      | hung => rfl

/-- The loop hangs in a turn that asks for too much. -/
theorem loop_hung {n : ℕ} (hung : loop envs input ctx ofs n = .hung) :
    ∃ m next ofs', loop envs input ctx ofs m = .running next ofs' ∧ Oversized input next ofs' := by
  induction n with
  | zero => cases hung
  | succ n ih =>
      cases before : loop envs input ctx ofs n with
      | hung => exact ih before
      | returned ret next ofs' =>
          rw [loop, before] at hung
          cases hung
      | running next ofs' =>
          refine ⟨n, next, ofs', before, (turn_hangs (envs n) input next ofs').mp ?_⟩
          rw [loop, before, Loop.step] at hung
          cases ends : (turn (envs n) input next ofs').next with
          | hangs => rfl
          | go after => rw [ends] at hung; cases hung
          | ret ret after => rw [ends] at hung; cases hung
          | tooNested after => rw [ends] at hung; cases hung

theorem loop_oversized {n ofs' : ℕ} {next : Context ρ}
    (running : loop envs input ctx ofs n = .running next ofs')
    (oversized : Oversized input next ofs') : loop envs input ctx ofs (n + 1) = .hung := by
  rw [loop, running, Loop.step, (turn_hangs (envs n) input next ofs').mpr oversized]

/-- The loop has ended after so many turns as the stack can still take. -/
theorem loop_ends : (∃ ret next ofs', loop envs input ctx ofs (potential ctx) =
      .returned ret next ofs') ∨ loop envs input ctx ofs (potential ctx) = .hung := by
  cases reached : loop envs input ctx ofs (potential ctx) with
  | returned ret next ofs' => exact .inl ⟨ret, next, ofs', rfl⟩
  | hung => exact .inr rfl
  | running next ofs' =>
      have spent := loop_running reached
      have left : 0 < potential next := Nat.add_pos_right _ (frameTurns_pos _ _)
      omega

end

/-- The loop returns, after no more turns than its stack can take, exactly if
none of its turns asks `sbuf::malloc` for more than 2^63 bytes. -/
theorem unpack_returns (envs : ℕ → Env ρ) (input : Input ρ) (ctx : Context ρ) (ofs : ℕ) :
    (∃ n ≤ potential ctx, ∃ ret next ofs',
      loop envs input ctx ofs n = .returned ret next ofs') ↔
    ∀ n next ofs', loop envs input ctx ofs n = .running next ofs' →
      ¬ Oversized input next ofs' := by
  constructor
  · rintro ⟨n, -, ret, last, end_, returned⟩ m next ofs' running oversized
    have final : ∀ next ofs', Loop.returned ret last end_ ≠ .running next ofs' :=
      fun _ _ same => nomatch same
    rcases Nat.lt_or_ge m n with before | behind
    · have hung := loop_ended (Nat.succ_le_of_lt before) (loop_oversized running oversized)
        fun _ _ same => nomatch same
      exact nomatch hung.symm.trans returned
    · exact final next ofs' ((loop_ended behind returned final).symm.trans running)
  · intro modest
    rcases @loop_ends ρ envs input ctx ofs with returned | hung
    · exact ⟨potential ctx, Nat.le_refl _, returned⟩
    · obtain ⟨n, next, ofs', running, oversized⟩ := loop_hung hung
      exact absurd oversized (modest n next ofs' running)

def bytesInput (bytes : List UInt8) : Input (ℕ × ℕ) := ⟨fun i => bytes.getD i 0, bytes.length, Prod.mk⟩

def exhausted : Env ρ := ⟨fun _ => false, fun _ _ => .work⟩

def refusedMap : Context (ℕ × ℕ) :=
  (Context.fresh.setTop ⟨.processLength, .work, 2, 0, .map⟩).setTop
    ⟨.processLength, .work, 8, 0, .map⟩

/-- The next call takes the size of the refused map for the width of a length
field, reads eight bytes there and never returns. -/
theorem refused_map_hangs :
    loop (fun _ => exhausted) (bytesInput [0xde, 0x00, 0x08]) .fresh 0 2 =
      .returned .unpackParseError refusedMap 3 ∧
    ∀ n ret next ofs', loop (fun _ => exhausted)
      (bytesInput [0xde, 0x00, 0x08, 0xff, 0xff, 0xff, 0xff, 0xff, 0xff, 0xff, 0xff])
        refusedMap 3 n ≠ .returned ret next ofs' := by
  constructor
  · have tag : turn exhausted (bytesInput [0xde, 0x00, 0x08]) .fresh 0 =
        ⟨.go (Context.fresh.setTop ⟨.processLength, .work, 2, 0, .map⟩), 1, [(0, 1)], true⟩ := rfl
    have length : turn exhausted (bytesInput [0xde, 0x00, 0x08])
        (Context.fresh.setTop ⟨.processLength, .work, 2, 0, .map⟩) 1 =
          ⟨.ret .unpackParseError refusedMap, 3, [(1, 2)], true⟩ := by
      simp [turn, turnLength, lacking, bytesInput, Turn.after, castable, parsedOfsHolds,
        addParsedOfs, intOfSize, sizeMax, lengthRead, castTo, load, beNat, lengthCheck, initMap,
        init, request, entrySize, exhausted, sizeofObject, error, refusedMap]
    simp only [loop, Loop.step, tag, length]
  · intro n ret next ofs' returned
    have oversized : Oversized
        (bytesInput [0xde, 0x00, 0x08, 0xff, 0xff, 0xff, 0xff, 0xff, 0xff, 0xff, 0xff])
        refusedMap 3 := ⟨rfl, rfl, .map, rfl, by decide⟩
    have hung : loop (fun _ => exhausted) _ refusedMap 3 1 = .hung := loop_oversized rfl oversized
    cases n with
    | zero => cases returned
    | succ n =>
        have stays := loop_ended (Nat.le_add_left 1 n) hung fun _ _ same => by cases same
        cases stays.symm.trans returned

end Cyue.Mpak.Release
