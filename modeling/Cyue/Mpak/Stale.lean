import Cyue.Mpak.Unpack
import Mathlib.Tactic.SplitIfs

/-!
# What the parser has left behind does not matter

The parser never clears its stack: frames above the top keep what an earlier
message put there, and a frame that is used again is overwritten field by
field.  Contexts that differ only in such leftovers parse alike.
-/

namespace Cyue.Mpak

open Context

variable {ρ : Type}

/-- Whether a frame in this state counts the elements of a container. -/
def ParseState.counts : ParseState → Bool
  | .processArray | .processMap | .processMapVal => true
  | _ => false

/-- Frames that agree in what is still read of them: the length and the kind are
set when the frame leaves its initial state, the counter with its container. -/
structure StackMem.Alike (frame other : StackMem) : Prop where
  status : frame.status = other.status
  d : frame.d = other.d
  require : frame.status ≠ .initial →
    frame.requireLen = other.requireLen ∧ frame.requireType = other.requireType
  nPopObj : frame.status.counts = true → frame.nPopObj = other.nPopObj

theorem StackMem.Alike.refl (frame : StackMem) : frame.Alike frame :=
  ⟨rfl, rfl, fun _ => ⟨rfl, rfl⟩, fun _ => rfl⟩

/-- The counter of a frame that does not count does not matter. -/
theorem StackMem.Alike.uncounted {status : ParseState} (uncounted : status.counts = false)
    (d : Slot) (requireLen nPopObj nPopObj' : Nat) (requireType : Kind) :
    StackMem.Alike ⟨status, d, requireLen, nPopObj, requireType⟩
      ⟨status, d, requireLen, nPopObj', requireType⟩ where
  status := rfl
  d := rfl
  require _ := ⟨rfl, rfl⟩
  nPopObj counts := by
    rw [uncounted] at counts
    cases counts

/-- A container's frame is read as a whole. -/
theorem StackMem.Alike.eq {frame other : StackMem} (alike : frame.Alike other)
    (counts : frame.status.counts = true) : frame = other := by
  have started : frame.status ≠ .initial := by
    intro initial
    rw [initial] at counts
    cases counts
  obtain ⟨requireLen, requireType⟩ := alike.require started
  have status := alike.status
  have d := alike.d
  have nPopObj := alike.nPopObj counts
  cases frame
  cases other
  simp_all

/-- Contexts that agree in all but what earlier messages have left. -/
structure Context.Alike (ctx other : Context ρ) : Prop where
  height : ctx.stackHeight = other.stackHeight
  atWork : ctx.atWork = other.atWork
  cells : ctx.cells = other.cells
  below : ∀ i, i < ctx.stackHeight → ctx.stack i = other.stack i
  top : ctx.top.Alike other.top

/-- Turns that end in the same way, with contexts that are alike where the
parser goes on with them. -/
inductive Step.Alike : Step ρ → Step ρ → Prop where
  | go {ctx other : Context ρ} (alike : ctx.Alike other) (used : Nat) :
      Alike (.go ctx used) (.go other used)
  | wait {ctx other : Context ρ} (alike : ctx.Alike other) : Alike (.wait ctx) (.wait other)
  | done {ctx other : Context ρ} (alike : ctx.Alike other) (used : Nat) :
      Alike (.done ctx used) (.done other used)
  | error (ctx other : Context ρ) (used : Nat) : Alike (.error ctx used) (.error other used)
  | assertion (ctx other : Context ρ) (used : Nat) :
      Alike (.assertion ctx used) (.assertion other used)

namespace Context.Alike

variable {ctx other : Context ρ}

theorem read (alike : ctx.Alike other) (slot : Slot) : ctx.read slot = other.read slot := by
  cases slot with
  | work => exact alike.atWork
  | cell index => simp only [Context.read, alike.cells]

theorem setTop (alike : ctx.Alike other) {frame frame' : StackMem} (frames : frame.Alike frame') :
    (ctx.setTop frame).Alike (other.setTop frame') where
  height := alike.height
  atWork := alike.atWork
  cells := alike.cells
  below i inside := by
    have under : i < ctx.stackHeight := inside
    have under' : i < other.stackHeight := alike.height ▸ under
    simp only [Context.setTop, Function.update_of_ne (Nat.ne_of_lt under),
      Function.update_of_ne (Nat.ne_of_lt under')]
    exact alike.below i under
  top := by
    rw [setTop_top, setTop_top]
    exact frames

theorem write (alike : ctx.Alike other) (slot : Slot) (obj : Obj ρ) :
    (ctx.write slot obj).Alike (other.write slot obj) := by
  cases slot with
  | work => exact { alike with atWork := rfl }
  | cell index =>
      refine { alike with cells := ?_ }
      simp only [Context.write, alike.cells]

theorem withCells (alike : ctx.Alike other) (cells : List (Obj ρ)) :
    ({ ctx with cells } : Context ρ).Alike { other with cells } :=
  { alike with cells := rfl }

theorem initArray (alike : ctx.Alike other) (malloc : Malloc) (d : Slot) (sz : Nat) :
    Option.Rel Context.Alike (ctx.initArray malloc d sz) (other.initArray malloc d sz) := by
  unfold Context.initArray
  split_ifs
  · exact .some (alike.write d _)
  · rw [alike.cells]
    exact .some ((alike.withCells _).write d _)
  · exact .none

theorem initMap (alike : ctx.Alike other) (malloc : Malloc) (d : Slot) (sz : Nat) :
    Option.Rel Context.Alike (ctx.initMap malloc d sz) (other.initMap malloc d sz) := by
  unfold Context.initMap
  split_ifs
  · exact .some (alike.write d _)
  · rw [alike.cells]
    exact .some ((alike.withCells _).write d _)
  · exact .none

theorem elemNew (alike : ctx.Alike other) (d : Slot) (idx : Nat) :
    ctx.elemNew d idx = other.elemNew d idx := by
  unfold Context.elemNew
  rw [alike.read]

theorem keyNew (alike : ctx.Alike other) (d : Slot) (idx : Nat) :
    ctx.keyNew d idx = other.keyNew d idx := by
  unfold Context.keyNew
  rw [alike.read]

theorem valNew (alike : ctx.Alike other) (d : Slot) (idx : Nat) :
    ctx.valNew d idx = other.valNew d idx := by
  unfold Context.valNew
  rw [alike.read]

/-- A frame put on one that has been written as a whole. -/
theorem raise (alike : ctx.Alike other) (same : ctx.top = other.top) {frame frame' : StackMem}
    (frames : frame.Alike frame') :
    (({ ctx with stackHeight := ctx.stackHeight + 1 } : Context ρ).setTop frame).Alike
      (({ other with stackHeight := other.stackHeight + 1 } : Context ρ).setTop frame') where
  height := congrArg (· + 1) alike.height
  atWork := alike.atWork
  cells := alike.cells
  below i inside := by
    have under : i < ctx.stackHeight + 1 := inside
    have under' : i < other.stackHeight + 1 := alike.height ▸ under
    simp only [Context.setTop, Function.update_of_ne (Nat.ne_of_lt under),
      Function.update_of_ne (Nat.ne_of_lt under')]
    rcases Nat.lt_succ_iff_lt_or_eq.mp under with lower | last
    · exact alike.below i lower
    · rw [last]
      rw [Context.top, Context.top, ← alike.height] at same
      exact same
  top := by
    rw [setTop_top, setTop_top]
    exact frames

theorem pushStack (alike : ctx.Alike other) (same : ctx.top = other.top) (obj : Option Slot)
    (used : Nat) : (ctx.pushStack obj used).Alike (other.pushStack obj used) := by
  unfold Context.pushStack
  cases obj with
  | none => exact .assertion _ _ _
  | some slot =>
      dsimp only
      by_cases deep : unpackStackDepth ≤ ctx.stackHeight + 1
      · rw [if_pos deep, if_pos (alike.height ▸ deep)]
        exact .error _ _ _
      · rw [if_neg deep, if_neg (alike.height ▸ deep)]
        refine .go (alike.raise same ?_) _
        exact ⟨rfl, rfl, fun started => absurd rfl started, fun counts => nomatch counts⟩

theorem popStack (alike : ctx.Alike other) (used : Nat) :
    (ctx.popStack used).Alike (other.popStack used) := by
  unfold Context.popStack
  rw [← alike.height]
  split
  · exact .done alike _
  · next positive =>
      have under : ctx.stackHeight - 1 < ctx.stackHeight := Nat.pred_lt positive
      have lower : ({ ctx with stackHeight := ctx.stackHeight - 1 } : Context ρ).Alike
          { other with stackHeight := ctx.stackHeight - 1 } := by
        refine ⟨rfl, alike.atWork, alike.cells, ?_, ?_⟩
        · intro i inside
          exact alike.below i (Nat.lt_trans inside under)
        · unfold Context.top
          rw [alike.below _ under]
          exact .refl _
      dsimp only
      rw [lower.top.status]
      split
      · exact .assertion _ _ _
      · exact .go lower _

end Context.Alike

/-! ## The turns -/

section

variable {ctx other : Context ρ}

/-- A container's frame, entered or gone on with, is the same on both sides. -/
theorem Context.Alike.enter (alike : ctx.Alike other) {frame : StackMem} {obj obj' : Option Slot}
    (same : obj = obj') (used : Nat) :
    ((ctx.setTop frame).pushStack obj used).Alike ((other.setTop frame).pushStack obj' used) := by
  rw [same]
  apply (alike.setTop (.refl frame)).pushStack
  rw [setTop_top, setTop_top]

theorem lengthCheck_alike (malloc : Malloc) (alike : ctx.Alike other)
    (requireLen : ctx.top.requireLen = other.top.requireLen)
    (requireType : ctx.top.requireType = other.top.requireType) (used : Nat) :
    (lengthCheck malloc ctx used).Alike (lengthCheck malloc other used) := by
  have d := alike.top.d
  unfold lengthCheck
  dsimp only
  rw [← requireType, ← requireLen, ← d]
  split
  · have made := alike.initArray malloc ctx.top.d ctx.top.requireLen
    generalize ctx.initArray malloc ctx.top.d ctx.top.requireLen = next at made ⊢
    generalize other.initArray malloc ctx.top.d ctx.top.requireLen = next' at made ⊢
    cases made with
    | none => exact .error _ _ _
    | some alike =>
        dsimp only
        split
        · exact alike.popStack used
        · apply alike.enter
          exact (alike.setTop (.refl _)).elemNew _ _
  · have made := alike.initMap malloc ctx.top.d ctx.top.requireLen
    generalize ctx.initMap malloc ctx.top.d ctx.top.requireLen = next at made ⊢
    generalize other.initMap malloc ctx.top.d ctx.top.requireLen = next' at made ⊢
    cases made with
    | none => exact .error _ _ _
    | some alike =>
        dsimp only
        split
        · exact alike.popStack used
        · apply alike.enter
          exact (alike.setTop (.refl _)).keyNew _ _
  · exact .go (alike.setTop (.uncounted rfl _ _ _ _ _)) _

theorem lengthCheck_setTop (malloc : Malloc) (alike : ctx.Alike other) {frame frame' : StackMem}
    (frames : frame.Alike frame') (requireLen : frame.requireLen = frame'.requireLen)
    (requireType : frame.requireType = frame'.requireType) (used : Nat) :
    (lengthCheck malloc (ctx.setTop frame) used).Alike
      (lengthCheck malloc (other.setTop frame') used) := by
  apply lengthCheck_alike malloc (alike.setTop frames)
  · rw [setTop_top, setTop_top, requireLen]
  · rw [setTop_top, setTop_top, requireType]

/-- What the table of tags goes on to is not a container's frame. -/
theorem destTable_counts (i : Nat) :
    (destTable.getD i (.processData, 0, .nil)).1.counts = false := by
  rw [List.getD_eq_getElem?_getD]
  cases found : destTable[i]? with
  | none => rfl
  | some dst =>
      have all : ∀ dst ∈ destTable, dst.1.counts = false := by decide
      exact all dst (List.mem_of_getElem? found)

theorem stepInitial_alike (malloc : Malloc) (alike : ctx.Alike other) (b : UInt8) :
    (stepInitial malloc ctx b).Alike (stepInitial malloc other b) := by
  have d := alike.top.d
  unfold stepInitial
  dsimp only
  rw [← d]
  split_ifs
  · exact (alike.write _ _).popStack 1
  · exact .go (alike.setTop (.uncounted rfl _ _ _ _ _)) 1
  · refine lengthCheck_setTop malloc alike ?_ ?_ ?_ 1
    · exact ⟨alike.top.status, rfl, fun _ => ⟨rfl, rfl⟩, alike.top.nPopObj⟩
    · rfl
    · rfl
  · refine lengthCheck_setTop malloc alike ?_ ?_ ?_ 1
    · exact ⟨alike.top.status, rfl, fun _ => ⟨rfl, rfl⟩, alike.top.nPopObj⟩
    · rfl
    · rfl
  · exact (alike.write _ _).popStack 1
  · exact (alike.write _ _).popStack 1
  · exact (alike.write _ _).popStack 1
  · exact .go (alike.setTop (.uncounted (destTable_counts _) _ _ _ _ _)) 1
  · exact (alike.write _ _).popStack 1
  · exact .error _ _ _

theorem stepLength_alike (malloc : Malloc) (alike : ctx.Alike other)
    (started : ctx.top.status ≠ .initial) (cur : Cursor ρ) :
    (stepLength malloc ctx cur).Alike (stepLength malloc other cur) := by
  obtain ⟨requireLen, requireType⟩ := alike.top.require started
  unfold stepLength
  dsimp only
  rw [← requireLen]
  split
  · exact .wait alike
  · refine lengthCheck_setTop malloc alike ?_ ?_ ?_ _
    · exact ⟨alike.top.status, alike.top.d, fun _ => ⟨rfl, requireType⟩, alike.top.nPopObj⟩
    · rfl
    · exact requireType

theorem stepData_alike (alike : ctx.Alike other) (started : ctx.top.status ≠ .initial)
    (cur : Cursor ρ) : (stepData ctx cur).Alike (stepData other cur) := by
  obtain ⟨requireLen, requireType⟩ := alike.top.require started
  have d := alike.top.d
  unfold stepData
  dsimp only
  rw [← requireLen, ← requireType, ← d]
  split
  · exact .wait alike
  · split
    · split
      · exact (alike.write _ _).popStack _
      · exact .error _ _ _
    · split
      · exact (alike.write _ _).popStack _
      · split
        · exact (alike.write _ _).popStack _
        · exact .assertion _ _ _
    · exact (alike.write _ _).popStack _
    · exact .error _ _ _

theorem stepArray_alike (alike : ctx.Alike other) (same : ctx.top = other.top) :
    (stepArray ctx).Alike (stepArray other) := by
  unfold stepArray
  dsimp only
  rw [← same]
  split
  · apply alike.enter
    exact (alike.setTop (.refl _)).elemNew _ _
  · exact (alike.setTop (.refl _)).popStack 0

theorem stepMap_alike (alike : ctx.Alike other) (same : ctx.top = other.top) :
    (stepMap ctx).Alike (stepMap other) := by
  unfold stepMap
  dsimp only
  rw [← same]
  apply alike.enter
  exact (alike.setTop (.refl _)).valNew _ _

theorem stepMapVal_alike (alike : ctx.Alike other) (same : ctx.top = other.top) :
    (stepMapVal ctx).Alike (stepMapVal other) := by
  unfold stepMapVal
  dsimp only
  rw [← same]
  split
  · apply alike.enter
    exact (alike.setTop (.refl _)).keyNew _ _
  · exact (alike.setTop (.refl _)).popStack 0

theorem unpackStep_alike (malloc : Malloc) (alike : ctx.Alike other) (cur : Cursor ρ) :
    (unpackStep malloc ctx cur).Alike (unpackStep malloc other cur) := by
  have same := alike.top.status
  have whole := alike.top.eq
  unfold unpackStep
  rw [← same]
  cases status : ctx.top.status with
  | initial =>
      dsimp only
      cases cur.unread with
      | nil => exact .wait alike
      | cons b rest => exact stepInitial_alike malloc alike b
  | processLength => exact stepLength_alike malloc alike (by simp [status]) cur
  | processData => exact stepData_alike alike (by simp [status]) cur
  | processArray => exact stepArray_alike alike (whole (by rw [status]; rfl))
  | processMap => exact stepMap_alike alike (whole (by rw [status]; rfl))
  | processMapVal => exact stepMapVal_alike alike (whole (by rw [status]; rfl))

end

/-! ## The loop -/

/-- Results that the caller of `unpack` cannot tell apart; behind an error the
context is of no use. -/
structure Result.Alike (one other : Result ρ) : Prop where
  ret : one.ret = other.ret
  cur : one.cur = other.cur
  ctx : one.ret ≠ .parseError → one.ret ≠ .assertion → one.ctx.Alike other.ctx

/-- Contexts that differ in leftovers parse alike. -/
theorem unpackLoop_alike (malloc : Malloc) (ctx : Context ρ) (cur : Cursor ρ) {other : Context ρ}
    (alike : ctx.Alike other) :
    (unpackLoop malloc ctx cur).Alike (unpackLoop malloc other cur) := by
  have turns := unpackStep_alike malloc alike cur
  rw [unpackLoop_eq, unpackLoop_eq malloc other]
  generalize same : unpackStep malloc ctx cur = turn at turns ⊢
  generalize unpackStep malloc other cur = turn' at turns ⊢
  cases turns with
  | go next used => exact unpackLoop_alike malloc _ (cur.advance used) next
  | wait next => exact ⟨rfl, rfl, fun _ _ => next⟩
  | done next used => exact ⟨rfl, rfl, fun _ _ => next⟩
  | error _ _ used => exact ⟨rfl, rfl, fun failed => absurd rfl failed⟩
  | assertion _ _ used => exact ⟨rfl, rfl, fun _ failed => absurd rfl failed⟩
termination_by loopMeasure ctx cur
decreasing_by exact unpackStep_decreases malloc ctx cur same

end Cyue.Mpak
