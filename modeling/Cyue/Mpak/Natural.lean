import Cyue.Mpak.Unpack

/-!
# The parser does not look into payload pointers

Replacing every payload pointer by its image under a function commutes with
the parser.  Payloads can therefore be taken as pointers into shared blocks or
as the bytes themselves, whichever a proof needs.
-/

namespace Cyue.Mpak

variable {ρ σ : Type}

namespace Context

def mapRaw (f : ρ → σ) (ctx : Context ρ) : Context σ where
  stackHeight := ctx.stackHeight
  atWork := ctx.atWork.mapRaw f
  cells := ctx.cells.map (Obj.mapRaw f)
  stack := ctx.stack

@[simp] theorem mapRaw_stackHeight (f : ρ → σ) (ctx : Context ρ) :
    (ctx.mapRaw f).stackHeight = ctx.stackHeight := rfl

@[simp] theorem mapRaw_top (f : ρ → σ) (ctx : Context ρ) : (ctx.mapRaw f).top = ctx.top := rfl

@[simp] theorem mapRaw_stack (f : ρ → σ) (ctx : Context ρ) :
    (ctx.mapRaw f).stack = ctx.stack := rfl

theorem mapRaw_setTop (f : ρ → σ) (ctx : Context ρ) (frame : StackMem) :
    (ctx.setTop frame).mapRaw f = (ctx.mapRaw f).setTop frame := rfl

theorem mapRaw_write (f : ρ → σ) (ctx : Context ρ) (slot : Slot) (obj : Obj ρ) :
    (ctx.write slot obj).mapRaw f = (ctx.mapRaw f).write slot (obj.mapRaw f) := by
  cases slot with
  | work => rfl
  | cell index => simp [write, mapRaw, List.map_set]

theorem mapRaw_read (f : ρ → σ) (ctx : Context ρ) (slot : Slot) :
    (ctx.mapRaw f).read slot = (ctx.read slot).mapRaw f := by
  cases slot with
  | work => rfl
  | cell index =>
      simp only [read, mapRaw, List.getD_eq_getElem?_getD, List.getElem?_map]
      cases ctx.cells[index]? <;> rfl

theorem mapRaw_extend (f : ρ → σ) (ctx : Context ρ) (count : Nat) :
    ({ ctx with cells := ctx.cells ++ List.replicate count Obj.uninit } : Context ρ).mapRaw f =
      { ctx.mapRaw f with cells := (ctx.mapRaw f).cells ++ List.replicate count Obj.uninit } := by
  simp [mapRaw, Obj.mapRaw]

theorem mapRaw_initArray (f : ρ → σ) (malloc : Malloc) (ctx : Context ρ) (d : Slot) (sz : Nat) :
    (ctx.mapRaw f).initArray malloc d sz = (ctx.initArray malloc d sz).map (mapRaw f) := by
  unfold initArray
  split_ifs
  · simp [mapRaw_write, Obj.mapRaw]
  · simp only [Option.map_some, mapRaw_write, mapRaw_extend, Obj.mapRaw]
    simp [mapRaw]
  · rfl

theorem mapRaw_initMap (f : ρ → σ) (malloc : Malloc) (ctx : Context ρ) (d : Slot) (sz : Nat) :
    (ctx.mapRaw f).initMap malloc d sz = (ctx.initMap malloc d sz).map (mapRaw f) := by
  unfold initMap
  split_ifs
  · simp [mapRaw_write, Obj.mapRaw]
  · simp only [Option.map_some, mapRaw_write, mapRaw_extend, Obj.mapRaw]
    simp [mapRaw]
  · rfl

theorem mapRaw_elemNew (f : ρ → σ) (ctx : Context ρ) (d : Slot) (idx : Nat) :
    (ctx.mapRaw f).elemNew d idx = ctx.elemNew d idx := by
  unfold elemNew
  rw [mapRaw_read]
  cases ctx.read d <;> rfl

theorem mapRaw_keyNew (f : ρ → σ) (ctx : Context ρ) (d : Slot) (idx : Nat) :
    (ctx.mapRaw f).keyNew d idx = ctx.keyNew d idx := by
  unfold keyNew
  rw [mapRaw_read]
  cases ctx.read d <;> rfl

theorem mapRaw_valNew (f : ρ → σ) (ctx : Context ρ) (d : Slot) (idx : Nat) :
    (ctx.mapRaw f).valNew d idx = ctx.valNew d idx := by
  unfold valNew
  rw [mapRaw_read]
  cases ctx.read d <;> rfl

end Context

open Context

def Cursor.mapRaw (f : ρ → σ) (cur : Cursor ρ) : Cursor σ where
  unread := cur.unread
  rawAt offset len := f (cur.rawAt offset len)

@[simp] theorem Cursor.mapRaw_unread (f : ρ → σ) (cur : Cursor ρ) :
    (cur.mapRaw f).unread = cur.unread := rfl

@[simp] theorem Cursor.mapRaw_curP (f : ρ → σ) (cur : Cursor ρ) (len : Nat) :
    (cur.mapRaw f).curP len = f (cur.curP len) := rfl

def Step.mapRaw (f : ρ → σ) : Step ρ → Step σ
  | .go ctx used => .go (ctx.mapRaw f) used
  | .wait ctx => .wait (ctx.mapRaw f)
  | .done ctx used => .done (ctx.mapRaw f) used
  | .error ctx used => .error (ctx.mapRaw f) used
  | .assertion ctx used => .assertion (ctx.mapRaw f) used

def Result.mapRaw (f : ρ → σ) (result : Result ρ) : Result σ where
  ret := result.ret
  ctx := result.ctx.mapRaw f
  cur := result.cur.mapRaw f

theorem pushStack_mapRaw (f : ρ → σ) (ctx : Context ρ) (obj : Option Slot) (used : Nat) :
    (ctx.mapRaw f).pushStack obj used = (ctx.pushStack obj used).mapRaw f := by
  unfold pushStack
  cases obj with
  | none => rfl
  | some slot =>
      dsimp only
      rw [apply_ite (Step.mapRaw f)]
      rfl

theorem popStack_mapRaw (f : ρ → σ) (ctx : Context ρ) (used : Nat) :
    (ctx.mapRaw f).popStack used = (ctx.popStack used).mapRaw f := by
  by_cases bottom : ctx.stackHeight = 0
  · simp only [popStack, mapRaw_stackHeight, bottom, if_true, Step.mapRaw]
  · simp only [popStack, mapRaw_stackHeight, bottom, if_false]
    rw [apply_ite (Step.mapRaw f)]
    rfl

theorem lengthCheck_mapRaw (f : ρ → σ) (malloc : Malloc) (ctx : Context ρ) (used : Nat) :
    lengthCheck malloc (ctx.mapRaw f) used = (lengthCheck malloc ctx used).mapRaw f := by
  unfold lengthCheck
  simp only [mapRaw_top, mapRaw_initArray, mapRaw_initMap]
  split
  · cases ctx.initArray malloc ctx.top.d ctx.top.requireLen with
    | none => rfl
    | some made =>
        simp only [Option.map_some, popStack_mapRaw, ← mapRaw_setTop, mapRaw_elemNew,
          pushStack_mapRaw]
        rw [apply_ite (Step.mapRaw f)]
  · cases ctx.initMap malloc ctx.top.d ctx.top.requireLen with
    | none => rfl
    | some made =>
        simp only [Option.map_some, popStack_mapRaw, ← mapRaw_setTop, mapRaw_keyNew,
          pushStack_mapRaw]
        rw [apply_ite (Step.mapRaw f)]
  · rfl

/-- The pop after the top frame's object has been set. -/
theorem popStack_write_mapRaw (f : ρ → σ) (ctx : Context ρ) (obj : Obj ρ) (used : Nat) :
    ((ctx.mapRaw f).write ctx.top.d (obj.mapRaw f)).popStack used =
      ((ctx.write ctx.top.d obj).popStack used).mapRaw f := by
  rw [← mapRaw_write, popStack_mapRaw]

theorem stepInitial_mapRaw (f : ρ → σ) (malloc : Malloc) (ctx : Context ρ) (b : UInt8) :
    stepInitial malloc (ctx.mapRaw f) b = (stepInitial malloc ctx b).mapRaw f := by
  unfold stepInitial
  simp only [mapRaw_top, ← mapRaw_setTop, lengthCheck_mapRaw]
  split_ifs
  · exact popStack_write_mapRaw f ctx (.integer _) 1
  · rfl
  · rfl
  · rfl
  · exact popStack_write_mapRaw f ctx .nil 1
  · exact popStack_write_mapRaw f ctx (.boolean false) 1
  · exact popStack_write_mapRaw f ctx (.boolean true) 1
  · rfl
  · exact popStack_write_mapRaw f ctx (.integer _) 1
  · rfl

theorem stepLength_mapRaw (f : ρ → σ) (malloc : Malloc) (ctx : Context ρ) (cur : Cursor ρ) :
    stepLength malloc (ctx.mapRaw f) (cur.mapRaw f) = (stepLength malloc ctx cur).mapRaw f := by
  unfold stepLength
  simp only [mapRaw_top, Cursor.mapRaw_unread, ← mapRaw_setTop, lengthCheck_mapRaw]
  rw [apply_ite (Step.mapRaw f)]
  rfl

theorem stepData_mapRaw (f : ρ → σ) (ctx : Context ρ) (cur : Cursor ρ) :
    stepData (ctx.mapRaw f) (cur.mapRaw f) = (stepData ctx cur).mapRaw f := by
  unfold stepData
  simp only [mapRaw_top, Cursor.mapRaw_unread, Cursor.mapRaw_curP]
  by_cases short : cur.unread.length < ctx.top.requireLen
  · simp only [short, if_true]
    rfl
  · simp only [short, if_false]
    cases ctx.top.requireType with
    | integer =>
        dsimp only
        rw [apply_ite (Step.mapRaw f), ← popStack_write_mapRaw]
        rfl
    | double =>
        dsimp only
        rw [apply_ite (Step.mapRaw f), apply_ite (Step.mapRaw f), ← popStack_write_mapRaw,
          ← popStack_write_mapRaw]
        rfl
    | blob => exact popStack_write_mapRaw f ctx (.raw _ _) _
    | _ => rfl

/-- One turn commutes with replacing the payload pointers. -/
theorem unpackStep_mapRaw (f : ρ → σ) (malloc : Malloc) (ctx : Context ρ) (cur : Cursor ρ) :
    unpackStep malloc (ctx.mapRaw f) (cur.mapRaw f) = (unpackStep malloc ctx cur).mapRaw f := by
  unfold unpackStep
  simp only [mapRaw_top]
  split
  · rw [Cursor.mapRaw_unread]
    cases cur.unread with
    | nil => rfl
    | cons b rest => exact stepInitial_mapRaw f malloc ctx b
  · exact stepLength_mapRaw f malloc ctx cur
  · exact stepData_mapRaw f ctx cur
  · simp only [stepArray, mapRaw_top, ← mapRaw_setTop, mapRaw_elemNew, pushStack_mapRaw,
      popStack_mapRaw]
    rw [apply_ite (Step.mapRaw f)]
  · simp only [stepMap, mapRaw_top, ← mapRaw_setTop, mapRaw_valNew, pushStack_mapRaw]
  · simp only [stepMapVal, mapRaw_top, ← mapRaw_setTop, mapRaw_keyNew, pushStack_mapRaw,
      popStack_mapRaw]
    rw [apply_ite (Step.mapRaw f)]

/-- And so does the loop. -/
theorem unpackLoop_mapRaw (f : ρ → σ) (malloc : Malloc) (ctx : Context ρ) (cur : Cursor ρ) :
    unpackLoop malloc (ctx.mapRaw f) (cur.mapRaw f) = (unpackLoop malloc ctx cur).mapRaw f := by
  induction ctx, cur using unpackLoop.induct malloc with
  | case1 ctx cur next used turn ih =>
      rw [unpackLoop_eq, unpackStep_mapRaw, turn, unpackLoop_eq malloc ctx, turn]
      exact ih
  | case2 ctx cur next turn =>
      rw [unpackLoop_eq, unpackStep_mapRaw, turn, unpackLoop_eq malloc ctx, turn]
      rfl
  | case3 ctx cur next used turn =>
      rw [unpackLoop_eq, unpackStep_mapRaw, turn, unpackLoop_eq malloc ctx, turn]
      rfl
  | case4 ctx cur next used turn =>
      rw [unpackLoop_eq, unpackStep_mapRaw, turn, unpackLoop_eq malloc ctx, turn]
      rfl
  | case5 ctx cur next used turn =>
      rw [unpackLoop_eq, unpackStep_mapRaw, turn, unpackLoop_eq malloc ctx, turn]
      rfl

end Cyue.Mpak
