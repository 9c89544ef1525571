import Cyue.Lib.Bytes

/-!
# Objects and parser contexts of the mpak serializer

`msgpack_object` values, the arrays an `sbuf` hands out for them, and the
context in which the parser keeps its explicit stack.  A `data *` of the
source is a `Slot`: either the context's own `at_work` object or an element
of an array allocated from the `sbuf`.  Raw payloads are zero-copy pointers in
the source, so every definition is generic in the type `ρ` of such a pointer.
-/

namespace Cyue.Mpak

/-- The kinds of `mpak` (`NIL` .. `MAP`), which are also its `require_type`s. -/
inductive Kind where
  | nil
  | boolean
  | integer
  | double
  | blob
  | array
  | map
  deriving DecidableEq, Repr

/-- A `double` held in `via.dec`: its own bit pattern, or the pattern of the
`float` that was converted to it. -/
inductive DoubleValue where
  | bits (pattern : UInt64)
  | single (pattern : UInt32)
  deriving DecidableEq, Repr

/-- `msgpack_object`; `uninit` is an array element the parser has not set. -/
inductive Obj (ρ : Type) where
  | uninit
  | nil
  | boolean (value : Bool)
  | integer (i64 : UInt64)
  | double (dec : DoubleValue)
  | raw (ptr : ρ) (size : Nat)
  | array (size ptr : Nat)
  | map (size ptr : Nat)
  deriving DecidableEq, Repr

/-- Where a `data *` points. -/
inductive Slot where
  | work
  | cell (index : Nat)
  deriving DecidableEq, Repr

inductive ParseState where
  | initial
  | processLength
  | processData
  | processArray
  | processMap
  | processMapVal
  deriving DecidableEq, Repr

structure StackMem where
  status : ParseState
  d : Slot
  requireLen : Nat
  nPopObj : Nat
  requireType : Kind
  deriving DecidableEq, Repr

def unpackStackDepth : Nat := 16

/-- The parser context together with the object arrays of its current `sbuf`.
`stack` is total so that an index past `unpackStackDepth` can be expressed. -/
structure Context (ρ : Type) where
  stackHeight : Nat
  atWork : Obj ρ
  cells : List (Obj ρ)
  stack : Nat → StackMem

namespace Context

variable {ρ σ : Type}

/-- `sp`, the frame selected by the stack height. -/
def top (ctx : Context ρ) : StackMem := ctx.stack ctx.stackHeight

def setTop (ctx : Context ρ) (frame : StackMem) : Context ρ :=
  { ctx with stack := Function.update ctx.stack ctx.stackHeight frame }

def read (ctx : Context ρ) : Slot → Obj ρ
  | .work => ctx.atWork
  | .cell index => ctx.cells.getD index .uninit

def write (ctx : Context ρ) (slot : Slot) (obj : Obj ρ) : Context ρ :=
  match slot with
  | .work => { ctx with atWork := obj }
  | .cell index => { ctx with cells := ctx.cells.set index obj }

/-- The context of a freshly constructed parser, and again of one that has
completed a message and been given a new `sbuf`. -/
def fresh : Context ρ where
  stackHeight := 0
  atWork := .uninit
  cells := []
  stack := fun _ => ⟨.initial, .work, 0, 0, .nil⟩

@[simp] theorem setTop_stackHeight (ctx : Context ρ) (frame : StackMem) :
    (ctx.setTop frame).stackHeight = ctx.stackHeight := rfl

@[simp] theorem setTop_cells (ctx : Context ρ) (frame : StackMem) :
    (ctx.setTop frame).cells = ctx.cells := rfl

@[simp] theorem setTop_atWork (ctx : Context ρ) (frame : StackMem) :
    (ctx.setTop frame).atWork = ctx.atWork := rfl

@[simp] theorem setTop_top (ctx : Context ρ) (frame : StackMem) :
    (ctx.setTop frame).top = frame := by
  simp [top, setTop]

@[simp] theorem setTop_setTop (ctx : Context ρ) (first second : StackMem) :
    (ctx.setTop first).setTop second = ctx.setTop second := by
  simp [setTop]

@[simp] theorem setTop_read (ctx : Context ρ) (frame : StackMem) (slot : Slot) :
    (ctx.setTop frame).read slot = ctx.read slot := by
  cases slot <;> rfl

@[simp] theorem write_stackHeight (ctx : Context ρ) (slot : Slot) (obj : Obj ρ) :
    (ctx.write slot obj).stackHeight = ctx.stackHeight := by
  cases slot <;> rfl

@[simp] theorem write_stack (ctx : Context ρ) (slot : Slot) (obj : Obj ρ) :
    (ctx.write slot obj).stack = ctx.stack := by
  cases slot <;> rfl

@[simp] theorem write_top (ctx : Context ρ) (slot : Slot) (obj : Obj ρ) :
    (ctx.write slot obj).top = ctx.top := by
  simp [top]

end Context

def Obj.mapRaw {ρ σ : Type} (f : ρ → σ) : Obj ρ → Obj σ
  | .uninit => .uninit
  | .nil => .nil
  | .boolean value => .boolean value
  | .integer i64 => .integer i64
  | .double dec => .double dec
  | .raw ptr size => .raw (f ptr) size
  | .array size ptr => .array size ptr
  | .map size ptr => .map size ptr

end Cyue.Mpak
