import Cyue.Mpak.Pack
import Cyue.Mpak.Unpack

/-!
# Which objects stand for which trees

`Denotes` says that an object, with the arrays it points into, is the parsed
form of a tree.  `Kept` is the frame condition of the parser: which frames and
which slots a stretch of parsing leaves alone.
-/

namespace Cyue.Mpak

variable {ρ : Type}

namespace Context

def Live (ctx : Context ρ) : Slot → Prop
  | .work => True
  | .cell index => index < ctx.cells.length

/-- `sbuf::malloc` of fresh objects. -/
def extend (ctx : Context ρ) (count : Nat) : Context ρ :=
  { ctx with cells := ctx.cells ++ List.replicate count .uninit }

theorem read_write_same {ctx : Context ρ} {slot : Slot} (live : ctx.Live slot) (obj : Obj ρ) :
    (ctx.write slot obj).read slot = obj := by
  cases slot with
  | work => rfl
  | cell index =>
      have inside : index < ctx.cells.length := live
      simp [read, write, inside]

theorem read_write_other {ctx : Context ρ} {slot other : Slot} (different : other ≠ slot)
    (obj : Obj ρ) : (ctx.write slot obj).read other = ctx.read other := by
  cases slot with
  | work =>
      cases other with
      | work => exact absurd rfl different
      | cell index => rfl
  | cell index =>
      cases other with
      | work => rfl
      | cell position =>
          have apart : index ≠ position := fun same => different (by rw [same])
          simp [read, write, List.getElem?_set_ne apart]

@[simp] theorem write_cells_length (ctx : Context ρ) (slot : Slot) (obj : Obj ρ) :
    (ctx.write slot obj).cells.length = ctx.cells.length := by
  cases slot <;> simp [write]

@[simp] theorem extend_cells_length (ctx : Context ρ) (count : Nat) :
    (ctx.extend count).cells.length = ctx.cells.length + count := by
  simp [extend]

@[simp] theorem extend_stackHeight (ctx : Context ρ) (count : Nat) :
    (ctx.extend count).stackHeight = ctx.stackHeight := rfl

@[simp] theorem extend_stack (ctx : Context ρ) (count : Nat) :
    (ctx.extend count).stack = ctx.stack := rfl

theorem read_extend {ctx : Context ρ} {slot : Slot} (live : ctx.Live slot) (count : Nat) :
    (ctx.extend count).read slot = ctx.read slot := by
  cases slot with
  | work => rfl
  | cell index =>
      have inside : index < ctx.cells.length := live
      simp [read, extend, List.getElem?_append_left inside]

theorem Live.grow {before after : Context ρ} {slot : Slot} (live : before.Live slot)
    (grows : before.cells.length ≤ after.cells.length) : after.Live slot := by
  cases slot with
  | work => trivial
  | cell index => exact Nat.lt_of_lt_of_le live grows

end Context

open Context

/-! ## The frame condition -/

/-- From `before` to `after` the frames under `height` and all slots of
`before` outside `touched` are as they were. -/
structure Kept (height : Nat) (touched : Slot → Prop) (before after : Context ρ) : Prop where
  below : ∀ level, level < height → after.stack level = before.stack level
  grows : before.cells.length ≤ after.cells.length
  others : ∀ slot, before.Live slot → ¬ touched slot → after.read slot = before.read slot

namespace Kept

variable {height : Nat} {touched : Slot → Prop} {before middle after : Context ρ}

theorem trans (first : Kept height touched before middle)
    (second : Kept height touched middle after) : Kept height touched before after where
  below level under := (second.below level under).trans (first.below level under)
  grows := Nat.le_trans first.grows second.grows
  others slot live apart :=
    (second.others slot (live.grow first.grows) apart).trans (first.others slot live apart)

/-- Only the slots that already existed have to be accounted for. -/
theorem weaken {lower : Nat} {wider : Slot → Prop} (kept : Kept height touched before after)
    (under : lower ≤ height) (covers : ∀ slot, before.Live slot → touched slot → wider slot) :
    Kept lower wider before after where
  below level inside := kept.below level (Nat.lt_of_lt_of_le inside under)
  grows := kept.grows
  others slot live apart := kept.others slot live fun hit => apart (covers slot live hit)

/-- Changing the height and the frames from `height` on touches no slot. -/
theorem of_frames (ctx : Context ρ) (level : Nat) (stack : Nat → StackMem)
    (same : ∀ level, level < height → stack level = ctx.stack level) :
    Kept height touched ctx { ctx with stackHeight := level, stack := stack } where
  below := same
  grows := Nat.le_refl _
  others slot _ _ := by cases slot <;> rfl

theorem setTop (ctx : Context ρ) (frame : StackMem) (above : height ≤ ctx.stackHeight) :
    Kept height touched ctx (ctx.setTop frame) := by
  apply of_frames
  intro level under
  exact Function.update_of_ne (by omega) _ _

theorem write (ctx : Context ρ) {slot : Slot} (obj : Obj ρ) (hit : touched slot) :
    Kept height touched ctx (ctx.write slot obj) where
  below level _ := by rw [write_stack]
  grows := by rw [write_cells_length]
  others other _ apart := by
    apply read_write_other
    rintro rfl
    exact apart hit

theorem extend (ctx : Context ρ) (count : Nat) : Kept height touched ctx (ctx.extend count) where
  below _ _ := rfl
  grows := by simp
  others _ live _ := read_extend live count

end Kept

/-! ## Parsed trees -/

/-- The object stands for the tree: its arrays lie in `cells` from index `lo`
on, and its payloads are read through `payload`. -/
inductive Denotes (payload : ρ → List UInt8) (cells : List (Obj ρ)) (lo : Nat) :
    Obj ρ → PackTree → Prop where
  | nil : Denotes payload cells lo .nil .nil
  | boolean (f : Bool) : Denotes payload cells lo (.boolean f) (.boolean f)
  | u8 (u : UInt8) : Denotes payload cells lo (.integer u.toUInt64) (.u8 u)
  | u16 (u : UInt16) : Denotes payload cells lo (.integer u.toUInt64) (.u16 u)
  | u32 (u : UInt32) : Denotes payload cells lo (.integer u.toUInt64) (.u32 u)
  | u64 (u : UInt64) : Denotes payload cells lo (.integer u) (.u64 u)
  | double (bits : UInt64) : Denotes payload cells lo (.double (.bits bits)) (.double bits)
  | raw (ptr : ρ) : Denotes payload cells lo (.raw ptr (payload ptr).length) (.raw (payload ptr))
  | array (elems : List PackTree) (ptr : Nat) (owned : elems ≠ [] → lo ≤ ptr)
      (inside : ptr + elems.length ≤ cells.length)
      (each : ∀ i (bound : i < elems.length),
        Denotes payload cells lo (cells.getD (ptr + i) .uninit) elems[i]) :
      Denotes payload cells lo (.array elems.length ptr) (.array elems)
  | map (entries : List (PackTree × PackTree)) (ptr : Nat) (owned : entries ≠ [] → lo ≤ ptr)
      (inside : ptr + 2 * entries.length ≤ cells.length)
      (each : ∀ i (bound : i < (PackTree.flatten entries).length),
        Denotes payload cells lo (cells.getD (ptr + i) .uninit) (PackTree.flatten entries)[i]) :
      Denotes payload cells lo (.map entries.length ptr) (.map entries)

/-- A tree's object survives whatever leaves the tree's own cells alone. -/
theorem Denotes.transfer {payload : ρ → List UInt8} {cells later : List (Obj ρ)} {lo lower : Nat}
    {obj : Obj ρ} {tree : PackTree} (denotes : Denotes payload cells lo obj tree)
    (agree : ∀ i, lo ≤ i → i < cells.length → later.getD i .uninit = cells.getD i .uninit)
    (grows : cells.length ≤ later.length) (down : lower ≤ lo) :
    Denotes payload later lower obj tree := by
  induction denotes with
  | nil => exact .nil
  | boolean f => exact .boolean f
  | u8 u => exact .u8 u
  | u16 u => exact .u16 u
  | u32 u => exact .u32 u
  | u64 u => exact .u64 u
  | double bits => exact .double bits
  | raw ptr => exact .raw ptr
  | array elems ptr owned inside each ih =>
      refine .array elems ptr (fun nonempty => Nat.le_trans down (owned nonempty))
        (Nat.le_trans inside grows) ?_
      intro i bound
      have start : lo ≤ ptr := owned (List.ne_nil_of_length_pos (Nat.zero_lt_of_lt bound))
      rw [agree (ptr + i) (by omega) (by omega)]
      exact ih i bound
  | map entries ptr owned inside each ih =>
      refine .map entries ptr (fun nonempty => Nat.le_trans down (owned nonempty))
        (Nat.le_trans inside grows) ?_
      intro i bound
      have short := PackTree.flatten_length entries
      have start : lo ≤ ptr := owned (List.ne_nil_of_length_pos (by omega))
      rw [agree (ptr + i) (by omega) (by omega)]
      exact ih i bound

/-- An object stands for one tree only, up to the widths of its integers. -/
theorem Denotes.unique {payload : ρ → List UInt8} {cells : List (Obj ρ)} {lo low : Nat}
    {obj : Obj ρ} {tree other : PackTree} (first : Denotes payload cells lo obj tree)
    (second : Denotes payload cells low obj other) : tree.widen = other.widen := by
  induction first generalizing other with
  | array elems ptr owned inside each ih =>
      generalize eq : Obj.array elems.length ptr = whole at second
      cases second with
      | array others start _ _ parts =>
          obtain ⟨length, rfl⟩ := Obj.array.inj eq
          rw [PackTree.widen, PackTree.widen, PackTree.widenElems_eq, PackTree.widenElems_eq]
          congr 1
          apply List.ext_getElem (by simpa using length)
          intro i left right
          rw [List.getElem_map, List.getElem_map]
          exact ih i (by simpa using left) (parts i (by simpa using right))
      | _ => cases eq
  | map entries ptr owned inside each ih =>
      generalize eq : Obj.map entries.length ptr = whole at second
      cases second with
      | map others start _ _ parts =>
          obtain ⟨length, rfl⟩ := Obj.map.inj eq
          rw [PackTree.widen, PackTree.widen]
          congr 1
          apply PackTree.flatten_injective
          rw [PackTree.flatten_widenEntries, PackTree.flatten_widenEntries]
          apply List.ext_getElem (by simp [PackTree.flatten_length, length])
          intro i left right
          rw [List.getElem_map, List.getElem_map]
          exact ih i (by simpa using left) (parts i (by simpa using right))
      | _ => cases eq
  | nil =>
      cases second
      rfl
  | boolean f =>
      cases second
      rfl
  | double bits =>
      cases second
      rfl
  | raw ptr =>
      generalize eq : Obj.raw ptr (payload ptr).length = whole at second
      cases second <;> cases eq
      rfl
  | u8 u | u16 u | u32 u | u64 u =>
      generalize eq : Obj.integer _ = whole at second
      cases second <;> simp_all [PackTree.widen]

end Cyue.Mpak
