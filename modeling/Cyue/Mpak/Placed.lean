import Cyue.Mpak.RoundTrip

/-!
# Where the parser places values

A value is placed when the object in the slot of its frame stands for it and all other slots are as
they were.  Elements that are placed one after another make the value of their container.
-/

namespace Cyue.Mpak

open Context

variable {ρ : Type}

/-! ## Values -/

inductive Scalar where
  | nil
  | boolean (value : Bool)
  | integer (i64 : UInt64)
  | double (dec : DoubleValue)
  | raw (bytes : List UInt8)
  deriving DecidableEq

/-- What is parsed; the objects of a map are its keys and values in turn. -/
inductive Value where
  | scalar (s : Scalar)
  | container (shape : Shape) (objs : List Value)

def Scalar.Shows (payload : ρ → List UInt8) : Scalar → Obj ρ → Prop
  | .nil, .nil => True
  | .boolean value, .boolean shown => shown = value
  | .integer i64, .integer shown => shown = i64
  | .double dec, .double shown => shown = dec
  | .raw bytes, .raw ptr size => payload ptr = bytes ∧ size = bytes.length
  | _, _ => False

/-- The object stands for the value: its arrays lie in `cells` from index `lo` on. -/
inductive Stands (payload : ρ → List UInt8) (cells : List (Obj ρ)) (lo : ℕ) : Obj ρ → Value → Prop where
  | scalar {s : Scalar} {obj : Obj ρ} (shows : s.Shows payload obj) : Stands payload cells lo obj (.scalar s)
  | container (shape : Shape) (objs : List Value) (size ptr : ℕ) (count : objs.length = shape.count size)
      (owned : objs ≠ [] → lo ≤ ptr) (inside : ptr + objs.length ≤ cells.length)
      (each : ∀ i (bound : i < objs.length), Stands payload cells lo (cells.getD (ptr + i) .uninit) objs[i]) :
      Stands payload cells lo (shape.obj size ptr) (.container shape objs)

variable {payload : ρ → List UInt8} {cells later : List (Obj ρ)} {lo lower : ℕ} {obj : Obj ρ}
  {value : Value}

/-- A value's object survives whatever leaves the value's own cells alone. -/
theorem Stands.transfer (stands : Stands payload cells lo obj value)
    (agree : ∀ i, lo ≤ i → i < cells.length → later.getD i .uninit = cells.getD i .uninit)
    (grows : cells.length ≤ later.length) (down : lower ≤ lo) : Stands payload later lower obj value := by
  induction stands with
  | scalar shows => exact .scalar shows
  | container shape objs size ptr count owned inside each ih =>
      refine .container shape objs size ptr count (fun some => down.trans (owned some))
        (inside.trans grows) fun i bound => ?_
      have start : lo ≤ ptr := owned (List.ne_nil_of_length_pos (Nat.zero_lt_of_lt bound))
      rw [agree (ptr + i) (by omega) (by omega)]
      exact ih i bound

theorem Scalar.Shows.unique {s t : Scalar} (first : s.Shows payload obj) (second : t.Shows payload obj) :
    s = t := by
  cases obj <;> cases s <;> cases t <;> simp_all [Scalar.Shows]

theorem Shape.obj_inj {shape other : Shape} {size ptr size' ptr' : ℕ}
    (same : (shape.obj size ptr : Obj ρ) = other.obj size' ptr') : shape = other ∧ size = size' ∧ ptr = ptr' := by
  cases shape <;> cases other <;> cases same <;> exact ⟨rfl, rfl, rfl⟩

theorem Scalar.not_shows_container {s : Scalar} {shape : Shape} {size ptr : ℕ} :
    ¬ s.Shows payload (shape.obj size ptr) := by
  cases shape <;> cases s <;> exact id

/-- An object stands for one value. -/
theorem Stands.unique {low : ℕ} {other : Value} (first : Stands payload cells lo obj value)
    (second : Stands payload cells low obj other) : value = other := by
  induction first generalizing other with
  | scalar shows =>
      cases second with
      | scalar shows' => exact congrArg Value.scalar (shows.unique shows')
      | container => exact absurd shows Scalar.not_shows_container
  | container shape objs size ptr count owned inside each ih =>
      generalize whole : (shape.obj size ptr : Obj ρ) = object at second
      cases second with
      | scalar shows => exact absurd (whole ▸ shows) Scalar.not_shows_container
      | container shape' objs' size' ptr' count' _ _ each' =>
          obtain ⟨rfl, rfl, rfl⟩ := Shape.obj_inj whole
          have length : objs.length = objs'.length := count.trans count'.symm
          refine congrArg (Value.container shape) (List.ext_getElem length fun i left right => ?_)
          exact ih i left (each' i right)

/-! ## Values in slots -/

/-- From `before` to `after` the value was parsed into the top frame's slot. -/
structure Placed (payload : ρ → List UInt8) (value : Value) (before after : Context ρ) : Prop where
  height : after.stackHeight = before.stackHeight
  frame : (after.stack before.stackHeight).d = before.top.d
  kept : Kept before.stackHeight (fun slot => slot = before.top.d) before after
  stands : Stands payload after.cells before.cells.length (after.read before.top.d) value

/-- The elements from index `index` on were parsed. -/
structure PlacedElems (payload : ρ → List UInt8) (objs : List Value) (ptr index level : ℕ)
    (before after : Context ρ) : Prop where
  height : after.stackHeight = level
  frame : (after.stack level).d = (before.stack level).d
  kept : Kept level (fun slot => ∃ k, index ≤ k ∧ k < index + objs.length ∧ slot = .cell (ptr + k))
    before after
  stands : ∀ i (bound : i < objs.length),
    Stands payload after.cells before.cells.length (after.read (.cell (ptr + (index + i)))) objs[i]

variable {ctx middle after : Context ρ}

/-- A frame that has been changed still has the slot. -/
theorem Placed.of_setTop {frame : StackMem} (same : frame.d = ctx.top.d)
    (placed : Placed payload value (ctx.setTop frame) after) : Placed payload value ctx after := by
  have top : (ctx.setTop frame).top.d = ctx.top.d := by rw [setTop_top, same]
  obtain ⟨height, own, kept, stands⟩ := placed
  rw [top] at own kept stands
  exact ⟨height, own, (Kept.setTop ctx frame le_rfl).trans kept, stands⟩

/-- A scalar is written. -/
theorem placed_write {s : Scalar} {obj : Obj ρ} (live : ctx.Live ctx.top.d) (shows : s.Shows payload obj) :
    Placed payload (.scalar s) ctx (ctx.write ctx.top.d obj) where
  height := write_stackHeight ..
  frame := by
    rw [write_stack]
    rfl
  kept := Kept.write ctx obj rfl
  stands := by
    rw [read_write_same live]
    exact .scalar shows

/-! ## Elements -/

section

variable {shape : Shape} {size ptr index level : ℕ} {slot : Slot}

/-- Once an element is placed, the container's frame is popped to, and goes on to the next element or is
popped itself. -/
theorem proceed_placed (malloc : Malloc) (inside : Inside shape size ptr index level slot ctx)
    (placed : Placed payload value ctx middle) (cur : Cursor ρ) :
    ∃ frame : StackMem, frame.d = slot ∧
      (index + 1 < shape.count size → shape.Waits size (index + 1) frame ∧
        proceed malloc cur (middle.popStack 0) =
          proceed malloc cur ((middle.leave level frame).pushStack (some (.cell (ptr + (index + 1)))) 0)) ∧
      (index + 1 = shape.count size →
        proceed malloc cur (middle.popStack 0) =
          proceed malloc cur ((middle.leave level frame).popStack 0)) := by
  have height : middle.stackHeight = level + 1 := placed.height.trans inside.height
  have parent : middle.stack level = ctx.stack level :=
    placed.kept.below level (inside.height ▸ Nat.lt_succ_self level)
  let back : Context ρ := { middle with stackHeight := level }
  have top : back.top = ctx.stack level := parent
  have waits : shape.Waits size index back.top := by
    rw [top]
    exact inside.waits
  have popped : proceed malloc cur (middle.popStack 0) = proceed malloc cur (unpackStep malloc back cur) := by
    have busy : (middle.stack level).status ≠ .initial := by
      rw [parent]
      exact inside.waits.not_initial
    simp only [popStack, height, Nat.add_one_ne_zero, if_false, Nat.add_sub_cancel, Context.top, busy, proceed,
      Cursor.advance_zero]
    exact unpackLoop_eq malloc back cur
  have object : back.read back.top.d = shape.obj size ptr := by
    have apart : slot ≠ ctx.top.d := by
      rw [inside.current]
      exact inside.apart index inside.bound
    have read : back.read slot = middle.read slot := by cases slot <;> rfl
    rw [top, inside.parent, read, ← inside.object]
    exact placed.kept.others slot inside.live apart
  obtain ⟨frame, same, more, last⟩ := unpackStep_waits malloc cur waits object inside.bound
  refine ⟨frame, by rw [same, top, inside.parent], fun next => ?_, fun done => ?_⟩
  · obtain ⟨waiting, step⟩ := more next
    exact ⟨waiting, popped.trans (congrArg (proceed malloc cur) step)⟩
  · exact popped.trans (congrArg (proceed malloc cur) (last done))

/-- The next element is met as the first one was. -/
theorem Inside.placed (inside : Inside shape size ptr index level slot ctx)
    (placed : Placed payload value ctx middle) {frame : StackMem} (parent : frame.d = slot)
    (waits : shape.Waits size (index + 1) frame) (bound : index + 1 < shape.count size) :
    Inside shape size ptr (index + 1) level slot
      ((middle.leave level frame).enter (.cell (ptr + (index + 1)))) := by
  have apart : slot ≠ ctx.top.d := by
    rw [inside.current]
    exact inside.apart index inside.bound
  have kept : Kept level (fun touched => touched = ctx.top.d) middle
      ((middle.leave level frame).enter (.cell (ptr + (index + 1)))) :=
    (Kept.leave middle level frame).trans (Kept.enter _ _ (Nat.le_succ _))
  have live : middle.Live slot := inside.live.grow placed.kept.grows
  have below : ((middle.leave level frame).enter (.cell (ptr + (index + 1)))).stack level = frame :=
    (enter_stack (middle.leave level frame) _).trans (leave_top _ _ _)
  exact
    { height := rfl
      parent := by rw [below, parent]
      waits := by
        rw [below]
        exact waits
      object := by
        rw [kept.others slot live apart, placed.kept.others slot inside.live apart]
        exact inside.object
      live := live.grow kept.grows
      apart := inside.apart
      room := inside.room.trans (placed.kept.grows.trans kept.grows)
      current := enter_top_d _ _
      bound := bound }

theorem Placed.last (placed : Placed payload value ctx middle) (height : ctx.stackHeight = level + 1)
    (current : ctx.top.d = .cell (ptr + index)) {frame : StackMem} (same : frame.d = (ctx.stack level).d) :
    PlacedElems payload [value] ptr index level ctx (middle.leave level frame) where
  height := rfl
  frame := by
    rw [← same]
    exact congrArg StackMem.d (leave_top middle level frame)
  kept := by
    refine (placed.kept.weaken (by omega) ?_).trans (Kept.leave middle level frame)
    rintro slot _ rfl
    exact ⟨index, le_rfl, Nat.lt_succ_self index, current⟩
  stands := by
    intro i bound
    obtain rfl : i = 0 := Nat.lt_one_iff.mp bound
    rw [leave_read, leave_cells, Nat.add_zero, ← current]
    exact placed.stands

theorem Placed.cons {objs : List Value} (placed : Placed payload value ctx middle)
    (height : ctx.stackHeight = level + 1) (current : ctx.top.d = .cell (ptr + index))
    (room : ptr + (index + (objs.length + 1)) ≤ ctx.cells.length) {frame : StackMem}
    (same : frame.d = (ctx.stack level).d) (slot : Slot)
    (others : PlacedElems payload objs ptr (index + 1) level ((middle.leave level frame).enter slot) after) :
    PlacedElems payload (value :: objs) ptr index level ctx after := by
  have later : Kept level (fun slot => ∃ k, index + 1 ≤ k ∧ k < index + 1 + objs.length ∧
      slot = .cell (ptr + k)) middle after :=
    ((Kept.leave middle level frame).trans (Kept.enter _ _ (Nat.le_succ _))).trans others.kept
  have under : ((middle.leave level frame).enter slot).stack level = frame :=
    (enter_stack (middle.leave level frame) slot).trans (leave_top middle level frame)
  refine ⟨others.height, by rw [others.frame, under, same], ?_, fun i bound => ?_⟩
  · refine (placed.kept.weaken (by omega) ?_).trans (later.weaken le_rfl ?_)
    · rintro slot _ rfl
      exact ⟨index, le_rfl, by rw [List.length_cons]; omega, current⟩
    · rintro slot _ ⟨k, low, high, hit⟩
      exact ⟨k, by omega, by rw [List.length_cons]; omega, hit⟩
  · cases i with
    | zero =>
        -- the cells of the first element lie in front of those that came later
        have grown := placed.kept.grows
        have alive : middle.Live (.cell (ptr + index)) := by
          change ptr + index < middle.cells.length
          omega
        have same : after.read (.cell (ptr + index)) = middle.read (.cell (ptr + index)) := by
          refine later.others _ alive ?_
          rintro ⟨k, low, -, hit⟩
          rw [Slot.cell.injEq] at hit
          omega
        rw [Nat.add_zero, same, ← current]
        refine placed.stands.transfer (fun cell low high => later.others (.cell cell) high ?_) later.grows
          le_rfl
        rintro ⟨k, -, under, hit⟩
        rw [Slot.cell.injEq] at hit
        omega
    | succ i =>
        have inner := others.stands i (Nat.lt_of_succ_lt_succ bound)
        have position : index + 1 + i = index + (i + 1) := by omega
        rw [position] at inner
        exact inner.transfer (fun _ _ _ => rfl) le_rfl placed.kept.grows

/-- A container whose elements have all been placed in fresh cells. -/
theorem PlacedElems.container {objs : List Value} {entered : Context ρ} (live : ctx.Live ctx.top.d)
    (kept : Kept ctx.stackHeight (fun slot => slot = ctx.top.d) ctx entered)
    (inside : Inside shape size ctx.cells.length 0 ctx.stackHeight ctx.top.d entered)
    (count : objs.length = shape.count size)
    (elems : PlacedElems payload objs ctx.cells.length 0 ctx.stackHeight entered after) :
    Placed payload (.container shape objs) ctx after := by
  have fresh : ∀ k, ctx.top.d ≠ .cell (ctx.cells.length + k) := by
    intro k hit
    have within : ctx.Live (.cell (ctx.cells.length + k)) := hit ▸ live
    exact absurd within (Nat.not_lt.mpr (Nat.le_add_right _ _))
  have unchanged : after.read ctx.top.d = entered.read ctx.top.d := by
    refine elems.kept.others _ (live.grow kept.grows) ?_
    rintro ⟨k, -, -, hit⟩
    exact fresh k hit
  refine ⟨elems.height, elems.frame.trans inside.parent, ?_, ?_⟩
  · have whole : Kept ctx.stackHeight (fun slot => slot = ctx.top.d ∨
        ∃ k, slot = .cell (ctx.cells.length + k)) ctx after :=
      (kept.weaken le_rfl fun _ _ => .inl).trans
        (elems.kept.weaken le_rfl fun _ _ ⟨k, _, _, hit⟩ => .inr ⟨k, hit⟩)
    refine whole.weaken le_rfl ?_
    rintro slot alive (same | ⟨k, rfl⟩)
    · exact same
    · exact absurd alive (Nat.not_lt.mpr (Nat.le_add_right _ _))
  · rw [unchanged, inside.object]
    have room : ctx.cells.length + objs.length ≤ after.cells.length := by
      rw [count]
      exact inside.room.trans elems.kept.grows
    refine .container shape objs size _ count (fun _ => le_rfl) room fun i bound => ?_
    have inner := elems.stands i bound
    rw [Nat.zero_add] at inner
    exact inner.transfer (fun _ _ _ => rfl) le_rfl kept.grows

end

end Cyue.Mpak
