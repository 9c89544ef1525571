import Cyue.Mpak.Container

/-!
# The elements of a container

The parser meets a tree as the unread bytes under a frame in its initial
state.  If the tree fits the stack, the loop comes to the point where that
frame is popped, with the tree's object in the frame's slot; otherwise it
comes to a parse error.  The elements of a container inherit this from each
of them.
-/

namespace Cyue.Mpak

open Bytes Context Packer

variable {ρ : Type}

/-! ## Entering and leaving an element -/

namespace Context

/-- The context after `l_pushstack` for an object that fits the stack. -/
def enter (ctx : Context ρ) (slot : Slot) : Context ρ :=
  let ctx := { ctx with stackHeight := ctx.stackHeight + 1 }
  ctx.setTop { ctx.top with d := slot, status := .initial }

theorem pushStack_enter {ctx : Context ρ} (room : ctx.stackHeight + 1 < unpackStackDepth)
    (slot : Slot) : ctx.pushStack (some slot) 0 = .go (ctx.enter slot) 0 := by
  simp [pushStack, enter, Nat.not_le.mpr room]

theorem pushStack_deep {ctx : Context ρ} (full : unpackStackDepth ≤ ctx.stackHeight + 1)
    (slot : Slot) (malloc : Malloc) (cur : Cursor ρ) :
    (proceed malloc cur (ctx.pushStack (some slot) 0)).ret = .parseError := by
  simp [pushStack, full, proceed]

@[simp] theorem enter_stackHeight (ctx : Context ρ) (slot : Slot) :
    (ctx.enter slot).stackHeight = ctx.stackHeight + 1 := rfl

@[simp] theorem enter_top_d (ctx : Context ρ) (slot : Slot) : (ctx.enter slot).top.d = slot := by
  simp [enter]

@[simp] theorem enter_top_status (ctx : Context ρ) (slot : Slot) :
    (ctx.enter slot).top.status = .initial := by
  simp [enter]

@[simp] theorem enter_cells (ctx : Context ρ) (slot : Slot) :
    (ctx.enter slot).cells = ctx.cells := rfl

/-- Entering an element leaves the container's frame. -/
theorem enter_stack (ctx : Context ρ) (slot : Slot) :
    (ctx.enter slot).stack ctx.stackHeight = ctx.top :=
  Function.update_of_ne (Nat.ne_of_lt (Nat.lt_succ_self _)) _ _

end Context

theorem Kept.enter {height : Nat} {touched : Slot → Prop} (ctx : Context ρ) (slot : Slot)
    (above : height ≤ ctx.stackHeight + 1) : Kept height touched ctx (ctx.enter slot) := by
  apply Kept.of_frames
  intro level under
  exact Function.update_of_ne (Nat.ne_of_lt (Nat.lt_of_lt_of_le under above)) _ _

def Cursor.Reads (payload : ρ → List UInt8) (cur : Cursor ρ) : Prop :=
  ∀ offset len, offset + len ≤ cur.unread.length →
    payload (cur.rawAt offset len) = (cur.unread.drop offset).take len

theorem Cursor.Reads.advance {payload : ρ → List UInt8} {cur : Cursor ρ} (reads : cur.Reads payload)
    {used : Nat} (available : used ≤ cur.unread.length) : (cur.advance used).Reads payload := by
  intro offset len inside
  rw [advance_unread, List.length_drop] at inside
  rw [advance_unread, List.drop_drop]
  exact reads (used + offset) len (by omega)

/-- The top frame is about to parse an object whose bytes are unread. -/
structure Ready (malloc : Malloc) (payload : ρ → List UInt8) (ctx : Context ρ) (cur : Cursor ρ)
    (bytes : List UInt8) : Prop where
  height : ctx.stackHeight < unpackStackDepth
  initial : ctx.top.status = .initial
  live : ctx.Live ctx.top.d
  reads : cur.Reads payload
  unread : ∃ tail, cur.unread = bytes ++ tail
  short : bytes.length < 2 ^ 31
  grants : ∀ sz, sz ≤ sizeofObject * bytes.length → malloc sz = true

/-- From `before` to `after` the tree was parsed into the top frame's slot. -/
structure Parsed (payload : ρ → List UInt8) (tree : PackTree) (before after : Context ρ) :
    Prop where
  height : after.stackHeight = before.stackHeight
  frame : (after.stack before.stackHeight).d = before.top.d
  kept : Kept before.stackHeight (fun slot => slot = before.top.d) before after
  denotes : Denotes payload after.cells before.cells.length (after.read before.top.d) tree

/-! ## Bytes that stand for a tree

The parser does not tell a tree that was pushed from other bytes with the same
meaning: a signed number is parsed as an unsigned one of its width.
-/

/-- The given bytes have the outcome of the tree. -/
structure Spelled (malloc : Malloc) (payload : ρ → List UInt8) (bytes : List UInt8)
    (tree : PackTree) (ctx : Context ρ) (cur : Cursor ρ) : Prop where
  fits : ctx.stackHeight + tree.depth < unpackStackDepth → ∃ after,
    Parsed payload tree ctx after ∧
      unpackLoop malloc ctx cur = proceed malloc (cur.advance bytes.length) (after.popStack 0)
  deep : unpackStackDepth ≤ ctx.stackHeight + tree.depth →
    (unpackLoop malloc ctx cur).ret = .parseError

/-- The bytes have the outcome of the tree wherever the parser meets them. -/
def Spells (malloc : Malloc) (payload : ρ → List UInt8) (bytes : List UInt8) (tree : PackTree) :
    Prop :=
  ∀ ctx cur, Ready malloc payload ctx cur bytes → Spelled malloc payload bytes tree ctx cur

/-- Bytes one after another, each with the tree that they stand for. -/
abbrev Part := List UInt8 × PackTree

def spelling (parts : List Part) : List UInt8 := parts.flatMap Prod.fst

@[simp] theorem spelling_cons (part : Part) (parts : List Part) :
    spelling (part :: parts) = part.1 ++ spelling parts := rfl

theorem length_le_spelling {parts : List Part} (some : ∀ part ∈ parts, part.1 ≠ []) :
    parts.length ≤ (spelling parts).length := by
  induction parts with
  | nil => exact Nat.zero_le _
  | cons part parts ih =>
      have pos := List.length_pos_iff.mpr (some part (List.mem_cons_self ..))
      have rest := ih fun part member => some part (List.mem_cons_of_mem _ member)
      rw [spelling_cons, List.length_append, List.length_cons]
      omega

/-! ## The elements of a container -/

/-- The parser is at object number `index` of a container whose frame is at
`level` and whose own object is in `slot`. -/
structure Inside (shape : Shape) (size ptr index level : Nat) (slot : Slot) (ctx : Context ρ) :
    Prop where
  height : ctx.stackHeight = level + 1
  parent : (ctx.stack level).d = slot
  waits : shape.Waits size index (ctx.stack level)
  object : ctx.read slot = shape.obj size ptr
  live : ctx.Live slot
  apart : ∀ k, k < shape.count size → slot ≠ .cell (ptr + k)
  room : ptr + shape.count size ≤ ctx.cells.length
  current : ctx.top.d = .cell (ptr + index)
  bound : index < shape.count size

namespace Context

def leave (ctx : Context ρ) (level : Nat) (frame : StackMem) : Context ρ :=
  { ctx with stackHeight := level, stack := Function.update ctx.stack level frame }

@[simp] theorem leave_stackHeight (ctx : Context ρ) (level : Nat) (frame : StackMem) :
    (ctx.leave level frame).stackHeight = level := rfl

@[simp] theorem leave_top (ctx : Context ρ) (level : Nat) (frame : StackMem) :
    (ctx.leave level frame).top = frame :=
  Function.update_self _ _ _

@[simp] theorem leave_read (ctx : Context ρ) (level : Nat) (frame : StackMem) (slot : Slot) :
    (ctx.leave level frame).read slot = ctx.read slot := by
  cases slot <;> rfl

@[simp] theorem leave_cells (ctx : Context ρ) (level : Nat) (frame : StackMem) :
    (ctx.leave level frame).cells = ctx.cells := rfl

end Context

theorem Kept.leave {touched : Slot → Prop} (ctx : Context ρ) (level : Nat) (frame : StackMem) :
    Kept level touched ctx (ctx.leave level frame) := by
  apply Kept.of_frames
  intro lower under
  exact Function.update_of_ne (Nat.ne_of_lt under) _ _

/-- Once an element is parsed, the container's frame is popped to, and goes on
to the next element or is popped itself. -/
theorem proceed_element (malloc : Malloc) {payload : ρ → List UInt8} {tree : PackTree}
    {shape : Shape} {size ptr index level : Nat} {slot : Slot} {ctx middle : Context ρ}
    (inside : Inside shape size ptr index level slot ctx)
    (parsed : Parsed payload tree ctx middle) (cur : Cursor ρ) :
    ∃ frame : StackMem, frame.d = slot ∧
      (index + 1 < shape.count size → shape.Waits size (index + 1) frame ∧
        proceed malloc cur (middle.popStack 0) =
          proceed malloc cur
            ((middle.leave level frame).pushStack (some (.cell (ptr + (index + 1)))) 0)) ∧
      (index + 1 = shape.count size →
        proceed malloc cur (middle.popStack 0) =
          proceed malloc cur ((middle.leave level frame).popStack 0)) := by
  have height : middle.stackHeight = level + 1 := parsed.height.trans inside.height
  have under : level < ctx.stackHeight := by
    rw [inside.height]
    exact Nat.lt_succ_self level
  have parent : middle.stack level = ctx.stack level := parsed.kept.below level under
  let back : Context ρ := { middle with stackHeight := level }
  have back_top : back.top = ctx.stack level := parent
  have popped : proceed malloc cur (middle.popStack 0) =
      proceed malloc cur (unpackStep malloc back cur) := by
    have busy : (middle.stack level).status ≠ .initial := by
      rw [parent]
      exact inside.waits.not_initial
    simp only [popStack, height, Nat.add_one_ne_zero, if_false, Nat.add_sub_cancel, top, busy,
      proceed, Cursor.advance_zero]
    exact unpackLoop_eq malloc back cur
  have holds : back.read back.top.d = shape.obj size ptr := by
    rw [back_top, inside.parent, ← inside.object]
    have apart : slot ≠ ctx.top.d := by
      rw [inside.current]
      exact inside.apart index inside.bound
    have read : back.read slot = middle.read slot := by cases slot <;> rfl
    rw [read]
    exact parsed.kept.others slot inside.live apart
  have waits : shape.Waits size index back.top := by
    rw [back_top]
    exact inside.waits
  obtain ⟨frame, same, more, last⟩ := unpackStep_waits malloc cur waits holds inside.bound
  refine ⟨frame, ?_, ?_, ?_⟩
  · rw [same, back_top, inside.parent]
  · intro next
    obtain ⟨waiting, step⟩ := more next
    refine ⟨waiting, ?_⟩
    rw [popped, step]
    rfl
  · intro done
    rw [popped, last done]
    rfl

/-- The next element is met as the first one was. -/
theorem Inside.next {payload : ρ → List UInt8} {tree : PackTree}
    {shape : Shape} {size ptr index level : Nat} {slot : Slot} {ctx middle : Context ρ}
    (inside : Inside shape size ptr index level slot ctx)
    (parsed : Parsed payload tree ctx middle) {frame : StackMem} (parent : frame.d = slot)
    (waits : shape.Waits size (index + 1) frame) (bound : index + 1 < shape.count size) :
    Inside shape size ptr (index + 1) level slot
      ((middle.leave level frame).enter (.cell (ptr + (index + 1)))) := by
  have apart : slot ≠ ctx.top.d := by
    rw [inside.current]
    exact inside.apart index inside.bound
  have kept : Kept level (fun touched => touched = ctx.top.d) middle
      ((middle.leave level frame).enter (.cell (ptr + (index + 1)))) :=
    (Kept.leave middle level frame).trans (Kept.enter _ _ (Nat.le_succ _))
  have live : middle.Live slot := inside.live.grow parsed.kept.grows
  have frame_below : ((middle.leave level frame).enter (.cell (ptr + (index + 1)))).stack level =
      frame :=
    (enter_stack (middle.leave level frame) _).trans (leave_top _ _ _)
  exact
    { height := rfl
      parent := by rw [frame_below, parent]
      waits := by rw [frame_below]; exact waits
      object := by
        rw [kept.others slot live apart, parsed.kept.others slot inside.live apart]
        exact inside.object
      live := live.grow kept.grows
      apart := inside.apart
      room := Nat.le_trans inside.room (Nat.le_trans parsed.kept.grows kept.grows)
      current := enter_top_d _ _
      bound := bound }

/-- The remaining elements of a container were parsed, from index `index` on. -/
structure ParsedElems (payload : ρ → List UInt8) (elems : List PackTree) (ptr index level : Nat)
    (before after : Context ρ) : Prop where
  height : after.stackHeight = level
  frame : (after.stack level).d = (before.stack level).d
  kept : Kept level (fun slot => ∃ k, index ≤ k ∧ k < index + elems.length ∧ slot = .cell (ptr + k))
    before after
  denotes : ∀ i (bound : i < elems.length),
    Denotes payload after.cells before.cells.length (after.read (.cell (ptr + (index + i)))) elems[i]

theorem Parsed.last {payload : ρ → List UInt8} {tree : PackTree} {ptr index level : Nat}
    {ctx middle : Context ρ} (parsed : Parsed payload tree ctx middle)
    (height : ctx.stackHeight = level + 1) (current : ctx.top.d = .cell (ptr + index))
    (frame : StackMem) (same : frame.d = (ctx.stack level).d) :
    ParsedElems payload [tree] ptr index level ctx (middle.leave level frame) where
  height := rfl
  frame := by rw [← same]; exact congrArg StackMem.d (leave_top middle level frame)
  kept := by
    refine Kept.trans (parsed.kept.weaken (by omega) ?_) (Kept.leave middle level frame)
    rintro slot _ rfl
    exact ⟨index, Nat.le_refl _, by simp, current⟩
  denotes := by
    intro i bound
    have first : i = 0 := by simpa using bound
    subst first
    rw [leave_read, leave_cells, Nat.add_zero, ← current]
    exact parsed.denotes

theorem Parsed.cons {payload : ρ → List UInt8} {tree : PackTree} {rest : List PackTree}
    {ptr index level : Nat} {ctx middle after : Context ρ}
    (parsed : Parsed payload tree ctx middle)
    (height : ctx.stackHeight = level + 1) (current : ctx.top.d = .cell (ptr + index))
    (room : ptr + (index + (rest.length + 1)) ≤ ctx.cells.length) (frame : StackMem)
    (same : frame.d = (ctx.stack level).d) (slot : Slot)
    (others : ParsedElems payload rest ptr (index + 1) level
      ((middle.leave level frame).enter slot) after) :
    ParsedElems payload (tree :: rest) ptr index level ctx after := by
  have entered : ∀ touched, Kept level touched middle ((middle.leave level frame).enter slot) :=
    fun _ => (Kept.leave middle level frame).trans (Kept.enter _ _ (Nat.le_succ _))
  have later : Kept level (fun slot => ∃ k, index + 1 ≤ k ∧ k < index + 1 + rest.length ∧
      slot = .cell (ptr + k)) middle after := (entered _).trans others.kept
  have under : ((middle.leave level frame).enter slot).stack level = frame :=
    (enter_stack (middle.leave level frame) slot).trans (leave_top middle level frame)
  refine ⟨others.height, ?_, ?_, ?_⟩
  · rw [others.frame, under, same]
  · refine (parsed.kept.weaken (by omega) ?_).trans (later.weaken (Nat.le_refl _) ?_)
    · rintro slot _ rfl
      exact ⟨index, Nat.le_refl _, by simp, current⟩
    · rintro slot _ ⟨k, low, high, same⟩
      exact ⟨k, by omega, by rw [List.length_cons]; omega, same⟩
  · intro i bound
    cases i with
    | zero =>
        have grown := parsed.kept.grows
        have alive : middle.Live (.cell (ptr + index)) := by
          change ptr + index < middle.cells.length
          omega
        have same : after.read (.cell (ptr + index)) = middle.read (.cell (ptr + index)) := by
          apply later.others _ alive
          rintro ⟨k, low, high, same⟩
          rw [Slot.cell.injEq] at same
          omega
        rw [Nat.add_zero, same, ← current]
        refine parsed.denotes.transfer ?_ later.grows (Nat.le_refl _)
        intro cell low high
        apply later.others (.cell cell) high
        rintro ⟨k, at_least, under, same⟩
        rw [Slot.cell.injEq] at same
        omega
    | succ i =>
        have inner := others.denotes i (by simpa using bound)
        have position : index + 1 + i = index + (i + 1) := by omega
        rw [position] at inner
        exact inner.transfer (fun _ _ _ => rfl) (Nat.le_refl _) parsed.kept.grows

theorem Ready.front {malloc : Malloc} {payload : ρ → List UInt8} {ctx : Context ρ}
    {cur : Cursor ρ} {front back : List UInt8}
    (ready : Ready malloc payload ctx cur (front ++ back)) :
    Ready malloc payload ctx cur front := by
  obtain ⟨tail, unread⟩ := ready.unread
  have length : (front ++ back).length = front.length + back.length := List.length_append
  have short := ready.short
  refine ⟨ready.height, ready.initial, ready.live, ready.reads, ⟨back ++ tail, ?_⟩, by omega, ?_⟩
  · rw [unread, List.append_assoc]
  · intro sz small
    apply ready.grants
    rw [length]
    exact Nat.le_trans small (Nat.mul_le_mul_left _ (Nat.le_add_right _ _))

/-- Behind the first bytes, the parser is ready for the others. -/
theorem Ready.back {malloc : Malloc} {payload : ρ → List UInt8} {ctx next : Context ρ}
    {cur : Cursor ρ} {front back : List UInt8}
    (ready : Ready malloc payload ctx cur (front ++ back))
    (height : next.stackHeight < unpackStackDepth) (initial : next.top.status = .initial)
    (live : next.Live next.top.d) :
    Ready malloc payload next (cur.advance front.length) back := by
  obtain ⟨tail, unread⟩ := ready.unread
  have length : (front ++ back).length = front.length + back.length := List.length_append
  have short := ready.short
  refine ⟨height, initial, live, ready.reads.advance ?_, ⟨tail, ?_⟩, by omega, ?_⟩
  · rw [unread, List.append_assoc, List.length_append]
    exact Nat.le_add_right _ _
  · rw [Cursor.advance_unread, unread, List.append_assoc, List.drop_left]
  · intro sz small
    apply ready.grants
    rw [length]
    exact Nat.le_trans small (Nat.mul_le_mul_left _ (Nat.le_add_left _ _))

/-- The elements of a container have their outcome together. -/
theorem elems_outcome {malloc : Malloc} {payload : ρ → List UInt8} {shape : Shape}
    {size ptr level : Nat} {slot : Slot} (first : Part) (rest : List Part) (index : Nat)
    (spells : ∀ part ∈ first :: rest, Spells malloc payload part.1 part.2)
    (count : index + (rest.length + 1) = shape.count size) (ctx : Context ρ) (cur : Cursor ρ)
    (inside : Inside shape size ptr index level slot ctx)
    (ready : Ready malloc payload ctx cur (spelling (first :: rest))) :
    (level + PackTree.depthElems ((first :: rest).map Prod.snd) < unpackStackDepth → ∃ after,
      ParsedElems payload ((first :: rest).map Prod.snd) ptr index level ctx after ∧
        unpackLoop malloc ctx cur =
          proceed malloc (cur.advance (spelling (first :: rest)).length) (after.popStack 0)) ∧
    (unpackStackDepth ≤ level + PackTree.depthElems ((first :: rest).map Prod.snd) →
      (unpackLoop malloc ctx cur).ret = .parseError) := by
  induction rest generalizing first index ctx cur with
  | nil =>
      have outcome := spells first (by simp) ctx cur ready.front
      have height := inside.height
      simp only [List.map_cons, List.map_nil, PackTree.depthElems, Nat.max_zero]
      constructor
      · intro fits
        obtain ⟨middle, parsed, loop⟩ := outcome.fits (by omega)
        obtain ⟨frame, parent, -, last⟩ := proceed_element malloc inside parsed
          (cur.advance first.1.length)
        refine ⟨middle.leave level frame,
          parsed.last height inside.current frame (parent.trans inside.parent.symm), ?_⟩
        have whole : spelling [first] = first.1 := List.append_nil _
        rw [loop, last (by simpa using count), whole]
      · intro deep
        exact outcome.deep (by omega)
  | cons second rest ih =>
      have outcome := spells first (by simp) ctx cur ready.front
      have height := inside.height
      have bound : index + 1 < shape.count size := by
        rw [← count, List.length_cons]
        omega
      rw [List.map_cons, PackTree.depthElems]
      by_cases fits : ctx.stackHeight + first.2.depth < unpackStackDepth
      · obtain ⟨middle, parsed, loop⟩ := outcome.fits fits
        obtain ⟨frame, parent, more, -⟩ := proceed_element malloc inside parsed
          (cur.advance first.1.length)
        obtain ⟨waits, next⟩ := more bound
        have entered : Inside shape size ptr (index + 1) level slot
            ((middle.leave level frame).enter (.cell (ptr + (index + 1)))) :=
          inside.next parsed parent waits bound
        have room : (middle.leave level frame).stackHeight + 1 < unpackStackDepth := by
          rw [leave_stackHeight, ← height]
          exact ready.height
        rw [pushStack_enter room, proceed, Cursor.advance_zero] at next
        have again : Ready malloc payload
            ((middle.leave level frame).enter (.cell (ptr + (index + 1))))
            (cur.advance first.1.length) (spelling (second :: rest)) := by
          apply Ready.back ready room (enter_top_status _ _)
          rw [entered.current]
          exact Nat.lt_of_lt_of_le (Nat.add_lt_add_left bound ptr) entered.room
        obtain ⟨parses, errs⟩ := ih second (index + 1)
          (fun part member => spells part (List.mem_cons_of_mem _ member))
          (by rw [← count, List.length_cons]; omega) _ _ entered again
        rw [loop, next]
        constructor
        · intro fit
          have shallow : level + PackTree.depthElems ((second :: rest).map Prod.snd) <
              unpackStackDepth :=
            Nat.lt_of_le_of_lt (Nat.add_le_add_left (Nat.le_max_right _ _) _) fit
          obtain ⟨after, others, finish⟩ := parses shallow
          refine ⟨after, parsed.cons height inside.current ?_ frame
            (parent.trans inside.parent.symm) _ others, ?_⟩
          · rw [List.length_map, count]
            exact inside.room
          · rw [finish, Cursor.advance_advance, spelling_cons first, List.length_append]
        · intro deep
          apply errs
          omega
      · have deep := outcome.deep (Nat.not_lt.mp fits)
        constructor
        · intro fit
          omega
        · intro _
          exact deep

end Cyue.Mpak
