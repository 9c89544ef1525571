import Cyue.Mpak.Elements

/-!
# What the parser makes of a written tree

Every tree's message spells the tree, by induction on the tree; the outcome at
the bottom of the stack is what `unpack` returns.
-/

namespace Cyue.Mpak

open Bytes Context Packer

variable {ρ : Type}

/-! ## Trees -/

/-- The pop of a frame whose object has just been written. -/
theorem parsed_write {payload : ρ → List UInt8} {tree : PackTree} {ctx : Context ρ} {obj : Obj ρ}
    (frame : StackMem) (same : frame.d = ctx.top.d) (live : ctx.Live ctx.top.d)
    (denotes : Denotes payload ctx.cells ctx.cells.length obj tree) :
    Parsed payload tree ctx ((ctx.setTop frame).write ctx.top.d obj) where
  height := by rw [write_stackHeight, setTop_stackHeight]
  frame := by
    rw [write_stack, ← same]
    exact congrArg StackMem.d (setTop_top ctx frame)
  kept := (Kept.setTop ctx frame (Nat.le_refl _)).trans (Kept.write _ obj rfl)
  denotes := by
    have framed : (ctx.setTop frame).Live ctx.top.d := live.grow (Nat.le_refl _)
    rw [read_write_same framed]
    refine denotes.transfer ?_ (by rw [write_cells_length]; exact Nat.le_refl _) (Nat.le_refl _)
    intro cell low high
    omega

/-- A tree without non-empty containers only needs its object written. -/
theorem spelled_write {malloc : Malloc} {payload : ρ → List UInt8} {bytes : List UInt8}
    {tree : PackTree} {ctx : Context ρ} {cur : Cursor ρ} {obj : Obj ρ} (frame : StackMem)
    (same : frame.d = ctx.top.d) (ready : Ready malloc payload ctx cur bytes)
    (flat : tree.depth = 0) (denotes : Denotes payload ctx.cells ctx.cells.length obj tree)
    (loop : unpackLoop malloc ctx cur = proceed malloc (cur.advance bytes.length)
      (((ctx.setTop frame).write ctx.top.d obj).popStack 0)) :
    Spelled malloc payload bytes tree ctx cur where
  fits _ := ⟨_, parsed_write frame same ready.live denotes, loop⟩
  deep full := by
    have height := ready.height
    omega

@[simp] theorem setTop_self (ctx : Context ρ) : ctx.setTop ctx.top = ctx := by
  simp [setTop, top]

/-- A tag that is a whole object. -/
theorem spells_tag {malloc : Malloc} {payload : ρ → List UInt8} {tree : PackTree} {b : UInt8}
    {obj : Obj ρ} (flat : tree.depth = 0) (denotes : ∀ cells lo, Denotes payload cells lo obj tree)
    (turn : ∀ ctx : Context ρ, stepInitial malloc ctx b = (ctx.write ctx.top.d obj).popStack 1) :
    Spells malloc payload [b] tree := by
  intro ctx cur ready
  obtain ⟨tail, unread⟩ := ready.unread
  refine spelled_write ctx.top rfl ready flat (denotes _ _) ?_
  rw [setTop_self, List.length_singleton, ← proceed_popStack, ← turn, unpackLoop_eq]
  simp [unpackStep, ready.initial, unread]

/-- A tag followed by a big-endian number. -/
theorem spells_number {malloc : Malloc} {payload : ρ → List UInt8} {tree : PackTree}
    {b : UInt8} {width n : Nat} {kind : Kind} {obj : Obj ρ} (flat : tree.depth = 0)
    (denotes : ∀ cells lo, Denotes payload cells lo obj tree)
    (entry : ∀ ctx : Context ρ, stepInitial malloc ctx b = .go (ctx.setTop
      { ctx.top with status := .processData, requireLen := width, requireType := kind }) 1)
    (turn : ∀ (ctx : Context ρ) (cur : Cursor ρ), ctx.top.requireLen = width →
      ctx.top.requireType = kind → ¬ cur.unread.length < width →
      cur.unread.take width = beBytes width n →
      stepData ctx cur = (ctx.write ctx.top.d obj).popStack width) :
    Spells malloc payload (b :: beBytes width n) tree := by
  intro ctx cur ready
  obtain ⟨tail, unread⟩ := ready.unread
  refine spelled_write
    { ctx.top with status := .processData, requireLen := width, requireType := kind }
    rfl ready flat (denotes _ _) ?_
  have tag : unpackStep malloc ctx cur = .go (ctx.setTop { ctx.top with
      status := .processData, requireLen := width, requireType := kind }) 1 := by
    simp only [unpackStep, ready.initial, unread, List.cons_append, entry]
  have field : (cur.advance 1).unread = beBytes width n ++ tail := by
    simp [unread]
  have enough : ¬ (cur.advance 1).unread.length < width := by
    rw [field, List.length_append, beBytes_length]
    omega
  have number : (cur.advance 1).unread.take width = beBytes width n := by
    rw [field, List.take_left' (beBytes_length width n)]
  rw [unpackLoop_eq, tag, proceed, unpackLoop_eq, List.length_cons, beBytes_length,
    Nat.add_comm width, ← Cursor.advance_advance, ← proceed_popStack]
  simp only [unpackStep, setTop_top]
  rw [turn _ _ (by rw [setTop_top]) (by rw [setTop_top]) enough number, setTop_top]

theorem spells_raw (malloc : Malloc) (payload : ρ → List UInt8) (p : List UInt8) :
    Spells malloc payload (rawHeader p.length ++ p) (.raw p) := by
  intro ctx cur ready
  obtain ⟨tail, unread⟩ := ready.unread
  have short := ready.short
  rw [List.length_append] at short
  rw [List.append_assoc] at unread
  obtain ⟨frame, same, len, kind, loop⟩ := headed_raw malloc ready.initial unread (by omega)
  let behind := cur.advance (rawHeader p.length).length
  have field : behind.unread = p ++ tail := by
    simp [behind, unread]
  have pointer : payload (behind.curP p.length) = p := by
    have reads : behind.Reads payload := ready.reads.advance (by simp [unread])
    rw [Cursor.curP, reads 0 p.length (by simp [field]), List.drop_zero, field, List.take_left]
  have denotes : Denotes payload ctx.cells ctx.cells.length (.raw (behind.curP p.length) p.length)
      (.raw p) := by
    have raw : Denotes payload ctx.cells ctx.cells.length
        (.raw (behind.curP p.length) (payload (behind.curP p.length)).length)
        (.raw (payload (behind.curP p.length))) := .raw (behind.curP p.length)
    rwa [pointer] at raw
  refine spelled_write { frame with status := .processData } same ready rfl denotes ?_
  have enough : ¬ behind.unread.length < p.length := by
    rw [field, List.length_append]
    omega
  rw [loop, List.length_append, ← Cursor.advance_advance, ← proceed_popStack]
  simp only [lengthCheck, setTop_top, kind, setTop_setTop, proceed_go, Cursor.advance_zero]
  rw [unpackLoop_eq]
  simp only [unpackStep, setTop_top, stepData, len, same]
  rw [if_neg enough]

/-- `l_length_check` on an empty container. -/
theorem lengthCheck_empty (malloc : Malloc) (shape : Shape) {ctx : Context ρ}
    (len : ctx.top.requireLen = 0) (kind : ctx.top.requireType = shape.kind) :
    lengthCheck malloc ctx 0 = (ctx.write ctx.top.d (shape.obj 0 0)).popStack 0 := by
  cases shape <;> simp [lengthCheck, kind, Shape.kind, len, initArray, initMap, Shape.obj]

/-- `l_length_check` on a container that has elements. -/
theorem lengthCheck_start {malloc : Malloc} (shape : Shape) {size : Nat} {ctx : Context ρ}
    (len : ctx.top.requireLen = size) (kind : ctx.top.requireType = shape.kind) (pos : 0 < size)
    (live : ctx.Live ctx.top.d) (grant : malloc (sizeofObject * shape.count size) = true) :
    ∃ parent : StackMem, parent.d = ctx.top.d ∧ shape.Waits size 0 parent ∧
      lengthCheck malloc ctx 0 =
        ((((ctx.extend (shape.count size)).write ctx.top.d
          (shape.obj size ctx.cells.length)).setTop parent).pushStack
            (some (.cell ctx.cells.length)) 0) := by
  have grown : (ctx.extend (shape.count size)).Live ctx.top.d := live.grow (by simp)
  have nonempty : size ≠ 0 := Nat.ne_of_gt pos
  cases shape with
  | array =>
      refine ⟨{ ctx.top with status := .processArray, nPopObj := 0 }, rfl, ⟨rfl, len, rfl⟩, ?_⟩
      have granted : malloc (size * sizeofObject) = true := by
        rw [Nat.mul_comm]
        exact grant
      have object := read_write_same grown (.array size ctx.cells.length)
      simp only [Shape.count, extend] at object
      simp [lengthCheck, kind, Shape.kind, len, initArray, nonempty, granted, elemNew, object,
        pos, Shape.obj, Shape.count, extend]
  | map =>
      refine ⟨{ ctx.top with status := .processMap, nPopObj := 0 }, rfl, ⟨len, rfl, rfl⟩, ?_⟩
      have granted : malloc (size * (2 * sizeofObject)) = true := by
        have same : size * (2 * sizeofObject) = sizeofObject * (2 * size) := by
          rw [Nat.mul_comm 2 sizeofObject, Nat.mul_left_comm, Nat.mul_comm size 2]
        rw [same]
        exact grant
      have object := read_write_same grown (.map size ctx.cells.length)
      simp only [Shape.count, extend] at object
      simp [lengthCheck, kind, Shape.kind, len, initMap, nonempty, granted, keyNew, object,
        pos, Shape.obj, Shape.count, extend]

/-- The first element of a container is met inside it. -/
theorem Inside.start {shape : Shape} {size : Nat} {ctx : Context ρ} (parent : StackMem)
    (same : parent.d = ctx.top.d) (waits : shape.Waits size 0 parent) (live : ctx.Live ctx.top.d)
    (pos : 0 < shape.count size) :
    Inside shape size ctx.cells.length 0 ctx.stackHeight ctx.top.d
      ((((ctx.extend (shape.count size)).write ctx.top.d
        (shape.obj size ctx.cells.length)).setTop parent).enter (.cell ctx.cells.length)) := by
  have grown : (ctx.extend (shape.count size)).Live ctx.top.d := live.grow (by simp)
  let written := (ctx.extend (shape.count size)).write ctx.top.d (shape.obj size ctx.cells.length)
  let entered := (written.setTop parent).enter (.cell ctx.cells.length)
  have height : written.stackHeight = ctx.stackHeight := write_stackHeight _ _ _
  have length : entered.cells.length = ctx.cells.length + shape.count size := by
    simp [entered, written]
  have frame : entered.stack ctx.stackHeight = parent := by
    rw [← height]
    exact (enter_stack (written.setTop parent) _).trans (setTop_top _ _)
  have read : entered.read ctx.top.d = shape.obj size ctx.cells.length := by
    have kept : ∀ slot, entered.read slot = written.read slot := fun slot => by cases slot <;> rfl
    rw [kept]
    exact read_write_same grown _
  exact
    { height := by simp
      parent := by rw [frame, same]
      waits := by rw [frame]; exact waits
      object := read
      live := live.grow (by rw [length]; exact Nat.le_add_right _ _)
      apart := by
        intro k under hit
        have inside : ctx.Live (.cell (ctx.cells.length + k)) := hit ▸ live
        have absurd_length : ctx.cells.length + k < ctx.cells.length := inside
        omega
      room := Nat.le_of_eq length.symm
      current := enter_top_d _ _
      bound := pos }

/-- A container whose elements have all been parsed into fresh cells. -/
theorem Parsed.container {payload : ρ → List UInt8} {tree : PackTree} {elems : List PackTree}
    {shape : Shape} {size : Nat} {ctx entered after : Context ρ}
    (live : ctx.Live ctx.top.d) (kept : Kept ctx.stackHeight (fun slot => slot = ctx.top.d) ctx entered)
    (parent : (entered.stack ctx.stackHeight).d = ctx.top.d)
    (object : entered.read ctx.top.d = shape.obj size ctx.cells.length)
    (room : ctx.cells.length + elems.length ≤ entered.cells.length)
    (denotes : ∀ cells lo ptr, lo ≤ ptr → ptr + elems.length ≤ cells.length →
      (∀ i (bound : i < elems.length),
        Denotes payload cells lo (cells.getD (ptr + i) .uninit) elems[i]) →
      Denotes payload cells lo (shape.obj size ptr) tree)
    (parsed : ParsedElems payload elems ctx.cells.length 0 ctx.stackHeight entered after) :
    Parsed payload tree ctx after := by
  have fresh : ∀ k, ctx.top.d ≠ .cell (ctx.cells.length + k) := by
    intro k hit
    have inside : ctx.Live (.cell (ctx.cells.length + k)) := hit ▸ live
    have absurd_length : ctx.cells.length + k < ctx.cells.length := inside
    omega
  have unchanged : after.read ctx.top.d = entered.read ctx.top.d := by
    apply parsed.kept.others _ (live.grow kept.grows)
    rintro ⟨k, -, -, hit⟩
    exact fresh k hit
  refine ⟨parsed.height, parsed.frame.trans parent, ?_, ?_⟩
  · have whole : Kept ctx.stackHeight (fun slot => slot = ctx.top.d ∨
        ∃ k, slot = .cell (ctx.cells.length + k)) ctx after :=
      (kept.weaken (Nat.le_refl _) fun _ _ => Or.inl).trans
        (parsed.kept.weaken (Nat.le_refl _) fun _ _ ⟨k, _, _, same⟩ => Or.inr ⟨k, same⟩)
    refine whole.weaken (Nat.le_refl _) ?_
    rintro slot alive (same | ⟨k, rfl⟩)
    · exact same
    · have inside : ctx.cells.length + k < ctx.cells.length := alive
      omega
  · rw [unchanged, object]
    refine denotes _ _ _ (Nat.le_refl _) (Nat.le_trans room parsed.kept.grows) ?_
    intro i bound
    have inner := parsed.denotes i bound
    rw [Nat.zero_add] at inner
    exact inner.transfer (fun _ _ _ => rfl) (Nat.le_refl _) kept.grows

/-- A container without elements. -/
theorem spelled_empty {malloc : Malloc} {payload : ρ → List UInt8} {tree : PackTree}
    {ctx : Context ρ} {cur : Cursor ρ} {shape : Shape} (frame : StackMem)
    (same : frame.d = ctx.top.d) (len : frame.requireLen = 0)
    (kind : frame.requireType = shape.kind)
    (ready : Ready malloc payload ctx cur (shape.header 0)) (flat : tree.depth = 0)
    (denotes : Denotes payload ctx.cells ctx.cells.length (shape.obj 0 0) tree)
    (loop : unpackLoop malloc ctx cur = proceed malloc (cur.advance (shape.header 0).length)
      (lengthCheck malloc (ctx.setTop frame) 0)) :
    Spelled malloc payload (shape.header 0) tree ctx cur := by
  refine spelled_write frame same ready flat denotes ?_
  have none : (ctx.setTop frame).top.requireLen = 0 := by rw [setTop_top, len]
  rw [loop, lengthCheck_empty malloc shape none (by rw [setTop_top, kind]), setTop_top, same]

/-- A container with elements, which the stack has no room for. -/
theorem spelled_full {malloc : Malloc} {payload : ρ → List UInt8} {bytes : List UInt8}
    {tree : PackTree} {ctx filled : Context ρ} {cur behind : Cursor ρ} {slot : Slot}
    (full : unpackStackDepth ≤ ctx.stackHeight + 1) (nested : 0 < tree.depth)
    (height : filled.stackHeight = ctx.stackHeight)
    (loop : unpackLoop malloc ctx cur = proceed malloc behind (filled.pushStack (some slot) 0)) :
    Spelled malloc payload bytes tree ctx cur where
  fits shallow := by omega
  deep _ := by
    rw [loop]
    exact pushStack_deep (by rwa [height]) _ _ _

/-- Nothing but the slot of a container changes up to its first element. -/
theorem Kept.start {ctx : Context ρ} (frame parent : StackMem) (shape : Shape) (size : Nat) :
    Kept ctx.stackHeight (fun slot => slot = ctx.top.d) ctx
      (((((ctx.setTop frame).extend (shape.count size)).write ctx.top.d
        (shape.obj size ctx.cells.length)).setTop parent).enter (.cell ctx.cells.length)) := by
  let framed := ctx.setTop frame
  let grown := framed.extend (shape.count size)
  let written := grown.write ctx.top.d (shape.obj size ctx.cells.length)
  have height : (written.setTop parent).stackHeight = ctx.stackHeight := by
    rw [setTop_stackHeight, write_stackHeight, extend_stackHeight, setTop_stackHeight]
  have object : Kept ctx.stackHeight (fun slot => slot = ctx.top.d) grown written :=
    Kept.write _ _ rfl
  refine (Kept.setTop ctx frame (Nat.le_refl _)).trans
    ((Kept.extend framed (shape.count size)).trans (object.trans
      ((Kept.setTop written parent ?_).trans (Kept.enter (written.setTop parent) _ ?_))))
  · exact Nat.le_of_eq height.symm
  · exact Nat.le_of_lt (Nat.lt_succ_of_le (Nat.le_of_eq height.symm))

/-- A container with elements, whose frames the stack has room for. -/
theorem spelled_elems {malloc : Malloc} {payload : ρ → List UInt8} {tree : PackTree}
    {ctx : Context ρ} {cur : Cursor ρ} {shape : Shape} {size : Nat} (frame parent : StackMem)
    (first : Part) (rest : List Part)
    (depth : tree.depth = PackTree.depthElems ((first :: rest).map Prod.snd))
    (count : (first :: rest).length = shape.count size)
    (denotes : ∀ cells lo ptr, lo ≤ ptr →
      ptr + ((first :: rest).map Prod.snd).length ≤ cells.length →
      (∀ i (bound : i < ((first :: rest).map Prod.snd).length),
        Denotes payload cells lo (cells.getD (ptr + i) .uninit)
          ((first :: rest).map Prod.snd)[i]) →
      Denotes payload cells lo (shape.obj size ptr) tree)
    (spells : ∀ part ∈ first :: rest, Spells malloc payload part.1 part.2)
    (ready : Ready malloc payload ctx cur (shape.header size ++ spelling (first :: rest)))
    (same : frame.d = ctx.top.d) (parent_d : parent.d = ctx.top.d)
    (waits : shape.Waits size 0 parent) (room : ctx.stackHeight + 1 < unpackStackDepth)
    (loop : unpackLoop malloc ctx cur = proceed malloc (cur.advance (shape.header size).length)
      (((((ctx.setTop frame).extend (shape.count size)).write ctx.top.d
        (shape.obj size ctx.cells.length)).setTop parent).pushStack
          (some (.cell ctx.cells.length)) 0)) :
    Spelled malloc payload (shape.header size ++ spelling (first :: rest)) tree ctx cur := by
  let framed := ctx.setTop frame
  have framed_d : framed.top.d = ctx.top.d := by rw [setTop_top, same]
  have pos : 0 < shape.count size := by
    rw [← count]
    exact Nat.succ_pos _
  let filled := ((framed.extend (shape.count size)).write ctx.top.d
    (shape.obj size ctx.cells.length)).setTop parent
  let entered := filled.enter (.cell ctx.cells.length)
  have height : filled.stackHeight = ctx.stackHeight := by
    rw [setTop_stackHeight, write_stackHeight, extend_stackHeight, setTop_stackHeight]
  have inside : Inside shape size ctx.cells.length 0 ctx.stackHeight ctx.top.d entered := by
    have live : framed.Live framed.top.d := by
      rw [framed_d]
      exact ready.live.grow (Nat.le_refl _)
    have started := Inside.start parent (parent_d.trans framed_d.symm) waits live pos
    rwa [framed_d] at started
  have fits_stack : filled.stackHeight + 1 < unpackStackDepth := by rwa [height]
  rw [pushStack_enter fits_stack, proceed_go, Cursor.advance_zero] at loop
  have met : Ready malloc payload entered (cur.advance (shape.header size).length)
      (spelling (first :: rest)) := by
    refine ready.back fits_stack (enter_top_status _ _) ?_
    rw [inside.current]
    exact Nat.lt_of_lt_of_le (Nat.add_lt_add_left pos _) inside.room
  obtain ⟨fits, deep⟩ := elems_outcome first rest 0 spells
    (by rw [Nat.zero_add, ← count]; rfl) entered _ inside met
  have kept : Kept ctx.stackHeight (fun slot => slot = ctx.top.d) ctx entered :=
    Kept.start frame parent shape size
  constructor
  · intro shallow
    rw [depth] at shallow
    obtain ⟨after, parsed, finish⟩ := fits shallow
    refine ⟨after, Parsed.container ready.live kept inside.parent inside.object ?_ denotes parsed,
      ?_⟩
    · rw [List.length_map, count]
      exact inside.room
    · rw [loop, finish, Cursor.advance_advance, List.length_append]
  · intro nests
    rw [depth] at nests
    rw [loop]
    exact deep nests

theorem spells_container {malloc : Malloc} {payload : ρ → List UInt8} {tree : PackTree}
    (shape : Shape) (size : Nat) (parts : List Part)
    (depth : tree.depth = PackTree.depthElems (parts.map Prod.snd))
    (count : parts.length = shape.count size)
    (empty : ∀ cells lo, parts = [] → Denotes payload cells lo (shape.obj 0 0) tree)
    (denotes : ∀ cells lo ptr, lo ≤ ptr → ptr + (parts.map Prod.snd).length ≤ cells.length →
      (∀ i (bound : i < (parts.map Prod.snd).length),
        Denotes payload cells lo (cells.getD (ptr + i) .uninit) (parts.map Prod.snd)[i]) →
      Denotes payload cells lo (shape.obj size ptr) tree)
    (some : ∀ part ∈ parts, part.1 ≠ [])
    (spells : ∀ part ∈ parts, Spells malloc payload part.1 part.2) :
    Spells malloc payload (shape.header size ++ spelling parts) tree := by
  intro ctx cur ready
  have total : (shape.header size ++ spelling parts).length =
      (shape.header size).length + (spelling parts).length := List.length_append
  have enough := length_le_spelling some
  have size_le : size ≤ shape.count size := by cases shape <;> simp only [Shape.count] <;> omega
  obtain ⟨tail, unread⟩ := ready.unread
  rw [List.append_assoc] at unread
  have short := ready.short
  obtain ⟨frame, same, len, kind, loop⟩ :=
    headed_shape malloc shape ready.initial unread (by omega)
  cases parts with
  | nil =>
      obtain rfl : size = 0 := Nat.le_zero.mp (Nat.le_trans size_le (Nat.le_of_eq count.symm))
      have bare : shape.header 0 ++ spelling [] = shape.header 0 := List.append_nil _
      rw [bare] at ready ⊢
      exact spelled_empty frame same len kind ready (by rw [depth]; rfl) (empty _ _ rfl) loop
  | cons first rest =>
      have framed_d : (ctx.setTop frame).top.d = ctx.top.d := by rw [setTop_top, same]
      have live : (ctx.setTop frame).Live (ctx.setTop frame).top.d := by
        rw [framed_d]
        exact ready.live.grow (Nat.le_refl _)
      have size_pos : 0 < size := by
        have pos : 0 < shape.count size := count ▸ Nat.succ_pos _
        cases shape <;> simp only [Shape.count] at pos <;> omega
      have grant : malloc (sizeofObject * shape.count size) = true := by
        apply ready.grants
        rw [← count, total]
        exact Nat.mul_le_mul_left _ (Nat.le_trans enough (Nat.le_add_left _ _))
      obtain ⟨parent, parent_d, waits, start⟩ := lengthCheck_start shape
        (by rw [setTop_top, len]) (by rw [setTop_top, kind]) size_pos live grant
      rw [start, framed_d] at loop
      by_cases room : ctx.stackHeight + 1 < unpackStackDepth
      · exact spelled_elems frame parent first rest depth count denotes spells ready same
          (parent_d.trans framed_d) waits room loop
      · refine spelled_full (Nat.not_lt.mp room) ?_ ?_ loop
        · rw [depth, List.map_cons, PackTree.depthElems]
          omega
        · rw [setTop_stackHeight, write_stackHeight, extend_stackHeight, setTop_stackHeight]

theorem spells_array {malloc : Malloc} {payload : ρ → List UInt8} {parts : List Part}
    (some : ∀ part ∈ parts, part.1 ≠ [])
    (spells : ∀ part ∈ parts, Spells malloc payload part.1 part.2) :
    Spells malloc payload (arrayHeader parts.length ++ spelling parts)
      (.array (parts.map Prod.snd)) := by
  refine spells_container .array parts.length parts (by rw [PackTree.depth]) rfl ?_ ?_ some spells
  · rintro cells lo rfl
    exact .array [] 0 (fun nonempty => absurd rfl nonempty) (Nat.zero_le _) (by simp)
  · intro cells lo ptr low inside each
    have whole := Denotes.array (parts.map Prod.snd) ptr (fun _ => low) inside each
    rwa [List.length_map] at whole

theorem spells_map {malloc : Malloc} {payload : ρ → List UInt8} {parts : List Part}
    {entries : List (PackTree × PackTree)} (same : PackTree.flatten entries = parts.map Prod.snd)
    (some : ∀ part ∈ parts, part.1 ≠ [])
    (spells : ∀ part ∈ parts, Spells malloc payload part.1 part.2) :
    Spells malloc payload (mapHeader entries.length ++ spelling parts) (.map entries) := by
  have length : parts.length = 2 * entries.length := by
    rw [← PackTree.flatten_length, same, List.length_map]
  refine spells_container .map entries.length parts ?_ length ?_ ?_ some spells
  · rw [PackTree.depth, PackTree.depthEntries_eq, same]
  · rintro cells lo rfl
    obtain rfl : entries = [] := List.length_eq_zero_iff.mp (by rw [List.length_nil] at length; omega)
    exact .map [] 0 (fun nonempty => absurd rfl nonempty) (Nat.zero_le _) (by simp [PackTree.flatten])
  · rw [← same]
    intro cells lo ptr low inside each
    rw [PackTree.flatten_length] at inside
    exact .map entries ptr (fun _ => low) inside each

/-- An integer's payload is read back as the number that was written. -/
theorem stepData_integer {width n : Nat} {i64 : UInt64}
    (known : width = 1 ∨ width = 2 ∨ width = 4 ∨ width = 8) (fits : n < 256 ^ width)
    (value : UInt64.ofNat n = i64) (ctx : Context ρ) (cur : Cursor ρ)
    (len : ctx.top.requireLen = width) (kind : ctx.top.requireType = .integer)
    (enough : ¬ cur.unread.length < width) (field : cur.unread.take width = beBytes width n) :
    stepData ctx cur = (ctx.write ctx.top.d (.integer i64)).popStack width := by
  simp only [stepData, len, kind]
  rw [if_neg enough, if_pos known, field, beNat_beBytes fits, value]

theorem stepData_double (bits : UInt64) (ctx : Context ρ) (cur : Cursor ρ)
    (len : ctx.top.requireLen = 8) (kind : ctx.top.requireType = .double)
    (enough : ¬ cur.unread.length < 8) (field : cur.unread.take 8 = beBytes 8 bits.toNat) :
    stepData ctx cur = (ctx.write ctx.top.d (.double (.bits bits))).popStack 8 := by
  have value : UInt64.ofNat (beNat (beBytes 8 bits.toNat)) = bits := by
    rw [beNat_beBytes bits.toNat_lt, UInt64.ofNat_toNat]
  simp only [stepData, len, kind]
  rw [if_neg enough, if_true, field, value]

theorem spells_u8 (malloc : Malloc) (payload : ρ → List UInt8) (u : UInt8) :
    Spells malloc payload (PackTree.u8 u).encode (.u8 u) := by
  by_cases fix : u ≤ 0x7f
  · rw [PackTree.encode, if_pos fix]
    refine spells_tag rfl (fun _ _ => .u8 u) ?_
    intro ctx
    simp only [stepInitial, if_pos fix]
  · have bytes : (PackTree.u8 u).encode = 0xcc :: beBytes 1 u.toNat := by
      rw [PackTree.encode, if_neg fix]
      simp [beBytes]
    rw [bytes]
    refine spells_number rfl (fun _ _ => .u8 u) (fun _ => rfl) ?_
    exact stepData_integer (by simp) u.toNat_lt (by simp)

def PackTree.part (tree : PackTree) : Part := (tree.encode, tree)

theorem spelling_encode (elems : List PackTree) :
    spelling (elems.map PackTree.part) = PackTree.encodeElems elems := by
  induction elems with
  | nil => simp [spelling, PackTree.encodeElems]
  | cons elem rest ih => simp [PackTree.part, PackTree.encodeElems, ← ih]

theorem parts_trees (elems : List PackTree) :
    (elems.map PackTree.part).map Prod.snd = elems := by
  rw [List.map_map]
  exact List.map_id _

theorem parts_some (elems : List PackTree) : ∀ part ∈ elems.map PackTree.part, part.1 ≠ [] := by
  intro part member
  obtain ⟨elem, -, rfl⟩ := List.mem_map.mp member
  exact List.ne_nil_of_length_pos elem.encode_pos

mutual

/-- The message of a tree spells it. -/
theorem spells_encode (malloc : Malloc) (payload : ρ → List UInt8) :
    (tree : PackTree) → Spells malloc payload tree.encode tree
  | .nil => spells_tag rfl (fun _ _ => .nil) (fun _ => rfl)
  | .boolean true => spells_tag rfl (fun _ _ => .boolean true) (fun _ => rfl)
  | .boolean false => spells_tag rfl (fun _ _ => .boolean false) (fun _ => rfl)
  | .u8 u => spells_u8 malloc payload u
  | .u16 u => by
      refine spells_number rfl (fun _ _ => .u16 u) (fun _ => rfl) ?_
      exact stepData_integer (by simp) u.toNat_lt (by simp)
  | .u32 u => by
      refine spells_number rfl (fun _ _ => .u32 u) (fun _ => rfl) ?_
      exact stepData_integer (by simp) u.toNat_lt (by simp)
  | .u64 u => by
      refine spells_number rfl (fun _ _ => .u64 u) (fun _ => rfl) ?_
      exact stepData_integer (by simp) u.toNat_lt (by simp)
  | .double bits => by
      refine spells_number rfl (fun _ _ => .double bits) (fun _ => rfl) ?_
      exact stepData_double bits
  | .raw p => spells_raw malloc payload p
  | .array elems => by
      have whole := spells_array (parts_some elems) (spells_all malloc payload elems)
      rwa [spelling_encode, parts_trees, List.length_map] at whole
  | .map entries => by
      rw [PackTree.encode, PackTree.encodeEntries_eq, ← spelling_encode]
      exact spells_map (parts_trees _).symm (parts_some _) (spells_entries malloc payload entries)

theorem spells_all (malloc : Malloc) (payload : ρ → List UInt8) :
    (elems : List PackTree) →
      ∀ part ∈ elems.map PackTree.part, Spells malloc payload part.1 part.2
  | [] => by simp
  | elem :: rest => by
      have head := spells_encode malloc payload elem
      have others := spells_all malloc payload rest
      intro part member
      rcases List.mem_cons.mp member with rfl | later
      · exact head
      · exact others part later

theorem spells_entries (malloc : Malloc) (payload : ρ → List UInt8) :
    (entries : List (PackTree × PackTree)) →
      ∀ part ∈ (PackTree.flatten entries).map PackTree.part, Spells malloc payload part.1 part.2
  | [] => by simp [PackTree.flatten]
  | (key, val) :: rest => by
      have left := spells_encode malloc payload key
      have right := spells_encode malloc payload val
      have others := spells_entries malloc payload rest
      intro part member
      rw [PackTree.flatten_cons, List.map_cons, List.map_cons] at member
      rcases List.mem_cons.mp member with rfl | member
      · exact left
      · rcases List.mem_cons.mp member with rfl | later
        · exact right
        · exact others part later

end

/-! ## From a buffer and back -/

theorem cursorOf_reads (pb : Pbuf) : (cursorOf pb).Reads (payloadOf pb) := by
  intro offset len _
  simp [cursorOf, payloadOf, Pbuf.unread, List.drop_drop]

/-- A parser between messages meets the bytes of a tree. -/
theorem unpackLoop_spelled {malloc : Malloc} {payload : ρ → List UInt8} {bytes : List UInt8}
    {tree : PackTree} {ctx : Context ρ} {cur : Cursor ρ} {rest : List UInt8}
    (spells : Spells malloc payload bytes tree) (idle : ctx.Idle)
    (reads : cur.Reads payload) (unread : cur.unread = bytes ++ rest)
    (short : bytes.length < 2 ^ 31)
    (grants : ∀ sz, sz ≤ sizeofObject * bytes.length → malloc sz = true) :
    (tree.depth ≤ 15 → ∃ after, (after.stack 0).d = .work ∧
      Denotes payload after.cells 0 after.atWork tree ∧
      unpackLoop malloc ctx cur =
        ⟨if rest = [] then .success else .extraBytes, after, cur.advance bytes.length⟩) ∧
    (15 < tree.depth → (unpackLoop malloc ctx cur).ret = .parseError) := by
  have top : ctx.top = ctx.stack 0 := by rw [Context.top, idle.height]
  have ready : Ready malloc payload ctx cur bytes := by
    refine ⟨?_, ?_, ?_, reads, ⟨rest, unread⟩, short, grants⟩
    · rw [idle.height]
      decide
    · rw [top, idle.status]
    · rw [top, idle.d]
      trivial
  have outcome := spells ctx cur ready
  constructor
  · intro shallow
    obtain ⟨after, parsed, loop⟩ := outcome.fits (by
      rw [idle.height]
      unfold unpackStackDepth
      omega)
    have level : after.stackHeight = 0 := parsed.height.trans idle.height
    have left : (cur.advance bytes.length).unread = rest := by
      rw [Cursor.advance_unread, unread, List.drop_left]
    refine ⟨after, ?_, ?_, ?_⟩
    · have frame := parsed.frame
      rwa [idle.height, top, idle.d] at frame
    · have denotes := parsed.denotes
      rw [top, idle.d] at denotes
      exact denotes.transfer (fun _ _ _ => rfl) (Nat.le_refl _) (Nat.zero_le _)
    · rw [loop, popStack, if_pos level, proceed, Cursor.advance_zero, left]
  · intro deep
    apply outcome.deep
    rw [idle.height]
    unfold unpackStackDepth
    omega

/-- A parser between messages meets a tree. -/
theorem unpackLoop_tree {malloc : Malloc} {payload : ρ → List UInt8} {tree : PackTree}
    {ctx : Context ρ} {cur : Cursor ρ} {rest : List UInt8} (idle : ctx.Idle)
    (reads : cur.Reads payload) (unread : cur.unread = tree.encode ++ rest)
    (short : tree.encode.length < 2 ^ 31)
    (grants : ∀ sz, sz ≤ sizeofObject * tree.encode.length → malloc sz = true) :
    (tree.depth ≤ 15 → ∃ after, (after.stack 0).d = .work ∧
      Denotes payload after.cells 0 after.atWork tree ∧
      unpackLoop malloc ctx cur =
        ⟨if rest = [] then .success else .extraBytes, after, cur.advance tree.encode.length⟩) ∧
    (15 < tree.depth → (unpackLoop malloc ctx cur).ret = .parseError) :=
  unpackLoop_spelled (spells_encode malloc payload tree) idle reads unread short grants

/-- What an operation wrote behind the bytes that are already parsed is the next
thing that `unpack` meets. -/
theorem unpack_written {malloc : Malloc} {op : Packer → Packer × Int} {bytes : List UInt8}
    {tree : PackTree} {pk : Packer} {ctx : Context RawPtr} (writes : Writes op bytes)
    (spells : Spells malloc (payloadOf (op pk).1.pb) bytes tree)
    (idle : ctx.Idle) (start : pk.pb.ofs = pk.pb.last) (written : 0 ≤ (op pk).2)
    (short : bytes.length < 2 ^ 31)
    (grants : ∀ sz, sz ≤ sizeofObject * bytes.length → malloc sz = true) :
    (tree.depth ≤ 15 → ∃ after cur, cur.unread = [] ∧
      Denotes (payloadOf (op pk).1.pb) after.cells 0 after.atWork tree ∧
      unpackLoop malloc ctx (cursorOf (op pk).1.pb) = ⟨.success, after, cur⟩) ∧
    (15 < tree.depth → (unpackLoop malloc ctx (cursorOf (op pk).1.pb)).ret = .parseError) := by
  have buffer : (op pk).1.pb = pk.pb.append bytes := congrArg Packer.pb (writes pk written)
  have unread : (cursorOf (op pk).1.pb).unread = bytes ++ [] := by
    rw [buffer, List.append_nil]
    change (pk.pb.data ++ bytes).drop pk.pb.ofs = bytes
    rw [start]
    exact List.drop_left
  obtain ⟨fits, deep⟩ := unpackLoop_spelled spells idle (cursorOf_reads (op pk).1.pb) unread short
    grants
  refine ⟨?_, deep⟩
  intro shallow
  obtain ⟨after, -, denotes, finish⟩ := fits shallow
  refine ⟨after, _, ?_, denotes, finish⟩
  rw [Cursor.advance_unread, unread, List.append_nil, List.drop_length]

/-- What the push operations wrote is parsed as the tree that was written, if
its containers nest at most 15 deep, and rejected otherwise. -/
theorem unpack_write {malloc : Malloc} {tree : PackTree} {pk : Packer} {ctx : Context RawPtr}
    (idle : ctx.Idle) (start : pk.pb.ofs = pk.pb.last) (written : 0 ≤ (tree.write pk).2)
    (short : tree.encode.length < 2 ^ 31)
    (grants : ∀ sz, sz ≤ sizeofObject * tree.encode.length → malloc sz = true) :
    let pb := (tree.write pk).1.pb
    let result := unpackLoop malloc ctx (cursorOf pb)
    (tree.depth ≤ 15 → result.ret = .success ∧ result.cur.unread = [] ∧
      Denotes (payloadOf pb) result.ctx.cells 0 result.ctx.atWork tree ∧
      ∀ other, Denotes (payloadOf pb) result.ctx.cells 0 result.ctx.atWork other →
        other.widen = tree.widen) ∧
    (15 < tree.depth → result.ret = .parseError) := by
  intro pb result
  obtain ⟨fits, deep⟩ := unpack_written tree.write_writes (spells_encode malloc _ tree) idle start
    written short grants
  refine ⟨?_, deep⟩
  intro shallow
  obtain ⟨after, cur, consumed, denotes, finish⟩ := fits shallow
  have outcome : result = ⟨.success, after, cur⟩ := finish
  rw [outcome]
  exact ⟨rfl, consumed, denotes, fun other same => same.unique denotes⟩

/-- A pair written into an empty buffer of 256 bytes comes back. -/
theorem unpack_write_pair :
    let tree := PackTree.array [.u8 5, .raw [0x61]]
    let pb := (tree.write ⟨⟨some 0, [], 256, 0⟩, 0⟩).1.pb
    let result := unpackLoop (fun _ => true) Context.fresh (cursorOf pb)
    result.ret = .success ∧ Denotes (payloadOf pb) result.ctx.cells 0 result.ctx.atWork tree := by
  intro tree pb result
  have written : 0 ≤ (tree.write ⟨⟨some 0, [], 256, 0⟩, 0⟩).2 := by decide
  obtain ⟨success, -, denotes, -⟩ :=
    (unpack_write fresh_idle rfl written (by decide) fun _ _ => rfl).1 (by decide)
  exact ⟨success, denotes⟩

end Cyue.Mpak
