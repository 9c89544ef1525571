import Cyue.Mpak.Placed

/-!
# The parser as a recursive descent

`descend` says what a message is: a first byte announces a form, and a container is parsed by as many
calls for its elements.  The loop of `unpack` with its explicit stack returns the same for all bytes,
those that are cut, malformed or nested too deep included.
-/

namespace Cyue.Mpak

open Bytes Context

variable {ρ : Type}

/-! ## Forms -/

/-- What a first byte announces: a value, a payload of a known length, a field for the length, or a
container or a payload whose length it holds. -/
inductive Form where
  | whole (s : Scalar)
  | payload (kind : Kind) (len : ℕ)
  | field (kind : Kind) (width : ℕ)
  | container (shape : Shape) (size : ℕ)
  | bad
  deriving DecidableEq

/-- The bytes from `0xc0` to `0xdf`. -/
def tagForm : ℕ → Form
  | 0x00 => .whole .nil
  | 0x01 => .bad
  | 0x02 => .whole (.boolean false)
  | 0x03 => .whole (.boolean true)
  | 0x0a => .payload .double 4
  | 0x0b => .payload .double 8
  | 0x0c => .payload .integer 1
  | 0x0d => .payload .integer 2
  | 0x0e => .payload .integer 4
  | 0x0f => .payload .integer 8
  | 0x10 => .payload .integer 1
  | 0x11 => .payload .integer 2
  | 0x12 => .payload .integer 4
  | 0x13 => .payload .integer 8
  | 0x16 => .field .double 2
  | 0x17 => .field .double 4
  | 0x18 => .field .integer 2
  | 0x19 => .field .integer 4
  | 0x1a => .field .blob 2
  | 0x1b => .field .blob 4
  | 0x1c => .field .array 2
  | 0x1d => .field .array 4
  | 0x1e => .field .map 2
  | 0x1f => .field .map 4
  | _ => .payload .nil 0

def form (b : UInt8) : Form :=
  if b < 0x80 then .whole (.integer b.toUInt64)
  else if b < 0x90 then .container .map (b.toNat - 0x80)
  else if b < 0xa0 then .container .array (b.toNat - 0x90)
  else if b < 0xc0 then .payload .blob (b.toNat - 0xa0)
  else if b < 0xe0 then tagForm (b.toNat - 0xc0)
  else .whole (.integer (UInt64.ofNat (2 ^ 64 - 256 + b.toNat)))

/-! ## The descent -/

/-- Why there is no value; `assertion` as in `Step`. -/
inductive Failure where
  | wait
  | parseError
  | assertion

def Failure.ret : Failure → Ret
  | .wait => .wait
  | .parseError => .parseError
  | .assertion => .assertion

abbrev Parse (α : Type) := StateT (List UInt8) (Except Failure) α

def take (len : ℕ) : Parse (List UInt8) := fun bytes =>
  if bytes.length < len then .error .wait else .ok (bytes.take len, bytes.drop len)

def fail {α : Type} (failure : Failure) : Parse α := fun _ => .error failure

/-- A payload as a value; numbers have the width of a machine word. -/
def scalarOf (kind : Kind) (bytes : List UInt8) : Except Failure Scalar :=
  match kind with
  | .integer =>
      if bytes.length = 1 ∨ bytes.length = 2 ∨ bytes.length = 4 ∨ bytes.length = 8 then
        .ok (.integer (UInt64.ofNat (beNat bytes)))
      else .error .parseError
  | .double =>
      if bytes.length = 8 then .ok (.double (.bits (UInt64.ofNat (beNat bytes))))
      else if bytes.length = 4 then .ok (.double (.single (UInt32.ofNat (beNat bytes))))
      else .error .assertion
  | .blob => .ok (.raw bytes)
  | _ => .error .parseError

def payload (kind : Kind) (len : ℕ) : Parse Value := do
  let bytes ← take len
  match scalarOf kind bytes with
  | .ok s => return .scalar s
  | .error failure => fail failure

def elems (one : Parse Value) : ℕ → Parse (List Value)
  | 0 => return []
  | count + 1 => do
      let value ← one
      let rest ← elems one count
      return value :: rest

/-- A container; without a level for its elements it is nested too deep. -/
def container (malloc : Malloc) (one : Option (Parse Value)) (shape : Shape) (size : ℕ) : Parse Value :=
  if size = 0 then return .container shape []
  else if malloc (sizeofObject * shape.count size) then
    match one with
    | none => fail .parseError
    | some one => do
        let objs ← elems one (shape.count size)
        return .container shape objs
  else fail .parseError

def sized (malloc : Malloc) (one : Option (Parse Value)) (kind : Kind) (len : ℕ) : Parse Value :=
  match kind with
  | .array => container malloc one .array len
  | .map => container malloc one .map len
  | kind => payload kind len

def formed (malloc : Malloc) (one : Option (Parse Value)) : Form → Parse Value
  | .whole s => return .scalar s
  | .payload kind len => payload kind len
  | .field kind width => do
      let len ← take width
      sized malloc one kind (beNat len)
  | .container shape size => container malloc one shape size
  | .bad => fail .parseError

def object (malloc : Malloc) (one : Option (Parse Value)) : Parse Value := fun bytes =>
  match bytes with
  | [] => .error .wait
  | b :: bytes => formed malloc one (form b) bytes

/-- An object with containers inside each other up to the number of levels. -/
def descend (malloc : Malloc) : ℕ → Parse Value
  | 0 => object malloc none
  | levels + 1 => object malloc (some (descend malloc levels))

/-! ## The loop and the forms -/

/-- The object that is written for a scalar, with the pointer for a payload. -/
def Scalar.obj (ptr : ρ) : Scalar → Obj ρ
  | .nil => .nil
  | .boolean value => .boolean value
  | .integer i64 => .integer i64
  | .double dec => .double dec
  | .raw bytes => .raw ptr bytes.length

theorem Scalar.shows_obj {read : ρ → List UInt8} {ptr : ρ} {s : Scalar}
    (leads : ∀ bytes, s = .raw bytes → read ptr = bytes) : s.Shows read (s.obj ptr) := by
  cases s with
  | nil => trivial
  | boolean value => exact rfl
  | integer i64 => exact rfl
  | double dec => exact rfl
  | raw bytes => exact ⟨leads bytes rfl, rfl⟩

/-- What the tests of `unpack` on a first byte tell apart. -/
def tested (b : UInt8) : Form :=
  if b ≤ 0x7f then .whole (.integer b.toUInt64)
  else if b &&& 0xe0 = 0xa0 then .payload .blob (b &&& 0x1f).toNat
  else if b &&& 0xf0 = 0x90 then .container .array (b &&& 0x0f).toNat
  else if b &&& 0xf0 = 0x80 then .container .map (b &&& 0x0f).toNat
  else if b = 0xc0 then .whole .nil
  else if b = 0xc2 then .whole (.boolean false)
  else if b = 0xc3 then .whole (.boolean true)
  else if 0xc4 ≤ b ∧ b ≤ 0xdf then
    let dst := destTable.getD (b &&& 0x1f).toNat (.processData, 0, .nil)
    if dst.1 = .processLength then .field dst.2.2 dst.2.1 else .payload dst.2.2 dst.2.1
  else if 0xe0 ≤ b then .whole (.integer (UInt64.ofNat (2 ^ 64 - 256 + b.toNat)))
  else .bad

theorem tested_table : ∀ n < 256, tested (UInt8.ofNat n) = form (UInt8.ofNat n) := by
  decide +kernel

theorem tested_eq (b : UInt8) : tested b = form b := by
  have same := tested_table b.toNat b.toNat_lt
  rwa [UInt8.ofNat_toNat] at same

/-- No payload is announced as whole, and fields have two or four bytes. -/
def Form.Sane : Form → Bool
  | .whole (.raw _) => false
  | .field _ width => width = 2 ∨ width = 4
  | _ => true

theorem form_sane (b : UInt8) : (form b).Sane = true := by
  have table : ∀ n < 256, (form (UInt8.ofNat n)).Sane = true := by decide +kernel
  have same := table b.toNat b.toNat_lt
  rwa [UInt8.ofNat_toNat] at same

theorem destTable_status (n : ℕ) : let dst := destTable.getD n (.processData, 0, .nil)
    dst.1 = .processLength ∨ dst.1 = .processData := by
  by_cases inside : n < destTable.length
  · have all : ∀ n < destTable.length, (destTable.getD n (.processData, 0, .nil)).1 = .processLength ∨
        (destTable.getD n (.processData, 0, .nil)).1 = .processData := by decide
    exact all n inside
  · have beyond : destTable[n]? = none := List.getElem?_eq_none (not_lt.mp inside)
    dsimp only
    rw [List.getD_eq_getElem?_getD, beyond]
    exact .inr rfl

/-- The turn on a first byte, by its form. -/
theorem stepInitial_form (malloc : Malloc) (ctx : Context ρ) (b : UInt8) (ptr : ρ) :
    stepInitial malloc ctx b = match form b with
      | .whole s => (ctx.write ctx.top.d (s.obj ptr)).popStack 1
      | .payload kind len => .go (ctx.setTop
          { ctx.top with status := .processData, requireLen := len, requireType := kind }) 1
      | .field kind width => .go (ctx.setTop
          { ctx.top with status := .processLength, requireLen := width, requireType := kind }) 1
      | .container shape size => lengthCheck malloc (ctx.setTop
          { ctx.top with requireLen := size, requireType := shape.kind }) 1
      | .bad => .error ctx 1 := by
  rw [← tested_eq]
  unfold stepInitial tested
  dsimp only
  split_ifs with _ _ _ _ _ _ _ _ length
  case pos => rfl
  case pos => rfl
  case pos => rfl
  case pos => rfl
  case pos => rfl
  case pos => rfl
  case pos => rfl
  case pos => rw [length]
  case neg =>
      have data := (destTable_status (b &&& 0x1f).toNat).resolve_left length
      rw [data]
  case pos => rfl
  case neg => rfl

/-! ## Outcomes -/

/-- The result of the loop is what the descent makes of the unread bytes. -/
def Ends (malloc : Malloc) (read : ρ → List UInt8) (ctx : Context ρ) (cur : Cursor ρ) (result : Result ρ) :
    Except Failure (Value × List UInt8) → Prop
  | .ok (value, rest) => ∃ after used, used ≤ cur.unread.length ∧ rest = cur.unread.drop used ∧
      Placed read value ctx after ∧ result = proceed malloc (cur.advance used) (after.popStack 0)
  | .error failure => result.ret = failure.ret

variable {malloc : Malloc} {read : ρ → List UInt8} {ctx : Context ρ} {cur : Cursor ρ} {result : Result ρ}
  {outcome : Except Failure (Value × List UInt8)}

theorem Ends.behind {used : ℕ} (inside : used ≤ cur.unread.length)
    (ends : Ends malloc read ctx (cur.advance used) result outcome) :
    Ends malloc read ctx cur result outcome := by
  cases outcome with
  | error failure => exact ends
  | ok found =>
      obtain ⟨after, more, within, rest, placed, same⟩ := ends
      rw [Cursor.advance_unread, List.length_drop] at within
      rw [Cursor.advance_unread, List.drop_drop] at rest
      exact ⟨after, used + more, by omega, rest, placed, same.trans (by rw [Cursor.advance_advance])⟩

theorem Ends.of_setTop {frame : StackMem} (same : frame.d = ctx.top.d)
    (ends : Ends malloc read (ctx.setTop frame) cur result outcome) :
    Ends malloc read ctx cur result outcome := by
  cases outcome with
  | error failure => exact ends
  | ok found =>
      obtain ⟨after, used, within, rest, placed, loop⟩ := ends
      exact ⟨after, used, within, rest, placed.of_setTop same, loop⟩

/-- The turn on a payload that is there. -/
theorem stepData_scalar (enough : ctx.top.requireLen ≤ cur.unread.length) :
    stepData ctx cur = match scalarOf ctx.top.requireType (cur.unread.take ctx.top.requireLen) with
      | .ok s => (ctx.write ctx.top.d (s.obj (cur.curP ctx.top.requireLen))).popStack ctx.top.requireLen
      | .error .assertion => .assertion ctx 0
      | .error _ => .error ctx 0 := by
  have length : (cur.unread.take ctx.top.requireLen).length = ctx.top.requireLen :=
    List.length_take_of_le enough
  unfold stepData scalarOf
  dsimp only
  rw [if_neg (not_lt.mpr enough), length]
  cases ctx.top.requireType with
  | integer =>
      dsimp only
      split_ifs
      · rfl
      · rfl
  | double =>
      dsimp only
      split_ifs
      · rfl
      · rfl
      · rfl
  | blob =>
      change _ = (ctx.write ctx.top.d (.raw (cur.curP ctx.top.requireLen)
        (cur.unread.take ctx.top.requireLen).length)).popStack ctx.top.requireLen
      rw [length]
  | nil | boolean | array | map => rfl

theorem scalarOf_raw {kind : Kind} {bytes bytes' : List UInt8} (raw : scalarOf kind bytes = .ok (.raw bytes')) :
    bytes = bytes' := by
  unfold scalarOf at raw
  split at raw
  · split at raw <;> cases raw
  · split_ifs at raw
    all_goals cases raw
  · cases raw
    rfl
  · cases raw

theorem scalarOf_failure {kind : Kind} {bytes : List UInt8} {failure : Failure}
    (failed : scalarOf kind bytes = .error failure) : failure = .parseError ∨ failure = .assertion := by
  unfold scalarOf at failed
  split at failed
  · split at failed
    · cases failed
    · cases failed
      exact .inl rfl
  · split_ifs at failed
    cases failed
    exact .inr rfl
  · cases failed
  · cases failed
    exact .inl rfl

theorem payload_eq (kind : Kind) (len : ℕ) (bytes : List UInt8) :
    payload kind len bytes = if bytes.length < len then .error .wait
      else match scalarOf kind (bytes.take len) with
        | .ok s => .ok (.scalar s, bytes.drop len)
        | .error failure => .error failure := by
  unfold payload take
  change Except.bind (if bytes.length < len then _ else _) _ = _
  split
  · rfl
  · change (match scalarOf kind (bytes.take len) with
      | .ok s => (pure (.scalar s) : Parse Value)
      | .error failure => fail failure) (bytes.drop len) = _
    cases scalarOf kind (bytes.take len) <;> rfl

/-- A payload is parsed in one turn, or waits. -/
theorem payload_ends (status : ctx.top.status = .processData) (live : ctx.Live ctx.top.d)
    (reads : cur.Reads read) : Ends malloc read ctx cur (unpackLoop malloc ctx cur)
      (payload ctx.top.requireType ctx.top.requireLen cur.unread) := by
  have turn : unpackLoop malloc ctx cur = proceed malloc cur (stepData ctx cur) := by
    rw [unpackLoop_eq, unpackStep, status]
  rw [turn, payload_eq]
  split
  case isTrue short =>
      have waits : stepData ctx cur = .wait ctx := if_pos short
      rw [waits]
      rfl
  case isFalse long =>
      have enough := not_lt.mp long
      rw [stepData_scalar enough]
      cases found : scalarOf ctx.top.requireType (cur.unread.take ctx.top.requireLen) with
      | ok s =>
          have shows : s.Shows read (s.obj (cur.curP ctx.top.requireLen)) := by
            refine Scalar.shows_obj fun bytes raw => ?_
            rw [raw] at found
            rw [← scalarOf_raw found, Cursor.curP, reads 0 _ (by omega), List.drop_zero]
          exact ⟨_, ctx.top.requireLen, enough, rfl, placed_write live shows, proceed_popStack ..⟩
      | error failure =>
          rcases scalarOf_failure found with rfl | rfl
          · rfl
          · rfl

/-! ## Containers -/

/-- The elements of a container that is on the stack at `level` are parsed as `one` says, if another level
is left. -/
def Obeys (malloc : Malloc) (read : ρ → List UInt8) (level : ℕ) : Option (Parse Value) → Prop
  | none => unpackStackDepth ≤ level + 1
  | some one => level + 1 < unpackStackDepth ∧ ∀ (ctx : Context ρ) (cur : Cursor ρ),
      ctx.stackHeight = level + 1 → ctx.top.status = .initial → ctx.Live ctx.top.d → cur.Reads read →
        Ends malloc read ctx cur (unpackLoop malloc ctx cur) (one cur.unread)

theorem elems_succ (one : Parse Value) (count : ℕ) (bytes : List UInt8) :
    elems one (count + 1) bytes = match one bytes with
      | .error failure => .error failure
      | .ok (value, rest) => match elems one count rest with
          | .error failure => .error failure
          | .ok (objs, rest) => .ok (value :: objs, rest) := by
  rw [elems]
  change Except.bind (one bytes) _ = _
  cases one bytes with
  | error failure => rfl
  | ok found =>
      change Except.bind (elems one count found.2) _ = _
      dsimp only
      cases elems one count found.2 <;> rfl

/-- The result of the loop within a container is what the descent makes of the elements that are left. -/
def ElemsEnd (malloc : Malloc) (read : ρ → List UInt8) (ptr index level count : ℕ) (ctx : Context ρ)
    (cur : Cursor ρ) (result : Result ρ) : Except Failure (List Value × List UInt8) → Prop
  | .ok (objs, rest) => objs.length = count ∧ ∃ after used, used ≤ cur.unread.length ∧
      rest = cur.unread.drop used ∧ PlacedElems read objs ptr index level ctx after ∧
      result = proceed malloc (cur.advance used) (after.popStack 0)
  | .error failure => result.ret = failure.ret

theorem elems_end {shape : Shape} {size ptr index level count : ℕ} {slot : Slot} {one : Parse Value}
    (obeys : Obeys malloc read level (some one)) (left : index + (count + 1) = shape.count size)
    (inside : Inside shape size ptr index level slot ctx) (status : ctx.top.status = .initial)
    (reads : cur.Reads read) : ElemsEnd malloc read ptr index level (count + 1) ctx cur
      (unpackLoop malloc ctx cur) (elems one (count + 1) cur.unread) := by
  induction count generalizing index ctx cur with
  | zero =>
      have live : ctx.Live ctx.top.d := by
        rw [inside.current]
        exact Nat.lt_of_lt_of_le (Nat.add_lt_add_left inside.bound ptr) inside.room
      have first := obeys.2 ctx cur inside.height status live reads
      rw [elems_succ]
      cases found : one cur.unread with
      | error failure =>
          rw [found] at first
          exact first
      | ok found' =>
          obtain ⟨value, rest⟩ := found'
          rw [found] at first
          obtain ⟨middle, used, within, behind, placed, loop⟩ := first
          obtain ⟨frame, parent, -, last⟩ := proceed_placed malloc inside placed (cur.advance used)
          refine ⟨rfl, middle.leave level frame, used, within, behind,
            placed.last inside.height inside.current (parent.trans inside.parent.symm), ?_⟩
          exact loop.trans (last left)
  | succ count ih =>
      have live : ctx.Live ctx.top.d := by
        rw [inside.current]
        exact Nat.lt_of_lt_of_le (Nat.add_lt_add_left inside.bound ptr) inside.room
      have first := obeys.2 ctx cur inside.height status live reads
      rw [elems_succ]
      cases found : one cur.unread with
      | error failure =>
          rw [found] at first
          exact first
      | ok found' =>
          obtain ⟨value, rest⟩ := found'
          rw [found] at first
          obtain ⟨middle, used, within, rfl, placed, loop⟩ := first
          obtain ⟨frame, parent, more, -⟩ := proceed_placed malloc inside placed (cur.advance used)
          have bound : index + 1 < shape.count size := by omega
          obtain ⟨waits, next⟩ := more bound
          have room : (middle.leave level frame).stackHeight + 1 < unpackStackDepth := obeys.1
          rw [pushStack_enter room, proceed_go, Cursor.advance_zero] at next
          have rest : ElemsEnd malloc read ptr (index + 1) level (count + 1) _ (cur.advance used) _ _ :=
            ih (by omega) (inside.placed placed parent waits bound) (enter_top_status _ _)
              (reads.advance within)
          rw [Cursor.advance_unread, ← next, ← loop] at rest
          dsimp only
          cases found : elems one (count + 1) (cur.unread.drop used) with
          | error failure =>
              rw [found] at rest
              exact rest
          | ok found' =>
              obtain ⟨objs, rest'⟩ := found'
              rw [found] at rest
              obtain ⟨length, after, more, within', behind, others, finish⟩ := rest
              rw [Cursor.advance_unread, List.length_drop] at within'
              rw [Cursor.advance_unread, List.drop_drop] at behind
              refine ⟨congrArg (· + 1) length, after, used + more, by omega, behind, ?_, ?_⟩
              · refine placed.cons inside.height inside.current ?_ (parent.trans inside.parent.symm) _ others
                rw [length, left]
                exact inside.room
              · rw [finish, Cursor.advance_advance]

/-- Where an element of a container ends, the container may be left. -/
theorem container_eq (one : Option (Parse Value)) (shape : Shape) (size : ℕ) (bytes : List UInt8) :
    container malloc one shape size bytes =
      if size = 0 then .ok (.container shape [], bytes)
      else if malloc (sizeofObject * shape.count size) then
        match one with
        | none => .error .parseError
        | some one => match elems one (shape.count size) bytes with
            | .error failure => .error failure
            | .ok (objs, rest) => .ok (.container shape objs, rest)
      else .error .parseError := by
  unfold container
  split_ifs
  · rfl
  · cases one with
    | none => rfl
    | some one =>
        change Except.bind (elems one (shape.count size) bytes) _ = _
        dsimp only
        cases elems one (shape.count size) bytes <;> rfl
  · rfl

/-- `l_length_check` without memory. -/
theorem lengthCheck_refused {shape : Shape} {size : ℕ} (len : ctx.top.requireLen = size)
    (kind : ctx.top.requireType = shape.kind) (some : size ≠ 0)
    (refused : ¬ malloc (sizeofObject * shape.count size) = true) :
    (proceed malloc cur (lengthCheck malloc ctx 0)).ret = .parseError := by
  cases shape with
  | array =>
      have none : ¬ malloc (size * sizeofObject) = true := by
        rw [Nat.mul_comm]
        exact refused
      simp [lengthCheck, kind, Shape.kind, len, initArray, some, none, proceed]
  | map =>
      have same : size * (2 * sizeofObject) = sizeofObject * (2 * size) := by
        rw [Nat.mul_comm 2 sizeofObject, Nat.mul_left_comm, Nat.mul_comm size 2]
      have none : ¬ malloc (size * (2 * sizeofObject)) = true := by
        rw [same]
        exact refused
      simp [lengthCheck, kind, Shape.kind, len, initMap, some, none, proceed]

theorem container_ends {shape : Shape} {one : Option (Parse Value)} (obeys : Obeys malloc read ctx.stackHeight one)
    (kind : ctx.top.requireType = shape.kind) (live : ctx.Live ctx.top.d) (reads : cur.Reads read) :
    Ends malloc read ctx cur (proceed malloc cur (lengthCheck malloc ctx 0))
      (container malloc one shape ctx.top.requireLen cur.unread) := by
  generalize len : ctx.top.requireLen = size
  rw [container_eq]
  split_ifs with empty granted
  · subst empty
    rw [lengthCheck_empty malloc shape len kind]
    refine ⟨ctx.write ctx.top.d (shape.obj 0 0), 0, Nat.zero_le _, rfl, ?_, by rw [Cursor.advance_zero]⟩
    have zero : shape.count 0 = 0 := by cases shape <;> rfl
    refine ⟨write_stackHeight .., by rw [write_stack]; rfl, Kept.write ctx _ rfl, ?_⟩
    rw [read_write_same live]
    exact .container shape [] 0 0 zero.symm (absurd rfl) (Nat.zero_le _) nofun
  · have pos : 0 < size := Nat.pos_of_ne_zero empty
    have some : 0 < shape.count size := by
      cases shape <;> simp only [Shape.count] <;> omega
    obtain ⟨parent, own, waits, start⟩ := lengthCheck_start shape len kind pos live granted
    have height : (((ctx.extend (shape.count size)).write ctx.top.d
        (shape.obj size ctx.cells.length)).setTop parent).stackHeight = ctx.stackHeight := by
      rw [setTop_stackHeight, write_stackHeight, extend_stackHeight]
    rw [start]
    cases one with
    | none => exact pushStack_deep (by rw [height]; exact obeys) _ _ _
    | some one =>
        have room := obeys.1
        rw [pushStack_enter (by rw [height]; exact room), proceed_go, Cursor.advance_zero]
        have inside : Inside shape size _ _ _ _ _ := Inside.start parent own waits live some
        obtain ⟨count, whole⟩ : ∃ count, shape.count size = count + 1 := ⟨_, (Nat.succ_pred_eq_of_pos some).symm⟩
        have parsed := elems_end obeys (by rw [Nat.zero_add]; exact whole.symm) inside (enter_top_status _ _) reads
        rw [← whole] at parsed
        dsimp only
        cases found : elems one (shape.count size) cur.unread with
        | error failure =>
            rw [found] at parsed
            exact parsed
        | ok found' =>
            obtain ⟨objs, rest⟩ := found'
            rw [found] at parsed
            obtain ⟨length, after, used, within, behind, elems, loop⟩ := parsed
            refine ⟨after, used, within, behind, elems.container live ?_ inside length, loop⟩
            have written : Kept ctx.stackHeight (fun slot => slot = ctx.top.d) (ctx.extend (shape.count size))
                ((ctx.extend (shape.count size)).write ctx.top.d (shape.obj size ctx.cells.length)) :=
              Kept.write _ _ rfl
            refine (Kept.extend ctx (shape.count size)).trans (written.trans
              ((Kept.setTop _ parent ?_).trans (Kept.enter _ _ ?_)))
            · rw [write_stackHeight, extend_stackHeight]
            · rw [height]
              exact Nat.le_succ _
  · exact lengthCheck_refused len kind empty granted

/-- An object whose length is known, at `l_length_check`. -/
theorem sized_ends {one : Option (Parse Value)} (obeys : Obeys malloc read ctx.stackHeight one)
    (live : ctx.Live ctx.top.d) (reads : cur.Reads read) :
    Ends malloc read ctx cur (proceed malloc cur (lengthCheck malloc ctx 0))
      (sized malloc one ctx.top.requireType ctx.top.requireLen cur.unread) := by
  have data : ∀ kind, ctx.top.requireType = kind →
      lengthCheck malloc ctx 0 = .go (ctx.setTop { ctx.top with status := .processData }) 0 →
      Ends malloc read ctx cur (proceed malloc cur (lengthCheck malloc ctx 0))
        (payload kind ctx.top.requireLen cur.unread) := by
    intro kind type go
    rw [go, proceed_go, Cursor.advance_zero]
    have parsed : Ends malloc read (ctx.setTop { ctx.top with status := .processData }) cur _ _ :=
      payload_ends (by rw [setTop_top]) (by rw [setTop_top]; exact live.grow le_rfl) reads
    rw [setTop_top] at parsed
    subst type
    exact Ends.of_setTop (rfl : ({ ctx.top with status := .processData } : StackMem).d = ctx.top.d) parsed
  cases type : ctx.top.requireType with
  | array => exact container_ends obeys type live reads
  | map => exact container_ends obeys type live reads
  | nil | boolean | integer | double | blob =>
      refine data _ type ?_
      unfold lengthCheck
      dsimp only
      rw [type]

/-! ## Objects -/

/-- A length field, and what it gives the length of. -/
theorem field_ends {one : Option (Parse Value)} (obeys : Obeys malloc read ctx.stackHeight one)
    (status : ctx.top.status = .processLength) (known : ctx.top.requireLen = 2 ∨ ctx.top.requireLen = 4)
    (live : ctx.Live ctx.top.d) (reads : cur.Reads read) :
    Ends malloc read ctx cur (unpackLoop malloc ctx cur)
      (formed malloc one (.field ctx.top.requireType ctx.top.requireLen) cur.unread) := by
  have turn : unpackLoop malloc ctx cur = proceed malloc cur (stepLength malloc ctx cur) := by
    rw [unpackLoop_eq, unpackStep, status]
  have bind : formed malloc one (.field ctx.top.requireType ctx.top.requireLen) cur.unread =
      if cur.unread.length < ctx.top.requireLen then .error .wait
      else sized malloc one ctx.top.requireType (beNat (cur.unread.take ctx.top.requireLen))
        (cur.unread.drop ctx.top.requireLen) := by
    unfold formed take
    change Except.bind (if cur.unread.length < ctx.top.requireLen then _ else _) _ = _
    split <;> rfl
  rw [turn, bind]
  unfold stepLength
  dsimp only
  split
  · rfl
  case isFalse long =>
      have width : ctx.top.requireLen = 1 ∨ ctx.top.requireLen = 2 ∨ ctx.top.requireLen = 4 ∨
          ctx.top.requireLen = 8 := by omega
      have enough := not_lt.mp long
      rw [if_pos width, proceed_lengthCheck, ← Cursor.advance_unread]
      refine Ends.behind enough ?_
      have parsed : Ends malloc read (ctx.setTop
          { ctx.top with requireLen := beNat (cur.unread.take ctx.top.requireLen) }) _ _ _ :=
        sized_ends obeys (by rw [setTop_top]; exact live.grow le_rfl) (reads.advance enough)
      rw [setTop_top] at parsed
      exact Ends.of_setTop (rfl : ({ ctx.top with
        requireLen := beNat (cur.unread.take ctx.top.requireLen) } : StackMem).d = ctx.top.d) parsed

theorem object_ends {one : Option (Parse Value)} (obeys : Obeys malloc read ctx.stackHeight one)
    (status : ctx.top.status = .initial) (live : ctx.Live ctx.top.d) (reads : cur.Reads read) :
    Ends malloc read ctx cur (unpackLoop malloc ctx cur) (object malloc one cur.unread) := by
  rw [unpackLoop_eq, unpackStep, status]
  dsimp only
  unfold object
  cases unread : cur.unread with
  | nil => rfl
  | cons b bytes =>
      have some : 1 ≤ cur.unread.length := by
        rw [unread]
        exact Nat.succ_pos _
      have behind : (cur.advance 1).unread = bytes := by
        rw [Cursor.advance_unread, unread]
        rfl
      have reads' := reads.advance some
      have sane := form_sane b
      have own : ∀ frame : StackMem, frame.d = ctx.top.d →
          (ctx.setTop frame).Live (ctx.setTop frame).top.d := by
        intro frame same
        rw [setTop_top, same]
        exact live.grow le_rfl
      dsimp only
      rw [stepInitial_form malloc ctx b (cur.curP 0), ← behind]
      refine Ends.behind some ?_
      cases announced : form b with
      | whole s =>
          rw [announced] at sane
          have shows : s.Shows read (s.obj (cur.curP 0)) := by
            refine Scalar.shows_obj fun bytes raw => ?_
            rw [raw] at sane
            cases sane
          dsimp only
          rw [proceed_popStack]
          exact ⟨_, 0, Nat.zero_le _, rfl, placed_write live shows, by rw [Cursor.advance_zero]⟩
      | payload kind len =>
          have parsed : Ends malloc read (ctx.setTop
              { ctx.top with status := .processData, requireLen := len, requireType := kind }) (cur.advance 1) _ _ :=
            payload_ends (by rw [setTop_top]) (own _ rfl) reads'
          rw [setTop_top] at parsed
          exact Ends.of_setTop (rfl : ({ ctx.top with
            status := .processData, requireLen := len, requireType := kind } : StackMem).d = ctx.top.d) parsed
      | field kind width =>
          rw [announced] at sane
          have known : width = 2 ∨ width = 4 := of_decide_eq_true sane
          have parsed : Ends malloc read (ctx.setTop
              { ctx.top with status := .processLength, requireLen := width, requireType := kind })
              (cur.advance 1) _ _ :=
            field_ends obeys (by rw [setTop_top]) (by rw [setTop_top]; exact known) (own _ rfl) reads'
          rw [setTop_top] at parsed
          exact Ends.of_setTop (rfl : ({ ctx.top with
            status := .processLength, requireLen := width, requireType := kind } : StackMem).d = ctx.top.d) parsed
      | container shape size =>
          have parsed : Ends malloc read (ctx.setTop
              { ctx.top with requireLen := size, requireType := shape.kind }) (cur.advance 1) _ _ :=
            container_ends obeys (by rw [setTop_top]) (own _ rfl) reads'
          rw [setTop_top] at parsed
          dsimp only
          rw [proceed_lengthCheck]
          exact Ends.of_setTop (rfl : ({ ctx.top with
            requireLen := size, requireType := shape.kind } : StackMem).d = ctx.top.d) parsed
      | bad => rfl

/-- By induction on the levels that are left. -/
theorem descend_ends {levels : ℕ} (left : ctx.stackHeight + levels + 1 = unpackStackDepth)
    (status : ctx.top.status = .initial) (live : ctx.Live ctx.top.d) (reads : cur.Reads read) :
    Ends malloc read ctx cur (unpackLoop malloc ctx cur) (descend malloc levels cur.unread) := by
  induction levels generalizing ctx cur with
  | zero => exact object_ends (show Obeys malloc read ctx.stackHeight none from left.symm.le) status live reads
  | succ levels ih =>
      have obeys : Obeys malloc read ctx.stackHeight (some (descend malloc levels)) :=
        ⟨by omega, fun inner cur' height status' live' reads' => ih (by omega) status' live' reads'⟩
      exact object_ends obeys status live reads

/-- For all bytes, the loop with its explicit stack returns what the recursive descent does: with the same
value and the same bytes left over, or with the same failure. -/
theorem unpack_descends {malloc : Malloc} {ctx : Context RawPtr} (idle : ctx.Idle) (pb : Pbuf) :
    let result := unpackLoop malloc ctx (cursorOf pb)
    match descend malloc 15 pb.unread with
    | .ok (value, rest) => result.ret = (if rest = [] then .success else .extraBytes) ∧
        result.cur.unread = rest ∧
        ∀ other, Stands (payloadOf pb) result.ctx.cells 0 result.ctx.atWork other ↔ other = value
    | .error failure => result.ret = failure.ret := by
  have top : ctx.top = ctx.stack 0 := by rw [Context.top, idle.height]
  have ends : Ends malloc (payloadOf pb) ctx (cursorOf pb) _ (descend malloc 15 pb.unread) :=
    descend_ends (by rw [idle.height]; rfl) (by rw [top, idle.status]) (by rw [top, idle.d]; trivial)
      (cursorOf_reads pb)
  dsimp only
  cases parsed : descend malloc 15 pb.unread with
  | error failure =>
      rw [parsed] at ends
      exact ends
  | ok found =>
      obtain ⟨value, rest⟩ := found
      rw [parsed] at ends
      obtain ⟨after, used, within, rfl, placed, loop⟩ := ends
      have height : after.stackHeight = 0 := placed.height.trans idle.height
      have done : after.popStack 0 = .done after 0 := if_pos height
      rw [done, proceed, Cursor.advance_zero] at loop
      have stands := placed.stands
      rw [top, idle.d] at stands
      rw [loop]
      refine ⟨rfl, rfl, fun other => ⟨fun also => also.unique stands, ?_⟩⟩
      rintro rfl
      exact stands.transfer (fun _ _ _ => rfl) le_rfl (Nat.zero_le _)

set_option maxRecDepth 4000 in
/-- A map of a number to a short float and of a string to an empty array, in front of another byte. -/
theorem unpack_descends_nested :
    let pb : Pbuf := ⟨some 0, [0x82, 0x01, 0xca, 0x3f, 0x80, 0, 0, 0xa1, 0x61, 0xdc, 0, 0, 0xff], 256, 0⟩
    let result := unpackLoop (fun _ => true) .fresh (cursorOf pb)
    result.ret = .extraBytes ∧ result.cur.unread = [0xff] ∧
      ∀ other, Stands (payloadOf pb) result.ctx.cells 0 result.ctx.atWork other ↔
        other = .container .map [.scalar (.integer 1), .scalar (.double (.single 0x3f800000)),
          .scalar (.raw [0x61]), .container .array []] := by
  intro pb
  have descends := @unpack_descends (fun _ => true) _ fresh_idle pb
  have parsed : descend (fun _ => true) 15 pb.unread = .ok (.container .map [.scalar (.integer 1),
      .scalar (.double (.single 0x3f800000)), .scalar (.raw [0x61]), .container .array []], [0xff]) := rfl
  rw [parsed] at descends
  exact descends

end Cyue.Mpak
