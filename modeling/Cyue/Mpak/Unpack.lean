import Cyue.Mpak.Object
import Cyue.Util.Pbuf

/-!
# The mpak parser

`mpak::unpack` is a loop over an explicit stack of frames.  `unpackStep` is one
turn of that loop and `unpackLoop` the loop.  The parser sees the `pbuf` only
through its unread bytes and the pointer it takes for a zero-copy payload, so
both are gathered in a `Cursor`; a step reports how many bytes it consumed.
-/

namespace Cyue.Mpak

open Bytes

variable {ρ : Type}

/-- What `unpack` uses of the `pbuf`: the bytes from `cur_p()` to `last_p()`,
and the payload pointer to `cur_p() + offset` of a given length. -/
structure Cursor (ρ : Type) where
  unread : List UInt8
  rawAt : Nat → Nat → ρ

namespace Cursor

/-- `cur_p()`, taken as the payload of the given length. -/
def curP (cur : Cursor ρ) (len : Nat) : ρ := cur.rawAt 0 len

/-- `add_parsed_ofs`. -/
def advance (cur : Cursor ρ) (used : Nat) : Cursor ρ where
  unread := cur.unread.drop used
  rawAt offset len := cur.rawAt (used + offset) len

@[simp] theorem advance_unread (cur : Cursor ρ) (used : Nat) :
    (cur.advance used).unread = cur.unread.drop used := rfl

@[simp] theorem advance_zero (cur : Cursor ρ) : cur.advance 0 = cur := by
  simp [advance]

theorem advance_advance (cur : Cursor ρ) (first second : Nat) :
    (cur.advance first).advance second = cur.advance (first + second) := by
  simp [advance, Nat.add_assoc]

end Cursor

/-- How one turn of the loop of `unpack` ends.  `go` is `continue`, `wait` is
`l_wait_next_buffer`, `done` is `l_popstack` at height zero and `error` a
`return UNPACK_PARSE_ERROR` (each of which an `ASSERT(false)` precedes).
`assertion` is any other failed `ASSERT`, where a release build would go on
with data that the assertion rules out. -/
inductive Step (ρ : Type) where
  | go (ctx : Context ρ) (used : Nat)
  | wait (ctx : Context ρ)
  | done (ctx : Context ρ) (used : Nat)
  | error (ctx : Context ρ) (used : Nat)
  | assertion (ctx : Context ρ) (used : Nat)

/-- `malloc` answers whether the heap grants an allocation of that many bytes. -/
abbrev Malloc := Nat → Bool

def sizeofObject : Nat := 24

namespace Context

/-- `data::init_array`, with `none` for `NBR_EMALLOC`. -/
def initArray (malloc : Malloc) (ctx : Context ρ) (d : Slot) (sz : Nat) : Option (Context ρ) :=
  if sz = 0 then some (ctx.write d (.array 0 0))
  else if malloc (sz * sizeofObject) then
    some ({ ctx with cells := ctx.cells ++ List.replicate sz Obj.uninit }.write d
      (.array sz ctx.cells.length))
  else none

/-- `data::init_map`; an entry is a key object followed by a value object. -/
def initMap (malloc : Malloc) (ctx : Context ρ) (d : Slot) (sz : Nat) : Option (Context ρ) :=
  if sz = 0 then some (ctx.write d (.map 0 0))
  else if malloc (sz * (2 * sizeofObject)) then
    some ({ ctx with cells := ctx.cells ++ List.replicate (2 * sz) Obj.uninit }.write d
      (.map sz ctx.cells.length))
  else none

/-- `data::elem_new`, with `none` where its assertion fails. -/
def elemNew (ctx : Context ρ) (d : Slot) (idx : Nat) : Option Slot :=
  match ctx.read d with
  | .array size ptr => if idx < size then some (.cell (ptr + idx)) else none
  | _ => none

def keyNew (ctx : Context ρ) (d : Slot) (idx : Nat) : Option Slot :=
  match ctx.read d with
  | .map size ptr => if idx < size then some (.cell (ptr + 2 * idx)) else none
  | _ => none

def valNew (ctx : Context ρ) (d : Slot) (idx : Nat) : Option Slot :=
  match ctx.read d with
  | .map size ptr => if idx < size then some (.cell (ptr + 2 * idx + 1)) else none
  | _ => none

/-- `l_pushstack`, for the object the source has put in `obj`. -/
def pushStack (ctx : Context ρ) (obj : Option Slot) (used : Nat) : Step ρ :=
  match obj with
  | none => .assertion ctx used
  | some slot =>
      let ctx := { ctx with stackHeight := ctx.stackHeight + 1 }
      if unpackStackDepth ≤ ctx.stackHeight then .error ctx used
      else .go (ctx.setTop { ctx.top with d := slot, status := .initial }) used

def popStack (ctx : Context ρ) (used : Nat) : Step ρ :=
  if ctx.stackHeight = 0 then .done ctx used
  else
    let ctx := { ctx with stackHeight := ctx.stackHeight - 1 }
    if ctx.top.status = .initial then .assertion ctx used else .go ctx used

end Context

open Context

/-- The 32 entries `{ status_to, rlen, rtype }` for the tags `0xc0` to `0xdf`. -/
def destTable : List (ParseState × Nat × Kind) :=
  [(.processData, 0, .nil), (.processData, 0, .nil),
   (.processData, 0, .nil), (.processData, 0, .nil),
   (.processData, 0, .nil), (.processData, 0, .nil),
   (.processData, 0, .nil), (.processData, 0, .nil),
   (.processData, 0, .nil), (.processData, 0, .nil),
   (.processData, 4, .double), (.processData, 8, .double),
   (.processData, 1, .integer), (.processData, 2, .integer),
   (.processData, 4, .integer), (.processData, 8, .integer),
   (.processData, 1, .integer), (.processData, 2, .integer),
   (.processData, 4, .integer), (.processData, 8, .integer),
   (.processData, 0, .nil), (.processData, 0, .nil),
   (.processLength, 2, .double), (.processLength, 4, .double),
   (.processLength, 2, .integer), (.processLength, 4, .integer),
   (.processLength, 2, .blob), (.processLength, 4, .blob),
   (.processLength, 2, .array), (.processLength, 4, .array),
   (.processLength, 2, .map), (.processLength, 4, .map)]

/-- `l_length_check`: start a container, or go on to the payload. -/
def lengthCheck (malloc : Malloc) (ctx : Context ρ) (used : Nat) : Step ρ :=
  let sp := ctx.top
  match sp.requireType with
  | .array =>
      match ctx.initArray malloc sp.d sp.requireLen with
      | none => .error ctx used
      | some ctx =>
          if sp.requireLen = 0 then ctx.popStack used
          else
            let ctx := ctx.setTop { sp with status := .processArray, nPopObj := 0 }
            ctx.pushStack (ctx.elemNew sp.d 0) used
  | .map =>
      match ctx.initMap malloc sp.d sp.requireLen with
      | none => .error ctx used
      | some ctx =>
          if sp.requireLen = 0 then ctx.popStack used
          else
            let ctx := ctx.setTop { sp with status := .processMap, nPopObj := 0 }
            ctx.pushStack (ctx.keyNew sp.d 0) used
  | _ => .go (ctx.setTop { sp with status := .processData }) used

/-- `case context::INITIAL`, on the popped byte. -/
def stepInitial (malloc : Malloc) (ctx : Context ρ) (b : UInt8) : Step ρ :=
  let sp := ctx.top
  if b ≤ 0x7f then (ctx.write sp.d (.integer b.toUInt64)).popStack 1
  else if b &&& 0xe0 = 0xa0 then
    .go (ctx.setTop { sp with requireLen := (b &&& 0x1f).toNat, status := .processData,
                              requireType := .blob }) 1
  else if b &&& 0xf0 = 0x90 then
    lengthCheck malloc
      (ctx.setTop { sp with requireLen := (b &&& 0x0f).toNat, requireType := .array }) 1
  else if b &&& 0xf0 = 0x80 then
    lengthCheck malloc
      (ctx.setTop { sp with requireLen := (b &&& 0x0f).toNat, requireType := .map }) 1
  else if b = 0xc0 then (ctx.write sp.d .nil).popStack 1
  else if b = 0xc2 then (ctx.write sp.d (.boolean false)).popStack 1
  else if b = 0xc3 then (ctx.write sp.d (.boolean true)).popStack 1
  else if 0xc4 ≤ b ∧ b ≤ 0xdf then
    let dst := destTable.getD (b &&& 0x1f).toNat (.processData, 0, .nil)
    .go (ctx.setTop { sp with status := dst.1, requireLen := dst.2.1,
                              requireType := dst.2.2 }) 1
  -- a negative fixnum is sign-extended through `S8`
  else if 0xe0 ≤ b then
    (ctx.write sp.d (.integer (UInt64.ofNat (2 ^ 64 - 256 + b.toNat)))).popStack 1
  else .error ctx 1

def stepLength (malloc : Malloc) (ctx : Context ρ) (cur : Cursor ρ) : Step ρ :=
  let sp := ctx.top
  if cur.unread.length < sp.requireLen then .wait ctx
  else
    let tmp := sp.requireLen
    let len := if tmp = 1 ∨ tmp = 2 ∨ tmp = 4 ∨ tmp = 8 then beNat (cur.unread.take tmp) else tmp
    lengthCheck malloc (ctx.setTop { sp with requireLen := len }) tmp

def stepData (ctx : Context ρ) (cur : Cursor ρ) : Step ρ :=
  let sp := ctx.top
  if cur.unread.length < sp.requireLen then .wait ctx
  else
    let payload := cur.unread.take sp.requireLen
    match sp.requireType with
    | .integer =>
        if sp.requireLen = 1 ∨ sp.requireLen = 2 ∨ sp.requireLen = 4 ∨ sp.requireLen = 8 then
          (ctx.write sp.d (.integer (UInt64.ofNat (beNat payload)))).popStack sp.requireLen
        else .error ctx 0
    | .double =>
        if sp.requireLen = 8 then
          (ctx.write sp.d (.double (.bits (UInt64.ofNat (beNat payload))))).popStack sp.requireLen
        else if sp.requireLen = 4 then
          (ctx.write sp.d (.double (.single (UInt32.ofNat (beNat payload))))).popStack
            sp.requireLen
        -- BIG_FLOAT tags get here; the release build reads four bytes anyway
        else .assertion ctx 0
    | .blob => (ctx.write sp.d (.raw (cur.curP sp.requireLen) sp.requireLen)).popStack sp.requireLen
    | _ => .error ctx 0

def stepArray (ctx : Context ρ) : Step ρ :=
  let sp := { ctx.top with nPopObj := ctx.top.nPopObj + 1 }
  let ctx := ctx.setTop sp
  if sp.nPopObj < sp.requireLen then ctx.pushStack (ctx.elemNew sp.d sp.nPopObj) 0
  else ctx.popStack 0

def stepMap (ctx : Context ρ) : Step ρ :=
  let sp := { ctx.top with status := .processMapVal }
  let ctx := ctx.setTop sp
  ctx.pushStack (ctx.valNew sp.d sp.nPopObj) 0

def stepMapVal (ctx : Context ρ) : Step ρ :=
  let sp := { ctx.top with nPopObj := ctx.top.nPopObj + 1 }
  if sp.nPopObj < sp.requireLen then
    let ctx := ctx.setTop { sp with status := .processMap }
    ctx.pushStack (ctx.keyNew sp.d sp.nPopObj) 0
  else (ctx.setTop sp).popStack 0

/-- One turn of the loop of `mpak::unpack`. -/
def unpackStep (malloc : Malloc) (ctx : Context ρ) (cur : Cursor ρ) : Step ρ :=
  match ctx.top.status with
  | .initial =>
      match cur.unread with
      | [] => .wait ctx
      | b :: _ => stepInitial malloc ctx b
  | .processLength => stepLength malloc ctx cur
  | .processData => stepData ctx cur
  | .processArray => stepArray ctx
  | .processMap => stepMap ctx
  | .processMapVal => stepMapVal ctx

/-! ## The loop terminates -/

/-- How much a frame's status can still do without consuming a byte. -/
def ParseState.rank : ParseState → Nat
  | .initial => 0
  | .processLength => 4
  | _ => 3

theorem ParseState.rank_le (status : ParseState) : status.rank ≤ 4 := by
  cases status <;> decide

/-- The loop measure: an unread byte outweighs what consuming it can start. -/
def loopMeasure (ctx : Context ρ) (cur : Cursor ρ) : Nat :=
  5 * cur.unread.length + 2 * ctx.stackHeight + ctx.top.status.rank

/-- A step decreases the measure from a given budget when it goes on. -/
def Step.Below (step : Step ρ) (cur : Cursor ρ) (budget : Nat) : Prop :=
  ∀ ctx used, step = .go ctx used → loopMeasure ctx (cur.advance used) < budget

namespace Context

theorem pushStack_below (ctx : Context ρ) (obj : Option Slot) (used budget : Nat)
    (cur : Cursor ρ)
    (enough : 5 * (cur.unread.length - used) + 2 * ctx.stackHeight + 2 < budget) :
    (ctx.pushStack obj used).Below cur budget := by
  intro next consumed eq
  cases obj with
  | none => cases eq
  | some slot =>
      simp only [pushStack] at eq
      split at eq
      · cases eq
      · obtain ⟨rfl, rfl⟩ := Step.go.inj eq
        simp only [loopMeasure, Cursor.advance_unread, List.length_drop, setTop_stackHeight,
          setTop_top, ParseState.rank]
        omega

theorem popStack_below (ctx : Context ρ) (used budget : Nat) (cur : Cursor ρ)
    (enough : 5 * (cur.unread.length - used) + 2 * ctx.stackHeight + 2 < budget) :
    (ctx.popStack used).Below cur budget := by
  intro next consumed eq
  simp only [popStack] at eq
  split at eq
  · cases eq
  · split at eq
    · cases eq
    · obtain ⟨rfl, rfl⟩ := Step.go.inj eq
      have bound := ParseState.rank_le (ctx.stack (ctx.stackHeight - 1)).status
      simp only [loopMeasure, Cursor.advance_unread, List.length_drop, top]
      omega

theorem initArray_stackHeight {malloc : Malloc} {ctx next : Context ρ} {d : Slot} {sz : Nat}
    (made : ctx.initArray malloc d sz = some next) : next.stackHeight = ctx.stackHeight := by
  unfold initArray at made
  split at made
  · cases made
    exact write_stackHeight _ _ _
  · split at made
    · cases made
      exact write_stackHeight _ _ _
    · cases made

theorem initMap_stackHeight {malloc : Malloc} {ctx next : Context ρ} {d : Slot} {sz : Nat}
    (made : ctx.initMap malloc d sz = some next) : next.stackHeight = ctx.stackHeight := by
  unfold initMap at made
  split at made
  · cases made
    exact write_stackHeight _ _ _
  · split at made
    · cases made
      exact write_stackHeight _ _ _
    · cases made

end Context

theorem lengthCheck_below (malloc : Malloc) (ctx : Context ρ) (used budget : Nat)
    (cur : Cursor ρ)
    (enough : 5 * (cur.unread.length - used) + 2 * ctx.stackHeight + 3 < budget) :
    (lengthCheck malloc ctx used).Below cur budget := by
  unfold lengthCheck
  dsimp only
  split
  · split
    · intro _ _ eq
      cases eq
    · next made =>
        have height := initArray_stackHeight made
        split
        · exact popStack_below _ _ _ _ (by omega)
        · exact pushStack_below _ _ _ _ _ (by rw [setTop_stackHeight]; omega)
  · split
    · intro _ _ eq
      cases eq
    · next made =>
        have height := initMap_stackHeight made
        split
        · exact popStack_below _ _ _ _ (by omega)
        · exact pushStack_below _ _ _ _ _ (by rw [setTop_stackHeight]; omega)
  · intro next consumed eq
    obtain ⟨rfl, rfl⟩ := Step.go.inj eq
    simp only [loopMeasure, Cursor.advance_unread, List.length_drop, setTop_stackHeight,
      setTop_top, ParseState.rank]
    omega

/-- Going on to another state of the same frame after consuming a byte. -/
theorem setTop_below (ctx : Context ρ) (frame : StackMem) (budget : Nat) (cur : Cursor ρ)
    (enough : 5 * (cur.unread.length - 1) + 2 * ctx.stackHeight + 4 < budget) :
    (Step.go (ctx.setTop frame) 1).Below cur budget := by
  intro next consumed eq
  obtain ⟨rfl, rfl⟩ := Step.go.inj eq
  have bound := frame.status.rank_le
  simp only [loopMeasure, Cursor.advance_unread, List.length_drop, setTop_stackHeight,
    setTop_top]
  omega

theorem stepInitial_below (malloc : Malloc) (ctx : Context ρ) (b : UInt8) (cur : Cursor ρ)
    (readable : cur.unread ≠ []) :
    (stepInitial malloc ctx b).Below cur (5 * cur.unread.length + 2 * ctx.stackHeight) := by
  have pos := List.length_pos_iff.mpr readable
  have enough : 5 * (cur.unread.length - 1) + 2 * ctx.stackHeight + 4 <
      5 * cur.unread.length + 2 * ctx.stackHeight := by omega
  unfold stepInitial
  dsimp only
  split_ifs
  · exact popStack_below _ _ _ _ (by rw [write_stackHeight]; omega)
  · exact setTop_below _ _ _ _ enough
  · exact lengthCheck_below _ _ _ _ _ (by rw [setTop_stackHeight]; omega)
  · exact lengthCheck_below _ _ _ _ _ (by rw [setTop_stackHeight]; omega)
  · exact popStack_below _ _ _ _ (by rw [write_stackHeight]; omega)
  · exact popStack_below _ _ _ _ (by rw [write_stackHeight]; omega)
  · exact popStack_below _ _ _ _ (by rw [write_stackHeight]; omega)
  · exact setTop_below _ _ _ _ enough
  · exact popStack_below _ _ _ _ (by rw [write_stackHeight]; omega)
  · intro _ _ eq
    cases eq

theorem stepData_below (ctx : Context ρ) (cur : Cursor ρ) :
    (stepData ctx cur).Below cur (5 * cur.unread.length + 2 * ctx.stackHeight + 3) := by
  unfold stepData
  dsimp only
  split
  · intro _ _ eq
    cases eq
  · split
    · split
      · exact popStack_below _ _ _ _ (by rw [write_stackHeight]; omega)
      · intro _ _ eq
        cases eq
    · split
      · exact popStack_below _ _ _ _ (by rw [write_stackHeight]; omega)
      · split
        · exact popStack_below _ _ _ _ (by rw [write_stackHeight]; omega)
        · intro _ _ eq
          cases eq
    · exact popStack_below _ _ _ _ (by rw [write_stackHeight]; omega)
    · intro _ _ eq
      cases eq

theorem unpackStep_decreases (malloc : Malloc) (ctx : Context ρ) (cur : Cursor ρ)
    {next : Context ρ} {used : Nat} (step : unpackStep malloc ctx cur = .go next used) :
    loopMeasure next (cur.advance used) < loopMeasure ctx cur := by
  suffices below : (unpackStep malloc ctx cur).Below cur (loopMeasure ctx cur) from
    below next used step
  unfold unpackStep loopMeasure
  cases status : ctx.top.status with
  | initial =>
      cases unread : cur.unread with
      | nil =>
          intro _ _ eq
          cases eq
      | cons b rest =>
          have readable : cur.unread ≠ [] := by simp [unread]
          simpa only [unread, ParseState.rank, Nat.add_zero] using
            stepInitial_below malloc ctx b cur readable
  | processLength =>
      unfold stepLength
      dsimp only
      split
      · intro _ _ eq
        cases eq
      · apply lengthCheck_below
        rw [setTop_stackHeight]
        simp only [ParseState.rank]
        omega
  | processData => exact stepData_below ctx cur
  | processArray =>
      unfold stepArray
      dsimp only
      split
      · exact pushStack_below _ _ _ _ _ (by simp [ParseState.rank])
      · exact popStack_below _ _ _ _ (by simp [ParseState.rank])
  | processMap =>
      exact pushStack_below _ _ _ _ _ (by simp [ParseState.rank])
  | processMapVal =>
      unfold stepMapVal
      dsimp only
      split
      · exact pushStack_below _ _ _ _ _ (by simp [ParseState.rank])
      · exact popStack_below _ _ _ _ (by simp [ParseState.rank])

/-- What `unpack` returns; `assertion` as in `Step`. -/
inductive Ret where
  | success
  | extraBytes
  | wait
  | parseError
  | assertion
  deriving DecidableEq, Repr

structure Result (ρ : Type) where
  ret : Ret
  ctx : Context ρ
  cur : Cursor ρ

/-- The loop of `mpak::unpack`, up to its `return`. -/
def unpackLoop (malloc : Malloc) (ctx : Context ρ) (cur : Cursor ρ) : Result ρ :=
  match _turn : unpackStep malloc ctx cur with
  | .go next used => unpackLoop malloc next (cur.advance used)
  | .wait next => ⟨.wait, next, cur⟩
  | .done next used =>
      let cur := cur.advance used
      ⟨if cur.unread = [] then .success else .extraBytes, next, cur⟩
  | .error next used => ⟨.parseError, next, cur.advance used⟩
  | .assertion next used => ⟨.assertion, next, cur.advance used⟩
termination_by loopMeasure ctx cur
decreasing_by exact unpackStep_decreases malloc ctx cur _turn

/-- What the loop does with the outcome of a turn. -/
def proceed (malloc : Malloc) (cur : Cursor ρ) : Step ρ → Result ρ
  | .go next used => unpackLoop malloc next (cur.advance used)
  | .wait next => ⟨.wait, next, cur⟩
  | .done next used =>
      ⟨if (cur.advance used).unread = [] then .success else .extraBytes, next, cur.advance used⟩
  | .error next used => ⟨.parseError, next, cur.advance used⟩
  | .assertion next used => ⟨.assertion, next, cur.advance used⟩

theorem unpackLoop_eq (malloc : Malloc) (ctx : Context ρ) (cur : Cursor ρ) :
    unpackLoop malloc ctx cur = proceed malloc cur (unpackStep malloc ctx cur) := by
  rw [unpackLoop]
  split <;> rename_i turn <;> rw [turn] <;> rfl

/-! ## Parsing a `pbuf` -/

/-- A zero-copy payload: a block, an offset in it and a length. -/
structure RawPtr where
  block : Option Nat
  ofs : Nat
  len : Nat
  deriving DecidableEq, Repr

def cursorOf (pb : Pbuf) : Cursor RawPtr where
  unread := pb.unread
  rawAt offset len := ⟨pb.base, pb.ofs + offset, len⟩

/-- The bytes a payload pointer leads to, while its block is the buffer's. -/
def payloadOf (pb : Pbuf) (p : RawPtr) : List UInt8 := (pb.data.drop p.ofs).take p.len

structure Context.Idle (ctx : Context ρ) : Prop where
  height : ctx.stackHeight = 0
  status : (ctx.stack 0).status = .initial
  d : (ctx.stack 0).d = .work

theorem fresh_idle : (Context.fresh : Context ρ).Idle := ⟨rfl, rfl, rfl⟩

end Cyue.Mpak
