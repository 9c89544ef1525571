import Cyue.Mpak.Denotes
import Mathlib.Tactic.SplitIfs

/-!
# Containers and their headers

Arrays and maps are treated alike: a map is a container of twice as many
objects.  A header brings the loop to `l_length_check`, and a popped element
makes way for the next one.
-/

namespace Cyue.Mpak

open Bytes Context Packer

variable {ρ : Type}

/-! ## Bytes used by a turn -/

theorem proceed_go (malloc : Malloc) (ctx : Context ρ) (cur : Cursor ρ) (used : Nat) :
    proceed malloc cur (.go ctx used) = unpackLoop malloc ctx (cur.advance used) := rfl

theorem proceed_popStack (malloc : Malloc) (ctx : Context ρ) (cur : Cursor ρ) (used : Nat) :
    proceed malloc cur (ctx.popStack used) = proceed malloc (cur.advance used) (ctx.popStack 0) := by
  unfold popStack
  split
  · simp [proceed]
  · dsimp only
    split <;> simp [proceed]

theorem proceed_pushStack (malloc : Malloc) (ctx : Context ρ) (obj : Option Slot)
    (cur : Cursor ρ) (used : Nat) :
    proceed malloc cur (ctx.pushStack obj used) =
      proceed malloc (cur.advance used) (ctx.pushStack obj 0) := by
  unfold pushStack
  cases obj with
  | none => simp [proceed]
  | some slot =>
      dsimp only
      split <;> simp [proceed]

/-! ## Containers -/

inductive Shape where
  | array
  | map
  deriving DecidableEq

namespace Shape

def kind : Shape → Kind
  | .array => .array
  | .map => .map

def obj (size ptr : Nat) : Shape → Obj ρ
  | .array => .array size ptr
  | .map => .map size ptr

/-- How many objects a container of the declared size holds. -/
def count (size : Nat) : Shape → Nat
  | .array => size
  | .map => 2 * size

/-- The frame of a container whose object number `index` is being parsed. -/
def Waits (size index : Nat) (frame : StackMem) : Shape → Prop
  | .array => frame.status = .processArray ∧ frame.requireLen = size ∧ frame.nPopObj = index
  | .map => frame.requireLen = size ∧ frame.nPopObj = index / 2 ∧
      frame.status = if index % 2 = 0 then .processMap else .processMapVal

theorem Waits.not_initial {size index : Nat} {frame : StackMem} {shape : Shape}
    (waits : shape.Waits size index frame) : frame.status ≠ .initial := by
  cases shape with
  | array => simp [waits.1]
  | map =>
      rw [waits.2.2]
      split <;> simp

end Shape

/-- The element that a popped one makes way for, if there is one. -/
theorem unpackStep_waits (malloc : Malloc) {ctx : Context ρ} (cur : Cursor ρ) {shape : Shape}
    {size index ptr : Nat} (waits : shape.Waits size index ctx.top)
    (holds : ctx.read ctx.top.d = shape.obj size ptr) (bound : index < shape.count size) :
    ∃ frame, frame.d = ctx.top.d ∧
      (index + 1 < shape.count size → shape.Waits size (index + 1) frame ∧
        unpackStep malloc ctx cur =
          (ctx.setTop frame).pushStack (some (.cell (ptr + (index + 1)))) 0) ∧
      (index + 1 = shape.count size →
        unpackStep malloc ctx cur = (ctx.setTop frame).popStack 0) := by
  cases shape with
  | array =>
      obtain ⟨status, len, pops⟩ := waits
      simp only [Shape.count] at bound ⊢
      refine ⟨{ ctx.top with nPopObj := ctx.top.nPopObj + 1 }, rfl, ?_, ?_⟩
      · intro more
        refine ⟨⟨status, len, by simp [pops]⟩, ?_⟩
        simp [unpackStep, status, stepArray, len, pops, more, elemNew, holds, Shape.obj]
      · intro last
        simp [unpackStep, status, stepArray, len, pops, last]
  | map =>
      obtain ⟨len, pops, status⟩ := waits
      simp only [Shape.count] at bound ⊢
      rcases Nat.mod_two_eq_zero_or_one index with even | odd
      · rw [if_pos even] at status
        refine ⟨{ ctx.top with status := .processMapVal }, rfl, ?_, ?_⟩
        · intro more
          have half : (index + 1) / 2 = index / 2 := by omega
          have parity : (index + 1) % 2 = 1 := by omega
          have next : ptr + 2 * (index / 2) + 1 = ptr + (index + 1) := by omega
          have room : index / 2 < size := by omega
          refine ⟨⟨len, by rw [half]; exact pops, by simp [parity]⟩, ?_⟩
          simp [unpackStep, status, stepMap, pops, valNew, holds, Shape.obj, room, next]
        · intro last
          omega
      · rw [if_neg (by omega)] at status
        have half : (index + 1) / 2 = index / 2 + 1 := by omega
        by_cases more : index + 1 < 2 * size
        · have room : index / 2 + 1 < size := by omega
          have next : ptr + 2 * (index / 2 + 1) = ptr + (index + 1) := by omega
          have parity : (index + 1) % 2 = 0 := by omega
          refine ⟨{ ctx.top with nPopObj := ctx.top.nPopObj + 1, status := .processMap }, rfl,
            ?_, ?_⟩
          · intro _
            refine ⟨⟨len, by simp [half, pops], by simp [parity]⟩, ?_⟩
            simp [unpackStep, status, stepMapVal, pops, len, keyNew, holds, Shape.obj, room, next]
          · intro last
            omega
        · have full : ¬ index / 2 + 1 < size := by omega
          refine ⟨{ ctx.top with nPopObj := ctx.top.nPopObj + 1 }, rfl, ?_, ?_⟩
          · intro room
            exact absurd room more
          · intro _
            simp [unpackStep, status, stepMapVal, pops, len, full]

theorem proceed_lengthCheck (malloc : Malloc) (ctx : Context ρ) (cur : Cursor ρ) (used : Nat) :
    proceed malloc cur (lengthCheck malloc ctx used) =
      proceed malloc (cur.advance used) (lengthCheck malloc ctx 0) := by
  unfold lengthCheck
  dsimp only
  split
  · split
    · simp [proceed]
    · split
      · exact proceed_popStack _ _ _ _
      · exact proceed_pushStack _ _ _ _ _
  · split
    · simp [proceed]
    · split
      · exact proceed_popStack _ _ _ _
      · exact proceed_pushStack _ _ _ _ _
  · simp [proceed]

/-! ## Headers -/

/-- After `used` bytes the parser is at `l_length_check` for an object of the
given kind and declared size. -/
def Headed (malloc : Malloc) (ctx : Context ρ) (cur : Cursor ρ) (used : Nat) (kind : Kind)
    (size : Nat) : Prop :=
  ∃ frame : StackMem, frame.d = ctx.top.d ∧ frame.requireLen = size ∧ frame.requireType = kind ∧
    unpackLoop malloc ctx cur =
      proceed malloc (cur.advance used) (lengthCheck malloc (ctx.setTop frame) 0)

/-- A tag whose table entry asks for a length field of `width` bytes. -/
theorem headed_length {malloc : Malloc} {ctx : Context ρ} {cur : Cursor ρ}
    {b : UInt8} {width size : Nat} {kind : Kind} {tail : List UInt8}
    (initial : ctx.top.status = .initial) (unread : cur.unread = b :: (beBytes width size ++ tail))
    (entry : stepInitial malloc ctx b = .go (ctx.setTop
      { ctx.top with status := .processLength, requireLen := width, requireType := kind }) 1)
    (known : width = 2 ∨ width = 4) (fits : size < 256 ^ width) :
    Headed malloc ctx cur (1 + width) kind size := by
  have tag : unpackStep malloc ctx cur = .go (ctx.setTop
      { ctx.top with status := .processLength, requireLen := width, requireType := kind }) 1 := by
    simp only [unpackStep, initial, unread, entry]
  have field : (cur.advance 1).unread = beBytes width size ++ tail := by
    simp [unread]
  have number : beNat ((cur.advance 1).unread.take width) = size := by
    rw [field, List.take_left' (beBytes_length width size), beNat_beBytes fits]
  have enough : ¬ (cur.advance 1).unread.length < width := by
    rw [field, List.length_append, beBytes_length]
    omega
  have width_known : width = 1 ∨ width = 2 ∨ width = 4 ∨ width = 8 := by omega
  refine ⟨{ ctx.top with status := .processLength, requireLen := size, requireType := kind },
    rfl, rfl, rfl, ?_⟩
  rw [unpackLoop_eq, tag, proceed, unpackLoop_eq, ← Cursor.advance_advance, ← proceed_lengthCheck]
  simp only [unpackStep, setTop_top, stepLength, if_neg enough, if_pos width_known, number,
    setTop_setTop]

namespace Shape

def header (size : Nat) : Shape → List UInt8
  | .array => arrayHeader size
  | .map => mapHeader size

end Shape

theorem fixarray_bits : ∀ size : Fin 16, ¬ 0x90 ||| UInt8.ofNat size ≤ 0x7f ∧
    (0x90 ||| UInt8.ofNat size) &&& 0xe0 ≠ 0xa0 ∧
    (0x90 ||| UInt8.ofNat size) &&& 0xf0 = 0x90 ∧
    ((0x90 ||| UInt8.ofNat size) &&& 0x0f).toNat = size := by
  decide

theorem fixmap_bits : ∀ size : Fin 16, ¬ 0x80 ||| UInt8.ofNat size ≤ 0x7f ∧
    (0x80 ||| UInt8.ofNat size) &&& 0xe0 ≠ 0xa0 ∧
    (0x80 ||| UInt8.ofNat size) &&& 0xf0 = 0x80 ∧
    ((0x80 ||| UInt8.ofNat size) &&& 0x0f).toNat = size := by
  decide

theorem fixraw_bits : ∀ size : Fin 32, ¬ 0xa0 ||| UInt8.ofNat size ≤ 0x7f ∧
    (0xa0 ||| UInt8.ofNat size) &&& 0xe0 = 0xa0 ∧
    ((0xa0 ||| UInt8.ofNat size) &&& 0x1f).toNat = size := by
  decide

section

variable (malloc : Malloc) {ctx : Context ρ} {cur : Cursor ρ} {size : Nat} {tail : List UInt8}

theorem headed_array (initial : ctx.top.status = .initial)
    (unread : cur.unread = arrayHeader size ++ tail) (small : size < 2 ^ 31) :
    Headed malloc ctx cur (arrayHeader size).length .array size := by
  unfold arrayHeader at unread ⊢
  split_ifs at unread ⊢ with fix short
  · obtain ⟨high, raw, mask, low⟩ := fixarray_bits ⟨size, by omega⟩
    dsimp only at high raw mask low
    refine ⟨{ ctx.top with requireLen := size, requireType := .array }, rfl, rfl, rfl, ?_⟩
    rw [unpackLoop_eq, List.length_singleton, ← proceed_lengthCheck]
    simp [unpackStep, initial, unread, stepInitial, high, raw, mask, low]
  · rw [List.length_cons, beBytes_length, Nat.add_comm]
    exact headed_length initial unread rfl (.inl rfl) (by omega)
  · rw [List.length_cons, beBytes_length, Nat.add_comm]
    exact headed_length initial unread rfl (.inr rfl) (by omega)

theorem headed_map (initial : ctx.top.status = .initial)
    (unread : cur.unread = mapHeader size ++ tail) (small : size < 2 ^ 31) :
    Headed malloc ctx cur (mapHeader size).length .map size := by
  unfold mapHeader at unread ⊢
  split_ifs at unread ⊢ with fix short
  · obtain ⟨high, raw, mask, low⟩ := fixmap_bits ⟨size, by omega⟩
    dsimp only at high raw mask low
    refine ⟨{ ctx.top with requireLen := size, requireType := .map }, rfl, rfl, rfl, ?_⟩
    rw [unpackLoop_eq, List.length_singleton, ← proceed_lengthCheck]
    simp [unpackStep, initial, unread, stepInitial, high, raw, mask, low]
  · rw [List.length_cons, beBytes_length, Nat.add_comm]
    exact headed_length initial unread rfl (.inl rfl) (by omega)
  · rw [List.length_cons, beBytes_length, Nat.add_comm]
    exact headed_length initial unread rfl (.inr rfl) (by omega)

theorem headed_shape (shape : Shape) (initial : ctx.top.status = .initial)
    (unread : cur.unread = shape.header size ++ tail) (small : size < 2 ^ 31) :
    Headed malloc ctx cur (shape.header size).length shape.kind size := by
  cases shape with
  | array => exact headed_array malloc initial unread small
  | map => exact headed_map malloc initial unread small

theorem headed_raw (initial : ctx.top.status = .initial)
    (unread : cur.unread = rawHeader size ++ tail) (small : size < 2 ^ 31) :
    Headed malloc ctx cur (rawHeader size).length .blob size := by
  unfold rawHeader at unread ⊢
  split_ifs at unread ⊢ with fix short
  · obtain ⟨high, mask, low⟩ := fixraw_bits ⟨size, by omega⟩
    dsimp only at high mask low
    refine ⟨{ ctx.top with requireLen := size, requireType := .blob }, rfl, rfl, rfl, ?_⟩
    rw [unpackLoop_eq, List.length_singleton, ← proceed_lengthCheck]
    simp [unpackStep, initial, unread, stepInitial, high, mask, low, lengthCheck]
  · rw [List.length_cons, beBytes_length, Nat.add_comm]
    exact headed_length initial unread rfl (.inl rfl) (by omega)
  · rw [List.length_cons, beBytes_length, Nat.add_comm]
    exact headed_length initial unread rfl (.inr rfl) (by omega)

end

end Cyue.Mpak
