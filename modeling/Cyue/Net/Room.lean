import Cyue.Net.Wbuf

/-!
# Room in the write buffers

What `reserve` leaves behind when it succeeds, and what the writers change when
all that they write lies inside of the block: the `next` buffer grows by a known
number of bytes, the bytes in front of the writer are kept and nothing else
moves.
-/

namespace Cyue.Net

open Bytes Memory

namespace Buf

/-- The buffer is in use from its start on and ends within its block. -/
structure Within (b : Buf) : Prop where
  ofs : b.ofs = 0
  len : b.len ≤ b.limit
  pos : 0 < b.limit
  small : b.limit < 2 ^ 63

theorem Within.available {b : Buf} (within : b.Within) : b.available = b.limit - b.len :=
  if_pos within.len

/-- The room behind the bytes in use once `reserve` has succeeded. -/
def roomFor (b : Buf) (sz : ℕ) : ℕ :=
  if sz ≤ b.available then b.available
  else Pbuf.growLimit (sz + b.len) b.limit (sz + b.len) - b.len

theorem roomFor_enough {b : Buf} (within : b.Within) (sz : ℕ) : sz ≤ b.roomFor sz := by
  unfold roomFor
  split
  · assumption
  · have grown := Pbuf.growLimit_enough (sz + b.len) b.limit (sz + b.len) within.pos
      (Nat.le_add_left _ _)
    exact Nat.le_sub_of_add_le grown

/-- What `reserve` does when it succeeds: the bytes in use are kept, and the
block is the old one or the new one. -/
structure Reserved (fresh : ℕ) (b b' : Buf) (sz : ℕ) : Prop where
  within : b'.Within
  room : b'.limit - b'.len = b.roomFor sz
  len : b'.len = b.len
  kept : ∀ i, i < b.len → b'.mem i = b.mem i
  block : b' = b ∨ b'.block = fresh

theorem reserve_spec {fresh : ℕ} {got : Option Mem} {b b' : Buf} {sz : ℕ} (within : b.Within)
    (done : b.reserve fresh got sz = some b') : Reserved fresh b b' sz := by
  unfold reserve at done
  split at done
  case isTrue enough =>
      cases done
      have room : b.limit - b.len = b.roomFor sz := by
        rw [roomFor, if_pos enough, within.available]
      exact ⟨within, room, rfl, fun _ _ => rfl, Or.inl rfl⟩
  case isFalse short =>
      cases got with
      | none => cases done
      | some mem =>
          dsimp only at done
          split at done
          case isTrue small =>
              cases done
              simp only [within.ofs, Nat.sub_zero] at small ⊢
              have grown := Pbuf.growLimit_enough (sz + b.len) b.limit (sz + b.len) within.pos
                (Nat.le_add_left _ _)
              have more := Pbuf.growLimit_ge (sz + b.len) b.limit (sz + b.len)
              refine ⟨⟨rfl, Nat.le_trans (Nat.le_add_left _ _) grown,
                Nat.lt_of_lt_of_le within.pos more, small⟩, ?_, rfl, ?_, Or.inr rfl⟩
              · rw [roomFor, if_neg short]
              · intro i inside
                have copied := store_get mem 0 (show i < (load b.mem 0 b.len).length by rwa [load_length])
                rw [Nat.zero_add, load_get inside, Nat.zero_add] at copied
                exact copied
          case isFalse => cases done

end Buf

/-! ## Writes inside of the block -/

namespace Wbuf

/-- The `next` buffer with bytes stored at an offset. -/
def stored (w : Wbuf) (off : ℕ) (bytes : List UInt8) : Wbuf :=
  { w with next := { w.next with mem := store w.next.mem off bytes } }

theorem put_inside {w : Wbuf} {p : Ptr} {bytes : List UInt8} (here : p.block = w.next.block)
    (inside : p.off + bytes.length ≤ w.next.limit) : w.put p bytes = w.stored p.off bytes := by
  have whole : bytes.take (w.next.limit - p.off) = bytes := List.take_of_length_le (by omega)
  have fine : decide (w.next.limit < p.off + bytes.length) = false :=
    decide_eq_false (Nat.not_lt.mpr inside)
  rw [put, if_pos here, stored, Buf.write, whole, fine, Bool.or_false]

/-! ## Fields that a write leaves alone -/

section put

variable (w : Wbuf) (p : Ptr) (bytes : List UInt8)

@[simp]
theorem put_block : (w.put p bytes).next.block = w.next.block := by
  unfold put
  split <;> rfl

@[simp]
theorem put_len : (w.put p bytes).next.len = w.next.len := by
  unfold put
  split <;> rfl

@[simp]
theorem put_limit : (w.put p bytes).next.limit = w.next.limit := by
  unfold put
  split <;> rfl

@[simp]
theorem put_ofs : (w.put p bytes).next.ofs = w.next.ofs := by
  unfold put
  split <;> rfl

@[simp]
theorem put_curr : (w.put p bytes).curr = w.curr := by
  unfold put
  split <;> rfl

@[simp]
theorem put_lastWriter : (w.put p bytes).lastWriter = w.lastWriter := by
  unfold put
  split <;> rfl

@[simp]
theorem put_lastWcmd : (w.put p bytes).lastWcmd = w.lastWcmd := by
  unfold put
  split <;> rfl

@[simp]
theorem put_attached : (w.put p bytes).attached = w.attached := by
  unfold put
  split <;> rfl

@[simp]
theorem put_asserted : (w.put p bytes).asserted = w.asserted := by
  unfold put
  split <;> rfl

end put

/-- From `w` to `w'` the `next` buffer grows by `n` bytes, with all that is
written lying inside of the block from `low` on. -/
structure Grows (low n : ℕ) (w w' : Wbuf) : Prop where
  block : w'.next.block = w.next.block
  limit : w'.next.limit = w.next.limit
  ofs : w'.next.ofs = w.next.ofs
  len : w'.next.len = w.next.len + n
  kept : ∀ i, i < low → w'.next.mem i = w.next.mem i
  fault : w'.fault = w.fault
  curr : w'.curr = w.curr
  lastWriter : w'.lastWriter = w.lastWriter
  lastWcmd : w'.lastWcmd = w.lastWcmd
  attached : w'.attached = w.attached

variable {w w₁ w₂ : Wbuf} {p : Ptr} {low low' n n' : ℕ} {bytes : List UInt8}

theorem Grows.refl (low : ℕ) (w : Wbuf) : Grows low 0 w w :=
  ⟨rfl, rfl, rfl, rfl, fun _ _ => rfl, rfl, rfl, rfl, rfl, rfl⟩

theorem Grows.trans (first : Grows low n w w₁) (second : Grows low n' w₁ w₂) :
    Grows low (n + n') w w₂ where
  block := second.block.trans first.block
  limit := second.limit.trans first.limit
  ofs := second.ofs.trans first.ofs
  len := by rw [second.len, first.len, Nat.add_assoc]
  kept i before := (second.kept i before).trans (first.kept i before)
  fault := second.fault.trans first.fault
  curr := second.curr.trans first.curr
  lastWriter := second.lastWriter.trans first.lastWriter
  lastWcmd := second.lastWcmd.trans first.lastWcmd
  attached := second.attached.trans first.attached

theorem put_grows (low : ℕ) (p : Ptr) (bytes : List UInt8) (here : p.block = w.next.block)
    (inside : p.off + bytes.length ≤ w.next.limit) (behind : low ≤ p.off) : Grows low 0 w (w.put p bytes) := by
  rw [put_inside here inside]
  exact { Grows.refl low w with kept := fun _ before => store_of_lt (Nat.lt_of_lt_of_le before behind) }

theorem commit_grows (low n : ℕ) (w : Wbuf) : Grows low n w (w.commit n) :=
  { Grows.refl low w with len := rfl }

theorem append_grows (low : ℕ) (inside : w.next.len + bytes.length ≤ w.next.limit)
    (behind : low ≤ w.next.len) : Grows low bytes.length w (w.append bytes) := by
  have written := put_grows low w.lastP bytes rfl inside behind
  have grown := written.trans (commit_grows low bytes.length _)
  rwa [Nat.zero_add] at grown

theorem push_grows (low : ℕ) (byte : UInt8) (inside : w.next.len < w.next.limit)
    (behind : low ≤ w.next.len) :    Grows low 1 w (w.push byte) := by
  have written := put_grows low w.lastP [byte] rfl inside behind
  exact { written with len := congrArg (· + 1) written.len }

end Wbuf

end Cyue.Net
