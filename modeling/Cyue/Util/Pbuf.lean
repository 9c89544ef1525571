import Cyue.Lib.Bytes

/-!
# Socket data buffers

`pbuf` as its owner sees it: the bytes `m_p[0 .. m_len)` of its current block,
the block's identity, its size `m_limit` and the read position `m_ofs`.
`reserve` is given the identity of the block a fresh allocation would return.
The bytes are a list of their own, so that a write at or past `m_limit` shows
as `data` being longer than `limit`.
-/

namespace Cyue

/-- `int` from a `size_t`: the low 32 bits, read as a signed number. -/
def intOfSize (n : Int) : Int := n.bmod (2 ^ 32)

theorem intOfSize_eq {n : Nat} (small : n < 2 ^ 31) : intOfSize n = n := by
  unfold intOfSize
  rw [Int.bmod_eq_of_le] <;> omega

theorem intOfSize_bounds (n : Int) : -2147483648 ≤ intOfSize n ∧ intOfSize n < 2147483648 := by
  have width : ((2 ^ 32 : Nat) : Int) = 4294967296 := rfl
  rw [intOfSize, Int.bmod_def, width]
  split <;> omega

/-- The `int` of a size is the size or less. -/
theorem intOfSize_le (n : Nat) : intOfSize n ≤ n := by
  have width : ((2 ^ 32 : Nat) : Int) = 4294967296 := rfl
  rw [intOfSize, Int.bmod_def, width]
  split <;> omega

structure Pbuf where
  base : Option Nat
  data : List UInt8
  limit : Nat
  ofs : Nat
  deriving DecidableEq, Repr

namespace Pbuf

def initialBufferSize : Nat := 256

def empty : Pbuf := ⟨none, [], 0, 0⟩

def last (pb : Pbuf) : Nat := pb.data.length

/-- `available()`, a `size_t` difference. -/
def available (pb : Pbuf) : Nat :=
  if pb.last ≤ pb.limit then pb.limit - pb.last else 2 ^ 64 - (pb.last - pb.limit)

/-- The bytes from `cur_p()` to `last_p()`. -/
def unread (pb : Pbuf) : List UInt8 := pb.data.drop pb.ofs

/-- A write at `last_p()` followed by the `commit` of its length. -/
def append (pb : Pbuf) (bytes : List UInt8) : Pbuf := { pb with data := pb.data ++ bytes }

/-- `while (need > m_limit) { m_limit <<= 1; }`; `need` turns are always enough. -/
def growLimit : Nat → Nat → Nat → Nat
  | 0, limit, _ => limit
  | fuel + 1, limit, need => if limit < need then growLimit fuel (2 * limit) need else limit

/-- `reserve`, when the allocations it makes succeed. -/
def reserve (fresh : Nat) (pb : Pbuf) (sz : Nat) : Pbuf :=
  if sz ≤ pb.available then pb
  else
    match pb.base with
    | some _ =>
        let need := sz + (pb.last - pb.ofs)
        ⟨some fresh, pb.unread, growLimit need pb.limit need, 0⟩
    | none => { pb with base := some fresh, limit := growLimit sz initialBufferSize sz }

@[simp] theorem append_last (pb : Pbuf) (bytes : List UInt8) :
    (pb.append bytes).last = pb.last + bytes.length := by
  simp [append, last]

@[simp] theorem append_limit (pb : Pbuf) (bytes : List UInt8) :
    (pb.append bytes).limit = pb.limit := rfl

@[simp] theorem append_ofs (pb : Pbuf) (bytes : List UInt8) :
    (pb.append bytes).ofs = pb.ofs := rfl

@[simp] theorem append_base (pb : Pbuf) (bytes : List UInt8) :
    (pb.append bytes).base = pb.base := rfl

@[simp] theorem append_data (pb : Pbuf) (bytes : List UInt8) :
    (pb.append bytes).data = pb.data ++ bytes := rfl

theorem append_append (pb : Pbuf) (first second : List UInt8) :
    (pb.append first).append second = pb.append (first ++ second) := by
  simp [append]

@[simp] theorem append_nil (pb : Pbuf) : pb.append [] = pb := by
  simp [append]

theorem available_eq {pb : Pbuf} (within : pb.last ≤ pb.limit) :
    pb.available = pb.limit - pb.last := if_pos within

theorem growLimit_enough (fuel limit need : Nat) (pos : 0 < limit)
    (enough : need ≤ limit + fuel) : need ≤ growLimit fuel limit need := by
  induction fuel generalizing limit with
  | zero => simpa [growLimit] using enough
  | succ fuel ih =>
      unfold growLimit
      split
      · exact ih (2 * limit) (by omega) (by omega)
      · omega

theorem growLimit_ge (fuel limit need : Nat) : limit ≤ growLimit fuel limit need := by
  induction fuel generalizing limit with
  | zero => exact Nat.le_refl _
  | succ fuel ih =>
      unfold growLimit
      split
      · exact Nat.le_trans (by omega) (ih (2 * limit))
      · exact Nat.le_refl _

end Pbuf

end Cyue
