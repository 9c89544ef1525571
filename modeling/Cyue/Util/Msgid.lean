import Mathlib.Algebra.Ring.Int.Defs
import Mathlib.Algebra.Ring.Nat
import Mathlib.Data.Nat.Notation

/-!
# Message ids

`msgid_generator<U32>`, which the serials of write buffers and the ids of
messages are drawn from.
-/

namespace Cyue.Msgid

def start : ℕ := 1000

def limit : ℕ := 0x80 * 2 ^ 24 - 1

def invalid : ℕ := 0

/-- `new_id`: the id, which is the new seed as well. -/
def newId (seed : ℕ) : ℕ := (if seed = limit then start else seed) + 1

theorem newId_valid (seed : ℕ) : newId seed ≠ invalid := Nat.succ_ne_zero _

end Cyue.Msgid
