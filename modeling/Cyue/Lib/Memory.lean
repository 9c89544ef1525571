import Cyue.Lib.Bytes
import Mathlib.Data.List.GetD

/-!
# Byte memory

A memory gives a byte at each offset.  `load` and `store` move byte strings,
`loadLe` and `storeLe` unsigned numbers in little-endian order.
-/

namespace Cyue.Memory

open Bytes

abbrev Mem := ℕ → UInt8

/-- The `n` bytes from offset `off` on. -/
def load (m : Mem) (off : ℕ) : ℕ → List UInt8
  | 0 => []
  | n + 1 => m off :: load m (off + 1) n

def store (m : Mem) (off : ℕ) (bytes : List UInt8) : Mem := fun i =>
  if off ≤ i ∧ i < off + bytes.length then bytes.getD (i - off) 0 else m i

def loadLe (m : Mem) (off width : ℕ) : ℕ := leNat (load m off width)

def storeLe (m : Mem) (off width n : ℕ) : Mem := store m off (leBytes width n)

@[simp]
theorem load_length (m : Mem) (off n : ℕ) : (load m off n).length = n := by
  induction n generalizing off with
  | zero => rfl
  | succ n ih => rw [load, List.length_cons, ih]

theorem load_add (m : Mem) (off n k : ℕ) :
    load m off (n + k) = load m off n ++ load m (off + n) k := by
  induction n generalizing off with
  | zero => rw [Nat.zero_add]; rfl
  | succ n ih =>
      have next : off + 1 + n = off + (n + 1) := by omega
      rw [Nat.succ_add, load, ih, load, List.cons_append, next]

theorem load_drop (m : Mem) (off : ℕ) {n k : ℕ} (le : k ≤ n) :
    load m (off + k) (n - k) = (load m off n).drop k := by
  have split := load_add m off k (n - k)
  rw [Nat.add_sub_cancel' le] at split
  rw [split, List.drop_left' (load_length _ _ _)]

/-- A load depends on the bytes that it reads alone. -/
theorem load_congr {m m' : Mem} {off n : ℕ} (same : ∀ i, off ≤ i → i < off + n → m i = m' i) :
    load m off n = load m' off n := by
  induction n generalizing off with
  | zero => rfl
  | succ n ih =>
      rw [load, load, same off (Nat.le_refl _) (by omega)]
      congr 1
      exact ih fun i lower upper => same i (by omega) (by omega)

theorem load_shift {m m' : Mem} {off off' n : ℕ} (same : ∀ i, i < n → m (off + i) = m' (off' + i)) :
    load m off n = load m' off' n := by
  induction n generalizing off off' with
  | zero => rfl
  | succ n ih =>
      rw [load, load]
      congr 1
      · exact same 0 (by omega)
      · refine ih fun i upper => ?_
        have next := same (i + 1) (by omega)
        rw [Nat.add_assoc, Nat.add_comm 1, Nat.add_assoc, Nat.add_comm 1]
        exact next

/-- What has been stored is loaded again. -/
theorem load_store (m : Mem) (off : ℕ) (bytes : List UInt8) :
    load (store m off bytes) off bytes.length = bytes := by
  induction bytes generalizing m off with
  | nil => rfl
  | cons byte rest ih =>
      have here : store m off (byte :: rest) off = byte := by
        simp [store]
      have rest_eq : load (store m off (byte :: rest)) (off + 1) rest.length =
          load (store m (off + 1) rest) (off + 1) rest.length := by
        refine load_congr fun i lower upper => ?_
        obtain ⟨k, rfl⟩ := Nat.exists_eq_add_of_le lower
        have inside : off ≤ off + 1 + k ∧ off + 1 + k < off + (rest.length + 1) := by omega
        have index : off + 1 + k - off = k + 1 := by omega
        have index' : off + 1 + k - (off + 1) = k := by omega
        simp only [store, List.length_cons, inside, and_self, if_true, upper, lower, index, index',
          List.getD_cons_succ]
      rw [List.length_cons, load, here, rest_eq, ih]

/-- A load beside a store sees the memory before it. -/
theorem load_store_of_disjoint {m : Mem} {off off' n : ℕ} {bytes : List UInt8}
    (apart : off + n ≤ off' ∨ off' + bytes.length ≤ off) :
    load (store m off' bytes) off n = load m off n := by
  refine load_congr fun i lower upper => ?_
  have outside : ¬ (off' ≤ i ∧ i < off' + bytes.length) := by omega
  rw [store, if_neg outside]

theorem load_get {m : Mem} {off n i : ℕ} (inside : i < n) :
    (load m off n).getD i 0 = m (off + i) := by
  induction n generalizing off i with
  | zero => omega
  | succ n ih =>
      cases i with
      | zero => rfl
      | succ i =>
          have next := @ih (off + 1) i (by omega)
          rw [load, List.getD_cons_succ, next, Nat.add_assoc, Nat.add_comm 1]

theorem store_get (m : Mem) (off : ℕ) {i : ℕ} {bytes : List UInt8} (inside : i < bytes.length) :
    store m off bytes (off + i) = bytes.getD i 0 := by
  rw [store, if_pos (by omega), Nat.add_sub_cancel_left]

/-- A store leaves the bytes in front of it. -/
theorem store_of_lt {m : Mem} {off i : ℕ} {bytes : List UInt8} (before : i < off) :
    store m off bytes i = m i := by
  rw [store, if_neg (by omega)]

theorem store_apart {m : Mem} {off i : ℕ} {bytes : List UInt8}
    (outside : i < off ∨ off + bytes.length ≤ i) : store m off bytes i = m i := by
  rw [store, if_neg (by omega)]

@[simp]
theorem store_nil (m : Mem) (off : ℕ) : store m off [] = m := by
  funext i
  rw [store, if_neg (by rw [List.length_nil]; omega)]

/-- Storing what is there changes nothing. -/
theorem store_load (m : Mem) (off n : ℕ) : store m off (load m off n) = m := by
  funext i
  unfold store
  split
  case isTrue inside =>
      rw [load_length] at inside
      obtain ⟨k, rfl⟩ := Nat.exists_eq_add_of_le inside.1
      rw [Nat.add_sub_cancel_left, load_get (by omega)]
  case isFalse => rfl

theorem loadLe_congr {m m' : Mem} {off width : ℕ}
    (same : ∀ i, off ≤ i → i < off + width → m i = m' i) :
    loadLe m off width = loadLe m' off width :=
  congrArg leNat (load_congr same)

theorem loadLe_shift {m m' : Mem} {off off' width : ℕ}
    (same : ∀ i, i < width → m (off + i) = m' (off' + i)) :
    loadLe m off width = loadLe m' off' width :=
  congrArg leNat (load_shift same)

/-- A number beside a store is the one before it. -/
theorem loadLe_store_of_disjoint {m : Mem} {off off' width : ℕ} {bytes : List UInt8}
    (apart : off + width ≤ off' ∨ off' + bytes.length ≤ off) :
    loadLe (store m off' bytes) off width = loadLe m off width :=
  congrArg leNat (load_store_of_disjoint apart)

theorem loadLe_storeLe_of_disjoint {m : Mem} {off off' width width' n : ℕ}
    (apart : off + width ≤ off' ∨ off' + width' ≤ off) :
    loadLe (storeLe m off' width' n) off width = loadLe m off width :=
  loadLe_store_of_disjoint (by rwa [leBytes_length])

theorem loadLe_storeLe {m : Mem} {off width n : ℕ} (fits : n < 256 ^ width) :
    loadLe (storeLe m off width n) off width = n := by
  have whole := load_store m off (leBytes width n)
  rw [leBytes_length] at whole
  rw [loadLe, storeLe, whole, leNat_leBytes fits]

/-- A number that is too large for its width is cut off. -/
theorem loadLe_storeLe_mod (m : Mem) (off width n : ℕ) :
    loadLe (storeLe m off width n) off width = n % 256 ^ width := by
  have whole := load_store m off (leBytes width n)
  rw [leBytes_length] at whole
  rw [loadLe, storeLe, whole, leNat, leBytes, List.reverse_reverse, beNat_beBytes_mod]

/-- A number that is stored where it has been read changes nothing. -/
theorem storeLe_loadLe (m : Mem) (off width : ℕ) :
    storeLe m off width (loadLe m off width) = m := by
  have bytes := leBytes_leNat (load m off width)
  rw [load_length] at bytes
  rw [storeLe, loadLe, bytes, store_load]

end Cyue.Memory
