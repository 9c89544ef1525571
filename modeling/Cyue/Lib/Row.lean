import Cyue.Lib.Memory

/-!
# Records in a row

Records of different sizes that lie in memory one behind another.  A format says how many
bytes a record takes and when it is found at an offset, which depends on these bytes alone.
-/

namespace Cyue.Memory

structure Format (α : Type*) where
  size : α → ℕ
  At : Mem → ℕ → α → Prop
  moved : ∀ {m m' : Mem} {off off' : ℕ} {x : α},
    (∀ i, i < size x → m' (off' + i) = m (off + i)) → At m off x → At m' off' x

namespace Format

variable {α : Type*} {f : Format α} {m m' : Mem} {off off' n : ℕ} {xs ys : List α}

def total (f : Format α) (xs : List α) : ℕ := (xs.map f.size).sum

/-- The records lie in memory from `off` on. -/
def Row (f : Format α) (m : Mem) : ℕ → List α → Prop
  | _, [] => True
  | off, x :: xs => f.At m off x ∧ Row f m (off + f.size x) xs

@[simp]
theorem total_nil (f : Format α) : f.total [] = 0 := rfl

@[simp]
theorem total_cons (f : Format α) (x : α) (xs : List α) :
    f.total (x :: xs) = f.size x + f.total xs := List.sum_cons

@[simp]
theorem total_append (f : Format α) (xs ys : List α) :
    f.total (xs ++ ys) = f.total xs + f.total ys := by
  unfold total
  rw [List.map_append, List.sum_append]

theorem total_const (const : ∀ x, f.size x = n) (xs : List α) : f.total xs = n * xs.length := by
  induction xs with
  | nil => rfl
  | cons x xs ih => rw [total_cons, const, ih, List.length_cons, Nat.mul_succ, Nat.add_comm]

theorem row_append :
    f.Row m off (xs ++ ys) ↔ f.Row m off xs ∧ f.Row m (off + f.total xs) ys := by
  induction xs generalizing off with
  | nil => exact (and_iff_right trivial).symm
  | cons x xs ih =>
      rw [List.cons_append, Row, Row, ih, total_cons, ← Nat.add_assoc, and_assoc]

/-- A row goes where its bytes go. -/
theorem Row.moved (row : f.Row m off xs)
    (same : ∀ i, i < f.total xs → m' (off' + i) = m (off + i)) : f.Row m' off' xs := by
  induction xs generalizing off off' with
  | nil => exact trivial
  | cons x xs ih =>
      obtain ⟨first, rest⟩ := row
      rw [total_cons] at same
      refine ⟨f.moved (fun i inside => same i (by omega)) first, ih rest fun i inside => ?_⟩
      rw [Nat.add_assoc, Nat.add_assoc]
      exact same _ (by omega)

/-- A row stays where its bytes are kept. -/
theorem Row.kept (row : f.Row m off xs)
    (same : ∀ i, off ≤ i → i < off + f.total xs → m' i = m i) : f.Row m' off xs :=
  row.moved fun i inside => same _ (by omega) (by omega)

/-- Records of one size are found by their index. -/
theorem row_iff_get (const : ∀ x, f.size x = n) :
    f.Row m off xs ↔ ∀ i (inside : i < xs.length), f.At m (off + n * i) xs[i] := by
  induction xs generalizing off with
  | nil => exact ⟨fun _ _ inside => absurd inside (Nat.not_lt_zero _), fun _ => trivial⟩
  | cons x xs ih =>
      rw [Row, ih, const]
      constructor
      · rintro ⟨first, rest⟩ i inside
        cases i with
        | zero => exact first
        | succ i =>
            have next := rest i (Nat.lt_of_succ_lt_succ inside)
            rw [Nat.add_assoc, Nat.add_comm n, ← Nat.mul_succ] at next
            exact next
      · intro all
        refine ⟨all 0 (Nat.zero_lt_succ _), fun i inside => ?_⟩
        have next := all (i + 1) (Nat.succ_lt_succ inside)
        rw [Nat.mul_succ, Nat.add_comm _ n, ← Nat.add_assoc] at next
        exact next

/-- One record of a row is replaced where it lies. -/
theorem Row.set (const : ∀ x, f.size x = n) (row : f.Row m off xs) {i : ℕ} {x : α}
    (here : f.At m' (off + n * i) x)
    (same : ∀ j, off ≤ j → j < off + n * i ∨ off + n * i + n ≤ j → j < off + n * xs.length →
      m' j = m j) : f.Row m' off (xs.set i x) := by
  rw [row_iff_get const] at row ⊢
  intro k inside
  rw [List.length_set] at inside
  rw [List.getElem_set]
  split
  case isTrue equal => exact equal ▸ here
  case isFalse other =>
      have last : n * k + n ≤ n * xs.length := (Nat.mul_succ n k).symm.trans_le (Nat.mul_le_mul_left n inside)
      have apart : n * k + n ≤ n * i ∨ n * i + n ≤ n * k := by
        rcases Nat.lt_or_gt_of_ne other with less | less
        · exact .inr ((Nat.mul_succ n i).symm.trans_le (Nat.mul_le_mul_left n less))
        · exact .inl ((Nat.mul_succ n k).symm.trans_le (Nat.mul_le_mul_left n less))
      refine f.moved (fun j lower => ?_) (row k inside)
      rw [const] at lower
      exact same _ (by omega) (by omega) (by omega)

/-- The images of records, copied to memory one behind another. -/
theorem row_of_load {image : α → List UInt8} (length : ∀ x, (image x).length = f.size x)
    (reads : ∀ off, ∀ x ∈ xs, load m off (f.size x) = image x → f.At m off x)
    (all : load m off (f.total xs) = xs.flatMap image) : f.Row m off xs := by
  induction xs generalizing off with
  | nil => exact trivial
  | cons x xs ih =>
      rw [total_cons, load_add, List.flatMap_cons] at all
      obtain ⟨first, rest⟩ := List.append_inj all (by rw [load_length, length])
      refine ⟨reads off x List.mem_cons_self first, ih (fun off x member => ?_) rest⟩
      exact reads off x (List.mem_cons_of_mem _ member)

end Format

end Cyue.Memory
