import Cyue.Lib.Memory

/-!
# C strings

`str::cmp` and `str::copy` on memories in which a string begins at offset 0.
Both are given one bound for their two arguments, and both answer, next to
their result, how far they went in the first one.
-/

namespace Cyue.Str

open Memory

abbrev CString := { s : List UInt8 // (0 : UInt8) ∉ s }

namespace CString

def length (s : CString) : ℕ := s.1.length

/-- The string behind a `const char *`, with its terminator. -/
def bytes (s : CString) : Mem := fun i => s.1.getD i 0

end CString

/-- The loop of `_cmp` at index `i`, and the last index that it reads. -/
def cmpFrom (a b : Mem) (al bl : ℕ) : ℕ → ℕ → ℤ × ℕ
  | 0, i => (0, i)
  | turns + 1, i =>
    if a i ≠ 0 ∧ b i ≠ 0 then
      if (b i).toInt8 < (a i).toInt8 then (1, i)
      else if (a i).toInt8 < (b i).toInt8 then (-1, i)
      else if al < i + 1 then (if bl < i + 1 then 0 else -1, i)
      else if bl < i + 1 then (1, i)
      else cmpFrom a b al bl turns (i + 1)
    else if a i = b i then (0, i)
    else if b i = 0 then (1, i)
    else (-1, i)

/-- `cmp`.  The loop stops at the index `sz` at the latest. -/
def cmp (a b : Mem) (sz : ℕ) : ℤ × ℕ := cmpFrom a b sz sz (sz + 1) 0

/-- The loop of `_copy` at index `i`, and the last index that it writes. -/
def copyFrom (al bl : ℕ) : Mem → List UInt8 → ℕ → Mem × ℕ
  | a, [], i => (Function.update a i 0, i)
  | a, c :: b, i =>
    if al ≤ i + 1 then (Function.update (Function.update a i c) (al - 1) 0, i)
    else if bl ≤ i + 1 then (Function.update (Function.update a i c) (i + 1) 0, i + 1)
    else copyFrom al bl (Function.update a i c) b (i + 1)

def copy (a : Mem) (b : CString) (sz : ℕ) : Mem × ℕ := copyFrom sz sz a b.1 0

/-! ## Memories that hold a string -/

/-- The string, with its terminator, stands at the beginning of the memory. -/
def Holds (m : Mem) (s : CString) : Prop := ∀ i, i ≤ s.length → m i = s.bytes i

variable {a : Mem} {s t : CString} {sz i : ℕ}

theorem bytes_eq_zero_iff (inside : i ≤ s.length) : s.bytes i = 0 ↔ i = s.length := by
  constructor
  · intro zero
    by_contra other
    have less : i < s.1.length := lt_of_le_of_ne inside other
    rw [CString.bytes, List.getD_eq_getElem _ _ less] at zero
    exact s.2 (List.mem_of_getElem zero)
  · rintro rfl
    exact List.getD_eq_default _ _ (le_refl s.1.length)

/-- A string is found again by its bytes. -/
theorem eq_of_bytes (same : ∀ i, i ≤ s.length → i ≤ t.length → s.bytes i = t.bytes i) : s = t := by
  have lengths : s.length = t.length := by
    rcases lt_trichotomy s.length t.length with less | equal | more
    · have ends := (bytes_eq_zero_iff (s := s) le_rfl).mpr rfl
      rw [same _ le_rfl less.le, bytes_eq_zero_iff less.le] at ends
      exact ends
    · exact equal
    · have ends := (bytes_eq_zero_iff (s := t) le_rfl).mpr rfl
      rw [← same _ more.le le_rfl, bytes_eq_zero_iff more.le] at ends
      exact ends.symm
  apply Subtype.ext
  apply List.ext_getElem lengths
  intro i left right
  have equal := same i left.le right.le
  rwa [CString.bytes, CString.bytes, List.getD_eq_getElem _ _ left,
    List.getD_eq_getElem _ _ right] at equal

/-- Up to the end of the held string the comparison is exact. -/
theorem cmpFrom_spec {turns : ℕ} (holds : Holds a s) (bound : s.length ≤ sz)
    (enough : s.length < i + turns) (left : i ≤ s.length) (right : i ≤ t.length)
    (equal : ∀ j, j < i → s.bytes j = t.bytes j) :
    ((cmpFrom a t.bytes sz sz turns i).1 = 0 ↔ s = t) ∧
      (cmpFrom a t.bytes sz sz turns i).2 ≤ s.length := by
  induction turns generalizing i with
  | zero => exact absurd left (Nat.not_le_of_lt enough)
  | succ turns ih =>
      have here : a i = s.bytes i := holds i left
      have minus : (-1 : ℤ) ≠ 0 := by decide
      have ne_of_bytes : s.bytes i ≠ t.bytes i → s ≠ t := by
        rintro differ rfl
        exact differ rfl
      rw [cmpFrom, here]
      split
      case isTrue going =>
        have left' : i < s.length := lt_of_le_of_ne left fun same =>
          going.1 ((bytes_eq_zero_iff left).mpr same)
        have right' : i < t.length := lt_of_le_of_ne right fun same =>
          going.2 ((bytes_eq_zero_iff right).mpr same)
        split
        case isTrue more =>
          refine ⟨iff_of_false Int.one_ne_zero (ne_of_bytes ?_), left⟩
          intro same
          exact absurd more (same ▸ Int8.lt_irrefl)
        case isFalse notMore =>
          split
          case isTrue less =>
            refine ⟨iff_of_false minus (ne_of_bytes ?_), left⟩
            intro same
            exact absurd less (same ▸ Int8.lt_irrefl)
          case isFalse notLess =>
            have signed : (s.bytes i).toInt8 = (t.bytes i).toInt8 :=
              Int8.le_antisymm (Int8.not_lt.mp notMore) (Int8.not_lt.mp notLess)
            have same : s.bytes i = t.bytes i := congrArg Int8.toUInt8 signed
            rw [if_neg (by omega), if_neg (by omega)]
            refine ih (by omega) left' right' fun j before => ?_
            rcases Nat.lt_succ_iff_lt_or_eq.mp before with less | rfl
            · exact equal j less
            · exact same
      case isFalse stopped =>
        split
        case isTrue same =>
          refine ⟨iff_of_true rfl ?_, left⟩
          have ends : s.bytes i = 0 := by
            by_contra going
            exact stopped ⟨going, same ▸ going⟩
          have left' := (bytes_eq_zero_iff left).mp ends
          have right' := (bytes_eq_zero_iff right).mp (same ▸ ends)
          apply eq_of_bytes
          intro j inside _
          rcases Nat.lt_or_eq_of_le (left' ▸ inside) with less | rfl
          · exact equal j less
          · exact same
        case isFalse differ =>
          split
          case isTrue => exact ⟨iff_of_false Int.one_ne_zero (ne_of_bytes differ), left⟩
          case isFalse => exact ⟨iff_of_false minus (ne_of_bytes differ), left⟩

/-- A held string within the bound is compared exactly, and is not read past
its terminator. -/
theorem cmp_spec (holds : Holds a s) (t : CString) (bound : s.length ≤ sz) :
    ((cmp a t.bytes sz).1 = 0 ↔ s = t) ∧ (cmp a t.bytes sz).2 ≤ s.length :=
  cmpFrom_spec holds bound (by omega) (Nat.zero_le _) (Nat.zero_le _) nofun

/-- A string that is shorter than the bound is copied with its terminator. -/
theorem copyFrom_spec {b : List UInt8} {a : Mem} (short : i + b.length < sz) :
    (copyFrom sz sz a b i).2 = i + b.length ∧
      (∀ j, j < i → (copyFrom sz sz a b i).1 j = a j) ∧
      ∀ j, j ≤ b.length → (copyFrom sz sz a b i).1 (i + j) = b.getD j 0 := by
  induction b generalizing a i with
  | nil =>
      refine ⟨rfl, fun j before => Function.update_of_ne (Nat.ne_of_lt before) .., ?_⟩
      intro j inside
      obtain rfl := Nat.le_zero.mp inside
      exact Function.update_self ..
  | cons c b ih =>
      rw [List.length_cons] at short
      obtain ⟨last, kept, written⟩ := @ih (i + 1) (Function.update a i c) (by omega)
      rw [copyFrom, if_neg (by omega), if_neg (by omega)]
      refine ⟨last.trans ?_, fun j before => ?_, fun j inside => ?_⟩
      · rw [List.length_cons]
        omega
      · rw [kept j (Nat.lt_succ_of_lt before)]
        exact Function.update_of_ne (Nat.ne_of_lt before) ..
      · cases j with
        | zero =>
            exact (kept i (Nat.lt_succ_self i)).trans (Function.update_self ..)
        | succ j =>
            rw [Nat.add_comm j, ← Nat.add_assoc, written j (Nat.le_of_succ_le_succ inside)]
            rw [Nat.add_comm 1]
            rfl

theorem copy_holds (short : t.length < sz) : Holds (copy a t sz).1 t := by
  have fits : 0 + t.1.length < sz := by rwa [Nat.zero_add]
  intro i inside
  have written := (copyFrom_spec (a := a) fits).2.2 i inside
  rwa [Nat.zero_add] at written

theorem copy_last (short : t.length < sz) : (copy a t sz).2 = t.length := by
  have fits : 0 + t.1.length < sz := by rwa [Nat.zero_add]
  exact (copyFrom_spec (a := a) fits).1.trans (Nat.zero_add _)

/-- A longer one fills all of the bound. -/
theorem copyFrom_long {b : List UInt8} {a : Mem} (inside : i < sz) (long : sz ≤ i + b.length) :
    (copyFrom sz sz a b i).2 + 1 = sz := by
  induction b generalizing a i with
  | nil => exact absurd inside (Nat.not_lt_of_le long)
  | cons c b ih =>
      rw [List.length_cons] at long
      rw [copyFrom]
      split
      case isTrue ends => exact Nat.le_antisymm inside ends
      case isFalse going =>
        exact ih (Nat.not_le.mp going) (by omega)

/-- A string of at least `area` bytes is copied over the end of an area that is
smaller than the bound. -/
theorem copy_beyond {area : ℕ} (long : area ≤ t.length) (small : area < sz) :
    area ≤ (copy a t sz).2 := by
  rcases Nat.lt_or_ge t.length sz with short | enough
  · rw [copy_last short]
    exact long
  · have filled := @copyFrom_long sz 0 t.1 a (Nat.zero_lt_of_lt small) (by rwa [Nat.zero_add])
    rw [copy]
    omega

end Cyue.Str
