import Mathlib.Data.List.Basic
import Mathlib.Data.List.TakeWhile

/-!
# Splitting strings

`str::split` stores what `strtok` returns in an array, up to the null pointer
that ends the tokens.  It compares the number of entries with the size of the
array when it has stored one, and then may store another.
-/

namespace Cyue.Split

/-- `strtok` with the rest of its string: the token, or none for a null pointer,
and what the next call goes on with. -/
def strtok (delim rest : List UInt8) : Option (List UInt8) × List UInt8 :=
  match rest.dropWhile (· ∈ delim) with
  | [] => (none, [])
  | c :: s => (some ((c :: s).takeWhile (· ∉ delim)), ((c :: s).dropWhile (· ∉ delim)).drop 1)

/-- The loop after an entry was stored; `left` entries may follow before
`(buff - org) <= bufsize` fails. -/
def fill (delim : List UInt8) : ℕ → Option (List UInt8) → List UInt8 → List (Option (List UInt8))
  | 0, _, _ => []
  | left + 1, last, rest =>
      if last = none then []
      else
        let next := strtok delim rest
        next.1 :: fill delim left next.1 next.2

/-- The entries that are written, from the first one of the array on, and the
result. -/
structure Written where
  entries : List (Option (List UInt8))
  count : ℤ
  deriving DecidableEq

/-- `split`; one entry is stored in any case. -/
def split (src delim : List UInt8) (bufsize : ℕ) : Written :=
  let first := strtok delim src
  let entries := first.1 :: fill delim bufsize first.1 first.2
  ⟨entries, entries.length - 1⟩

/-- The tokens of a string: what is between delimiters, if it is not empty. -/
def tokens (delim src : List UInt8) : List (List UInt8) :=
  (src.splitOnP (· ∈ delim)).filter (· ≠ [])

def Written.stored (w : Written) : ℕ := w.entries.countP Option.isSome

/-- Nothing is written behind the array, and the result is the number of tokens
in it. -/
def Written.Within (w : Written) (bufsize : ℕ) : Prop :=
  w.entries.length ≤ bufsize ∧ w.count ≤ bufsize ∧ w.count = w.stored

instance (w : Written) (bufsize : ℕ) : Decidable (w.Within bufsize) :=
  inferInstanceAs (Decidable (_ ∧ _ ∧ _))

/-! ## Tokens -/

section

variable {delim : List UInt8}

theorem tokens_cons_delim {c : UInt8} (mem : c ∈ delim) (src : List UInt8) :
    tokens delim (c :: src) = tokens delim src := by
  rw [tokens, List.splitOnP_cons_eq_if_modifyHead, if_pos (by simpa using mem)]
  exact List.filter_cons_of_neg (by simp)

theorem tokens_dropWhile (src : List UInt8) :
    tokens delim (src.dropWhile (· ∈ delim)) = tokens delim src := by
  induction src with
  | nil => rfl
  | cons c src ih =>
      by_cases mem : c ∈ delim
      · rw [List.dropWhile_cons_of_pos (by simpa using mem), ih, tokens_cons_delim mem]
      · rw [List.dropWhile_cons_of_neg (by simpa using mem)]

/-- A token ends at the first delimiter, which is passed over. -/
theorem tokens_of_token {token : List UInt8} (plain : ∀ c ∈ token, c ∉ delim)
    (filled : token ≠ []) {rest : List UInt8} (ends : ∀ c ∈ rest.head?, c ∈ delim) :
    tokens delim (token ++ rest) = token :: tokens delim (rest.drop 1) := by
  have inside : ∀ c ∈ token, (decide (c ∈ delim)) = false := fun c mem => by
    simpa using plain c mem
  cases rest with
  | nil =>
      rw [List.append_nil, tokens, List.splitOnP_eq_singleton inside]
      exact List.filter_cons_of_pos (by simpa using filled)
  | cons c rest =>
      have sep : decide (c ∈ delim) = true := by simpa using ends c rfl
      rw [tokens, List.splitOnP_append_cons_of_forall_mem inside c sep]
      exact List.filter_cons_of_pos (by simpa using filled)

theorem tokens_of_none {rest : List UInt8} (ends : (strtok delim rest).1 = none) :
    tokens delim rest = [] := by
  rw [← tokens_dropWhile]
  rw [strtok] at ends
  cases begins : rest.dropWhile (· ∈ delim) with
  | nil => rfl
  | cons c s =>
      rw [begins] at ends
      cases ends

/-- `strtok` takes the first token off. -/
theorem tokens_of_some {rest token : List UInt8} (found : (strtok delim rest).1 = some token) :
    tokens delim rest = token :: tokens delim (strtok delim rest).2 := by
  rw [← tokens_dropWhile]
  rw [strtok] at found ⊢
  have head := List.head?_dropWhile_not (fun c => decide (c ∈ delim)) rest
  cases begins : rest.dropWhile (· ∈ delim) with
  | nil =>
      rw [begins] at found
      cases found
  | cons c s =>
      rw [begins] at found head
      have other : c ∉ delim := of_decide_eq_false head
      have same : (c :: s).takeWhile (· ∉ delim) = token := Option.some.inj found
      have filled : token ≠ [] := by
        rw [← same, List.takeWhile_cons_of_pos (by simpa using other)]
        exact List.cons_ne_nil _ _
      have plain : ∀ c ∈ token, c ∉ delim := by
        intro c mem
        rw [← same] at mem
        simpa using List.mem_takeWhile_imp mem
      have behind := List.head?_dropWhile_not (fun c => decide (c ∉ delim)) (c :: s)
      have ends : ∀ c' ∈ ((c :: s).dropWhile (· ∉ delim)).head?, c' ∈ delim := by
        intro c' mem
        rw [Option.mem_def.mp mem] at behind
        simpa using behind
      have whole : token ++ (c :: s).dropWhile (· ∉ delim) = c :: s := by
        rw [← same]
        exact List.takeWhile_append_dropWhile
      rw [← whole, tokens_of_token plain filled ends, whole]

/-! ## The entries -/

/-- The tokens are stored in their order, with a null pointer behind them if it
is stored before the loop stops. -/
theorem fill_eq (left : ℕ) (rest : List UInt8) :
    (strtok delim rest).1 :: fill delim left (strtok delim rest).1 (strtok delim rest).2 =
      ((tokens delim rest).map some ++ [none]).take (left + 1) := by
  induction left generalizing rest with
  | zero =>
      cases found : (strtok delim rest).1 with
      | none =>
          rw [tokens_of_none found]
          rfl
      | some token =>
          rw [tokens_of_some found]
          rfl
  | succ left ih =>
      cases found : (strtok delim rest).1 with
      | none =>
          rw [tokens_of_none found]
          rfl
      | some token =>
          rw [tokens_of_some found, fill, if_neg (Option.some_ne_none token), ih]
          rfl

end

theorem split_entries (src delim : List UInt8) (bufsize : ℕ) :
    (split src delim bufsize).entries =
      ((tokens delim src).map some ++ [none]).take (bufsize + 1) :=
  fill_eq bufsize src

theorem split_length (src delim : List UInt8) (bufsize : ℕ) :
    (split src delim bufsize).entries.length =
      min (bufsize + 1) ((tokens delim src).length + 1) := by
  rw [split_entries, List.length_take, List.length_append, List.length_map, List.length_singleton]

theorem split_stored (src delim : List UInt8) (bufsize : ℕ) :
    (split src delim bufsize).stored = min (bufsize + 1) (tokens delim src).length := by
  have all : ∀ kept : List (List UInt8), (kept.map some).countP Option.isSome = kept.length := by
    intro kept
    rw [List.countP_map]
    exact List.countP_eq_length.mpr fun _ _ => rfl
  have null : ∀ n, (([none] : List (Option (List UInt8))).take n).countP Option.isSome = 0 := by
    intro n
    refine List.countP_eq_zero.mpr fun entry mem => ?_
    rw [List.mem_singleton.mp (List.mem_of_mem_take mem)]
    decide
  rw [Written.stored, split_entries, List.take_append, List.countP_append, ← List.map_take, all,
    null, Nat.add_zero, List.length_take]

/-- Everything is in its bounds if and only if the string has fewer tokens than the
array has entries. -/
theorem split_within_iff (src delim : List UInt8) (bufsize : ℕ) :
    (split src delim bufsize).Within bufsize ↔ (tokens delim src).length < bufsize := by
  have count : (split src delim bufsize).count =
      ((split src delim bufsize).entries.length : ℤ) - 1 := rfl
  rw [Written.Within, count, split_length, split_stored]
  omega

/-- Two entries are written into an array of one. -/
theorem split_not_within :
    ¬∀ (src delim : List UInt8) (bufsize : ℕ), 1 ≤ bufsize →
      (split src delim bufsize).Within bufsize := by
  intro claim
  exact absurd (claim [97] [44] 1 (by decide)) (by decide)

end Cyue.Split
