import Cyue.Http.Fsm
import Mathlib.Data.List.TakeWhile

/-!
# Numbers in texts

`_atoi`, `_atobn`, `htoi` and `htobn` are one loop over the digits of a text.
They differ in the base and in the type of the result, which the loop computes
in; the length that they allow is far above the digits that fit into it.
-/

namespace Cyue.Number

open Http (decDigit hexDigit)

/-- `NBR_EFORMAT` and `NBR_ELENGTH` -/
inductive Error where
  | format
  | length
  deriving DecidableEq, Repr

def wrap (bits : ℕ) (n : ℤ) : ℤ := n.bmod (2 ^ bits)

section

variable (bits base : ℕ) (digit : UInt8 → Option ℕ)

/-- The loop, which ends at the terminator; `pos` is `_s - str`. -/
def digitsFrom (max : ℤ) : ℤ → ℕ → List UInt8 → Except Error ℤ
  | i, _, [] => .ok i
  | i, pos, c :: s =>
      if c = 0 then .ok i
      else match digit c with
        | none => .error .format
        | some num =>
            if max ≤ (pos + 1 : ℕ) then .error .length
            else digitsFrom max (wrap bits (i * base + num)) (pos + 1) s

def parse (str : List UInt8) (max : ℤ) : Except Error ℤ :=
  match str with
  | 45 :: s => (digitsFrom bits base digit max 0 1 s).map fun i => wrap bits (-1 * i)
  | s => digitsFrom bits base digit max 0 0 s

end

def atoi : List UInt8 → ℤ → Except Error ℤ := parse 32 10 decDigit

def atobn : List UInt8 → ℤ → Except Error ℤ := parse 64 10 decDigit

def htoi : List UInt8 → ℤ → Except Error ℤ := parse 32 16 hexDigit

def htobn : List UInt8 → ℤ → Except Error ℤ := parse 64 16 hexDigit

/-! ## What a text denotes -/

def text (str : List UInt8) : List UInt8 := str.takeWhile (· ≠ 0)

/-- The digits of a text, and whether they stand behind a sign. -/
def signed : List UInt8 → Bool × List UInt8
  | 45 :: s => (true, s)
  | s => (false, s)

variable {bits base : ℕ} {digit : UInt8 → Option ℕ}

/-- The value of digits behind others with the value `n`. -/
def natFrom (base : ℕ) (digit : UInt8 → Option ℕ) : ℕ → List UInt8 → Option ℕ
  | n, [] => some n
  | n, c :: s => (digit c).bind fun d => natFrom base digit (n * base + d) s

/-- The integer that a text stands for, if it is a number. -/
def value (base : ℕ) (digit : UInt8 → Option ℕ) (t : List UInt8) : Option ℤ :=
  if (signed t).2 = [] then none
  else (natFrom base digit 0 (signed t).2).map fun n : ℕ =>
    if (signed t).1 then -(n : ℤ) else n

/-- If this is a success, the result is the value of the text. -/
def Exact (base : ℕ) (digit : UInt8 → Option ℕ) (result : Except Error ℤ) (str : List UInt8) :
    Prop :=
  ∀ i, result = .ok i → value base digit (text str) = some i

/-- The text has digits, and the number they make fits if it is short enough. -/
def Fits (bits base : ℕ) (digit : UInt8 → Option ℕ) (str : List UInt8) (max : ℤ) : Prop :=
  text str ≠ [] ∧ text str ≠ [45] ∧
    ∀ x, value base digit (text str) = some x → ((text str).length : ℤ) < max →
      -2 ^ (bits - 1) ≤ x ∧ x < 2 ^ (bits - 1)

/-! ## The loop -/

theorem wrap_step (n b d : ℤ) : wrap bits (wrap bits n * b + d) = wrap bits (n * b + d) := by
  unfold wrap
  rw [← Int.bmod_add_bmod, Int.bmod_mul_bmod, Int.bmod_add_bmod]

theorem wrap_neg (n : ℤ) : wrap bits (-1 * wrap bits n) = wrap bits (-n) := by
  unfold wrap
  rw [Int.mul_bmod_bmod, Int.neg_one_mul]

theorem wrap_zero : wrap bits 0 = 0 := Int.zero_bmod

/-- The numbers that a signed type has. -/
theorem wrap_eq_iff (bits : ℕ) (n : ℤ) :
    wrap (bits + 1) n = n ↔ -2 ^ bits ≤ n ∧ n < 2 ^ bits := by
  have double : ((2 ^ (bits + 1) : ℕ) : ℤ) = 2 ^ bits * 2 := by
    push_cast
    rw [Int.pow_succ]
  have room : 0 < 2 ^ (bits + 1) := Nat.two_pow_pos _
  have low := Int.le_bmod (x := n) room
  have high := Int.bmod_lt (x := n) room
  unfold wrap
  constructor
  · intro same
    rw [same] at low high
    omega
  · rintro ⟨above, below⟩
    exact Int.bmod_eq_of_le (by omega) (by omega)

theorem text_cons {c : UInt8} (filled : c ≠ 0) (str : List UInt8) :
    text (c :: str) = c :: text str :=
  List.takeWhile_cons_of_pos (decide_eq_true filled)

theorem digitsFrom_text {max i : ℤ} {pos : ℕ} (str : List UInt8) :
    digitsFrom bits base digit max i pos (text str) = digitsFrom bits base digit max i pos str := by
  induction str generalizing i pos with
  | nil => rfl
  | cons c str ih =>
      by_cases zero : c = 0
      · subst zero
        rfl
      · rw [text_cons zero, digitsFrom, digitsFrom, if_neg zero, if_neg zero]
        cases digit c with
        | none => rfl
        | some num =>
            simp only
            rw [ih]

/-- The loop over a text gives what its digits denote, if it stays within the length. -/
theorem digitsFrom_eq_ok_iff {max i : ℤ} {n pos : ℕ} {t : List UInt8} (plain : ∀ c ∈ t, c ≠ 0) :
    digitsFrom bits base digit max (wrap bits n) pos t = .ok i ↔
      ∃ v : ℕ, natFrom base digit n t = some v ∧ (t = [] ∨ ((pos + t.length : ℕ) : ℤ) < max) ∧
        i = wrap bits v := by
  induction t generalizing n pos with
  | nil =>
      rw [digitsFrom, natFrom]
      constructor
      · intro same
        cases same
        exact ⟨n, rfl, Or.inl rfl, rfl⟩
      · rintro ⟨v, value, -, rfl⟩
        cases value
        rfl
  | cons c t ih =>
      have rest : ∀ c ∈ t, c ≠ 0 := fun c mem => plain c (List.mem_cons_of_mem _ mem)
      rw [digitsFrom, if_neg (plain c List.mem_cons_self), natFrom]
      cases digit c with
      | none =>
          constructor
          · intro same
            cases same
          · rintro ⟨v, value, -⟩
            cases value
      | some num =>
          have next : wrap bits (wrap bits n * base + num) = wrap bits ((n * base + num : ℕ) : ℤ) := by
            rw [wrap_step]
            push_cast
            rfl
          simp only [Option.bind_some]
          rw [next]
          by_cases long : max ≤ (pos + 1 : ℕ)
          · rw [if_pos long]
            constructor
            · intro same
              cases same
            · rintro ⟨v, -, empty | short, -⟩
              · cases empty
              · rw [List.length_cons] at short
                omega
          · rw [if_neg long, ih rest, List.length_cons]
            have fits : (t = [] ∨ ((pos + 1 + t.length : ℕ) : ℤ) < max) ↔
                (c :: t = [] ∨ ((pos + (t.length + 1) : ℕ) : ℤ) < max) := by
              cases t with
              | nil =>
                  refine iff_of_true (Or.inl rfl) (Or.inr ?_)
                  simp only [List.length_nil]
                  omega
              | cons d t =>
                  simp only [reduceCtorEq, false_or, List.length_cons]
                  omega
            rw [fits]

theorem map_eq_ok_iff {f : ℤ → ℤ} {result : Except Error ℤ} {i : ℤ} :
    result.map f = .ok i ↔ ∃ j, result = .ok j ∧ f j = i := by
  cases result with
  | error fault =>
      constructor
      · intro same
        cases same
      · rintro ⟨j, same, -⟩
        cases same
  | ok j =>
      constructor
      · intro same
        cases same
        exact ⟨j, rfl, rfl⟩
      · rintro ⟨j', same, rfl⟩
        cases same
        rfl

/-! ## The parsers -/

theorem text_plain (str : List UInt8) : ∀ c ∈ text str, c ≠ 0 := by
  intro c mem
  simpa using List.mem_takeWhile_imp mem

theorem parse_eq (str : List UInt8) (max : ℤ) :
    parse bits base digit str max =
      if (signed str).1 then
        (digitsFrom bits base digit max 0 1 (signed str).2).map fun i => wrap bits (-1 * i)
      else digitsFrom bits base digit max 0 0 (signed str).2 := by
  unfold parse signed
  split <;> rfl

theorem signed_of_other {str : List UInt8} (other : ∀ s, str ≠ 45 :: s) :
    signed str = (false, str) := by
  unfold signed
  split
  · exact absurd rfl (other _)
  · rfl

theorem signed_text (str : List UInt8) :
    signed (text str) = ((signed str).1, text (signed str).2) := by
  cases str with
  | nil => rfl
  | cons c str =>
      by_cases minus : c = 45
      · subst minus
        rfl
      · have unsigned : ∀ s, signed (c :: s) = (false, c :: s) := by
          intro s
          exact signed_of_other fun s' same => minus (List.cons.inj same).1
        rw [unsigned]
        by_cases zero : c = 0
        · subst zero
          rfl
        · rw [text_cons zero, unsigned]

theorem signed_length (t : List UInt8) :
    t.length = (if (signed t).1 then 1 else 0) + (signed t).2.length := by
  unfold signed
  split
  · rw [List.length_cons, Nat.add_comm]
    rfl
  · exact (Nat.zero_add _).symm

theorem signed_digits_eq_nil_iff (t : List UInt8) : (signed t).2 = [] ↔ t = [] ∨ t = [45] := by
  unfold signed
  split
  · simp only [reduceCtorEq, false_or, List.cons.injEq, true_and]
  · rename_i other
    constructor
    · exact Or.inl
    · rintro (empty | sign)
      · exact empty
      · exact absurd sign (other [])

/-- The parsers give the low bits of what the text stands for. -/
theorem parse_eq_ok_iff {max i : ℤ} (str : List UInt8) :
    parse bits base digit str max = .ok i ↔
      ∃ v : ℕ, natFrom base digit 0 (signed (text str)).2 = some v ∧
        ((signed (text str)).2 = [] ∨ ((text str).length : ℤ) < max) ∧
        i = wrap bits (if (signed (text str)).1 then -(v : ℤ) else v) := by
  have plain : ∀ c ∈ text (signed str).2, c ≠ 0 := text_plain _
  have begins : (0 : ℤ) = wrap bits ((0 : ℕ) : ℤ) := wrap_zero.symm
  have length := signed_length (text str)
  rw [signed_text] at length ⊢
  rw [parse_eq, length]
  cases (signed str).1 with
  | false =>
      simp only [Bool.false_eq_true, if_false]
      rw [← digitsFrom_text, begins, digitsFrom_eq_ok_iff plain]
  | true =>
      simp only [if_true]
      rw [← digitsFrom_text, begins]
      constructor
      · intro same
        obtain ⟨j, read, rfl⟩ := map_eq_ok_iff.mp same
        obtain ⟨v, value, short, rfl⟩ := (digitsFrom_eq_ok_iff plain).mp read
        exact ⟨v, value, short, wrap_neg v⟩
      · rintro ⟨v, value, short, rfl⟩
        exact map_eq_ok_iff.mpr
          ⟨wrap bits v, (digitsFrom_eq_ok_iff plain).mpr ⟨v, value, short, rfl⟩, wrap_neg v⟩

theorem value_of_natFrom {t : List UInt8} {v : ℕ} (digits : (signed t).2 ≠ [])
    (read : natFrom base digit 0 (signed t).2 = some v) :
    value base digit t = some (if (signed t).1 then -(v : ℤ) else v) := by
  rw [value, if_neg digits, read, Option.map_some]

/-- A success is the value of the text if and only if there are digits and their
number fits into the type of the result. -/
theorem parse_kept_iff (str : List UInt8) (max : ℤ) :
    Exact base digit (parse (bits + 1) base digit str max) str ↔
      Fits (bits + 1) base digit str max := by
  have blank := signed_digits_eq_nil_iff (text str)
  unfold Exact Fits
  rw [Nat.add_sub_cancel]
  by_cases digits : (signed (text str)).2 = []
  · -- nothing is read, and the result is 0
    have nothing : value base digit (text str) = none := by rw [value, if_pos digits]
    constructor
    · intro holds
      have blankRead : natFrom base digit 0 (signed (text str)).2 = some 0 := by
        rw [digits]
        rfl
      have denotes := holds _ ((parse_eq_ok_iff str).mpr ⟨0, blankRead, Or.inl digits, rfl⟩)
      rw [nothing] at denotes
      cases denotes
    · rintro ⟨nonempty, unsigned, -⟩
      rcases blank.mp digits with empty | sign
      · exact absurd empty nonempty
      · exact absurd sign unsigned
  · have filled : text str ≠ [] ∧ text str ≠ [45] := not_or.mp fun either => digits (blank.mpr either)
    cases read : natFrom base digit 0 (signed (text str)).2 with
    | none =>
        constructor
        · intro _
          refine ⟨filled.1, filled.2, fun x denotes => ?_⟩
          rw [value, if_neg digits, read] at denotes
          cases denotes
        · intro _ i success
          obtain ⟨v, same, -⟩ := (parse_eq_ok_iff str).mp success
          rw [read] at same
          cases same
    | some v =>
        have denotes := value_of_natFrom digits read
        constructor
        · intro holds
          refine ⟨filled.1, filled.2, fun x same short => ?_⟩
          rw [denotes] at same
          have kept := holds _ ((parse_eq_ok_iff str).mpr ⟨v, read, Or.inr short, rfl⟩)
          rw [denotes] at kept
          rw [← wrap_eq_iff, ← Option.some.inj same]
          exact (Option.some.inj kept).symm
        · rintro ⟨-, -, fits⟩ i success
          obtain ⟨v', same, empty | short, rfl⟩ := (parse_eq_ok_iff str).mp success
          · exact absurd empty digits
          · rw [read] at same
            cases same
            rw [(wrap_eq_iff bits _).mpr (fits _ denotes short)]
            exact denotes

/-- In each of the four a success is the value of the text if and only if the text
is neither empty nor a sign alone, and the number that it stands for, where it is
shorter than `max`, is in the range of the result. -/
theorem number_exact_iff (str : List UInt8) (max : ℤ) :
    (Exact 10 decDigit (atoi str max) str ↔ Fits 32 10 decDigit str max) ∧
      (Exact 10 decDigit (atobn str max) str ↔ Fits 64 10 decDigit str max) ∧
      (Exact 16 hexDigit (htoi str max) str ↔ Fits 32 16 hexDigit str max) ∧
      (Exact 16 hexDigit (htobn str max) str ↔ Fits 64 16 hexDigit str max) :=
  ⟨parse_kept_iff str max, parse_kept_iff str max, parse_kept_iff str max,
    parse_kept_iff str max⟩

/-- `4294967296` is taken for 0. -/
theorem number_not_exact :
    ¬∀ (str : List UInt8) (max : ℤ), Exact 10 decDigit (atoi str max) str ∧
      Exact 10 decDigit (atobn str max) str ∧ Exact 16 hexDigit (htoi str max) str ∧
      Exact 16 hexDigit (htobn str max) str := by
  intro claim
  have holds := (claim [52, 50, 57, 52, 57, 54, 55, 50, 57, 54, 0] 256).1
  exact absurd (holds 0 (by decide)) (by decide)

/-! ## The receiver of HTTP messages -/

theorem digitsFrom_toOption {base max pos : ℕ} {i : ℤ} {str : List UInt8} :
    (digitsFrom 32 base digit max i pos str).toOption =
      Http.digitsFrom base digit max i pos str := by
  induction str generalizing i pos with
  | nil => rfl
  | cons c str ih =>
      rw [digitsFrom, Http.digitsFrom]
      by_cases zero : c = 0
      · rw [if_pos zero, if_pos zero]
        rfl
      · rw [if_neg zero, if_neg zero]
        cases digit c with
        | none => rfl
        | some num =>
            simp only [Int.ofNat_le]
            by_cases long : max ≤ pos + 1
            · rw [if_pos long, if_pos long]
              rfl
            · rw [if_neg long, if_neg long]
              exact ih

theorem number_eq (base : ℕ) (str : List UInt8) (max : ℕ) :
    Http.number base digit str max =
      if (signed str).1 then
        (Http.digitsFrom base digit max 0 1 (signed str).2).map fun i => Http.int32 (-1 * i)
      else Http.digitsFrom base digit max 0 0 (signed str).2 := by
  unfold Http.number
  split
  · rfl
  · rename_i other
    rw [signed_of_other other]
    rfl

theorem parse_toOption (base : ℕ) (str : List UInt8) (max : ℕ) :
    (parse 32 base digit str max).toOption = Http.number base digit str max := by
  rw [parse_eq, number_eq, ← digitsFrom_toOption, ← digitsFrom_toOption]
  cases (signed str).1 with
  | false => rfl
  | true =>
      simp only [if_true]
      cases digitsFrom 32 base digit max 0 1 (signed str).2 with
      | error fault => rfl
      | ok i => rfl

/-- The receiver reads `Content-Length` and the sizes of chunks with these. -/
theorem toOption_eq (str : List UInt8) (max : ℕ) :
    (atoi str max).toOption = Http.atoi str max ∧ (htoi str max).toOption = Http.htoi str max :=
  ⟨parse_toOption 10 str max, parse_toOption 16 str max⟩

end Cyue.Number
