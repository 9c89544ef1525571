import Cyue.Lib.Sieve
import Mathlib.Order.Bounds.Defs

/-!
# The size of hash tables

`math::prime` finds the largest prime below a number with a sieve in a work area,
whose byte `N` stands for the number `N + 1`.
-/

namespace Cyue.Prime

open Sieve

/-- What must not happen: an access outside the work area, a number that does not
fit into an `int`, and a loop that does not end. -/
inductive Fault where
  | outside (index : ℕ)
  | overflow
  | endless
  deriving DecidableEq

structure Work where
  size : ℕ
  byte : ℕ → UInt8

namespace Work

/-- The work area after `bzero`. -/
def zero (size : ℕ) : Work := ⟨size, fun _ => 0⟩

def read (p : Work) (index : ℕ) : Except Fault UInt8 :=
  if index < p.size then .ok (p.byte index) else .error (.outside index)

def write (p : Work) (index : ℕ) (value : UInt8) : Except Fault Work :=
  if index < p.size then .ok ⟨p.size, fun i => if i = index then value else p.byte i⟩
  else .error (.outside index)

end Work

/-- The value of an `int` expression, none of which is negative here. -/
def int (n : ℕ) : Except Fault ℕ := if n < 2 ^ 31 then .ok n else .error .overflow

/-- `for (j = (i * 2); j <= given; j += i) { p[j - 1] = 1; }` from some `j` on. -/
def strike (given i : ℕ) : ℕ → ℕ → Work → Except Fault Work
  | 0, _, _ => .error .endless
  | turns + 1, j, p =>
      if j ≤ given then do
        let p ← p.write (j - 1) 1
        let j ← int (j + i)
        strike given i turns j p
      else .ok p

def round (given i : ℕ) (p : Work) : Except Fault Work := do
  let struck ← p.read (i - 1)
  if struck ≠ 0 then .ok p
  else do
    let j ← int (i * 2)
    strike given i given j p

/-- The loop of the sieve from some `i` on. -/
def sieve (given : ℕ) : ℕ → ℕ → Work → Except Fault Work
  | 0, _, _ => .error .endless
  | turns + 1, i, p =>
      if i ≤ given then
        if i > given / i then .ok p
        else do
          let p ← round given i p
          let i ← int (i + 1)
          sieve given turns i p
      else .ok p

/-- `for (i = (given - 1); i > 0; i--)` from some `i` on. -/
def search (p : Work) : ℕ → Except Fault ℤ
  | 0 => .ok (-1)
  | i + 1 => do
      let struck ← p.read (i + 1)
      if struck = 0 then .ok ((i + 1 : ℕ) + 1) else search p i

/-- `prime`; the work area may be refused. -/
def prime (granted : Bool) (given : ℤ) : Except Fault ℤ :=
  if given ≤ 3 then .ok given
  else if granted = false then .ok (-1)
  else do
    let p ← sieve given.toNat given.toNat 2 (.zero given.toNat)
    search p (given.toNat - 1)

/-- The size of the table in `hash::init`, which fails with `NBR_EINVAL` otherwise. -/
def tableSize (granted : Bool) (given : ℤ) : Except Fault (Option ℤ) := do
  let prime ← prime granted given
  .ok (if prime < 0 then none else some prime)

/-! ## The work area -/

section

variable {p : Work} {index : ℕ}

theorem Work.read_inside (inside : index < p.size) : p.read index = .ok (p.byte index) :=
  if_pos inside

theorem Work.write_inside (value : UInt8) (inside : index < p.size) :
    p.write index value = .ok ⟨p.size, fun i => if i = index then value else p.byte i⟩ :=
  if_pos inside

end

theorem int_small {n : ℕ} (small : n < 2 ^ 31) : int n = .ok n := if_pos small

/-- Behind the rounds below `d`, a byte is set if its number is struck out. -/
structure Sifted (given d : ℕ) (p : Work) : Prop where
  size : p.size = given
  struck : ∀ k, k < given → (p.byte k ≠ 0 ↔ Struck d (k + 1))

theorem sifted_zero (given : ℕ) : Sifted given 2 (.zero given) where
  size := rfl
  struck := fun k _ => iff_of_false (not_not_intro rfl) (not_struck_two (k + 1))

/-! ## The loops -/

/-- The inner loop sets the bytes in steps of `i`, all of them in the work area. -/
theorem strike_spec {given i : ℕ} (step : 0 < i) (small : given + i < 2 ^ 31) {turns j : ℕ}
    {p : Work} (turn : 0 < turns) (enough : given + 1 < turns + j) (size : p.size = given)
    (begins : 0 < j) :
    ∃ p', strike given i turns j p = .ok p' ∧ p'.size = given ∧
      ∀ k, k < given → (p'.byte k ≠ 0 ↔ p.byte k ≠ 0 ∨ ∃ t, k + 1 = j + i * t) := by
  induction turns generalizing j p with
  | zero => exact absurd turn (Nat.lt_irrefl 0)
  | succ turns ih =>
      rw [strike]
      by_cases inside : j ≤ given
      · have index : j - 1 < p.size := by omega
        rw [if_pos inside, Work.write_inside 1 index, int_small (by omega)]
        obtain ⟨p', run, size', bytes⟩ :=
          @ih (j + i) ⟨p.size, fun k => if k = j - 1 then 1 else p.byte k⟩
            (by omega) (by omega) size (by omega)
        refine ⟨p', run, size', fun k below => ?_⟩
        rw [bytes k below]
        simp only
        by_cases here : k = j - 1
        · rw [if_pos here]
          refine iff_of_true (Or.inl (by decide)) (Or.inr ⟨0, ?_⟩)
          omega
        · rw [if_neg here]
          refine or_congr_right ?_
          constructor
          · rintro ⟨t, at'⟩
            refine ⟨t + 1, ?_⟩
            rw [Nat.mul_succ]
            omega
          · rintro ⟨t, at'⟩
            cases t with
            | zero =>
                rw [Nat.mul_zero] at at'
                omega
            | succ t =>
                refine ⟨t, ?_⟩
                rw [Nat.mul_succ] at at'
                omega
      · rw [if_neg inside]
        refine ⟨p, rfl, size, fun k below => ?_⟩
        constructor
        · exact Or.inl
        · rintro (set | ⟨t, at'⟩)
          · exact set
          · omega

/-- One round strikes out the multiples of `i`, or has nothing to strike out. -/
theorem round_spec {given i : ℕ} {p : Work} (low : 2 ≤ i) (high : i ≤ given)
    (small : given < 2 ^ 30) (sifted : Sifted given i p) :
    ∃ p', round given i p = .ok p' ∧ Sifted given (i + 1) p' := by
  have here := sifted.struck (i - 1) (by omega)
  rw [Nat.sub_add_cancel (by omega)] at here
  rw [round, Work.read_inside (by rw [sifted.size]; omega)]
  by_cases struck : p.byte (i - 1) ≠ 0
  · refine ⟨p, if_pos struck, sifted.size, fun k below => ?_⟩
    rw [struck_succ_of_struck (here.mp struck), sifted.struck k below]
  · obtain ⟨p', run, size, bytes⟩ := @strike_spec given i (by omega) (by omega) given (i * 2) p
      (by omega) (by omega) sifted.size (by omega)
    refine ⟨p', ?_, size, fun k below => ?_⟩
    · refine (if_neg struck).trans ?_
      rw [int_small (by omega)]
      exact run
    · rw [bytes k below, struck_succ_iff low, sifted.struck k below]
      refine or_congr_right ?_
      constructor
      · rintro ⟨t, at'⟩
        rw [at', ← Nat.mul_add]
        exact ⟨Nat.dvd_mul_right i _, Nat.mul_le_mul_left i (Nat.le_add_right 2 t)⟩
      · rintro ⟨⟨c, at'⟩, twice⟩
        rw [at'] at twice ⊢
        have two : 2 ≤ c := Nat.le_of_mul_le_mul_left twice (by omega)
        exact ⟨c - 2, by rw [← Nat.mul_add, Nat.add_sub_cancel' two]⟩

/-- The loop ends, and then everything is struck out that is not prime. -/
theorem sieve_spec {given turns i : ℕ} {p : Work} (turn : 0 < turns)
    (enough : given + 1 < turns + i) (low : 2 ≤ i) (small : given < 2 ^ 30)
    (sifted : Sifted given i p) :
    ∃ p' d, sieve given turns i p = .ok p' ∧ Sifted given d p' ∧ given < d * d := by
  induction turns generalizing i p with
  | zero => exact absurd turn (Nat.lt_irrefl 0)
  | succ turns ih =>
      rw [sieve]
      by_cases inside : i ≤ given
      · rw [if_pos inside]
        by_cases past : i > given / i
        · rw [if_pos past]
          exact ⟨p, i, rfl, sifted, (Nat.div_lt_iff_lt_mul (by omega)).mp past⟩
        · obtain ⟨p', run, sifted'⟩ := round_spec low inside small sifted
          rw [if_neg past, run, int_small (by omega)]
          exact ih (by omega) (by omega) (by omega) sifted'
      · rw [if_neg inside]
        have square : i * 1 ≤ i * i := Nat.mul_le_mul_left i (by omega)
        exact ⟨p, i, rfl, sifted, by omega⟩

/-- The search finds the last number that is not struck out, and there is one. -/
theorem search_spec {given i : ℕ} {p : Work} (size : p.size = given)
    (bytes : ∀ k, 0 < k → k < given → (p.byte k ≠ 0 ↔ ¬(k + 1).Prime)) (below : i < given)
    (above : 2 ≤ i) :
    ∃ r : ℕ, search p i = .ok r ∧ r.Prime ∧ r ≤ i + 1 ∧
      ∀ q : ℕ, q.Prime → q ≤ i + 1 → q ≤ r := by
  induction i with
  | zero => exact absurd above (by decide)
  | succ i ih =>
      have byte := bytes (i + 1) (Nat.succ_pos i) below
      rw [search, Work.read_inside (by rw [size]; exact below)]
      by_cases struck : p.byte (i + 1) = 0
      · have isPrime : (i + 1 + 1).Prime := by
          by_contra composite
          exact byte.mpr composite struck
        exact ⟨i + 1 + 1, if_pos struck, isPrime, Nat.le_refl _, fun q _ le => le⟩
      · have composite := byte.mp struck
        have later : 2 ≤ i := by
          by_contra first
          have two : i = 1 := by omega
          subst two
          exact composite Nat.prime_three
        obtain ⟨r, run, isPrime, le, greatest⟩ := ih (Nat.lt_of_succ_lt below) later
        refine ⟨r, (if_neg struck).trans run, isPrime, Nat.le_succ_of_le le, fun q prime le' => ?_⟩
        have other : q ≠ i + 1 + 1 := fun same => composite (same ▸ prime)
        exact greatest q prime (by omega)

/-! ## The result -/

theorem prime_of_gt {n : ℕ} (large : 3 < n) (small : n < 2 ^ 30) :
    ∃ r : ℕ, prime true n = .ok r ∧ r.Prime ∧ r ≤ n ∧ ∀ q : ℕ, q.Prime → q ≤ n → q ≤ r := by
  obtain ⟨p, d, run, sifted, square⟩ :=
    @sieve_spec n n 2 (.zero n) (by omega) (by omega) (Nat.le_refl 2) small (sifted_zero n)
  have bytes : ∀ k, 0 < k → k < n → (p.byte k ≠ 0 ↔ ¬(k + 1).Prime) := by
    intro k positive below
    rw [sifted.struck k below, struck_iff_not_prime (by omega) (by omega)]
  obtain ⟨r, found, isPrime, le, greatest⟩ :=
    @search_spec n (n - 1) p sifted.size bytes (by omega) (by omega)
  rw [Nat.sub_add_cancel (by omega)] at le greatest
  have more : ¬(n : ℤ) ≤ 3 := by omega
  refine ⟨r, ?_, isPrime, le, greatest⟩
  rw [prime, if_neg more, if_neg (by decide), Int.toNat_natCast, run]
  exact found

/-- Where the work area is granted, `prime` gives the largest prime that is not
greater, and there is no access outside the work area. -/
theorem prime_largest {given : ℤ} (low : 2 ≤ given) (high : given < 2 ^ 30) :
    ∃ r : ℕ, prime true given = .ok r ∧ IsGreatest {q : ℕ | q.Prime ∧ (q : ℤ) ≤ given} r := by
  obtain ⟨n, rfl⟩ := Int.eq_ofNat_of_zero_le (Int.le_trans (by decide) low)
  rcases Nat.lt_or_ge 3 n with large | little
  · obtain ⟨r, run, isPrime, le, greatest⟩ := prime_of_gt large (by omega)
    refine ⟨r, run, ⟨isPrime, Int.ofNat_le.mpr le⟩, fun q member => ?_⟩
    exact greatest q member.1 (Int.ofNat_le.mp member.2)
  · have isPrime : n.Prime := by
      have either : n = 2 ∨ n = 3 := by omega
      rcases either with rfl | rfl
      · exact Nat.prime_two
      · exact Nat.prime_three
    refine ⟨n, if_pos (by omega), ⟨isPrime, Int.le_refl _⟩, fun q member => ?_⟩
    exact Int.ofNat_le.mp member.2

theorem prime_largest_ten :
    ∃ r : ℕ, prime true 10 = .ok r ∧ IsGreatest {q : ℕ | q.Prime ∧ (q : ℤ) ≤ 10} r :=
  prime_largest (by decide) (by decide)

example : prime true 30 = .ok 29 := by decide +kernel

/-- A table that was asked for has a positive size, which is not larger. -/
theorem tableSize_positive {n : ℕ} (positive : 0 < n) (small : n < 2 ^ 30) :
    ∃ size : ℕ, tableSize true n = .ok (some size) ∧ 0 < size ∧ size ≤ n := by
  have natural : ∀ size : ℕ, ¬(size : ℤ) < 0 := fun size => by omega
  rcases Nat.lt_or_ge 3 n with large | little
  · obtain ⟨r, run, isPrime, le, -⟩ := prime_of_gt large small
    refine ⟨r, ?_, isPrime.pos, le⟩
    rw [tableSize, run]
    exact congrArg Except.ok (if_neg (natural r))
  · have run : prime true n = .ok n := if_pos (by omega)
    refine ⟨n, ?_, positive, Nat.le_refl n⟩
    rw [tableSize, run]
    exact congrArg Except.ok (if_neg (natural n))

end Cyue.Prime
