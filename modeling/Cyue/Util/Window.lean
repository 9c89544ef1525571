import Cyue.Lib.Cycle
import Cyue.Util.NewId
import Mathlib.Data.Int.Order.Basic
import Mathlib.Data.List.Induction

/-!
# The order of message ids

The ids of calls that follow one another run through a cycle.  Two ids are
compared by their difference, which is measured against half of `MSGID_LIMIT`
and not against half of the number of ids.
-/

namespace Cyue.Msgid

/-- `is_continuous_id`; the difference is one of unsigned numbers. -/
def isContinuousId (prev next : ℕ) : Bool :=
  if (next + 2 ^ 32 - prev) % 2 ^ 32 = 1 then true
  else next == start + 1 && prev == limit

def compareMsgid (msgid1 msgid2 : ℕ) : ℤ :=
  if msgid1 < msgid2 then
    -- the ids must have turned around where the difference is large
    if msgid2 - msgid1 < limit / 2 then -1 else 1
  else if msgid1 > msgid2 then
    if msgid1 - msgid2 ≤ limit / 2 then 1 else -1
  else 0

/-- The ids that `new_id` returns. -/
def InRange (id : ℕ) : Prop := start < id ∧ id ≤ limit

instance (id : ℕ) : Decidable (InRange id) := inferInstanceAs (Decidable (_ ∧ _))

def period : ℕ := limit - start

/-! ## The sequence of ids -/

theorem newId_eq_next {seed : ℕ} (above : start ≤ seed) (below : seed ≤ limit) :
    newId seed = Cycle.next start period seed := by
  rw [newId, Cycle.next, period]
  split
  case isTrue atLimit =>
    rw [atLimit, Nat.mod_self]
  case isFalse elsewhere =>
    have inside : seed - start < limit - start := by
      have lower := Nat.lt_of_le_of_ne below elsewhere
      omega
    rw [Nat.mod_eq_of_lt inside]
    omega

theorem start_add_period : start + period = limit := by decide

theorem period_pos : 0 < period := by decide

theorem on_iff {id : ℕ} : Cycle.On start period id ↔ InRange id := by
  rw [Cycle.On, start_add_period]
  exact Iff.rfl

theorem newId_inRange {seed : ℕ} (above : start ≤ seed) (below : seed ≤ limit) :
    InRange (newId seed) := by
  rw [newId_eq_next above below]
  exact on_iff.mp (Cycle.next_on period_pos seed)

theorem newId_iterate {seed : ℕ} (above : start ≤ seed) (below : seed ≤ limit) (d : ℕ) :
    newId^[d] seed = (Cycle.next start period)^[d] seed := by
  induction d generalizing seed with
  | zero => rw [Function.iterate_zero, Function.iterate_zero]
  | succ d ih =>
      obtain ⟨fresh, inside⟩ := newId_inRange above below
      rw [Function.iterate_succ_apply, Function.iterate_succ_apply,
        ih (Nat.le_of_lt fresh) inside, newId_eq_next above below]

theorem newId_iterate_range {seed : ℕ} (above : start ≤ seed) (below : seed ≤ limit) (d : ℕ) :
    start ≤ newId^[d] seed ∧ newId^[d] seed ≤ limit := by
  cases d with
  | zero => exact ⟨above, below⟩
  | succ d =>
      rw [newId_iterate above below, Function.iterate_succ_apply']
      have drawn := on_iff.mp (Cycle.next_on period_pos ((Cycle.next start period)^[d] seed))
      exact ⟨Nat.le_of_lt drawn.1, drawn.2⟩

/-- `d` calls lead from one id to the other. -/
theorem newId_iterate_eq_iff {a b d : ℕ} (first : InRange a) (last : InRange b)
    (short : d < period) :
    newId^[d] a = b ↔ a + d = b ∨ a + d = b + period := by
  rw [newId_iterate (Nat.le_of_lt first.1) first.2]
  exact Cycle.next_iterate_eq_iff (on_iff.mpr first) (on_iff.mpr last) short

/-- The generator after calls of these threads, none of which is interrupted. -/
def sequential (threads : List ℕ) : Generator :=
  Generator.run (threads.flatMap fun thread => [thread, thread])

theorem sequential_eq (threads : List ℕ) :
    sequential threads = {
      seed := newId^[threads.length] start
      swapped := fun _ => false
      ids := ((List.range threads.length).map fun i => newId^[i + 1] start).reverse } := by
  induction threads using List.reverseRecOn with
  | nil => rfl
  | append_singleton threads thread ih =>
      have below : start ≤ limit := by decide
      have last : sequential (threads ++ [thread]) =
          ((sequential threads).step thread).step thread := by
        simp only [sequential, Generator.run, List.flatMap_append, List.foldl_append]
        rfl
      have seed := newId_iterate_range (Nat.le_refl start) below threads.length
      rw [last, ih, Generator.step_step rfl seed.2]
      simp only [List.length_append, List.length_singleton, List.range_succ, List.map_append,
        List.map_singleton, List.reverse_append, List.reverse_singleton, List.singleton_append,
        Function.iterate_succ_apply']

/-- The id that was drawn `i` calls before the last one. -/
theorem sequential_ids_get {threads : List ℕ} {i : ℕ} (drawn : i < threads.length) :
    (sequential threads).ids[i]? =
      some ((Cycle.next start period)^[threads.length - 1 - i + 1] start) := by
  have below : start ≤ limit := by decide
  rw [sequential_eq, List.getElem?_reverse (by simpa using drawn), List.getElem?_map,
    List.length_map, List.length_range, List.getElem?_range (by omega), Option.map_some,
    newId_iterate (Nat.le_refl start) below]

theorem sequential_ids_length (threads : List ℕ) :
    (sequential threads).ids.length = threads.length := by
  simp only [sequential_eq, List.length_reverse, List.length_map, List.length_range]

/-- Fewer ids than the cycle has are pairwise distinct. -/
theorem sequential_ids_nodup (threads : List ℕ) {k : ℕ} (window : k ≤ period) :
    ((sequential threads).ids.take k).Nodup := by
  rw [List.Nodup, List.pairwise_iff_getElem]
  intro i j hi hj order
  rw [List.length_take, sequential_ids_length] at hi hj
  rw [List.getElem_take, List.getElem_take]
  intro same
  have earlier : i < threads.length := by omega
  have later : j < threads.length := by omega
  have equal := congrArg some same
  rw [← List.getElem?_eq_getElem, ← List.getElem?_eq_getElem, sequential_ids_get earlier,
    sequential_ids_get later] at equal
  have none := Cycle.next_iterate_inj (by omega) (by omega) (Option.some.inj equal).symm
  omega

theorem isContinuousId_iff {a b : ℕ} (first : InRange a) (second : InRange b) :
    isContinuousId a b = true ↔ b = newId a := by
  obtain ⟨aAbove, aBelow⟩ := first
  obtain ⟨bAbove, bBelow⟩ := second
  have limitValue : limit = 2147483647 := by decide
  have startValue : start = 1000 := rfl
  rw [limitValue] at aBelow bBelow
  rw [startValue] at aAbove bAbove
  simp only [isContinuousId, newId, limitValue, startValue, ite_eq_left_iff, Bool.and_eq_true,
    beq_iff_eq]
  split_ifs <;> omega

/-- Any fewer than `MSGID_LIMIT - MSGID_START` ids that were drawn one after the
other are pairwise distinct, after any number of calls, and `is_continuous_id`
holds of two ids exactly if the second one is drawn right after the first. -/
theorem msgid_window :
    (∀ (threads : List ℕ) (k : ℕ), k < limit - start →
        ((sequential threads).ids.take k).Nodup) ∧
      ∀ a b : ℕ, InRange a → InRange b → (isContinuousId a b = true ↔ b = newId a) := by
  constructor
  · intro threads k window
    exact sequential_ids_nodup threads (Nat.le_of_lt window)
  · intro a b first second
    exact isContinuousId_iff first second

/-! ## Comparison -/

def apart (a b : ℕ) : ℕ := a - b + (b - a)

/-- Wherever fewer than half of the ids are drawn from `a` to `b`, both
comparisons tell which one was drawn first. -/
def Follows (a b : ℕ) : Prop :=
  ∀ d : ℕ, 2 * d < period → newId^[d] a = b →
    compareMsgid a b = -(d : ℤ).sign ∧ compareMsgid b a = (d : ℤ).sign

theorem apart_of_lt {a b : ℕ} (less : a < b) : apart a b = b - a := by
  rw [apart, Nat.sub_eq_zero_of_le (Nat.le_of_lt less), Nat.zero_add]

theorem apart_comm (a b : ℕ) : apart a b = apart b a := Nat.add_comm _ _

theorem compareMsgid_self (a : ℕ) : compareMsgid a a = 0 := by
  rw [compareMsgid, if_neg (Nat.lt_irrefl a), if_neg (Nat.lt_irrefl a)]

theorem compareMsgid_of_lt {a b : ℕ} (less : a < b) :
    compareMsgid a b = if b - a < limit / 2 then -1 else 1 := by
  rw [compareMsgid, if_pos less]

theorem compareMsgid_of_gt {a b : ℕ} (less : a < b) :
    compareMsgid b a = if b - a ≤ limit / 2 then 1 else -1 := by
  rw [compareMsgid, if_neg (Nat.lt_asymm less), if_pos less]

/-- The two branches differ where the difference is half of the limit. -/
theorem compareMsgid_neg_of_lt {a b : ℕ} (less : a < b) :
    compareMsgid a b = -compareMsgid b a ↔ b - a ≠ limit / 2 := by
  rw [compareMsgid_of_lt less, compareMsgid_of_gt less]
  rcases Nat.lt_trichotomy (b - a) (limit / 2) with below | middle | above
  · rw [if_pos below, if_pos (Nat.le_of_lt below)]
    exact iff_of_true rfl (Nat.ne_of_lt below)
  · rw [if_neg (Nat.not_lt.mpr middle.ge), if_pos middle.le]
    exact iff_of_false (by decide) (not_not_intro middle)
  · rw [if_neg (Nat.lt_asymm above), if_neg (Nat.not_le.mpr above)]
    exact iff_of_true rfl (Nat.ne_of_gt above)

theorem compareMsgid_neg_iff (a b : ℕ) :
    compareMsgid a b = -compareMsgid b a ↔ apart a b ≠ limit / 2 := by
  rcases Nat.lt_trichotomy a b with less | rfl | less
  · rw [apart_of_lt less, compareMsgid_neg_of_lt less]
  · have half : apart a a ≠ limit / 2 := by
      simp only [apart, Nat.sub_self]
      decide
    exact iff_of_true (by rw [compareMsgid_self, Int.neg_zero]) half
  · rw [apart_comm, apart_of_lt less, Int.eq_neg_comm, compareMsgid_neg_of_lt less]

/-- Ids that are no further apart than half of the ids are compared as numbers. -/
theorem compareMsgid_near {a b : ℕ} (less : a < b) (near : 2 * (b - a) < period) :
    compareMsgid a b = -1 ∧ compareMsgid b a = 1 := by
  have half : period / 2 < limit / 2 := by decide
  rw [compareMsgid_of_lt less, compareMsgid_of_gt less, if_pos (by omega), if_pos (by omega)]
  exact ⟨rfl, rfl⟩

/-- Ids that are further apart than half of the limit are compared the other way
around. -/
theorem compareMsgid_far {a b : ℕ} (less : a < b) (far : limit / 2 < b - a) :
    compareMsgid a b = 1 ∧ compareMsgid b a = -1 := by
  rw [compareMsgid_of_lt less, compareMsgid_of_gt less, if_neg (by omega), if_neg (by omega)]
  exact ⟨rfl, rfl⟩

/-- The comparison follows the order of the draws unless the ids are further
apart than half of the ids and no further than half of the limit. -/
theorem follows_of_not_between {a b : ℕ} (first : InRange a) (last : InRange b)
    (clear : ¬(period < 2 * apart a b ∧ apart a b ≤ limit / 2)) : Follows a b := by
  intro d short drawn
  rcases Nat.eq_zero_or_pos d with rfl | positive
  · have same : a = b := drawn
    rw [same, compareMsgid_self]
    exact ⟨rfl, rfl⟩
  · have sign : (d : ℤ).sign = 1 := Int.sign_eq_one_of_pos (Int.natCast_pos.mpr positive)
    have half : period / 2 < limit / 2 := by decide
    rw [sign]
    rcases (newId_iterate_eq_iff first last (by omega)).mp drawn with ahead | around
    · exact compareMsgid_near (by omega) (by omega)
    · have less : b < a := by omega
      rw [apart_comm, apart_of_lt less] at clear
      obtain ⟨backward, forward⟩ := compareMsgid_far less (by omega)
      exact ⟨forward, backward⟩

theorem not_follows_of_between {a b : ℕ} (first : InRange a) (last : InRange b) (less : a < b)
    (wide : period < 2 * (b - a)) (near : b - a ≤ limit / 2) : ¬Follows b a := by
  intro follows
  have half : limit / 2 < period := by decide
  have drawn : newId^[period - (b - a)] b = a :=
    (newId_iterate_eq_iff last first (by omega)).mpr (Or.inr (by omega))
  have compared := (follows (period - (b - a)) (by omega) drawn).1
  have sign : ((period - (b - a) : ℕ) : ℤ).sign = 1 :=
    Int.sign_eq_one_of_pos (Int.natCast_pos.mpr (by omega))
  rw [sign, compareMsgid_of_gt less, if_pos near] at compared
  exact absurd compared (by decide)

/-- Two ids are compared antisymmetrically and in the order in which they are
drawn if and only if their difference is not more than half of the number of ids
or is more than half of `MSGID_LIMIT`. -/
theorem compare_msgid_iff {a b : ℕ} (first : InRange a) (last : InRange b) :
    (compareMsgid a b = -compareMsgid b a ∧ Follows a b ∧ Follows b a) ↔
      ¬(period < 2 * apart a b ∧ apart a b ≤ limit / 2) := by
  constructor
  · rintro ⟨-, forward, backward⟩ ⟨wide, near⟩
    rcases Nat.lt_trichotomy a b with less | rfl | less
    · rw [apart_of_lt less] at wide near
      exact not_follows_of_between first last less wide near backward
    · simp only [apart, Nat.sub_self] at wide
      exact absurd wide (by decide)
    · rw [apart_comm, apart_of_lt less] at wide near
      exact not_follows_of_between last first less wide near forward
  · intro clear
    refine ⟨?_, follows_of_not_between first last clear,
      follows_of_not_between last first (apart_comm a b ▸ clear)⟩
    rw [compareMsgid_neg_iff]
    intro middle
    have wide : period < 2 * (limit / 2) := by decide
    exact clear ⟨middle.symm ▸ wide, Nat.le_of_eq middle⟩

theorem compare_msgid_next : Follows 1001 1002 :=
  ((compare_msgid_iff (by decide) (by decide)).mpr (by decide)).2.1

/-- Both comparisons of these two ids give 1. -/
theorem compare_msgid_not_antisymmetric :
    ¬∀ a b : ℕ, InRange a → InRange b →
      compareMsgid a b = -compareMsgid b a ∧ Follows a b ∧ Follows b a := by
  intro claim
  have compared := (claim 1001 1073742824 (by decide) (by decide)).1
  exact absurd compared (by decide)

end Cyue.Msgid
