import Cyue.Lib.Run
import Cyue.Lua.Namespace

/-!
# Futures

`yue.fiber(f):run(...)` starts a coroutine and returns a future, which the coroutine calls with
what `f` has returned or raised.  Functions given to `on` before are called then, functions
given later are called at once, and `sync` gives one that resumes the running coroutine, which
yields.

What functions of the user do is left to the run: each act is the next thing that the function
on top of one coroutine does, so that the runs are those of all programs in all orders in which
their coroutines go on.  Only the coroutine that a future was made for calls it.
-/

namespace Cyue.Lua.Futures

open Function

/-- An element of `__receiver`: a function of the user, or the closure of `sync`. -/
inductive Receiver where
  | callback
  | resume (co : ℕ)
  deriving DecidableEq

/-- A function that has been called and has not returned: one of the user, `on` in front of its
receiver, or `__catch` in front of the handler. -/
inductive Frame where
  | user
  | inOn
  | inCatch
  deriving DecidableEq

/-- What a coroutine does below the functions of the user: a function with no future, `protect`
or `unprotect` in front of `f`, the loop of `__call`, or nothing any more. -/
inductive Base (π : Type*) where
  | main
  | protect
  | unprotect
  | calling (k : ℕ) (args : List (Value π))
  | gone

def Base.hasFuture {π : Type*} : Base π → Bool
  | main => false
  | _ => true

structure Call (π : Type*) where
  future : ℕ
  index : ℕ
  args : List (Value π)

/-- A coroutine has yielded in `sync`; `late` if the result was already there. -/
structure Waiting where
  future : ℕ
  index : ℕ
  late : Bool
  deriving DecidableEq

/-- The coroutines and their futures, which bear the same numbers; `calls` is the history. -/
structure State (π : Type*) where
  receivers : ℕ → List Receiver
  result : ℕ → Option (List (Value π))
  frames : ℕ → List Frame
  base : ℕ → Base π
  waiting : ℕ → Option Waiting
  calls : List (Call π)
  fresh : ℕ

inductive Act (π : Type*) where
  /-- one with no future is started for an event -/
  | start
  /-- `yue.fiber(f):run(...)`, or `run_unprotect` -/
  | run (t : ℕ) (guarded : Bool)
  | callOn (t j : ℕ)
  | callSync (t j : ℕ)
  /-- the function on top returns or raises; `handler` if there is a `__catch` -/
  | finish (t : ℕ) (raised handler : Bool) (values : List (Value π))
  /-- the loop of `__call` goes on -/
  | next (t : ℕ)

namespace State

variable {π : Type*}

def init : State π where
  receivers := fun _ => []
  result := fun _ => none
  frames := fun _ => []
  base := fun _ => .gone
  waiting := fun _ => none
  calls := []
  fresh := 0

def Running (s : State π) (t : ℕ) : Prop :=
  s.waiting t = none ∧ (s.frames t).head? = some .user

instance (s : State π) (t : ℕ) : Decidable (s.Running t) :=
  inferInstanceAs (Decidable (_ ∧ _))

/-- `j` bears a future. -/
def Future (s : State π) (j : ℕ) : Prop :=
  j < s.fresh ∧ (s.base j).hasFuture = true

instance (s : State π) (j : ℕ) : Decidable (s.Future j) :=
  inferInstanceAs (Decidable (_ ∧ _))

def create (s : State π) (base : Base π) : State π :=
  { s with
    frames := update s.frames s.fresh [.user]
    base := update s.base s.fresh base
    fresh := s.fresh + 1 }

def insert (s : State π) (j : ℕ) (r : Receiver) : State π :=
  { s with receivers := update s.receivers j (s.receivers j ++ [r]) }

def log (s : State π) (c : Call π) : State π := { s with calls := s.calls ++ [c] }

section

variable (unpack : List (Value π) → List (Value π))

/-- `on` of the future `j`; `unpack` is that of the table `{...}`. -/
def futureOn (s : State π) (t j : ℕ) : State π :=
  match s.result j with
  | none => s.insert j .callback
  | some a =>
      { (s.insert j .callback).log ⟨j, (s.receivers j).length, unpack a⟩ with
        frames := update s.frames t (.user :: .inOn :: s.frames t) }

/-- `sync` of the future `j`.  A coroutine that runs is not resumed by the call of its own
closure. -/
def futureSync (s : State π) (t j : ℕ) : State π :=
  match s.result j with
  | none =>
      { s.insert j (.resume t) with
        waiting := update s.waiting t (some ⟨j, (s.receivers j).length, false⟩) }
  | some a =>
      { (s.insert j (.resume t)).log ⟨j, (s.receivers j).length, unpack a⟩ with
        waiting := update s.waiting t (some ⟨j, (s.receivers j).length, true⟩) }

/-- What is left of a coroutine when the function on top of it has ended. -/
def ended (raised handler : Bool) (values : List (Value π)) :
    List Frame → Base π → List Frame × Base π
  | [.user], .protect => ([], .calling 0 (.boolean (!raised) :: values))
  | [.user], .unprotect => ([], if raised then .gone else .calling 0 values)
  | [.user], .calling k a => (if raised && handler then [.user, .inCatch] else [], .calling k a)
  -- an error of the handler leaves the loop of `__call`, and there is no result
  | [.user, .inCatch], base => ([], if raised then .gone else base)
  | .user :: .inOn :: rest, base =>
      (if raised && handler then .user :: .inCatch :: .inOn :: rest else rest, base)
  | .user :: .inCatch :: .inOn :: rest, base => (rest, base)
  | [.user], base => ([], base)
  | frames, base => (frames, base)

def finish (s : State π) (t : ℕ) (raised handler : Bool) (values : List (Value π)) : State π :=
  { s with
    frames := update s.frames t (ended raised handler values (s.frames t) (s.base t)).1
    base := update s.base t (ended raised handler values (s.frames t) (s.base t)).2 }

/-- The next turn of the loop of `__call`, or what follows it. -/
def next (s : State π) (t : ℕ) : State π :=
  match s.frames t, s.base t with
  | [], .calling k a =>
      match (s.receivers t)[k]? with
      | none => { s with result := update s.result t (some a), base := update s.base t .gone }
      | some .callback =>
          { s.log ⟨t, k, a⟩ with
            frames := update s.frames t [.user], base := update s.base t (.calling (k + 1) a) }
      | some (.resume co) =>
          { s.log ⟨t, k, a⟩ with
            base := update s.base t (.calling (k + 1) a), waiting := update s.waiting co none }
  | _, _ => s

def step (s : State π) : Act π → State π
  | .start => s.create .main
  | .run t guarded =>
      if s.Running t then s.create (if guarded then .protect else .unprotect) else s
  | .callOn t j => if s.Running t ∧ s.Future j then s.futureOn unpack t j else s
  | .callSync t j => if s.Running t ∧ s.Future j then s.futureSync unpack t j else s
  | .finish t raised handler values =>
      if s.Running t then s.finish t raised handler values else s
  | .next t => s.next t

def run (s : State π) (acts : List (Act π)) : State π := acts.foldl (step unpack) s

end

/-! ## The calls of one future -/

/-- The calls of the receivers of one future, in their order. -/
def callsOf (calls : List (Call π)) (j : ℕ) : List (Call π) := calls.filter fun c => c.future = j

def begun (calls : List (Call π)) (j : ℕ) : ℕ := (callsOf calls j).length

section

variable (calls : List (Call π)) (c : Call π)

theorem callsOf_concat_same :
    callsOf (calls ++ [c]) c.future = callsOf calls c.future ++ [c] := by
  simp [callsOf]

theorem begun_concat_same : begun (calls ++ [c]) c.future = begun calls c.future + 1 := by
  rw [begun, callsOf_concat_same, List.length_append]
  rfl

variable {calls c} {j : ℕ}

theorem callsOf_concat_other (other : j ≠ c.future) :
    callsOf (calls ++ [c]) j = callsOf calls j := by
  simp [callsOf, Ne.symm other]

theorem begun_concat_other (other : j ≠ c.future) : begun (calls ++ [c]) j = begun calls j := by
  rw [begun, callsOf_concat_other other]
  rfl

theorem mem_callsOf_concat {d : Call π} (mem : d ∈ callsOf (calls ++ [c]) j) :
    d ∈ callsOf calls j ∨ j = c.future ∧ d = c := by
  rcases eq_or_ne j c.future with rfl | other
  · rw [callsOf_concat_same] at mem
    rcases List.mem_append.mp mem with old | new
    · exact .inl old
    · exact .inr ⟨rfl, List.mem_singleton.mp new⟩
  · rw [callsOf_concat_other other] at mem
    exact .inl mem

theorem begun_le_concat (calls : List (Call π)) (c : Call π) (j : ℕ) :
    begun calls j ≤ begun (calls ++ [c]) j := by
  rcases eq_or_ne j c.future with rfl | other
  · rw [begun_concat_same]
    exact Nat.le_succ _
  · rw [begun_concat_other other]

/-- The history stays in the order of the receivers if it is the turn of the one called. -/
theorem order_concat (turn : c.index = begun calls c.future)
    (order : (callsOf calls j).map Call.index = List.range (begun calls j)) :
    (callsOf (calls ++ [c]) j).map Call.index = List.range (begun (calls ++ [c]) j) := by
  rcases eq_or_ne j c.future with rfl | other
  · rw [callsOf_concat_same, begun_concat_same, List.map_append, order, List.range_succ, ← turn]
    rfl
  · rw [callsOf_concat_other other, begun_concat_other other, order]

theorem callsOf_eq_nil (unbegun : begun calls j = 0) : callsOf calls j = [] :=
  List.eq_nil_of_length_eq_zero unbegun

end

variable {s : State π}

/-! ## The receivers -/

theorem receivers_insert_same (j : ℕ) (r : Receiver) :
    (s.insert j r).receivers j = s.receivers j ++ [r] := by
  simp [insert]

theorem receivers_insert_other {i j : ℕ} (other : i ≠ j) (r : Receiver) :
    (s.insert j r).receivers i = s.receivers i := by
  simp [insert, other]

theorem receiver_insert_old {i k : ℕ} {x : Receiver} (j : ℕ) (r : Receiver)
    (there : (s.receivers i)[k]? = some x) : ((s.insert j r).receivers i)[k]? = some x := by
  rcases eq_or_ne i j with rfl | other
  · have lt : k < (s.receivers i).length := (List.getElem?_eq_some_iff.mp there).1
    rw [receivers_insert_same, List.getElem?_append_left lt]
    exact there
  · rwa [receivers_insert_other other]

theorem receiver_insert_new (j : ℕ) (r : Receiver) :
    ((s.insert j r).receivers j)[(s.receivers j).length]? = some r := by
  rw [receivers_insert_same]
  exact List.getElem?_concat_length

theorem receiver_insert_cases {i j k : ℕ} {r x : Receiver}
    (there : ((s.insert j r).receivers i)[k]? = some x) :
    (s.receivers i)[k]? = some x ∨ i = j ∧ k = (s.receivers j).length ∧ r = x := by
  rcases eq_or_ne i j with rfl | other
  · rw [receivers_insert_same, List.getElem?_append] at there
    split at there
    · exact .inl there
    · next ge =>
        obtain ⟨at0, eq⟩ := List.getElem?_eq_some_iff.mp there
        have zero : k - (s.receivers i).length = 0 := by simpa using at0
        refine .inr ⟨rfl, by omega, ?_⟩
        simpa [zero] using eq
  · rw [receivers_insert_other other] at there
    exact .inl there

theorem length_le_insert (i j : ℕ) (r : Receiver) :
    (s.receivers i).length ≤ ((s.insert j r).receivers i).length := by
  rcases eq_or_ne i j with rfl | other
  · rw [receivers_insert_same, List.length_append]
    exact Nat.le_add_right _ _
  · rw [receivers_insert_other other]

/-! ## What holds of every state -/

variable (unpack : List (Value π) → List (Value π))

/-- The receivers are called in their order, before the result is there those that the loop has
reached and afterwards all, and a coroutine that waits does so for one that has not been called,
or it came late. -/
structure Sound (s : State π) : Prop where
  order : ∀ j, (callsOf s.calls j).map Call.index = List.range (begun s.calls j)
  le : ∀ j, begun s.calls j ≤ (s.receivers j).length
  early : ∀ j, s.base j = .main ∨ s.base j = .protect ∨ s.base j = .unprotect →
    begun s.calls j = 0
  looping : ∀ j k a, s.base j = .calling k a →
    begun s.calls j = k ∧ ∀ c ∈ callsOf s.calls j, c.args = a
  done : ∀ j a, s.result j = some a → s.base j = .gone ∧
    begun s.calls j = (s.receivers j).length ∧
      ∀ c ∈ callsOf s.calls j, c.args = a ∨ c.args = unpack a
  waits : ∀ t w, s.waiting t = some w → (s.receivers w.future)[w.index]? = some (.resume t) ∧
    (w.late = true ↔ w.index < begun s.calls w.future)
  awaited : ∀ j i t, (s.receivers j)[i]? = some (.resume t) → begun s.calls j ≤ i →
    s.waiting t = some ⟨j, i, false⟩
  unborn : ∀ j, s.fresh ≤ j →
    s.base j = .gone ∧ s.result j = none ∧ begun s.calls j = 0 ∧ s.receivers j = []

variable {unpack}

theorem init_sound : (init : State π).Sound unpack where
  order _ := rfl
  le _ := Nat.zero_le _
  early _ _ := rfl
  looping _ _ _ base := nomatch base
  done _ _ result := nomatch result
  waits _ _ waiting := nomatch waiting
  awaited _ _ _ there := nomatch there
  unborn _ _ := ⟨rfl, rfl, rfl, rfl⟩

theorem Sound.reframe (sound : s.Sound unpack) (frames : ℕ → List Frame) :
    ({ s with frames := frames } : State π).Sound unpack :=
  ⟨sound.order, sound.le, sound.early, sound.looping, sound.done, sound.waits, sound.awaited,
    sound.unborn⟩

theorem base_create_new (b : Base π) : (s.create b).base s.fresh = b := update_self _ _ _

theorem base_create_old {j : ℕ} (old : j ≠ s.fresh) (b : Base π) :
    (s.create b).base j = s.base j := update_of_ne old _ _

theorem Sound.create (sound : s.Sound unpack) {b : Base π}
    (new : b = .main ∨ b = .protect ∨ b = .unprotect) : (s.create b).Sound unpack where
  order := sound.order
  le := sound.le
  early j early := by
    rcases eq_or_ne j s.fresh with rfl | old
    · exact (sound.unborn s.fresh le_rfl).2.2.1
    · rw [base_create_old old] at early
      exact sound.early j early
  looping j k a base := by
    rcases eq_or_ne j s.fresh with rfl | old
    · rw [base_create_new] at base
      subst base
      simp at new
    · rw [base_create_old old] at base
      exact sound.looping j k a base
  done j a result := by
    have old : j ≠ s.fresh := by
      rintro rfl
      exact nomatch (sound.unborn s.fresh le_rfl).2.1.symm.trans result
    rw [base_create_old old]
    exact sound.done j a result
  waits := sound.waits
  awaited := sound.awaited
  unborn j le := by
    rw [base_create_old (Nat.ne_of_gt le)]
    exact sound.unborn j (Nat.le_of_succ_le le)

/-- Below its functions a coroutine goes on to `b`. -/
theorem Sound.rebase (sound : s.Sound unpack) {t : ℕ} {b : Base π} (going : s.base t ≠ .gone)
    (early : b = .main ∨ b = .protect ∨ b = .unprotect → begun s.calls t = 0)
    (looping : ∀ k a, b = .calling k a →
      begun s.calls t = k ∧ ∀ c ∈ callsOf s.calls t, c.args = a) :
    ({ s with base := update s.base t b } : State π).Sound unpack where
  order := sound.order
  le := sound.le
  early j now := by
    rcases eq_or_ne j t with rfl | other
    · simp only [update_self] at now
      exact early now
    · simp only [update_of_ne other] at now
      exact sound.early j now
  looping j k a base := by
    rcases eq_or_ne j t with rfl | other
    · simp only [update_self] at base
      exact looping k a base
    · simp only [update_of_ne other] at base
      exact sound.looping j k a base
  done j a result := by
    have other : j ≠ t := by
      rintro rfl
      exact going (sound.done j a result).1
    simp only [update_of_ne other]
    exact sound.done j a result
  waits := sound.waits
  awaited := sound.awaited
  unborn j le := by
    have other : j ≠ t := by
      rintro rfl
      exact going (sound.unborn j le).1
    simp only [update_of_ne other]
    exact sound.unborn j le

/-! ## The steps -/

/-- `on` before the result. -/
theorem Sound.insert_callback (sound : s.Sound unpack) {j : ℕ} (born : j < s.fresh)
    (none : s.result j = none) :
    (s.insert j .callback).Sound unpack where
  order := sound.order
  le i := (sound.le i).trans (length_le_insert i j _)
  early := sound.early
  looping := sound.looping
  done i a result := by
    have other : i ≠ j := by
      rintro rfl
      exact nomatch none.symm.trans result
    rw [receivers_insert_other other]
    exact sound.done i a result
  waits t w waiting := ⟨receiver_insert_old j _ (sound.waits t w waiting).1,
    (sound.waits t w waiting).2⟩
  awaited i k t there late := by
    rcases receiver_insert_cases there with old | ⟨-, -, new⟩
    · exact sound.awaited i k t old late
    · exact nomatch new
  unborn i le := by
    rw [receivers_insert_other (born.trans_le le).ne']
    exact sound.unborn i le

/-- `sync` before the result: the receiver that the coroutine waits for is the last one. -/
theorem Sound.insert_resume (sound : s.Sound unpack) {t j : ℕ} (awake : s.waiting t = none)
    (born : j < s.fresh) (none : s.result j = none) :
    ({ s.insert j (.resume t) with
        waiting := update s.waiting t (some ⟨j, (s.receivers j).length, false⟩) } :
      State π).Sound unpack where
  order := sound.order
  le i := (sound.le i).trans (length_le_insert i j _)
  early := sound.early
  looping := sound.looping
  done i a result := by
    have other : i ≠ j := by
      rintro rfl
      exact nomatch none.symm.trans result
    simp only [receivers_insert_other other]
    exact sound.done i a result
  waits u w waiting := by
    rcases eq_or_ne u t with rfl | other
    · simp only [update_self, Option.some.injEq] at waiting
      subst waiting
      exact ⟨receiver_insert_new j _, iff_of_false Bool.false_ne_true (sound.le j).not_gt⟩
    · simp only [update_of_ne other] at waiting
      exact ⟨receiver_insert_old j _ (sound.waits u w waiting).1, (sound.waits u w waiting).2⟩
  awaited i k u there late := by
    rcases receiver_insert_cases there with old | ⟨rfl, rfl, new⟩
    · have waiting := sound.awaited i k u old late
      have other : u ≠ t := by
        rintro rfl
        exact nomatch awake.symm.trans waiting
      simpa only [update_of_ne other] using waiting
    · obtain rfl : t = u := by simpa using new
      exact update_self _ _ _
  unborn i le := by
    simp only [receivers_insert_other (born.trans_le le).ne']
    exact sound.unborn i le

/-- A receiver that comes after the result is called at once. -/
theorem Sound.insert_late (sound : s.Sound unpack) {j : ℕ} {a : List (Value π)}
    (result : s.result j = some a) (r : Receiver) :
    ((s.insert j r).log ⟨j, (s.receivers j).length, unpack a⟩).Sound unpack := by
  obtain ⟨gone, all, args⟩ := sound.done j a result
  have apart {i : ℕ} (going : s.base i ≠ .gone) : i ≠ j := by
    rintro rfl
    exact going gone
  have count : begun (s.calls ++ [⟨j, (s.receivers j).length, unpack a⟩]) j =
      ((s.insert j r).receivers j).length := by
    rw [receivers_insert_same, List.length_append, ← all]
    exact begun_concat_same s.calls ⟨j, begun s.calls j, unpack a⟩
  refine ⟨fun i => order_concat all.symm (sound.order i), fun i => ?_, fun i early => ?_,
    fun i k b base => ?_, fun i b there => ?_, fun t w waiting => ?_,
    fun i k t there uncalled => ?_, fun i le => ?_⟩
  · rcases eq_or_ne i j with rfl | other
    · exact count.le
    · exact (begun_concat_other other).trans_le ((sound.le i).trans (length_le_insert i j r))
  · have going : s.base i ≠ .gone := by
      rintro gone
      exact absurd early (by simp [log, insert, gone])
    exact (begun_concat_other (apart going)).trans (sound.early i early)
  · have other : i ≠ j := apart fun gone => nomatch gone.symm.trans base
    obtain ⟨turn, args⟩ := sound.looping i k b base
    refine ⟨(begun_concat_other other).trans turn, fun c mem => args c ?_⟩
    exact (mem_callsOf_concat mem).resolve_right fun new => other new.1
  · rcases eq_or_ne i j with rfl | other
    · obtain rfl : a = b := Option.some.inj (result.symm.trans there)
      refine ⟨gone, count, fun c mem => ?_⟩
      rcases mem_callsOf_concat mem with old | ⟨-, rfl⟩
      · exact args c old
      · exact .inr rfl
    · obtain ⟨gone, all, args⟩ := sound.done i b there
      refine ⟨gone, ?_, fun c mem => args c ?_⟩
      · refine (begun_concat_other other).trans (all.trans ?_)
        exact congrArg List.length (receivers_insert_other other r).symm
      · exact (mem_callsOf_concat mem).resolve_right fun new => other new.1
  · obtain ⟨there, late⟩ := sound.waits t w waiting
    refine ⟨receiver_insert_old j r there, ?_⟩
    rcases eq_or_ne w.future j with rfl | other
    · have called : w.index < begun s.calls w.future := by
        rw [all]
        exact (List.getElem?_eq_some_iff.mp there).1
      exact iff_of_true (late.mpr called) (called.trans_le (begun_le_concat _ _ _))
    · exact late.trans (iff_of_eq (congrArg (w.index < ·) (begun_concat_other other).symm))
  · rcases receiver_insert_cases there with old | ⟨rfl, rfl, -⟩
    · exact sound.awaited i k t old ((begun_le_concat _ _ _).trans uncalled)
    · have short : ((s.insert i r).receivers i).length ≤ (s.receivers i).length :=
        count.symm.trans_le uncalled
      rw [receivers_insert_same, List.length_append] at short
      exact absurd short (Nat.not_succ_le_self _)
  · obtain ⟨gone, none, unbegun, empty⟩ := sound.unborn i le
    have other : i ≠ j := by
      rintro rfl
      exact nomatch none.symm.trans result
    exact ⟨gone, none, (begun_concat_other other).trans unbegun,
      (receivers_insert_other other r).trans empty⟩

/-- The coroutine yields although its receiver has been called. -/
theorem Sound.wait_late (sound : s.Sound unpack) {t : ℕ} {w : Waiting}
    (awake : s.waiting t = none) (there : (s.receivers w.future)[w.index]? = some (.resume t))
    (late : w.late = true) (called : w.index < begun s.calls w.future) :
    ({ s with waiting := update s.waiting t (some w) } : State π).Sound unpack where
  order := sound.order
  le := sound.le
  early := sound.early
  looping := sound.looping
  done := sound.done
  waits u v waiting := by
    rcases eq_or_ne u t with rfl | other
    · simp only [update_self, Option.some.injEq] at waiting
      subst waiting
      exact ⟨there, fun _ => called, fun _ => late⟩
    · simp only [update_of_ne other] at waiting
      exact sound.waits u v waiting
  awaited i k u there uncalled := by
    have waiting := sound.awaited i k u there uncalled
    have other : u ≠ t := by
      rintro rfl
      exact nomatch awake.symm.trans waiting
    simpa only [update_of_ne other] using waiting
  unborn := sound.unborn

/-- The loop has come to its end. -/
theorem Sound.settle (sound : s.Sound unpack) {t k : ℕ} {a : List (Value π)}
    (base : s.base t = .calling k a) (last : (s.receivers t)[k]? = none) :
    ({ s with result := update s.result t (some a), base := update s.base t .gone } :
      State π).Sound unpack where
  order := sound.order
  le := sound.le
  early j early := by
    rcases eq_or_ne j t with rfl | other
    · simp at early
    · simp only [update_of_ne other] at early
      exact sound.early j early
  looping j i b base := by
    rcases eq_or_ne j t with rfl | other
    · simp at base
    · simp only [update_of_ne other] at base
      exact sound.looping j i b base
  done j b result := by
    rcases eq_or_ne j t with rfl | other
    · simp only [update_self, Option.some.injEq] at result ⊢
      subst result
      obtain ⟨turn, args⟩ := sound.looping j k a base
      have all : begun s.calls j = (s.receivers j).length :=
        le_antisymm (sound.le j) (by rw [turn]; exact List.getElem?_eq_none_iff.mp last)
      exact ⟨trivial, all, fun c mem => .inl (args c mem)⟩
    · simp only [update_of_ne other] at result ⊢
      exact sound.done j b result
  waits := sound.waits
  awaited := sound.awaited
  unborn j le := by
    have other : j ≠ t := by
      rintro rfl
      exact nomatch (sound.unborn j le).1.symm.trans base
    simp only [update_of_ne other]
    exact sound.unborn j le

/-- The loop calls its next receiver. -/
theorem Sound.call (sound : s.Sound unpack) {t k : ℕ} {a : List (Value π)}
    (base : s.base t = .calling k a) {waiting : ℕ → Option Waiting} {r : Receiver}
    (there : (s.receivers t)[k]? = some r)
    (woken : ∀ u w, waiting u = some w → s.waiting u = some w ∧ r ≠ .resume u)
    (others : ∀ u, r ≠ .resume u → waiting u = s.waiting u) :
    ({ s.log ⟨t, k, a⟩ with
        base := update s.base t (.calling (k + 1) a), waiting := waiting } :
      State π).Sound unpack := by
  obtain ⟨turn, args⟩ := sound.looping t k a base
  have count : begun (s.calls ++ [⟨t, k, a⟩]) t = k + 1 := by
    rw [← turn]
    exact begun_concat_same s.calls ⟨t, begun s.calls t, a⟩
  refine ⟨fun j => order_concat turn.symm (sound.order j), fun j => ?_, fun j early => ?_,
    fun j i b now => ?_, fun j b result => ?_, fun u w now => ?_, fun j i u at0 uncalled => ?_,
    fun j le => ?_⟩
  · rcases eq_or_ne j t with rfl | other
    · exact count.trans_le (List.getElem?_eq_some_iff.mp there).1
    · exact (begun_concat_other other).trans_le (sound.le j)
  · rcases eq_or_ne j t with rfl | other
    · simp at early
    · simp only [update_of_ne other] at early
      exact (begun_concat_other other).trans (sound.early j early)
  · rcases eq_or_ne j t with rfl | other
    · simp only [update_self, Base.calling.injEq] at now
      obtain ⟨rfl, rfl⟩ := now
      refine ⟨count, fun c mem => ?_⟩
      rcases mem_callsOf_concat mem with old | ⟨-, rfl⟩
      · exact args c old
      · rfl
    · simp only [update_of_ne other] at now
      obtain ⟨turn, args⟩ := sound.looping j i b now
      refine ⟨(begun_concat_other other).trans turn, fun c mem => args c ?_⟩
      exact (mem_callsOf_concat mem).resolve_right fun new => other new.1
  · have other : j ≠ t := by
      rintro rfl
      exact nomatch base.symm.trans (sound.done j b result).1
    obtain ⟨gone, all, args⟩ := sound.done j b result
    simp only [update_of_ne other]
    refine ⟨gone, (begun_concat_other other).trans all, fun c mem => args c ?_⟩
    exact (mem_callsOf_concat mem).resolve_right fun new => other new.1
  · obtain ⟨old, apart⟩ := woken u w now
    obtain ⟨at0, late⟩ := sound.waits u w old
    refine ⟨at0, ?_⟩
    rcases eq_or_ne w.future t with rfl | other
    · have elsewhere : w.index ≠ k := by
        rintro rfl
        exact apart (Option.some.inj (there.symm.trans at0))
      rw [late, turn]
      show w.index < k ↔ w.index < begun (s.calls ++ [⟨w.future, k, a⟩]) w.future
      rw [count]
      omega
    · exact late.trans (iff_of_eq (congrArg (w.index < ·) (begun_concat_other other).symm))
  · have before : begun s.calls j ≤ i := (begun_le_concat _ _ _).trans uncalled
    have elsewhere : r ≠ .resume u := by
      rintro rfl
      have now := sound.awaited t k u there turn.le
      obtain ⟨rfl, rfl⟩ : t = j ∧ k = i := by simpa [now] using sound.awaited j i u at0 before
      exact absurd (count.symm.trans_le uncalled) (Nat.not_succ_le_self _)
    exact (others u elsewhere).trans (sound.awaited j i u at0 before)
  · obtain ⟨gone, none, unbegun, empty⟩ := sound.unborn j le
    have other : j ≠ t := by
      rintro rfl
      exact nomatch gone.symm.trans base
    simp only [update_of_ne other]
    exact ⟨gone, none, (begun_concat_other other).trans unbegun, empty⟩

/-- What the end of a function leaves below: the same, nothing any more, or after `f` the loop. -/
theorem ended_base (raised handler : Bool) (values : List (Value π)) (frames : List Frame)
    (base : Base π) :
    (ended raised handler values frames base).2 = base ∨
      (ended raised handler values frames base).2 = .gone ∨
      (base = .protect ∨ base = .unprotect) ∧
        ∃ a, (ended raised handler values frames base).2 = .calling 0 a := by
  unfold ended
  split
  · exact .inr (.inr ⟨.inl rfl, _, rfl⟩)
  · cases raised
    · exact .inr (.inr ⟨.inr rfl, _, rfl⟩)
    · exact .inr (.inl rfl)
  · exact .inl rfl
  · cases raised
    · exact .inl rfl
    · exact .inr (.inl rfl)
  all_goals exact .inl rfl

theorem Sound.finish (sound : s.Sound unpack) (t : ℕ) (raised handler : Bool)
    (values : List (Value π)) : (s.finish t raised handler values).Sound unpack := by
  refine Sound.reframe (s := { s with
    base := update s.base t (ended raised handler values (s.frames t) (s.base t)).2 }) ?_ _
  rcases ended_base raised handler values (s.frames t) (s.base t) with
    same | gone | ⟨early, a, call⟩
  · rw [same, update_eq_self]
    exact sound
  · rw [gone]
    rcases eq_or_ne (s.base t) .gone with was | going
    · rw [← was, update_eq_self]
      exact sound
    · exact sound.rebase going (by simp) nofun
  · rw [call]
    have unbegun : begun s.calls t = 0 := sound.early t (.inr early)
    refine sound.rebase ?_ (by simp) ?_
    · rcases early with early | early <;> simp [early]
    · rintro k b eq
      obtain ⟨rfl, rfl⟩ : 0 = k ∧ a = b := by simpa using eq
      exact ⟨unbegun, fun c mem => absurd mem (by simp [callsOf_eq_nil unbegun])⟩

theorem Sound.futureOn (sound : s.Sound unpack) (t : ℕ) {j : ℕ} (born : j < s.fresh) :
    (s.futureOn unpack t j).Sound unpack := by
  unfold State.futureOn
  split
  · next none => exact sound.insert_callback born none
  · next a result => exact (sound.insert_late result .callback).reframe _

theorem Sound.futureSync (sound : s.Sound unpack) {t j : ℕ} (awake : s.waiting t = none)
    (born : j < s.fresh) : (s.futureSync unpack t j).Sound unpack := by
  unfold State.futureSync
  split
  · next none => exact sound.insert_resume awake born none
  · next a result =>
      have late := sound.insert_late result (.resume t)
      refine late.wait_late (w := ⟨j, (s.receivers j).length, true⟩) awake
        (receiver_insert_new j _) rfl ?_
      show (s.receivers j).length < begun (s.calls ++ [⟨j, (s.receivers j).length, unpack a⟩]) j
      rw [begun_concat_same s.calls ⟨j, _, _⟩, (sound.done j a result).2.1]
      exact Nat.lt_succ_self _

theorem Sound.next (sound : s.Sound unpack) (t : ℕ) : (s.next t).Sound unpack := by
  unfold State.next
  split
  · next k a _ base =>
      split
      · next last => exact sound.settle base last
      · next there =>
          refine Sound.reframe (s := { s.log ⟨t, k, a⟩ with
            base := update s.base t (.calling (k + 1) a) }) ?_ _
          exact sound.call base there (fun u w now => ⟨now, nofun⟩) (fun _ _ => rfl)
      · next co there =>
          refine sound.call base there (fun u w now => ?_) (fun u other => ?_)
          · have other : u ≠ co := by
              rintro rfl
              simp at now
            rw [update_of_ne other] at now
            exact ⟨now, fun eq => other (by simpa using eq.symm)⟩
          · exact update_of_ne (fun eq => other (congrArg Receiver.resume eq.symm)) _ _
  · exact sound

theorem of_guard (p : State π → Prop) {s' : State π} {can : Prop} [Decidable can] (now : p s)
    (keeps : can → p s') : p (if can then s' else s) := by
  split
  · next can => exact keeps can
  · exact now

/-- One step of one coroutine. -/
theorem Sound.step (sound : s.Sound unpack) (act : Act π) : (s.step unpack act).Sound unpack := by
  cases act with
  | start => exact sound.create (.inl rfl)
  | run t guarded =>
      refine of_guard _ sound fun _ => ?_
      cases guarded
      · exact sound.create (.inr (.inr rfl))
      · exact sound.create (.inr (.inl rfl))
  | callOn t j => exact of_guard _ sound fun can => sound.futureOn t can.2.1
  | callSync t j => exact of_guard _ sound fun can => sound.futureSync can.1.1 can.2.1
  | finish t raised handler values =>
      exact of_guard _ sound fun _ => sound.finish t raised handler values
  | next t => exact sound.next t

/-- All programs in all orders in which their coroutines go on. -/
theorem Sound.run (sound : s.Sound unpack) (acts : List (Act π)) :
    (s.run unpack acts).Sound unpack := by
  induction acts generalizing s with
  | nil => exact sound
  | cons act acts ih => exact ih (sound.step act)

/-! ## What the users of a future rely on -/

theorem Sound.born (sound : s.Sound unpack) {j i : ℕ} {r : Receiver}
    (there : (s.receivers j)[i]? = some r) : j < s.fresh := by
  by_contra unborn
  rw [(sound.unborn j (not_lt.mp unborn)).2.2.2] at there
  exact nomatch there

/-- There is one result. -/
theorem Sound.result_step (sound : s.Sound unpack) (act : Act π) {j : ℕ} {a : List (Value π)}
    (result : s.result j = some a) : (s.step unpack act).result j = some a := by
  cases act with
  | start => exact result
  | run t guarded => exact of_guard (State.result · j = some a) result fun _ => result
  | callOn t i =>
      refine of_guard (State.result · j = some a) result fun _ => ?_
      unfold State.futureOn
      split <;> exact result
  | callSync t i =>
      refine of_guard (State.result · j = some a) result fun _ => ?_
      unfold State.futureSync
      split <;> exact result
  | finish t raised handler values =>
      exact of_guard (State.result · j = some a) result fun _ => result
  | next t =>
      show (s.next t).result j = some a
      unfold State.next
      split
      · next k b _ base =>
          have other : j ≠ t := by
            rintro rfl
            exact nomatch base.symm.trans (sound.done j a result).1
          split
          · exact (update_of_ne other _ _).trans result
          · exact result
          · exact result
      · exact result

/-- What `t` waits for will not come: the result was there before, or the coroutine that was to
call the future has ended. -/
def Stuck (s : State π) (t : ℕ) (w : Waiting) : Prop :=
  s.waiting t = some w ∧ (w.late = true ∨ s.base w.future = .gone)

theorem Sound.stuck_step (sound : s.Sound unpack) (act : Act π) {t : ℕ} {w : Waiting}
    (stuck : s.Stuck t w) : (s.step unpack act).Stuck t w := by
  obtain ⟨waiting, lost⟩ := stuck
  have asleep {u : ℕ} (running : s.Running u) : t ≠ u := by
    rintro rfl
    exact nomatch running.1.symm.trans waiting
  have old : w.future ≠ s.fresh := (sound.born (sound.waits t w waiting).1).ne
  have created (b : Base π) : (s.create b).Stuck t w := by
    refine ⟨waiting, lost.imp_right fun gone => ?_⟩
    rw [base_create_old old]
    exact gone
  cases act with
  | start => exact created _
  | run u guarded => exact of_guard (State.Stuck · t w) ⟨waiting, lost⟩ fun _ => created _
  | callOn u j =>
      refine of_guard (State.Stuck · t w) ⟨waiting, lost⟩ fun _ => ?_
      unfold State.futureOn
      split <;> exact ⟨waiting, lost⟩
  | callSync u j =>
      refine of_guard (State.Stuck · t w) ⟨waiting, lost⟩ fun can => ?_
      unfold State.futureSync
      split <;> exact ⟨(update_of_ne (asleep can.1) _ _).trans waiting, lost⟩
  | finish u raised handler values =>
      refine of_guard (State.Stuck · t w) ⟨waiting, lost⟩ fun _ => ⟨waiting, ?_⟩
      refine lost.imp_right fun gone => ?_
      rcases eq_or_ne w.future u with rfl | other
      · show update s.base w.future _ w.future = .gone
        rw [update_self]
        rcases ended_base raised handler values (s.frames w.future) (s.base w.future) with
          same | now | ⟨early, -⟩
        · rw [same, gone]
        · exact now
        · simp [gone] at early
      · exact (update_of_ne other _ _).trans gone
  | next u =>
      show (s.next u).Stuck t w
      unfold State.next
      split
      · next k a _ base =>
          have other (gone : s.base w.future = .gone) : w.future ≠ u := by
            rintro rfl
            exact nomatch gone.symm.trans base
          have after (b : Base π) : w.late = true ∨ update s.base u b w.future = .gone :=
            lost.imp_right fun gone => (update_of_ne (other gone) _ _).trans gone
          split
          · exact ⟨waiting, after _⟩
          · exact ⟨waiting, after _⟩
          · next co there =>
              refine ⟨?_, after _⟩
              have elsewhere : t ≠ co := by
                rintro rfl
                have awaited := sound.awaited u k t there (sound.looping u k a base).1.le
                obtain rfl : w = ⟨u, k, false⟩ := Option.some.inj (waiting.symm.trans awaited)
                rcases lost with late | gone
                · exact nomatch late
                · exact other gone rfl
              exact (update_of_ne elsewhere _ _).trans waiting
      · exact ⟨waiting, lost⟩

/-- What a step keeps in a sound state holds in every later one. -/
theorem Sound.run_keeps (p : State π → Prop)
    (step : ∀ {s : State π}, s.Sound unpack → ∀ act, p s → p (s.step unpack act))
    (sound : s.Sound unpack) (now : p s) (acts : List (Act π)) : p (s.run unpack acts) := by
  induction acts generalizing s with
  | nil => exact now
  | cons act acts ih => exact ih (sound.step act) (step sound act now)

variable (unpack)

/-- The receivers of a future are called in the order in which they have come, no one twice, and
when the result is there each one has been called with it.  It is not replaced. -/
theorem receivers_called (acts : List (Act π)) (j : ℕ) :
    let s := init.run unpack acts
    (callsOf s.calls j).map Call.index = List.range (begun s.calls j) ∧
      begun s.calls j ≤ (s.receivers j).length ∧
      ∀ a, s.result j = some a → begun s.calls j = (s.receivers j).length ∧
        (∀ c ∈ callsOf s.calls j, c.args = a ∨ c.args = unpack a) ∧
        ∀ more, (s.run unpack more).result j = some a := by
  intro s
  have sound : s.Sound unpack := init_sound.run acts
  refine ⟨sound.order j, sound.le j, fun a result => ?_⟩
  obtain ⟨-, all, args⟩ := sound.done j a result
  exact ⟨all, args, sound.run_keeps (State.result · j = some a)
    (fun sound act => sound.result_step act) result⟩

/-- A coroutine that has called `sync` in time waits just as long as its closure is not called: no
result comes without its being resumed. -/
theorem sync_waits (acts : List (Act π)) (t j i : ℕ) :
    let s := init.run unpack acts
    (s.waiting t = some ⟨j, i, false⟩ ↔
      (s.receivers j)[i]? = some (.resume t) ∧ begun s.calls j ≤ i) ∧
      (s.waiting t = some ⟨j, i, false⟩ → s.result j = none) := by
  intro s
  have sound : s.Sound unpack := init_sound.run acts
  have uncalled (waiting : s.waiting t = some ⟨j, i, false⟩) :
      (s.receivers j)[i]? = some (.resume t) ∧ begun s.calls j ≤ i := by
    obtain ⟨there, late⟩ := sound.waits t _ waiting
    exact ⟨there, not_lt.mp fun lt => Bool.false_ne_true (late.mpr lt)⟩
  refine ⟨⟨uncalled, fun both => sound.awaited j i t both.1 both.2⟩, fun waiting => ?_⟩
  obtain ⟨there, le⟩ := uncalled waiting
  cases result : s.result j with
  | none => rfl
  | some a =>
      have lt : i < (s.receivers j).length := (List.getElem?_eq_some_iff.mp there).1
      rw [(sound.done j a result).2.1] at le
      exact absurd lt le.not_gt

/-- `sync` of a future that has its result never returns, and neither does that of one whose
coroutine has ended without it. -/
theorem waits_forever (acts more : List (Act π)) {t : ℕ} {w : Waiting}
    (stuck : (init.run unpack acts).Stuck t w) :
    ((init.run unpack acts).run unpack more).waiting t = some w :=
  ((init_sound.run acts).run_keeps (State.Stuck · t w) (fun sound act => sound.stuck_step act)
    stuck more).1

/-- `local ft = yue.fiber(function () end):run(); ft:sync()`, and another one that does the same. -/
theorem waits_forever_finished :
    ((init.run id [.start, .run 0 true, .finish 1 false false [], .next 1, .callSync 0 1]).run
      (π := Empty) id [.start, .callSync 2 1, .next 1]).waiting 0 = some ⟨1, 0, true⟩ :=
  waits_forever id _ _ ⟨rfl, .inl rfl⟩

end State

end Cyue.Lua.Futures
