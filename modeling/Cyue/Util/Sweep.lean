import Cyue.Util.Keyed

/-!
# Sweeps over a map

`iterate` walks the list of the used elements and calls a function with the value
of each one.  The function may do anything to the map.
-/

namespace Cyue.Keyed

variable {K V : Type*} [DecidableEq K]

/-- The function, for its n-th call in a state on an element: what it does to the
map, and what it returns. -/
abbrev Callback (K V : Type*) := ℕ → Keyed K V → ℕ → List (Op K V) × ℤ

/-- The loop of `iterate_array`: the map, the variable `p`, the elements visited so
far with the last one first, and whether the function has stopped the loop. -/
structure Sweep (K V : Type*) where
  map : Keyed K V
  p : Option ℕ
  visited : List ℕ
  stopped : Bool

namespace Sweep

/-- `p = arr->first()` -/
def start (s : Keyed K V) : Sweep K V := ⟨s, s.array.used, [], false⟩

/-- One round: the successor is fetched, then the function is called. -/
def round (fn : Callback K V) (w : Sweep K V) : Sweep K V :=
  match w.p with
  | none => w
  | some pp =>
      let r := fn w.visited.length w.map pp
      { map := r.1.foldl step w.map
        p := if r.2 < 0 then none else w.map.array.next pp
        visited := pp :: w.visited
        stopped := r.2 < 0 }

def Stays (e : ℕ) (s : Keyed K V) (ops : List (Op K V)) : Prop :=
  Run.Along step (fun s op => e ∈ (s.step op).array.held) s ops

def calls (fn : Callback K V) (w : Sweep K V) : List (Op K V) :=
  w.p.elim [] fun pp => (fn w.visited.length w.map pp).1

/-- The function does not remove the successor of the visited element. -/
def Heeds (fn : Callback K V) (w : Sweep K V) : Prop :=
  ∀ pp q, w.p = some pp → w.map.array.next pp = some q → Stays q w.map (w.calls fn)

/-! ## The rest of the list -/

variable {s : Keyed K V} {bucket : ℕ → List ℕ} {used free : List ℕ} {base : ℕ}

/-- New elements are put in front, so that behind any place of the list elements
only leave. -/
theorem step_rest {front rest : List ℕ} (sound : Sound s bucket (front ++ rest) free base)
    {op : Op K V} (allowed : s.Allowed op) :
    ∃ bucket' front' rest' free', Sound (s.step op) bucket' (front' ++ rest') free' base ∧
      rest'.Sublist rest ∧ ∀ e, e ∈ rest → e ∈ (s.step op).array.held → e ∈ rest' := by
  cases op with
  | insert k f calloc =>
      have inserted := sound.insert f allowed
      rw [Keyed.step]
      generalize s.insert k f calloc = result at inserted ⊢
      cases inserted with
      | present e inside here sound' =>
          exact ⟨bucket, front, rest, free, sound', .refl rest, fun e member _ => member⟩
      | full => exact ⟨bucket, front, rest, free, sound, .refl rest, fun e member _ => member⟩
      | new e free' old s' absent fresh taken key value stored sound' =>
          exact ⟨_, e :: front, rest, free', sound', .refl rest, fun e member _ => member⟩
  | remove k f =>
      have removed := sound.remove k f
      rw [Keyed.step]
      generalize s.remove k f = result at removed ⊢
      cases removed with
      | absent => exact ⟨bucket, front, rest, free, sound, .refl rest, fun e member _ => member⟩
      | kept => exact ⟨bucket, front, rest, free, sound, .refl rest, fun e member _ => member⟩
      | taken e inside here held leaves s' bucket' free' sound' =>
          have distinct := sound.lists.chain.nodup
          have others : ∀ u, u ∈ s'.array.held → u ≠ e := by
            rintro u member rfl
            rw [sound'.lists.held] at member
            exact distinct.not_mem_erase member
          by_cases before : e ∈ front
          · rw [List.erase_append_left _ before] at sound'
            exact ⟨bucket', front.erase e, rest, free', sound', .refl rest, fun u member _ => member⟩
          · rw [List.erase_append_right _ before] at sound'
            refine ⟨bucket', front, rest.erase e, free', sound', List.erase_sublist, ?_⟩
            intro u member stays
            exact (List.mem_erase_of_ne (others u stays)).mpr member

theorem steps_rest {front rest : List ℕ} (sound : Sound s bucket (front ++ rest) free base)
    {ops : List (Op K V)} (allowed : Run.Along Keyed.step Allowed s ops) :
    ∃ bucket' front' rest' free',
      Sound (ops.foldl Keyed.step s) bucket' (front' ++ rest') free' base ∧
      rest'.Sublist rest ∧ ∀ e, e ∈ rest → Stays e s ops → e ∈ rest' := by
  induction ops generalizing s bucket front rest free with
  | nil => exact ⟨bucket, front, rest, free, sound, .refl rest, fun e member _ => member⟩
  | cons op ops ih =>
      obtain ⟨bucket₁, front₁, rest₁, free₁, sound₁, sub₁, kept₁⟩ := step_rest sound allowed.1
      obtain ⟨bucket', front', rest', free', sound', sub', kept'⟩ := ih sound₁ allowed.2
      refine ⟨bucket', front', rest', free', sound', sub'.trans sub₁, fun e member stays => ?_⟩
      exact kept' e (kept₁ e member stays.1) stays.2

/-! ## Rounds -/

/-- The elements that are still to be visited are the end of the list, and none of
them has been visited; where the function has stopped the loop, none are left. -/
structure Walking (base : ℕ) (w : Sweep K V) (rest : List ℕ) : Prop where
  sound : ∃ bucket front free, Sound w.map bucket (front ++ rest) free base
  fresh : ∀ e, e ∈ rest → e ∉ w.visited
  distinct : w.visited.Nodup
  p : w.p = if w.stopped then none else rest.head?

variable {fn : Callback K V} {w : Sweep K V} {rest : List ℕ}

omit [DecidableEq K] in
theorem start_walking (sound : Sound s bucket used free base) :
    Walking base (Sweep.start s) used where
  sound := ⟨bucket, [], free, sound⟩
  fresh := fun _ _ => List.not_mem_nil
  distinct := List.nodup_nil
  p := sound.lists.chain.start_eq

omit [DecidableEq K] in
/-- The element that is visited next is in the map. -/
theorem Walking.present (walking : Walking base w rest) {e : ℕ} (next : w.p = some e) :
    e ∈ w.map.array.held := by
  obtain ⟨bucket, front, free, sound⟩ := walking.sound
  rw [walking.p] at next
  split at next
  case isTrue => exact nomatch next
  case isFalse =>
    rw [sound.lists.held]
    exact List.mem_append_right front (List.mem_of_head? next)

/-- One round visits the first of the rest, and all that stay in the map remain. -/
theorem Walking.round (walking : Walking base w rest) (heeds : w.Heeds fn)
    (allowed : Run.Along Keyed.step Allowed w.map (w.calls fn)) {e : ℕ} (next : w.p = some e) :
    ∃ rest', Walking base (w.round fn) rest' ∧ rest'.length < rest.length ∧
      (w.round fn).visited = e :: w.visited ∧
      ∀ u, u ∈ rest → Stays u w.map (w.calls fn) → u ≠ e → u ∈ rest' := by
  obtain ⟨⟨bucket, front, free, sound⟩, fresh, distinct, first⟩ := walking
  rw [next] at first
  split at first
  case isTrue => exact nomatch first
  case isFalse =>
    obtain ⟨tail, rfl⟩ := List.head?_eq_some_iff.mp first.symm
    have calls : w.calls fn = (fn w.visited.length w.map e).1 := by
      rw [Sweep.calls, next]
      rfl
    have successor : w.map.array.next e = tail.head? := sound.lists.chain.next_eq
    have whole : front ++ e :: tail = (front ++ [e]) ++ tail := by simp
    have apart : e ∉ tail := by
      have nodup := sound.lists.chain.nodup
      exact (List.nodup_cons.mp (List.nodup_append.mp nodup).2.1).1
    rw [whole] at sound
    obtain ⟨bucket', front', rest', free', sound', sub, kept⟩ := steps_rest sound allowed
    have round : w.round fn = { map := (w.calls fn).foldl Keyed.step w.map
                                p := if (fn w.visited.length w.map e).2 < 0 then none
                                  else tail.head?
                                visited := e :: w.visited
                                stopped := (fn w.visited.length w.map e).2 < 0 } := by
      rw [Sweep.round, next]
      dsimp only
      rw [calls, successor]
    refine ⟨rest', ⟨?_, ?_, ?_, ?_⟩, ?_, ?_, ?_⟩
    · rw [round]
      exact ⟨bucket', front', free', sound'⟩
    · intro u member
      rw [round]
      have there := sub.subset member
      apply List.not_mem_cons_of_ne_of_not_mem _ (fresh u (List.mem_cons_of_mem e there))
      rintro rfl
      exact apart there
    · rw [round]
      exact List.nodup_cons.mpr ⟨fresh e List.mem_cons_self, distinct⟩
    · rw [round]
      have same : tail.head? = rest'.head? := by
        cases tail with
        | nil => rw [List.sublist_nil.mp sub]
        | cons q tail =>
            have stays : q ∈ rest' :=
              kept q List.mem_cons_self (heeds e q next successor)
            have alone : q ∉ tail := by
              have nodup := sound.lists.chain.nodup
              exact (List.nodup_cons.mp (List.nodup_append.mp nodup).2.1).1
            cases sub with
            | cons _ sub => exact absurd (sub.subset stays) alone
            | cons_cons _ _ => rfl
      dsimp only
      rw [same]
      by_cases stops : (fn w.visited.length w.map e).2 < 0
      · rw [if_pos stops, decide_eq_true stops, if_pos rfl]
      · rw [if_neg stops, decide_eq_false stops, if_neg Bool.false_ne_true]
    · exact Nat.lt_succ_of_le sub.length_le
    · rw [round]
    · intro u member stays other
      exact kept u ((List.mem_cons.mp member).resolve_left other) stays

/-! ## The whole loop -/

def after (fn : Callback K V) (s : Keyed K V) (n : ℕ) : Sweep K V := (round fn)^[n] (start s)

theorem after_succ (fn : Callback K V) (s : Keyed K V) (n : ℕ) :
    after fn s (n + 1) = (after fn s n).round fn :=
  Function.iterate_succ_apply' ..

theorem round_of_none (ended : w.p = none) : w.round fn = w := by
  rw [Sweep.round, ended]

/-- After any rounds, what was in the map at the start and has stayed there is
visited already or is still to be visited. -/
theorem after_walking (sound : Sound s bucket used free base)
    (allowed : ∀ n, Run.Along Keyed.step Allowed (after fn s n).map ((after fn s n).calls fn))
    (heeds : ∀ n, (after fn s n).Heeds fn) (n : ℕ) :
    ∃ rest, Walking base (after fn s n) rest ∧
      ((after fn s n).p ≠ none → n + rest.length ≤ used.length) ∧
      ∀ e, e ∈ used → (∀ m, m < n → Stays e (after fn s m).map ((after fn s m).calls fn)) →
        e ∈ (after fn s n).visited ∨ e ∈ rest := by
  induction n with
  | zero => exact ⟨used, start_walking sound, fun _ => (Nat.zero_add _).le, fun e inside _ => .inr inside⟩
  | succ n ih =>
      obtain ⟨rest, walking, bound, seen⟩ := ih
      rw [after_succ]
      cases next : (after fn s n).p with
      | none =>
          rw [round_of_none next]
          refine ⟨rest, walking, fun going => absurd next going, fun e inside stays => ?_⟩
          exact seen e inside fun m less => stays m (Nat.lt_succ_of_lt less)
      | some e =>
          obtain ⟨rest', walking', shorter, visited, kept⟩ :=
            walking.round (heeds n) (allowed n) next
          refine ⟨rest', walking', fun _ => ?_, fun u inside stays => ?_⟩
          · have bound := bound (next ▸ Option.some_ne_none e)
            omega
          · rw [visited]
            by_cases same : u = e
            · exact .inl (same ▸ List.mem_cons_self)
            · rcases seen u inside fun m less => stays m (Nat.lt_succ_of_lt less) with old | rest
              · exact .inl (List.mem_cons_of_mem e old)
              · exact .inr (kept u rest (stays n (Nat.lt_succ_self n)) same)

/-- A sweep of any map whose function never removes the fetched successor ends; it
visits only what is in the map at that time, nothing twice, and, unless the
function stops it, whatever stays in the map from its start to its end. -/
theorem iterate_visits (new : New K V) (ops : List (Op K V)) (fn : Callback K V)
    (run : Run.Along Keyed.step Allowed new.map ops)
    (allowed : ∀ n, Run.Along Keyed.step Allowed (after fn (new.after ops) n).map
      ((after fn (new.after ops) n).calls fn))
    (heeds : ∀ n, (after fn (new.after ops) n).Heeds fn) :
    (∃ n, (after fn (new.after ops) n).p = none) ∧
      (∀ n e, (after fn (new.after ops) n).p = some e →
        e ∈ (after fn (new.after ops) n).map.array.held ∧ e ∉ (after fn (new.after ops) n).visited) ∧
      ∀ n, (after fn (new.after ops) n).p = none → (after fn (new.after ops) n).stopped = false →
        ∀ e, e ∈ (new.after ops).array.held →
          (∀ m, m < n → Stays e (after fn (new.after ops) m).map
            ((after fn (new.after ops) m).calls fn)) →
          (after fn (new.after ops) n).visited.count e = 1 := by
  obtain ⟨bucket, used, free, sound⟩ := new.coherent.run run
  change Sound (new.after ops) bucket used free new.max at sound
  generalize new.after ops = s at *
  have walks := after_walking sound allowed heeds
  constructor
  · by_contra endless
    obtain ⟨rest, -, bound, -⟩ := walks (used.length + 1)
    have bound := bound fun ended => endless ⟨_, ended⟩
    omega
  · constructor
    · intro n e next
      obtain ⟨rest, walking, -, -⟩ := walks n
      refine ⟨walking.present next, ?_⟩
      have first := walking.p
      rw [next] at first
      split at first
      case isTrue => exact nomatch first
      case isFalse => exact walking.fresh e (List.mem_of_head? first.symm)
    · intro n ended going e inside stays
      obtain ⟨rest, walking, -, seen⟩ := walks n
      rw [sound.lists.held] at inside
      have first := walking.p
      rw [ended, going, if_neg Bool.false_ne_true] at first
      rcases seen e inside stays with visited | later
      · exact List.count_eq_one_of_mem walking.distinct visited
      · rw [List.head?_eq_none_iff.mp first.symm] at later
        exact nomatch later

/-! ## Fibers that run out of time -/

structure Yielded where
  fiber : ℕ
  limit : ℕ
  msgid : ℕ

/-- `fabric::timeout_iterator`; `raise` is what the resumed fiber does to the map. -/
def timeoutIterator (now : ℕ) (raise : ℕ → List (Op ℕ Yielded)) : Callback ℕ Yielded :=
  fun n s e =>
    let py := s.value e
    if now > py.limit then
      (.remove py.msgid nopRemove :: if (s.get py.msgid).isSome then raise n else [], 0)
    else ([], 0)

theorem four_positive : 0 < 4 := by decide

theorem four_few : 4 < 2 ^ 32 := by decide

def fourFibers : New ℕ Yielded where
  hush := (· % 7)
  zero := ⟨0, 0, 0⟩
  unset := 0
  max := 4
  positive := four_positive
  few := four_few
  threadsafe := true
  expandable := true

/-- Two fibers wait, the second one not as long as the first. -/
def yields : List (Op ℕ Yielded) :=
  [.insert 1 (insertSetData ⟨0, 30, 1⟩) none, .insert 2 (insertSetData ⟨1, 10, 2⟩) none]

/-- The second fiber runs out of time, and the first one is visited behind it. -/
theorem iterate_visits_two :
    let w := after (timeoutIterator 20 fun _ => []) (fourFibers.after yields) 2
    w.p = none ∧ w.visited.count 0 = 1 := by
  intro w
  let fn : Callback ℕ Yielded := timeoutIterator 20 fun _ => []
  have ended : ∀ n, after fn (fourFibers.after yields) (n + 2) = w := by
    intro n
    induction n with
    | zero => rfl
    | succ n ih =>
        rw [Nat.add_right_comm, after_succ, ih]
        exact round_of_none (by decide)
  have first : (after fn (fourFibers.after yields) 0).calls fn = [.remove 2 nopRemove] := rfl
  have second : (after fn (fourFibers.after yields) 1).calls fn = [] := rfl
  have later : ∀ n, (after fn (fourFibers.after yields) (n + 2)).calls fn = [] := by
    intro n
    rw [ended]
    rfl
  have stays : ∀ m, Stays 0 (after fn (fourFibers.after yields) m).map
      ((after fn (fourFibers.after yields) m).calls fn) := by
    intro m
    match m with
    | 0 =>
        rw [first]
        exact ⟨by decide, trivial⟩
    | 1 =>
        rw [second]
        trivial
    | m + 2 =>
        rw [later]
        trivial
  have allowed : ∀ n, Run.Along Keyed.step Allowed (after fn (fourFibers.after yields) n).map
      ((after fn (fourFibers.after yields) n).calls fn) := by
    intro n
    match n with
    | 0 =>
        rw [first]
        exact ⟨trivial, trivial⟩
    | 1 =>
        rw [second]
        trivial
    | n + 2 =>
        rw [later]
        trivial
  have heeds : ∀ n, (after fn (fourFibers.after yields) n).Heeds fn := by
    intro n pp q next successor
    match n with
    | 0 =>
        obtain rfl : 1 = pp := Option.some.inj next
        obtain rfl : 0 = q := Option.some.inj successor
        exact stays 0
    | 1 =>
        obtain rfl : 0 = pp := Option.some.inj next
        exact nomatch successor
    | n + 2 =>
        rw [ended] at next
        exact nomatch next
  obtain ⟨-, -, once⟩ := iterate_visits fourFibers yields fn ⟨nofun, nofun, trivial⟩ allowed heeds
  exact ⟨by decide, once 2 (by decide) (by decide) 0 (by decide) fun m _ => stays m⟩

/-- The first fiber to be resumed ends the wait of the other one, whose element
is visited although it has been removed. -/
theorem removed_visited :
    let w := after (timeoutIterator 20 fun _ => [.remove 1 nopRemove]) (fourFibers.after yields) 1
    0 ∈ (fourFibers.after yields).array.held ∧ w.p = some 0 ∧ 0 ∉ w.map.array.held := by
  decide

end Sweep

end Cyue.Keyed
