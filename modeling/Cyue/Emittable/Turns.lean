import Cyue.Emittable.Watchers

/-!
# The turns of the watchers under `emit_one`

A watcher that keeps watching goes behind all others after its call, and a new
one is put in front of all others.  The part of the list in front of a watcher
is therefore the one that still has its turn before that watcher's next call.
-/

namespace Cyue.Emittable

variable {ρ : Type*} [DecidableEq ρ]

def calls (v : ρ) : List (Event ρ) → ℕ
  | [] => 0
  | .called w _ :: earlier => (if w = v then 1 else 0) + calls v earlier
  | .added _ :: earlier => calls v earlier
  | .removed _ :: earlier => calls v earlier
  | .removedAll :: earlier => calls v earlier

/-! ## The order of the calls -/

/-- The list `front ++ w :: back` after the events `mid` since the last call of
`w`: of the watchers `others` those in front were not called and those behind
were called once. -/
def Since (w : ρ) (others : Set ρ) (mid : List (Event ρ)) (chain : List ρ) : Prop :=
  ∃ front back, chain = front ++ w :: back ∧ ∀ v, v ∈ others → v ≠ w →
    (v ∈ front ∧ calls v mid = 0) ∨ (v ∈ back ∧ calls v mid = 1)

/-- Between two consecutive calls of a watcher each of the others that stood at
the first one is called once; `base` are the events before the run. -/
def Fair (base recent : List (Event ρ)) : Prop :=
  ∀ w later mid earlier,
    recent = later ++ .called w .keep :: (mid ++ .called w .keep :: earlier) →
    calls w mid = 0 → ∀ v, v ∈ standing (earlier ++ base) → v ≠ w → calls v mid = 1

/-- The list after the events `recent` of a run. -/
structure Turned (base recent : List (Event ρ)) (chain : List ρ) : Prop where
  fair : Fair base recent
  since : ∀ w mid earlier, recent = mid ++ .called w .keep :: earlier → calls w mid = 0 →
    Since w (standing (earlier ++ base)) mid chain

variable {base recent : List (Event ρ)} {chain l : List ρ} {a u w : ρ}

theorem Turned.start : Turned base [] chain where
  fair _ later _ _ split := by simp at split
  since _ mid _ split := by simp at split

/-- A new watcher is in front of all others. -/
theorem Turned.added (turned : Turned base recent chain) :
    Turned base (.added u :: recent) (u :: chain) where
  fair w later mid earlier split idle := by
    cases later with
    | nil => exact nomatch List.head_eq_of_cons_eq split
    | cons e later => exact turned.fair w later mid earlier (List.tail_eq_of_cons_eq split) idle
  since w mid earlier split idle := by
    cases mid with
    | nil => exact nomatch List.head_eq_of_cons_eq split
    | cons e mid =>
        obtain rfl : Event.added u = e := List.head_eq_of_cons_eq split
        obtain ⟨front, back, rfl, once⟩ :=
          turned.since w mid earlier (List.tail_eq_of_cons_eq split) idle
        refine ⟨u :: front, back, rfl, fun v stood other => ?_⟩
        exact (once v stood other).imp_left fun waits =>
          ⟨List.mem_cons_of_mem u waits.1, waits.2⟩

/-- Every other watcher had its turn when a watcher is the first one again. -/
theorem Since.first {others : Set ρ} {mid : List (Event ρ)}
    (since : Since w others mid (w :: l)) (distinct : (w :: l).Nodup) {v : ρ}
    (stood : v ∈ others) (other : v ≠ w) : calls v mid = 1 := by
  obtain ⟨front, back, split, once⟩ := since
  have behind : w ∉ l := (List.nodup_cons.mp distinct).1
  cases front with
  | nil => exact ((once v stood other).resolve_left fun waits => nomatch waits.1).2
  | cons b front =>
      have rest := List.tail_eq_of_cons_eq split
      exact absurd (rest ▸ List.mem_append_right front List.mem_cons_self) behind

/-- The first watcher is called and goes behind all others. -/
theorem Since.called {others : Set ρ} {mid : List (Event ρ)}
    (since : Since w others mid (a :: l)) (distinct : (a :: l).Nodup) (different : a ≠ w) :
    Since w others (.called a .keep :: mid) (l ++ [a]) := by
  obtain ⟨front, back, split, once⟩ := since
  cases front with
  | nil => exact absurd (List.head_eq_of_cons_eq split) different
  | cons b front =>
      obtain rfl : a = b := List.head_eq_of_cons_eq split
      obtain rfl : l = front ++ w :: back := List.tail_eq_of_cons_eq split
      have outside : a ∉ back := fun member =>
        (List.nodup_cons.mp distinct).1 (by simp [member])
      refine ⟨front, back ++ [a], by simp, fun v stood other => ?_⟩
      by_cases same : a = v
      · subst same
        have waits := (once a stood other).resolve_right fun turn => outside turn.1
        refine .inr ⟨by simp, ?_⟩
        rw [calls, if_pos rfl, waits.2]
      · have kept : calls v (.called a .keep :: mid) = calls v mid := by
          rw [calls, if_neg same, Nat.zero_add]
        rw [kept]
        rcases once v stood other with ⟨member, idle⟩ | ⟨member, called⟩
        · exact .inl ⟨(List.mem_cons.mp member).resolve_left fun at_a => same at_a.symm, idle⟩
        · exact .inr ⟨List.mem_append_left [a] member, called⟩

/-- An `emit_one` takes the first watcher, which is kept. -/
theorem Turned.called (turned : Turned base recent (a :: l)) (distinct : (a :: l).Nodup)
    (stands : ∀ v, v ∈ standing (recent ++ base) → v ∈ a :: l) :
    Turned base (.called a .keep :: recent) (l ++ [a]) where
  fair w later mid earlier split idle v stood other := by
    cases later with
    | nil =>
        obtain ⟨rfl, -⟩ : a = w ∧ True := by simpa using List.head_eq_of_cons_eq split
        have since := turned.since a mid earlier (List.tail_eq_of_cons_eq split) idle
        exact since.first distinct stood other
    | cons e later =>
        exact turned.fair w later mid earlier (List.tail_eq_of_cons_eq split) idle v stood other
  since w mid earlier split idle := by
    cases mid with
    | nil =>
        obtain ⟨rfl, -⟩ : a = w ∧ True := by simpa using List.head_eq_of_cons_eq split
        obtain rfl : recent = earlier := List.tail_eq_of_cons_eq split
        refine ⟨l, [], rfl, fun v stood other => .inl ⟨?_, rfl⟩⟩
        exact (List.mem_cons.mp (stands v stood)).resolve_left other
    | cons e mid =>
        obtain rfl : Event.called a .keep = e := List.head_eq_of_cons_eq split
        have different : a ≠ w := by
          rintro rfl
          simp [calls] at idle
        have idle : calls w mid = 0 := by simpa [calls, different] using idle
        have since := turned.since w mid earlier (List.tail_eq_of_cons_eq split) idle
        exact since.called distinct different

namespace Watchers

variable {s s' : Watchers ρ}

/-! ## What `emit_one` does to a list of watchers that keep watching -/

/-- An `emit_one` calls the first watcher and puts it last. -/
theorem Represents.turn {answers : ρ → Answer} (fuel : ℕ) (represents : s.Represents (w :: l))
    (keep : answers w = .keep) :
    ∃ s', s.emitOne (fuel + 1) answers = some s' ∧ s'.Represents (l ++ [w]) ∧
      s'.history = .called w .keep :: s.history := by
  obtain ⟨s', run, represents'⟩ := represents.emitOne_keep fuel keep
  refine ⟨s', run, represents', ?_⟩
  rw [emitOne_first represents] at run
  rcases List.eq_nil_or_concat' l with rfl | ⟨l, b, rfl⟩
  · rw [emitOneLoop_keep_first keep rfl] at run
    cases run
    rfl
  · rw [emitOneLoop_keep_last (b := b) keep (by simp)] at run
    cases run
    rfl

/-- As many calls as there are watchers in the first part of the list bring the
second part to the front. -/
theorem Represents.turns {m : List ρ} (fuel : ℕ) (represents : s.Represents (l ++ m)) :
    ∃ s', (List.replicate l.length (.emitOne fun _ => .keep)).foldl (react (fuel + 1)) (some s) =
        some s' ∧ s'.Represents (m ++ l) ∧
      s'.history = (l.map (.called · .keep)).reverse ++ s.history := by
  induction l generalizing s m with
  | nil => exact ⟨s, rfl, by simpa using represents, rfl⟩
  | cons w l ih =>
      obtain ⟨t, run, represented, history⟩ : ∃ t, s.emitOne (fuel + 1) (fun _ => .keep) = some t ∧
          t.Represents (l ++ m ++ [w]) ∧ t.history = .called w .keep :: s.history :=
        represents.turn fuel rfl
      have represented : t.Represents (l ++ (m ++ [w])) := List.append_assoc l m [w] ▸ represented
      obtain ⟨s', runs, represents', history'⟩ := ih represented
      refine ⟨s', ?_, by simpa using represents', ?_⟩
      · have first : react (fuel + 1) (some s) (.emitOne fun _ => .keep) = some t := run
        rw [List.length_cons, List.replicate_succ, List.foldl_cons, first]
        exact runs
      · rw [history', history]
        simp

/-! ## Runs with watchers added in between -/

/-- The watchers that are called keep watching, and none is removed. -/
def Keeping : Op ρ → Prop
  | .addWatcher _ => True
  | .addWatchEntry _ => True
  | .removeWatchEntry _ => False
  | .emit _ => False
  | .emitOne answers => ∀ w, answers w = .keep

/-- One operation of such a run. -/
theorem Represents.turned_exec {op : Op ρ} (fuel : ℕ) (represents : s.Represents chain)
    (turned : Turned base recent chain) (history : s.history = recent ++ base)
    (legal : s.Legal op) (keeping : Keeping op) :
    ∃ s' chain' recent', s.exec (fuel + 1) op = some s' ∧ s'.Represents chain' ∧
      s'.history = recent' ++ base ∧ Turned base recent' chain' := by
  cases op with
  | addWatcher w =>
      exact ⟨_, chain, recent, rfl, represents.addWatcher legal, history, turned⟩
  | addWatchEntry w =>
      have added : (s.addWatchEntry w).history = .added w :: s.history := by
        rw [Watchers.addWatchEntry]
        split <;> rfl
      refine ⟨_, w :: chain, .added w :: recent, rfl, represents.addWatchEntry legal, ?_,
        turned.added⟩
      rw [added, history]
      rfl
  | removeWatchEntry w => exact keeping.elim
  | emit answers => exact keeping.elim
  | emitOne answers =>
      cases chain with
      | nil =>
          have empty : s.top = none := represents.segment
          refine ⟨s, [], recent, ?_, represents, history, turned⟩
          rw [Watchers.exec, emitOne, empty]
      | cons w l =>
          obtain ⟨s', run, represents', called⟩ := represents.turn fuel (keeping w)
          refine ⟨s', l ++ [w], .called w .keep :: recent, run, represents', ?_, ?_⟩
          · rw [called, history]
            rfl
          · refine turned.called represents.segment.nodup fun v stood => ?_
            rw [← history] at stood
            exact (represents.standing v).mpr stood

/-- A whole run. -/
theorem Represents.turned_run {ops : List (Op ρ)} {fuel : ℕ} (represents : s.Represents chain)
    (turned : Turned base recent chain) (history : s.history = recent ++ base)
    (legal : Run.Along (react (fuel + 1)) (fun s op => ∀ t, s = some t → t.Legal op) (some s) ops)
    (keeping : ∀ op ∈ ops, Keeping op) :
    ∃ s' recent', ops.foldl (react (fuel + 1)) (some s) = some s' ∧
      s'.history = recent' ++ base ∧ Fair base recent' := by
  induction ops generalizing s recent chain with
  | nil => exact ⟨s, recent, rfl, history, turned.fair⟩
  | cons op ops ih =>
      obtain ⟨t, chain', recent', run, represents', history', turned'⟩ :=
        represents.turned_exec fuel turned history (legal.1 s rfl)
          (keeping op List.mem_cons_self)
      have first : react (fuel + 1) (some s) op = some t := run
      rw [List.foldl_cons, first]
      exact ih represents' turned' history' (first ▸ legal.2)
        fun op later => keeping op (List.mem_cons_of_mem _ later)

/-- On a list of watchers that keep watching, as many calls of `emit_one` as
there are watchers call each of them once in list order and leave the list as it
was; and with watchers added in between, each of the others that stood all along
is called once between two consecutive calls of one watcher. -/
theorem emit_one_fair {fuel : ℕ} (represents : s.Represents chain) :
    (chain.Nodup ∧ ∃ s',
      (List.replicate chain.length (.emitOne fun _ => .keep)).foldl (react (fuel + 1)) (some s) =
        some s' ∧ s'.Represents chain ∧
      s'.history = (chain.map (.called · .keep)).reverse ++ s.history) ∧
    ∀ ops, Run.Along (react (fuel + 1)) (fun s op => ∀ t, s = some t → t.Legal op) (some s) ops →
      (∀ op ∈ ops, Keeping op) →
      ∃ s' recent, ops.foldl (react (fuel + 1)) (some s) = some s' ∧
        s'.history = recent ++ s.history ∧ Fair s.history recent := by
  refine ⟨⟨represents.segment.nodup, ?_⟩, fun ops legal keeping => ?_⟩
  · have whole : s.Represents (chain ++ []) := by simpa using represents
    obtain ⟨s', run, represents', history⟩ := whole.turns fuel
    exact ⟨s', run, represents', history⟩
  · exact represents.turned_run Turned.start rfl legal keeping

/-- Two watchers, the second one added in front of the first. -/
def pair : Watchers ℕ :=
  (((init.addWatcher 0).addWatchEntry 0).addWatcher 1).addWatchEntry 1

theorem pair_represents : pair.Represents [1, 0] :=
  (((init_represents.addWatcher rfl).addWatchEntry rfl).addWatcher rfl).addWatchEntry rfl

/-- The watcher added after the first call has its turn before the others. -/
theorem emit_one_fair_pair :
    (∃ s', (List.replicate 2 (.emitOne fun _ => .keep)).foldl (react 1) (some pair) = some s' ∧
      s'.Represents [1, 0]) ∧
    ∃ s' recent, [.emitOne fun _ => .keep, .addWatcher 2, .addWatchEntry 2,
        .emitOne fun _ => .keep, .emitOne fun _ => .keep,
        .emitOne fun _ => .keep].foldl (react 1) (some pair) = some s' ∧
      s'.history = recent ++ pair.history ∧ Fair pair.history recent := by
  obtain ⟨⟨-, s', run, represents, -⟩, runs⟩ := @emit_one_fair ℕ _ [1, 0] pair 0 pair_represents
  refine ⟨⟨s', run, represents⟩, runs _ ?_ ?_⟩
  · refine ⟨?_, ?_, ?_, ?_, ?_, ?_, trivial⟩
    all_goals
      intro t reached
      cases reached
      first | rfl | trivial
  · simp [Keeping]

end Watchers

end Cyue.Emittable
