import Cyue.Timer.Bounds
import Cyue.Timer.Removal

/-!
# The first call of a task

A run is followed here in small steps, which record the indices that each task
was added with.  The start index is cut to its lowest 16 bits, without a check;
what is left decides when the handler is called first.
-/

namespace Cyue.Timer

namespace Regular

variable {k : ℕ} {quits : Event → Prop} {later earlier : List Event} {stage : Stage}
  {n start : ℕ}

/-- Before it enters a timer is fresh. -/
theorem before_entered (life : Regular k quits (later ++ .entered n start :: earlier) stage) :
    Regular k quits earlier .fresh := by
  induction later generalizing stage with
  | nil =>
      cases life with
      | next life step =>
          cases step with
          | entered _ _ _ => exact life
  | cons e later ih =>
      rw [List.cons_append] at life
      cases life with
      | next life step => exact ih life

/-- A timer whose removal nobody asks for is called first when it is due; until
then it waits and only overruns, unless its entry has ended it. -/
theorem first_call (life : Regular k quits (later ++ .entered n start :: earlier) stage)
    (goes : ¬ quits .overrun) (kept : ∀ m, .reserved m ∉ later) :
    stage = .waiting (n + max 1 start) [] ∧ (∀ e, e ∈ later → e = .overrun) ∨
      (stage = .released ∧ quits (.entered n start) ∧ ∀ x, .called x ∉ later) ∨
      .called (n + max 1 start) ∈ later ∧
        (∀ x, .called x ∈ later → n + max 1 start ≤ x) ∧
        ∀ due asked, stage = .waiting due asked → n + max 1 start ≤ due := by
  induction later generalizing stage with
  | nil =>
      cases life with
      | next life step =>
          cases step with
          | entered _ n start => exact .inl ⟨rfl, fun _ member => nomatch member⟩
  | cons e later ih =>
      rw [List.cons_append] at life
      cases life with
      | next life step =>
          have before := ih life fun m member => kept m (List.mem_cons_of_mem e member)
          have member : .entered n start ∈ later ++ .entered n start :: earlier :=
            List.mem_append_right later List.mem_cons_self
          generalize whole : later ++ .entered n start :: earlier = l at life step member
          -- an event that is no call
          have quiet : (∀ x, e ≠ .called x) → ∀ x, .called x ∈ e :: later → .called x ∈ later :=
            fun other x called => (List.mem_cons.mp called).resolve_left fun same =>
              other x same.symm
          cases step with
          | early _ m => exact absurd rfl (life.entered_of_mem member)
          | entered _ _ _ => exact absurd rfl (life.entered_of_mem member)
          | overrun _ due asked =>
              rcases before with ⟨waits, only⟩ | ⟨gone, -⟩ | ⟨called, least, later⟩
              · refine .inl ⟨waits, fun e member => ?_⟩
                exact (List.mem_cons.mp member).elim id (only e)
              · exact nomatch gone
              · exact .inr (.inr ⟨List.mem_cons_of_mem _ called,
                  fun x called => least x (quiet nofun x called), later⟩)
          | called _ x =>
              rcases before with ⟨waits, only⟩ | ⟨gone, -⟩ | ⟨called, least, later⟩
              · obtain ⟨rfl, -⟩ := Stage.waiting.inj waits
                refine .inr (.inr ⟨List.mem_cons_self, fun x called => ?_, fun due asked same => ?_⟩)
                · rcases List.mem_cons.mp called with same | earlier
                  · exact (Event.called.inj same).ge
                  · exact nomatch only _ earlier
                · obtain ⟨rfl, -⟩ := Stage.waiting.inj same
                  exact Nat.le_add_right _ k
              · exact nomatch gone
              · have due := later x [] rfl
                refine .inr (.inr ⟨List.mem_cons_of_mem _ called, fun y called => ?_,
                  fun z asked same => ?_⟩)
                · rcases List.mem_cons.mp called with same | earlier
                  · rw [Event.called.inj same]
                    exact due
                  · exact least y earlier
                · obtain ⟨rfl, -⟩ := Stage.waiting.inj same
                  exact due.trans (Nat.le_add_right x k)
          | reserved _ due m asked => exact absurd List.mem_cons_self (kept m)
          | removed _ due m asked =>
              rcases before with ⟨waits, only⟩ | ⟨gone, -⟩ | ⟨called, least, later⟩
              · exact nomatch (Stage.waiting.inj waits).2
              · exact nomatch gone
              · exact .inr (.inr ⟨List.mem_cons_of_mem _ called,
                  fun x called => least x (quiet nofun x called), nofun⟩)
          | ended l' e' due last =>
              rcases before with ⟨waits, only⟩ | ⟨gone, -⟩ | ⟨called, least, later⟩
              · refine .inr (.inl ⟨rfl, ?_, fun x called => nomatch only _ (quiet nofun x called)⟩)
                cases later with
                | nil =>
                    cases whole
                    exact last
                | cons e later =>
                    cases whole
                    rw [only e' List.mem_cons_self] at last
                    exact absurd last goes
              · exact nomatch gone
              · exact .inr (.inr ⟨List.mem_cons_of_mem _ called,
                  fun x called => least x (quiet nofun x called), nofun⟩)
          | late _ m => exact absurd List.mem_cons_self (kept m)

end Regular

namespace Taskgrp

variable {size : ℕ} {body : Body} {s s' : Taskgrp} {t u : ℕ}

/-! ## Runs in small steps -/

abbrev Added := ℕ → Option (ℤ × ℤ)

def Added.record (added : Added) (s : Taskgrp) : Action → Added
  | .addTimer start intval =>
      if (maxIndex : ℤ) < intval ∨ intval < 1 then added
      else Function.update added s.next (some (start, intval))
  | _ => added

def current (size : ℕ) (s : Taskgrp) : List ℕ := s.sched (s.count % size)

def begin (size : ℕ) (s : Taskgrp) : Taskgrp :=
  { s with
    sched := Function.update s.sched (s.count % size) [], count := s.count + 1,
    elapsed := s.elapsed + 1 }

/-- The points of a run, outside of the loop and inside. -/
inductive Passes (size : ℕ) (body : Body) : Taskgrp → Moment → Added → Prop where
  | init : Passes size body init .outside fun _ => none
  | act {s : Taskgrp} {added : Added} (a : Action) (untimed : ∀ c, a ≠ .trigger c)
      (passes : Passes size body s .outside added) :
      Passes size body (s.act a) .outside (added.record s a)
  | trigger {s : Taskgrp} {added : Added} (c : ℕ) {turns : ℕ}
      (more : (s.raise c).triggerCount - (s.raise c).count = turns + 1)
      (passes : Passes size body s .outside added) :
      Passes size body (begin size (s.raise c)) (.inside none (current size s) turns) added
  | idle {s : Taskgrp} {added : Added} (c : ℕ)
      (done : (s.raise c).triggerCount - (s.raise c).count = 0)
      (passes : Passes size body s .outside added) :
      Passes size body (resetCount size (s.raise c)) .outside added
  | skip {s : Taskgrp} {added : Added} {t turns : ℕ} {walk : List ℕ}
      (waits : s.word t % 2 = 1 ∨ 0 < s.word t / 2)
      (passes : Passes size body s (.inside none (t :: walk) turns) added) :
      Passes size body (visit size body ((s.count - 1) % size) s t) (.inside none walk turns) added
  | call {s : Taskgrp} {added : Added} {t turns : ℕ} {walk : List ℕ}
      (kept : ¬ s.word t % 2 = 1) (due : ¬ 0 < s.word t / 2)
      (passes : Passes size body s (.inside none (t :: walk) turns) added) :
      Passes size body (s.note t (.called (s.elapsed - 1)))
        (.inside (some (t, body t (s.elapsed - 1))) walk turns) added
  | handler {s : Taskgrp} {added : Added} {t turns : ℕ} {a : Action} {rest : List Action}
      {result : ℤ} {walk : List ℕ}
      (passes : Passes size body s (.inside (some (t, a :: rest, result)) walk turns) added) :
      Passes size body (s.act a) (.inside (some (t, rest, result)) walk turns) (added.record s a)
  | conclude {s : Taskgrp} {added : Added} {t turns : ℕ} {result : ℤ} {walk : List ℕ}
      (passes : Passes size body s (.inside (some (t, [], result)) walk turns) added) :
      Passes size body (conclude size ((s.count - 1) % size) s t result)
        (.inside none walk turns) added
  | next {s : Taskgrp} {added : Added} {turns : ℕ}
      (passes : Passes size body s (.inside none [] (turns + 1)) added) :
      Passes size body (begin size (enterAll size ((s.count - 1) % size) s))
        (.inside none (current size (enterAll size ((s.count - 1) % size) s)) turns) added
  | finish {s : Taskgrp} {added : Added} (passes : Passes size body s (.inside none [] 0) added) :
      Passes size body (resetCount size (enterAll size ((s.count - 1) % size) s)) .outside added

/-! ## The rest of a run -/

theorem conclude_count {c : ℕ} {result : ℤ} : (conclude size c s t result).count = s.count := by
  rw [conclude]
  split
  · rfl
  · exact insertTimer_count

theorem resume_begin {turns : ℕ} (s : Taskgrp) :
    resume size body (begin size s) (.inside none (current size s) turns) =
      resetCount size ((tick size body)^[turns + 1] s) := by
  rw [Function.iterate_succ_apply]
  rfl

/-- The rest of a run leads from each of its points to where it leads from the
next one. -/
theorem Passes.reachable {moment : Moment} {added : Added}
    (passes : Passes size body s moment added) :
    Reachable size body (resume size body s moment) := by
  have extend : ∀ {s : Taskgrp} (a : Action), Reachable size body s →
      Reachable size body (react size body s a) := by
    rintro s a ⟨actions, rfl⟩
    exact ⟨actions ++ [a], by rw [List.foldl_append]; rfl⟩
  induction passes with
  | init => exact ⟨[], rfl⟩
  | act a untimed passes ih =>
      cases a with
      | addTimer start intval => exact extend (.addTimer start intval) ih
      | removeTimerReserve t => exact extend (.removeTimerReserve t) ih
      | trigger c => exact absurd rfl (untimed c)
  | @trigger s added c turns more passes ih =>
      have whole := extend (.trigger c) ih
      change Reachable size body (resetCount size ((tick size body)^[(s.raise c).triggerCount -
        (s.raise c).count] (s.raise c))) at whole
      rw [more] at whole
      rw [show current size s = current size (s.raise c) from rfl, resume_begin]
      exact whole
  | @idle s added c done passes ih =>
      have whole := extend (.trigger c) ih
      change Reachable size body (resetCount size ((tick size body)^[(s.raise c).triggerCount -
        (s.raise c).count] (s.raise c))) at whole
      rw [done] at whole
      exact whole
  | @skip s added t turns walk waits passes ih =>
      have count : (visit size body ((s.count - 1) % size) s t).count = s.count :=
        visits_count [t]
      rw [resume, count]
      exact ih
  | @call s added t turns walk kept due passes ih =>
      have visited := @visit_due size body s t _ ((s.count - 1) % size) [] kept due
        (List.nil_append (body t (s.elapsed - 1)).1).symm
      rw [resume, List.foldl_cons, returns, visited] at ih
      exact ih
  | @handler s added t turns a rest result walk passes ih =>
      have count : (s.act a).count = s.count := acts_count [a]
      rw [resume, count]
      exact ih
  | @conclude s added t turns result walk passes ih =>
      rw [resume, conclude_count]
      exact ih
  | @next s added turns passes ih =>
      rw [resume_begin]
      exact ih
  | finish passes ih => exact ih

/-! ## The start index -/

def startOf : Event → Option ℕ
  | .entered _ start => some start
  | _ => none

def firstStart (l : List Event) : Option ℕ := (l.filterMap startOf).getLast?

theorem firstStart_entered {n start : ℕ} (l : List Event) :
    firstStart (.entered n start :: l) = some ((firstStart l).getD start) := by
  rw [firstStart, List.filterMap_cons_some (f := startOf) rfl, List.getLast?_cons]
  rfl

theorem firstStart_other {e : Event} (other : startOf e = none) (l : List Event) :
    firstStart (e :: l) = firstStart l := by
  rw [firstStart, List.filterMap_cons_none other]
  rfl

/-- A task's bits are its start index, cut to 16 bits, until it enters, and what
is in a slot or in the hands of the loop has entered. -/
structure Recorded (added : Added) (s : Taskgrp) (busy : List ℕ) : Prop where
  fresh : ∀ t, s.next ≤ t → added t = none ∧ firstStart (s.own t) = none
  pending : ∀ t, t ∈ s.schedInsert → t < s.next
  started : ∀ t a k, added t = some (a, k) → (∀ m, .reserved m ∉ s.own t) →
    (firstStart (s.own t)).getD (s.word t) = (a % 2 ^ 16).toNat
  slots : ∀ j t, t ∈ s.sched j → (firstStart (s.own t)).isSome
  busy : ∀ t, t ∈ busy → (firstStart (s.own t)).isSome

namespace Recorded

variable {added : Added} {busy : List ℕ} {e : Event}

theorem firstStart_note (other : startOf e = none) :
    firstStart ((s.note t e).own u) = firstStart (s.own u) := by
  by_cases here : u = t
  · subst here
    rw [own_note, firstStart_other other]
  · rw [own_note_other here]

/-- An event after which the start of its task is what it was. -/
theorem note (recorded : Recorded added s busy) (t : ℕ) (other : startOf e = none) :
    Recorded added (s.note t e) busy := by
  refine ⟨?_, recorded.pending, ?_, ?_, ?_⟩
  · intro u more
    rw [firstStart_note other]
    exact recorded.fresh u more
  · intro u a k accepted kept
    rw [firstStart_note other]
    exact recorded.started u a k accepted fun m member => kept m (mem_own_note.mpr (.inr member))
  · intro j u member
    rw [firstStart_note other]
    exact recorded.slots j u member
  · intro u member
    rw [firstStart_note other]
    exact recorded.busy u member

/-- The bits of a task that has entered. -/
theorem setWord (recorded : Recorded added s busy) (entered : (firstStart (s.own t)).isSome)
    (w : ℕ) : Recorded added (s.setWord t w) busy := by
  refine { recorded with started := fun u a k accepted kept => ?_ }
  have before := recorded.started u a k accepted kept
  rw [own_setWord]
  by_cases here : u = t
  · subst here
    obtain ⟨start, first⟩ := Option.isSome_iff_exists.mp entered
    rw [first] at before ⊢
    exact before
  · rw [word_setWord_other here]
    exact before

theorem insertTimerAt (recorded : Recorded added s busy)
    (entered : (firstStart (s.own t)).isSome) (j : ℕ) :
    Recorded added (Taskgrp.insertTimerAt size s t j) busy := by
  have put : Recorded added { s with sched := Function.update s.sched j (t :: s.sched j) } busy := by
    refine { recorded with slots := fun i u member => ?_ }
    change u ∈ Function.update s.sched j (t :: s.sched j) i at member
    rw [Function.update_apply] at member
    split at member
    · rcases List.mem_cons.mp member with rfl | member
      · exact entered
      · exact recorded.slots j u member
    · exact recorded.slots i u member
  rw [Taskgrp.insertTimerAt]
  split
  · exact put
  · exact put.note t rfl

theorem insertTimer (recorded : Recorded added s busy) (entered : (firstStart (s.own t)).isSome)
    (index c : ℕ) :
    Recorded added ((s.insertTimer size t index c).getD (s.removeTimer t)) busy := by
  rw [Taskgrp.insertTimer]
  split
  · exact recorded.note t rfl
  · exact (recorded.setWord entered _).insertTimerAt entered _

theorem conclude (recorded : Recorded added s busy) (entered : (firstStart (s.own t)).isSome)
    (c : ℕ) (result : ℤ) : Recorded added (Taskgrp.conclude size c s t result) busy := by
  rw [Taskgrp.conclude]
  split
  · exact recorded.note t rfl
  · exact recorded.insertTimer entered _ c

/-- A visit before the task is due. -/
theorem skip (recorded : Recorded added s busy) (entered : (firstStart (s.own t)).isSome)
    (waits : s.word t % 2 = 1 ∨ 0 < s.word t / 2) (c : ℕ) :
    Recorded added (visit size body c s t) busy := by
  rw [visit]
  split
  case isTrue => exact recorded.note t rfl
  case isFalse even =>
      rw [if_pos (waits.resolve_left even)]
      exact (recorded.setWord entered _).insertTimerAt entered c

/-- A task that is added has its start index for its bits. -/
theorem act (recorded : Recorded added s busy) (a : Action) :
    Recorded (added.record s a) (s.act a) busy := by
  cases a with
  | addTimer start intval =>
      obtain ⟨absent, unstarted⟩ := recorded.fresh s.next le_rfl
      have later : ∀ t, s.next + 1 ≤ t → t ≠ s.next ∧ s.next ≤ t :=
        fun t more => ⟨(Nat.lt_of_succ_le more).ne', Nat.le_of_succ_le more⟩
      rw [Taskgrp.act, addTimer, Added.record]
      split
      case isTrue =>
          refine ⟨fun t more => recorded.fresh t (later t more).2,
            fun t member => Nat.lt_succ_of_lt (recorded.pending t member), ?_,
            recorded.slots, recorded.busy⟩
          intro t a k accepted kept
          have other : t ≠ s.next := by
            rintro rfl
            rw [absent] at accepted
            cases accepted
          have before := recorded.started t a k accepted kept
          rw [← word_setWord_other other] at before
          exact before
      case isFalse =>
          refine ⟨fun t more => ?_, fun t member => ?_, ?_, recorded.slots, recorded.busy⟩
          · rw [Function.update_of_ne (later t more).1]
            exact recorded.fresh t (later t more).2
          · rcases List.mem_cons.mp member with rfl | member
            · exact Nat.lt_succ_self _
            · exact Nat.lt_succ_of_lt (recorded.pending t member)
          · intro t a k accepted kept
            by_cases here : t = s.next
            · subst here
              rw [Function.update_self] at accepted
              obtain ⟨rfl, rfl⟩ := Prod.mk.inj (Option.some.inj accepted)
              change (firstStart (s.own s.next)).getD (Function.update s.word s.next _ s.next) = _
              rw [unstarted, Function.update_self]
              rfl
            · rw [Function.update_of_ne here] at accepted
              have before := recorded.started t a k accepted kept
              rw [← word_setWord_other here] at before
              exact before
  | removeTimerReserve t =>
      have noted := recorded.note (e := .reserved s.elapsed) t rfl
      refine { noted with started := fun u a k accepted kept => ?_ }
      by_cases here : u = t
      · subst here
        exact absurd (mem_own_note.mpr (.inl ⟨rfl, rfl⟩)) (kept s.elapsed)
      · have before := noted.started u a k accepted kept
        change (firstStart _).getD (Function.update s.word t _ u) = _
        rw [Function.update_of_ne here]
        exact before
  | trigger c =>
      exact ⟨recorded.fresh, recorded.pending, recorded.started, recorded.slots, recorded.busy⟩

/-- A task enters with the bits that it was added with. -/
theorem enter (size : ℕ) (recorded : Recorded added s busy) (born : t < s.next) (c : ℕ) :
    Recorded added (Taskgrp.enter size c s t) busy ∧
      (Taskgrp.enter size c s t).next = s.next := by
  have own : ∀ u, u ≠ t → ((s.setWord t (2 * (s.word t / 2))).note t
      (.entered (s.elapsed - 1) (s.word t))).own u = s.own u := fun u other => own_note_other other
  have first : firstStart (((s.setWord t (2 * (s.word t / 2))).note t
      (.entered (s.elapsed - 1) (s.word t))).own t) =
        some ((firstStart (s.own t)).getD (s.word t)) := by
    rw [own_note, firstStart_entered]
    rfl
  have entered : Recorded added ((s.setWord t (2 * (s.word t / 2))).note t
      (.entered (s.elapsed - 1) (s.word t))) busy := by
    refine ⟨?_, recorded.pending, ?_, ?_, ?_⟩
    · intro u more
      have other : u ≠ t := (born.trans_le more).ne'
      rw [own u other]
      exact recorded.fresh u more
    · intro u a k accepted kept
      have before := recorded.started u a k accepted fun m member =>
        kept m (mem_own_note.mpr (.inr member))
      by_cases here : u = t
      · subst here
        rw [first]
        exact before
      · rw [own u here]
        change (firstStart _).getD ((s.setWord t _).word u) = _
        rw [word_setWord_other here]
        exact before
    · intro j u member
      by_cases here : u = t
      · subst here
        rw [first]
        rfl
      · rw [own u here]
        exact recorded.slots j u member
    · intro u member
      by_cases here : u = t
      · subst here
        rw [first]
        rfl
      · rw [own u here]
        exact recorded.busy u member
  rw [Taskgrp.enter]
  refine ⟨entered.insertTimer (by rw [first]; rfl) _ c, ?_⟩
  rw [Taskgrp.insertTimer]
  split
  · rfl
  · rw [Taskgrp.insertTimerAt]
    split <;> rfl

theorem enterAll (recorded : Recorded added s busy) (c : ℕ) :
    Recorded added (Taskgrp.enterAll size c s) busy := by
  have enters : ∀ (l : List ℕ) (s : Taskgrp), Recorded added s busy → (∀ t, t ∈ l → t < s.next) →
      Recorded added (l.foldl (Taskgrp.enter size c) s) busy := by
    intro l
    induction l with
    | nil => exact fun s recorded _ => recorded
    | cons t l ih =>
        intro s recorded born
        obtain ⟨entered, next⟩ := recorded.enter size (born t List.mem_cons_self) c
        refine ih _ entered fun u member => ?_
        rw [next]
        exact born u (List.mem_cons_of_mem t member)
  exact enters _ _ { recorded with pending := fun t member => nomatch member } recorded.pending

/-- A turn of the loop begins with the tasks of its slot. -/
theorem begin (recorded : Recorded added s []) :
    Recorded added (Taskgrp.begin size s) (current size s) := by
  refine ⟨recorded.fresh, recorded.pending, recorded.started, ?_, recorded.slots _⟩
  intro j t member
  change t ∈ Function.update s.sched _ [] j at member
  rw [Function.update_apply] at member
  split at member
  · cases member
  · exact recorded.slots j t member

theorem resetCount (recorded : Recorded added s busy) :
    Recorded added (Taskgrp.resetCount size s) busy := by
  rw [Taskgrp.resetCount]
  split
  · exact ⟨recorded.fresh, recorded.pending, recorded.started, recorded.slots, recorded.busy⟩
  · exact recorded

/-- Fewer tasks are in the hands of the loop. -/
theorem fewer (recorded : Recorded added s busy) {busy' : List ℕ}
    (sub : ∀ t, t ∈ busy' → t ∈ busy) : Recorded added s busy' :=
  { recorded with busy := fun t member => recorded.busy t (sub t member) }

end Recorded

def Moment.busy : Moment → List ℕ
  | .outside => []
  | .inside none walk _ => walk
  | .inside (some (t, _)) walk _ => t :: walk

theorem Passes.recorded {moment : Moment} {added : Added}
    (passes : Passes size body s moment added) : Recorded added s moment.busy := by
  induction passes with
  | init =>
      constructor
      · exact fun t _ => ⟨rfl, rfl⟩
      · exact fun t member => nomatch member
      · exact fun t a k accepted => nomatch accepted
      · exact fun j t member => nomatch member
      · exact fun t member => nomatch member
  | act a untimed passes ih => exact ih.act a
  | trigger c more passes ih => exact (ih.act (.trigger c)).begin
  | idle c done passes ih => exact (ih.act (.trigger c)).resetCount
  | skip waits passes ih =>
      have entered := ih.busy _ List.mem_cons_self
      exact (ih.fewer fun _ => List.mem_cons_of_mem _).skip entered waits _
  | call kept due passes ih => exact ih.note _ rfl
  | handler passes ih => exact ih.act _
  | conclude passes ih =>
      have entered := ih.busy _ List.mem_cons_self
      exact (ih.fewer fun _ => List.mem_cons_of_mem _).conclude entered _ _
  | next passes ih => exact (ih.enterAll _).begin
  | finish passes ih => exact (ih.enterAll _).resetCount

/-! ## Both ways to run -/

/-- The handler does its actions and returns. -/
theorem Passes.returns {turns : ℕ} {l : List Action} {result : ℤ} {walk : List ℕ} {added : Added}
    (passes : Passes size body s (.inside (some (t, l, result)) walk turns) added) :
    ∃ added', Passes size body (returns size ((s.count - 1) % size) s (some (t, l, result)))
      (.inside none walk turns) added' := by
  induction l generalizing s added with
  | nil => exact ⟨added, passes.conclude⟩
  | cons a l ih =>
      obtain ⟨added', returned⟩ := ih passes.handler
      rw [show (s.act a).count = s.count from acts_count [a]] at returned
      exact ⟨added', returned⟩

/-- The loop visits the tasks of a slot. -/
theorem Passes.visits {turns : ℕ} {walk : List ℕ} {added : Added}
    (passes : Passes size body s (.inside none walk turns) added) :
    ∃ added', Passes size body (walk.foldl (visit size body ((s.count - 1) % size)) s)
      (.inside none [] turns) added' := by
  induction walk generalizing s added with
  | nil => exact ⟨added, passes⟩
  | cons t walk ih =>
      have count : (visit size body ((s.count - 1) % size) s t).count = s.count :=
        visits_count [t]
      have visited : ∃ added', Passes size body (visit size body ((s.count - 1) % size) s t)
          (.inside none walk turns) added' := by
        by_cases waits : s.word t % 2 = 1 ∨ 0 < s.word t / 2
        · exact ⟨added, passes.skip waits⟩
        · obtain ⟨kept, due⟩ := not_or.mp waits
          obtain ⟨added', returned⟩ := (passes.call kept due).returns
          rw [visit_due [] kept due (List.nil_append _).symm]
          exact ⟨added', returned⟩
      obtain ⟨added', passes'⟩ := visited
      obtain ⟨added'', passes''⟩ := ih passes'
      rw [count] at passes''
      exact ⟨added'', passes''⟩

/-- The loop does its turns. -/
theorem Passes.turns {turns : ℕ} {walk : List ℕ} {added : Added}
    (passes : Passes size body s (.inside none walk turns) added) :
    ∃ added', Passes size body (resume size body s (.inside none walk turns)) .outside added' := by
  induction turns generalizing s walk added with
  | zero =>
      obtain ⟨added', visited⟩ := passes.visits
      have finished := visited.finish
      rw [visits_count _] at finished
      exact ⟨added', finished⟩
  | succ turns ih =>
      obtain ⟨added', visited⟩ := passes.visits
      obtain ⟨added'', passes''⟩ := ih visited.next
      rw [resume_begin, visits_count _] at passes''
      exact ⟨added'', passes''⟩

/-- The small steps lead to the states that are reached. -/
theorem reachable_iff : Reachable size body s ↔ ∃ added, Passes size body s .outside added := by
  constructor
  · rintro ⟨actions, rfl⟩
    induction actions using List.reverseRecOn with
    | nil => exact ⟨_, .init⟩
    | append_singleton actions a ih =>
        obtain ⟨added, passes⟩ := ih
        rw [List.foldl_append]
        generalize actions.foldl (react size body) init = s at passes ⊢
        cases a with
        | addTimer start intval => exact ⟨_, passes.act (.addTimer start intval) nofun⟩
        | removeTimerReserve t => exact ⟨_, passes.act (.removeTimerReserve t) nofun⟩
        | trigger c =>
            change ∃ added, Passes size body (resetCount size ((tick size body)^[
              (s.raise c).triggerCount - (s.raise c).count] (s.raise c))) .outside added
            cases count : (s.raise c).triggerCount - (s.raise c).count with
            | zero => exact ⟨added, passes.idle c count⟩
            | succ turns =>
                obtain ⟨added', passes'⟩ := (passes.trigger c count).turns
                rw [show current size s = current size (s.raise c) from rfl, resume_begin] at passes'
                exact ⟨added', passes'⟩
  · rintro ⟨added, passes⟩
    exact passes.reachable

/-! ## The first call -/

/-- A task that was accepted with a start index has entered with its lowest 16
bits, unless its removal was asked for. -/
theorem Passes.start {added : Added} (passes : Passes size body s .outside added) {a k : ℤ}
    (accepted : added t = some (a, k)) (kept : ∀ m, .reserved m ∉ s.own t) {n start : ℕ}
    {later earlier : List Event} (history : s.own t = later ++ .entered n start :: earlier)
    (unentered : earlier.filterMap startOf = []) : start = (a % 2 ^ 16).toNat := by
  have started := passes.recorded.started t a k accepted kept
  rw [history, firstStart, List.filterMap_append, List.filterMap_cons_some (f := startOf) rfl,
    unentered, List.getLast?_concat] at started
  exact started

/-- A task that waits and has not strayed is not late. -/
theorem Holds.in_time {pend : List ℕ} {place : ℕ → Place} {due : ℕ} {asked : List ℕ}
    (holds : Holds size body s [] pend place) (free : Free place) (strays : Strays size s)
    (inside : ¬ s.Strayed size t)
    (agrees : Agrees size s.elapsed (s.idx t) (s.word t) (s.own t) (place t)
      (.waiting due asked)) : s.elapsed ≤ due := by
  generalize here : place t = p at agrees
  cases agrees with
  | slot j _ _ some bit within outside =>
      by_cases less : j < size
      · exact (within less).later
      · exact absurd ((strays.overrun t).mp (outside less)) inside
  | walk _ _ _ _ _ _ => exact nomatch (holds.walks t).mpr here
  | hand index _ e _ _ _ _ _ _ _ => exact absurd here (free t index e)

/-- A task that was added with a start index, whose removal nobody asks for, is
called first after as many ticks, one at least, exactly if the lowest 16 bits
of the index say the same, the delay fits into 15 bits, and it does not stray. -/
theorem first_call_iff (positive : 0 < size) {added : Added}
    (passes : Passes size body s .outside added) {a k : ℤ} (accepted : added t = some (a, k))
    (kept : ∀ m, .reserved m ∉ s.own t) {n start : ℕ} (entered : .entered n start ∈ s.own t)
    (late : n + max 1 a.toNat < s.elapsed) :
    (.called (n + max 1 a.toNat) ∈ s.own t ∧
        ∀ x, .called x ∈ s.own t → n + max 1 a.toNat ≤ x) ↔
      max 1 (a % 2 ^ 16) = max 1 a ∧ (max 1 a.toNat - 1) / size ≤ maxDelay ∧
        (a % 2 ^ 16 = 0 → n % size + 1 ≠ size) := by
  obtain ⟨place, holds, free⟩ := passes.reachable.holds positive
  have strays := passes.reachable.strays positive
  change Holds size body s [] s.schedInsert place at holds
  change Strays size s at strays
  obtain ⟨stage, life, agrees⟩ := holds.each t
  obtain ⟨later, earlier, history⟩ := List.append_of_mem entered
  rw [history] at life
  have quiet : ∀ e, e ∈ earlier → ∃ m, e = .reserved m := fun e =>
    life.before_entered.reserved_of_fresh
  have unentered : earlier.filterMap startOf = [] := by
    rw [List.filterMap_eq_nil_iff]
    intro e member
    obtain ⟨m, rfl⟩ := quiet e member
    rfl
  have first : start = (a % 2 ^ 16).toNat := passes.start accepted kept history unentered
  have once : ∀ m start', .entered m start' ∈ s.own t → m = n ∧ start' = start := by
    intro m start' member
    rw [history, List.mem_append, List.mem_cons] at member
    rcases member with later | same | earlier
    · exact absurd later life.entered_once
    · exact Event.entered.inj same
    · obtain ⟨x, other⟩ := quiet _ earlier
      exact nomatch other
  have calls : ∀ x, .called x ∈ s.own t ↔ .called x ∈ later := by
    intro x
    rw [history, List.mem_append, List.mem_cons]
    refine or_iff_left ?_
    rintro (same | earlier)
    · exact nomatch same
    · obtain ⟨y, other⟩ := quiet _ earlier
      exact nomatch other
  have kept' : ∀ m, .reserved m ∉ later := fun m member =>
    kept m (history ▸ List.mem_append_left _ member)
  have delay : delayOf size start (n % size) = (max 1 start - 1) / size := by
    rw [due_delay positive, Nat.add_sub_add_left]
  have cut : max 1 (a % 2 ^ 16) = max 1 a ↔ max 1 start = max 1 a.toNat := by omega
  have zero : a % 2 ^ 16 = 0 ↔ start = 0 := by omega
  have strayed : s.Strayed size t → start = 0 ∧ n % size + 1 = size := by
    rintro ⟨m, member, last⟩
    obtain ⟨rfl, rfl⟩ := once m 0 member
    exact ⟨rfl, last⟩
  rw [cut, zero, calls]
  simp only [calls]
  rcases life.first_call id kept' with ⟨waits, only⟩ | ⟨-, quits, never⟩ | ⟨called, least, -⟩
  · have never : .called (n + max 1 a.toNat) ∉ later := fun member => nomatch only _ member
    refine iff_of_false (fun both => never both.1) ?_
    rintro ⟨same, -, inside⟩
    subst waits
    have present := holds.in_time free strays
      (fun stray => inside (strayed stray).1 (strayed stray).2) agrees
    rw [same] at present
    exact Nat.not_lt_of_le present late
  · refine iff_of_false (fun both => never _ both.1) ?_
    rintro ⟨same, short, -⟩
    rw [← same, ← delay] at short
    exact Nat.not_lt_of_le short quits
  · constructor
    · rintro ⟨member, least'⟩
      have same : max 1 start = max 1 a.toNat :=
        Nat.add_left_cancel ((least _ member).antisymm (least' _ called))
      refine ⟨same, ?_, fun none last => ?_⟩
      · by_contra long
        rw [← same, ← delay] at long
        exact strays.silent t (.inr ⟨n, start, entered, Nat.lt_of_not_le long⟩) _
          ((calls _).mpr called)
      · exact strays.silent t (.inl ⟨n, none ▸ entered, last⟩) _ ((calls _).mpr called)
    · rintro ⟨same, -, -⟩
      rw [← same]
      exact ⟨called, least⟩

/-- A task that is due after two ticks, and one that is due after one tick and then waits for
two. -/
theorem first_call_two : ∃ (body : Body) (s : Taskgrp) (added : Added),
    Passes 3 body s .outside added ∧ (added 0 = some (2, 1) ∧
      .called (0 + max 1 2) ∈ s.own 0 ∧ ∀ x, .called x ∈ s.own 0 → 0 + max 1 2 ≤ x) ∧
      added 1 = some (1, 2) ∧
        .called (0 + max 1 1) ∈ s.own 1 ∧ ∀ x, .called x ∈ s.own 1 → 0 + max 1 1 ≤ x := by
  let body : Body := fun _ _ => ([], 0)
  have start : Passes 3 body init .outside fun _ => none := .init
  have both := (start.act (.addTimer 2 1) nofun).act (.addTimer 1 2) nofun
  have entered := @Passes.trigger 3 body _ _ 3 2 rfl both
  have first := @Passes.call 3 body _ _ 1 1 [] (by decide) (by decide) entered.next
  have second := @Passes.call 3 body _ _ 0 0 [] (by decide) (by decide) first.conclude.next
  have done := second.conclude.finish
  have kept : ∀ m, Event.reserved m ∉ [Event.called 2, .entered 0 2] := by simp
  have kept' : ∀ m, Event.reserved m ∉ [Event.called 1, .entered 0 1] := by simp
  refine ⟨body, _, _, done, ⟨rfl, ?_⟩, rfl, ?_⟩
  · exact (@first_call_iff 3 body _ 0 (by decide) _ done 2 1 rfl kept 0 2
      (by decide) (by decide)).mpr (by decide)
  · exact (@first_call_iff 3 body _ 1 (by decide) _ done 1 2 rfl kept' 0 1
      (by decide) (by decide)).mpr (by decide)

/-- A start index of more than 16 bits; the first call comes much too early. -/
theorem called_too_early : ∃ (body : Body) (s : Taskgrp) (added : Added),
    Passes 3 body s .outside added ∧ added 0 = some (2 ^ 16 + 1, 1) ∧
      s.own 0 = [.called 1, .entered 0 1] ∧
        ¬ ∀ x, .called x ∈ s.own 0 → 0 + max 1 (2 ^ 16 + 1) ≤ x := by
  let body : Body := fun _ _ => ([], 0)
  have start : Passes 3 body init .outside fun _ => none := .init
  have entered := @Passes.trigger 3 body _ _ 2 1 rfl (start.act (.addTimer (2 ^ 16 + 1) 1) nofun)
  have called := @Passes.call 3 body _ _ 0 0 [] (by decide) (by decide) entered.next
  have due : ¬ 0 + max 1 (2 ^ 16 + 1) ≤ 1 := by decide
  refine ⟨body, _, _, called.conclude.finish, rfl, by decide, fun all => due (all 1 ?_)⟩
  decide

end Taskgrp

end Cyue.Timer
