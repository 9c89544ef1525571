import Cyue.Fiber.Atomic
import Mathlib.Data.List.Nodup

/-!
# Whatever is to resume a fiber finds it waiting

An entry of the map, what a thread has taken from it, or a resumption in a queue, is
for a live fiber whose coroutine is suspended under that msgid; no fiber has two of
them.
-/

namespace Cyue.Fibers

/-- The fiber at the address is live and suspended under the msgid. -/
structure Waits (fibers : ℕ → Fiber) (f msgid : ℕ) : Prop where
  live : (fibers f).live = true
  co : (fibers f).co = .suspended msgid

/-- Nobody has taken an entry of the fiber, and no resumption of it is in a queue. -/
structure Unasked (hand : ℕ → Option (ℕ × Stimulus)) (fque : ℕ → List (ℕ × Stimulus)) (f : ℕ) :
    Prop where
  held : ∀ t stimulus, hand t ≠ some (f, stimulus)
  task : ∀ t stimulus, (f, stimulus) ∉ fque t

structure Unclaimed (slot : ℕ → Option ℕ) (elems : ℕ → Yielded) (hand : ℕ → Option (ℕ × Stimulus))
    (fque : ℕ → List (ℕ × Stimulus)) (f : ℕ) : Prop extends Unasked hand fque f where
  entry : ∀ key e, slot key = some e → (elems e).f ≠ f

structure Sound (fibers : ℕ → Fiber) (slot : ℕ → Option ℕ) (elems : ℕ → Yielded) (used : ℕ → Bool)
    (hand : ℕ → Option (ℕ × Stimulus)) (fque : ℕ → List (ℕ × Stimulus)) : Prop where
  used : ∀ key e, slot key = some e → used e = true
  msgid : ∀ key e, slot key = some e → (elems e).msgid = key
  entry : ∀ key e, slot key = some e → Waits fibers (elems e).f key
  task : ∀ t f stimulus, (f, stimulus) ∈ fque t →
    Waits fibers f stimulus.msgid ∧ (fibers f).owner = t
  once : ∀ t, ((fque t).map Prod.fst).Nodup
  apart : ∀ t f stimulus key e, (f, stimulus) ∈ fque t → slot key = some e → (elems e).f ≠ f
  held : ∀ t f stimulus, hand t = some (f, stimulus) → Waits fibers f stimulus.msgid
  hands : ∀ t t' f stimulus stimulus', hand t = some (f, stimulus) →
    hand t' = some (f, stimulus') → t = t'
  gone : ∀ t f stimulus, hand t = some (f, stimulus) →
    (∀ key e, slot key = some e → (elems e).f ≠ f) ∧ ∀ t' stimulus', (f, stimulus') ∉ fque t'
  running : ∀ f, (fibers f).co = .running → (fibers f).live = true

variable {fibers : ℕ → Fiber} {slot : ℕ → Option ℕ} {elems : ℕ → Yielded} {used : ℕ → Bool}
  {hand : ℕ → Option (ℕ × Stimulus)} {fque : ℕ → List (ℕ × Stimulus)} {t f key e : ℕ}

/-- What is in a queue behind which a resumption was put. -/
theorem mem_push {t' : ℕ} {task new : ℕ × Stimulus}
    (member : task ∈ Function.update fque t (fque t ++ [new]) t') :
    task ∈ fque t' ∨ t' = t ∧ task = new := by
  by_cases same : t' = t
  · subst same
    rw [Function.update_self, List.mem_append, List.mem_singleton] at member
    exact member.imp_right fun last => ⟨rfl, last⟩
  · rw [Function.update_of_ne same] at member
    exact .inl member

/-- What is in a queue whose first resumption was taken. -/
theorem mem_pop {t' : ℕ} {task first : ℕ × Stimulus} {rest : List (ℕ × Stimulus)}
    (queue : fque t = first :: rest) (member : task ∈ Function.update fque t rest t') :
    task ∈ fque t' := by
  by_cases same : t' = t
  · subst same
    rw [Function.update_self] at member
    rw [queue]
    exact List.mem_cons_of_mem _ member
  · rw [Function.update_of_ne same] at member
    exact member

/-- What a thread holds when another one has taken or given up something. -/
theorem held_other {t' : ℕ} {w : Option (ℕ × Stimulus)} {stimulus : Stimulus}
    (held : Function.update hand t w t' = some (f, stimulus)) :
    t' = t ∧ w = some (f, stimulus) ∨ t' ≠ t ∧ hand t' = some (f, stimulus) := by
  by_cases same : t' = t
  · rw [same, Function.update_self] at held
    exact .inl ⟨same, held⟩
  · rw [Function.update_of_ne same] at held
    exact .inr ⟨same, held⟩

theorem Waits.msgid_eq {msgid other : ℕ} (waits : Waits fibers f msgid)
    (too : Waits fibers f other) : msgid = other :=
  Co.suspended.inj (waits.co.symm.trans too.co)

theorem Waits.update {msgid f' : ℕ} {fiber : Fiber} (waits : Waits fibers f' msgid)
    (other : f' ≠ f) : Waits (Function.update fibers f fiber) f' msgid := by
  constructor
  · rw [Function.update_of_ne other]
    exact waits.live
  · rw [Function.update_of_ne other]
    exact waits.co

namespace Sound

/-- A fiber that does not wait is unclaimed. -/
theorem unclaimed (sound : Sound fibers slot elems used hand fque)
    (awake : ∀ msgid, ¬ Waits fibers f msgid) : Unclaimed slot elems hand fque f where
  entry key e held same := awake key (same ▸ sound.entry key e held)
  held t stimulus held := awake _ (sound.held t f stimulus held)
  task t stimulus member := awake _ (sound.task t f stimulus member).1

theorem key_unique (sound : Sound fibers slot elems used hand fque) {key' : ℕ}
    (held : slot key = some e) (too : slot key' = some e) : key = key' :=
  (sound.msgid key e held).symm.trans (sound.msgid key' e too)

/-- Whatever becomes of an unclaimed fiber, the others wait as before. -/
theorem update (sound : Sound fibers slot elems used hand fque)
    (unclaimed : Unclaimed slot elems hand fque f) (fiber : Fiber)
    (running : fiber.co = .running → fiber.live = true) :
    Sound (Function.update fibers f fiber) slot elems used hand fque where
  used := sound.used
  msgid := sound.msgid
  entry key e held := (sound.entry key e held).update (unclaimed.entry key e held)
  task t f' stimulus member := by
    have other : f' ≠ f := by
      rintro rfl
      exact unclaimed.task t stimulus member
    obtain ⟨waits, owner⟩ := sound.task t f' stimulus member
    refine ⟨waits.update other, ?_⟩
    rw [Function.update_of_ne other]
    exact owner
  once := sound.once
  apart := sound.apart
  held t f' stimulus held := by
    refine (sound.held t f' stimulus held).update ?_
    rintro rfl
    exact unclaimed.held t stimulus held
  hands := sound.hands
  gone := sound.gone
  running f' := by
    by_cases same : f' = f
    · subst same
      rw [Function.update_self]
      exact running
    · rw [Function.update_of_ne same]
      exact sound.running f'

/-- An entry is taken out by a thread that holds nothing. -/
theorem take (sound : Sound fibers slot elems used hand fque) {stimulus : Stimulus}
    (empty : hand t = none) (held : slot stimulus.msgid = some e) :
    Sound fibers (Function.update slot stimulus.msgid none) elems (Function.update used e false)
      (Function.update hand t (some ((elems e).f, stimulus))) fque := by
  have waits := sound.entry stimulus.msgid e held
  have others : ∀ key' e', Function.update slot stimulus.msgid none key' = some e' →
      key' ≠ stimulus.msgid ∧ slot key' = some e' := by
    intro key' e' there
    by_cases same : key' = stimulus.msgid
    · rw [same, Function.update_self] at there
      cases there
    · rw [Function.update_of_ne same] at there
      exact ⟨same, there⟩
  have left : ∀ key' e', Function.update slot stimulus.msgid none key' = some e' →
      (elems e').f ≠ (elems e).f := by
    intro key' e' there same
    obtain ⟨other, there⟩ := others key' e' there
    have waits' := sound.entry key' e' there
    rw [same] at waits'
    exact other (waits'.msgid_eq waits)
  refine ⟨?_, ?_, ?_, sound.task, sound.once, ?_, ?_, ?_, ?_, sound.running⟩
  · intro key' e' there
    obtain ⟨other, there⟩ := others key' e' there
    have apart : e' ≠ e := by
      rintro rfl
      exact other (sound.key_unique there held)
    rw [Function.update_of_ne apart]
    exact sound.used key' e' there
  · intro key' e' there
    exact sound.msgid key' e' (others key' e' there).2
  · intro key' e' there
    exact sound.entry key' e' (others key' e' there).2
  · intro t f stimulus key' e' member there
    exact sound.apart t f stimulus key' e' member (others key' e' there).2
  · intro t' f' stimulus' there
    rcases held_other there with ⟨-, same⟩ | ⟨-, there⟩
    · cases same
      exact waits
    · exact sound.held t' f' stimulus' there
  · intro t₁ t₂ f' stimulus₁ stimulus₂ first second
    rcases held_other first with ⟨rfl, same⟩ | ⟨-, first⟩
    · rcases held_other second with ⟨rfl, -⟩ | ⟨-, second⟩
      · rfl
      · cases same
        exact absurd rfl ((sound.gone t₂ _ stimulus₂ second).1 _ e held)
    · rcases held_other second with ⟨-, same⟩ | ⟨-, second⟩
      · cases same
        exact absurd rfl ((sound.gone t₁ _ stimulus₁ first).1 _ e held)
      · exact sound.hands t₁ t₂ f' stimulus₁ stimulus₂ first second
  · intro t' f' stimulus' there
    rcases held_other there with ⟨-, same⟩ | ⟨-, there⟩
    · cases same
      refine ⟨left, fun t' stimulus' member => ?_⟩
      exact sound.apart t' _ stimulus' _ e member held rfl
    · obtain ⟨entry, task⟩ := sound.gone t' f' stimulus' there
      exact ⟨fun key' e' there => entry key' e' (others key' e' there).2, task⟩

/-- What a thread holds is handed on, and its fiber is unclaimed then. -/
theorem release (sound : Sound fibers slot elems used hand fque) {stimulus : Stimulus}
    (held : hand t = some (f, stimulus)) :
    Sound fibers slot elems used (Function.update hand t none) fque ∧
      Unclaimed slot elems (Function.update hand t none) fque f := by
  have others : ∀ t' f' stimulus', Function.update hand t none t' = some (f', stimulus') →
      t' ≠ t ∧ hand t' = some (f', stimulus') := by
    intro t' f' stimulus' there
    rcases held_other there with ⟨-, same⟩ | there
    · cases same
    · exact there
  obtain ⟨entry, task⟩ := sound.gone t f stimulus held
  refine ⟨{ sound with held := ?_, hands := ?_, gone := ?_ }, ⟨?_, task⟩, entry⟩
  · intro t' f' stimulus' there
    exact sound.held t' f' stimulus' (others t' f' stimulus' there).2
  · intro t₁ t₂ f' stimulus₁ stimulus₂ first second
    exact sound.hands t₁ t₂ f' stimulus₁ stimulus₂ (others _ _ _ first).2 (others _ _ _ second).2
  · intro t' f' stimulus' there
    exact sound.gone t' f' stimulus' (others t' f' stimulus' there).2
  · intro t' stimulus' there
    obtain ⟨other, there⟩ := others t' f stimulus' there
    exact other (sound.hands t' t f stimulus' stimulus there held)

/-- A resumption goes into the queue of the fiber's owner. -/
theorem push (sound : Sound fibers slot elems used hand fque)
    (unclaimed : Unclaimed slot elems hand fque f) {stimulus : Stimulus}
    (waits : Waits fibers f stimulus.msgid) (owner : (fibers f).owner = t) :
    Sound fibers slot elems used hand (Function.update fque t (fque t ++ [(f, stimulus)])) := by
  refine ⟨sound.used, sound.msgid, sound.entry, ?_, ?_, ?_, sound.held, sound.hands, ?_,
    sound.running⟩
  · intro t' f' stimulus' member
    rcases mem_push member with earlier | ⟨rfl, same⟩
    · exact sound.task t' f' stimulus' earlier
    · cases same
      exact ⟨waits, owner⟩
  · intro t'
    by_cases same : t' = t
    · subst same
      rw [Function.update_self, List.map_append]
      refine List.Nodup.append (sound.once t') (List.nodup_singleton _) ?_
      intro f' earlier last
      obtain rfl : f' = f := List.mem_singleton.mp last
      obtain ⟨⟨_, stimulus'⟩, member, rfl⟩ := List.mem_map.mp earlier
      exact unclaimed.task t' stimulus' member
    · rw [Function.update_of_ne same]
      exact sound.once t'
  · intro t' f' stimulus' key e member held
    rcases mem_push member with earlier | ⟨rfl, same⟩
    · exact sound.apart t' f' stimulus' key e earlier held
    · cases same
      exact unclaimed.entry key e held
  · intro t' f' stimulus' held
    obtain ⟨entry, task⟩ := sound.gone t' f' stimulus' held
    refine ⟨entry, fun t'' stimulus'' member => ?_⟩
    rcases mem_push member with earlier | ⟨rfl, same⟩
    · exact task t'' stimulus'' earlier
    · cases same
      exact unclaimed.held t' stimulus' held

/-- The first resumption of a queue is taken, and its fiber is unclaimed. -/
theorem pop (sound : Sound fibers slot elems used hand fque) {stimulus : Stimulus}
    {rest : List (ℕ × Stimulus)} (queue : fque t = (f, stimulus) :: rest) :
    Sound fibers slot elems used hand (Function.update fque t rest) ∧
      Unclaimed slot elems hand (Function.update fque t rest) f := by
  have here : (f, stimulus) ∈ fque t := by
    rw [queue]
    exact List.mem_cons_self
  have distinct := sound.once t
  rw [queue, List.map_cons, List.nodup_cons] at distinct
  refine ⟨⟨sound.used, sound.msgid, sound.entry, ?_, ?_, ?_, sound.held, sound.hands, ?_,
    sound.running⟩, ⟨?_, ?_⟩, ?_⟩
  · intro t' f' stimulus' member
    exact sound.task t' f' stimulus' (mem_pop queue member)
  · intro t'
    by_cases same : t' = t
    · subst same
      rw [Function.update_self]
      exact distinct.2
    · rw [Function.update_of_ne same]
      exact sound.once t'
  · intro t' f' stimulus' key e member held
    exact sound.apart t' f' stimulus' key e (mem_pop queue member) held
  · intro t' f' stimulus' held
    obtain ⟨entry, task⟩ := sound.gone t' f' stimulus' held
    exact ⟨entry, fun t'' stimulus'' member => task t'' stimulus'' (mem_pop queue member)⟩
  · intro t' stimulus' held
    exact (sound.gone t' f stimulus' held).2 t stimulus here
  · intro t' stimulus' member
    by_cases same : t' = t
    · subst same
      rw [Function.update_self] at member
      exact distinct.1 (List.mem_map.mpr ⟨_, member, rfl⟩)
    · rw [Function.update_of_ne same] at member
      have owner := (sound.task t' f stimulus' member).2
      exact same (owner.symm.trans (sound.task t f stimulus here).2)
  · intro key e held
    exact sound.apart t f stimulus key e here held

/-- A running fiber registers a yield and is suspended under its key. -/
theorem register (sound : Sound fibers slot elems used hand fque)
    (run : (fibers f).co = .running) (limit : ℕ)
    (gives : slot key = some e ∨ slot key = none ∧ used e = false) :
    Sound (Function.update fibers f { fibers f with co := .suspended key })
      (Function.update slot key (some e))
      (Function.update elems e ⟨f, limit, key⟩) (Function.update used e true) hand fque := by
  have live := sound.running f run
  have unclaimed : Unclaimed slot elems hand fque f := by
    apply sound.unclaimed
    intro msgid waits
    have co := run.symm.trans waits.co
    cases co
  have moved := sound.update unclaimed { fibers f with co := .suspended key } nofun
  -- the entries of other keys are in other elements
  have others : ∀ key' e', Function.update slot key (some e) key' = some e' →
      key' = key ∧ e' = e ∨ slot key' = some e' ∧ e' ≠ e := by
    intro key' e' there
    by_cases same : key' = key
    · rw [same, Function.update_self] at there
      exact .inl ⟨same, (Option.some.inj there).symm⟩
    · rw [Function.update_of_ne same] at there
      refine .inr ⟨there, ?_⟩
      rintro rfl
      rcases gives with held | ⟨-, unused⟩
      · exact same (sound.key_unique there held)
      · have inUse := sound.used key' e' there
        rw [unused] at inUse
        cases inUse
  refine ⟨?_, ?_, ?_, moved.task, moved.once, ?_, moved.held, moved.hands, ?_, moved.running⟩
  · intro key' e' there
    rcases others key' e' there with ⟨rfl, rfl⟩ | ⟨held, other⟩
    · exact Function.update_self ..
    · rw [Function.update_of_ne other]
      exact sound.used key' e' held
  · intro key' e' there
    rcases others key' e' there with ⟨rfl, rfl⟩ | ⟨held, other⟩
    · rw [Function.update_self]
    · rw [Function.update_of_ne other]
      exact sound.msgid key' e' held
  · intro key' e' there
    rcases others key' e' there with ⟨rfl, rfl⟩ | ⟨held, other⟩
    · rw [Function.update_self]
      constructor
      · rw [Function.update_self]
        exact live
      · rw [Function.update_self]
    · rw [Function.update_of_ne other]
      exact moved.entry key' e' held
  · intro t f' stimulus key' e' member there
    rcases others key' e' there with ⟨rfl, rfl⟩ | ⟨held, other⟩
    · rw [Function.update_self]
      rintro rfl
      exact unclaimed.task t stimulus member
    · rw [Function.update_of_ne other]
      exact sound.apart t f' stimulus key' e' member held
  · intro t f' stimulus there
    obtain ⟨entry, task⟩ := sound.gone t f' stimulus there
    refine ⟨fun key' e' inMap => ?_, task⟩
    rcases others key' e' inMap with ⟨rfl, rfl⟩ | ⟨held, other⟩
    · rw [Function.update_self]
      rintro rfl
      exact unclaimed.held t stimulus there
    · rw [Function.update_of_ne other]
      exact entry key' e' held

end Sound

end Cyue.Fibers
