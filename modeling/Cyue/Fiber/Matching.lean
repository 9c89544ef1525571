import Cyue.Fiber.Turn

/-!
# Yields and what resumes them

As long as the msgids of yields are fresh, a coroutine is only resumed from the
yield with the msgid of the response, event, call or timeout, and from each
yield once.
-/

namespace Cyue.Fibers

/-- The fiber `n` has registered a yield that the stimulus is for, and for a
timeout its limit has passed. -/
def Backed (yields : List (ℕ × Yielded)) (n : ℕ) (stimulus : Stimulus) : Prop :=
  ∃ y, (n, y) ∈ yields ∧ y.msgid = stimulus.msgid ∧
    ∀ msgid now, stimulus = .timeout msgid now → y.limit < now

/-- A coroutine was suspended in the yield that the stimulus is for. -/
structure Due (yields : List (ℕ × Yielded)) (r : Resumption) : Prop where
  backed : Backed yields r.serial r.stimulus
  found : r.found = .suspended r.stimulus.msgid

/-- No yield under an invalid msgid, or under one that a yield has had. -/
def Fabric.Unissued {W : Type} (s : Fabric W) (key : ℕ) : Prop :=
  key ≠ Msgid.invalid ∧ key ∉ s.yields.map fun y => y.2.msgid

instance {W : Type} (s : Fabric W) (key : ℕ) : Decidable (s.Unissued key) :=
  inferInstanceAs (Decidable (_ ∧ _))

def Fresh (s : Atomic) : Event → Prop
  | .outcome _ (.yield key _ _) => s.Unissued key
  | _ => True

/-- What has been registered, what is suspended, and what has been resumed. -/
structure Matched (fibers : ℕ → Fiber) (elems : ℕ → Yielded) (hand : ℕ → Option (ℕ × Stimulus))
    (fque : ℕ → List (ℕ × Stimulus)) (yields : List (ℕ × Yielded)) (resumptions : List Resumption) : Prop where
  valid : ∀ y ∈ yields, y.2.msgid ≠ Msgid.invalid
  distinct : (yields.map fun y => y.2.msgid).Nodup
  issued : ∀ f msgid, (fibers f).co = .suspended msgid →
    ∃ y, ((fibers f).serial, y) ∈ yields ∧ y.msgid = msgid
  unique : ∀ f f' msgid, (fibers f).co = .suspended msgid → (fibers f').co = .suspended msgid →
    f = f'
  elem : ∀ e, (elems e).msgid = Msgid.invalid ∨ ∃ n, (n, elems e) ∈ yields
  held : ∀ t f stimulus, hand t = some (f, stimulus) → Backed yields (fibers f).serial stimulus
  task : ∀ t f stimulus, (f, stimulus) ∈ fque t → Backed yields (fibers f).serial stimulus
  due : ∀ r ∈ resumptions, Due yields r
  spent : ∀ r ∈ resumptions, ∀ f, (fibers f).co ≠ .suspended r.stimulus.msgid
  once : (resumptions.map fun r => r.stimulus.msgid).Nodup

variable {fibers : ℕ → Fiber} {elems : ℕ → Yielded} {hand : ℕ → Option (ℕ × Stimulus)} {fque : ℕ → List (ℕ × Stimulus)}
  {yields : List (ℕ × Yielded)} {resumptions : List Resumption} {f : ℕ} {stimulus : Stimulus}

theorem Backed.append (more : List (ℕ × Yielded)) {n : ℕ} (backed : Backed yields n stimulus) :
    Backed (yields ++ more) n stimulus := by
  obtain ⟨y, member, msgid, limit⟩ := backed
  exact ⟨y, List.mem_append_left _ member, msgid, limit⟩

theorem Backed.issued {n : ℕ} (backed : Backed yields n stimulus) :
    stimulus.msgid ∈ yields.map fun y => y.2.msgid := by
  obtain ⟨y, member, msgid, -⟩ := backed
  exact List.mem_map.mpr ⟨_, member, msgid⟩

namespace Matched

/-- Two yields with one msgid are the same. -/
theorem yield_unique (matched : Matched fibers elems hand fque yields resumptions)
    {y y' : ℕ × Yielded} (member : y ∈ yields) (member' : y' ∈ yields)
    (equal : y.2.msgid = y'.2.msgid) : y = y' :=
  List.inj_on_of_nodup_map matched.distinct member member' equal

/-- What an entry is taken for is backed by the yield of its fiber. -/
theorem backed (matched : Matched fibers elems hand fque yields resumptions)
    (waits : Waits fibers f stimulus.msgid) (elapsed : Elapsed elems stimulus) :
    Backed yields (fibers f).serial stimulus := by
  obtain ⟨y, member, msgid⟩ := matched.issued f _ waits.co
  refine ⟨y, member, msgid, ?_⟩
  rintro key now rfl
  obtain ⟨e, own, late⟩ := elapsed
  have equal : (elems e).msgid = y.msgid := own.trans msgid.symm
  rcases matched.elem e with invalid | ⟨n, registered⟩
  · exact absurd (equal.symm.trans invalid) (matched.valid _ member)
  · have same := matched.yield_unique registered member equal
    rw [(Prod.mk.inj same).2] at late
    exact late

/-- A fiber that nothing in a queue is for does not wait any longer. -/
theorem awake (matched : Matched fibers elems hand fque yields resumptions)
    (free : Unasked hand fque f) (fiber : Fiber)
    (awake : ∀ msgid, fiber.co ≠ .suspended msgid) :
    Matched (Function.update fibers f fiber) elems hand fque yields resumptions := by
  have others : ∀ f' msgid, (Function.update fibers f fiber f').co = .suspended msgid →
      f' ≠ f := by
    rintro f' msgid co rfl
    rw [Function.update_self] at co
    exact awake msgid co
  constructor
  · exact matched.valid
  · exact matched.distinct
  · intro f' msgid co
    have other := others f' msgid co
    rw [Function.update_of_ne other] at co ⊢
    exact matched.issued f' msgid co
  · intro f₁ f₂ msgid co₁ co₂
    have first := others f₁ msgid co₁
    have second := others f₂ msgid co₂
    rw [Function.update_of_ne first] at co₁
    rw [Function.update_of_ne second] at co₂
    exact matched.unique f₁ f₂ msgid co₁ co₂
  · exact matched.elem
  · intro t f' stimulus held
    have other : f' ≠ f := by
      rintro rfl
      exact free.held t stimulus held
    rw [Function.update_of_ne other]
    exact matched.held t f' stimulus held
  · intro t f' stimulus member
    have other : f' ≠ f := by
      rintro rfl
      exact free.task t stimulus member
    rw [Function.update_of_ne other]
    exact matched.task t f' stimulus member
  · exact matched.due
  · intro r member f' co
    have other := others f' _ co
    rw [Function.update_of_ne other] at co
    exact matched.spent r member f' co
  · exact matched.once

/-- A fiber is resumed from its yield, which is spent then. -/
theorem resume (matched : Matched fibers elems hand fque yields resumptions)
    (free : Unasked hand fque f)
    (co : (fibers f).co = .suspended stimulus.msgid)
    (backed : Backed yields (fibers f).serial stimulus) :
    Matched (Function.update fibers f { fibers f with co := .running }) elems hand fque yields
      (resumptions ++ [⟨(fibers f).serial, stimulus, (fibers f).co⟩]) := by
  have awake := matched.awake free { fibers f with co := .running } nofun
  refine { awake with due := ?_, spent := ?_, once := ?_ }
  · intro r member
    rcases List.mem_append.mp member with earlier | last
    · exact matched.due r earlier
    · obtain rfl := List.mem_singleton.mp last
      exact ⟨backed, co⟩
  · intro r member f' suspended
    rcases List.mem_append.mp member with earlier | last
    · exact awake.spent r earlier f' suspended
    · obtain rfl := List.mem_singleton.mp last
      by_cases same : f' = f
      · subst same
        rw [Function.update_self] at suspended
        cases suspended
      · rw [Function.update_of_ne same] at suspended
        exact same (matched.unique f' f _ suspended co)
  · rw [List.map_append]
    refine List.Nodup.append matched.once (List.nodup_singleton _) ?_
    intro msgid earlier last
    obtain ⟨r, member, rfl⟩ := List.mem_map.mp earlier
    have equal := List.mem_singleton.mp last
    have spent := matched.spent r member f
    rw [equal] at spent
    exact spent co

/-- A thread takes an entry. -/
theorem take (matched : Matched fibers elems hand fque yields resumptions)
    (backed : Backed yields (fibers f).serial stimulus) (t : ℕ) :
    Matched fibers elems (Function.update hand t (some (f, stimulus))) fque yields
      resumptions := by
  refine { matched with held := ?_ }
  intro t' f' stimulus' held
  rcases held_other held with ⟨-, same⟩ | ⟨-, earlier⟩
  · cases same
    exact backed
  · exact matched.held t' f' stimulus' earlier

/-- A thread gives up what it holds. -/
theorem release (matched : Matched fibers elems hand fque yields resumptions) (t : ℕ) :
    Matched fibers elems (Function.update hand t none) fque yields resumptions := by
  refine { matched with held := ?_ }
  intro t' f' stimulus' held
  rcases held_other held with ⟨-, same⟩ | ⟨-, earlier⟩
  · cases same
  · exact matched.held t' f' stimulus' earlier

/-- A resumption goes into a queue. -/
theorem push (matched : Matched fibers elems hand fque yields resumptions)
    (backed : Backed yields (fibers f).serial stimulus) (t : ℕ) :
    Matched fibers elems hand (Function.update fque t (fque t ++ [(f, stimulus)])) yields
      resumptions := by
  refine { matched with task := ?_ }
  intro t' f' stimulus' member
  rcases mem_push member with earlier | ⟨-, same⟩
  · exact matched.task t' f' stimulus' earlier
  · cases same
    exact backed

/-- A queue gets shorter. -/
theorem pop (matched : Matched fibers elems hand fque yields resumptions) {t : ℕ}
    {rest : List (ℕ × Stimulus)} (queue : fque t = (f, stimulus) :: rest) :
    Matched fibers elems hand (Function.update fque t rest) yields resumptions := by
  refine { matched with task := ?_ }
  intro t' f' stimulus' member
  exact matched.task t' f' stimulus' (mem_pop queue member)

/-- A running fiber registers a yield under a fresh msgid. -/
theorem register (matched : Matched fibers elems hand fque yields resumptions)
    (free : Unasked hand fque f) {key : ℕ} (limit e : ℕ)
    (valid : key ≠ Msgid.invalid) (fresh : key ∉ yields.map fun y => y.2.msgid) :
    Matched (Function.update fibers f { fibers f with co := .suspended key })
      (Function.update elems e ⟨f, limit, key⟩) hand fque
      (yields ++ [((fibers f).serial, ⟨f, limit, key⟩)]) resumptions := by
  -- no other fiber is suspended under the key
  have others : ∀ f' msgid,
      (Function.update fibers f { fibers f with co := .suspended key } f').co =
        .suspended msgid →
      f' = f ∧ msgid = key ∨ f' ≠ f ∧ msgid ≠ key ∧ (fibers f').co = .suspended msgid := by
    intro f' msgid co
    by_cases same : f' = f
    · rw [same, Function.update_self] at co
      exact .inl ⟨same, (Co.suspended.inj co).symm⟩
    · rw [Function.update_of_ne same] at co
      refine .inr ⟨same, ?_, co⟩
      rintro rfl
      obtain ⟨y, member, msgid⟩ := matched.issued f' _ co
      exact fresh (List.mem_map.mpr ⟨_, member, msgid⟩)
  constructor
  · intro y member
    rcases List.mem_append.mp member with earlier | last
    · exact matched.valid y earlier
    · obtain rfl := List.mem_singleton.mp last
      exact valid
  · rw [List.map_append]
    refine List.Nodup.append matched.distinct (List.nodup_singleton _) ?_
    intro msgid earlier last
    obtain rfl := List.mem_singleton.mp last
    exact fresh earlier
  · intro f' msgid co
    rcases others f' msgid co with ⟨rfl, rfl⟩ | ⟨other, -, co⟩
    · rw [Function.update_self]
      exact ⟨_, List.mem_append_right _ (List.mem_singleton_self _), rfl⟩
    · rw [Function.update_of_ne other]
      obtain ⟨y, member, equal⟩ := matched.issued f' msgid co
      exact ⟨y, List.mem_append_left _ member, equal⟩
  · intro f₁ f₂ msgid co₁ co₂
    rcases others f₁ msgid co₁ with ⟨rfl, rfl⟩ | ⟨-, differs, co₁⟩
    · rcases others f₂ _ co₂ with ⟨rfl, -⟩ | ⟨-, differs, -⟩
      · rfl
      · exact absurd rfl differs
    · rcases others f₂ msgid co₂ with ⟨-, rfl⟩ | ⟨-, -, co₂⟩
      · exact absurd rfl differs
      · exact matched.unique f₁ f₂ msgid co₁ co₂
  · intro e'
    by_cases same : e' = e
    · subst same
      rw [Function.update_self]
      exact .inr ⟨_, List.mem_append_right _ (List.mem_singleton_self _)⟩
    · rw [Function.update_of_ne same]
      refine (matched.elem e').imp_right ?_
      rintro ⟨n, member⟩
      exact ⟨n, List.mem_append_left _ member⟩
  · intro t f' stimulus held
    have other : f' ≠ f := by
      rintro rfl
      exact free.held t stimulus held
    rw [Function.update_of_ne other]
    exact (matched.held t f' stimulus held).append _
  · intro t f' stimulus member
    have other : f' ≠ f := by
      rintro rfl
      exact free.task t stimulus member
    rw [Function.update_of_ne other]
    exact (matched.task t f' stimulus member).append _
  · intro r member
    have due := matched.due r member
    exact ⟨due.backed.append _, due.found⟩
  · intro r member f' co
    rcases others f' _ co with ⟨-, equal⟩ | ⟨-, -, co⟩
    · have issued := (matched.due r member).backed.issued
      rw [equal] at issued
      exact fresh issued
    · exact matched.spent r member f' co
  · exact matched.once

end Matched

namespace Atomic

variable {s s' : Atomic} {event : Event} {f : ℕ} {stimulus : Stimulus}

protected def Matched (s : Atomic) : Prop :=
  Matched s.fibers s.elems s.busy s.fque s.yields s.resumptions

theorem init_matched : Atomic.Matched .init where
  valid y member := by cases member
  distinct := List.nodup_nil
  issued f msgid co := by cases co
  unique f f' msgid co := by cases co
  elem e := .inl rfl
  held t f stimulus held := by cases held
  task t f stimulus member := by cases member
  due r member := by cases member
  spent r member := by cases member
  once := List.nodup_nil

/-- Nobody is about to resume a fiber that runs. -/
theorem Sound.unasked (sound : s.Sound) (run : (s.fibers f).co = .running) :
    Unasked s.busy s.fque f := by
  refine (Sound.unclaimed sound fun msgid waits => ?_).toUnasked
  have co := run.symm.trans waits.co
  cases co

theorem Matched.taken (matched : s.Matched) (free : Unasked s.busy s.fque f)
    (waits : Waits s.fibers f stimulus.msgid) (backed : Backed s.yields (s.fibers f).serial stimulus)
    {heard : Bool} (taken : Taken s f stimulus heard s') : s'.Matched := by
  cases taken with
  | dropped => exact matched
  | queued => exact Matched.push matched backed _
  | resumed => exact Matched.resume matched free waits.co backed

theorem Matched.report (sound : s.Sound) (matched : s.Matched) {o : Outcome}
    (run : (s.fibers f).co = .running) (fresh : Fresh s (.outcome f o)) :
    Atomic.Matched (s.report f o) := by
  have free := sound.unasked run
  cases o with
  | finish => exact Matched.awake matched free _ nofun
  | error => exact Matched.awake matched free _ nofun
  | yield key limit e => exact Matched.register matched free limit _ fresh.1 fresh.2

theorem Matched.turn (sound : s.Sound) (matched : s.Matched) (fresh : Fresh s event)
    (turn : Turn s event s') : s'.Matched := by
  cases turn with
  | nothing => exact matched
  | start _ free =>
      refine Matched.awake matched (Sound.unclaimed sound fun msgid waits => ?_).toUnasked _ nofun
      have live := waits.live
      rw [free] at live
      cases live
  | @take _ t e stimulus _ empty held elapsed =>
      have waits := Sound.entry sound stimulus.msgid e held
      exact Matched.take matched (Matched.backed matched waits elapsed) t
  | @give t f stimulus _ _ held taken =>
      obtain ⟨-, unclaimed⟩ := Sound.release sound held
      have waits := Sound.held sound t f stimulus held
      exact Matched.taken (s := s.work t none) (Matched.release matched t) unclaimed.toUnasked waits
        (matched.held t f stimulus held) taken
  | @task _ t f stimulus rest queue =>
      obtain ⟨-, unclaimed⟩ := Sound.pop sound queue
      have here : (f, stimulus) ∈ s.fque t := by
        rw [queue]
        exact List.mem_cons_self
      have waits := (Sound.task sound t f stimulus here).1
      exact Matched.resume (Matched.pop matched queue) unclaimed.toUnasked waits.co
        (matched.task t f stimulus here)
  | report running allows => exact matched.report sound running fresh

end Atomic

end Cyue.Fibers
