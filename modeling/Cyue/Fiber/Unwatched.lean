import Cyue.Fiber.Watching
import Mathlib.Data.List.Nodup

/-!
# Watchers of destroyed fibers

A registered watcher is the `m_w` of its fiber, which `fin` stops, or it is one
that `raise` has taken off its fiber without a word to the emitter.  So a fiber
that completes leaves a watcher behind exactly if a wait of it has timed out and
the watcher has not been called since.
-/

namespace Cyue.Watching

variable {α ε : Type*}

/-! ## Where a watcher is registered -/

def Command.added : Command ε → Option ℕ
  | .addWatcher w => some w
  | _ => none

def Position.held : Position ε → List ℕ
  | .idle => []
  | .emitting _ todo remain => todo ++ remain
  | .emittingOne _ w _ _ => [w]

/-- The watchers in the list, those that an emission has taken out, and those
whose command is still to come. -/
def Emitter.places (emitter : Emitter ε) : List ℕ :=
  emitter.list ++ (emitter.position.held ++ emitter.commands.filterMap Command.added)

/-- `emit_one` has only its first watcher in hand, which is not in the list. -/
def Emitter.Unlinked (emitter : Emitter ε) : Prop :=
  ∀ ev w behind linked, emitter.position = .emittingOne ev w behind linked → linked = false

/-- The watcher is registered for the fiber and may still be called. -/
structure Scene.Waits (s : Scene α ε) (e w f : ℕ) : Prop where
  place : w ∈ (s.emitters e).places
  watcher : ∃ x, s.watchers w = some x ∧ x.stopped = false ∧ x.fb = some f

/-- What a run has to avoid: a second wait under way (which `wait` asserts not
to be), the completion of a fiber with a watcher that a timeout has left behind,
and an `emit_one` whose first watcher ignores the event while there are others. -/
def Scene.Keeps (filter : α → ε → Bool) (s : Scene α ε) : Event α ε → Prop
  | .wait f _ _ _ _ => (s.fibers f).w = none
  | .fin f => ∀ e w, s.Waits e w f → s.timedOut w = false
  | .call e => ∀ ev w behind linked,
      (s.emitters e).position = .emittingOne ev w behind linked → behind ≠ [] →
        (s.operator filter w ev).1 ≠ .ignore
  | _ => True

namespace Scene

/-- Each watcher is registered at one place, with its own emitter, and its fiber
is live and knows it, unless a timeout has made the fiber forget it. -/
structure Sound (s : Scene α ε) : Prop where
  once : ∀ e, (s.emitters e).places.Nodup
  own : ∀ e w, w ∈ (s.emitters e).places → ∃ x, s.watchers w = some x ∧ x.emitter = e
  unlinked : ∀ e, (s.emitters e).Unlinked
  known : ∀ e w f, s.Waits e w f →
    (s.fibers f).life = .live ∧ ((s.fibers f).w = some w ∨ s.timedOut w = true)

variable {s s' : Scene α ε} {e f w : ℕ} {filter : α → ε → Bool}

theorem init_sound : (init : Scene α ε).Sound where
  once e := List.nodup_nil
  own e w member := by cases member
  unlinked e ev w behind linked here := by cases here
  known e w f waits := by cases waits.place

namespace Sound

/-- A watcher has one place. -/
theorem place_unique (sound : s.Sound) {e' : ℕ} (here : w ∈ (s.emitters e).places)
    (there : w ∈ (s.emitters e').places) : e = e' := by
  obtain ⟨x, some, rfl⟩ := sound.own e w here
  obtain ⟨x', some', rfl⟩ := sound.own e' w there
  rw [some] at some'
  rw [Option.some.inj some']

/-- An emitter moves its watchers or lets go of some. -/
theorem setEmitter (sound : s.Sound) {emitter : Emitter ε}
    (fewer : emitter.places.Subperm (s.emitters e).places)
    (unlinked : emitter.Unlinked) : (s.setEmitter e emitter).Sound := by
  have places : ∀ e' w, w ∈ ((s.setEmitter e emitter).emitters e').places →
      w ∈ (s.emitters e').places := by
    intro e' w member
    by_cases same : e' = e
    · subst same
      rw [setEmitter_emitters, Function.update_self] at member
      exact fewer.subset member
    · rw [setEmitter_emitters, Function.update_of_ne same] at member
      exact member
  constructor
  · intro e'
    by_cases same : e' = e
    · subst same
      rw [setEmitter_emitters, Function.update_self]
      obtain ⟨kept, perm, sub⟩ := fewer
      exact perm.nodup_iff.mp ((sound.once e').sublist sub)
    · rw [setEmitter_emitters, Function.update_of_ne same]
      exact sound.once e'
  · intro e' w member
    exact sound.own e' w (places e' w member)
  · intro e'
    by_cases same : e' = e
    · subst same
      rw [setEmitter_emitters, Function.update_self]
      exact unlinked
    · rw [setEmitter_emitters, Function.update_of_ne same]
      exact sound.unlinked e'
  · intro e' w f waits
    exact sound.known e' w f ⟨places e' w waits.place, waits.watcher⟩

/-- A fiber forgets a watcher that is not registered any more. -/
theorem finishWait (sound : s.Sound) (gone : ∀ e, w ∉ (s.emitters e).places) (f : ℕ) :
    (s.finishWait f w).Sound := by
  unfold Scene.finishWait
  split
  case isFalse => exact sound
  case isTrue mine =>
      refine ⟨sound.once, sound.own, sound.unlinked, ?_⟩
      intro e' w' f' waits
      obtain ⟨live, knows⟩ := sound.known e' w' f' ⟨waits.place, waits.watcher⟩
      by_cases same : f' = f
      · subst same
        rw [setFiber_fibers, setFiber_timedOut, Function.update_self]
        refine ⟨live, knows.resolve_left ?_ |> .inr⟩
        intro other
        obtain rfl := Option.some.inj (mine.symm.trans other)
        exact gone e' waits.place
      · rw [setFiber_fibers, setFiber_timedOut, Function.update_of_ne same]
        exact ⟨live, knows⟩

theorem unref (sound : s.Sound) (gone : ∀ e, w ∉ (s.emitters e).places) : (s.unref w).Sound := by
  unfold Scene.unref
  split
  · exact sound
  · exact sound.finishWait gone _

theorem take (sound : s.Sound) (msgid : ℕ) : (s.take msgid).Sound :=
  ⟨sound.once, sound.own, sound.unlinked, fun e w f waits =>
    sound.known e w f ⟨waits.place, waits.watcher⟩⟩

end Sound

theorem finishWait_emitters (s : Scene α ε) (f w : ℕ) : (s.finishWait f w).emitters = s.emitters := by
  unfold finishWait
  split
  · rfl
  · rfl

theorem unref_emitters (s : Scene α ε) (w : ℕ) : (s.unref w).emitters = s.emitters := by
  unfold unref
  split
  · rfl
  · exact finishWait_emitters s _ w

theorem Sound.free (sound : s.Sound) {ws : List ℕ}
    (gone : ∀ w ∈ ws, ∀ e, w ∉ (s.emitters e).places) : (s.free ws).Sound := by
  induction ws generalizing s with
  | nil => exact sound
  | cons w ws ih =>
      refine ih (sound.unref (gone w List.mem_cons_self)) ?_
      intro w' member e
      rw [unref_emitters]
      exact gone w' (List.mem_cons_of_mem _ member) e

/-! ## Fibers -/

theorem added_none {c : Command ε} (other : c.added = none) (emitter : Emitter ε) :
    Emitter.places { emitter with commands := emitter.commands ++ [c] } = emitter.places := by
  have none : [c].filterMap Command.added = [] := by
    rw [List.filterMap_cons_none other, List.filterMap_nil]
  rw [Emitter.places, List.filterMap_append, none, List.append_nil]
  rfl

/-- A command that adds no watcher. -/
theorem Sound.addCommand (sound : s.Sound) {c : Command ε} (other : c.added = none) (e : ℕ) :
    (s.addCommand e c).Sound := by
  refine sound.setEmitter ?_ (sound.unlinked e)
  rw [added_none other]

/-- A new watcher and its command, with a fiber that knows it or without one. -/
theorem Sound.register (sound : s.Sound) (fresh : s.watchers w = none) {x : Watcher α}
    (knows : ∀ f, x.fb = some f → (s.fibers f).life = .live ∧ (s.fibers f).w = some w) :
    ((s.setWatcher w x).addCommand x.emitter (.addWatcher w)).Sound := by
  have absent : ∀ e, w ∉ (s.emitters e).places := by
    intro e member
    obtain ⟨y, some, -⟩ := sound.own e w member
    rw [fresh] at some
    cases some
  have more : Emitter.places { s.emitters x.emitter with
      commands := (s.emitters x.emitter).commands ++ [.addWatcher w] } =
      (s.emitters x.emitter).places ++ [w] := by
    rw [Emitter.places, List.filterMap_append, Emitter.places, List.append_assoc, List.append_assoc]
    rfl
  have places : ∀ e' w',
      w' ∈ (((s.setWatcher w x).addCommand x.emitter (.addWatcher w)).emitters e').places →
      w' ∈ (s.emitters e').places ∨ w' = w ∧ e' = x.emitter := by
    intro e' w' member
    rw [Scene.addCommand, setEmitter_emitters] at member
    by_cases same : e' = x.emitter
    · rw [same, Function.update_self, setWatcher_emitters, more, List.mem_append,
        List.mem_singleton] at member
      rw [same]
      exact member.imp_right fun last => ⟨last, rfl⟩
    · rw [Function.update_of_ne same] at member
      exact .inl member
  have watchers : ((s.setWatcher w x).addCommand x.emitter (.addWatcher w)).watchers =
      Function.update s.watchers w (some x) := rfl
  constructor
  · intro e'
    rw [Scene.addCommand, setEmitter_emitters]
    by_cases same : e' = x.emitter
    · rw [same, Function.update_self, setWatcher_emitters, more]
      refine List.Nodup.append (sound.once _) (List.nodup_singleton w) ?_
      intro w' earlier last
      rw [List.mem_singleton.mp last] at earlier
      exact absent _ earlier
    · rw [Function.update_of_ne same]
      exact sound.once e'
  · intro e' w' member
    rw [watchers]
    rcases places e' w' member with earlier | ⟨rfl, rfl⟩
    · have other : w' ≠ w := by
        rintro rfl
        exact absent e' earlier
      rw [Function.update_of_ne other]
      exact sound.own e' w' earlier
    · rw [Function.update_self]
      exact ⟨x, rfl, rfl⟩
  · intro e'
    rw [Scene.addCommand, setEmitter_emitters]
    by_cases same : e' = x.emitter
    · rw [same, Function.update_self]
      exact sound.unlinked x.emitter
    · rw [Function.update_of_ne same]
      exact sound.unlinked e'
  · intro e' w' f' waits
    obtain ⟨y, some, unstopped, fb⟩ := waits.watcher
    rw [watchers] at some
    rcases places e' w' waits.place with earlier | ⟨rfl, rfl⟩
    · have other : w' ≠ w := by
        rintro rfl
        exact absent e' earlier
      rw [Function.update_of_ne other] at some
      exact sound.known e' w' f' ⟨earlier, y, some, unstopped, fb⟩
    · rw [Function.update_self] at some
      obtain rfl := Option.some.inj some
      obtain ⟨live, mine⟩ := knows f' fb
      exact ⟨live, .inl mine⟩

theorem Sound.wait (sound : s.Sound) (free : (s.fibers f).w = none) (w e msgid : ℕ) (kind : α) :
    (s.wait f w e msgid kind).Sound := by
  unfold Scene.wait
  split
  case isFalse => exact sound
  case isTrue allowed =>
      obtain ⟨live, fresh⟩ := allowed
      have fresh : s.watchers w = none := Option.isNone_iff_eq_none.mp fresh
      -- the fiber had no watcher, so that nothing is forgotten
      have claimed : ((s.setFiber f { s.fibers f with w := some w }).yield f msgid).Sound := by
        refine ⟨sound.once, sound.own, sound.unlinked, ?_⟩
        intro e' w' f' waits
        obtain ⟨live', knows⟩ := sound.known e' w' f' ⟨waits.place, waits.watcher⟩
        change (Function.update s.fibers f _ f').life = _ ∧
          ((Function.update s.fibers f _ f').w = _ ∨ _)
        by_cases same : f' = f
        · subst same
          rw [Function.update_self]
          refine ⟨live', .inr (knows.resolve_left ?_)⟩
          rw [free]
          exact nofun
        · rw [Function.update_of_ne same]
          exact ⟨live', knows⟩
      refine claimed.register fresh ?_
      rintro f' ⟨⟩
      change (Function.update s.fibers f _ f).life = _ ∧ (Function.update s.fibers f _ f).w = _
      rw [Function.update_self]
      exact ⟨live, rfl⟩

theorem Sound.bind (sound : s.Sound) (w e : ℕ) (kind : α) : (s.bind w e kind).Sound := by
  unfold Scene.bind
  split
  case isFalse => exact sound
  case isTrue fresh =>
      refine sound.register (x := ⟨kind, 0, none, e, false⟩) (Option.isNone_iff_eq_none.mp fresh) ?_
      intro f fb
      cases fb

theorem Sound.create (sound : s.Sound) (f : ℕ) : (s.create f).Sound := by
  unfold Scene.create
  split
  case isFalse => exact sound
  case isTrue unborn =>
      refine ⟨sound.once, sound.own, sound.unlinked, ?_⟩
      intro e w f' waits
      have known := sound.known e w f' ⟨waits.place, waits.watcher⟩
      have other : f' ≠ f := by
        rintro rfl
        rw [unborn] at known
        cases known.1
      rw [setFiber_fibers, Function.update_of_ne other]
      exact known

/-- A timeout makes the fiber forget its watcher, which stays registered. -/
theorem Sound.raise (sound : s.Sound) (f : ℕ) : (s.raise f).Sound := by
  unfold Scene.raise
  cases mine : (s.fibers f).w with
  | none => exact sound
  | some w =>
      have forgets : s.finishWait f w = s.setFiber f { s.fibers f with w := none } := if_pos mine
      dsimp only
      rw [forgets]
      refine ⟨sound.once, sound.own, sound.unlinked, ?_⟩
      intro e w' f' waits
      obtain ⟨live, knows⟩ := sound.known e w' f' ⟨waits.place, waits.watcher⟩
      change (Function.update s.fibers f _ f').life = _ ∧
        ((Function.update s.fibers f _ f').w = _ ∨ Function.update s.timedOut w true w' = true)
      have marked : s.timedOut w' = true → Function.update s.timedOut w true w' = true := by
        intro earlier
        by_cases same : w' = w
        · rw [same, Function.update_self]
        · rw [Function.update_of_ne same]
          exact earlier
      by_cases same : f' = f
      · subst same
        rw [Function.update_self]
        refine ⟨live, .inr ?_⟩
        rcases knows with this | earlier
        · obtain rfl := Option.some.inj (mine.symm.trans this)
          exact Function.update_self ..
        · exact marked earlier
      · rw [Function.update_of_ne same]
        exact ⟨live, knows.imp_right marked⟩

/-- A watcher that is stopped waits no longer, and every other one as before. -/
theorem Sound.unwatch (sound : s.Sound) (w : ℕ) :
    (s.unwatch w).Sound ∧ ∀ e w' f, (s.unwatch w).Waits e w' f → s.Waits e w' f ∧ w' ≠ w := by
  unfold Scene.unwatch
  cases some : s.watchers w with
  | none =>
      refine ⟨sound, fun e w' f waits => ⟨waits, ?_⟩⟩
      rintro rfl
      obtain ⟨x, there, -⟩ := waits.watcher
      rw [some] at there
      cases there
  | some x =>
      have before : ∀ e w' f, (s.setWatcher w { x with stopped := true }).Waits e w' f →
          s.Waits e w' f ∧ w' ≠ w := by
        rintro e w' f ⟨place, y, there, unstopped, fb⟩
        have other : w' ≠ w := by
          rintro rfl
          rw [setWatcher_watchers, Function.update_self] at there
          obtain rfl := Option.some.inj there
          cases unstopped
        rw [setWatcher_watchers, Function.update_of_ne other] at there
        exact ⟨⟨place, y, there, unstopped, fb⟩, other⟩
      have stopped : (s.setWatcher w { x with stopped := true }).Sound := by
        refine ⟨sound.once, ?_, sound.unlinked, ?_⟩
        · intro e w' member
          obtain ⟨y, there, own⟩ := sound.own e w' member
          rw [setWatcher_watchers]
          by_cases same : w' = w
          · subst same
            rw [some] at there
            obtain rfl := Option.some.inj there
            rw [Function.update_self]
            exact ⟨_, rfl, own⟩
          · rw [Function.update_of_ne same]
            exact ⟨y, there, own⟩
        · intro e w' f waits
          exact sound.known e w' f (before e w' f waits).1
      refine ⟨stopped.addCommand rfl x.emitter, ?_⟩
      intro e w' f waits
      refine before e w' f ⟨?_, waits.watcher⟩
      have place : w' ∈ (Function.update s.emitters x.emitter _ e).places := waits.place
      by_cases same : e = x.emitter
      · subst same
        rw [Function.update_self, added_none rfl] at place
        exact place
      · rw [Function.update_of_ne same] at place
        exact place

/-- A fiber that completes stops the watcher that it knows; no other is left. -/
theorem Sound.fin (sound : s.Sound) (none_left : ∀ e w, s.Waits e w f → s.timedOut w = false) :
    (s.fin f).Sound := by
  have stops : ∀ e w, s.Waits e w f → (s.fibers f).w = some w := by
    intro e w waits
    refine (sound.known e w f waits).2.resolve_right ?_
    rw [none_left e w waits]
    exact Bool.false_ne_true
  unfold Scene.fin
  cases mine : (s.fibers f).w with
  | none =>
      refine ⟨sound.once, sound.own, sound.unlinked, ?_⟩
      intro e w f' waits
      have before : s.Waits e w f' := ⟨waits.place, waits.watcher⟩
      have other : f' ≠ f := by
        rintro rfl
        have known := stops e w before
        rw [mine] at known
        cases known
      rw [setFiber_fibers, Function.update_of_ne other]
      exact sound.known e w f' before
  | some w =>
      obtain ⟨unwatched, before⟩ := sound.unwatch w
      refine ⟨unwatched.once, unwatched.own, unwatched.unlinked, ?_⟩
      intro e w' f' waits
      have waits' : (s.unwatch w).Waits e w' f' := ⟨waits.place, waits.watcher⟩
      obtain ⟨earlier, apart⟩ := before e w' f' waits'
      have other : f' ≠ f := by
        rintro rfl
        have known := stops e w' earlier
        exact apart (Option.some.inj (known.symm.trans mine))
      have known := unwatched.known e w' f' waits'
      dsimp only
      rw [setFiber_fibers, setFiber_timedOut, Function.update_of_ne other]
      exact known

/-- A fiber that completes with another watcher than the one it knows leaves that
watcher behind. -/
theorem fin_dangles (e w f : ℕ) (live : (s.fibers f).life = .live) (waits : s.Waits e w f)
    (forgotten : (s.fibers f).w ≠ some w) :
    (s.step filter (.fin f)).Waits e w f ∧ ((s.step filter (.fin f)).fibers f).life = .destroyed := by
  have runs : s.step filter (.fin f) = s.fin f := if_pos live
  obtain ⟨place, x, there, unstopped, fb⟩ := waits
  rw [runs]
  constructor
  · unfold Scene.fin
    cases mine : (s.fibers f).w with
    | none => exact ⟨place, x, there, unstopped, fb⟩
    | some w' =>
        have other : w ≠ w' := by
          rintro rfl
          exact forgotten mine
        dsimp only
        unfold Scene.unwatch
        cases s.watchers w' with
        | none => exact ⟨place, x, there, unstopped, fb⟩
        | some y =>
            refine ⟨?_, x, ?_, unstopped, fb⟩
            · change w ∈ (Function.update s.emitters y.emitter _ e).places
              by_cases same : e = y.emitter
              · subst same
                rw [Function.update_self, added_none rfl]
                exact place
              · rw [Function.update_of_ne same]
                exact place
            · change Function.update s.watchers w' _ w = _
              rw [Function.update_of_ne other]
              exact there
  · unfold Scene.fin
    rw [setFiber_fibers, Function.update_self]

/-! ## Emitters -/

theorem operator_setEmitter (filter : α → ε → Bool) (s : Scene α ε) (e w : ℕ) (ev : ε)
    (emitter : Emitter ε) :
    ((s.setEmitter e emitter).operator filter w ev).1 = (s.operator filter w ev).1 ∧
      ((s.setEmitter e emitter).operator filter w ev).2 =
        (s.operator filter w ev).2.setEmitter e emitter := by
  have commutes : ∀ f, ((s.setEmitter e emitter).finishWait f w) =
      (s.finishWait f w).setEmitter e emitter := by
    intro f
    unfold finishWait
    rw [setEmitter_fibers]
    split
    · rfl
    · rfl
  unfold operator
  rw [setEmitter_watchers]
  split
  · exact ⟨rfl, rfl⟩
  · split
    · exact ⟨rfl, rfl⟩
    · split
      · split
        · exact ⟨rfl, rfl⟩
        · rw [commutes]
          exact ⟨rfl, rfl⟩
      · exact ⟨rfl, rfl⟩

/-- A watcher that does not answer `STOP` leaves everything as it is. -/
theorem operator_stays (s : Scene α ε) (w : ℕ) (filter : α → ε → Bool) (ev : ε)
    (answer : (s.operator filter w ev).1 ≠ .stop) :
    (s.operator filter w ev).2 = s := by
  unfold operator at answer ⊢
  cases there : s.watchers w with
  | none => rfl
  | some x =>
      rw [there] at answer
      dsimp only at answer ⊢
      by_cases stopped : x.stopped
      · rw [if_pos stopped]
      · rw [if_neg stopped] at answer ⊢
        by_cases passes : filter x.kind ev
        · rw [if_pos passes] at answer ⊢
          cases fb : x.fb with
          | none => rfl
          | some f =>
              rw [fb] at answer
              exact absurd rfl answer
        · rw [if_neg passes]

theorem operator_emitters (filter : α → ε → Bool) (s : Scene α ε) (w : ℕ) (ev : ε) :
    (s.operator filter w ev).2.emitters = s.emitters := by
  unfold operator
  split
  · rfl
  · split
    · rfl
    · split
      · split
        · rfl
        · exact finishWait_emitters s _ w
      · rfl

/-- A watcher that is taken out of its places, called and freed. -/
theorem Sound.called (sound : s.Sound) (gone : ∀ e, w ∉ (s.emitters e).places) (ev : ε) :
    ((s.operator filter w ev).2.free [w]).Sound := by
  have after : (s.operator filter w ev).2.Sound := by
    unfold operator
    split
    · exact sound
    · split
      · exact sound
      · split
        · split
          · exact sound
          · exact (sound.finishWait gone _).take _
        · exact sound
  refine after.free ?_
  intro w' member e
  rw [List.mem_singleton.mp member, operator_emitters]
  exact gone e

/-- What an emitter lets go of has no place any more. -/
theorem Sound.gone (sound : s.Sound) {emitter : Emitter ε} (here : w ∈ (s.emitters e).places)
    (apart : w ∉ emitter.places) (e' : ℕ) :
    w ∉ ((s.setEmitter e emitter).emitters e').places := by
  intro member
  rw [setEmitter_emitters] at member
  by_cases same : e' = e
  · subst same
    rw [Function.update_self] at member
    exact apart member
  · rw [Function.update_of_ne same] at member
    exact same (sound.place_unique member here)

/-- A watcher at the front of the list stands nowhere else. -/
theorem not_mem_of_nodup_append {front rest : List ℕ} (once : (front ++ rest).Nodup)
    (member : w ∈ front) : w ∉ rest :=
  fun there => (List.disjoint_of_nodup_append once) member there

theorem Sound.process (sound : s.Sound) (e : ℕ) : (s.process e).Sound := by
  have once := sound.once e
  have moves : ∀ emitter : Emitter ε, emitter.places.Subperm (s.emitters e).places →
      emitter.Unlinked → (s.setEmitter e emitter).Sound := fun _ => sound.setEmitter
  have gone : ∀ w, w ∈ (s.emitters e).places → ∀ emitter : Emitter ε, w ∉ emitter.places →
      ∀ e', w ∉ ((s.setEmitter e emitter).emitters e').places := fun _ here _ => sound.gone here
  unfold Scene.process
  cases equal : s.emitters e with
  | mk list commands position =>
      rw [equal] at once moves gone
      cases position with
      | emitting ev todo remain => exact sound
      | emittingOne ev w behind linked => exact sound
      | idle =>
          cases commands with
          | nil => exact sound
          | cons c rest =>
              cases c with
              | addWatcher w =>
                  refine moves _ ?_ nofun
                  have middle : (list ++ w :: rest.filterMap Command.added).Perm
                      (w :: (list ++ rest.filterMap Command.added)) := List.perm_middle
                  exact middle.symm.subperm
              | removeWatcher w =>
                  have fewer : List.Sublist (Emitter.places ⟨list.erase w, rest, .idle⟩)
                      (Emitter.places ⟨list, .removeWatcher w :: rest, .idle⟩) :=
                    List.erase_sublist.append_right _
                  have removed := moves _ fewer.subperm nofun
                  dsimp only
                  split
                  case isFalse => exact removed
                  case isTrue member =>
                      refine removed.free ?_
                      intro w' last e'
                      obtain rfl := List.mem_singleton.mp last
                      refine gone w' (List.mem_append_left _ member) _ ?_ e'
                      rw [Emitter.places, List.mem_append, not_or]
                      refine ⟨?_, not_mem_of_nodup_append once member⟩
                      exact (List.Nodup.of_append_left once).not_mem_erase
              | removeAll =>
                  have fewer : List.Sublist (Emitter.places ⟨[], rest, .idle⟩)
                      (Emitter.places ⟨list, .removeAll :: rest, .idle⟩) :=
                    List.sublist_append_right list _
                  refine (moves _ fewer.subperm nofun).free ?_
                  intro w member e'
                  exact gone w (List.mem_append_left _ member) _
                    (not_mem_of_nodup_append once member) e'
              | emit ev =>
                  refine moves _ ?_ nofun
                  rw [Emitter.places, Emitter.places, Position.held, Position.held, List.append_nil]
                  exact List.Subperm.refl _
              | emitOne ev =>
                  cases list with
                  | nil =>
                      refine moves _ ?_ nofun
                      exact List.Subperm.refl _
                  | cons w list =>
                      refine moves _ ?_ ?_
                      · exact List.perm_middle.subperm
                      · rintro ev' w' behind linked ⟨⟩
                        rfl

/-- A watcher that answers `STOP` is taken out of its places and freed. -/
theorem Sound.release (sound : s.Sound) {emitter : Emitter ε}
    (here : w ∈ (s.emitters e).places) (fewer : emitter.places.Subperm (s.emitters e).places)
    (unlinked : emitter.Unlinked) (apart : w ∉ emitter.places) (ev : ε) :
    (((s.operator filter w ev).2.setEmitter e emitter).free [w]).Sound := by
  rw [← (operator_setEmitter filter s e w ev emitter).2]
  exact (sound.setEmitter fewer unlinked).called (sound.gone here apart) ev

/-- The next watcher is called, in a run that keeps `emit_one` to the first one. -/
theorem Sound.call (sound : s.Sound) (keeps : s.Keeps filter (.call e)) :
    (s.call filter e).Sound := by
  have once := sound.once e
  have moves : ∀ emitter : Emitter ε, emitter.places.Subperm (s.emitters e).places →
      emitter.Unlinked → (s.setEmitter e emitter).Sound := fun _ => sound.setEmitter
  have release : ∀ (emitter : Emitter ε) w, w ∈ (s.emitters e).places →
      emitter.places.Subperm (s.emitters e).places → emitter.Unlinked → w ∉ emitter.places →
      ∀ ev, (((s.operator filter w ev).2.setEmitter e emitter).free [w]).Sound :=
    fun _ _ here => sound.release here
  have unlinked := sound.unlinked e
  have first : ∀ ev w behind linked,
      (s.emitters e).position = .emittingOne ev w behind linked → behind ≠ [] →
        (s.operator filter w ev).1 ≠ .ignore := keeps
  unfold Scene.call
  cases equal : s.emitters e with
  | mk list commands position =>
      rw [equal] at once moves release unlinked first
      cases position with
      | idle => exact sound
      | emitting ev todo remain =>
          cases todo with
          | nil =>
              have fewer : List.Sublist (Emitter.places ⟨remain, commands, .idle⟩)
                  (Emitter.places ⟨list, commands, .emitting ev [] remain⟩) :=
                List.sublist_append_right list _
              exact moves _ fewer.subperm nofun
          | cons w todo =>
              have perm : (Emitter.places ⟨list, commands, .emitting ev (w :: todo) remain⟩).Perm
                  (w :: Emitter.places ⟨list, commands, .emitting ev todo remain⟩) :=
                List.perm_middle
              have apart := (List.nodup_cons.mp (perm.nodup_iff.mp once)).1
              have stops := release ⟨list, commands, .emitting ev todo remain⟩ w
                (perm.mem_iff.mpr List.mem_cons_self)
                ((List.sublist_cons_self _ _).subperm.trans perm.symm.subperm) nofun apart ev
              have stays := operator_stays s w filter ev
              have kept : (s.setEmitter e
                  ⟨list, commands, .emitting ev todo (w :: remain)⟩).Sound := by
                refine moves _ ?_ nofun
                exact ((List.perm_middle.append_right _).append_left list).subperm
              dsimp only
              cases called : s.operator filter w ev with
              | mk answer after =>
                  rw [called] at stays stops
                  cases answer with
                  | stop => exact stops
                  | keep =>
                      rw [show after = s from stays nofun]
                      exact kept
                  | ignore =>
                      rw [show after = s from stays nofun]
                      exact kept
      | emittingOne ev w behind linked =>
          obtain rfl := unlinked ev w behind linked rfl
          have perm : (Emitter.places ⟨list, commands, .emittingOne ev w behind false⟩).Perm
              (w :: Emitter.places ⟨list, commands, .idle⟩) := List.perm_middle
          have fewer : (Emitter.places ⟨list, commands, .idle⟩).Subperm
              (Emitter.places ⟨list, commands, .emittingOne ev w behind false⟩) :=
            (List.sublist_cons_self _ _).subperm.trans perm.symm.subperm
          have apart := (List.nodup_cons.mp (perm.nodup_iff.mp once)).1
          have stops := release ⟨list, commands, .idle⟩ w (perm.mem_iff.mpr List.mem_cons_self)
            fewer nofun apart ev
          have stays := operator_stays s w filter ev
          have only := first ev w behind false rfl
          dsimp only
          cases called : s.operator filter w ev with
          | mk answer after =>
              rw [called] at stays stops only
              cases answer with
              | stop => exact stops
              | ignore =>
                  rw [show after = s from stays nofun]
                  cases behind with
                  | nil => exact moves _ fewer nofun
                  | cons w' behind => exact absurd rfl (only (List.cons_ne_nil _ _))
              | keep =>
                  rw [show after = s from stays nofun]
                  refine moves _ ?_ nofun
                  rw [if_neg Bool.false_ne_true, Emitter.places, Emitter.places, List.append_assoc]
                  exact List.Subperm.refl _

/-! ## Runs -/

theorem Sound.step (sound : s.Sound) {event : Event α ε} (keeps : s.Keeps filter event) :
    (s.step filter event).Sound := by
  cases event with
  | create f => exact sound.create f
  | wait f w e msgid kind => exact sound.wait keeps w e msgid kind
  | bind w e kind => exact sound.bind w e kind
  | yield f msgid =>
      change (if (s.fibers f).life = .live then s.yield f msgid else s).Sound
      split
      · exact ⟨sound.once, sound.own, sound.unlinked, fun e w f waits =>
          sound.known e w f ⟨waits.place, waits.watcher⟩⟩
      · exact sound
  | command e ev => exact sound.addCommand rfl e
  | commandOne e ev => exact sound.addCommand rfl e
  | commandRemoveAll e => exact sound.addCommand rfl e
  | process e => exact sound.process e
  | call e => exact sound.call keeps
  | timeout msgid =>
      simp only [Scene.step]
      cases s.yielded msgid with
      | none => exact sound
      | some f => exact (sound.take msgid).raise f
  | respond msgid => exact sound.take msgid
  | fin f =>
      change (if (s.fibers f).life = .live then s.fin f else s).Sound
      split
      · exact sound.fin keeps
      · exact sound

/-- As long as no fiber completes with a watcher that a timeout has left
behind, a watcher in the list of an emitter that is not stopped has no fiber or
a live one. -/
theorem watched_alive {events : List (Event α ε)}
    (keeps : Run.Along (step filter) (Keeps filter) init events) (e w f : ℕ) (x : Watcher α)
    (member : w ∈ ((run filter events).emitters e).list)
    (watcher : (run filter events).watchers w = some x) (unstopped : x.stopped = false)
    (fb : x.fb = some f) : ((run filter events).fibers f).life = .live := by
  have sound := Run.holds_after Sound (Keeps filter) init_sound (fun _ _ sound => sound.step) keeps
  exact (sound.known e w f
    ⟨List.mem_append_left _ member, x, watcher, unstopped, fb⟩).1

/-- Three fibers wait.  One times out, but the event reaches its watcher before it completes;
the second completes after its event, and the third still waits. -/
def waitingEvents : List (Event ℕ ℕ) :=
  [.create 0, .wait 0 0 0 7 1, .create 1, .wait 1 1 0 8 2, .create 2, .wait 2 2 0 9 3,
    .process 0, .process 0, .process 0, .timeout 9, .commandOne 0 3, .process 0, .call 0, .fin 2,
    .command 0 2, .process 0, .call 0, .call 0, .call 0, .fin 1]

theorem watched_alive_waiting :
    ((run (fun kind ev => kind == ev) waitingEvents).fibers 0).life = .live := by
  have keeps : Run.Along (step fun kind ev => kind == ev) (Keeps fun kind ev => kind == ev) init
      waitingEvents := by
    refine ⟨trivial, rfl, trivial, rfl, trivial, rfl, trivial, trivial, trivial, trivial, trivial,
      trivial, ?first, ?late, trivial, trivial, ?second, ?third, ?done, ?timely, trivial⟩
    case first =>
      rintro ev w behind linked ⟨⟩ others
      exact Answer.noConfusion
    case late =>
      rintro e w ⟨place, x, watcher, unstopped, own⟩
      cases e with
      | succ e => cases place
      | zero =>
          have left : w = 1 ∨ w = 0 := by simpa using (show w ∈ [1, 0] from place)
          obtain rfl | rfl := left <;> rfl
    case second => rintro ev w behind linked ⟨⟩
    case third => rintro ev w behind linked ⟨⟩
    case done => rintro ev w behind linked ⟨⟩
    case timely =>
      rintro e w ⟨place, x, watcher, unstopped, own⟩
      cases e with
      | succ e => cases place
      | zero =>
          obtain rfl : w = 0 := by simpa using (show w ∈ [0] from place)
          rfl
  exact watched_alive keeps 0 0 0 ⟨1, 7, some 0, 0, false⟩ List.mem_cons_self rfl rfl rfl

/-- A fiber whose wait has timed out completes, and the emitter still has its
watcher, which is not stopped and points to it. -/
theorem watcher_dangles :
    let s := run (fun (_ _ : Unit) => true)
      [.create 0, .wait 0 0 0 7 (), .process 0, .timeout 7, .fin 0]
    (s.emitters 0).list = [0] ∧ s.watchers 0 = some ⟨(), 7, some 0, 0, false⟩ ∧
      (s.fibers 0).life = .destroyed :=
  ⟨rfl, rfl, rfl⟩

end Scene

end Cyue.Watching
