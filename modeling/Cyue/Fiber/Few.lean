import Cyue.Fiber.Refines

/-!
# Runs of few threads

Where only the first `n` threads do anything, whether a step gets in the way of another
thread can be computed.
-/

namespace Cyue.Fibers

namespace Work

def Writes (e : ℕ) : Work → Prop
  | .set _ _ e' => e' = e
  | _ => False

instance (e : ℕ) : DecidablePred (Writes e) := fun w => by
  cases w <;> unfold Writes <;> infer_instance

instance (e : ℕ) : DecidablePred (Uses e) := fun w => by
  cases w <;> unfold Uses <;> infer_instance

def Sending : Work → Prop
  | .sending _ _ => True
  | _ => False

instance : DecidablePred Sending := fun w => by
  cases w <;> unfold Sending <;> infer_instance

end Work

namespace Threads

def WholeBelow (n : ℕ) (s : Threads) (e : ℕ) : Prop := ∀ t < n, ∀ w ∈ s.busy t, ¬ w.Writes e

instance (n : ℕ) (s : Threads) (e : ℕ) : Decidable (s.WholeBelow n e) :=
  inferInstanceAs (Decidable (∀ t < n, ∀ w ∈ s.busy t, ¬ w.Writes e))

def UnusedBelow (n : ℕ) (s : Threads) (e : ℕ) : Prop := ∀ t < n, ∀ w ∈ s.busy t, ¬ w.Uses e

instance (n : ℕ) (s : Threads) (e : ℕ) : Decidable (s.UnusedBelow n e) :=
  inferInstanceAs (Decidable (∀ t < n, ∀ w ∈ s.busy t, ¬ w.Uses e))

def erases (s : Threads) (t : ℕ) : Option ℕ :=
  match s.busy t with
  | some (.erasing msgid _) => s.slot msgid
  | _ => none

/-- The thread that takes the step, if it is one of its own. -/
def Event.thread : Event → Option ℕ
  | .recv t _ _ _ _ | .watched t _ _ _ | .resumeFiber t _ _ | .visit t _ _ | .readMsgid t
  | .findAndErase t _ | .copy t _ | .task t | .spawn t _ | .write t | .posted t | .failed t =>
      some t
  | .yield .. | .finish _ | .error _ | .reuse _ _ => none

def ApartBelow (n : ℕ) (s : Threads) : Event → Prop
  | .recv _ _ (.response msgid) _ _ | .watched _ _ msgid _ | .resumeFiber _ msgid _ =>
      ∀ e ∈ s.slot msgid, s.WholeBelow n e
  | .visit _ e _ => s.heap e = false ∧ s.WholeBelow n e
  | .findAndErase t _ => ∀ e ∈ s.erases t, s.WholeBelow n e
  | .yield _ _ _ e => s.UnusedBelow n e
  | .failed t => ∀ w ∈ s.busy t, ¬ w.Sending
  | .reuse e _ => s.UnusedBelow n e
  | _ => True

def CleanBelow (n : ℕ) (s : Threads) (event : Event) : Prop :=
  (∀ t ∈ event.thread, t < n) ∧ s.Fresh event ∧ s.ApartBelow n event

instance (s : Threads) (event : Event) : Decidable (s.Fresh event) := by
  unfold Fresh
  split <;> infer_instance

instance (n : ℕ) (s : Threads) (event : Event) : Decidable (s.ApartBelow n event) := by
  unfold ApartBelow
  split <;> infer_instance

instance (n : ℕ) (s : Threads) (event : Event) : Decidable (s.CleanBelow n event) :=
  inferInstanceAs (Decidable (_ ∧ _ ∧ _))

/-- The others are in the middle of nothing, and have no fibers. -/
structure Few (n : ℕ) (s : Threads) : Prop where
  busy : ∀ t, n ≤ t → s.busy t = none
  owner : ∀ f, (s.fibers f).owner < n

variable {n : ℕ} {s d : Threads} {event : Event}

theorem Few.whole (few : s.Few n) {e : ℕ} (whole : s.WholeBelow n e) : s.Whole e := by
  intro t member y given
  rcases Nat.lt_or_ge t n with below | beyond
  · exact whole t below _ given rfl
  · rw [few.busy t beyond] at given
    cases given

theorem Few.unused (few : s.Few n) {e : ℕ} (unused : s.UnusedBelow n e) : s.Unused e := by
  intro t w given
  rcases Nat.lt_or_ge t n with below | beyond
  · exact unused t below w given
  · rw [few.busy t beyond] at given
    cases given

theorem Few.clean (few : s.Few n) (clean : s.CleanBelow n event) : s.Clean event := by
  obtain ⟨-, fresh, apart⟩ := clean
  refine ⟨fresh, ?_⟩
  cases event with
  | recv t endp message got back =>
      cases message with
      | response msgid => exact fun e held => few.whole (apart e held)
      | _ => trivial
  | watched t id msgid back => exact fun e held => few.whole (apart e held)
  | resumeFiber t msgid back => exact fun e held => few.whole (apart e held)
  | visit t e now => exact ⟨apart.1, few.whole apart.2⟩
  | findAndErase t back =>
      intro msgid now given e held
      refine few.whole (apart e ?_)
      simp only [erases, given]
      exact held
  | yield f key limit e => exact few.unused apart
  | failed t => exact fun f key given => apart _ given trivial
  | reuse e y => exact few.unused apart
  | _ => trivial

/-- A step gives one of the threads something else to do, and a fiber to no other one. -/
theorem Few.move (few : s.Few n) {t : ℕ} (below : t < n) {v : Option Work}
    (busy : d.busy = s.busy ∨ d.busy = Function.update s.busy t v)
    (owner : ∀ f, (d.fibers f).owner = (s.fibers f).owner ∨ (d.fibers f).owner = t) : d.Few n := by
  refine ⟨fun t' beyond => ?_, fun f => ?_⟩
  · rcases busy with same | moved
    · rw [same]
      exact few.busy t' beyond
    · rw [moved, Function.update_of_ne (by omega)]
      exact few.busy t' beyond
  · rcases owner f with same | new
    · rw [same]
      exact few.owner f
    · rw [new]
      exact below

/-- Whatever becomes of a fiber, its owner does not change. -/
theorem owner_update {fibers : ℕ → Fiber} {f : ℕ} {g : Fiber} (same : g.owner = (fibers f).owner)
    (f' : ℕ) : (Function.update fibers f g f').owner = (fibers f').owner := by
  by_cases here : f' = f
  · rw [here, Function.update_self, same]
  · rw [Function.update_of_ne here]

theorem resume_owner {W : Type} (s : Fabric W) (t f : ℕ) (stimulus : Stimulus) (mem : Bool)
    (f' : ℕ) : ((s.resume t f stimulus mem).fibers f').owner = (s.fibers f').owner := by
  unfold Fabric.resume
  split_ifs
  · exact owner_update (f := f) (g := { s.fibers f with co := .running }) rfl f'
  · rfl
  · rfl

theorem start_owner {W : Type} (s : Fabric W) (t : ℕ) (endp : Endpoint) (msgid : ℕ)
    (got : Option ℕ) (f' : ℕ) : ((s.start t endp msgid got).fibers f').owner = (s.fibers f').owner ∨
      ((s.start t endp msgid got).fibers f').owner = t := by
  cases got with
  | none => exact .inl rfl
  | some f =>
      simp only [Fabric.start]
      split_ifs
      · exact .inl rfl
      · by_cases here : f' = f
        · refine .inr ?_
          change (Function.update s.fibers f _ f').owner = t
          rw [here, Function.update_self]
        · exact .inl (congrArg Fiber.owner (Function.update_of_ne here ..))

theorem Few.remove (few : s.Few n) {t : ℕ} (below : t < n) (stimulus : Stimulus) (back : Bool) :
    (s.remove t stimulus back).Few n := by
  unfold Threads.remove
  split <;> exact few.move below (.inr rfl) fun _ => .inl rfl

theorem Few.start (few : s.Few n) {t : ℕ} (below : t < n) (endp : Endpoint) (msgid : ℕ)
    (got : Option ℕ) : ({ s with toFabric := s.start t endp msgid got } : Threads).Few n := by
  obtain ⟨-, -, -, -, busy⟩ := Fabric.start_rest s.toFabric t endp msgid got
  exact few.move (v := none) below (.inl busy) (start_owner s.toFabric t endp msgid got)

theorem Few.resume (few : s.Few n) {t : ℕ} (below : t < n) (f : ℕ) (stimulus : Stimulus)
    (mem : Bool) : ({ s with toFabric := s.resume t f stimulus mem } : Threads).Few n := by
  obtain ⟨-, -, -, -, busy⟩ := Fabric.resume_rest s.toFabric t f stimulus mem
  exact few.move (v := none) below (.inl busy) fun f' => .inl (resume_owner _ t f stimulus mem f')

theorem Few.finish (few : s.Few n) (f : ℕ) (o : Outcome) :
    ({ s with toFabric := s.toFabric.finish f o } : Threads).Few n := by
  have gone := owner_update (f := f)
    (g := { s.fibers f with live := false, co := .over }) rfl
  refine few.move (v := none) (few.owner f) (.inl ?_) fun f' => .inl ?_
  · cases o <;> rfl
  · cases o with
    | yield key limit e => rfl
    | finish => exact gone f'
    | error => exact gone f'

theorem Few.yield (few : s.Few n) (f key limit e : ℕ) : (s.yield f key limit e).Few n := by
  have alloc : (s.alloc key e).2.busy = s.busy ∧ (s.alloc key e).2.fibers = s.fibers := by
    unfold Threads.alloc
    split <;> exact ⟨rfl, rfl⟩
  refine few.move (v := some (.set .f ⟨f, limit, key⟩ (s.alloc key e).1)) (few.owner f) (.inr ?_)
    fun f' => .inl ?_
  · change Function.update (s.alloc key e).2.busy ((s.alloc key e).2.fibers f).owner _ = _
    rw [alloc.1, alloc.2]
    rfl
  · change ((s.alloc key e).2.fibers f').owner = _
    rw [alloc.2]

theorem Few.step (few : s.Few n) (below : ∀ t ∈ event.thread, t < n) : (s.step event).Few n := by
  cases event with
  | recv t endp message got back =>
      simp only [Threads.step]
      split_ifs
      · cases message with
        | request msgid => exact few.start (below t rfl) endp msgid got
        | response msgid => exact few.remove (below t rfl) (.response msgid) back
        | other => exact few
      · exact few
  | watched t id msgid back =>
      simp only [Threads.step]
      split_ifs
      · exact few.remove (below t rfl) (.watched id msgid) back
      · exact few
  | resumeFiber t msgid back =>
      simp only [Threads.step]
      split_ifs
      · exact few.remove (below t rfl) (.resumed msgid) back
      · exact few
  | visit t e now =>
      simp only [Threads.step, Threads.visit]
      split_ifs
      · exact few.move (below t rfl) (.inr rfl) fun _ => .inl rfl
      · exact few
      · exact few
  | readMsgid t =>
      simp only [Threads.step, Threads.readMsgid]
      split
      · exact few.move (below t rfl) (.inr rfl) fun _ => .inl rfl
      · exact few
  | findAndErase t back =>
      simp only [Threads.step, Threads.findAndErase]
      split
      · exact few.remove (below t rfl) _ back
      · exact few
  | copy t mem =>
      simp only [Threads.step, Threads.copy, Fabric.deliver]
      split
      · have put : ({ s with toFabric := s.work t none } : Threads).Few n :=
          few.move (below t rfl) (.inr rfl) fun _ => .inl rfl
        split_ifs
        · exact put.resume (below t rfl) _ _ mem
        · exact put
      · exact few
  | task t =>
      simp only [Threads.step, Fabric.runTask]
      split_ifs
      · split
        · exact few
        · next f stimulus rest _ =>
            have shorter : ({ s with toFabric := s.dequeue t rest } : Threads).Few n :=
              few.move (v := none) (below t rfl) (.inl rfl) fun _ => .inl rfl
            exact shorter.resume (below t rfl) f stimulus true
      · exact few
  | spawn t got =>
      simp only [Threads.step]
      split_ifs
      · exact few.start (below t rfl) .nop Msgid.invalid got
      · exact few
  | yield f key limit e =>
      simp only [Threads.step]
      split_ifs
      · exact few.yield f key limit e
      · exact few
  | write t =>
      simp only [Threads.step, Threads.write]
      split
      · exact few.move (below t rfl) (.inr rfl) fun _ => .inl rfl
      · exact few
  | posted t =>
      simp only [Threads.step, Threads.posted]
      split
      · next f key _ =>
          refine few.move (below t rfl) (.inr rfl) fun f' => .inl ?_
          exact owner_update (f := f)
            (g := { s.fibers f with co := .suspended key }) rfl f'
      · exact few
  | failed t =>
      simp only [Threads.step, Threads.failed]
      split
      · exact few.move (below t rfl) (.inr rfl) fun _ => .inl rfl
      · exact few
  | finish f =>
      simp only [Threads.step]
      split_ifs
      · exact few.finish f .finish
      · exact few
  | error f =>
      simp only [Threads.step]
      split_ifs
      · exact few.finish f .error
      · exact few
  | reuse e y =>
      simp only [Threads.step]
      split_ifs
      · exact ⟨few.busy, few.owner⟩
      · exact few

theorem init_few (positive : 0 < n) : Threads.init.Few n := ⟨fun _ _ => rfl, fun _ => positive⟩

/-- A run of few threads, of which it was computed that they keep apart. -/
theorem clean_of_below (positive : 0 < n) {events : List Event}
    (clean : Run.Along Threads.step (CleanBelow n) init events) :
    Run.Along Threads.step Clean init events :=
  Run.Along.gives (Few n) (init_few positive) (fun _ _ few clean => few.step clean.1)
    (fun _ _ few clean => few.clean clean) clean

end Threads

end Cyue.Fibers
