import Cyue.Fiber.Respond

/-!
# Threads that do not meet

As long as no thread writes an element that another one is in the middle of using,
and no registered yield is left behind by a send that fails, the steps of the threads
amount to the large steps: a registration to the yield, the copy of a value to what is
done with it, the removal of an entry to its taking.
-/

namespace Cyue.Fibers

namespace Fabric

variable {W : Type} (s : Fabric W)

/-- What resuming a fiber leaves alone. -/
theorem resume_rest (t f : ℕ) (stimulus : Stimulus) (mem : Bool) :
    (s.resume t f stimulus mem).slot = s.slot ∧ (s.resume t f stimulus mem).elems = s.elems ∧
      (s.resume t f stimulus mem).used = s.used ∧ (s.resume t f stimulus mem).yields = s.yields ∧
      (s.resume t f stimulus mem).busy = s.busy := by
  unfold resume
  split_ifs <;> exact ⟨rfl, rfl, rfl, rfl, rfl⟩

theorem start_rest (t : ℕ) (endp : Endpoint) (msgid : ℕ) (got : Option ℕ) :
    (s.start t endp msgid got).slot = s.slot ∧ (s.start t endp msgid got).elems = s.elems ∧
      (s.start t endp msgid got).used = s.used ∧ (s.start t endp msgid got).yields = s.yields ∧
      (s.start t endp msgid got).busy = s.busy := by
  cases got with
  | none => exact ⟨rfl, rfl, rfl, rfl, rfl⟩
  | some f =>
      simp only [start]
      split_ifs <;> exact ⟨rfl, rfl, rfl, rfl, rfl⟩

end Fabric

/-! ## Steps that are apart -/

/-- The thread is in the middle of a write or of a read of the element. -/
def Work.Uses (e : ℕ) : Work → Prop
  | .set _ _ e' => e' = e
  | .expired e' _ => e' = e
  | .copying e' _ => e' = e
  | _ => False

namespace Threads

def Whole (s : Threads) (e : ℕ) : Prop := ∀ t member y, s.busy t ≠ some (.set member y e)

def Unused (s : Threads) (e : ℕ) : Prop := ∀ t w, s.busy t = some w → ¬ w.Uses e

/-- The entry of the msgid, if there is one, is not being written. -/
def Ready (s : Threads) (msgid : ℕ) : Prop := ∀ e, s.slot msgid = some e → s.Whole e

def Fresh (s : Threads) : Event → Prop
  | .yield _ key _ _ => s.Unissued key
  | _ => True

/-- The step does not get in the way of another thread, and leaves no entry behind. -/
def Apart (s : Threads) : Event → Prop
  | .recv _ _ (.response msgid) _ _ => s.Ready msgid
  | .watched _ _ msgid _ => s.Ready msgid
  | .resumeFiber _ msgid _ => s.Ready msgid
  | .visit _ e _ => s.heap e = false ∧ s.Whole e
  | .findAndErase t _ => ∀ msgid now, s.busy t = some (.erasing msgid now) → s.Ready msgid
  | .yield _ _ _ e => s.Unused e
  | .failed t => ∀ f key, s.busy t ≠ some (.sending f key)
  | .reuse e _ => s.Unused e
  | _ => True

def Clean (s : Threads) (event : Event) : Prop := s.Fresh event ∧ s.Apart event

end Threads

/-! ## How the threads look in large steps -/

namespace Work

/-- The msgid under which the fiber has registered a yield in which it is not suspended yet. -/
def registered (f : ℕ) : Work → Option ℕ
  | .set _ y _ => if y.f = f then some y.msgid else none
  | .sending f' key => if f' = f then some key else none
  | _ => none

def taken (elems : ℕ → Yielded) : Work → Option (ℕ × Stimulus)
  | .copying e stimulus => some ((elems e).f, stimulus)
  | _ => none

end Work

namespace Threads

def view (s : Threads) (f : ℕ) : Fiber :=
  match (s.busy (s.fibers f).owner).bind (Work.registered f) with
  | some key => { s.fibers f with co := .suspended key }
  | none => s.fibers f

def hand (s : Threads) (t : ℕ) : Option (ℕ × Stimulus) := (s.busy t).bind (Work.taken s.elems)

/-- The state in large steps; `elems` has the values that elements are going to have. -/
def large (s : Threads) (elems : ℕ → Yielded) : Atomic where
  fibers := s.view
  slot := s.slot
  elems := elems
  used := s.used
  fque := s.fque
  busy := s.hand
  started := s.started
  yields := s.yields
  reported := s.reported
  resumptions := s.resumptions
  sent := s.sent
  destroyed := s.destroyed

/-- The fiber runs on the thread, and is there to stay. -/
structure Sends (s : Threads) (t f : ℕ) : Prop where
  live : (s.fibers f).live = true
  co : (s.fibers f).co = .running
  owner : (s.fibers f).owner = t

/-- The limit of the yield that was registered under the msgid has passed. -/
def Overdue (s : Threads) (msgid now : ℕ) : Prop :=
  msgid = Msgid.invalid ∨ ∃ y ∈ s.yields, y.2.msgid = msgid ∧ y.2.limit < now

/-- The members in front of the one that is next have been written. -/
def Begun (member : Member) (y old : Yielded) : Prop :=
  match member with
  | .f => True
  | .msgid => old.f = y.f
  | .limit => old.f = y.f ∧ old.msgid = y.msgid

/-- What a thread in the middle of something can rely on. -/
def Meant (s : Threads) (elems : ℕ → Yielded) (t : ℕ) : Work → Prop
  | .set member y e =>
      s.Sends t y.f ∧ s.slot y.msgid = some e ∧ elems e = y ∧ Begun member y (s.elems e)
  | .sending f _ => s.Sends t f
  | .expired e now => s.Whole e ∧ s.Overdue (s.elems e).msgid now
  | .erasing msgid now => s.Overdue msgid now
  | .copying e _ => s.Whole e

/-- The elements have the values they are going to have, but for those that are written. -/
structure Fits (s : Threads) (elems : ℕ → Yielded) : Prop where
  settled : ∀ e, s.heap e = false → s.Whole e → elems e = s.elems e
  kept : ∀ e, s.used e = true → s.heap e = false
  meant : ∀ t w, s.busy t = some w → s.Meant elems t w

/-- The threads are where the large steps are. -/
structure Refines (c : Threads) (s : Atomic) : Prop where
  large : s = c.large s.elems
  fits : c.Fits s.elems
  good : s.Good

variable {c d : Threads} {elems : ℕ → Yielded} {t f e : ℕ} {w : Work}

/-! ## Views -/

theorem view_idle (idle : (c.busy (c.fibers f).owner).bind (Work.registered f) = none) :
    c.view f = c.fibers f := by
  rw [view, idle]

theorem view_registered {key : ℕ}
    (given : (c.busy (c.fibers f).owner).bind (Work.registered f) = some key) :
    c.view f = { c.fibers f with co := .suspended key } := by
  rw [view, given]

/-- Only the state of the coroutine may look different. -/
theorem view_eq (c : Threads) (f : ℕ) : ∃ co, c.view f = { c.fibers f with co } := by
  unfold view
  split
  · exact ⟨_, rfl⟩
  · exact ⟨_, rfl⟩

@[simp]
theorem view_live (c : Threads) (f : ℕ) : (c.view f).live = (c.fibers f).live := by
  obtain ⟨_, equal⟩ := c.view_eq f
  rw [equal]

@[simp]
theorem view_owner (c : Threads) (f : ℕ) : (c.view f).owner = (c.fibers f).owner := by
  obtain ⟨_, equal⟩ := c.view_eq f
  rw [equal]

/-- Threads that go on to stand behind the same registrations. -/
theorem view_congr (fibers : d.fibers = c.fibers)
    (same : ∀ f, (d.busy (c.fibers f).owner).bind (Work.registered f) =
      (c.busy (c.fibers f).owner).bind (Work.registered f)) : d.view = c.view := by
  funext f
  rw [view, view, fibers, same]

/-- A thread changes over to something that stands behind the same registrations. -/
theorem view_work {v : Option Work} (fibers : d.fibers = c.fibers)
    (busy : d.busy = Function.update c.busy t v)
    (same : ∀ f, v.bind (Work.registered f) = (c.busy t).bind (Work.registered f)) :
    d.view = c.view := by
  refine view_congr fibers fun f => ?_
  rw [busy]
  by_cases here : (c.fibers f).owner = t
  · rw [here, Function.update_self, same]
  · rw [Function.update_of_ne here]

/-- One fiber changes, which has no yield at hand. -/
theorem view_update {g : Fiber} (fibers : d.fibers = Function.update c.fibers f g)
    (busy : d.busy = c.busy) (idle : c.busy g.owner = none) :
    d.view = Function.update c.view f g := by
  funext f'
  by_cases same : f' = f
  · subst same
    rw [Function.update_self, view, fibers, Function.update_self, busy, idle]
    rfl
  · rw [Function.update_of_ne same, view, view, fibers, Function.update_of_ne same, busy]

theorem hand_idle (idle : c.busy t = none) : c.hand t = none := by
  rw [hand, idle]
  rfl

/-- A thread changes over to something else. -/
theorem hand_work {v : Option Work} (elems : d.elems = c.elems)
    (busy : d.busy = Function.update c.busy t v) :
    d.hand = Function.update c.hand t (v.bind (Work.taken c.elems)) := by
  funext t'
  by_cases same : t' = t
  · subst same
    rw [Function.update_self, hand, busy, Function.update_self, elems]
  · rw [Function.update_of_ne same, hand, hand, busy, Function.update_of_ne same, elems]

/-- What is held has been removed, so that writes of other elements leave it alone. -/
theorem hand_elems {y : Yielded} (busy : d.busy = c.busy)
    (elems : d.elems = Function.update c.elems e y)
    (unheld : ∀ t stimulus, c.busy t ≠ some (.copying e stimulus)) : d.hand = c.hand := by
  funext t
  rw [hand, hand, busy, elems]
  cases given : c.busy t with
  | none => rfl
  | some w =>
      cases w with
      | copying e' stimulus =>
          have other : e' ≠ e := by
            rintro rfl
            exact unheld t stimulus given
          simp only [Option.bind_some, Work.taken, Function.update_of_ne other]
      | _ => rfl

/-- A thread changes over to something that looks the same in large steps. -/
theorem large_work {v : Option Work}
    (registered : ∀ f, v.bind (Work.registered f) = (c.busy t).bind (Work.registered f))
    (taken : v.bind (Work.taken c.elems) = c.hand t) (elems : ℕ → Yielded) :
    ({ c with toFabric := c.work t v } : Threads).large elems = c.large elems := by
  have view := view_work (c := c) (d := { c with toFabric := c.work t v }) rfl rfl registered
  have hand := hand_work (c := c) (d := { c with toFabric := c.work t v }) rfl rfl
  rw [taken, Function.update_eq_self] at hand
  exact Fabric.ext view rfl rfl rfl rfl hand rfl rfl rfl rfl rfl rfl

/-! ## What a thread does alone -/

theorem large_resume (idle : c.busy t = none) (elems : ℕ → Yielded) (f : ℕ) (stimulus : Stimulus)
    (mem : Bool) : (c.large elems).resume t f stimulus mem =
      ({ c with toFabric := c.resume t f stimulus mem } : Threads).large elems := by
  have owner : ((c.large elems).fibers f).owner = (c.fibers f).owner := c.view_owner f
  unfold Fabric.resume
  rw [owner]
  split_ifs with own queued
  · have alone : c.view f = c.fibers f := view_idle (by rw [own, idle]; rfl)
    have view := view_update (c := c) (d := { c with toFabric := c.coResume f stimulus })
      (f := f) (g := { c.fibers f with co := .running }) rfl rfl (by rw [← idle, ← own])
    refine Fabric.ext ?_ rfl rfl rfl rfl rfl rfl rfl rfl ?_ rfl rfl
    · change Function.update c.view f { c.view f with co := .running } = _
      rw [alone]
      exact view.symm
    · change c.resumptions ++ [⟨(c.view f).serial, stimulus, (c.view f).co⟩] = _
      rw [alone]
      rfl
  · refine Fabric.ext rfl rfl rfl rfl ?_ rfl rfl rfl rfl rfl rfl rfl
    change Function.update c.fque ((c.large elems).fibers f).owner _ = _
    rw [owner]
    rfl
  · rfl

theorem large_deliver (idle : c.busy t = none) (elems : ℕ → Yielded) (f : ℕ) (stimulus : Stimulus)
    (mem : Bool) : (c.large elems).deliver t f stimulus mem =
      ({ c with toFabric := c.deliver t f stimulus mem } : Threads).large elems := by
  unfold Fabric.deliver
  split_ifs
  · exact large_resume idle elems f stimulus mem
  · rfl

theorem large_start (idle : c.busy t = none) (elems : ℕ → Yielded) (endp : Endpoint)
    (msgid : ℕ) (got : Option ℕ) : (c.large elems).start t endp msgid got =
      ({ c with toFabric := c.start t endp msgid got } : Threads).large elems := by
  cases got with
  | none => rfl
  | some f =>
      have live : ((c.large elems).fibers f).live = (c.fibers f).live := c.view_live f
      simp only [Fabric.start]
      rw [live]
      split_ifs with used
      · rfl
      · refine Fabric.ext ?_ rfl rfl rfl rfl rfl rfl rfl rfl rfl rfl rfl
        exact (view_update (c := c) (d := { c with toFabric := c.create t endp msgid f })
          (f := f) (g := ⟨true, msgid, endp, t, .running, c.started.length⟩) rfl rfl idle).symm

theorem large_runTask (idle : c.busy t = none) (elems : ℕ → Yielded) :
    (c.large elems).runTask t = ({ c with toFabric := c.runTask t } : Threads).large elems := by
  have queue : (c.large elems).fque t = c.fque t := rfl
  unfold Fabric.runTask
  rw [queue]
  split
  · rfl
  · next f stimulus rest _ =>
      exact large_resume (c := { c with toFabric := c.dequeue t rest }) idle elems f stimulus true

theorem large_finish (runs : c.Runs f) (elems : ℕ → Yielded) (o : Outcome) :
    (c.large elems).finish f o =
      ({ c with toFabric := c.toFabric.finish f o } : Threads).large elems := by
  have alone : c.view f = c.fibers f := view_idle (by rw [runs.2]; rfl)
  have gone (d : Threads) (fibers : d.fibers = c.fibers) (busy : d.busy = c.busy)
      (elems : ℕ → Yielded) : (d.large elems).fin f =
        ({ d with toFabric := d.fin f } : Threads).large elems := by
    have alone : d.view f = d.fibers f := view_idle (by rw [fibers, busy, runs.2]; rfl)
    have view := view_update (c := d) (d := { d with toFabric := d.fin f }) (f := f)
      (g := { d.fibers f with live := false, co := .over }) rfl rfl
      (by rw [fibers, busy]; exact runs.2)
    refine Fabric.ext ?_ rfl rfl rfl rfl rfl rfl rfl rfl rfl rfl ?_
    · change Function.update d.view f { d.view f with live := false, co := .over } = _
      rw [alone]
      exact view.symm
    · change d.destroyed ++ [(d.view f).serial] = _
      rw [alone]
      rfl
  have same : (c.large elems).fibers f = c.fibers f := alone
  cases o with
  | yield key limit e =>
      refine Fabric.ext rfl rfl rfl rfl rfl rfl rfl rfl ?_ rfl rfl rfl
      change c.reported ++ [((c.view f).serial, _)] = _
      rw [alone]
      rfl
  | finish =>
      unfold Fabric.finish Fabric.respond Fabric.send
      dsimp only
      rw [same]
      exact gone { c with
        reported := c.reported ++ [((c.fibers f).serial, .finish)]
        sent := c.sent ++ [⟨(c.fibers f).serial, (c.fibers f).endp,
          .response (c.fibers f).msgid⟩] } rfl rfl elems
  | error =>
      unfold Fabric.finish Fabric.respond Fabric.send
      dsimp only
      rw [same]
      exact gone { c with
        reported := c.reported ++ [((c.fibers f).serial, .error)]
        sent := c.sent ++ [⟨(c.fibers f).serial, (c.fibers f).endp,
          .error (c.fibers f).msgid⟩] } rfl rfl elems

/-! ## What a step keeps -/

/-- A thread stops or starts something that is no write. -/
theorem Whole.move {v : Option Work} (busy : d.busy = Function.update c.busy t v)
    (is : ∀ member y e, v ≠ some (.set member y e)) (whole : c.Whole e) : d.Whole e := by
  intro t' member y there
  rw [busy] at there
  by_cases same : t' = t
  · rw [same, Function.update_self] at there
    exact is member y e there
  · rw [Function.update_of_ne same] at there
    exact whole t' member y there

/-- A thread that is known to do something else is not writing an element. -/
theorem writes_none {v : Option Work} (given : c.busy t = v)
    (other : ∀ member y e, v ≠ some (.set member y e)) :
    ∀ member y e, c.busy t ≠ some (.set member y e) := by
  rw [given]
  exact other

theorem Whole.back {v : Option Work} (busy : d.busy = Function.update c.busy t v)
    (was : ∀ member y e, c.busy t ≠ some (.set member y e)) (whole : d.Whole e) : c.Whole e := by
  intro t' member y there
  by_cases same : t' = t
  · rw [same] at there
    exact was member y e there
  · refine whole t' member y ?_
    rw [busy, Function.update_of_ne same]
    exact there

/-- What a thread relies on, when others have taken a step. -/
theorem Meant.keep {elems' : ℕ → Yielded} (meant : c.Meant elems t w)
    (sends : ∀ f, c.Sends t f → d.Sends t f)
    (held : ∀ member y e, w = .set member y e → c.slot y.msgid = some e →
      d.slot y.msgid = some e ∧ elems' e = elems e)
    (memory : ∀ e, w.Uses e → d.elems e = c.elems e)
    (whole : ∀ e, w.Uses e → c.Whole e → d.Whole e)
    (yields : c.yields ⊆ d.yields) : d.Meant elems' t w := by
  have later : ∀ msgid now, c.Overdue msgid now → d.Overdue msgid now :=
    fun _ _ overdue => overdue.imp_right fun ⟨y, member, late⟩ => ⟨y, yields member, late⟩
  cases w with
  | set member y e =>
      obtain ⟨sending, entry, value, begun⟩ := meant
      obtain ⟨entry', value'⟩ := held member y e rfl entry
      exact ⟨sends y.f sending, entry', value'.trans value, memory e rfl ▸ begun⟩
  | sending f key => exact sends f meant
  | expired e now =>
      refine ⟨whole e rfl meant.1, ?_⟩
      rw [memory e rfl]
      exact later _ _ meant.2
  | erasing msgid now => exact later _ _ meant
  | copying e stimulus => exact whole e rfl meant

/-- The thread of a fiber does something that is no write, and leaves the map alone. -/
theorem Fits.move (fits : c.Fits elems) {v : Option Work}
    (slot : d.slot = c.slot) (memory : d.elems = c.elems) (heap : d.heap = c.heap)
    (used : d.used = c.used) (yields : d.yields = c.yields)
    (busy : d.busy = Function.update c.busy t v)
    (was : ∀ member y e, c.busy t ≠ some (.set member y e))
    (is : ∀ member y e, v ≠ some (.set member y e))
    (sends : ∀ t' f, t' ≠ t → c.Sends t' f → d.Sends t' f)
    (meant : ∀ w, v = some w → d.Meant elems t w) : d.Fits elems := by
  refine ⟨?_, ?_, ?_⟩
  · intro e given whole
    rw [memory]
    exact fits.settled e (heap ▸ given) (whole.back busy was)
  · intro e inUse
    rw [heap]
    exact fits.kept e (used ▸ inUse)
  · intro t' w there
    rw [busy] at there
    by_cases same : t' = t
    · rw [same, Function.update_self] at there
      rw [same]
      exact meant w there
    · rw [Function.update_of_ne same] at there
      refine (fits.meant t' w there).keep (fun f => sends t' f same) ?_ ?_ ?_ ?_
      · exact fun _ _ _ _ held => ⟨slot ▸ held, rfl⟩
      · exact fun e _ => by rw [memory]
      · exact fun _ _ whole => whole.move busy is
      · exact yields ▸ List.Subset.refl _

/-- What a thread does that is in the middle of nothing, before and after. -/
theorem Fits.alone (fits : c.Fits elems) (idle : c.busy t = none)
    (slot : d.slot = c.slot) (memory : d.elems = c.elems) (heap : d.heap = c.heap)
    (used : d.used = c.used) (yields : d.yields = c.yields) (busy : d.busy = c.busy)
    (sends : ∀ t' f, t' ≠ t → c.Sends t' f → d.Sends t' f) : d.Fits elems := by
  have still : d.busy = Function.update c.busy t none := by
    rw [busy, ← idle, Function.update_eq_self]
  have was := writes_none idle (by rintro _ _ _ ⟨⟩)
  exact fits.move slot memory heap used yields still was (by rintro _ _ _ ⟨⟩) sends
    (by rintro _ ⟨⟩)

/-- Another thread's fiber is not the one that changes here. -/
theorem Sends.other {g : Fiber} {t' f' : ℕ} (sends : c.Sends t' f') (other : f' ≠ f)
    (fibers : d.fibers = Function.update c.fibers f g) : d.Sends t' f' := by
  refine ⟨?_, ?_, ?_⟩ <;> rw [fibers, Function.update_of_ne other]
  · exact sends.live
  · exact sends.co
  · exact sends.owner

theorem Sends.congr {t' f' : ℕ} (sends : c.Sends t' f') (fibers : d.fibers = c.fibers) :
    d.Sends t' f' := by
  refine ⟨?_, ?_, ?_⟩ <;> rw [fibers]
  · exact sends.live
  · exact sends.co
  · exact sends.owner

/-- Two threads do not write one element. -/
theorem Fits.writer_unique (fits : c.Fits elems) {t' : ℕ} {member member' : Member} {y y' : Yielded}
    (here : c.busy t = some (.set member y e)) (there : c.busy t' = some (.set member' y' e)) :
    t = t' := by
  obtain ⟨sends, _, value, _⟩ := fits.meant t _ here
  obtain ⟨sends', _, value', _⟩ := fits.meant t' _ there
  have same : y = y' := value.symm.trans value'
  rw [same] at sends
  exact sends.owner.symm.trans sends'.owner

namespace Refines

variable {s : Atomic} {stimulus : Stimulus}

theorem fibers_eq (refines : c.Refines s) : s.fibers = c.view := congrArg Fabric.fibers refines.large

theorem slot_eq (refines : c.Refines s) : s.slot = c.slot := congrArg Fabric.slot refines.large

theorem used_eq (refines : c.Refines s) : s.used = c.used := congrArg Fabric.used refines.large

theorem busy_eq (refines : c.Refines s) : s.busy = c.hand := congrArg Fabric.busy refines.large

theorem yields_eq (refines : c.Refines s) : s.yields = c.yields :=
  congrArg Fabric.yields refines.large

/-- A step that is none of the large ones. -/
theorem stay (refines : c.Refines s) (large : d.large s.elems = c.large s.elems)
    (fits : d.Fits s.elems) : d.Refines s :=
  ⟨refines.large.trans large.symm, fits, refines.good⟩

/-- An entry holds the yield that was registered under its key. -/
theorem entry (refines : c.Refines s) {key : ℕ} (held : c.slot key = some e) (ready : c.Ready key) :
    s.elems e = c.elems e ∧ (c.elems e).msgid = key := by
  rw [← refines.slot_eq] at held
  have inUse := Sound.used refines.good.sound key e held
  rw [refines.used_eq] at inUse
  rw [refines.slot_eq] at held
  have value := refines.fits.settled e (refines.fits.kept e inUse) (ready e held)
  refine ⟨value, ?_⟩
  rw [← value]
  exact Sound.msgid refines.good.sound key e (refines.slot_eq ▸ held)

/-- A visited element with a limit that has passed. -/
theorem overdue (refines : c.Refines s) {now : ℕ} (free : c.heap e = false) (whole : c.Whole e)
    (late : (c.elems e).limit < now) : c.Overdue (c.elems e).msgid now := by
  have value := refines.fits.settled e free whole
  rcases refines.good.matched.elem e with invalid | ⟨n, registered⟩
  · exact .inl (value ▸ invalid)
  · rw [value, refines.yields_eq] at registered
    exact .inr ⟨_, registered, rfl, late⟩

/-- An entry is only found for a msgid that is overdue if its own limit has passed. -/
theorem elapsed (refines : c.Refines s) {msgid now : ℕ} (overdue : c.Overdue msgid now)
    (held : c.slot msgid = some e) (ready : c.Ready msgid) :
    (s.elems e).msgid = msgid ∧ (s.elems e).limit < now := by
  obtain ⟨value, own⟩ := refines.entry held ready
  have waits := Sound.entry refines.good.sound msgid e (refines.slot_eq ▸ held)
  obtain ⟨y, issued, same⟩ := refines.good.matched.issued _ _ waits.co
  rw [value]
  refine ⟨own, ?_⟩
  rcases overdue with rfl | ⟨z, registered, equal, late⟩
  · exact absurd same (refines.good.matched.valid _ issued)
  · rw [← refines.yields_eq] at registered
    rcases refines.good.matched.elem e with invalid | ⟨n, elem⟩
    · rw [value, own] at invalid
      exact absurd (same.trans invalid) (refines.good.matched.valid _ issued)
    · rw [value] at elem
      have one := refines.good.matched.yield_unique elem registered (own.trans equal.symm)
      rw [← one] at late
      exact late

/-! ## The timeout check, up to the removal -/

theorem visit (refines : c.Refines s) (idle : c.busy t = none) (now : ℕ) (free : c.heap e = false)
    (whole : c.Whole e) : (c.visit t e now).Refines s := by
  unfold Threads.visit
  split_ifs with late
  · refine refines.stay (large_work (fun f => ?_) ?_ _) ?_
    · rw [idle]
      rfl
    · rw [hand_idle idle]
      rfl
    refine refines.fits.move rfl rfl rfl rfl rfl rfl (by rw [idle]; nofun) (by nofun)
      (fun _ _ _ sends => sends.congr rfl) ?_
    rintro _ ⟨⟩
    exact ⟨whole.move rfl (by nofun), refines.overdue free whole late⟩
  · exact refines

theorem readMsgid (refines : c.Refines s) : (c.readMsgid t).Refines s := by
  unfold Threads.readMsgid
  split
  · next e now given =>
      obtain ⟨-, overdue⟩ := refines.fits.meant t _ given
      refine refines.stay (large_work (fun f => ?_) ?_ _) ?_
      · rw [given]
        rfl
      · rw [hand, given]
        rfl
      refine refines.fits.move rfl rfl rfl rfl rfl rfl (by rw [given]; nofun) (by nofun)
        (fun _ _ _ sends => sends.congr rfl) ?_
      rintro _ ⟨⟩
      exact overdue
  · exact refines

end Refines

end Threads

end Cyue.Fibers
