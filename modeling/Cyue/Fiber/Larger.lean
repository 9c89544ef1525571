import Cyue.Fiber.Refines

/-!
# Which steps are large ones

Step by step: what the threads do alone, and one step of each removal, copy and
registration, is a large step; the other steps change nothing that shows there.
-/

namespace Cyue.Fibers.Threads

/-- The large step that a step amounts to, if it does to one. -/
def larger (c : Threads) : Event → Option Fibers.Event
  | .recv t endp message got _ => if c.busy t = none then some (.recv t endp message got) else none
  | .watched t id msgid _ => if c.busy t = none then some (.watched t id msgid) else none
  | .resumeFiber t msgid _ => if c.busy t = none then some (.resumeFiber t msgid) else none
  | .findAndErase t _ =>
      match c.busy t with
      | some (.erasing msgid now) => (c.slot msgid).map fun e => .visit t e now
      | _ => none
  | .copy t mem => some (.give t mem)
  | .task t => if c.busy t = none then some (.task t) else none
  | .spawn t got => if c.busy t = none then some (.spawn t got) else none
  | .yield f key limit e =>
      if c.Runs f ∧ c.Gives key e then some (.outcome f (.yield key limit e)) else none
  | .finish f => if c.Runs f then some (.outcome f .finish) else none
  | .error f => if c.Runs f then some (.outcome f .error) else none
  | _ => none

/-- What a step amounts to, apart from when. -/
inductive Amounts : Event → Fibers.Event → Prop where
  | recv (t : ℕ) (endp : Endpoint) (message : Message) (got : Option ℕ) (back : Bool) :
      Amounts (.recv t endp message got back) (.recv t endp message got)
  | watched (t : ℕ) (id : EventId) (msgid : ℕ) (back : Bool) :
      Amounts (.watched t id msgid back) (.watched t id msgid)
  | resumeFiber (t msgid : ℕ) (back : Bool) :
      Amounts (.resumeFiber t msgid back) (.resumeFiber t msgid)
  | erased (t e now : ℕ) (back : Bool) : Amounts (.findAndErase t back) (.visit t e now)
  | copy (t : ℕ) (mem : Bool) : Amounts (.copy t mem) (.give t mem)
  | task (t : ℕ) : Amounts (.task t) (.task t)
  | spawn (t : ℕ) (got : Option ℕ) : Amounts (.spawn t got) (.spawn t got)
  | yield (f key limit e : ℕ) : Amounts (.yield f key limit e) (.outcome f (.yield key limit e))
  | finish (f : ℕ) : Amounts (.finish f) (.outcome f .finish)
  | error (f : ℕ) : Amounts (.error f) (.outcome f .error)

variable {c d : Threads} {s : Atomic} {elems : ℕ → Yielded} {t f e key : ℕ} {stimulus : Stimulus}

theorem larger_amounts {event : Event} {large : Fibers.Event} (member : large ∈ c.larger event) :
    Amounts event large := by
  cases event with
  | findAndErase t back =>
      simp only [larger] at member
      split at member
      · obtain ⟨e, -, rfl⟩ := Option.map_eq_some_iff.mp member
        exact .erased t e _ back
      · cases member
  | copy t mem =>
      cases member
      exact .copy t mem
  | visit t e now => cases member
  | readMsgid t => cases member
  | write t => cases member
  | posted t => cases member
  | failed t => cases member
  | reuse e y => cases member
  | _ =>
      simp only [larger] at member
      split_ifs at member
      · cases member
        constructor
      · cases member

namespace Refines

theorem of_large (large : s = c.large elems) (fits : c.Fits elems) (good : s.Good) :
    c.Refines s := by
  have same : s.elems = elems := by
    rw [large]
    rfl
  exact ⟨same ▸ large, same ▸ fits, good⟩

/-! ## A thread on its own -/

/-- A thread that is in the middle of nothing does something at once. -/
theorem alone (refines : c.Refines s) {event : Fibers.Event} {t : ℕ}
    (large : s.step event = d.large s.elems) (fresh : Fibers.Fresh s event)
    (idle : c.busy t = none) (slot : d.slot = c.slot) (memory : d.elems = c.elems)
    (heap : d.heap = c.heap) (used : d.used = c.used) (yields : d.yields = c.yields)
    (busy : d.busy = c.busy) (sends : ∀ t' f, t' ≠ t → c.Sends t' f → d.Sends t' f) :
    d.Refines (s.step event) :=
  of_large large (refines.fits.alone idle slot memory heap used yields busy sends)
    (refines.good.step fresh)

/-- The fibers of other threads are none that the thread resumes. -/
theorem sends_resume (t f : ℕ) (stimulus : Stimulus) (mem : Bool) {t' f' : ℕ} (other : t' ≠ t)
    (sends : c.Sends t' f') :
    ({ c with toFabric := c.resume t f stimulus mem } : Threads).Sends t' f' := by
  unfold Fabric.resume
  split_ifs with own
  · refine sends.other (f := f) (g := { c.fibers f with co := .running }) ?_ rfl
    rintro rfl
    exact other (sends.owner.symm.trans own)
  · exact sends.congr rfl
  · exact sends

theorem sends_start (t : ℕ) (endp : Endpoint) (msgid : ℕ) (got : Option ℕ) {t' f' : ℕ}
    (sends : c.Sends t' f') :
    ({ c with toFabric := c.start t endp msgid got } : Threads).Sends t' f' := by
  cases got with
  | none => exact sends
  | some f =>
      simp only [Fabric.start]
      split_ifs with live
      · exact sends
      · refine sends.other (f := f)
          (g := ⟨true, msgid, endp, t, .running, c.started.length⟩) ?_ rfl
        rintro rfl
        exact live sends.live

theorem start (refines : c.Refines s) (idle : c.busy t = none) (endp : Endpoint) (msgid : ℕ)
    (got : Option ℕ) (event : Fibers.Event) (fresh : Fibers.Fresh s event)
    (is : s.step event = s.start t endp msgid got) :
    ({ c with toFabric := c.start t endp msgid got } : Threads).Refines (s.step event) := by
  obtain ⟨slot, memory, used, yields, busy⟩ := Fabric.start_rest c.toFabric t endp msgid got
  refine refines.alone (is.trans ?_) fresh idle slot memory rfl used yields busy
    fun t' f' _ sends => sends_start t endp msgid got sends
  have large := large_start idle s.elems endp msgid got
  rw [← refines.large] at large
  exact large

theorem task (refines : c.Refines s) (idle : c.busy t = none) :
    ({ c with toFabric := c.runTask t } : Threads).Refines (s.step (.task t)) := by
  have large := large_runTask idle s.elems
  rw [← refines.large] at large
  revert large
  unfold Fabric.runTask
  cases queue : c.fque t with
  | nil =>
      intro large
      exact refines.alone large trivial idle rfl rfl rfl rfl rfl rfl fun _ _ _ sends => sends
  | cons first rest =>
      obtain ⟨f, stimulus⟩ := first
      intro large
      obtain ⟨slot, memory, used, yields, busy⟩ := Fabric.resume_rest (c.dequeue t rest) t f stimulus true
      exact refines.alone large trivial idle slot memory rfl used yields busy fun t' f' other sends =>
        sends_resume (c := { c with toFabric := c.dequeue t rest }) t f stimulus true other
          (sends.congr rfl)

/-- A coroutine that runs comes to its end. -/
theorem finish (refines : c.Refines s) (runs : c.Runs f) {o : Outcome}
    (ends : ∀ key limit e, o ≠ .yield key limit e) :
    ({ c with toFabric := c.toFabric.finish f o } : Threads).Refines (s.step (.outcome f o)) := by
  have runs' : (s.fibers f).co = .running := by
    rw [refines.fibers_eq, view_idle (by rw [runs.2]; rfl)]
    exact runs.1
  have large := large_finish runs s.elems o
  rw [← refines.large] at large
  have other (t' f' : ℕ) (differs : t' ≠ (c.fibers f).owner) (sends : c.Sends t' f') : f' ≠ f := by
    rintro rfl
    exact differs sends.owner.symm
  cases o with
  | yield key limit e => exact absurd rfl (ends key limit e)
  | finish =>
      refine refines.alone ?_ trivial runs.2 rfl rfl rfl rfl rfl rfl fun t' f' differs sends =>
        sends.other (g := { c.fibers f with live := false, co := .over })
          (other t' f' differs sends) rfl
      refine Eq.trans ?_ large
      exact if_pos ⟨runs', trivial⟩
  | error =>
      refine refines.alone ?_ trivial runs.2 rfl rfl rfl rfl rfl rfl fun t' f' differs sends =>
        sends.other (g := { c.fibers f with live := false, co := .over })
          (other t' f' differs sends) rfl
      refine Eq.trans ?_ large
      exact if_pos ⟨runs', trivial⟩

/-! ## Removal and copy -/

/-- What is left of an entry that the thread takes, in large steps. -/
theorem remove_large (refines : c.Refines s) (stimulus : Stimulus)
    (quiet : ∀ f, (c.busy t).bind (Work.registered f) = none) (empty : s.busy t = none)
    (held : c.slot stimulus.msgid = some e) (value : s.elems e = c.elems e) (back : Bool) :
    s.take t stimulus = ({ c with
      toFabric := (c.erase stimulus.msgid e).work t (some (.copying e stimulus))
      heap := Function.update c.heap e back } : Threads).large s.elems := by
  have held' : s.slot stimulus.msgid = some e := (congrFun refines.slot_eq _).trans held
  have taken : s.take t stimulus =
      (s.erase stimulus.msgid e).work t (some ((s.elems e).f, stimulus)) := by
    simp only [Atomic.take, empty, held']
  have view := view_work (c := c) (t := t) (v := some (.copying e stimulus))
    (d := { c with
      toFabric := (c.erase stimulus.msgid e).work t (some (.copying e stimulus))
      heap := Function.update c.heap e back }) rfl rfl fun f => (quiet f).symm
  have hand := hand_work (c := c) (t := t) (v := some (.copying e stimulus))
    (d := { c with
      toFabric := (c.erase stimulus.msgid e).work t (some (.copying e stimulus))
      heap := Function.update c.heap e back }) rfl rfl
  rw [taken, value, refines.large]
  exact Fabric.ext view.symm rfl rfl rfl rfl hand.symm rfl rfl rfl rfl rfl rfl

/-- The element of an entry that is taken is given back, and the other threads go on. -/
theorem remove_fits (fits : c.Fits elems) (held : c.slot stimulus.msgid = some e)
    (value : elems e = c.elems e) (whole : c.Whole e)
    (was : ∀ member y e, c.busy t ≠ some (.set member y e)) (back : Bool) :
    ({ c with
      toFabric := (c.erase stimulus.msgid e).work t (some (.copying e stimulus))
      heap := Function.update c.heap e back } : Threads).Fits elems := by
  refine ⟨?_, ?_, ?_⟩
  · intro e' given whole'
    by_cases same : e' = e
    · rw [same]
      exact value
    · have given : c.heap e' = false := by
        rw [← given]
        exact (Function.update_of_ne same back c.heap).symm
      exact fits.settled e' given (whole'.back rfl was)
  · intro e' inUse
    change Function.update c.used e false e' = true at inUse
    have other : e' ≠ e := by
      rintro rfl
      rw [Function.update_self] at inUse
      cases inUse
    rw [Function.update_of_ne other] at inUse
    exact (Function.update_of_ne other back c.heap).trans (fits.kept e' inUse)
  · intro t' w there
    change Function.update c.busy t (some (.copying e stimulus)) t' = some w at there
    by_cases same : t' = t
    · rw [same, Function.update_self] at there
      cases there
      exact whole.move rfl (by rintro _ _ _ ⟨⟩)
    · rw [Function.update_of_ne same] at there
      refine (fits.meant t' w there).keep (fun _ sends => sends.congr rfl) ?_
        (fun _ _ => rfl) (fun _ _ whole => whole.move rfl (by rintro _ _ _ ⟨⟩))
        (List.Subset.refl _)
      rintro member y e' rfl entry
      refine ⟨?_, rfl⟩
      -- an entry that is being written is not the one that is removed
      have other : y.msgid ≠ stimulus.msgid := by
        intro equal
        rw [equal, held] at entry
        cases entry
        exact whole t' member y there
      exact (Function.update_of_ne other none c.slot).trans entry

/-- An entry is taken by a thread that stands behind no registration and holds nothing. -/
theorem remove (refines : c.Refines s) (stimulus : Stimulus)
    (quiet : ∀ f, (c.busy t).bind (Work.registered f) = none) (empty : c.hand t = none)
    (was : ∀ member y e, c.busy t ≠ some (.set member y e)) (ready : c.Ready stimulus.msgid)
    (back : Bool) : s.take t stimulus = (c.remove t stimulus back).large s.elems ∧
      (c.remove t stimulus back).Fits s.elems := by
  have empty' : s.busy t = none := (congrFun refines.busy_eq t).trans empty
  unfold Threads.remove
  cases held : c.slot stimulus.msgid with
  | none =>
      have held' : s.slot stimulus.msgid = none := (congrFun refines.slot_eq _).trans held
      have nothing : s.take t stimulus = s := by simp only [Atomic.take, empty', held']
      refine ⟨nothing.trans (refines.large.trans ?_), ?_⟩
      · exact (large_work (v := none) (fun f => (quiet f).symm) empty.symm s.elems).symm
      · exact refines.fits.move rfl rfl rfl rfl rfl rfl was (by rintro _ _ _ ⟨⟩)
          (fun _ _ _ sends => sends.congr rfl) (by rintro _ ⟨⟩)
  | some e =>
      obtain ⟨value, -⟩ := refines.entry held ready
      exact ⟨refines.remove_large stimulus quiet empty' held value back,
        remove_fits refines.fits held value (ready e held) was back⟩

/-- A message, an event or a call takes an entry. -/
theorem taken (refines : c.Refines s) (event : Fibers.Event) (fresh : Fibers.Fresh s event)
    (is : s.step event = s.take t stimulus) (idle : c.busy t = none)
    (ready : c.Ready stimulus.msgid) (back : Bool) :
    (c.remove t stimulus back).Refines (s.step event) := by
  have was := writes_none idle (by rintro _ _ _ ⟨⟩)
  obtain ⟨large, fits⟩ := refines.remove stimulus (fun f => by rw [idle]; rfl)
    (hand_idle idle) was ready back
  exact of_large (is.trans large) fits (refines.good.step fresh)

/-- The timeout check takes an entry. -/
theorem findAndErase (refines : c.Refines s) (back : Bool)
    (ready : ∀ msgid now, c.busy t = some (.erasing msgid now) → c.Ready msgid) :
    (c.findAndErase t back).Refines
      ((c.larger (.findAndErase t back)).toList.foldl Atomic.step s) := by
  cases given : c.busy t with
  | none =>
      simp only [Threads.findAndErase, larger, given]
      exact refines
  | some w =>
      cases w with
      | erasing msgid now =>
          have overdue := refines.fits.meant t _ given
          have ready := ready msgid now given
          have was := writes_none given (by rintro _ _ _ ⟨⟩)
          obtain ⟨large, fits⟩ := refines.remove (.timeout msgid now)
            (fun f => by rw [given]; rfl) (by rw [hand, given]; rfl) was ready back
          simp only [Threads.findAndErase, larger, given]
          cases held : c.slot msgid with
          | none =>
              have empty : s.busy t = none := by
                rw [refines.busy_eq, hand, given]
                rfl
              have nothing : s.take t (.timeout msgid now) = s := by
                simp only [Atomic.take, empty, Stimulus.msgid, refines.slot_eq, held]
              exact of_large (nothing.symm.trans large) fits refines.good
          | some e =>
              obtain ⟨own, late⟩ := refines.elapsed overdue held ready
              have is : s.step (.visit t e now) = s.take t (.timeout msgid now) := by
                change s.timeout t e now = _
                unfold Atomic.timeout
                rw [if_pos late, own]
              have good : (s.step (.visit t e now)).Good := refines.good.step trivial
              exact of_large (is.trans large) fits good
      | _ =>
          simp only [Threads.findAndErase, larger, given]
          exact refines

theorem hand_copying (given : c.busy t = some (.copying e stimulus)) :
    c.hand t = some ((c.elems e).f, stimulus) := by
  rw [hand, given]
  rfl

/-- What was removed is handed on. -/
theorem copy (refines : c.Refines s) (mem : Bool) :
    (c.copy t mem).Refines (s.step (.give t mem)) := by
  have nothing (free : c.hand t = none) : s.step (.give t mem) = s := by
    rw [← refines.busy_eq] at free
    simp only [Atomic.step, Atomic.give, free]
  unfold Threads.copy
  split
  case h_1 e stimulus given =>
    have holds := hand_copying given
    have gives : s.step (.give t mem) =
        Fabric.deliver (s.work t none) t (c.elems e).f stimulus mem := by
      rw [← refines.busy_eq] at holds
      simp only [Atomic.step, Atomic.give, holds]
    have idle : (c.work t none).busy t = none := Function.update_self ..
    have view := view_work (c := c) (t := t) (v := none)
      (d := { c with toFabric := c.work t none }) rfl rfl fun f => by rw [given]; rfl
    have hand := hand_work (c := c) (t := t) (v := none)
      (d := { c with toFabric := c.work t none }) rfl rfl
    have put : s.work t none =
        ({ c with toFabric := c.work t none } : Threads).large s.elems := by
      refine Fabric.ext (refines.fibers_eq.trans view.symm) refines.slot_eq rfl refines.used_eq ?_ ?_
        ?_ ?_ ?_ ?_ ?_ ?_
      all_goals try rw [refines.large]; rfl
      change Function.update s.busy t none = _
      rw [refines.busy_eq]
      exact hand.symm
    have large := large_deliver (c := { c with toFabric := c.work t none }) idle s.elems
      (c.elems e).f stimulus mem
    rw [← put] at large
    refine of_large (gives.trans large) ?_ (refines.good.step trivial)
    unfold Fabric.deliver
    have was := writes_none given (by rintro _ _ _ ⟨⟩)
    split_ifs
    · obtain ⟨slot, memory, used, yields, busy⟩ :=
        Fabric.resume_rest (c.work t none) t (c.elems e).f stimulus mem
      refine refines.fits.move slot memory rfl used yields busy was (by rintro _ _ _ ⟨⟩)
        (fun t' f' other sends => ?_) (by rintro _ ⟨⟩)
      exact sends_resume (c := { c with toFabric := c.work t none }) t (c.elems e).f stimulus mem
        other (sends.congr rfl)
    · exact refines.fits.move rfl rfl rfl rfl rfl rfl was (by rintro _ _ _ ⟨⟩)
        (fun _ _ _ sends => sends.congr rfl) (by rintro _ ⟨⟩)
  case h_2 other =>
    rw [nothing]
    · exact refines
    · unfold hand
      cases given : c.busy t with
      | none => rfl
      | some w =>
          cases w with
          | copying e stimulus => exact absurd given (other e stimulus)
          | _ => rfl

/-! ## Registration -/

/-- A msgid that no yield has had has no entry. -/
theorem slot_none (refines : c.Refines s) (unissued : c.Unissued key) : c.slot key = none := by
  cases held : c.slot key with
  | none => rfl
  | some e =>
      have waits := Sound.entry refines.good.sound key e (refines.slot_eq ▸ held)
      obtain ⟨y, issued, same⟩ := refines.good.matched.issued _ _ waits.co
      rw [refines.yields_eq] at issued
      exact absurd (List.mem_map.mpr ⟨_, issued, same⟩) unissued.2

theorem view_register (limit : ℕ) (runs : c.Runs f) (fibers : d.fibers = c.fibers)
    (busy : d.busy = Function.update c.busy (c.fibers f).owner
      (some (.set .f ⟨f, limit, key⟩ e))) :
    d.view = Function.update c.view f { c.fibers f with co := .suspended key } := by
  funext f'
  by_cases same : f' = f
  · rw [same, Function.update_self, ← fibers]
    refine view_registered ?_
    rw [fibers, busy, Function.update_self]
    exact if_pos rfl
  · rw [Function.update_of_ne same, view, view, fibers, busy]
    by_cases here : (c.fibers f').owner = (c.fibers f).owner
    · have other : Work.registered f' (.set .f ⟨f, limit, key⟩ e) = none := if_neg (Ne.symm same)
      rw [here, Function.update_self, runs.2, Option.bind_some, other]
      rfl
    · rw [Function.update_of_ne here]

/-- A registration in large steps, where the map has no element for the key. -/
theorem report_yield (s : Atomic) (fresh : s.slot key = none) (f limit e : ℕ) :
    s.report f (.yield key limit e) = { s with
      fibers := Function.update s.fibers f { s.fibers f with co := .suspended key }
      slot := Function.update s.slot key (some e)
      elems := Function.update s.elems e ⟨f, limit, key⟩
      used := Function.update s.used e true
      yields := s.yields ++ [((s.fibers f).serial, ⟨f, limit, key⟩)]
      reported := s.reported ++ [((s.fibers f).serial, .yield key limit e)] } := by
  have new : (s.slot key).getD e = e := by
    rw [fresh]
    rfl
  unfold Fabric.report Fabric.suspend Fabric.yield Fabric.record
  dsimp only
  rw [new]

theorem yield_eq (c : Threads) (fresh : c.slot key = none) (f limit e : ℕ) :
    c.yield f key limit e = { c with
      slot := Function.update c.slot key (some e)
      elems := Function.update c.elems e ⟨0, 0, Msgid.invalid⟩
      used := Function.update c.used e true
      busy := Function.update c.busy (c.fibers f).owner (some (.set .f ⟨f, limit, key⟩ e))
      yields := c.yields ++ [((c.fibers f).serial, ⟨f, limit, key⟩)]
      reported := c.reported ++ [((c.fibers f).serial, .yield key limit e)]
      heap := Function.update c.heap e false } := by
  simp only [Threads.yield, alloc, fresh]
  rfl

theorem yield_hand (runs : c.Runs f) (fresh : c.slot key = none) (unused : c.Unused e)
    (limit : ℕ) : (c.yield f key limit e).hand = c.hand := by
  rw [yield_eq c fresh]
  funext t
  unfold hand
  dsimp only
  by_cases here : t = (c.fibers f).owner
  · rw [here, Function.update_self, runs.2]
    rfl
  · rw [Function.update_of_ne here]
    cases given : c.busy t with
    | none => rfl
    | some w =>
        cases w with
        | copying e' stimulus =>
            have other : e' ≠ e := by
              rintro rfl
              exact unused t _ given rfl
            simp only [Option.bind_some, Work.taken, Function.update_of_ne other]
        | _ => rfl

theorem yield_fits (fits : c.Fits elems) (runs : c.Runs f) (live : (c.fibers f).live = true)
    (fresh : c.slot key = none) (unused : c.Unused e) (limit : ℕ) :
    (c.yield f key limit e).Fits (Function.update elems e ⟨f, limit, key⟩) := by
  have was := writes_none runs.2 (by rintro _ _ _ ⟨⟩)
  rw [yield_eq c fresh]
  refine ⟨?_, ?_, ?_⟩
  · intro e' given whole
    have other : e' ≠ e := by
      rintro rfl
      exact whole _ _ _ (Function.update_self ..)
    have free : c.heap e' = false := (Function.update_of_ne other false c.heap).symm.trans given
    exact (Function.update_of_ne other ..).trans
      ((fits.settled e' free (whole.back rfl was)).trans (Function.update_of_ne other ..).symm)
  · intro e' inUse
    change Function.update c.used e true e' = true at inUse
    change Function.update c.heap e false e' = false
    by_cases same : e' = e
    · rw [same, Function.update_self]
    · rw [Function.update_of_ne same] at inUse ⊢
      exact fits.kept e' inUse
  · intro t w there
    change Function.update c.busy (c.fibers f).owner _ t = some w at there
    by_cases here : t = (c.fibers f).owner
    · rw [here, Function.update_self] at there
      cases there
      rw [here]
      exact ⟨⟨live, runs.1, rfl⟩, Function.update_self .., Function.update_self .., trivial⟩
    · rw [Function.update_of_ne here] at there
      have others : ∀ e', w.Uses e' → e' ≠ e := by
        rintro e' uses rfl
        exact unused t w there uses
      refine (fits.meant t w there).keep (fun _ sends => sends.congr rfl) ?_ ?_ ?_ ?_
      · rintro member y e' rfl held
        have other : y.msgid ≠ key := by
          rintro equal
          rw [equal, fresh] at held
          cases held
        exact ⟨(Function.update_of_ne other ..).trans held, Function.update_of_ne (others e' rfl) ..⟩
      · exact fun e' uses => Function.update_of_ne (others e' uses) ..
      · intro e' uses whole t' member y there'
        change Function.update c.busy (c.fibers f).owner _ t' = _ at there'
        by_cases here' : t' = (c.fibers f).owner
        · rw [here', Function.update_self] at there'
          cases there'
          exact others _ uses rfl
        · rw [Function.update_of_ne here'] at there'
          exact whole t' member y there'
      · exact List.subset_append_left ..

/-- A coroutine registers its yield: in large steps it is suspended in it already. -/
theorem yield (refines : c.Refines s) (runs : c.Runs f) (gives : c.Gives key e)
    (unissued : c.Unissued key) (unused : c.Unused e) (limit : ℕ) :
    (c.yield f key limit e).Refines (s.step (.outcome f (.yield key limit e))) := by
  have fresh := refines.slot_none unissued
  have fresh' : s.slot key = none := (congrFun refines.slot_eq key).trans fresh
  have alone : c.view f = c.fibers f := view_idle (by rw [runs.2]; rfl)
  have fiber : s.fibers f = c.fibers f := (congrFun refines.fibers_eq f).trans alone
  have running : (s.fibers f).co = .running := fiber ▸ runs.1
  have allows : s.Gives key e := by
    unfold Fabric.Gives
    rw [refines.slot_eq, refines.used_eq]
    exact gives
  have good : (s.step (.outcome f (.yield key limit e))).Good := by
    refine refines.good.step ?_
    change s.Unissued key
    unfold Fabric.Unissued
    rw [refines.yields_eq]
    exact unissued
  have fits := yield_fits refines.fits runs (fiber ▸ Sound.running refines.good.sound f running)
    fresh unused limit
  have large : s.step (.outcome f (.yield key limit e)) =
      (c.yield f key limit e).large (Function.update s.elems e ⟨f, limit, key⟩) := by
    have view := view_register (d := c.yield f key limit e) (e := e) limit runs
      (by rw [yield_eq c fresh]) (by rw [yield_eq c fresh])
    have hand := yield_hand runs fresh unused limit
    have is : s.step (.outcome f (.yield key limit e)) = s.report f (.yield key limit e) :=
      if_pos ⟨running, allows⟩
    rw [yield_eq c fresh] at view hand ⊢
    rw [is, report_yield s fresh', fiber, refines.large]
    exact Fabric.ext view.symm rfl rfl rfl rfl hand.symm rfl rfl rfl rfl rfl rfl
  exact of_large large fits good

/-- What a member leaves for the next one, or for the last. -/
theorem begun_next {member : Member} {y old : Yielded} (begun : Begun member y old) :
    match member.next with
    | some member' => Begun member' y (member.write old y)
    | none => member.write old y = y := by
  cases member with
  | f => rfl
  | msgid => exact ⟨begun, rfl⟩
  | limit =>
      obtain ⟨fiber, msgid⟩ := begun
      change ({ old with limit := y.limit } : Yielded) = y
      rw [fiber, msgid]

/-- The writes of other threads are in other elements. -/
theorem uses_other (fits : c.Fits elems) {member : Member} {y : Yielded} {t' : ℕ} {w : Work}
    (given : c.busy t = some (.set member y e)) (other : t' ≠ t) (there : c.busy t' = some w) {e' : ℕ}
    (uses : w.Uses e') : e' ≠ e := by
  rintro rfl
  have meant := fits.meant t' w there
  cases w with
  | set member' y' e' =>
      cases uses
      exact other (fits.writer_unique there given)
  | expired e' now =>
      cases uses
      exact meant.1 t member y given
  | copying e' stimulus =>
      cases uses
      exact meant t member y given
  | sending f key => exact uses
  | erasing msgid now => exact uses

/-- What a thread does after the write of a member. -/
def afterwards (member : Member) (y : Yielded) (e : ℕ) : Work :=
  match member.next with
  | some member => .set member y e
  | none => .sending y.f y.msgid

theorem write_eq {member : Member} {y : Yielded} (given : c.busy t = some (.set member y e)) :
    c.write t = { c with
      elems := Function.update c.elems e (member.write (c.elems e) y)
      busy := Function.update c.busy t (some (afterwards member y e)) } := by
  simp only [Threads.write, given]
  cases member <;> rfl

/-- A member is written; in large steps the yield was there at once. -/
theorem write_fits (fits : c.Fits elems) {member : Member} {y : Yielded}
    (given : c.busy t = some (.set member y e)) : (c.write t).Fits elems := by
  obtain ⟨sends, held, value, begun⟩ := fits.meant t _ given
  have after := begun_next begun
  have written : Function.update c.elems e (member.write (c.elems e) y) e =
      member.write (c.elems e) y := Function.update_self ..
  have others : ∀ {member' : Member} {y' : Yielded} {e' : ℕ},
      afterwards member y e = .set member' y' e' → e' = e := by
    intro member' y' e' is
    cases member <;> cases is <;> rfl
  rw [write_eq given]
  refine ⟨?_, fits.kept, ?_⟩
  · intro e' free whole
    by_cases same : e' = e
    · subst same
      refine Eq.trans ?_ written.symm
      cases member with
      | f => exact absurd (Function.update_self ..) (whole t .msgid y)
      | msgid => exact absurd (Function.update_self ..) (whole t .limit y)
      | limit => exact value.trans after.symm
    · refine (fits.settled e' free fun t' member' y' there => ?_).trans
        (Function.update_of_ne same ..).symm
      by_cases here : t' = t
      · rw [here, given] at there
        cases there
        exact same rfl
      · exact whole t' member' y' ((Function.update_of_ne here ..).trans there)
  · intro t' w there
    change Function.update c.busy t _ t' = some w at there
    by_cases here : t' = t
    · rw [here, Function.update_self] at there
      cases there
      rw [here]
      cases member with
      | f => exact ⟨sends.congr rfl, held, value, (congrArg (Begun .msgid y) written).mpr after⟩
      | msgid => exact ⟨sends.congr rfl, held, value, (congrArg (Begun .limit y) written).mpr after⟩
      | limit => exact sends.congr rfl
    · rw [Function.update_of_ne here] at there
      refine (fits.meant t' w there).keep (fun _ sends => sends.congr rfl)
        (fun _ _ _ _ held => ⟨held, rfl⟩) ?_ ?_ (List.Subset.refl _)
      · exact fun e' uses => Function.update_of_ne (uses_other fits given here there uses) ..
      · intro e' uses whole t'' member' y' there'
        change Function.update c.busy t _ t'' = _ at there'
        by_cases here' : t'' = t
        · rw [here', Function.update_self] at there'
          exact uses_other fits given here there uses (others (Option.some.inj there'))
        · rw [Function.update_of_ne here'] at there'
          exact whole t'' member' y' there'

/-- The thread holds nothing, and what others hold is not in the element. -/
theorem write_hand (fits : c.Fits elems) {member : Member} {y : Yielded}
    (given : c.busy t = some (.set member y e)) : (c.write t).hand = c.hand := by
  have moved := hand_work (c := c) (v := some (afterwards member y e))
    (d := { c with busy := Function.update c.busy t (some (afterwards member y e)) }) rfl rfl
  have nothing : (some (afterwards member y e)).bind (Work.taken c.elems) = c.hand t := by
    rw [hand, given]
    cases member <;> rfl
  rw [nothing, Function.update_eq_self] at moved
  rw [← moved]
  refine hand_elems (e := e) (by rw [write_eq given]) (by rw [write_eq given]) ?_
  intro t' stimulus there
  by_cases here : t' = t
  · rw [here] at there
    change Function.update c.busy t (some (afterwards member y e)) t = _ at there
    rw [Function.update_self] at there
    cases member <;> cases there
  · exact uses_other fits given here ((Function.update_of_ne here ..).symm.trans there)
      (show Work.Uses e (.copying e stimulus) from rfl) rfl

theorem write (refines : c.Refines s) : (c.write t).Refines s := by
  by_cases writes : ∃ member y e, c.busy t = some (.set member y e)
  · obtain ⟨member, y, e, given⟩ := writes
    refine refines.stay ?_ (write_fits refines.fits given)
    have view := view_work (c := c) (d := c.write t) (t := t) (v := some (afterwards member y e))
      (by rw [write_eq given]) (by rw [write_eq given]) fun f => by rw [given]; cases member <;> rfl
    have hand := write_hand refines.fits given
    rw [write_eq given] at view hand ⊢
    exact Fabric.ext view rfl rfl rfl rfl hand rfl rfl rfl rfl rfl rfl
  · have same : c.write t = c := by
      unfold Threads.write
      split
      case h_1 member y e given => exact absurd ⟨member, y, e, given⟩ writes
      case h_2 => rfl
    rw [same]
    exact refines

/-- A coroutine that has registered its yield looks suspended before it is. -/
theorem posted_view (given : c.busy t = some (.sending f key)) (owner : (c.fibers f).owner = t) :
    ({ c with toFabric := (c.suspend f key).work t none } : Threads).view = c.view := by
  funext f'
  by_cases same : f' = f
  · subst same
    have before : c.view f' = { c.fibers f' with co := .suspended key } := by
      refine view_registered ?_
      rw [owner, given]
      exact if_pos rfl
    rw [before, view_idle]
    · exact Function.update_self ..
    · change (Function.update c.busy t none (Function.update c.fibers f' _ f').owner).bind _ = _
      rw [Function.update_self]
      change (Function.update c.busy t none (c.fibers f').owner).bind _ = _
      rw [owner, Function.update_self]
      rfl
  · have fiber : Function.update c.fibers f { c.fibers f with co := .suspended key } f' =
        c.fibers f' := Function.update_of_ne same ..
    unfold Threads.view Fabric.work Fabric.suspend
    dsimp only
    rw [fiber]
    by_cases here : (c.fibers f').owner = t
    · have other : Work.registered f' (.sending f key) = none := if_neg (Ne.symm same)
      rw [here, Function.update_self, given, Option.bind_some, other]
      rfl
    · rw [Function.update_of_ne here]

/-- What was sent is on its way; in large steps the coroutine was suspended before. -/
theorem posted (refines : c.Refines s) : (c.posted t).Refines s := by
  unfold Threads.posted
  split
  case h_2 => exact refines
  case h_1 f key given =>
      have sends := refines.fits.meant t _ given
      have hand := hand_work (c := c) (t := t) (v := none)
        (d := { c with toFabric := (c.suspend f key).work t none }) rfl rfl
      have nothing : (none : Option Work).bind (Work.taken c.elems) = c.hand t := by
        rw [Threads.hand, given]
        rfl
      rw [nothing, Function.update_eq_self] at hand
      refine refines.stay (Fabric.ext (posted_view given sends.owner) rfl rfl rfl rfl hand
        rfl rfl rfl rfl rfl rfl) ?_
      refine refines.fits.move rfl rfl rfl rfl rfl rfl (writes_none given (by rintro _ _ _ ⟨⟩))
        (by rintro _ _ _ ⟨⟩) (fun t' f' other sends' => ?_) (by rintro _ ⟨⟩)
      refine sends'.other (f := f) (g := { c.fibers f with co := .suspended key }) ?_ rfl
      rintro rfl
      exact other (sends'.owner.symm.trans sends.owner)

/-- The heap uses memory that no thread is in the middle of using. -/
theorem reuse (refines : c.Refines s) (given : c.heap e = true) (unused : c.Unused e)
    (y : Yielded) :
    ({ c with elems := Function.update c.elems e y } : Threads).Refines s := by
  have hand := hand_elems (c := c) (d := { c with elems := Function.update c.elems e y }) rfl rfl
    fun t stimulus there => unused t _ there rfl
  refine refines.stay (Fabric.ext rfl rfl rfl rfl rfl hand rfl rfl rfl rfl rfl rfl) ⟨?_, ?_, ?_⟩
  · intro e' free whole
    have other : e' ≠ e := by
      rintro rfl
      cases given.symm.trans free
    exact (refines.fits.settled e' free whole).trans (Function.update_of_ne other ..).symm
  · exact refines.fits.kept
  · intro t w there
    refine (refines.fits.meant t w there).keep (fun _ sends => sends.congr rfl)
      (fun _ _ _ _ held => ⟨held, rfl⟩) ?_ (fun _ _ whole => whole) (List.Subset.refl _)
    intro e' uses
    refine Function.update_of_ne ?_ ..
    rintro rfl
    exact unused t w there uses

/-! ## Steps and runs -/

theorem init_refines : Threads.init.Refines .init :=
  ⟨rfl, ⟨fun _ _ _ => rfl, fun _ _ => rfl, by rintro _ _ ⟨⟩⟩, Atomic.init_good⟩

theorem larger_fresh (refines : c.Refines s) {event : Event} (clean : c.Clean event) :
    ∀ large ∈ c.larger event, Fibers.Fresh s large := by
  intro large member
  cases larger_amounts member with
  | yield f key limit e =>
      change s.Unissued key
      unfold Fabric.Unissued
      rw [refines.yields_eq]
      exact clean.1
  | _ => trivial

/-- A step that keeps apart amounts to a large step or to none. -/
theorem step (refines : c.Refines s) {event : Event} (clean : c.Clean event) :
    (c.step event).Refines ((c.larger event).toList.foldl Atomic.step s) := by
  obtain ⟨fresh, apart⟩ := clean
  cases event with
  | recv t endp message got back =>
      simp only [Threads.step, larger]
      split_ifs with idle
      · cases message with
        | request msgid => exact refines.start idle endp msgid got (.recv t endp (.request msgid) got) trivial rfl
        | response msgid =>
            exact refines.taken (.recv t endp (.response msgid) got) trivial rfl idle apart back
        | other => exact refines
      · exact refines
  | watched t id msgid back =>
      simp only [Threads.step, larger]
      split_ifs with idle
      · exact refines.taken (.watched t id msgid) trivial rfl idle apart back
      · exact refines
  | resumeFiber t msgid back =>
      simp only [Threads.step, larger]
      split_ifs with idle
      · exact refines.taken (.resumeFiber t msgid) trivial rfl idle apart back
      · exact refines
  | visit t e now =>
      simp only [Threads.step, larger]
      split_ifs with idle
      · exact refines.visit idle now apart.1 apart.2
      · exact refines
  | readMsgid t => exact refines.readMsgid
  | findAndErase t back => exact refines.findAndErase back apart
  | copy t mem => exact refines.copy mem
  | task t =>
      simp only [Threads.step, larger]
      split_ifs with idle
      · exact refines.task idle
      · exact refines
  | spawn t got =>
      simp only [Threads.step, larger]
      split_ifs with idle
      · exact refines.start idle .nop Msgid.invalid got (.spawn t got) trivial rfl
      · exact refines
  | yield f key limit e =>
      simp only [Threads.step, larger]
      split_ifs with allowed
      · exact refines.yield allowed.1 allowed.2 fresh apart limit
      · exact refines
  | write t => exact refines.write
  | posted t => exact refines.posted
  | failed t =>
      have same : c.step (.failed t) = c := by
        simp only [Threads.step, Threads.failed]
        split
        case h_1 f key given => exact absurd given (apart f key)
        case h_2 => rfl
      rw [same]
      exact refines
  | finish f =>
      simp only [Threads.step, larger]
      split_ifs with runs
      · exact refines.finish runs (by rintro _ _ _ ⟨⟩)
      · exact refines
  | error f =>
      simp only [Threads.step, larger]
      split_ifs with runs
      · exact refines.finish runs (by rintro _ _ _ ⟨⟩)
      · exact refines
  | reuse e y =>
      simp only [Threads.step, larger]
      split_ifs with given
      · exact refines.reuse given apart y
      · exact refines

end Refines

/-- A run whose steps keep apart amounts to a run in large steps. -/
theorem run_refines {events : List Event} (clean : Run.Along step Clean init events) :
    ∃ larger, Run.Along Atomic.step Fibers.Fresh .init larger ∧
      (run events).Refines (Atomic.run larger) :=
  Run.simulated Refines
    (fun _ _ _ refines clean =>
      ⟨_, Run.along_toList (refines.larger_fresh clean), refines.step clean⟩)
    Refines.init_refines clean

end Cyue.Fibers.Threads
