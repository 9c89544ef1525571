import Cyue.Fiber.Pending

/-!
# What an event comes to

Every event of the fabric is one of a few turns: a thread may take an entry of the
map, it may hand on what it holds, so that a fiber is resumed or its owner told to,
a fiber may be started, or a run of a coroutine may end.  The invariants of a run go
through these turns.
-/

namespace Cyue.Fibers

/-- Only a timeout asks for more than its msgid: an element with the msgid whose
limit has passed. -/
def Elapsed (elems : ℕ → Yielded) : Stimulus → Prop
  | .timeout msgid now => ∃ e, (elems e).msgid = msgid ∧ (elems e).limit < now
  | _ => True

def Brought (event : Event) : Stimulus → Prop
  | .response msgid => ∃ t endp got, event = .recv t endp (.response msgid) got
  | _ => True

inductive Begins : Event → Endpoint × ℕ → Prop where
  | request (t : ℕ) (endp : Endpoint) (msgid : ℕ) (got : Option ℕ) :
      Begins (.recv t endp (.request msgid) got) (endp, msgid)
  | spawn (t : ℕ) (got : Option ℕ) : Begins (.spawn t got) (.nop, Msgid.invalid)

/-- What is done with an entry that has been taken; it is only dropped where it is not `heard`. -/
inductive Taken (s : Atomic) (f : ℕ) (stimulus : Stimulus) : Bool → Atomic → Prop where
  | dropped : Taken s f stimulus false s
  | queued {heard : Bool} : Taken s f stimulus heard (s.mpush f stimulus)
  | resumed {heard : Bool} : Taken s f stimulus heard (s.coResume f stimulus)

inductive Turn (s : Atomic) : Event → Atomic → Prop where
  | nothing {event : Event} : Turn s event s
  | start {event : Event} {t msgid f : ℕ} {endp : Endpoint} (begins : Begins event (endp, msgid))
      (free : (s.fibers f).live = false) : Turn s event (s.create t endp msgid f)
  | take {event : Event} {t e : ℕ} {stimulus : Stimulus} (brought : Brought event stimulus)
      (empty : s.busy t = none) (held : s.slot stimulus.msgid = some e)
      (elapsed : Elapsed s.elems stimulus) :
      Turn s event ((s.erase stimulus.msgid e).work t (some ((s.elems e).f, stimulus)))
  | give {t f : ℕ} {stimulus : Stimulus} {mem : Bool} {s' : Atomic}
      (held : s.busy t = some (f, stimulus))
      (taken : Taken (s.work t none) f stimulus (mem && Fabric.resumes stimulus) s') :
      Turn s (.give t mem) s'
  | task {event : Event} {t f : ℕ} {stimulus : Stimulus} {rest : List (ℕ × Stimulus)}
      (queue : s.fque t = (f, stimulus) :: rest) :
      Turn s event ((s.dequeue t rest).coResume f stimulus)
  | report {f : ℕ} {o : Outcome} (running : (s.fibers f).co = .running) (allows : s.Allows o) :
      Turn s (.outcome f o) (s.report f o)

/-- What was taken before is handed on, and nothing of it is on record anew. -/
theorem Taken.records {s s' : Atomic} {f : ℕ} {stimulus : Stimulus} {heard : Bool}
    (taken : Taken s f stimulus heard s') :
    s'.started = s.started ∧ s'.sent = s.sent ∧ s'.yields = s.yields ∧ s'.slot = s.slot := by
  cases taken <;> exact ⟨rfl, rfl, rfl, rfl⟩

namespace Atomic

variable {s s' : Atomic} {event : Event} {t f key e : ℕ} {stimulus : Stimulus}

protected def Sound (s : Atomic) : Prop := Sound s.fibers s.slot s.elems s.used s.busy s.fque

theorem init_sound : Atomic.Sound .init where
  used key e held := by cases held
  msgid key e held := by cases held
  entry key e held := by cases held
  task t f stimulus member := by cases member
  once t := List.nodup_nil
  apart t f stimulus key e member := by cases member
  held t f stimulus held := by cases held
  hands t t' f stimulus stimulus' held := by cases held
  gone t f stimulus held := by cases held
  running f run := by cases run

/-! ## Each event is a turn -/

theorem resume_taken (s : Atomic) (t f : ℕ) (stimulus : Stimulus) (mem : Bool) :
    Taken s f stimulus mem (s.resume t f stimulus mem) := by
  unfold Fabric.resume
  split_ifs with own room
  · exact .resumed
  · exact .queued
  · rw [Bool.eq_false_of_not_eq_true room]
    exact .dropped

theorem deliver_taken (s : Atomic) (t f : ℕ) (stimulus : Stimulus) (mem : Bool) :
    Taken s f stimulus (mem && Fabric.resumes stimulus) (s.deliver t f stimulus mem) := by
  unfold Fabric.deliver
  split_ifs with resumes
  · rw [resumes, Bool.and_true]
    exact resume_taken s t f stimulus mem
  · rw [Bool.eq_false_of_not_eq_true resumes, Bool.and_false]
    exact .dropped

/-- An entry is taken, if there is one for the msgid. -/
theorem take_turn (s : Atomic) (t : ℕ) (stimulus : Stimulus) (brought : Brought event stimulus)
    (elapsed : Elapsed s.elems stimulus) : Turn s event (s.take t stimulus) := by
  unfold take
  split
  · next e empty held => exact .take brought empty held elapsed
  · exact .nothing

theorem give_turn (s : Atomic) (t : ℕ) (mem : Bool) : Turn s (.give t mem) (s.give t mem) := by
  unfold give
  split
  · exact .nothing
  · next f stimulus held => exact .give held (deliver_taken _ t f stimulus mem)

theorem start_turn (s : Atomic) (t : ℕ) (endp : Endpoint) (msgid : ℕ) (got : Option ℕ)
    (begins : Begins event (endp, msgid)) : Turn s event (s.start t endp msgid got) := by
  cases got with
  | none => exact .nothing
  | some f =>
      simp only [Fabric.start]
      split_ifs with live
      · exact .nothing
      · exact .start begins (Bool.eq_false_of_not_eq_true live)

theorem recv_turn (s : Atomic) (t : ℕ) (endp : Endpoint) (message : Message) (got : Option ℕ) :
    Turn s (.recv t endp message got) (s.recv t endp message got) := by
  cases message with
  | request msgid => exact s.start_turn t endp msgid got (.request t endp msgid got)
  | response msgid => exact s.take_turn t (.response msgid) ⟨t, endp, got, rfl⟩ trivial
  | other => exact .nothing

theorem timeout_turn (s : Atomic) (t e now : ℕ) : Turn s event (s.timeout t e now) := by
  unfold timeout
  split_ifs with late
  · exact s.take_turn t (.timeout (s.elems e).msgid now) trivial ⟨e, rfl, late⟩
  · exact .nothing

theorem runTask_turn (sound : s.Sound) (t : ℕ) : Turn s event (s.runTask t) := by
  cases queue : s.fque t with
  | nil =>
      simp only [Fabric.runTask, queue]
      exact .nothing
  | cons task rest =>
      have here : task ∈ s.fque t := by
        rw [queue]
        exact List.mem_cons_self
      have owner : (s.fibers task.1).owner = t := (sound.task t task.1 task.2 here).2
      have now : s.runTask t = (s.dequeue t rest).coResume task.1 task.2 := by
        simp only [Fabric.runTask, queue, Fabric.resume]
        exact if_pos owner
      rw [now]
      exact .task queue

theorem step_turn (sound : s.Sound) (event : Event) : Turn s event (s.step event) := by
  cases event with
  | recv t endp message got => exact s.recv_turn t endp message got
  | watched t id msgid => exact s.take_turn t (.watched id msgid) trivial trivial
  | resumeFiber t msgid => exact s.take_turn t (.resumed msgid) trivial trivial
  | visit t e now => exact s.timeout_turn t e now
  | give t mem => exact s.give_turn t mem
  | task t => exact runTask_turn sound t
  | spawn t got => exact s.start_turn t .nop Msgid.invalid got (.spawn t got)
  | outcome f o =>
      unfold step
      by_cases allowed : (s.fibers f).co = .running ∧ s.Allows o
      · simp only [allowed, and_self, if_true]
        exact .report allowed.1 allowed.2
      · simp only [allowed, if_false]
        exact .nothing

/-! ## What waits is kept by every turn -/

theorem Sound.coResume (sound : s.Sound) (unclaimed : Unclaimed s.slot s.elems s.busy s.fque f)
    (waits : Waits s.fibers f stimulus.msgid) : Atomic.Sound (s.coResume f stimulus) :=
  Sound.update sound unclaimed _ fun _ => waits.live

theorem Sound.give (sound : s.Sound) (unclaimed : Unclaimed s.slot s.elems s.busy s.fque f)
    (waits : Waits s.fibers f stimulus.msgid) {heard : Bool}
    (taken : Taken s f stimulus heard s') : s'.Sound := by
  cases taken with
  | dropped => exact sound
  | queued => exact Sound.push sound unclaimed waits rfl
  | resumed => exact sound.coResume unclaimed waits

theorem Sound.fin (sound : s.Sound) (run : (s.fibers f).co = .running) :
    Atomic.Sound (s.fin f) := by
  refine Sound.update sound (Sound.unclaimed sound ?_) _ nofun
  intro msgid waits
  have co := run.symm.trans waits.co
  cases co

theorem Sound.report (sound : s.Sound) (run : (s.fibers f).co = .running) {o : Outcome}
    (allows : s.Allows o) : Atomic.Sound (s.report f o) := by
  cases o with
  | finish => exact Sound.fin (s := { s with reported := _, sent := _ }) sound run
  | error => exact Sound.fin (s := { s with reported := _, sent := _ }) sound run
  | yield key limit e =>
      have gives : s.slot key = some ((s.slot key).getD e) ∨
          s.slot key = none ∧ s.used ((s.slot key).getD e) = false := by
        cases held : s.slot key with
        | none => exact .inr ⟨rfl, allows.resolve_left fun some => some held⟩
        | some e' => exact .inl rfl
      exact Sound.register sound run limit gives

theorem Sound.turn (sound : s.Sound) (turn : Turn s event s') : s'.Sound := by
  cases turn with
  | nothing => exact sound
  | start _ free =>
      refine Sound.update sound (Sound.unclaimed sound ?_) _ fun _ => rfl
      intro msgid waits
      have live := waits.live
      rw [free] at live
      cases live
  | take _ empty held _ => exact Sound.take sound empty held
  | @give t f stimulus _ _ held taken =>
      obtain ⟨kept, unclaimed⟩ := Sound.release sound held
      have waits := Sound.held sound t f stimulus held
      exact Sound.give (s := s.work t none) kept unclaimed waits taken
  | @task _ t f stimulus rest queue =>
      obtain ⟨kept, unclaimed⟩ := Sound.pop sound queue
      have here : (f, stimulus) ∈ s.fque t := by
        rw [queue]
        exact List.mem_cons_self
      exact Sound.coResume (s := s.dequeue t rest) kept unclaimed
        (Sound.task sound t f stimulus here).1
  | report running allows => exact sound.report running allows

theorem Sound.step (sound : s.Sound) (event : Event) : (s.step event).Sound :=
  sound.turn (step_turn sound event)

end Atomic

end Cyue.Fibers
