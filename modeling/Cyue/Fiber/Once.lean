import Cyue.Fiber.Larger
import Cyue.Fiber.Few

/-!
# Each yield once, each request once

What holds of the large steps holds of the threads as long as they keep apart.  Where
they do not, or a send fails, it may not.
-/

namespace Cyue.Fibers.Threads

variable {c : Threads} {s : Atomic} {event : Event}

namespace Refines

theorem due (refines : c.Refines s) {r : Resumption} (member : r ∈ c.resumptions) :
    Due c.yields r := by
  have same : s.resumptions = c.resumptions := congrArg Fabric.resumptions refines.large
  rw [← refines.yields_eq]
  exact refines.good.matched.due r (same ▸ member)

theorem once (refines : c.Refines s) : (c.resumptions.map fun r => r.stimulus.msgid).Nodup := by
  have same : s.resumptions = c.resumptions := congrArg Fabric.resumptions refines.large
  rw [← same]
  exact refines.good.matched.once

theorem distinct (refines : c.Refines s) : (c.yields.map fun y => y.2.msgid).Nodup := by
  rw [← refines.yields_eq]
  exact refines.good.matched.distinct

theorem started_eq (refines : c.Refines s) : s.started = c.started :=
  congrArg Fabric.started refines.large

theorem tally_eq (refines : c.Refines s) : s.tally = c.tally := by
  rw [refines.large]
  rfl

/-- A fiber that was started stays on record. -/
theorem started (refines : c.Refines s) (clean : c.Clean event) :
    c.started <+: (c.step event).started := by
  have after := (refines.step clean).started_eq
  rw [← after, ← refines.started_eq]
  cases c.larger event with
  | none => exact List.prefix_rfl
  | some large => exact Atomic.turn_started (Atomic.step_turn refines.good.sound large)

end Refines

/-! ## Yields and resumptions -/

/-- A response without an entry is dropped. -/
theorem recv_unknown (c : Threads) {msgid : ℕ} (absent : c.slot msgid = none) (t : ℕ)
    (endp : Endpoint) (got : Option ℕ) (back : Bool) :
    c.step (.recv t endp (.response msgid) got back) = c := by
  simp only [step, recv, remove, Stimulus.msgid, absent]
  split_ifs with idle
  · have same : c.work t none = c.toFabric := by
      unfold Fabric.work
      rw [← idle, Function.update_eq_self]
    rw [same]
  · rfl

theorem recv_other (c : Threads) {key msgid : ℕ} (other : key ≠ msgid) (t : ℕ) (endp : Endpoint)
    (got : Option ℕ) (back : Bool) :
    let d := c.step (.recv t endp (.response msgid) got back)
    d.slot key = c.slot key ∧ d.elems = c.elems := by
  simp only [step, recv, remove, Stimulus.msgid]
  split_ifs
  · split
    · exact ⟨rfl, rfl⟩
    · exact ⟨Function.update_of_ne other .., rfl⟩
  · exact ⟨rfl, rfl⟩

/-- Every resumption is of a coroutine suspended in the yield with the stimulus'
own msgid, each yield is resumed at most once, and a response touches no entry
but its own. -/
theorem resumed_by_own (events : List Event) (clean : Run.Along step Clean init events) :
    let s := run events
    (∀ r ∈ s.resumptions, Due s.yields r) ∧
      (s.resumptions.map fun r => r.stimulus.msgid).Nodup ∧
      (s.yields.map fun y => y.2.msgid).Nodup ∧
      ∀ t endp msgid got back,
        let s' := s.step (.recv t endp (.response msgid) got back)
        (s.slot msgid = none → s' = s) ∧
          ∀ key, key ≠ msgid → s'.slot key = s.slot key ∧ s'.elems = s.elems := by
  obtain ⟨_, -, refines⟩ := run_refines clean
  refine ⟨fun r => refines.due, refines.once, refines.distinct, ?_⟩
  intro t endp msgid got back
  exact ⟨fun absent => recv_unknown _ absent t endp got back,
    fun key other => recv_other _ other t endp got back⟩

/-- A timeout and a late response for one yield, a response for the next. -/
theorem resumed_by_own_twice :
    let events := [.recv 1 (.peer 7) (.request 42) (some 3) false, .yield 3 1001 50 0, .write 1,
      .write 1, .write 1, .visit 2 0 51, .posted 1, .readMsgid 2, .findAndErase 2 true, .copy 2 true,
      .recv 2 .nop (.response 1001) none false, .task 1, .yield 3 1002 90 0, .write 1, .write 1,
      .write 1, .posted 1, .visit 1 0 60, .recv 1 .nop (.response 1002) none false, .copy 1 true]
    (run events).resumptions =
        [⟨0, .timeout 1001 51, .suspended 1001⟩, ⟨0, .response 1002, .suspended 1002⟩] ∧
      ((run events).resumptions.map fun r => r.stimulus.msgid).Nodup := by
  refine ⟨by decide, (resumed_by_own _ (clean_of_below (n := 3) ?_ ?_)).2.1⟩
  · decide
  · decide

/-- The send of one yield fails, and the coroutine goes on to the next: the timeout of the
first resumes it there. -/
theorem resumed_out_of_next :
    let events := [.recv 1 (.peer 7) (.request 42) (some 3) false, .yield 3 1001 50 0, .write 1,
      .write 1, .write 1, .failed 1, .yield 3 1002 90 1, .write 1, .write 1, .write 1, .posted 1,
      .visit 1 0 60, .readMsgid 1, .findAndErase 1 false, .copy 1 true]
    Run.Along step Fresh init events ∧
      (run events).resumptions = [⟨0, .timeout 1001 60, .suspended 1002⟩] ∧
      ¬ ∀ r ∈ (run events).resumptions, Due (run events).yields r := by
  refine ⟨by decide, by decide, fun dues => ?_⟩
  have found := (dues ⟨0, .timeout 1001 60, .suspended 1002⟩ (by decide)).found
  revert found
  decide

-- One thread takes the entry of a response and is to copy its value, while another one
-- registers a yield in the element: the response resumes the coroutine of that yield.
example :
    let events := [.recv 1 .nop (.request 41) (some 3) false, .yield 3 1001 50 0, .write 1, .write 1,
      .write 1, .posted 1, .recv 2 .nop (.request 42) (some 4) false,
      .recv 1 .nop (.response 1001) none false, .yield 4 1002 90 0, .write 2, .write 2, .write 2,
      .posted 2, .copy 1 true, .task 2]
    (run events).resumptions = [⟨1, .response 1001, .suspended 1002⟩] := by
  decide

/-! ## Requests and responses -/

/-- For a request that starts a fiber, and whatever happens later: the fiber has
so far yielded only and sent nothing, or it has sent exactly one message, at its
first outcome that is not a yield, and is destroyed. -/
theorem responds_once (before after : List Event) (t msgid f : ℕ) (endp : Endpoint) (back : Bool)
    (idle : (run before).busy t = none) (free : ((run before).fibers f).live = false)
    (clean : Run.Along step Clean init
      (before ++ .recv t endp (.request msgid) (some f) back :: after)) :
    let n := (run before).started.length
    let s := run (before ++ .recv t endp (.request msgid) (some f) back :: after)
    Unanswered msgid (s.tally n) ∨ Answered n endp msgid (s.tally n) := by
  intro n s
  obtain ⟨early, along⟩ := Run.along_append.mp clean
  obtain ⟨_, -, first⟩ := run_refines early
  have created : ((run before).step (.recv t endp (.request msgid) (some f) back)).started =
      (run before).started ++ [(endp, msgid)] := by
    simp only [step, recv, Fabric.start, idle, free, Bool.false_eq_true, if_false, if_true]
    rfl
  have request : ((run before).step (.recv t endp (.request msgid) (some f) back)).started[n]? =
      some (endp, msgid) := by
    rw [created]
    exact List.getElem?_concat_length
  -- the fiber stays on record in every later state
  have later := Run.holds_after (fun c => (∃ s, Refines c s) ∧ c.started[n]? = some (endp, msgid))
    Clean ⟨⟨_, first.step along.1⟩, request⟩ ?_ along.2
  · obtain ⟨⟨s', refines⟩, origin⟩ := later
    have whole : after.foldl step
        ((run before).step (.recv t endp (.request msgid) (some f) back)) = s := by
      simp only [s, run, List.foldl_append, List.foldl_cons]
    rw [whole] at refines origin
    rw [← refines.tally_eq]
    exact refines.good.accounts.settles (refines.started_eq ▸ origin)
  · rintro c event ⟨⟨s', refines⟩, origin⟩ clean
    refine ⟨⟨_, refines.step clean⟩, ?_⟩
    obtain ⟨more, same⟩ := refines.started clean
    rw [← same, List.getElem?_append_left (List.getElem?_eq_some_iff.mp origin).1]
    exact origin

/-- The fiber yields, is resumed on another thread by a response, and finishes;
another fiber lives in its object then. -/
theorem responds_once_resumed :
    let request := .recv 1 (.peer 7) (.request 42) (some 3) false
    let after := [.yield 3 1001 50 0, .write 1, .write 1, .write 1,
      .recv 2 .nop (.response 1001) none false, .posted 1, .copy 2 true, .task 1, .finish 3,
      .spawn 1 (some 3), .error 3]
    ((run (request :: after)).tally 0 =
        ⟨[.yield 1001 50 0, .finish], [⟨0, .peer 7, .response 42⟩], 1⟩) ∧
      (Unanswered 42 ((run (request :: after)).tally 0) ∨
        Answered 0 (.peer 7) 42 ((run (request :: after)).tally 0)) := by
  refine ⟨by decide, responds_once [] _ 1 42 3 (.peer 7) false rfl rfl
    (clean_of_below (n := 3) ?_ ?_)⟩
  · decide
  · decide

/-- The send of a yield fails, the coroutine finishes, and the timeout of the yield runs its
fiber once more. -/
theorem responds_twice :
    let events := [.recv 1 (.peer 7) (.request 42) (some 3) false, .yield 3 1001 50 0, .write 1,
      .write 1, .write 1, .failed 1, .finish 3, .visit 1 0 60, .readMsgid 1, .findAndErase 1 false,
      .copy 1 true, .error 3]
    Run.Along step Fresh init events ∧
      (run events).tally 0 = ⟨[.yield 1001 50 0, .finish, .error],
        [⟨0, .peer 7, .response 42⟩, ⟨0, .peer 7, .error 42⟩], 2⟩ ∧
      ¬ (Unanswered 42 ((run events).tally 0) ∨ Answered 0 (.peer 7) 42 ((run events).tally 0)) := by
  refine ⟨by decide, by decide, ?_⟩
  rintro (⟨-, -, kept⟩ | ⟨-, gone⟩)
  · revert kept
    decide
  · revert gone
    decide

end Cyue.Fibers.Threads
