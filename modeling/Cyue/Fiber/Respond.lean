import Cyue.Fiber.Matching

/-!
# One response for each request

A fiber is live from its start to its first finish or error.  Until then it has
reported yields only and sent nothing; there it sends one message to its
endpoint under its msgid and is destroyed, and no turn can reach it again.
-/

namespace Cyue.Fibers

def Outcome.packed (msgid : ℕ) : Outcome → Option Packed
  | .yield _ _ _ => none
  | .finish => some (.response msgid)
  | .error => some (.error msgid)

/-- What has become of one fiber: its outcomes, what it has sent, and how often
it was destroyed. -/
structure Tally where
  outcomes : List Outcome
  sends : List Sent
  ends : ℕ
  deriving DecidableEq, Repr

def Fabric.tally {W : Type} (s : Fabric W) (n : ℕ) : Tally where
  outcomes := (s.reported.filter fun r => r.1 = n).map Prod.snd
  sends := s.sent.filter fun r => r.serial = n
  ends := s.destroyed.count n

structure Unanswered (msgid : ℕ) (tally : Tally) : Prop where
  yields : ∀ o ∈ tally.outcomes, o.packed msgid = none
  silent : tally.sends = []
  kept : tally.ends = 0

/-- One response or error, for the last outcome. -/
structure Answered (n : ℕ) (endp : Endpoint) (msgid : ℕ) (tally : Tally) : Prop where
  once : ∃ yields last packed, tally.outcomes = yields ++ [last] ∧
    (∀ o ∈ yields, o.packed msgid = none) ∧ last.packed msgid = some packed ∧
    tally.sends = [⟨n, endp, packed⟩]
  gone : tally.ends = 1

structure Accounts (fibers : ℕ → Fiber) (started : List (Endpoint × ℕ)) (tally : ℕ → Tally) :
    Prop where
  origin : ∀ f, (fibers f).live = true →
    started[(fibers f).serial]? = some ((fibers f).endp, (fibers f).msgid)
  apart : ∀ f f', (fibers f).live = true → (fibers f').live = true →
    (fibers f).serial = (fibers f').serial → f = f'
  waits : ∀ f, (fibers f).live = true →
    Unanswered (fibers f).msgid (tally (fibers f).serial)
  closed : ∀ n endp msgid, started[n]? = some (endp, msgid) →
    (∃ f, (fibers f).live = true ∧ (fibers f).serial = n) ∨ Answered n endp msgid (tally n)
  future : ∀ n, started.length ≤ n → tally n = ⟨[], [], 0⟩

variable {fibers : ℕ → Fiber} {started : List (Endpoint × ℕ)} {tally : ℕ → Tally} {f : ℕ}

theorem Unanswered.none (msgid : ℕ) : Unanswered msgid ⟨[], [], 0⟩ where
  yields o member := by cases member
  silent := rfl
  kept := rfl

theorem Unanswered.yield {msgid : ℕ} {t : Tally} (open_ : Unanswered msgid t) (key limit e : ℕ) :
    Unanswered msgid { t with outcomes := t.outcomes ++ [.yield key limit e] } where
  yields o member := by
    rcases List.mem_append.mp member with earlier | last
    · exact open_.yields o earlier
    · obtain rfl := List.mem_singleton.mp last
      rfl
  silent := open_.silent
  kept := open_.kept

theorem Unanswered.answer {n msgid : ℕ} {endp : Endpoint} {o : Outcome} {packed : Packed}
    {t : Tally} (open_ : Unanswered msgid t) (answers : o.packed msgid = some packed) :
    Answered n endp msgid ⟨t.outcomes ++ [o], t.sends ++ [⟨n, endp, packed⟩], t.ends + 1⟩ where
  once := by
    refine ⟨t.outcomes, o, packed, rfl, open_.yields, answers, ?_⟩
    rw [open_.silent, List.nil_append]
  gone := by rw [open_.kept]

namespace Accounts

theorem serial_lt (accounts : Accounts fibers started tally) (live : (fibers f).live = true) :
    (fibers f).serial < started.length :=
  (List.getElem?_eq_some_iff.mp (accounts.origin f live)).1

/-- The state of a coroutine does not count. -/
theorem co (accounts : Accounts fibers started tally) (f : ℕ) (co : Co) :
    Accounts (Function.update fibers f { fibers f with co }) started tally := by
  have same : ∀ f', (Function.update fibers f { fibers f with co } f').live = (fibers f').live ∧
      (Function.update fibers f { fibers f with co } f').msgid = (fibers f').msgid ∧
      (Function.update fibers f { fibers f with co } f').endp = (fibers f').endp ∧
      (Function.update fibers f { fibers f with co } f').serial = (fibers f').serial := by
    intro f'
    by_cases this : f' = f
    · subst this
      rw [Function.update_self]
      exact ⟨rfl, rfl, rfl, rfl⟩
    · rw [Function.update_of_ne this]
      exact ⟨rfl, rfl, rfl, rfl⟩
  constructor
  · intro f' live
    obtain ⟨l, m, e, r⟩ := same f'
    rw [m, e, r]
    exact accounts.origin f' (l.symm.trans live)
  · intro f₁ f₂ live₁ live₂ equal
    obtain ⟨l₁, -, -, r₁⟩ := same f₁
    obtain ⟨l₂, -, -, r₂⟩ := same f₂
    exact accounts.apart f₁ f₂ (l₁.symm.trans live₁) (l₂.symm.trans live₂)
      (r₁.symm.trans (equal.trans r₂))
  · intro f' live
    obtain ⟨l, m, -, r⟩ := same f'
    rw [m, r]
    exact accounts.waits f' (l.symm.trans live)
  · intro n endp msgid there
    refine (accounts.closed n endp msgid there).imp_left ?_
    rintro ⟨f', live, serial⟩
    exact ⟨f', (same f').1.trans live, (same f').2.2.2.trans serial⟩
  · exact accounts.future

/-- A fiber is started in an object that is free. -/
theorem create (accounts : Accounts fibers started tally) (free : (fibers f).live = false)
    (endp : Endpoint) (msgid t : ℕ) :
    Accounts (Function.update fibers f ⟨true, msgid, endp, t, .running, started.length⟩)
      (started ++ [(endp, msgid)]) tally := by
  have others : ∀ f', (fibers f').live = true → f' ≠ f := by
    rintro f' live rfl
    rw [free] at live
    cases live
  constructor
  · intro f' live
    by_cases this : f' = f
    · subst this
      rw [Function.update_self]
      exact List.getElem?_concat_length
    · rw [Function.update_of_ne this] at live ⊢
      rw [List.getElem?_append_left (accounts.serial_lt live)]
      exact accounts.origin f' live
  · intro f₁ f₂ live₁ live₂ equal
    by_cases first : f₁ = f <;> by_cases second : f₂ = f
    · rw [first, second]
    · subst first
      rw [Function.update_of_ne second] at live₂ equal
      rw [Function.update_self] at equal
      exact absurd equal (Nat.ne_of_gt (accounts.serial_lt live₂))
    · subst second
      rw [Function.update_of_ne first] at live₁ equal
      rw [Function.update_self] at equal
      exact absurd equal (Nat.ne_of_lt (accounts.serial_lt live₁))
    · rw [Function.update_of_ne first] at live₁ equal
      rw [Function.update_of_ne second] at live₂ equal
      exact accounts.apart f₁ f₂ live₁ live₂ equal
  · intro f' live
    by_cases this : f' = f
    · subst this
      rw [Function.update_self]
      have fresh := accounts.future started.length le_rfl
      simp only [fresh]
      exact .none msgid
    · rw [Function.update_of_ne this] at live ⊢
      exact accounts.waits f' live
  · intro n endp' msgid' there
    rcases Nat.lt_or_ge n started.length with old | new
    · rw [List.getElem?_append_left old] at there
      refine (accounts.closed n endp' msgid' there).imp_left ?_
      rintro ⟨f', live, serial⟩
      refine ⟨f', ?_⟩
      rw [Function.update_of_ne (others f' live)]
      exact ⟨live, serial⟩
    · have bound := (List.getElem?_eq_some_iff.mp there).1
      rw [List.length_append, List.length_singleton] at bound
      refine .inl ⟨f, ?_⟩
      rw [Function.update_self]
      exact ⟨rfl, Nat.le_antisymm new (Nat.le_of_lt_succ bound)⟩
  · intro n beyond
    rw [List.length_append] at beyond
    exact accounts.future n (Nat.le_of_add_right_le beyond)

/-- Only the account of one live fiber is written, and the fiber stays. -/
theorem yield (accounts : Accounts fibers started tally) (live : (fibers f).live = true)
    {t : Tally} (still : Unanswered (fibers f).msgid t) :
    Accounts fibers started (Function.update tally (fibers f).serial t) := by
  constructor
  · exact accounts.origin
  · exact accounts.apart
  · intro f' live'
    by_cases this : f' = f
    · subst this
      rw [Function.update_self]
      exact still
    · rw [Function.update_of_ne fun equal => this (accounts.apart f' f live' live equal)]
      exact accounts.waits f' live'
  · intro n endp msgid there
    by_cases this : n = (fibers f).serial
    · exact .inl ⟨f, live, this.symm⟩
    · rw [Function.update_of_ne this]
      exact accounts.closed n endp msgid there
  · intro n beyond
    rw [Function.update_of_ne (Nat.ne_of_gt (Nat.lt_of_lt_of_le (accounts.serial_lt live) beyond))]
    exact accounts.future n beyond

/-- The account of one live fiber is closed, and the fiber goes. -/
theorem fin (accounts : Accounts fibers started tally) (live : (fibers f).live = true)
    {fiber : Fiber} (dead : fiber.live = false) {t : Tally}
    (answered : Answered (fibers f).serial (fibers f).endp (fibers f).msgid t) :
    Accounts (Function.update fibers f fiber) started
      (Function.update tally (fibers f).serial t) := by
  have others : ∀ f', (Function.update fibers f fiber f').live = true → f' ≠ f := by
    rintro f' live' rfl
    rw [Function.update_self, dead] at live'
    cases live'
  constructor
  · intro f' live'
    have other := others f' live'
    rw [Function.update_of_ne other] at live' ⊢
    exact accounts.origin f' live'
  · intro f₁ f₂ live₁ live₂ equal
    have first := others f₁ live₁
    have second := others f₂ live₂
    rw [Function.update_of_ne first] at live₁ equal
    rw [Function.update_of_ne second] at live₂ equal
    exact accounts.apart f₁ f₂ live₁ live₂ equal
  · intro f' live'
    have other := others f' live'
    rw [Function.update_of_ne other] at live' ⊢
    rw [Function.update_of_ne fun equal => other (accounts.apart f' f live' live equal)]
    exact accounts.waits f' live'
  · intro n endp msgid there
    by_cases this : n = (fibers f).serial
    · subst this
      rw [accounts.origin f live] at there
      obtain ⟨rfl, rfl⟩ := Prod.mk.inj (Option.some.inj there)
      rw [Function.update_self]
      exact .inr answered
    · rw [Function.update_of_ne this]
      refine (accounts.closed n endp msgid there).imp_left ?_
      rintro ⟨f', live', serial⟩
      have other : f' ≠ f := by
        rintro rfl
        exact this serial.symm
      refine ⟨f', ?_⟩
      rw [Function.update_of_ne other]
      exact ⟨live', serial⟩
  · intro n beyond
    rw [Function.update_of_ne (Nat.ne_of_gt (Nat.lt_of_lt_of_le (accounts.serial_lt live) beyond))]
    exact accounts.future n beyond

end Accounts

namespace Atomic

variable {s s' : Atomic} {event : Event}

theorem tally_yield (s : Atomic) (f key limit e : ℕ) :
    Fabric.tally (s.report f (.yield key limit e)) =
      Function.update s.tally (s.fibers f).serial
        { s.tally (s.fibers f).serial with
          outcomes := (s.tally (s.fibers f).serial).outcomes ++ [.yield key limit e] } := by
  funext n
  by_cases this : n = (s.fibers f).serial
  · subst this
    rw [Function.update_self]
    simp [Fabric.report, Fabric.suspend, Fabric.yield, Fabric.record, Fabric.tally]
  · rw [Function.update_of_ne this]
    simp [Fabric.report, Fabric.suspend, Fabric.yield, Fabric.record, Fabric.tally, Ne.symm this]

theorem tally_answer (s : Atomic) {f : ℕ} {o : Outcome} {packed : Packed}
    (answers : o.packed (s.fibers f).msgid = some packed) :
    Fabric.tally (s.report f o) =
      Function.update s.tally (s.fibers f).serial
        ⟨(s.tally (s.fibers f).serial).outcomes ++ [o],
          (s.tally (s.fibers f).serial).sends ++
            [⟨(s.fibers f).serial, (s.fibers f).endp, packed⟩],
          (s.tally (s.fibers f).serial).ends + 1⟩ := by
  funext n
  by_cases this : n = (s.fibers f).serial
  · subst this
    rw [Function.update_self]
    cases o <;> cases answers <;>
      simp [Fabric.report, Fabric.finish, Fabric.respond, Fabric.send, Fabric.fin, Fabric.tally]
  · rw [Function.update_of_ne this]
    cases o <;> cases answers <;>
      simp [Fabric.report, Fabric.finish, Fabric.respond, Fabric.send, Fabric.fin, Fabric.tally,
        Ne.symm this]

protected def Accounts (s : Atomic) : Prop := Accounts s.fibers s.started s.tally

theorem init_accounts : Atomic.Accounts .init where
  origin f live := by cases live
  apart f f' live := by cases live
  waits f live := by cases live
  closed n endp msgid there := by cases there
  future n _ := rfl

theorem Accounts.report (accounts : s.Accounts) {f : ℕ} (live : (s.fibers f).live = true)
    (o : Outcome) : Atomic.Accounts (s.report f o) := by
  have closes : ∀ packed, o.packed (s.fibers f).msgid = some packed →
      Accounts (Function.update s.fibers f { s.fibers f with live := false, co := .over })
        s.started (Fabric.tally (s.report f o)) := by
    intro packed answers
    rw [tally_answer s answers]
    exact Accounts.fin accounts live rfl ((accounts.waits f live).answer answers)
  cases o with
  | finish => exact closes _ rfl
  | error => exact closes _ rfl
  | yield key limit e =>
      have written := Accounts.yield accounts live
        ((accounts.waits f live).yield key limit e)
      rw [← tally_yield] at written
      exact written.co f (.suspended key)

theorem Accounts.taken (accounts : s.Accounts) {f : ℕ} {stimulus : Stimulus} {heard : Bool}
    (taken : Taken s f stimulus heard s') : s'.Accounts := by
  cases taken with
  | dropped => exact accounts
  | queued => exact accounts
  | resumed => exact Accounts.co accounts _ .running

theorem Accounts.turn (sound : s.Sound) (accounts : s.Accounts) (turn : Turn s event s') :
    s'.Accounts := by
  cases turn with
  | nothing => exact accounts
  | @start _ t msgid f endp _ free => exact Accounts.create accounts free endp msgid t
  | take _ _ _ _ => exact accounts
  | @give t f stimulus _ _ _ taken => exact Accounts.taken (s := s.work t none) accounts taken
  | @task _ t f stimulus rest queue => exact Accounts.co accounts f .running
  | @report f o running _ => exact accounts.report (sound.running f running) o

/-- A fiber that was started stays on record. -/
theorem turn_started (turn : Turn s event s') : s.started <+: s'.started := by
  cases turn with
  | nothing => exact List.prefix_rfl
  | start _ free => exact List.prefix_append ..
  | take _ _ _ _ => exact List.prefix_rfl
  | give _ taken =>
      rw [taken.records.1]
      exact List.prefix_rfl
  | task queue => exact List.prefix_rfl
  | @report f o _ _ => cases o <;> exact List.prefix_rfl

/-- What has become of the fiber `n` that was started for a request: it has yielded only and
sent nothing, or it has sent one message, at its first outcome that is not a yield. -/
theorem Accounts.settles (accounts : s.Accounts) {n msgid : ℕ} {endp : Endpoint}
    (origin : s.started[n]? = some (endp, msgid)) :
    Unanswered msgid (s.tally n) ∨ Answered n endp msgid (s.tally n) := by
  rcases accounts.closed n endp msgid origin with ⟨f, live, serial⟩ | answered
  · refine .inl ?_
    have there := accounts.origin f live
    rw [serial] at there
    obtain ⟨-, same⟩ := Prod.mk.inj (Option.some.inj (origin.symm.trans there))
    have waits := accounts.waits f live
    rw [serial, ← same] at waits
    exact waits
  · exact .inr answered

/-- The invariants of a run. -/
protected structure Good (s : Atomic) : Prop where
  sound : s.Sound
  matched : s.Matched
  accounts : s.Accounts

theorem init_good : Atomic.Good .init := ⟨init_sound, init_matched, init_accounts⟩

theorem Good.turn (good : s.Good) (fresh : Fresh s event) (turn : Turn s event s') : s'.Good where
  sound := good.sound.turn turn
  matched := good.matched.turn good.sound fresh turn
  accounts := good.accounts.turn good.sound turn

theorem Good.step (good : s.Good) (fresh : Fresh s event) : (s.step event).Good :=
  good.turn fresh (step_turn good.sound event)

end Atomic

end Cyue.Fibers
