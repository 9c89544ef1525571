import Cyue.Handler.Session

/-!
# The session events between two openings

Whatever is called on a socket, and in whatever order, the session events go
through the states of one connection after the other.
-/

namespace Cyue.Handler

inductive SessionCall where
  | openClientConn (o : OpenResults)
  | socketOpen (o : OpenResults)
  | handshaken (fd : Option ℕ) (success : Bool) (p : Pollers)
  | grant
  | close (detach : ℤ)
  | onClose (p : Pollers)

/-- `set_wbuf` succeeds. -/
def SessionCall.Linked : SessionCall → Prop
  | .openClientConn o => 0 ≤ o.pollers.setWbuf
  | .socketOpen o => 0 ≤ o.pollers.setWbuf
  | .handshaken _ _ p => 0 ≤ p.setWbuf
  | .onClose p => 0 ≤ p.setWbuf
  | _ => True

namespace Session

def call (s : Session) : SessionCall → Session
  | .openClientConn o => (s.openClientConn o).2
  | .socketOpen o => (s.socketOpen o).2
  | .handshaken fd success p => (s.handshaken fd success p).2
  | .grant => s.grant.2
  | .close detach => s.close detach
  | .onClose p => s.onClose p

def calls (s : Session) (calls : List SessionCall) : Session := calls.foldl call s

def history (s : Session) : List SessionItem := s.items.reverse

/-! ## The life of a session -/

/-- The state of a session and what it has emitted so far, newest first. -/
inductive Life : ConnState → List SessionItem → Prop where
  | fresh : Life .closed []
  | opens {items : List SessionItem} (life : Life .closed items) :
      Life .handshake (.opened :: items)
  | waits {items : List SessionItem} (life : Life .handshake items) :
      Life .waitaccept (.event .waitaccept :: items)
  | grants {items : List SessionItem} (life : Life .waitaccept items) :
      Life .establish (.event .establish :: items)
  | closes {state : ConnState} {items : List SessionItem} (opened : state ≠ .closed)
      (life : Life state items) : Life .closed (.event .closed :: items)

namespace Life

variable {state : ConnState} {items later : List SessionItem} {events : List ConnState}

/-- What was emitted earlier is a life too. -/
theorem earlier (life : Life state (later ++ items)) : ∃ before, Life before items := by
  induction later generalizing state with
  | nil => exact ⟨state, life⟩
  | cons item later ih =>
      rw [List.cons_append] at life
      cases life with
      | opens life => exact ih life
      | waits life => exact ih life
      | grants life => exact ih life
      | closes _ life => exact ih life

/-- The events that a session in each state has emitted since it was opened,
newest first. -/
def Since : ConnState → List ConnState → Prop
  | .handshake, events => events = []
  | .waitaccept, events => events = [.waitaccept]
  | .establish, events => events = [.establish, .waitaccept]
  | .closed, events =>
      events = [.closed] ∨ events = [.closed, .waitaccept] ∨
        events = [.closed, .establish, .waitaccept]

/-- The events behind an opening tell the state. -/
theorem since (life : Life state (events.map .event ++ .opened :: items)) :
    Since state events := by
  induction events generalizing state with
  | nil =>
      cases life with
      | opens life => rfl
  | cons event events ih =>
      rw [List.map_cons, List.cons_append] at life
      cases life with
      | waits life =>
          have before : events = [] := ih life
          exact congrArg _ before
      | grants life =>
          have before : events = [.waitaccept] := ih life
          exact congrArg _ before
      | @closes state _ opened life =>
          have before := ih life
          cases state with
          | handshake => exact .inl (congrArg _ before)
          | waitaccept => exact .inr (.inl (congrArg _ before))
          | establish => exact .inr (.inr (congrArg _ before))
          | closed => exact absurd rfl opened

/-- Nothing is emitted before the first opening. -/
theorem quiet (life : Life state (events.map .event)) : events = [] ∧ state = .closed := by
  induction events generalizing state with
  | nil =>
      cases life with
      | fresh => exact ⟨rfl, rfl⟩
  | cons event events ih =>
      rw [List.map_cons] at life
      cases life with
      | waits life => exact nomatch (ih life).2
      | grants life => exact nomatch (ih life).2
      | closes opened life => exact absurd (ih life).2 opened

/-- An established session has been opened, and has waited for the grant. -/
theorem established (life : Life .establish items) :
    ∃ before, items = .event .establish :: .event .waitaccept :: .opened :: before := by
  cases life with
  | grants life =>
      cases life with
      | waits life =>
          cases life with
          | opens life => exact ⟨_, rfl⟩

end Life

/-! ## Each call continues the life -/

def Lives (s : Session) : Prop := Life s.state s.items

variable {s s' : Session} {p : Pollers} {o : OpenResults}

theorem swap_eq {new old : ConnState} (swapped : s.swap new old = some s') :
    s.state = old ∧ s'.state = new ∧
      s'.items = if old = .closed then .opened :: s.items else s.items := by
  by_cases same : s.state = old
  · rw [swap, if_pos same] at swapped
    cases swapped
    exact ⟨same, rfl, rfl⟩
  · rw [swap, if_neg same] at swapped
    exact nomatch swapped

theorem close_lives {detach : ℤ} (lives : s.Lives) : (s.close detach).Lives := by
  have kept : (s.close detach).state = s.state ∧ (s.close detach).items = s.items := by
    unfold close
    grind [push]
  rw [Lives, kept.1, kept.2]
  exact lives

theorem grant_lives (lives : s.Lives) : s.grant.2.Lives := by
  rw [grant]
  cases swapped : s.swap .establish .waitaccept with
  | none => exact lives
  | some s' =>
      obtain ⟨old, new, items⟩ := swap_eq swapped
      rw [Lives, old] at lives
      show Life s'.state (.event .establish :: s'.items)
      rw [new, items]
      exact .grants lives

theorem toHandshake_lives (lives : s.Lives) : (s.stateChange p .handshake .closed).2.Lives := by
  rw [stateChange]
  cases swapped : s.swap .handshake .closed with
  | none => exact lives
  | some s' =>
      obtain ⟨old, new, items⟩ := swap_eq swapped
      rw [Lives, old] at lives
      show Life s'.state s'.items
      rw [new, items]
      exact .opens lives

/-- A session waits for its grant when the handshake has ended; a datagram
server does when it is opened. -/
theorem toWaitaccept_lives {old : ConnState} (first : old = .handshake ∨ old = .closed)
    (linked : 0 ≤ p.setWbuf) (lives : s.Lives) : (s.stateChange p .waitaccept old).2.Lives := by
  rw [stateChange]
  cases swapped : s.swap .waitaccept old with
  | none => exact lives
  | some s' =>
      obtain ⟨before, new, items⟩ := swap_eq swapped
      rw [Lives, before] at lives
      have waits : (s'.emit .waitaccept).Lives := by
        show Life s'.state (.event .waitaccept :: s'.items)
        rw [new, items]
        rcases first with rfl | rfl
        · exact .waits lives
        · exact .waits (.opens lives)
      simp only [not_lt.mpr linked, if_false]
      split
      · exact grant_lives waits
      · exact waits

theorem toClosed_lives {old : ConnState} (opened : old ≠ .closed) (lives : s.Lives) :
    (s.stateChange p .closed old).2.Lives := by
  rw [stateChange]
  cases swapped : s.swap .closed old with
  | none => exact lives
  | some s' =>
      obtain ⟨before, new, items⟩ := swap_eq swapped
      rw [Lives, before] at lives
      show Life s'.state (.event .closed :: s'.items)
      rw [new, items, if_neg opened]
      exact .closes opened lives

theorem handshaken_lives {fd : Option ℕ} {success : Bool} (linked : 0 ≤ p.setWbuf)
    (lives : s.Lives) : (s.handshaken fd success p).2.Lives := by
  rw [handshaken]
  split
  · exact lives
  · split
    · cases success with
      | true => exact toWaitaccept_lives (.inl rfl) linked lives
      | false => exact toClosed_lives nofun lives
    · exact lives
    · exact lives

theorem loopAttach_lives {fd : ℕ} (lives : s.Lives) : (s.loopAttach o fd).2.Lives := by
  rw [loopAttach]
  split
  · exact lives
  · split
    · exact lives
    · split
      · exact lives
      · exact lives

theorem loopOpen_lives (lives : s.Lives) : (s.loopOpen o).2.Lives := by
  have scheduled : s.onOpen.2.Lives := lives
  rw [loopOpen]
  generalize s.onOpen = result at scheduled ⊢
  obtain ⟨_ | fd, s₁⟩ := result
  · exact scheduled
  · exact loopAttach_lives scheduled

theorem abandon_lives (lives : s.Lives) : (s.abandon p).2.Lives :=
  toClosed_lives (s := s.eraseHandshaker.closeFd) nofun lives

theorem startClientConn_lives (lives : s.Lives) : (s.startClientConn o).2.Lives := by
  have taken : (s.takeFd o.socket).Lives := lives
  rw [startClientConn]
  generalize s.takeFd o.socket = s₁ at taken ⊢
  simp only
  cases o.socket with
  | none => exact abandon_lives taken
  | some fd =>
      simp only
      split
      · exact abandon_lives taken
      · have opened := loopOpen_lives (o := o) (s := s₁.startHandshake) taken
        split
        · exact abandon_lives opened
        · exact opened

theorem openClientConn_lives (lives : s.Lives) : (s.openClientConn o).2.Lives := by
  rw [openClientConn]
  have handshake : (s.resetStatus.stateChange o.pollers .handshake .closed).2.Lives :=
    toHandshake_lives (s := s.resetStatus) lives
  generalize s.resetStatus.stateChange o.pollers .handshake .closed = changed at handshake ⊢
  obtain ⟨_ | _, s₁⟩ := changed
  · exact handshake
  · exact startClientConn_lives handshake

theorem startServerConn_lives (lives : s.Lives) : (s.startServerConn o).2.Lives := by
  rw [startServerConn]
  split
  · exact lives
  · simp only
    split
    · exact lives
    · exact loopOpen_lives (s := { s with opt := none }.startHandshake) lives

theorem openServerConn_lives (lives : s.Lives) : (s.openServerConn o).2.Lives := by
  rw [openServerConn]
  have handshake : (s.resetStatus.stateChange o.pollers .handshake .closed).2.Lives :=
    toHandshake_lives (s := s.resetStatus) lives
  generalize s.resetStatus.stateChange o.pollers .handshake .closed = changed at handshake ⊢
  obtain ⟨_ | _, s₁⟩ := changed
  · exact handshake
  · exact startServerConn_lives handshake

theorem openDatagramServer_lives (linked : 0 ≤ o.pollers.setWbuf) (lives : s.Lives) :
    (s.openDatagramServer o).2.Lives := by
  rw [openDatagramServer]
  have waits : (s.stateChange o.pollers .waitaccept .closed).2.Lives :=
    toWaitaccept_lives (.inr rfl) linked lives
  generalize s.stateChange o.pollers .waitaccept .closed = changed at waits ⊢
  obtain ⟨_ | _, s₁⟩ := changed
  · exact waits
  · have opened := loopOpen_lives (o := o) waits
    simp only
    split
    · exact opened
    · exact opened

theorem socketOpen_lives (linked : 0 ≤ o.pollers.setWbuf) (lives : s.Lives) :
    (s.socketOpen o).2.Lives := by
  have typed : s.typed.Lives := by
    rw [Session.typed]
    split
    · exact lives
    · exact lives
  rw [socketOpen]
  generalize s.typed = s₁ at typed ⊢
  have opened : (if s₁.socketType = .dgram then s₁.openDatagramServer o
      else s₁.openServerConn o).2.Lives := by
    split
    · exact openDatagramServer_lives linked typed
    · exact openServerConn_lives typed
  simp only
  generalize (if s₁.socketType = .dgram then s₁.openDatagramServer o
    else s₁.openServerConn o) = result at opened ⊢
  obtain ⟨r, s₂⟩ := result
  simp only
  split
  · split
    · exact opened
    · exact opened
  · exact typed

theorem onClose_lives (lives : s.Lives) : (s.onClose p).Lives := by
  by_cases closed : s.state = .closed
  · rw [onClose_closed closed]
    exact lives
  · rw [onClose_opened closed]
    exact toClosed_lives (s := s.eraseHandshaker) closed lives

/-- Each call continues the life of the session. -/
theorem call_lives {c : SessionCall} (linked : c.Linked) (lives : s.Lives) : (s.call c).Lives := by
  cases c with
  | openClientConn o => exact openClientConn_lives lives
  | socketOpen o => exact socketOpen_lives linked lives
  | handshaken fd success p => exact handshaken_lives linked lives
  | grant => exact grant_lives lives
  | close detach => exact close_lives lives
  | onClose p => exact onClose_lives lives

theorem calls_lives {cs : List SessionCall} (linked : ∀ c ∈ cs, c.Linked) (lives : s.Lives) :
    (s.calls cs).Lives := by
  induction cs generalizing s with
  | nil => exact lives
  | cons c cs ih =>
      exact ih (fun c member => linked c (List.mem_cons_of_mem _ member))
        (call_lives (linked c List.mem_cons_self) lives)

/-! ## What the watchers are told -/

/-- Nothing is emitted before the first opening, every opening is followed by an
initial part of one connection's events, and a session is authorized from its
establishment to its close. -/
structure Orderly (s : Session) : Prop where
  quiet : ∀ events rest, s.history = events.map .event ++ rest → events = []
  prefixes : ∀ before events rest,
    s.history = before ++ .opened :: (events.map .event ++ rest) →
      events <+: [.waitaccept, .establish, .closed] ∨ events <+: [.waitaccept, .closed] ∨
        events <+: [.closed]
  authorized : s.authorized ↔ ∃ before,
    s.history = before ++ [.opened, .event .waitaccept, .event .establish]

theorem history_eq {items : List SessionItem} (history : s.history = items) :
    s.items = items.reverse := by
  rw [← history, Session.history, List.reverse_reverse]

theorem Life.Since.prefixes {state : ConnState} {events : List ConnState}
    (since : Life.Since state events.reverse) :
    events <+: [.waitaccept, .establish, .closed] ∨ events <+: [.waitaccept, .closed] ∨
      events <+: [.closed] := by
  have turned {l : List ConnState} (same : events.reverse = l) : events = l.reverse := by
    rw [← same, List.reverse_reverse]
  cases state with
  | handshake => exact .inl (turned since ▸ List.nil_prefix)
  | waitaccept => exact .inl (turned since ▸ ⟨[.establish, .closed], rfl⟩)
  | establish => exact .inl (turned since ▸ ⟨[.closed], rfl⟩)
  | closed =>
      rcases since with since | since | since
      · exact .inr (.inr (turned since ▸ List.prefix_rfl))
      · exact .inr (.inl (turned since ▸ List.prefix_rfl))
      · exact .inl (turned since ▸ List.prefix_rfl)

theorem Lives.orderly (lives : s.Lives) : s.Orderly where
  quiet events rest history := by
    have items := history_eq history
    rw [List.reverse_append, ← List.map_reverse] at items
    rw [Lives, items] at lives
    obtain ⟨_, before⟩ := lives.earlier
    exact List.reverse_eq_nil_iff.mp before.quiet.1
  prefixes before events rest history := by
    have items := history_eq history
    rw [List.reverse_append, List.reverse_cons, List.reverse_append, ← List.map_reverse,
      List.append_assoc, List.append_assoc] at items
    rw [Lives, items] at lives
    obtain ⟨_, life⟩ := lives.earlier
    exact life.since.prefixes
  authorized := by
    constructor
    · intro authorized
      rw [Lives, of_decide_eq_true authorized] at lives
      obtain ⟨before, items⟩ := lives.established
      refine ⟨before.reverse, ?_⟩
      rw [history, items, List.reverse_cons, List.reverse_cons, List.reverse_cons,
        List.append_assoc, List.append_assoc]
      rfl
    · rintro ⟨before, history⟩
      have items := history_eq history
      rw [List.reverse_append] at items
      rw [Lives, items] at lives
      have now : s.state = .establish := by
        generalize s.state = state at lives
        cases lives with
        | grants _ => rfl
      exact decide_eq_true now

theorem start_lives (dgram : Bool) (opt : Option SocketOpt) (fd : Option ℕ) :
    (start dgram opt fd).Lives := .fresh

/-- Whatever is called on a socket, the session events go through the states of
one connection after the other. -/
theorem events_orderly (dgram : Bool) (opt : Option SocketOpt) (fd : Option ℕ)
    (cs : List SessionCall) (linked : ∀ c ∈ cs, c.Linked) :
    ((start dgram opt fd).calls cs).Orderly :=
  (calls_lives linked (start_lives dgram opt fd)).orderly

/-- Results of calls that all succeed, with the descriptor 3. -/
def succeeding : OpenResults := ⟨some 3, 0, 0, 0, true, true, 0, ⟨0, 0⟩⟩

/-- A client that is granted, closed and opened again. -/
theorem events_orderly_twice :
    let cs := [.openClientConn succeeding, .handshaken (some 3) true ⟨0, 0⟩, .grant,
      .onClose ⟨0, 0⟩, .grant, .openClientConn succeeding, .handshaken (some 3) false ⟨0, 0⟩]
    ((start false none none).calls cs).history =
        [.opened, .event .waitaccept, .event .establish, .event .closed,
          .opened, .event .closed] ∧
      ((start false none none).calls cs).Orderly := by
  refine ⟨by decide, events_orderly false none none _ fun c member => ?_⟩
  have all : ∀ c ∈ [SessionCall.openClientConn succeeding, .handshaken (some 3) true ⟨0, 0⟩, .grant,
      .onClose ⟨0, 0⟩, .grant, .openClientConn succeeding, .handshaken (some 3) false ⟨0, 0⟩],
      c.Linked := by
    simp [SessionCall.Linked, succeeding]
  exact all c member

end Session

end Cyue.Handler
