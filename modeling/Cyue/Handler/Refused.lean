import Cyue.Handler.Descriptor

/-!
# Refused state changes

`state_change` swaps `m_state` before it looks at `F_CLOSING`, so that a change to
`HANDSHAKE` that it refuses has happened.  The server opens return behind their state
change as soon as something fails; only `open_client_conn` goes back to `CLOSED`.
-/

namespace Cyue.Handler

/-- A socket with the flags beside `F_CLOSING`. -/
structure Flagged where
  session : Session
  initialized : Bool
  finalized : Bool
  cached : Bool

namespace Session

def events (s : Session) : List ConnState :=
  s.items.filterMap fun item =>
    match item with
    | .opened => none
    | .event state => some state

end Session

namespace Flagged

/-- `state_change` with all flags; `close` and the end of a server connection finalize. -/
def stateChange (p : Pollers) (new old : ConnState) (s : Flagged) : Bool × Flagged :=
  let (done, session) := s.session.stateChange p new old
  let swapped := decide (s.session.state = old)
  let closes := decide (new = .waitaccept ∧ p.setWbuf < 0)
  let ends := decide (new = .closed) && s.session.server
  (done,
    { s with
      session := session
      initialized := s.initialized && !(swapped && decide (new = .handshake) && done)
      finalized := s.finalized || swapped && (closes || ends) })

end Flagged

/-- `m_state`, the flags and the emitted events are as before. -/
structure Unchanged (s s' : Flagged) : Prop where
  state : s'.session.state = s.session.state
  closing : s'.session.closing = s.session.closing
  initialized : s'.initialized = s.initialized
  finalized : s'.finalized = s.finalized
  cached : s'.cached = s.cached
  events : s'.session.events = s.session.events

namespace Session

/-! ## Opening beside a close -/

/-- The flags are reset; `amid` is a call of `close` by another thread behind it. -/
def resetAmid (amid : Option ℤ) (s : Session) : Session :=
  match amid with
  | none => s.resetStatus
  | some detach => s.resetStatus.close detach

/-- `open_client_conn` -/
def openClientAmid (amid : Option ℤ) (o : OpenResults) (s : Session) : ℤ × Session :=
  match (s.resetAmid amid).stateChange o.pollers .handshake .closed with
  | (false, s) => (ealready, s)
  | (true, s) => s.startClientConn o

/-- `open_server_conn` -/
def openServerAmid (amid : Option ℤ) (o : OpenResults) (s : Session) : ℤ × Session :=
  match (s.resetAmid amid).stateChange o.pollers .handshake .closed with
  | (false, s) => (ealready, s)
  | (true, s) => s.startServerConn o

theorem openClientAmid_none (o : OpenResults) (s : Session) :
    s.openClientAmid none o = s.openClientConn o := rfl

theorem openServerAmid_none (o : OpenResults) (s : Session) :
    s.openServerAmid none o = s.openServerConn o := rfl

def Reopens (s : Session) : Prop :=
  ∀ p, (s.resetStatus.stateChange p .handshake .closed).1 = true ∧
    (s.stateChange p .waitaccept .closed).1 = true

/-- Behind an open that fails the socket can be opened if it could before, and is otherwise in its
old state. -/
def Survives (s : Session) (result : ℤ × Session) : Prop :=
  result.1 < 0 → (s.Reopens → result.2.Reopens) ∧ (¬ s.Reopens → result.2.state = s.state)

/-- The descriptor of the socket is one that no handler stands at. -/
def Loops (s : Session) : Prop := ∃ fd, s.fd = some fd ∧ s.handlers fd = false

variable {s s' : Session} {p : Pollers} {o : OpenResults} {amid : Option ℤ}

theorem reopens_iff : s.Reopens ↔ s.state = .closed := by
  constructor
  · intro reopens
    by_contra other
    have refused : (s.resetStatus.stateChange ⟨0, 0⟩ .handshake .closed).1 = false :=
      congrArg Prod.fst (toHandshake_other other)
    exact Bool.false_ne_true (refused.symm.trans (reopens ⟨0, 0⟩).1)
  · intro closed p
    obtain ⟨items, moved, -⟩ := toHandshake_closed (p := p) closed
    exact ⟨congrArg Prod.fst moved, (toWaitaccept_closed p closed).1⟩

theorem survives_iff {result : ℤ × Session} :
    s.Survives result ↔ (result.1 < 0 → result.2.state = s.state) := by
  unfold Survives
  rw [reopens_iff, reopens_iff]
  constructor
  · intro survives failed
    obtain ⟨again, same⟩ := survives failed
    by_cases closed : s.state = .closed
    · exact (again closed).trans closed.symm
    · exact same closed
  · intro same failed
    exact ⟨fun closed => (same failed).trans closed, fun _ => same failed⟩

theorem close_state (detach : ℤ) (s : Session) :
    (s.close detach).state = s.state ∧ (s.close detach).closing = true := by
  unfold close
  grind [push]

theorem resetAmid_state (amid : Option ℤ) (s : Session) : (s.resetAmid amid).state = s.state := by
  cases amid with
  | none => rfl
  | some detach => exact (close_state detach s.resetStatus).1

/-- A socket that is not closed refuses to be opened and stays as it is. -/
theorem toHandshake_refused (other : s.state ≠ .closed) :
    s.stateChange p .handshake .closed = (false, s) := by
  rw [stateChange, swap_none other]

/-- A close has come in between: the state is `HANDSHAKE` all the same. -/
theorem toHandshake_closing (closed : s.state = .closed) (closing : s.closing = true) :
    (s.stateChange p .handshake .closed).1 = false ∧
      (s.stateChange p .handshake .closed).2.state = .handshake := by
  obtain ⟨items, swapped, -⟩ := swap_some .handshake closed
  rw [stateChange, swapped]
  exact ⟨(Bool.not_eq_false' ..).mpr closing, rfl⟩

/-! ## The opens -/

theorem loopOpen_fails_iff : (s.loopOpen o).1 < 0 ↔ ¬ (Taken o ∧ s.Loops) := by
  have negative : ealready < 0 ∧ einval < 0 := by decide
  unfold Loops
  cases known : s.fd with
  | none =>
      have failed : s.loopOpen o = (einval, s.setKind.push .readAgain) := by
        simp only [loopOpen, onOpen, push, setKind, known]
      rw [failed]
      refine ⟨fun _ => ?_, fun _ => negative.2⟩
      rintro ⟨_, _, same, _⟩
      cases same
  | some fd =>
      obtain ⟨takes, fails⟩ := loopOpen_spec o known
      constructor
      · intro failed
        rintro ⟨taken, _, same, free⟩
        obtain rfl := Option.some.inj same
        rcases (fails failed).1 with untaken | own
        · exact untaken taken
        · exact Bool.false_ne_true (free.symm.trans own)
      · intro bad
        by_contra succeeds
        have taken := (takes (Int.not_lt.mp succeeds)).1
        have own : s.handlers fd = true := by
          by_contra free
          exact bad ⟨taken, fd, rfl, (Bool.not_eq_true _).mp free⟩
        have failed : (s.loopOpen o).1 = ealready := by
          simp only [loopOpen, onOpen, push, setKind, known, loopAttach]
          rw [if_neg (by rw [taken.1]; decide), if_pos (.inr own)]
        rw [failed] at succeeds
        exact succeeds negative.1

/-- Whatever has failed, the client is closed. -/
theorem startClientConn_state (opened : s.state = .handshake) (failed : (s.startClientConn o).1 < 0) :
    (s.startClientConn o).2.state = .closed := by
  have abandoned {s' : Session} (opened : s'.state = .handshake) :
      (s'.abandon o.pollers).2.state = .closed :=
    (toClosed_eq (s := s'.eraseHandshaker.closeFd) opened).2.1
  have taken : (s.takeFd o.socket).state = .handshake := opened
  rw [startClientConn] at failed ⊢
  generalize s.takeFd o.socket = s₁ at taken failed ⊢
  simp only at failed ⊢
  cases socket : o.socket with
  | none => exact abandoned taken
  | some fd =>
      rw [socket] at failed
      simp only at failed ⊢
      split
      · exact abandoned taken
      · rename_i through
        rw [if_neg through] at failed
        have looped : (s₁.startHandshake.loopOpen o).2.state = .handshake :=
          (loopOpen_same o s₁.startHandshake).2.1.trans taken
        split at failed
        · rename_i refused
          rw [if_pos refused]
          exact abandoned looped
        · exact absurd failed (Int.not_lt.mpr (Int.natCast_nonneg fd))

/-- A close that has come in between leaves the socket in the state `HANDSHAKE`. -/
theorem resetAmid_refused (detach : ℤ) (closed : s.state = .closed) :
    ((s.resetAmid (some detach)).stateChange p .handshake .closed).1 = false ∧
      ((s.resetAmid (some detach)).stateChange p .handshake .closed).2.state ≠ s.state := by
  obtain ⟨state, closing⟩ := close_state detach s.resetStatus
  obtain ⟨refused, stuck⟩ :=
    toHandshake_closing (s := s.resetStatus.close detach) (p := p) (state.trans closed) closing
  refine ⟨refused, fun same => ?_⟩
  exact nomatch stuck.symm.trans (same.trans closed)

/-- A socket that is open already stays so. -/
theorem resetAmid_open (amid : Option ℤ) (opened : s.state ≠ .closed) :
    ((s.resetAmid amid).stateChange p .handshake .closed).1 = false ∧
      ((s.resetAmid amid).stateChange p .handshake .closed).2.state = s.state := by
  have state := resetAmid_state amid s
  have refused := toHandshake_refused (s := s.resetAmid amid) (p := p) (state ▸ opened)
  rw [refused]
  exact ⟨rfl, state⟩

theorem openAmid_refused
    (refused : ((s.resetAmid amid).stateChange o.pollers .handshake .closed).1 = false) :
    s.openClientAmid amid o =
        (ealready, ((s.resetAmid amid).stateChange o.pollers .handshake .closed).2) ∧
      s.openServerAmid amid o =
        (ealready, ((s.resetAmid amid).stateChange o.pollers .handshake .closed).2) := by
  unfold openClientAmid openServerAmid
  generalize (s.resetAmid amid).stateChange o.pollers .handshake .closed = changed at refused ⊢
  obtain ⟨changed, s₁⟩ := changed
  obtain rfl : changed = false := refused
  exact ⟨rfl, rfl⟩

theorem ealready_neg : ealready < 0 := by decide

/-- `open_client_conn` leaves the socket closed, unless a close comes in between. -/
theorem client_survives_iff :
    s.Survives (s.openClientAmid amid o) ↔ (s.state = .closed → amid = none) := by
  rw [survives_iff]
  by_cases closed : s.state = .closed
  · cases amid with
    | none =>
        refine ⟨fun _ _ => rfl, fun _ failed => ?_⟩
        obtain ⟨items, moved, -⟩ := toHandshake_closed (p := o.pollers) closed
        have run : s.openClientAmid none o =
            startClientConn o { s.resetStatus with state := .handshake, items := items } := by
          unfold openClientAmid resetAmid
          rw [moved]
        rw [run] at failed ⊢
        exact (startClientConn_state rfl failed).trans closed.symm
    | some detach =>
        obtain ⟨refused, stuck⟩ := resetAmid_refused (p := o.pollers) detach closed
        rw [(openAmid_refused refused).1]
        exact ⟨fun same => absurd (same ealready_neg) stuck, fun fair => nomatch fair closed⟩
  · obtain ⟨refused, same⟩ := resetAmid_open (p := o.pollers) amid closed
    rw [(openAmid_refused refused).1]
    exact ⟨fun _ is => absurd is closed, fun _ _ => same⟩

/-- The server connection is in the state `HANDSHAKE` whatever comes behind the state change. -/
theorem startServerConn_spec (opened : s.state = .handshake) :
    (s.startServerConn o).2.state = .handshake ∧
      ((s.startServerConn o).1 < 0 ↔ ¬ (Serves o ∧ s.Loops)) := by
  have loops : ({ s with opt := none }.startHandshake).Loops ↔ s.Loops := Iff.rfl
  unfold startServerConn Serves
  by_cases init : o.init < 0
  · rw [if_pos init]
    refine ⟨opened, fun _ fair => ?_, fun _ => init⟩
    exact absurd init (Int.not_lt.mpr fair.1.1)
  · rw [if_neg init]
    dsimp only
    by_cases start : o.start < 0
    · rw [if_pos start]
      refine ⟨opened, fun _ fair => ?_, fun _ => start⟩
      exact absurd start (Int.not_lt.mpr fair.1.2.1)
    · rw [if_neg start]
      refine ⟨(loopOpen_same o _).2.1.trans opened, ?_⟩
      rw [loopOpen_fails_iff, loops]
      have both : 0 ≤ o.init ∧ 0 ≤ o.start := ⟨Int.not_lt.mp init, Int.not_lt.mp start⟩
      tauto

/-- `open_server_conn` has to get through, and no close may come in between. -/
theorem server_survives_iff :
    s.Survives (s.openServerAmid amid o) ↔
      (s.state = .closed → amid = none ∧ Serves o ∧ s.Loops) := by
  rw [survives_iff]
  by_cases closed : s.state = .closed
  · cases amid with
    | none =>
        obtain ⟨items, moved, -⟩ := toHandshake_closed (p := o.pollers) closed
        have run : s.openServerAmid none o =
            startServerConn o { s.resetStatus with state := .handshake, items := items } := by
          unfold openServerAmid resetAmid
          rw [moved]
        obtain ⟨state, fails⟩ := startServerConn_spec (o := o)
          (s := { s.resetStatus with state := .handshake, items := items }) rfl
        have loops : ({ s.resetStatus with state := .handshake, items := items } : Session).Loops ↔
          s.Loops := Iff.rfl
        rw [loops] at fails
        rw [run, state, closed, fails]
        constructor
        · intro same _
          by_contra bad
          exact nomatch same fun fair => bad ⟨rfl, fair⟩
        · exact fun fair bad => absurd (fair rfl).2 bad
    | some detach =>
        obtain ⟨refused, stuck⟩ := resetAmid_refused (p := o.pollers) detach closed
        rw [(openAmid_refused refused).2]
        exact ⟨fun same => absurd (same ealready_neg) stuck, fun fair => nomatch (fair closed).1⟩
  · obtain ⟨refused, same⟩ := resetAmid_open (p := o.pollers) amid closed
    rw [(openAmid_refused refused).2]
    exact ⟨fun _ is => absurd is closed, fun _ _ => same⟩

/-- A datagram server that has been opened is not closed, with a descriptor or without. -/
theorem toWaitaccept_opened (p : Pollers) (closed : s.state = .closed) :
    (s.stateChange p .waitaccept .closed).2.state ≠ .closed := by
  obtain ⟨items, swapped, -⟩ := swap_some .waitaccept closed
  rw [stateChange, swapped]
  dsimp only
  split
  · rw [(close_state _ _).1]
    exact fun same => by cases same
  · split
    · have granted : ∀ s' : Session, s'.state = .waitaccept → s'.grant.2.state ≠ .closed := by
        intro s' waits
        obtain ⟨items, swapped, -⟩ := swap_some .establish waits
        rw [grant, swapped]
        exact fun same => by cases same
      exact granted _ rfl
    · exact fun same => by cases same

/-- `open_datagram_server` has to get through. -/
theorem datagram_survives_iff :
    s.Survives (s.openDatagramServer o) ↔ (s.state = .closed → Taken o ∧ s.Loops) := by
  rw [survives_iff]
  by_cases closed : s.state = .closed
  · have opens : ConnState.waitaccept ≠ .closed := nofun
    have moved := (toWaitaccept_closed o.pollers closed).1
    have opened := toWaitaccept_opened o.pollers closed
    have keeps : s.Keeps (s.stateChange o.pollers .waitaccept .closed).2 := stateChange_keeps opens
    unfold openDatagramServer
    generalize s.stateChange o.pollers .waitaccept .closed = changed at moved opened keeps ⊢
    obtain ⟨_ | _, s₁⟩ := changed
    · exact nomatch moved
    · have loops : s₁.Loops ↔ s.Loops := by
        unfold Loops
        rw [keeps.fd, keeps.handlers]
      have state := (loopOpen_same o s₁).2.1
      have fails : (s₁.loopOpen o).1 < 0 ↔ ¬ (Taken o ∧ s.Loops) := by
        rw [← loops]
        exact loopOpen_fails_iff
      dsimp only
      split
      · rename_i failed
        have stuck : (s₁.loopOpen o).2.closeFd.state ≠ s.state := by
          rw [closed]
          exact state ▸ opened
        have negative : esyscall < 0 := by decide
        exact ⟨fun same => absurd (same negative) stuck,
          fun fair => absurd (fair closed) (fails.mp failed)⟩
      · rename_i through
        have fair : Taken o ∧ s.Loops := by
          by_contra bad
          exact through (fails.mpr bad)
        exact ⟨fun _ _ => fair, fun _ negative => absurd negative (Int.not_lt.mpr (Int.natCast_nonneg _))⟩
  · have refused : s.openDatagramServer o = (ealready, s) := by
      unfold openDatagramServer
      rw [stateChange, swap_none closed]
    rw [refused]
    exact ⟨fun _ is => absurd is closed, fun _ _ => rfl⟩

end Session

/-- The change to `HANDSHAKE` that is refused has happened. -/
theorem Flagged.change_unchanged_iff (p : Pollers) (new old : ConnState) (s : Flagged) :
    ((s.stateChange p new old).1 = false → Unchanged s (s.stateChange p new old).2) ↔
      ¬ (new = .handshake ∧ old ≠ .handshake ∧ s.session.state = old ∧ s.session.closing = true) := by
  by_cases same : s.session.state = old
  · have through {new : ConnState} (done : (s.session.stateChange p new old).1 = true) :
        ((s.stateChange p new old).1 = false → Unchanged s (s.stateChange p new old).2) := by
      intro refused
      cases refused.symm.trans done
    obtain ⟨items, swapped, -⟩ := Session.swap_some new same
    cases new with
    | establish =>
        refine ⟨fun _ bad => (by cases bad.1), fun _ => through ?_⟩
        rw [Session.stateChange, swapped]
    | closed =>
        refine ⟨fun _ bad => (by cases bad.1), fun _ => through ?_⟩
        rw [Session.stateChange, swapped]
    | waitaccept =>
        refine ⟨fun _ bad => (by cases bad.1), fun _ => through ?_⟩
        rw [Session.stateChange, swapped]
        dsimp only
        split <;> rfl
    | handshake =>
        have moved : s.session.stateChange p .handshake old = (!s.session.closing,
            { s.session with
              state := .handshake
              items := if old = .closed then .opened :: s.session.items else s.session.items }) := by
          rw [Session.stateChange, Session.swap, if_pos same]
        cases closing : s.session.closing with
        | false =>
            refine ⟨fun _ bad => Bool.false_ne_true bad.2.2.2, fun _ => through ?_⟩
            rw [moved, closing]
            rfl
        | true =>
            unfold Flagged.stateChange
            rw [moved, closing]
            constructor
            · intro unchanged
              rintro ⟨_, other, _, _⟩
              exact other (same.symm.trans (unchanged rfl).state.symm)
            · intro fair _
              have stays : old = .handshake := by
                by_contra other
                exact fair ⟨rfl, other, same, rfl⟩
              subst stays
              refine ⟨same.symm, rfl, ?_, ?_, rfl, rfl⟩
              · simp
              · simp
  · have refused : s.session.stateChange p new old = (false, s.session) := by
      rw [Session.stateChange, Session.swap_none same]
    refine ⟨fun _ bad => same bad.2.2.1, fun _ _ => ?_⟩
    unfold Flagged.stateChange
    rw [refused]
    refine ⟨rfl, rfl, ?_, ?_, rfl, rfl⟩
    · simp
    · simp [same]

/-- A refused change changes nothing unless it is one to `HANDSHAKE` that finds `F_CLOSING`, and a
failed open can be repeated unless a close has come in between or, at a server, something behind
its state change has failed. -/
theorem refused_changes_nothing_iff (p : Pollers) (new old : ConnState) (o : OpenResults)
    (amid : Option ℤ) (s : Flagged) :
    (((s.stateChange p new old).1 = false → Unchanged s (s.stateChange p new old).2) ↔
        ¬ (new = .handshake ∧ old ≠ .handshake ∧ s.session.state = old ∧
          s.session.closing = true)) ∧
      (s.session.Survives (s.session.openClientAmid amid o) ↔
        (s.session.state = .closed → amid = none)) ∧
      (s.session.Survives (s.session.openServerAmid amid o) ↔
        (s.session.state = .closed → amid = none ∧ Session.Serves o ∧ s.session.Loops)) ∧
      (s.session.Survives (s.session.openDatagramServer o) ↔
        (s.session.state = .closed → Session.Taken o ∧ s.session.Loops)) :=
  ⟨s.change_unchanged_iff p new old, Session.client_survives_iff, Session.server_survives_iff,
    Session.datagram_survives_iff⟩

def closedClient (closing : Bool) : Flagged :=
  ⟨{ Session.start false none none with closing := closing }, false, false, false⟩

def anyOpen : OpenResults := ⟨none, 0, 0, 0, true, true, 0, ⟨0, 0⟩⟩

/-- `F_CLOSING` is set again behind the reset of an open: the change is refused, the state is
`HANDSHAKE`, and the next open is refused by it. -/
theorem refused_change_stays :
    let s := closedClient true
    let opened := (closedClient false).session.openClientAmid (some 0) anyOpen
    (s.stateChange ⟨0, 0⟩ .handshake .closed).1 = false ∧
      (s.stateChange ⟨0, 0⟩ .handshake .closed).2.session.state = .handshake ∧
      opened.1 = ealready ∧ (opened.2.openClientConn anyOpen).1 = ealready ∧
      ¬ ((s.stateChange ⟨0, 0⟩ .handshake .closed).1 = false →
        Unchanged s (s.stateChange ⟨0, 0⟩ .handshake .closed).2) := by
  refine ⟨rfl, rfl, rfl, rfl, fun unchanged => ?_⟩
  exact nomatch (unchanged rfl).state

end Cyue.Handler
