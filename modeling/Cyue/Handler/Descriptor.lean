import Cyue.Handler.Session

/-!
# The descriptor of a socket

`loop::close` closes the descriptor through `on_close`, which leaves a session
alone that is closed already.  A failed handshake closes the session without
its descriptor, and a server connection that fails to open is not known to the
loop; both keep the descriptor for ever.  Nothing else does.
-/

namespace Cyue.Handler

/-- What happens to a socket: calls of the user, events of the pollers, the sweep
of the handshakes and the tasks of the loop. -/
inductive SocketEvent where
  | openClientConn (o : OpenResults)
  | socketOpen (o : OpenResults)
  | grant
  | close (detach : ℤ)
  | polled (fd : ℕ) (ev : ReadEvent)
  | writable (fd : ℕ) (r : HandlerResult)
  | timeout (fd : Option ℕ) (p : Pollers)
  | readAgain (ev : ReadEvent)
  | writeAgain (r : HandlerResult)
  | closeTask (p : Pollers)

namespace Session

/-- Only a client calls `open_client_conn`; a poller finds the socket in `ms_h`,
and a task runs when it was pushed. -/
def step (s : Session) : SocketEvent → Session
  | .openClientConn o => if s.server then s else (s.openClientConn o).2
  | .socketOpen o => (s.socketOpen o).2
  | .grant => s.grant.2
  | .close detach => s.close detach
  | .polled fd ev => if s.handlers fd then s.loopRead ev else s
  | .writable fd r => if s.handlers fd then s.written r else s
  | .timeout fd p => s.timeout fd p
  | .readAgain ev => if s.tasks .readAgain = 0 then s else (s.pop .readAgain).loopRead ev
  | .writeAgain r =>
      if s.tasks .writeAgain = 0 then s
      else (s.pop .writeAgain).written (if s.closing then .nop else r)
  | .closeTask p => if s.tasks .close = 0 then s else (s.pop .close).loopClose p

def run (s : Session) (events : List SocketEvent) : Session := events.foldl step s

/-- Every descriptor that the socket has got and that is not its own any more was
closed once, `loop::close` has left no descriptor behind, and it leaves none when
it closes the opened socket. -/
structure Accounted (s : Session) : Prop where
  once : ∀ fd, s.obtained.count fd = s.released.count fd + if s.fd = some fd then 1 else 0
  completed : ∀ fd, fd ∈ s.completed → fd = none
  closable : s.items ≠ [] → ∀ p, (s.loopClose p).fd = none

/-! ## When the descriptor is lost -/

/-- The handshake of a socket with a descriptor is still awaited. -/
def Shaking (s : Session) : Prop :=
  s.state = .handshake ∧ s.fd ≠ none ∧ s.handshakers s.fd = true

/-- `on_read` is told that the handshake has failed. -/
def ShakeFails (ev : ReadEvent) : Prop := ev.closed = false ∧ ev.handshake = .failed

/-- `loop::open` takes a new descriptor. -/
def Taken (o : OpenResults) : Prop := o.nonblock = true ∧ o.vacant = true ∧ 0 ≤ o.attach

/-- `open_server_conn` gets through. -/
def Serves (o : OpenResults) : Prop := 0 ≤ o.init ∧ 0 ≤ o.start ∧ Taken o

/-- No awaited handshake fails or times out, and a server connection with a
descriptor opens. -/
def Permits (s : Session) : SocketEvent → Prop
  | .polled fd ev => s.handlers fd = true → s.Shaking → ¬ ShakeFails ev
  | .readAgain ev => s.tasks .readAgain ≠ 0 → s.Shaking → ¬ ShakeFails ev
  | .timeout fd _ => s.fd = fd → ¬ s.Shaking
  | .socketOpen o =>
      s.server = true → s.typed.socketType ≠ .dgram → s.state = .closed → s.fd ≠ none → Serves o
  | _ => True

structure Unopened (s : Session) : Prop where
  server : s.server = true
  state : s.state = .closed
  items : s.items = []
  handlers : ∀ fd, s.handlers fd = false
  handshakers : ∀ fd, s.handshakers fd = false
  tasks : ∀ t, s.tasks t = 0

/-- A descriptor is that of an open session, and the loop knows it. -/
def Held (s : Session) : Prop :=
  ∀ fd, s.fd = some fd → s.state ≠ .closed ∧ s.handlers fd = true

structure Tidy (s : Session) : Prop where
  once : ∀ fd, s.obtained.count fd = s.released.count fd + if s.fd = some fd then 1 else 0
  completed : ∀ fd, fd ∈ s.completed → fd = none

/-- The descriptor and its books are as they were. -/
structure Same (s s' : Session) : Prop where
  fd : s'.fd = s.fd
  obtained : s'.obtained = s.obtained
  released : s'.released = s.released
  completed : s'.completed = s.completed

/-- What most calls do: the descriptor stays, and an open session stays open. -/
structure Keeps (s s' : Session) : Prop extends Same s s' where
  handlers : s'.handlers = s.handlers
  state : s.fd ≠ none → s.state ≠ .closed → s'.state ≠ .closed

structure Frees (s s' : Session) : Prop where
  fd : s'.fd = none
  obtained : s'.obtained = s.obtained
  released : s'.released = s.fd.toList ++ s.released
  completed : s'.completed = s.completed

variable {s s' s'' : Session} {p : Pollers} {o : OpenResults} {ev : ReadEvent}

namespace Same

theorem refl (s : Session) : s.Same s := ⟨rfl, rfl, rfl, rfl⟩

theorem trans (first : s.Same s') (second : s'.Same s'') : s.Same s'' where
  fd := second.fd.trans first.fd
  obtained := second.obtained.trans first.obtained
  released := second.released.trans first.released
  completed := second.completed.trans first.completed

theorem tidy (same : s.Same s') (tidy : s.Tidy) : s'.Tidy where
  once fd := by
    rw [same.obtained, same.released, same.fd]
    exact tidy.once fd
  completed := same.completed ▸ tidy.completed

end Same

namespace Keeps

theorem refl (s : Session) : s.Keeps s := ⟨.refl s, rfl, fun _ => id⟩

theorem trans (first : s.Keeps s') (second : s'.Keeps s'') : s.Keeps s'' where
  toSame := first.toSame.trans second.toSame
  handlers := second.handlers.trans first.handlers
  state some opened := second.state (first.fd ▸ some) (first.state some opened)

theorem held (keeps : s.Keeps s') (held : s.Held) : s'.Held := by
  intro fd some
  rw [keeps.fd] at some
  obtain ⟨opened, known⟩ := held fd some
  exact ⟨keeps.state (some ▸ nofun) opened, keeps.handlers ▸ known⟩

end Keeps

namespace Frees

theorem same (frees : s.Frees s') (same : s'.Same s'') : s.Frees s'' where
  fd := same.fd.trans frees.fd
  obtained := same.obtained.trans frees.obtained
  released := same.released.trans frees.released
  completed := same.completed.trans frees.completed

theorem of_same (same : s.Same s') (frees : s'.Frees s'') : s.Frees s'' where
  fd := frees.fd
  obtained := frees.obtained.trans same.obtained
  released := by rw [frees.released, same.released, same.fd]
  completed := frees.completed.trans same.completed

theorem tidy (frees : s.Frees s') (tidy : s.Tidy) : s'.Tidy where
  once fd := by
    have once := tidy.once fd
    rw [frees.obtained, frees.released, frees.fd, once]
    cases held : s.fd with
    | none => simp
    | some f => simp [List.count_cons]
  completed := frees.completed ▸ tidy.completed

theorem held (frees : s.Frees s') : s'.Held := fun _ some => nomatch frees.fd ▸ some

end Frees

/-- A closed session without a descriptor has none to lose. -/
theorem Held.fd_none (held : s.Held) (closed : s.state = .closed) : s.fd = none := by
  cases some : s.fd with
  | none => rfl
  | some fd => exact absurd closed (held fd some).1

/-! ## What the calls do to the descriptor -/

theorem emit_keeps (state : ConnState) : s.Keeps (s.emit state) :=
  ⟨⟨rfl, rfl, rfl, rfl⟩, rfl, fun _ => id⟩

theorem push_keeps (t : LoopTask) : s.Keeps (s.push t) := ⟨⟨rfl, rfl, rfl, rfl⟩, rfl, fun _ => id⟩

theorem pop_keeps (t : LoopTask) : s.Keeps (s.pop t) := ⟨⟨rfl, rfl, rfl, rfl⟩, rfl, fun _ => id⟩

theorem resetStatus_keeps : s.Keeps s.resetStatus := ⟨⟨rfl, rfl, rfl, rfl⟩, rfl, fun _ => id⟩

theorem eraseHandshaker_keeps : s.Keeps s.eraseHandshaker := ⟨⟨rfl, rfl, rfl, rfl⟩, rfl, fun _ => id⟩

theorem startHandshake_same : s.Same s.startHandshake := ⟨rfl, rfl, rfl, rfl⟩

theorem closeFd_frees : s.Frees s.closeFd := ⟨rfl, rfl, rfl, rfl⟩

theorem typed_eq (s : Session) : ∃ socketType, s.typed = { s with socketType := socketType } := by
  rw [typed]
  split
  · exact ⟨_, rfl⟩
  · exact ⟨_, rfl⟩

theorem typed_keeps : s.Keeps s.typed := by
  obtain ⟨socketType, typed⟩ := typed_eq s
  rw [typed]
  exact ⟨⟨rfl, rfl, rfl, rfl⟩, rfl, fun _ => id⟩

theorem typed_unopened (unopened : s.Unopened) : s.typed.Unopened := by
  obtain ⟨socketType, typed⟩ := typed_eq s
  rw [typed]
  exact { unopened with }

theorem close_keeps (detach : ℤ) : s.Keeps (s.close detach) := by
  have closing : s.Keeps { s with closing := true } := ⟨⟨rfl, rfl, rfl, rfl⟩, rfl, fun _ => id⟩
  rw [close]
  simp only
  split
  · exact closing
  · split
    · exact closing
    · split
      · exact closing
      · exact ⟨⟨rfl, rfl, rfl, rfl⟩, rfl, fun _ => id⟩

theorem swap_none {new old : ConnState} (other : s.state ≠ old) : s.swap new old = none :=
  if_neg other

/-- The compare-and-swap that succeeds. -/
theorem swap_some {old : ConnState} (new : ConnState) (same : s.state = old) :
    ∃ items, s.swap new old = some { s with state := new, items := items } ∧
      (old = .closed → items ≠ []) :=
  ⟨_, if_pos same, fun closed => by rw [if_pos closed]; exact List.cons_ne_nil _ _⟩

theorem moved_keeps (new : ConnState) (items : List SessionItem) (opens : new ≠ .closed) :
    s.Keeps { s with state := new, items := items } :=
  ⟨⟨rfl, rfl, rfl, rfl⟩, rfl, fun _ _ => opens⟩

theorem grant_keeps : s.Keeps s.grant.2 := by
  rw [grant]
  by_cases same : s.state = .waitaccept
  · obtain ⟨items, swapped, -⟩ := swap_some .establish same
    rw [swapped]
    exact (moved_keeps .establish items nofun).trans (emit_keeps _)
  · rw [swap_none same]
    exact .refl s

/-- A change to another state than `CLOSED` that goes through. -/
theorem stateChange_moved {new old : ConnState} (opens : new ≠ .closed) (same : s.state = old) :
    ∃ items, { s with state := new, items := items }.Keeps (s.stateChange p new old).2 := by
  obtain ⟨items, swapped, -⟩ := swap_some new same
  refine ⟨items, ?_⟩
  rw [stateChange, swapped]
  cases new with
  | handshake => exact .refl _
  | establish => exact emit_keeps _
  | closed => exact absurd rfl opens
  | waitaccept =>
      simp only
      split
      · exact close_keeps _
      · simp only
        split
        · exact (emit_keeps _).trans grant_keeps
        · exact emit_keeps _

/-- It leaves the session open. -/
theorem stateChange_keeps {new old : ConnState} (opens : new ≠ .closed) :
    s.Keeps (s.stateChange p new old).2 := by
  by_cases same : s.state = old
  · obtain ⟨items, moved⟩ := stateChange_moved (p := p) opens same
    exact (moved_keeps new items opens).trans moved
  · rw [stateChange, swap_none same]
    exact .refl s

/-- A datagram server is open from the start. -/
theorem toWaitaccept_closed (p : Pollers) (closed : s.state = .closed) :
    (s.stateChange p .waitaccept .closed).1 = true ∧
      (s.fd ≠ none → (s.stateChange p .waitaccept .closed).2.state ≠ .closed) := by
  constructor
  · obtain ⟨items, swapped, -⟩ := swap_some .waitaccept closed
    rw [stateChange, swapped]
    simp only
    split
    · rfl
    · rfl
  · intro some
    have opens : ConnState.waitaccept ≠ .closed := nofun
    obtain ⟨items, moved⟩ := stateChange_moved (p := p) opens closed
    exact moved.state some nofun

/-- A change to `CLOSED` closes the session, and not its descriptor. -/
theorem toClosed_eq {old : ConnState} (same : s.state = old) :
    s.Same (s.stateChange p .closed old).2 ∧ (s.stateChange p .closed old).2.state = .closed ∧
      (s.stateChange p .closed old).2.items ≠ [] := by
  obtain ⟨items, swapped, -⟩ := swap_some .closed same
  rw [stateChange, swapped]
  exact ⟨⟨rfl, rfl, rfl, rfl⟩, rfl, List.cons_ne_nil _ _⟩

theorem toClosed_same {old : ConnState} : s.Same (s.stateChange p .closed old).2 := by
  by_cases same : s.state = old
  · exact (toClosed_eq same).1
  · rw [stateChange, swap_none same]
    exact .refl s

theorem toClosed_handlers {old : ConnState} :
    (s.stateChange p .closed old).2.handlers = s.handlers := by
  by_cases same : s.state = old
  · obtain ⟨items, swapped, -⟩ := swap_some .closed same
    rw [stateChange, swapped]
    rfl
  · rw [stateChange, swap_none same]

theorem onClose_frees (opened : s.state ≠ .closed) : s.Frees (s.onClose p) := by
  rw [onClose_opened opened]
  have same : s.Same (s.eraseHandshaker.stateChange p .closed s.state).2 :=
    eraseHandshaker_keeps.toSame.trans toClosed_same
  exact .of_same same closeFd_frees

theorem abandon_frees : s.Frees (s.abandon p).2 := by
  have freed : s.Frees s.eraseHandshaker.closeFd := .of_same eraseHandshaker_keeps.toSame closeFd_frees
  exact freed.same toClosed_same

theorem toHandshake_other (other : s.state ≠ .closed) :
    s.resetStatus.stateChange p .handshake .closed = (false, s.resetStatus) := by
  have swapped : s.resetStatus.swap .handshake .closed = none := swap_none other
  rw [stateChange, swapped]

theorem toHandshake_closed (closed : s.state = .closed) :
    ∃ items, s.resetStatus.stateChange p .handshake .closed =
      (true, { s.resetStatus with state := .handshake, items := items }) ∧ items ≠ [] := by
  have same : s.resetStatus.state = .closed := closed
  obtain ⟨items, swapped, some⟩ := swap_some .handshake same
  refine ⟨items, ?_, some rfl⟩
  rw [stateChange, swapped]
  rfl

/-- `loop::open` takes the descriptor when the system lets it and no handler
stands there; otherwise the loop knows no more descriptors than before. -/
theorem loopAttach_spec (o : OpenResults) (fd : ℕ) (s : Session) :
    ∃ r known, s.loopAttach o fd = (r, { s with handlers := known }) ∧
      (0 ≤ r → Taken o ∧ known fd = true) ∧
      (r < 0 → (¬ Taken o ∨ s.handlers fd = true) ∧
        ∀ f, s.handlers f = false → known f = false) := by
  rw [loopAttach]
  by_cases blocks : o.nonblock = false
  · have untaken : ¬ Taken o := fun taken => nomatch taken.1.symm.trans blocks
    exact ⟨esyscall, s.handlers, if_pos blocks, fun r => absurd r (by decide),
      fun _ => ⟨.inl untaken, fun _ => id⟩⟩
  · rw [if_neg blocks]
    by_cases occupied : o.vacant = false ∨ s.handlers fd = true
    · refine ⟨ealready, _, if_pos occupied, fun r => absurd r (by decide), fun _ => ⟨?_, fun f free => ?_⟩⟩
      · rcases occupied with other | own
        · exact .inl fun taken => nomatch taken.2.1.symm.trans other
        · exact .inr own
      · rw [Function.update_apply]
        split
        · rfl
        · exact free
    · rw [if_neg occupied]
      by_cases refused : o.attach < 0
      · have untaken : ¬ Taken o := fun taken => not_le.mpr refused taken.2.2
        exact ⟨o.attach, s.handlers, if_pos refused, fun r => absurd refused (not_lt.mpr r),
          fun _ => ⟨.inl untaken, fun _ => id⟩⟩
      · obtain ⟨vacant, _⟩ := not_or.mp occupied
        have taken : Taken o := ⟨(Bool.not_eq_false _).mp blocks, (Bool.not_eq_false _).mp vacant,
          not_lt.mp refused⟩
        exact ⟨0, _, if_neg refused, fun _ => ⟨taken, Function.update_self _ _ _⟩,
          fun r => absurd r (by decide)⟩

/-- `loop::open` leaves the descriptor and the session as they are. -/
theorem loopOpen_same (o : OpenResults) (s : Session) :
    s.Same (s.loopOpen o).2 ∧ (s.loopOpen o).2.state = s.state ∧
      (s.loopOpen o).2.items = s.items := by
  rw [loopOpen]
  split
  · next s' opened =>
      obtain ⟨_, rfl⟩ := Prod.mk.inj opened
      exact ⟨⟨rfl, rfl, rfl, rfl⟩, rfl, rfl⟩
  · next fd s' opened =>
      obtain ⟨_, rfl⟩ := Prod.mk.inj opened
      obtain ⟨r, known, attached, -⟩ := loopAttach_spec o fd (s.setKind.push .readAgain)
      rw [attached]
      exact ⟨⟨rfl, rfl, rfl, rfl⟩, rfl, rfl⟩

/-- `loop::open` on a descriptor makes it known, or fails. -/
theorem loopOpen_spec (o : OpenResults) {s : Session} {fd : ℕ} (some : s.fd = some fd) :
    (0 ≤ (s.loopOpen o).1 → Taken o ∧ (s.loopOpen o).2.handlers fd = true) ∧
      ((s.loopOpen o).1 < 0 → (¬ Taken o ∨ s.handlers fd = true) ∧
        ∀ f, s.handlers f = false → (s.loopOpen o).2.handlers f = false) := by
  have opened : s.loopOpen o = (s.setKind.push .readAgain).loopAttach o fd := by
    simp only [loopOpen, onOpen, push, setKind, some]
  obtain ⟨r, known, attached, takes, fails⟩ := loopAttach_spec o fd (s.setKind.push .readAgain)
  rw [opened, attached]
  exact ⟨takes, fails⟩

/-- A descriptor is taken by a socket that has none. -/
theorem Tidy.take (tidy : s.Tidy) (nothing : s.fd = none) (fd : Option ℕ) : (s.takeFd fd).Tidy where
  once f := by
    have once := tidy.once f
    rw [nothing] at once
    cases fd with
    | none => exact once
    | some fd =>
        show (fd :: s.obtained).count f = s.released.count f + if some fd = some f then 1 else 0
        rw [List.count_cons, once]
        simp
  completed := tidy.completed

theorem Frees.sound (frees : s.Frees s') (tidy : s.Tidy) : s'.Tidy ∧ s'.Held :=
  ⟨frees.tidy tidy, frees.held⟩

theorem startClientConn_sound (tidy : s.Tidy) (nothing : s.fd = none)
    (opened : s.state ≠ .closed) :
    (s.startClientConn o).2.Tidy ∧ (s.startClientConn o).2.Held := by
  have taken : (s.takeFd o.socket).Tidy := tidy.take nothing o.socket
  have opens : (s.takeFd o.socket).state ≠ .closed := opened
  have own : (s.takeFd o.socket).fd = o.socket := rfl
  rw [startClientConn]
  generalize s.takeFd o.socket = s₁ at taken opens own ⊢
  simp only
  cases socket : o.socket with
  | none => exact abandon_frees.sound taken
  | some fd =>
      simp only
      split
      · exact abandon_frees.sound taken
      · obtain ⟨same, state, -⟩ := loopOpen_same o s₁.startHandshake
        have looped : (s₁.startHandshake.loopOpen o).2.Tidy :=
          (startHandshake_same.trans same).tidy taken
        split
        · exact abandon_frees.sound looped
        · next succeeds =>
            refine ⟨looped, fun f some => ?_⟩
            rw [same.fd] at some
            refine ⟨state ▸ opens, ?_⟩
            exact (((loopOpen_spec o some).1) (not_lt.mp succeeds)).2

/-- `open_client_conn` takes a new descriptor, and closes it when it fails. -/
theorem openClientConn_sound (tidy : s.Tidy) (held : s.Held) :
    (s.openClientConn o).2.Tidy ∧ (s.openClientConn o).2.Held := by
  rw [openClientConn]
  by_cases closed : s.state = .closed
  · obtain ⟨items, moved, -⟩ := toHandshake_closed (p := o.pollers) closed
    rw [moved]
    have same : s.Same { s.resetStatus with state := .handshake, items := items } := ⟨rfl, rfl, rfl, rfl⟩
    exact startClientConn_sound (same.tidy tidy) (held.fd_none closed) nofun
  · rw [toHandshake_other closed]
    exact ⟨resetStatus_keeps.toSame.tidy tidy, resetStatus_keeps.held held⟩

theorem startServerConn_same (o : OpenResults) (s : Session) :
    s.Same (s.startServerConn o).2 ∧ (s.startServerConn o).2.state = s.state ∧
      (s.startServerConn o).2.items = s.items := by
  rw [startServerConn]
  split
  · exact ⟨.refl s, rfl, rfl⟩
  · simp only
    split
    · exact ⟨⟨rfl, rfl, rfl, rfl⟩, rfl, rfl⟩
    · obtain ⟨same, state, items⟩ := loopOpen_same o { s with opt := none }.startHandshake
      have before : s.Same { s with opt := none }.startHandshake := ⟨rfl, rfl, rfl, rfl⟩
      exact ⟨before.trans same, state, items⟩

/-- A server connection that the loop does not know yet becomes known exactly
when it gets through. -/
theorem startServerConn_known {fd : ℕ} (some : s.fd = some fd) (free : ∀ f, s.handlers f = false) :
    (Serves o → (s.startServerConn o).2.handlers fd = true) ∧
      (¬ Serves o → ∀ f, (s.startServerConn o).2.handlers f = false) := by
  rw [startServerConn]
  split
  · next failed => exact ⟨fun serves => absurd serves.1 (not_le.mpr failed), fun _ => free⟩
  · next init =>
      simp only
      split
      · next failed => exact ⟨fun serves => absurd serves.2.1 (not_le.mpr failed), fun _ => free⟩
      · next start =>
          obtain ⟨takes, fails⟩ := loopOpen_spec o (s := { s with opt := none }.startHandshake) some
          rcases lt_or_ge ({ s with opt := none }.startHandshake.loopOpen o).1 0 with failed | opened
          · obtain ⟨refused, unknown⟩ := fails failed
            have untaken : ¬ Taken o := refused.resolve_right fun known => nomatch (free fd) ▸ known
            exact ⟨fun serves => absurd serves.2.2 untaken, fun _ f => unknown f (free f)⟩
          · obtain ⟨taken, known⟩ := takes opened
            exact ⟨fun _ => known, fun unserved =>
              absurd ⟨not_lt.mp init, not_lt.mp start, taken⟩ unserved⟩

theorem openServerConn_sound (tidy : s.Tidy) (held : s.Held ∨ s.Unopened)
    (serves : s.state = .closed → s.fd ≠ none → Serves o) :
    (s.openServerConn o).2.Tidy ∧ (s.openServerConn o).2.Held := by
  rw [openServerConn]
  by_cases closed : s.state = .closed
  · obtain ⟨items, moved, -⟩ := toHandshake_closed (p := o.pollers) closed
    rw [moved]
    generalize before : ({ s.resetStatus with state := .handshake, items := items } : Session) = s₁
    have same₁ : s.Same s₁ := before ▸ ⟨rfl, rfl, rfl, rfl⟩
    have known₁ : s₁.handlers = s.handlers := before ▸ rfl
    have state₁ : s₁.state = .handshake := before ▸ rfl
    obtain ⟨same, state, -⟩ := startServerConn_same o s₁
    refine ⟨(same₁.trans same).tidy tidy, fun fd some => ?_⟩
    rw [same.fd] at some
    have own : s.fd = Option.some fd := same₁.fd.symm.trans some
    rcases held with held | unopened
    · exact absurd closed (held fd own).1
    · have free : ∀ f, s₁.handlers f = false := known₁ ▸ unopened.handlers
      have known := (startServerConn_known some free).1 (serves closed (own ▸ nofun))
      refine ⟨?_, known⟩
      rw [state, state₁]
      exact nofun
  · rw [toHandshake_other closed]
    rcases held with held | unopened
    · exact ⟨resetStatus_keeps.toSame.tidy tidy, resetStatus_keeps.held held⟩
    · exact absurd unopened.state closed

/-- `open_datagram_server` closes the descriptor when the loop does not take it. -/
theorem openDatagramServer_sound (tidy : s.Tidy) (held : s.Held ∨ s.Unopened) :
    (s.openDatagramServer o).2.Tidy ∧ (s.openDatagramServer o).2.Held := by
  rw [openDatagramServer]
  by_cases closed : s.state = .closed
  · obtain ⟨swapped, opens⟩ := toWaitaccept_closed o.pollers closed
    have keeps : s.Keeps (s.stateChange o.pollers .waitaccept .closed).2 := stateChange_keeps nofun
    generalize s.stateChange o.pollers .waitaccept .closed = changed at swapped opens keeps ⊢
    obtain ⟨_, s₁⟩ := changed
    cases swapped
    obtain ⟨same, state, -⟩ := loopOpen_same o s₁
    have looped : (s₁.loopOpen o).2.Tidy := (keeps.toSame.trans same).tidy tidy
    simp only
    split
    · exact closeFd_frees.sound looped
    · next succeeds =>
        refine ⟨looped, fun fd some => ?_⟩
        rw [same.fd] at some
        have own : s.fd = Option.some fd := keeps.fd.symm.trans some
        exact ⟨state ▸ opens (own ▸ nofun), ((loopOpen_spec o some).1 (not_lt.mp succeeds)).2⟩
  · rw [stateChange, swap_none closed]
    rcases held with held | unopened
    · exact ⟨tidy, held⟩
    · exact absurd unopened.state closed

theorem typed_server : s.typed.server = s.server := by
  obtain ⟨socketType, typed⟩ := typed_eq s
  rw [typed]

theorem typed_state : s.typed.state = s.state := by
  obtain ⟨socketType, typed⟩ := typed_eq s
  rw [typed]

theorem socketOpen_client (client : s.server = false) : (s.socketOpen o).2 = s.typed := by
  have client : s.typed.server = false := typed_server.trans client
  simp only [socketOpen, client, Bool.false_eq_true, if_false]

theorem socketOpen_server (server : s.server = true) :
    (s.socketOpen o).2 = (if s.typed.socketType = .dgram then s.typed.openDatagramServer o
      else s.typed.openServerConn o).2 := by
  have server : s.typed.server = true := typed_server.trans server
  simp only [socketOpen, server, if_true, apply_ite Prod.snd, ite_self]

theorem handshaken_keeps {fd : Option ℕ} {success : Bool}
    (calm : success = false → s.fd = fd → s.state = .handshake → s.fd = none) :
    s.Keeps (s.handshaken fd success p).2 := by
  rw [handshaken]
  split
  · exact .refl s
  · next own =>
      split
      · next shaking =>
          cases success with
          | true => exact stateChange_keeps nofun
          | false =>
              have nothing := calm rfl (not_not.mp own) shaking
              exact ⟨toClosed_same, toClosed_handlers, fun some => absurd nothing some⟩
      · exact .refl s
      · exact .refl s

theorem onReadImpl_keeps (calm : s.Shaking → ¬ ShakeFails ev) : s.Keeps (s.onReadImpl ev).2 := by
  rw [onReadImpl]
  split
  · next shaking =>
      split
      · exact .refl s
      · next unclosed =>
          split
          · exact .refl s
          · exact .refl s
          · next failed =>
              simp only
              split
              · next awaited =>
                  have nothing : s.fd = none := by
                    by_contra some
                    exact calm ⟨shaking, some, awaited⟩ ⟨(Bool.not_eq_true _).mp unclosed, failed⟩
                  exact eraseHandshaker_keeps.trans (handshaken_keeps fun _ _ _ => nothing)
              · exact .refl s
          · split
            · exact eraseHandshaker_keeps.trans (handshaken_keeps nofun)
            · exact .refl s
  · exact .refl s
  · exact .refl s
  · exact .refl s

theorem loopRead_keeps (calm : s.Shaking → ¬ ShakeFails ev) : s.Keeps (s.loopRead ev) := by
  have read : s.Keeps (s.onRead ev).2 := onReadImpl_keeps calm
  rw [loopRead]
  generalize s.onRead ev = result at read ⊢
  obtain ⟨r, s₁⟩ := result
  cases r with
  | keep => exact read.trans (push_keeps _)
  | destroy => exact read.trans (push_keeps _)
  | readAgain => exact read
  | writeAgain => exact read
  | nop => exact read

theorem written_keeps (r : HandlerResult) : s.Keeps (s.written r) := by
  cases r with
  | keep => exact push_keeps _
  | destroy => exact push_keeps _
  | readAgain => exact .refl s
  | writeAgain => exact .refl s
  | nop => exact .refl s

theorem timeout_keeps {fd : Option ℕ} (calm : s.fd = fd → ¬ s.Shaking) : s.Keeps (s.timeout fd p) := by
  rw [timeout]
  split
  · next awaited =>
      have erased : s.Keeps { s with handshakers := Function.update s.handshakers fd false } :=
        ⟨⟨rfl, rfl, rfl, rfl⟩, rfl, fun _ => id⟩
      refine erased.trans (handshaken_keeps fun _ own shaking => ?_)
      by_contra some
      have own : s.fd = fd := own
      exact calm own ⟨shaking, some, own ▸ awaited⟩
  · exact .refl s

theorem loopDetach_known {fd : ℕ} (own : s.fd = some fd) (known : s.handlers fd = true) :
    s.loopDetach p = (s.removeHandler fd).onClose p := by
  rw [loopDetach, own]
  exact if_pos known

/-- `loop::close` closes a descriptor that the loop knows. -/
theorem loopDetach_held (held : s.Held) : s.Frees (s.loopDetach p) := by
  cases own : s.fd with
  | none =>
      rw [loopDetach, own]
      exact ⟨own, rfl, by rw [own]; rfl, rfl⟩
  | some fd =>
      obtain ⟨opened, known⟩ := held fd own
      have opened : (s.removeHandler fd).state ≠ .closed := opened
      have same : s.Same (s.removeHandler fd) := ⟨rfl, rfl, rfl, rfl⟩
      rw [loopDetach_known own known]
      exact .of_same same (onClose_frees opened)

/-- When `loop::close` closes the descriptor it completes with `INVALID_FD`. -/
theorem loopClose_sound (tidy : s.Tidy) (held : s.Held) :
    (s.loopClose p).Tidy ∧ (s.loopClose p).Held := by
  have frees : s.Frees (s.loopDetach p) := loopDetach_held held
  have freed := frees.tidy tidy
  refine ⟨⟨freed.once, fun fd member => ?_⟩, frees.held⟩
  rcases List.mem_cons.mp member with rfl | before
  · exact frees.fd
  · exact freed.completed fd before

/-! ## A step keeps the invariant -/

theorem socketOpen_sound (tidy : s.Tidy) (held : s.Held ∨ s.Unopened)
    (permits : s.Permits (.socketOpen o)) :
    (s.socketOpen o).2.Tidy ∧ (s.socketOpen o).2.Held := by
  have typed := (typed_keeps (s := s)).toSame.tidy tidy
  have held' : s.typed.Held ∨ s.typed.Unopened := held.imp typed_keeps.held typed_unopened
  cases server : s.server with
  | false =>
      rw [socketOpen_client server]
      rcases held with held | unopened
      · exact ⟨typed, typed_keeps.held held⟩
      · exact nomatch server.symm.trans unopened.server
  | true =>
      rw [socketOpen_server server]
      split
      · exact openDatagramServer_sound typed held'
      · next stream =>
          refine openServerConn_sound typed held' fun closed some => ?_
          rw [typed_state] at closed
          rw [typed_keeps.fd] at some
          exact permits server stream closed some

/-- An event that is permitted keeps the books in order. -/
theorem step_sound {e : SocketEvent} (tidy : s.Tidy) (held : s.Held) (permits : s.Permits e) :
    (s.step e).Tidy ∧ (s.step e).Held := by
  have kept {s' : Session} (keeps : s.Keeps s') : s'.Tidy ∧ s'.Held :=
    ⟨keeps.toSame.tidy tidy, keeps.held held⟩
  cases e with
  | openClientConn o =>
      rw [step]
      split
      · exact ⟨tidy, held⟩
      · exact openClientConn_sound tidy held
  | socketOpen o => exact socketOpen_sound tidy (.inl held) permits
  | grant => exact kept grant_keeps
  | close detach => exact kept (close_keeps detach)
  | polled fd ev =>
      rw [step]
      split
      · next known => exact kept (loopRead_keeps (permits known))
      · exact ⟨tidy, held⟩
  | writable fd r =>
      rw [step]
      split
      · exact kept (written_keeps r)
      · exact ⟨tidy, held⟩
  | timeout fd p => exact kept (timeout_keeps permits)
  | readAgain ev =>
      rw [step]
      split
      · exact ⟨tidy, held⟩
      · next pending =>
          have calm : (s.pop .readAgain).Shaking → ¬ ShakeFails ev := permits pending
          exact kept ((pop_keeps _).trans (loopRead_keeps calm))
  | writeAgain r =>
      rw [step]
      split
      · exact ⟨tidy, held⟩
      · exact kept ((pop_keeps _).trans (written_keeps _))
  | closeTask p =>
      rw [step]
      split
      · exact ⟨tidy, held⟩
      · have keeps : s.Keeps (s.pop .close) := pop_keeps _
        exact loopClose_sound (keeps.toSame.tidy tidy) (keeps.held held)

theorem Tidy.accounted (tidy : s.Tidy) (held : s.Held ∨ s.Unopened) : s.Accounted where
  once := tidy.once
  completed := tidy.completed
  closable opened p := by
    rcases held with held | unopened
    · exact (loopDetach_held held).fd
    · exact absurd unopened.items opened

def refused : ReadEvent := ⟨false, false, .failed, .nop, ⟨0, 0⟩⟩

end Session

end Cyue.Handler
