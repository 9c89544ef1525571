import Cyue.Fiber.Respond

/-!
# Calls between nodes

Any number of nodes with a fabric each, in large steps.  A coroutine that calls registers
its yield and then sends the request, a node that gets the request starts a fiber for it,
and what that fiber sends in the end is a response under the same msgid.  Packets may
arrive in any order, more than once or never.

A node does not look at where a response comes from.  It is the msgids alone that keep the
calls apart.
-/

namespace Cyue.Fibers

/-! ## Packets -/

/-- A message on its way from one node to another. -/
structure Packet where
  src : ℕ
  dst : ℕ
  message : Message
  deriving DecidableEq, Repr

/-- The fiber `serial` of `node` has called `dst`. -/
structure Call where
  node : ℕ
  serial : ℕ
  msgid : ℕ
  dst : ℕ
  deriving DecidableEq, Repr

def Packed.msgid : Packed → ℕ
  | .response msgid | .error msgid => msgid

/-- What `m_endp.send` puts on the way; an error is a response too. -/
def Sent.packet (node : ℕ) (m : Sent) : Option Packet :=
  match m.endp with
  | .nop => none
  | .peer id => some ⟨node, id, .response m.packed.msgid⟩

/-- A fiber that was started for the request of `caller` has sent its message. -/
def Fabric.Replied {W : Type} (s : Fabric W) (caller msgid : ℕ) : Prop :=
  ∃ m ∈ s.sent, m.endp = .peer caller ∧ m.packed.msgid = msgid ∧
    s.started[m.serial]? = some (.peer caller, msgid)

/-! ## Nodes and what is between them -/

/-- `calls` records the calls that were made. -/
structure Nodes (N : Type) where
  nodes : ℕ → N
  wire : List Packet
  calls : List Call

namespace Nodes

variable {N : Type}

def Called (w : Nodes N) (src msgid dst : ℕ) : Prop := ∃ n, ⟨src, n, msgid, dst⟩ ∈ w.calls

def Uncalled (w : Nodes N) (node msgid : ℕ) : Prop :=
  ∀ c ∈ w.calls, (c.node, c.msgid) ≠ (node, msgid)

instance (w : Nodes N) (node msgid : ℕ) : Decidable (w.Uncalled node msgid) :=
  inferInstanceAs (Decidable (∀ c ∈ w.calls, _))

/-- The node goes on in another state; what is sent there is on its way. -/
def put (w : Nodes N) (node : ℕ) (s : N) (sent : List Sent) : Nodes N :=
  { w with
    nodes := Function.update w.nodes node s
    wire := w.wire ++ sent.filterMap (Sent.packet node) }

def request (w : Nodes N) (c : Call) : Nodes N :=
  { w with
    wire := w.wire ++ [⟨c.node, c.dst, .request c.msgid⟩]
    calls := w.calls ++ [c] }

def callsTo (w : Nodes N) (src msgid dst : ℕ) : ℕ :=
  w.calls.countP fun c => c.node = src ∧ c.msgid = msgid ∧ c.dst = dst

def lose (w : Nodes N) (i : ℕ) : Nodes N := { w with wire := w.wire.eraseIdx i }

def duplicate (w : Nodes N) (i : ℕ) : Nodes N :=
  { w with wire := w.wire ++ (w.wire[i]?).toList }

end Nodes

/-! ## The nodes in large steps -/

abbrev Exchange : Type := Nodes Atomic

def Event.inner : Event → Bool
  | .recv .. => false
  | _ => true

namespace Exchange

inductive Act where
  | inner (node : ℕ) (event : Event)
  /-- a fiber that has registered a yield sends the request for it to `dst` -/
  | post (node f dst : ℕ)
  /-- the packet at `i` arrives, on the thread `t` of its node -/
  | deliver (i t : ℕ) (got : Option ℕ)
  | lose (i : ℕ)
  | duplicate (i : ℕ)

def start : Exchange := ⟨fun _ => .init, [], []⟩

def advance (w : Exchange) (node : ℕ) (event : Event) : Exchange :=
  let s := w.nodes node
  let s' := Atomic.step s event
  w.put node s' (s'.sent.drop s.sent.length)

def post (w : Exchange) (node f dst : ℕ) : Exchange :=
  let fiber := (w.nodes node).fibers f
  match fiber.co with
  | .suspended msgid =>
      if w.Uncalled node msgid then w.request ⟨node, fiber.serial, msgid, dst⟩ else w
  | _ => w

def deliver (w : Exchange) (i t : ℕ) (got : Option ℕ) : Exchange :=
  match w.wire[i]? with
  | none => w
  | some p =>
      if (w.nodes p.dst).busy t = none then
        advance (w.lose i) p.dst (.recv t (.peer p.src) p.message got)
      else w

def step (w : Exchange) : Act → Exchange
  | .inner node event => if event.inner then w.advance node event else w
  | .post node f dst => w.post node f dst
  | .deliver i t got => w.deliver i t got
  | .lose i => w.lose i
  | .duplicate i => w.duplicate i

def Fresh (w : Exchange) : Act → Prop
  | .inner node event => Fibers.Fresh (w.nodes node) event
  | _ => True

end Exchange

/-! ## What an event adds to its node -/

namespace Atomic

/-- A response is about to resume a coroutine, or has resumed one. -/
def Answers (s : Atomic) (msgid : ℕ) : Prop :=
  (∃ t f, s.busy t = some (f, .response msgid)) ∨
    (∃ t f, (f, Stimulus.response msgid) ∈ s.fque t) ∨
      ∃ r ∈ s.resumptions, r.stimulus = .response msgid

/-- Nothing is taken back, and what is new has its cause. -/
structure Adds (s : Atomic) (event : Event) (s' : Atomic) : Prop where
  started : ∃ more, s'.started = s.started ++ more ∧ ∀ origin ∈ more, Begins event origin
  sent : ∃ more, s'.sent = s.sent ++ more ∧
    ∀ m ∈ more, s.started[m.serial]? = some (m.endp, m.packed.msgid)
  yields : s.yields <+: s'.yields
  answers : ∀ msgid, s'.Answers msgid → s.Answers msgid ∨
    ∃ t endp got, event = .recv t endp (.response msgid) got

variable {s s' : Atomic} {event : Event} {f msgid : ℕ} {stimulus : Stimulus}

theorem Adds.nothing (s : Atomic) (event : Event) : Adds s event s where
  started := ⟨[], (List.append_nil _).symm, by rintro _ ⟨⟩⟩
  sent := ⟨[], (List.append_nil _).symm, by rintro _ ⟨⟩⟩
  yields := List.prefix_rfl
  answers _ answers := .inl answers

/-- What a thread has given up does not answer any more. -/
theorem answers_release {t : ℕ} (answers : Answers (s.work t none) msgid) : s.Answers msgid := by
  rcases answers with ⟨t', f', held⟩ | rest
  · refine .inl ?_
    rcases held_other held with ⟨-, same⟩ | ⟨-, there⟩
    · cases same
    · exact ⟨t', f', there⟩
  · exact .inr rest

/-- What is handed on answers as before, or answers with what was taken. -/
theorem answers_taken {heard : Bool} (taken : Taken s f stimulus heard s')
    (answers : s'.Answers msgid) : s.Answers msgid ∨ stimulus = .response msgid := by
  cases taken with
  | dropped => exact .inl answers
  | queued =>
      rcases answers with held | ⟨t', f', member⟩ | resumed
      · exact .inl (.inl held)
      · rcases mem_push member with earlier | ⟨-, equal⟩
        · exact .inl (.inr (.inl ⟨t', f', earlier⟩))
        · cases equal
          exact .inr rfl
      · exact .inl (.inr (.inr resumed))
  | resumed =>
      rcases answers with held | queued | ⟨r, member, equal⟩
      · exact .inl (.inl held)
      · exact .inl (.inr (.inl queued))
      · rcases List.mem_append.mp member with earlier | last
        · exact .inl (.inr (.inr ⟨r, earlier, equal⟩))
        · obtain rfl := List.mem_singleton.mp last
          exact .inr equal

theorem report_adds (sound : s.Sound) (accounts : s.Accounts) (o : Outcome)
    (running : (s.fibers f).co = .running) : Adds s event (s.report f o) := by
  have nothing := Adds.nothing s event
  have origin := accounts.origin f (sound.running f running)
  cases o with
  | yield key limit e =>
      exact ⟨nothing.started, nothing.sent, List.prefix_append _ _, nothing.answers⟩
  | finish =>
      refine ⟨nothing.started, ⟨_, rfl, ?_⟩, nothing.yields, nothing.answers⟩
      intro m member
      obtain rfl := List.mem_singleton.mp member
      exact origin
  | error =>
      refine ⟨nothing.started, ⟨_, rfl, ?_⟩, nothing.yields, nothing.answers⟩
      intro m member
      obtain rfl := List.mem_singleton.mp member
      exact origin

theorem turn_adds (sound : s.Sound) (accounts : s.Accounts) (turn : Turn s event s') :
    Adds s event s' := by
  have nothing := Adds.nothing s event
  cases turn with
  | nothing => exact nothing
  | @start _ t msgid f endp begins free =>
      refine ⟨⟨[(endp, msgid)], rfl, ?_⟩, nothing.sent, nothing.yields, nothing.answers⟩
      intro origin member
      obtain rfl := List.mem_singleton.mp member
      exact begins
  | @take _ t e stimulus brought empty held elapsed =>
      refine ⟨nothing.started, nothing.sent, nothing.yields, ?_⟩
      rintro msgid (⟨t', f', there⟩ | rest)
      · rcases held_other there with ⟨-, same⟩ | ⟨-, there⟩
        · obtain ⟨-, rfl⟩ := Prod.mk.inj (Option.some.inj same)
          exact .inr brought
        · exact .inl (.inl ⟨t', f', there⟩)
      · exact .inl (.inr rest)
  | @give t f stimulus mem _ held taken =>
      obtain ⟨started, sent, yields, -⟩ := taken.records
      refine ⟨⟨[], started.trans (List.append_nil _).symm, by rintro _ ⟨⟩⟩,
        ⟨[], sent.trans (List.append_nil _).symm, by rintro _ ⟨⟩⟩, yields ▸ List.prefix_rfl, ?_⟩
      intro msgid answers
      refine .inl ?_
      rcases answers_taken taken answers with before | rfl
      · exact answers_release before
      · exact .inl ⟨t, f, held⟩
  | @task _ t f stimulus rest queue =>
      refine ⟨nothing.started, nothing.sent, nothing.yields, ?_⟩
      intro msgid answers
      refine .inl ?_
      rcases answers_taken (s := s.dequeue t rest) (@Taken.resumed _ _ _ true) answers with before | rfl
      · exact before.imp_right (Or.imp_left fun ⟨t', f', member⟩ => ⟨t', f', mem_pop queue member⟩)
      · refine .inr (.inl ⟨t, f, ?_⟩)
        rw [queue]
        exact List.mem_cons_self
  | report running _ => exact report_adds sound accounts _ running

theorem Good.adds (good : s.Good) (event : Event) : Adds s event (s.step event) :=
  turn_adds good.sound good.accounts (step_turn good.sound event)

end Atomic

/-! ## What the packets stand for -/

namespace Exchange

variable {w w' : Exchange} {node : ℕ} {event : Event}

/-- A request belongs to a call and a response to the fiber that was started for it. -/
structure Agrees (w : Exchange) : Prop where
  good : ∀ node, (w.nodes node).Good
  requests : ∀ p ∈ w.wire, ∀ msgid, p.message = .request msgid → w.Called p.src msgid p.dst
  responses : ∀ p ∈ w.wire, ∀ msgid, p.message = .response msgid → (w.nodes p.src).Replied p.dst msgid
  started : ∀ node src msgid, (.peer src, msgid) ∈ (w.nodes node).started → w.Called src msgid node
  answers : ∀ node msgid, (w.nodes node).Answers msgid → ∃ callee, (w.nodes callee).Replied node msgid
  calls : ∀ c ∈ w.calls, ∃ y, (c.serial, y) ∈ (w.nodes c.node).yields ∧ y.msgid = c.msgid
  distinct : (w.calls.map fun c => (c.node, c.msgid)).Nodup

structure Grows (w w' : Exchange) : Prop where
  calls : w.calls <+: w'.calls
  started : ∀ node, (w.nodes node).started <+: (w'.nodes node).started
  sent : ∀ node, (w.nodes node).sent <+: (w'.nodes node).sent
  yields : ∀ node, (w.nodes node).yields <+: (w'.nodes node).yields

theorem Grows.called (grows : Grows w w') {src msgid dst : ℕ} (called : w.Called src msgid dst) :
    w'.Called src msgid dst := by
  obtain ⟨n, member⟩ := called
  exact ⟨n, grows.calls.subset member⟩

theorem Grows.replied (grows : Grows w w') {callee caller msgid : ℕ}
    (replied : (w.nodes callee).Replied caller msgid) :
    (w'.nodes callee).Replied caller msgid := by
  obtain ⟨m, member, endp, packed, origin⟩ := replied
  refine ⟨m, (grows.sent callee).subset member, endp, packed, ?_⟩
  obtain ⟨more, started⟩ := grows.started callee
  rw [← started, List.getElem?_append_left (List.getElem?_eq_some_iff.mp origin).1]
  exact origin

theorem advance_self (w : Exchange) (node : ℕ) (event : Event) :
    (w.advance node event).nodes node = (w.nodes node).step event := Function.update_self ..

theorem advance_other (w : Exchange) {node node' : ℕ} (event : Event) (other : node' ≠ node) :
    (w.advance node event).nodes node' = w.nodes node' := Function.update_of_ne other ..

theorem advance_grows (good : (w.nodes node).Good) (event : Event) : Grows w (w.advance node event) := by
  obtain ⟨⟨_, started, -⟩, ⟨_, sent, -⟩, yields, -⟩ := good.adds event
  have each : ∀ node', (w.nodes node').started <+: ((w.advance node event).nodes node').started ∧
      (w.nodes node').sent <+: ((w.advance node event).nodes node').sent ∧
      (w.nodes node').yields <+: ((w.advance node event).nodes node').yields := by
    intro node'
    by_cases same : node' = node
    · subst same
      rw [advance_self, started, sent]
      exact ⟨List.prefix_append _ _, List.prefix_append _ _, yields⟩
    · rw [advance_other w event same]
      exact ⟨List.prefix_rfl, List.prefix_rfl, List.prefix_rfl⟩
  exact ⟨List.prefix_rfl, fun n => (each n).1, fun n => (each n).2.1, fun n => (each n).2.2⟩

/-- The packets that an event sends are responses of its fibers. -/
theorem advance_wire (good : (w.nodes node).Good) (event : Event) {p : Packet}
    (member : p ∈ (w.advance node event).wire) :
    p ∈ w.wire ∨ p.src = node ∧ ∃ msgid, p.message = .response msgid ∧
      ((w.advance node event).nodes node).Replied p.dst msgid := by
  obtain ⟨-, ⟨more, sent, origins⟩, -, -⟩ := good.adds event
  rcases List.mem_append.mp member with old | new
  · exact .inl old
  · rw [sent, List.drop_left] at new
    obtain ⟨m, here, packet⟩ := List.mem_filterMap.mp new
    have origin := origins m here
    unfold Sent.packet at packet
    cases endp : m.endp with
    | nop =>
        rw [endp] at packet
        cases packet
    | peer id =>
        rw [endp] at packet origin
        cases packet
        obtain ⟨⟨more', started, -⟩, -, -, -⟩ := good.adds event
        refine .inr ⟨rfl, m.packed.msgid, rfl, m, ?_, endp, rfl, ?_⟩
        · rw [advance_self, sent]
          exact List.mem_append_right _ here
        · rw [advance_self, started,
            List.getElem?_append_left (List.getElem?_eq_some_iff.mp origin).1]
          exact origin

/-- What an event of a node needs of the packet that causes it. -/
def Caused (w : Exchange) (node : ℕ) (event : Event) : Prop :=
  (∀ src msgid, Begins event (.peer src, msgid) → w.Called src msgid node) ∧
    ∀ t endp msgid got, event = .recv t endp (.response msgid) got →
      ∃ callee, (w.nodes callee).Replied node msgid

theorem Agrees.advance (agrees : w.Agrees) (fresh : Fibers.Fresh (w.nodes node) event)
    (caused : w.Caused node event) : (w.advance node event).Agrees := by
  have good := agrees.good node
  have grows := advance_grows good event
  obtain ⟨⟨more, started, begins⟩, -, -, answers⟩ := good.adds event
  refine ⟨?_, ?_, ?_, ?_, ?_, ?_, agrees.distinct⟩
  · intro node'
    by_cases same : node' = node
    · subst same
      rw [advance_self]
      exact good.step fresh
    · rw [advance_other w event same]
      exact agrees.good node'
  · intro p member msgid request
    rcases advance_wire good event member with old | ⟨-, other, response, -⟩
    · exact grows.called (agrees.requests p old msgid request)
    · rw [request] at response
      cases response
  · intro p member msgid response
    rcases advance_wire good event member with old | ⟨src, other, same, replied⟩
    · exact grows.replied (agrees.responses p old msgid response)
    · rw [response] at same
      cases same
      rw [src]
      exact replied
  · intro node' src msgid member
    by_cases same : node' = node
    · subst same
      rw [advance_self, started] at member
      rcases List.mem_append.mp member with old | new
      · exact grows.called (agrees.started node' src msgid old)
      · exact grows.called (caused.1 src msgid (begins _ new))
    · rw [advance_other w event same] at member
      exact grows.called (agrees.started node' src msgid member)
  · intro node' msgid there
    by_cases same : node' = node
    · subst same
      rw [advance_self] at there
      rcases answers msgid there with old | ⟨t, endp, got, response⟩
      · obtain ⟨callee, replied⟩ := agrees.answers node' msgid old
        exact ⟨callee, grows.replied replied⟩
      · obtain ⟨callee, replied⟩ := caused.2 t endp msgid got response
        exact ⟨callee, grows.replied replied⟩
    · rw [advance_other w event same] at there
      obtain ⟨callee, replied⟩ := agrees.answers node' msgid there
      exact ⟨callee, grows.replied replied⟩
  · intro c member
    obtain ⟨y, registered, msgid⟩ := agrees.calls c member
    exact ⟨y, (grows.yields c.node).subset registered, msgid⟩

/-- Packets may go, and come twice. -/
theorem Agrees.rewire (agrees : w.Agrees) {wire : List Packet} (known : ∀ p ∈ wire, p ∈ w.wire) :
    Exchange.Agrees { w with wire } :=
  ⟨agrees.good, fun p member => agrees.requests p (known p member),
    fun p member => agrees.responses p (known p member), agrees.started, agrees.answers, agrees.calls,
    agrees.distinct⟩

theorem Agrees.lose (agrees : w.Agrees) (i : ℕ) : Exchange.Agrees (w.lose i) :=
  agrees.rewire fun _ member => List.mem_of_mem_eraseIdx member

theorem Agrees.duplicate (agrees : w.Agrees) (i : ℕ) : Exchange.Agrees (w.duplicate i) := by
  refine agrees.rewire fun p member => ?_
  rcases List.mem_append.mp member with old | new
  · exact old
  · exact List.mem_of_getElem? (Option.mem_toList.mp new)

theorem inner_caused (inner : event.inner = true) : w.Caused node event := by
  constructor
  · intro src msgid begins
    cases begins with
    | request t endp msgid got => cases inner
  · rintro t endp msgid got rfl
    cases inner

theorem start_agrees : start.Agrees where
  good _ := Atomic.init_good
  requests := by rintro _ ⟨⟩
  responses := by rintro _ ⟨⟩
  started := by rintro _ _ _ ⟨⟩
  answers := by rintro _ _ (⟨_, _, ⟨⟩⟩ | ⟨_, _, ⟨⟩⟩ | ⟨_, ⟨⟩, _⟩)
  calls := by rintro _ ⟨⟩
  distinct := List.nodup_nil

/-- What posting comes to. -/
theorem post_cases (w : Exchange) (node f dst : ℕ) : w.post node f dst = w ∨
    ∃ msgid, ((w.nodes node).fibers f).co = .suspended msgid ∧ w.Uncalled node msgid ∧
      w.post node f dst = w.request ⟨node, ((w.nodes node).fibers f).serial, msgid, dst⟩ := by
  unfold post
  dsimp only
  split
  · next msgid co =>
      split_ifs with uncalled
      · exact .inr ⟨msgid, co, uncalled, rfl⟩
      · exact .inl rfl
  · exact .inl rfl

theorem request_grows (w : Exchange) (c : Call) : Grows w (w.request c) :=
  ⟨List.prefix_append _ _, fun _ => List.prefix_rfl, fun _ => List.prefix_rfl,
    fun _ => List.prefix_rfl⟩

/-- The request of a registered yield leaves. -/
theorem Agrees.request (agrees : w.Agrees) {c : Call} (uncalled : w.Uncalled c.node c.msgid)
    (registered : ∃ y, (c.serial, y) ∈ (w.nodes c.node).yields ∧ y.msgid = c.msgid) :
    Exchange.Agrees (w.request c) := by
  have grows := request_grows w c
  refine ⟨agrees.good, ?_, ?_, ?_, agrees.answers, ?_, ?_⟩
  · intro p member msgid request
    rcases List.mem_append.mp member with old | new
    · exact grows.called (agrees.requests p old msgid request)
    · obtain rfl := List.mem_singleton.mp new
      cases request
      exact ⟨_, List.mem_append_right _ (List.mem_singleton_self _)⟩
  · intro p member msgid response
    rcases List.mem_append.mp member with old | new
    · exact agrees.responses p old msgid response
    · obtain rfl := List.mem_singleton.mp new
      cases response
  · intro node src msgid member
    exact grows.called (agrees.started node src msgid member)
  · intro c' member
    rcases List.mem_append.mp member with old | new
    · exact agrees.calls c' old
    · obtain rfl := List.mem_singleton.mp new
      exact registered
  · change ((w.calls ++ [c]).map fun c => (c.node, c.msgid)).Nodup
    rw [List.map_append]
    refine List.Nodup.append agrees.distinct (List.nodup_singleton _) ?_
    intro pair old new
    obtain rfl := List.mem_singleton.mp new
    obtain ⟨c', member, same⟩ := List.mem_map.mp old
    exact uncalled c' member same

theorem Agrees.post (agrees : w.Agrees) (node f dst : ℕ) : (w.post node f dst).Agrees := by
  rcases w.post_cases node f dst with same | ⟨msgid, co, uncalled, posted⟩
  · rw [same]
    exact agrees
  · rw [posted]
    exact agrees.request uncalled ((agrees.good node).matched.issued f msgid co)

/-- What arrives was caused by a call. -/
theorem Agrees.arrives (agrees : w.Agrees) {i : ℕ} {p : Packet} (arrived : w.wire[i]? = some p) (t : ℕ)
    (got : Option ℕ) : Caused (w.lose i) p.dst (.recv t (.peer p.src) p.message got) := by
  have here : p ∈ w.wire := List.mem_of_getElem? arrived
  constructor
  · intro src msgid begins
    generalize same : p.message = message at begins
    cases begins with
    | request t endp msgid got => exact agrees.requests p here msgid same
  · intro t' endp msgid got' same
    exact ⟨p.src, agrees.responses p here msgid (Event.recv.inj same).2.2.1⟩

theorem Agrees.step (agrees : w.Agrees) {act : Act} (fresh : w.Fresh act) : (w.step act).Agrees := by
  cases act with
  | inner node event =>
      simp only [Exchange.step]
      split_ifs with inner
      · exact agrees.advance fresh (inner_caused inner)
      · exact agrees
  | post node f dst => exact agrees.post node f dst
  | deliver i t got =>
      simp only [Exchange.step, Exchange.deliver]
      split
      · exact agrees
      · next p arrived =>
          split_ifs
          · exact (agrees.lose i).advance trivial (agrees.arrives arrived t got)
          · exact agrees
  | lose i => exact agrees.lose i
  | duplicate i => exact agrees.duplicate i

/-- A response that has resumed a coroutine, or is about to, was sent by the fiber which the
node that was called has started for the request of this very coroutine. -/
theorem Agrees.callee (agrees : w.Agrees) {msgid : ℕ} {r : Resumption}
    (resumed : r ∈ (w.nodes node).resumptions) (response : r.stimulus = .response msgid) :
    ∃ callee, ⟨node, r.serial, msgid, callee⟩ ∈ w.calls ∧
      (w.nodes callee).Replied node msgid ∧ r.found = .suspended msgid ∧
      ∀ c ∈ w.calls, c.node = node → c.msgid = msgid → c = ⟨node, r.serial, msgid, callee⟩ := by
  obtain ⟨callee, replied⟩ := agrees.answers node msgid (.inr (.inr ⟨r, resumed, response⟩))
  obtain ⟨m, -, -, -, origin⟩ := id replied
  obtain ⟨n, called⟩ := agrees.started callee node msgid (List.mem_of_getElem? origin)
  have matched := (agrees.good node).matched
  have due := matched.due r resumed
  obtain ⟨⟨y, registered, yielded, -⟩, found⟩ := due
  rw [response] at yielded found
  obtain ⟨y', registered', yielded'⟩ := agrees.calls _ called
  -- both yields have the msgid, so that the caller is the fiber that was resumed
  have same : (r.serial, y) = (n, y') :=
    matched.yield_unique registered registered' (yielded.trans yielded'.symm)
  obtain ⟨rfl, -⟩ := Prod.mk.inj same
  refine ⟨callee, called, replied, found, fun c member here equal => ?_⟩
  exact List.inj_on_of_nodup_map agrees.distinct member called (Prod.ext here equal)

end Exchange

end Cyue.Fibers
