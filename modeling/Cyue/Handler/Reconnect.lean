import Cyue.Handler.Afresh
import Mathlib.Data.List.Induction

/-!
# What a client socket receives over its connections

A client `socket` lives on when its connection is closed, and `open_client_conn`
makes the next one for it.  Neither `on_close` nor `open_client_conn` touches
the parser or the receive buffer: both are what the last connection has left.
-/

namespace Cyue.Handler

open Mpak Shared

/-- What happens to a client socket: something on its connection, the end of
the connection, and the next one. -/
inductive LifeEvent where
  | receive (event : Event)
  | onClose
  | openClientConn

namespace Socket

/-- `on_close`, when `read` has returned `destroy` or the application closes. -/
def onClose (sock : Socket) : Socket :=
  if sock.status = .opened then { sock with status := .destroyed } else sock

/-- `open_client_conn` with its handshake. -/
def openClientConn (sock : Socket) : Socket :=
  if sock.status = .destroyed then { sock with status := .opened } else sock

end Socket

/-- A client socket, with a record of its current connection: the socket that
was opened for it and the bytes read since.  The source keeps no such record. -/
structure Client where
  sock : Socket
  opening : Socket
  bytes : List UInt8

namespace Client

def start : Client := ⟨Socket.start.onClose, Socket.start.onClose, []⟩

def step (malloc : Malloc) (consumer : Consumer) (c : Client) : LifeEvent → Client
  | .receive event =>
      { c with
        sock := c.sock.step malloc consumer event
        bytes := if c.sock.status = .opened then c.bytes ++ chunks [event] else c.bytes }
  | .onClose => { c with sock := c.sock.onClose }
  | .openClientConn =>
      if c.sock.status = .destroyed then ⟨c.sock.openClientConn, c.sock, []⟩ else c

def run (malloc : Malloc) (consumer : Consumer) (events : List LifeEvent) : Client :=
  events.foldl (step malloc consumer) start

def delivered (c : Client) : List Message := c.sock.received.drop c.opening.received.length

end Client

def Roomy (events : List LifeEvent) : Prop :=
  ∀ room bytes, LifeEvent.receive (.chunk room bytes) ∈ events → 0 < room

/-- The parser is between messages, as a new one or as `init_context` leaves
it, and no byte waits in the receive buffer. -/
structure Socket.Clean (sock : Socket) : Prop where
  unused : Unused sock.ctx
  nothing : sock.pbuf.unread = []

namespace Socket

/-! ## Closed or not, the buffers are in order -/

/-- If the socket were open, it would be at some state of a stream. -/
def Tracks (sock : Socket) : Prop :=
  ∃ ctx pending, ({ sock with status := .opened } : Socket).Simulates
    ⟨ctx, pending, sock.received, .opened⟩

variable {malloc : Malloc} {consumer : Consumer} {sock : Socket} {stream : Stream}

theorem Simulates.tracks (sim : sock.Simulates stream) (opened : sock.status = .opened) :
    sock.Tracks := by
  refine ⟨stream.ctx, stream.pending, ?_⟩
  have status : stream.status = .opened := sim.status.symm.trans opened
  refine ⟨⟨sim.sound.accounted, sim.sound.block, sim.sound.ofs, sim.sound.empty⟩, rfl, rfl,
    fun _ => sim.objs opened, fun _ => sim.pending opened⟩

/-- The status is not part of it. -/
theorem Tracks.withStatus (tracks : sock.Tracks) (status : Status) :
    ({ sock with status } : Socket).Tracks := tracks

theorem Tracks.simulates (tracks : sock.Tracks) (opened : sock.status = .opened) :
    ∃ ctx pending, sock.Simulates ⟨ctx, pending, sock.received, .opened⟩ := by
  obtain ⟨ctx, pending, sim⟩ := tracks
  refine ⟨ctx, pending, ?_⟩
  have same : ({ sock with status := .opened } : Socket) = sock := by rw [← opened]
  rwa [same] at sim

theorem onClose_tracks (tracks : sock.Tracks) : sock.onClose.Tracks := by
  unfold onClose
  split
  · exact tracks.withStatus _
  · exact tracks

theorem start_tracks : start.onClose.Tracks :=
  onClose_tracks (simulates_start.tracks rfl)

/-- Whether the fabric refuses the message shows in the status alone. -/
theorem recv_tracks {result : Result (List UInt8)} (opened : sock.status = .opened)
    (sim : sock.Simulates { stream with ctx := result.ctx, pending := result.cur.unread }) :
    (sock.recv consumer).Tracks := by
  obtain ⟨delivered, -⟩ := recv_simulates { consumer with recv := fun _ => true } opened sim
  have tracks := delivered.tracks (delivered.status.trans rfl)
  have same : sock.recv consumer =
      { sock.recv { consumer with recv := fun _ => true } with
        status := (sock.recv consumer).status } := by
    unfold recv
    dsimp only
    split <;> rfl
  rw [same]
  exact tracks.withStatus _

theorem retry_tracks (sock : Socket) {stream : Stream} {block : Nat}
    (sim : sock.Simulates stream) (opened : sock.status = .opened)
    (base : sock.pbuf.base = some block) : (sock.retry malloc consumer).Tracks := by
  obtain ⟨-, after, delivered, next_base⟩ :=
    unpack_recv_simulates malloc consumer sim opened base
  have still : (sock.unpack malloc).sock.status = .opened :=
    after.status.trans (sim.status.symm.trans opened)
  rw [retry_eq]
  unfold settle
  cases outcome : (sock.unpack malloc).ret with
  | success => exact recv_tracks still after
  | extraBytes =>
      dsimp only
      split
      · next open_after => exact retry_tracks _ delivered open_after next_base
      · exact recv_tracks still after
  | wait => exact after.tracks still
  | parseError => exact (after.tracks still).withStatus _
  | assertion => exact (after.tracks still).withStatus _
termination_by sock.work
decreasing_by exact recv_work_lt outcome

/-- Whatever the peer sends, the next connection finds the buffers in order. -/
theorem step_tracks (tracks : sock.Tracks) (event : Event)
    (roomy : ∀ room bytes, event = .chunk room bytes → 0 < room) :
    (sock.step malloc consumer event).Tracks := by
  cases event with
  | chunk room bytes =>
      have positive := roomy room bytes rfl
      unfold step
      dsimp only
      split
      · next opened =>
          obtain ⟨ctx, pending, sim⟩ := tracks.simulates opened
          have reserved := reserve_simulates sim room
          have still : (sock.reserve room).status = .opened := reserved.status
          unfold readStream
          dsimp only
          split
          · exact (reserved.tracks still).withStatus _
          · obtain ⟨block, base⟩ := reserve_base sim.sound positive
            exact retry_tracks _ (commit_simulates reserved base bytes) still base
      · exact tracks
  | again room =>
      unfold step
      dsimp only
      split
      · next opened =>
          obtain ⟨ctx, pending, sim⟩ := tracks.simulates opened
          have reserved := reserve_simulates sim room
          exact reserved.tracks reserved.status
      · exact tracks
  | fin index =>
      obtain ⟨ctx, pending, sim⟩ := tracks
      have finished := fin_simulates sim malloc consumer index
      have tracked : (({ sock with status := .opened } : Socket).step malloc consumer
          (.fin index)).Tracks := finished.tracks finished.status
      have same : sock.step malloc consumer (.fin index) =
          { ({ sock with status := .opened } : Socket).step malloc consumer (.fin index) with
            status := sock.status } := by
        unfold step
        dsimp only
        split <;> rfl
      rw [same]
      exact tracked.withStatus _

/-- A socket that is opened clean goes on as a new one. -/
theorem Clean.trails (clean : sock.Clean) (tracks : sock.Tracks) :
    ∃ stream, ({ sock with status := .opened } : Socket).Simulates stream ∧
      stream.Trails sock.received .start := by
  obtain ⟨ctx, pending, sim⟩ := tracks
  have unused : Unused (ctx.mapRaw some) := by
    rw [← sim.objs rfl]
    exact clean.unused.mapRaw _
  have nothing : pending = [] := (sim.pending rfl).symm.trans clean.nothing
  exact ⟨_, sim, @Stream.trails_start ⟨ctx, pending, sock.received, .opened⟩ rfl
    unused.of_mapRaw nothing⟩

end Socket

/-! ## The current connection -/

namespace Client

variable {malloc : Malloc} {accepts : Message → Bool} {keeps : List Message → Bool} {c : Client}

/-- On a connection that was opened clean, the socket has delivered what a new
socket delivers for the same bytes, and while it is open it is where that one
is. -/
structure Follows (malloc : Malloc) (consumer : Consumer) (c : Client) : Prop where
  received : c.sock.received = c.opening.received ++ decoded malloc consumer c.bytes
  parser : c.sock.status = .opened → ∃ stream, c.sock.Simulates stream ∧
    stream.Trails c.opening.received (Stream.start.feed malloc consumer c.bytes)

theorem Follows.of_trails {consumer : Consumer} {stream : Stream} (sim : c.sock.Simulates stream)
    (trails : stream.Trails c.opening.received (Stream.start.feed malloc consumer c.bytes)) :
    c.Follows malloc consumer where
  received := sim.received.trans trails.received
  parser _ := ⟨stream, sim, trails⟩

theorem Follows.of_closed {consumer : Consumer} (closed : c.sock.status ≠ .opened)
    (received : c.sock.received = c.opening.received ++ decoded malloc consumer c.bytes) :
    c.Follows malloc consumer :=
  ⟨received, fun opened => absurd opened closed⟩

/-- A read that gets a chunk, or meets the end of the stream. -/
theorem Follows.chunk (follows : c.Follows malloc (fabric accepts keeps)) {room : Nat}
    (positive : 0 < room) (bytes : List UInt8) :
    (c.step malloc (fabric accepts keeps) (.receive (.chunk room bytes))).Follows malloc
      (fabric accepts keeps) := by
  have arrived : chunks [.chunk room bytes] = bytes := List.append_nil bytes
  by_cases opened : c.sock.status = .opened
  · obtain ⟨stream, sim, trails⟩ := follows.parser opened
    simp only [step, Socket.step, if_pos opened, arrived]
    by_cases nothing : bytes = []
    · have reserved := Socket.reserve_simulates sim room
      simp only [Socket.readStream, nothing, if_true, List.append_nil]
      apply Follows.of_closed
      · simp
      · exact reserved.received.trans (sim.received.symm.trans follows.received)
    · have read := Socket.readStream_simulates malloc (fabric accepts keeps) sim opened positive
        nothing
      apply Follows.of_trails read
      exact (Stream.feed_trails trails bytes).agrees (Stream.feed_feed _ _ _).symm
  · simp only [step, Socket.step, if_neg opened]
    exact follows

/-- Anything else that happens on the connection. -/
theorem Follows.quiet {consumer : Consumer} (follows : c.Follows malloc consumer) {event : Event}
    (silent : chunks [event] = [])
    (received : (c.sock.step malloc consumer event).received = c.sock.received)
    (status : (c.sock.step malloc consumer event).status = c.sock.status)
    (keeps : ∀ stream, c.sock.Simulates stream →
      (c.sock.step malloc consumer event).Simulates stream) :
    (c.step malloc consumer (.receive event)).Follows malloc consumer := by
  have bytes : (c.step malloc consumer (.receive event)).bytes = c.bytes := by
    simp only [step, silent, List.append_nil, ite_self]
  constructor
  · rw [bytes]
    exact received.trans follows.received
  · intro opened
    obtain ⟨stream, sim, trails⟩ := follows.parser (status.symm.trans opened)
    rw [bytes]
    exact ⟨stream, keeps stream sim, trails⟩

theorem Follows.again {consumer : Consumer} (follows : c.Follows malloc consumer) (room : Nat) :
    (c.step malloc consumer (.receive (.again room))).Follows malloc consumer := by
  have reserve : (c.sock.reserve room).received = c.sock.received ∧
      (c.sock.reserve room).status = c.sock.status := by
    unfold Socket.reserve
    split <;> exact ⟨rfl, rfl⟩
  apply follows.quiet rfl
  · unfold Socket.step
    dsimp only
    split
    · exact reserve.1
    · rfl
  · unfold Socket.step
    dsimp only
    split
    · exact reserve.2
    · rfl
  · intro stream sim
    unfold Socket.step
    dsimp only
    split
    · exact Socket.reserve_simulates sim room
    · exact sim

theorem Follows.fin {consumer : Consumer} (follows : c.Follows malloc consumer) (index : Nat) :
    (c.step malloc consumer (.receive (.fin index))).Follows malloc consumer := by
  apply follows.quiet rfl
  · unfold Socket.step
    dsimp only
    split <;> rfl
  · unfold Socket.step
    dsimp only
    split <;> rfl
  · intro stream sim
    exact Socket.fin_simulates sim malloc consumer index

theorem Follows.onClose {consumer : Consumer} (follows : c.Follows malloc consumer) :
    (c.step malloc consumer .onClose).Follows malloc consumer := by
  unfold step Socket.onClose
  dsimp only
  split
  · exact .of_closed (by simp) follows.received
  · exact follows

/-- A connection that is opened clean follows a new socket. -/
theorem Follows.openClientConn {consumer : Consumer} (closed : c.sock.status = .destroyed)
    (tracks : c.sock.Tracks) (clean : c.sock.Clean) :
    (c.step malloc consumer .openClientConn).Follows malloc consumer := by
  obtain ⟨stream, sim, trails⟩ := clean.trails tracks
  simp only [step, Socket.openClientConn, closed, if_true]
  refine .of_trails sim ?_
  rw [Stream.feed_start_nil]
  exact trails

structure Inv (malloc : Malloc) (consumer : Consumer) (c : Client) : Prop where
  tracks : c.sock.Tracks
  follows : c.opening.Clean → c.Follows malloc consumer

theorem start_inv {consumer : Consumer} : start.Inv malloc consumer where
  tracks := Socket.start_tracks
  follows _ := by
    refine .of_closed (by simp [start, Socket.onClose, Socket.start]) ?_
    simp only [decoded, start, Stream.feed_start_nil]
    rfl

theorem Inv.step (inv : c.Inv malloc (fabric accepts keeps)) (event : LifeEvent)
    (roomy : ∀ room bytes, event = .receive (.chunk room bytes) → 0 < room) :
    (c.step malloc (fabric accepts keeps) event).Inv malloc (fabric accepts keeps) := by
  cases event with
  | receive event =>
      constructor
      · exact Socket.step_tracks inv.tracks event fun room bytes same =>
          roomy room bytes (congrArg LifeEvent.receive same)
      · intro clean
        have follows := inv.follows clean
        cases event with
        | chunk room bytes => exact follows.chunk (roomy room bytes rfl) bytes
        | again room => exact follows.again room
        | fin index => exact follows.fin index
  | onClose =>
      exact ⟨Socket.onClose_tracks inv.tracks, fun clean => (inv.follows clean).onClose⟩
  | openClientConn =>
      by_cases closed : c.sock.status = .destroyed
      · have opened : c.step malloc (fabric accepts keeps) .openClientConn =
            ⟨c.sock.openClientConn, c.sock, []⟩ := if_pos closed
        constructor
        · rw [opened, Socket.openClientConn, if_pos closed]
          exact inv.tracks.withStatus _
        · intro clean
          rw [opened] at clean
          exact Follows.openClientConn closed inv.tracks clean
      · have same : c.step malloc (fabric accepts keeps) .openClientConn = c := if_neg closed
        rw [same]
        exact inv

theorem run_inv (events : List LifeEvent) (roomy : Roomy events) :
    (run malloc (fabric accepts keeps) events).Inv malloc (fabric accepts keeps) := by
  unfold run
  induction events using List.reverseRecOn with
  | nil => exact start_inv
  | append_singleton events event ih =>
      rw [List.foldl_append]
      refine (ih fun room bytes member => roomy room bytes
        (List.mem_append_left _ member)).step event fun room bytes same => ?_
      exact roomy room bytes (List.mem_append_right _ (same ▸ List.mem_singleton_self _))

/-- On a connection that was opened clean, what is delivered is what a new
socket delivers for the same bytes. -/
theorem delivered_eq (events : List LifeEvent) (roomy : Roomy events)
    (clean : (run malloc (fabric accepts keeps) events).opening.Clean) :
    (run malloc (fabric accepts keeps) events).delivered = decoded malloc (fabric accepts keeps)
      (run malloc (fabric accepts keeps) events).bytes := by
  have follows := (run_inv events roomy).follows clean
  unfold delivered
  rw [follows.received, List.drop_left]

end Client

/-- Whatever earlier connections have brought: a connection that finds the
parser between messages and the buffer empty delivers a function of its own
bytes, so two runs that receive the same bytes on such connections deliver the
same messages on them. -/
theorem inbound_isolated (malloc : Malloc) (accepts : Message → Bool)
    (keeps : List Message → Bool) (one other : List LifeEvent)
    (roomy : Roomy one) (other_roomy : Roomy other)
    (clean : (Client.run malloc (fabric accepts keeps) one).opening.Clean)
    (other_clean : (Client.run malloc (fabric accepts keeps) other).opening.Clean)
    (same : (Client.run malloc (fabric accepts keeps) one).bytes =
      (Client.run malloc (fabric accepts keeps) other).bytes) :
    (Client.run malloc (fabric accepts keeps) one).delivered =
        (Client.run malloc (fabric accepts keeps) other).delivered ∧
      (Client.run malloc (fabric accepts keeps) one).delivered =
        decoded malloc (fabric accepts keeps)
          (Client.run malloc (fabric accepts keeps) one).bytes := by
  have delivered := Client.delivered_eq one roomy clean
  refine ⟨?_, delivered⟩
  rw [delivered, Client.delivered_eq other other_roomy other_clean, same]

/-- A connection that ends between messages, and the same bytes on a first
connection. -/
theorem inbound_isolated_again :
    (Client.run (fun _ => true) (fabric (fun _ => true) fun _ => true)
      [.openClientConn, .receive (.chunk 1024 [0x92, 0x05, 0x06]), .onClose, .openClientConn,
        .receive (.chunk 1024 [0x91, 0x07])]).delivered =
    (Client.run (fun _ => true) (fabric (fun _ => true) fun _ => true)
      [.openClientConn, .receive (.chunk 2048 [0x91]), .receive (.chunk 1024 [0x07])]).delivered := by
  refine (inbound_isolated _ _ _
    [.openClientConn, .receive (.chunk 1024 [0x92, 0x05, 0x06]), .onClose, .openClientConn,
      .receive (.chunk 1024 [0x91, 0x07])]
    [.openClientConn, .receive (.chunk 2048 [0x91]), .receive (.chunk 1024 [0x07])]
    ?_ ?_ ?_ ?_ ?_).1
  · intro room bytes member
    simp only [List.mem_cons, LifeEvent.receive.injEq, Event.chunk.injEq, List.not_mem_nil,
      reduceCtorEq, false_or, or_false] at member
    rcases member with ⟨rfl, rfl⟩ | ⟨rfl, rfl⟩ <;> decide
  · intro room bytes member
    simp only [List.mem_cons, LifeEvent.receive.injEq, Event.chunk.injEq, List.not_mem_nil,
      reduceCtorEq, false_or, or_false] at member
    rcases member with ⟨rfl, rfl⟩ | ⟨rfl, rfl⟩ <;> decide
  · exact ⟨⟨⟨by decide +kernel, by decide +kernel, by decide +kernel⟩, by decide +kernel,
      by decide +kernel⟩, by decide +kernel⟩
  · exact ⟨⟨⟨by decide +kernel, by decide +kernel, by decide +kernel⟩, by decide +kernel,
      by decide +kernel⟩, by decide +kernel⟩
  · decide +kernel

/-- A connection that ends inside a message: the next one's first message is
taken for the rest of it. -/
theorem cut_message_continues : ¬ ∀ one other : List LifeEvent, Roomy one → Roomy other →
    (Client.run (fun _ => true) (fabric (fun _ => true) fun _ => true) one).bytes =
      (Client.run (fun _ => true) (fabric (fun _ => true) fun _ => true) other).bytes →
    (Client.run (fun _ => true) (fabric (fun _ => true) fun _ => true) one).delivered =
      (Client.run (fun _ => true) (fabric (fun _ => true) fun _ => true) other).delivered := by
  intro isolated
  have same := isolated
    [.openClientConn, .receive (.chunk 1024 [0x92, 0x05]), .onClose, .openClientConn,
      .receive (.chunk 1024 [0x91, 0x07])]
    [.openClientConn, .receive (.chunk 1024 [0x91, 0x07])] ?_ ?_ (by decide +kernel)
  · revert same
    decide +kernel
  · intro room bytes member
    simp only [List.mem_cons, LifeEvent.receive.injEq, Event.chunk.injEq, List.not_mem_nil,
      reduceCtorEq, false_or, or_false] at member
    rcases member with ⟨rfl, rfl⟩ | ⟨rfl, rfl⟩ <;> decide
  · intro room bytes member
    simp only [List.mem_cons, LifeEvent.receive.injEq, Event.chunk.injEq, List.not_mem_nil,
      reduceCtorEq, false_or, or_false] at member
    obtain ⟨rfl, rfl⟩ := member
    decide

end Cyue.Handler
