import Cyue.Handler.Afresh
import Mathlib.Data.List.Induction

/-!
# Receiving datagrams

`socket::read_dgram` puts every datagram behind what is left of the earlier
ones, in one receive buffer and for one parser, whoever has sent them.  While
each datagram is made of complete messages nothing is left, and every peer's
messages are those of its own datagrams.
-/

namespace Cyue.Handler

open Mpak Shared

/-- What `read_dgram` asks `reserve` for. -/
def mtu : Nat := 1492

/-- A datagram socket, with the messages it has delivered and their senders. -/
structure DgramSocket (α : Type) where
  sock : Socket
  delivered : List (α × Message)

/-- What can happen to the socket: a datagram, `EAGAIN`, and the end of a
message that the fabric has kept. -/
inductive DgramEvent (α : Type) where
  | datagram (a : α) (bytes : List UInt8)
  | again
  | fin (index : Nat)

namespace DgramSocket

variable {α : Type}

def start : DgramSocket α := ⟨.start, []⟩

/-- The bytes that `recvfrom` has space for. -/
def room (s : DgramSocket α) : Nat := (s.sock.reserve mtu).pbuf.available

/-- `read_dgram`.  The part of a datagram that `recvfrom` has no space for is
lost; from `retry` on the loop is that of `read_stream`, and each message goes
out with the address of the datagram that has just come. -/
def readDgram (malloc : Malloc) (consumer : Consumer) (s : DgramSocket α) (a : α)
    (bytes : List UInt8) : DgramSocket α :=
  let next := ((s.sock.reserve mtu).commit (bytes.take s.room)).retry malloc consumer
  ⟨next, s.delivered ++ (next.received.drop s.sock.received.length).map (Prod.mk a)⟩

def step (malloc : Malloc) (consumer : Consumer) (s : DgramSocket α) :
    DgramEvent α → DgramSocket α
  | .datagram a bytes =>
      if s.sock.status = .opened then s.readDgram malloc consumer a bytes else s
  | .again => { s with sock := s.sock.step malloc consumer (.again mtu) }
  | .fin index => { s with sock := s.sock.step malloc consumer (.fin index) }

def run (malloc : Malloc) (consumer : Consumer) (events : List (DgramEvent α)) : DgramSocket α :=
  events.foldl (step malloc consumer) start

end DgramSocket

def datagrams {α : Type} (events : List (DgramEvent α)) : List (α × List UInt8) :=
  events.filterMap fun
    | .datagram a bytes => some (a, bytes)
    | _ => none

/-! ## What a datagram contains -/

def parsed (malloc : Malloc) (bytes : List UInt8) : Stream :=
  Stream.start.feed malloc (fabric (fun _ => true) fun _ => false) bytes

def complete (malloc : Malloc) (bytes : List UInt8) : List Message := (parsed malloc bytes).received

/-- The bytes are complete messages and nothing else, and the fabric accepts
each of them. -/
structure Whole (malloc : Malloc) (accepts : Message → Bool) (bytes : List UInt8) : Prop where
  opened : (parsed malloc bytes).status = .opened
  unused : Unused (parsed malloc bytes).ctx
  nothing : (parsed malloc bytes).pending = []
  accepted : ∀ message ∈ complete malloc bytes, accepts message = true

namespace Stream

variable {malloc : Malloc} {accepts : Message → Bool} {keeps keeps' : List Message → Bool}

/-- Accepted or not, a message is delivered. -/
theorem recv_received (stream : Stream) (consumer : Consumer) (result : Result (List UInt8)) :
    (stream.recv consumer result).received = stream.received ++ [message result.ctx] := rfl

theorem recv_accepted (stream : Stream) (result : Result (List UInt8))
    (accepted : accepts (message result.ctx) = true) :
    stream.recv (fabric accepts keeps) result =
      stream.recv (fabric (fun _ => true) keeps') result := by
  simp only [recv, fabric_recv, accepted]

theorem recv_all (stream : Stream) (result : Result (List UInt8)) :
    (stream.recv (fabric (fun _ => true) keeps') result).status = .opened := by
  simp only [recv, fabric_recv, if_true]

/-- A fabric that accepts what the bytes contain does not show; nor does it
show when it refuses the last message. -/
theorem drain_accepted (stream : Stream) (more : List Message)
    (received : (drain malloc (fabric (fun _ => true) keeps') stream).received =
      stream.received ++ more) :
    ((∀ message ∈ more.dropLast, accepts message = true) →
      (drain malloc (fabric accepts keeps) stream).received = stream.received ++ more) ∧
    ((∀ message ∈ more, accepts message = true) →
      drain malloc (fabric accepts keeps) stream =
        drain malloc (fabric (fun _ => true) keeps') stream) := by
  induction stream using drain.induct malloc (fabric (fun _ => true) keeps') generalizing more with
  | case1 stream outcome =>
      rw [drain_eq] at received ⊢
      rw [drain_eq malloc (fabric (fun _ => true) keeps')]
      simp only [settle, outcome] at received ⊢
      have one := List.append_cancel_left received
      subst one
      refine ⟨fun _ => rfl, fun accepted => ?_⟩
      exact recv_accepted stream _ (accepted _ (List.mem_singleton_self _))
  | case2 stream outcome next open_after ih =>
      rw [drain_eq] at received ⊢
      rw [drain_eq malloc (fabric (fun _ => true) keeps')]
      simp only [settle, outcome] at received ⊢
      rw [if_pos open_after] at received ⊢
      obtain ⟨others, behind⟩ : ∃ others, (drain malloc (fabric (fun _ => true) keeps')
          next).received = next.received ++ others := drain_received next
      -- the message at the front, and those behind it
      have split_received : stream.received ++ more =
          stream.received ++
            message (unpackLoop malloc stream.ctx (bytesCursor stream.pending)).ctx :: others := by
        rw [← received, behind, recv_received, List.append_assoc, List.singleton_append]
      have first := List.append_cancel_left split_received
      subst first
      obtain ⟨last_refused, all_accepted⟩ := ih others behind
      by_cases accepted : accepts (message (unpackLoop malloc stream.ctx
          (bytesCursor stream.pending)).ctx) = true
      · have same : stream.recv (fabric accepts keeps)
            (unpackLoop malloc stream.ctx (bytesCursor stream.pending)) = next :=
          recv_accepted stream _ accepted
        rw [same, if_pos open_after]
        constructor
        · intro before
          rw [last_refused, recv_received, List.append_assoc, List.singleton_append]
          intro m member
          apply before
          cases others with
          | nil => exact absurd member List.not_mem_nil
          | cons other rest => exact List.mem_cons_of_mem _ member
        · intro behind_too
          exact all_accepted fun m member => behind_too m (List.mem_cons_of_mem _ member)
      · constructor
        · intro before
          cases others with
          | nil =>
              rw [if_neg (by simp [recv, accepted])]
              rfl
          | cons other rest => exact absurd (before _ (List.mem_cons_self ..)) accepted
        · intro all
          exact absurd (all _ (List.mem_cons_self ..)) accepted
  | case3 stream outcome next closed => exact absurd (recv_all stream _) closed
  | case4 stream outcome | case5 stream outcome | case6 stream outcome =>
      rw [drain_eq] at received ⊢
      rw [drain_eq malloc (fabric (fun _ => true) keeps')]
      simp only [settle, outcome] at received ⊢
      exact ⟨fun _ => received, fun _ => trivial⟩

/-- A new socket on some bytes, of whose messages the fabric refuses at most
the last. -/
theorem decoded_complete (bytes : List UInt8)
    (accepted : ∀ message ∈ (complete malloc bytes).dropLast, accepts message = true) :
    decoded malloc (fabric accepts keeps) bytes = complete malloc bytes :=
  (drain_accepted { start with pending := bytes } (complete malloc bytes) rfl).1 accepted

theorem feed_whole {bytes : List UInt8} (whole : Whole malloc accepts bytes) :
    start.feed malloc (fabric accepts keeps) bytes = parsed malloc bytes :=
  (drain_accepted { start with pending := bytes } (complete malloc bytes) rfl).2 whole.accepted

end Stream

/-! ## One datagram after another -/

namespace DgramSocket

variable {α : Type} {malloc : Malloc} {accepts : Message → Bool} {keeps : List Message → Bool}
  {s : DgramSocket α} {events : List (DgramEvent α)}

/-- The socket is open, and nothing is left of the datagrams that have come. -/
structure Ready (s : DgramSocket α) : Prop where
  opened : s.sock.status = .opened
  stream : ∃ stream, s.sock.Simulates stream ∧ Unused stream.ctx ∧ stream.pending = []

theorem start_ready : (start : DgramSocket α).Ready where
  opened := rfl
  stream := ⟨.start, Socket.simulates_start, ⟨fresh_idle, rfl, rfl⟩, rfl⟩

/-- A datagram that finds nothing left is read as by a new socket. -/
theorem Ready.read (malloc : Malloc) (accepts : Message → Bool) (keeps : List Message → Bool)
    (ready : s.Ready) (a : α) {bytes : List UInt8} (fits : bytes.length ≤ s.room) :
    ∃ stream, (s.readDgram malloc (fabric accepts keeps) a bytes).sock.Simulates stream ∧
      stream.Trails s.sock.received (Stream.start.feed malloc (fabric accepts keeps) bytes) ∧
      (s.readDgram malloc (fabric accepts keeps) a bytes).delivered = s.delivered ++
        (decoded malloc (fabric accepts keeps) bytes).map (Prod.mk a) := by
  obtain ⟨stream, sim, unused, nothing⟩ := ready.stream
  have opened : stream.status = .opened := sim.status.symm.trans ready.opened
  obtain ⟨block, base⟩ := Socket.reserve_base sim.sound (show 0 < mtu by decide)
  have reserved := Socket.reserve_simulates sim mtu
  have committed := Socket.commit_simulates reserved base bytes
  have read := Socket.retry_simulates malloc (fabric accepts keeps) _ committed
    (reserved.status.trans opened) base
  have trails : (stream.feed malloc (fabric accepts keeps) bytes).Trails stream.received
      (Stream.start.feed malloc (fabric accepts keeps) bytes) :=
    Stream.feed_trails (Stream.trails_start opened unused nothing) bytes
  rw [Stream.feed_opened opened] at trails
  unfold readDgram
  dsimp only
  rw [List.take_of_length_le fits]
  refine ⟨_, read, ?_, ?_⟩
  · rw [sim.received]
    exact trails
  · have received := read.received.trans trails.received
    rw [received, sim.received, List.drop_left]
    rfl

theorem Ready.whole (ready : s.Ready) (a : α) {bytes : List UInt8}
    (fits : bytes.length ≤ s.room) (whole : Whole malloc accepts bytes) :
    (s.readDgram malloc (fabric accepts keeps) a bytes).Ready := by
  obtain ⟨stream, sim, trails, -⟩ := ready.read malloc accepts keeps a fits
  rw [Stream.feed_whole whole] at trails
  have opened : stream.status = .opened := trails.status.trans whole.opened
  obtain ⟨alike, pending⟩ := trails.parser opened
  exact ⟨sim.status.trans opened, stream, sim, whole.unused.of_alike alike,
    pending.trans whole.nothing⟩

theorem Ready.again (ready : s.Ready) : (s.step malloc (fabric accepts keeps) .again).Ready := by
  obtain ⟨stream, sim, unused, nothing⟩ := ready.stream
  have reserved := Socket.reserve_simulates sim mtu
  unfold step Socket.step
  simp only [if_pos ready.opened]
  exact ⟨reserved.status.trans (sim.status.symm.trans ready.opened), stream, reserved, unused,
    nothing⟩

theorem Ready.fin (ready : s.Ready) (index : Nat) :
    (s.step malloc (fabric accepts keeps) (.fin index)).Ready := by
  obtain ⟨stream, sim, unused, nothing⟩ := ready.stream
  have finished := Socket.fin_simulates sim malloc (fabric accepts keeps) index
  exact ⟨finished.status.trans (sim.status.symm.trans ready.opened), stream, finished, unused,
    nothing⟩

/-- No datagram is longer than the space that there is for it. -/
def Fits (malloc : Malloc) (consumer : Consumer) (events : List (DgramEvent α)) : Prop :=
  ∀ before a bytes after, events = before ++ .datagram a bytes :: after →
    bytes.length ≤ (run malloc consumer before).room

theorem Fits.init {consumer : Consumer} {event : DgramEvent α}
    (fits : Fits malloc consumer (events ++ [event])) : Fits malloc consumer events := by
  intro before a bytes after same
  apply fits before a bytes (after ++ [event])
  rw [same, List.append_assoc, List.cons_append]

theorem Fits.last {consumer : Consumer} {a : α} {bytes : List UInt8}
    (fits : Fits malloc consumer (events ++ [.datagram a bytes])) :
    bytes.length ≤ (run malloc consumer events).room :=
  fits events a bytes [] rfl

theorem run_append (consumer : Consumer) (events : List (DgramEvent α)) (event : DgramEvent α) :
    run malloc consumer (events ++ [event]) =
      (run malloc consumer events).step malloc consumer event := by
  unfold run
  rw [List.foldl_append]
  rfl

def contained (malloc : Malloc) (events : List (DgramEvent α)) : List (α × Message) :=
  (datagrams events).flatMap fun (a, bytes) => (complete malloc bytes).map (Prod.mk a)

theorem contained_datagram (a : α) (bytes : List UInt8) :
    contained malloc (events ++ [.datagram a bytes]) =
      contained malloc events ++ (complete malloc bytes).map (Prod.mk a) := by
  simp [contained, datagrams]

theorem datagrams_datagram (a : α) (bytes : List UInt8) :
    datagrams (events ++ [.datagram a bytes]) = datagrams events ++ [(a, bytes)] := by
  simp [datagrams]

@[simp] theorem datagrams_again : datagrams (events ++ [.again]) = datagrams events := by
  simp [datagrams]

@[simp] theorem datagrams_fin (index : Nat) :
    datagrams (events ++ [.fin index]) = datagrams events := by
  simp [datagrams]

/-- While all datagrams are whole, nothing is left between them. -/
theorem run_whole (fits : Fits malloc (fabric accepts keeps) events)
    (whole : ∀ a bytes, (a, bytes) ∈ datagrams events → Whole malloc accepts bytes) :
    (run malloc (fabric accepts keeps) events).Ready ∧
      (run malloc (fabric accepts keeps) events).delivered = contained malloc events := by
  induction events using List.reverseRecOn with
  | nil => exact ⟨start_ready, rfl⟩
  | append_singleton events event ih =>
      have earlier : ∀ a bytes, (a, bytes) ∈ datagrams events → Whole malloc accepts bytes := by
        intro a bytes member
        apply whole a bytes
        unfold datagrams
        rw [List.filterMap_append]
        exact List.mem_append_left _ member
      obtain ⟨ready, delivered⟩ := ih fits.init earlier
      rw [run_append]
      cases event with
      | datagram a bytes =>
          have this_one : Whole malloc accepts bytes := by
            apply whole a bytes
            rw [datagrams_datagram]
            exact List.mem_append_right _ (List.mem_singleton_self _)
          obtain ⟨-, -, -, read⟩ := ready.read malloc accepts keeps a fits.last
          unfold step
          simp only [if_pos ready.opened]
          refine ⟨ready.whole a fits.last this_one, ?_⟩
          rw [read, delivered, contained_datagram, Stream.decoded_complete]
          intro message member
          exact this_one.accepted message ((List.dropLast_subset _ member))
      | again =>
          refine ⟨ready.again, delivered.trans ?_⟩
          rw [contained, contained, datagrams_again]
      | fin index =>
          refine ⟨ready.fin index, delivered.trans ?_⟩
          rw [contained, contained, datagrams_fin]

end DgramSocket

open DgramSocket

/-- Every peer's datagrams deliver the messages they contain, under its own
address and in order, as long as all datagrams before the last are whole, no
message but the last one of the last datagram is refused and no datagram is cut
for lack of space. -/
theorem datagrams_apart {α : Type} (malloc : Malloc) (accepts : Message → Bool)
    (keeps : List Message → Bool) (events : List (DgramEvent α))
    (fits : Fits malloc (fabric accepts keeps) events)
    (whole : ∀ a bytes, (a, bytes) ∈ (datagrams events).dropLast → Whole malloc accepts bytes)
    (last : ∀ a bytes, (datagrams events).getLast? = some (a, bytes) →
      ∀ message ∈ (complete malloc bytes).dropLast, accepts message = true) :
    (run malloc (fabric accepts keeps) events).delivered = contained malloc events := by
  induction events using List.reverseRecOn with
  | nil => rfl
  | append_singleton events event ih =>
      rw [run_append]
      cases event with
      | datagram a bytes =>
          rw [datagrams_datagram, List.dropLast_concat] at whole
          rw [datagrams_datagram, List.getLast?_concat] at last
          obtain ⟨ready, delivered⟩ := run_whole fits.init whole
          obtain ⟨-, -, -, read⟩ := ready.read malloc accepts keeps a fits.last
          unfold step
          simp only [if_pos ready.opened]
          rw [read, delivered, contained_datagram, Stream.decoded_complete]
          exact last a bytes rfl
      | again =>
          rw [datagrams_again] at whole last
          rw [contained, datagrams_again]
          exact ih fits.init whole last
      | fin index =>
          rw [datagrams_fin] at whole last
          rw [contained, datagrams_fin]
          exact ih fits.init whole last

/-- Two peers in turn, and a datagram at the end that has lost its tail. -/
theorem datagrams_apart_three :
    (run (fun _ => true) (fabric (fun _ => true) fun _ => true)
      [.datagram 1 [0x92, 0x05, 0x06], .again, .datagram 2 [0x91, 0x07, 0x90],
        .datagram 1 [0x90, 0x92]]).delivered =
    contained (fun _ => true) [.datagram 1 [0x92, 0x05, 0x06], .again,
      .datagram 2 [0x91, 0x07, 0x90], .datagram 1 [0x90, 0x92]] := by
  refine datagrams_apart _ _ _ [.datagram 1 [0x92, 0x05, 0x06], .again,
    .datagram 2 [0x91, 0x07, 0x90], .datagram 1 [0x90, 0x92]] ?_ ?_ ?_
  · intro before a bytes after same
    rcases before with _ | ⟨one, _ | ⟨two, _ | ⟨three, _ | ⟨four, rest⟩⟩⟩⟩ <;>
      simp only [List.nil_append, List.cons_append, List.cons.injEq, DgramEvent.datagram.injEq,
        reduceCtorEq, false_and, and_false, List.nil_eq, List.append_eq_nil_iff] at same
    · obtain ⟨⟨rfl, rfl⟩, -⟩ := same
      decide +kernel
    · obtain ⟨rfl, rfl, ⟨rfl, rfl⟩, -⟩ := same
      decide +kernel
    · obtain ⟨rfl, rfl, rfl, ⟨rfl, rfl⟩, -⟩ := same
      decide +kernel
  · intro a bytes member
    simp only [datagrams, List.filterMap_cons, List.filterMap_nil, List.dropLast_cons_cons,
      List.dropLast_singleton, List.mem_cons, Prod.mk.injEq, List.not_mem_nil, or_false] at member
    rcases member with ⟨-, rfl⟩ | ⟨-, rfl⟩
    · exact ⟨by decide +kernel, ⟨⟨by decide +kernel, by decide +kernel, by decide +kernel⟩,
        by decide +kernel, by decide +kernel⟩, by decide +kernel, fun _ _ => rfl⟩
    · exact ⟨by decide +kernel, ⟨⟨by decide +kernel, by decide +kernel, by decide +kernel⟩,
        by decide +kernel, by decide +kernel⟩, by decide +kernel, fun _ _ => rfl⟩
  · intro a bytes _ message _
    rfl

/-- A datagram that ends inside a message: the next peer's message is taken for
the rest of it. -/
theorem cut_datagram_continues : ¬ ∀ events : List (DgramEvent Nat),
    (run (fun _ => true) (fabric (fun _ => true) fun _ => true) events).delivered =
      contained (fun _ => true) events := by
  intro apart
  have same := apart [.datagram 1 [0x92, 0x05], .datagram 2 [0x91, 0x07]]
  revert same
  decide +kernel

end Cyue.Handler
