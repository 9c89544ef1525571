import Cyue.Handler.Messages
import Cyue.Net.Objects
import Cyue.Rpc.Packing

/-!
# Messages over a connection

The write buffer of one side, the bytes on the way and the socket of the other side.
Objects are packed in place, write ticks hand over as much as the system accepts, and reads
get as much as has come.  Whatever happens in which order, the receiver is given a front part
of the messages that were sent, each of them once and in order.
-/

namespace Cyue.Handler.Stream

open Mpak Rpc

variable {malloc : Malloc} {consumer : Consumer} {stream : Stream}

/-- The bytes of one object reach a parser between messages. -/
theorem feed_part {part : Part} (between : stream.Between) (complete : Complete part.1 part.2)
    (shallow : part.2.depth ≤ 15) (short : part.1.length < 2 ^ 31)
    (grants : ∀ sz, sz ≤ sizeofObject * part.1.length → malloc sz = true)
    (accepts : ∀ history, consumer.recv history = true) :
    ∃ message, message.Denotes part.2 ∧ (stream.feed malloc consumer part.1).Between ∧
      (stream.feed malloc consumer part.1).received = stream.received ++ [message] := by
  have unread : (bytesCursor part.1).unread = part.1 ++ [] := (List.append_nil _).symm
  obtain ⟨fits, -⟩ := unpackLoop_spelled (complete.2 _ malloc id) between.idle
    (bytesCursor_reads part.1) unread short grants
  obtain ⟨after, frame, denotes, parsed⟩ := fits shallow
  rw [if_pos rfl, bytesCursor_advance, List.drop_length] at parsed
  have fed : stream.feed malloc consumer part.1 =
      stream.recv consumer ⟨.success, after, bytesCursor []⟩ := by
    rw [feed_opened between.opened, drain_eq, between.nothing, List.nil_append]
    dsimp only
    rw [parsed]
    rfl
  refine ⟨message after, ⟨_, _, rfl, denotes⟩, ?_, ?_⟩
  · rw [fed]
    refine ⟨?_, ⟨rfl, ?_, ?_⟩, rfl⟩
    · simp only [recv, accepts, if_true]
    · simp [recv, initContext]
    · simpa [recv, initContext] using frame
  · rw [fed]
    rfl

end Cyue.Handler.Stream

namespace Cyue.Rpc

open Mpak Handler

/-! ## What the receiver can read -/

/-- The bytes are one object, and the parser has room for it: in its stack, in the `int`s of
the source and in the heap. -/
structure Readable (malloc : Malloc) (part : Part) : Prop where
  complete : Complete part.1 part.2
  shallow : part.2.depth ≤ 15
  short : part.1.length < 2 ^ 31
  grants : ∀ sz, sz ≤ sizeofObject * part.1.length → malloc sz = true

section stream

variable {malloc : Malloc} {consumer : Consumer} {stream : Stream} {parts : List Part}

/-- Objects one behind another are delivered one by one. -/
theorem feed_parts (between : stream.Between) (readable : ∀ part ∈ parts, Readable malloc part)
    (accepts : ∀ history, consumer.recv history = true) :
    ∃ messages, List.Forall₂ Message.Denotes messages (parts.map Prod.snd) ∧
      (stream.feed malloc consumer (spelling parts)).Between ∧
      (stream.feed malloc consumer (spelling parts)).received = stream.received ++ messages := by
  induction parts generalizing stream with
  | nil =>
      have same : stream.feed malloc consumer [] = stream := by
        rw [Stream.feed_opened between.opened, List.append_nil]
        refine Stream.drain_idle _ ?_ between.nothing
        rw [Context.top, between.idle.height, between.idle.status]
      refine ⟨[], .nil, ?_, ?_⟩
      · rw [spelling, List.flatMap_nil, same]
        exact between
      · rw [spelling, List.flatMap_nil, same, List.append_nil]
  | cons part parts ih =>
      have first := readable part (List.mem_cons_self ..)
      obtain ⟨message, denotes, after, received⟩ := Stream.feed_part between first.complete
        first.shallow first.short first.grants accepts
      obtain ⟨messages, others, last, all⟩ :=
        ih after fun other member => readable other (List.mem_cons_of_mem _ member)
      have pieces : (stream.feed malloc consumer (part.1 ++ spelling parts)).Agrees _ :=
        Stream.feed_feed stream part.1 (spelling parts)
      have same := pieces.eq_of_opened (pieces.status.trans last.opened)
      refine ⟨message :: messages, .cons denotes others, ?_, ?_⟩
      · rw [spelling_cons, same]
        exact last
      · rw [spelling_cons, same, all, received, List.append_assoc]
        rfl

/-- A front part of the bytes gives a front part of the messages, and all whose bytes it has. -/
theorem feed_front {bytes : List UInt8} (readable : ∀ part ∈ parts, Readable malloc part)
    (accepts : ∀ history, consumer.recv history = true) (front : bytes <+: spelling parts) :
    ∃ messages, List.Forall₂ Message.Denotes messages (parts.map Prod.snd) ∧
      (Stream.start.feed malloc consumer bytes).received <+: messages ∧
      (∀ k ≤ parts.length, (spelling (parts.take k)).length ≤ bytes.length →
        k ≤ (Stream.start.feed malloc consumer bytes).received.length) ∧
      (Stream.start.feed malloc consumer bytes).status = .opened := by
  have between : Stream.start.Between := ⟨rfl, fresh_idle, rfl⟩
  obtain ⟨messages, denote, after, all⟩ := feed_parts between readable accepts
  obtain ⟨rest, whole⟩ := front
  rw [← whole] at after all
  have pieces : (Stream.start.feed malloc consumer (bytes ++ rest)).Agrees _ :=
    Stream.feed_feed Stream.start bytes rest
  obtain ⟨more, received⟩ : ∃ more, ((Stream.start.feed malloc consumer bytes).feed malloc consumer
      rest).received = (Stream.start.feed malloc consumer bytes).received ++ more :=
    Stream.feed_received _ rest
  refine ⟨messages, denote, ⟨more, ?_⟩, ?_, ?_⟩
  · rw [← received, ← pieces.received]
    exact all
  · intro k few inside
    -- the first messages alone, and then the other bytes
    have readable' : ∀ part ∈ parts.take k, Readable malloc part := fun part member =>
      readable part (List.mem_of_mem_take member)
    obtain ⟨firsts, denote', after', all'⟩ := feed_parts between readable' accepts
    have start : spelling (parts.take k) <+: bytes := by
      refine List.prefix_of_prefix_length_le ⟨spelling (parts.drop k), ?_⟩ ⟨rest, whole⟩ inside
      rw [spelling, spelling, ← List.flatMap_append, List.take_append_drop]
      rfl
    obtain ⟨others, rfl⟩ := start
    have cut : (Stream.start.feed malloc consumer (spelling (parts.take k) ++ others)).Agrees _ :=
      Stream.feed_feed Stream.start (spelling (parts.take k)) others
    obtain ⟨later, behind⟩ : ∃ later, ((Stream.start.feed malloc consumer
        (spelling (parts.take k))).feed malloc consumer others).received =
          (Stream.start.feed malloc consumer (spelling (parts.take k))).received ++ later :=
      Stream.feed_received _ others
    have count := denote'.length_eq
    rw [List.length_map, List.length_take, Nat.min_eq_left few] at count
    rw [cut.received, behind, all', List.length_append, List.length_append, count]
    omega
  · by_contra closed
    have stays : (Stream.start.feed malloc consumer bytes).feed malloc consumer rest =
        Stream.start.feed malloc consumer bytes := if_neg closed
    rw [stays] at pieces
    exact closed (pieces.status.symm.trans after.opened)

end stream

/-! ## The stream of a write buffer -/

def stream : Net.Handed → List UInt8
  | .bytes p => p
  | .gathered _ | .fromFile .. | .datagram .. => []

theorem stream_of_atoms {handed : Net.Handed} {bytes : List UInt8}
    (same : handed.atoms = bytes.map Net.Atom.byte) : stream handed = bytes := by
  cases handed with
  | bytes p => exact List.map_injective_iff.mpr (fun _ _ => Net.Atom.byte.inj) same
  | gathered parts =>
      cases bytes with
      | nil => rfl
      | cons byte bytes =>
          have member : Net.Atom.byte byte ∈ (Net.Handed.gathered parts).atoms := by
            rw [same]
            exact List.mem_cons_self
          obtain ⟨cell, -, wrong⟩ := List.mem_map.mp member
          cases wrong
  | fromFile inFd ofs n =>
      cases bytes with
      | nil => rfl
      | cons byte bytes =>
          have member : Net.Atom.byte byte ∈ (Net.Handed.fromFile inFd ofs n).atoms := by
            rw [same]
            exact List.mem_cons_self
          obtain ⟨cell, -, wrong⟩ := List.mem_map.mp member
          cases wrong
  | datagram addr p =>
      cases bytes with
      | nil => rfl
      | cons byte bytes => cases same

/-- Where all that was handed over are bytes, these are the stream. -/
theorem streams_of_atoms {handed : List Net.Handed} {bytes : List UInt8}
    (same : handed.flatMap Net.Handed.atoms = bytes.map Net.Atom.byte) :
    handed.flatMap stream = bytes := by
  induction handed generalizing bytes with
  | nil => exact (List.map_eq_nil_iff.mp same.symm).symm
  | cons first handed ih =>
      rw [List.flatMap_cons] at same
      obtain ⟨left, right, rfl, here, rest⟩ := List.map_eq_append_iff.mp same.symm
      rw [List.flatMap_cons, stream_of_atoms here.symm, ih rest.symm]

/-! ## The connection -/

structure Link where
  sys : Net.Sys
  /-- the messages of the sends that have reported success -/
  sent : List Part
  /-- how many bytes the receiver has read -/
  arrived : ℕ
  socket : Socket

/-- A send of an object, a write tick, a read that gets at most `n` of the bytes on the way, and
the end of a message that the fabric has kept. -/
inductive Act where
  | send (part : Part) (packing : Net.Packing) (attached : Bool)
  | tick (os : List Net.OsResult)
  | read (room n : ℕ)
  | fin (index : ℕ)

namespace Link

variable (heap : Net.Wbuf.Heap) (malloc : Malloc) (consumer : Consumer)

def onTheWay (link : Link) : List UInt8 := (link.sys.handed.flatMap stream).drop link.arrived

/-- What a read does with the bytes that it gets; with none the system answers `EAGAIN`. -/
def reads (room : ℕ) (bytes : List UInt8) : Handler.Event :=
  if bytes = [] then .again room else .chunk room bytes

def step (link : Link) : Act → Link
  | .send part packing attached =>
      { link with
        sys := link.sys.step heap (.send (.obj packing) attached)
        sent := if 0 ≤ (link.sys.wbuf.sendraw heap (.obj packing) attached).2 then link.sent ++ [part]
          else link.sent }
  | .tick os => { link with sys := link.sys.step heap (.tick os) }
  | .read room n =>
      let bytes := link.onTheWay.take n
      { link with
        arrived := link.arrived + bytes.length
        socket := link.socket.step malloc consumer (reads room bytes) }
  | .fin index => { link with socket := link.socket.step malloc consumer (.fin index) }

def start (m₀ m₁ : Memory.Mem) : Link := ⟨.start m₀ m₁, [], 0, .start⟩

def run (link : Link) (acts : List Act) : Link := acts.foldl (step heap malloc consumer) link

/-- An object is one that the receiver can read and its packer stays in place; the calls of a
write tick go right; a read is made with room for it. -/
def Proceeds (link : Link) : Act → Prop
  | .send part packing attached =>
      packing.bytes = part.1 ∧ Readable malloc part ∧
        link.sys.wbuf.TakesObject heap (.obj packing) packing attached
  | .tick os => Net.Passes (link.sys.wbuf.curr.len + 1) os link.sys.wbuf.curr 0
  | .read room _ => 0 < room
  | .fin _ => True

/-- The receiver has been given a front part of the messages, among them all whose bytes it has
read; and all of them with both buffers empty and nothing on the way. -/
def Delivers (link : Link) : Prop :=
  link.socket.status = .opened ∧
    ∃ messages, List.Forall₂ Message.Denotes messages (link.sent.map Prod.snd) ∧
      link.socket.received <+: messages ∧
      (∀ k ≤ link.sent.length, (spelling (link.sent.take k)).length ≤ link.arrived →
        k ≤ link.socket.received.length) ∧
      (link.sys.wbuf.curr.len = 0 → link.sys.wbuf.next.len = 0 → link.onTheWay = [] →
        link.socket.received = messages)

structure Sound (link : Link) : Prop where
  accounts : link.sys.plain.Accounts
  contents : link.sys.sent.flatMap Net.Request.content = (spelling link.sent).map Net.Atom.byte
  readable : ∀ part ∈ link.sent, Readable malloc part
  arrived : link.arrived ≤ (link.sys.handed.flatMap stream).length
  socket : ∃ events, Flowing events ∧
    chunks events = (link.sys.handed.flatMap stream).take link.arrived ∧
      link.socket = Socket.start.run malloc consumer events

variable {heap malloc consumer} {link : Link}

/-- The stream is a front part of the bytes of the messages. -/
theorem Sound.front (sound : link.Sound malloc consumer) :
    link.sys.handed.flatMap stream <+: spelling link.sent ∧
      (link.sys.wbuf.curr.len = 0 → link.sys.wbuf.next.len = 0 →
        link.sys.handed.flatMap stream = spelling link.sent) := by
  obtain ⟨front, whole⟩ := sound.accounts.shipsOnce
  rw [sound.contents] at front whole
  constructor
  · obtain ⟨rest, parts⟩ := front
    obtain ⟨left, right, bytes, here, -⟩ := List.map_eq_append_iff.mp parts.symm
    rw [streams_of_atoms here.symm]
    exact ⟨right, bytes.symm⟩
  · exact fun none none' => streams_of_atoms (whole none none')

theorem Sound.delivers (sound : link.Sound malloc consumer)
    (accepts : ∀ history, consumer.recv history = true) : link.Delivers := by
  obtain ⟨front, whole⟩ := sound.front
  obtain ⟨events, flowing, bytes, socket⟩ := sound.socket
  obtain ⟨received, status, -⟩ := run_shows malloc consumer events flowing
  rw [← socket, bytes] at received status
  obtain ⟨messages, denote, firsts, all, opened⟩ := feed_front sound.readable accepts
    ((List.take_prefix link.arrived _).trans front)
  rw [List.length_take, Nat.min_eq_left sound.arrived] at all
  refine ⟨status.trans opened, messages, denote, received ▸ firsts, ?_, ?_⟩
  · rw [received]
    exact all
  · intro none none' nothing
    have read : (link.sys.handed.flatMap stream).length ≤ link.arrived :=
      List.drop_eq_nil_iff.mp nothing
    have count := denote.length_eq
    rw [whole none none'] at read
    have last := all link.sent.length le_rfl (by rw [List.take_length]; exact read)
    rw [List.length_map] at count
    rw [received]
    exact firsts.eq_of_length_le (count.trans_le last)

/-- The stream grows at its end. -/
theorem Sound.later (sound : link.Sound malloc consumer) {sys : Net.Sys} {more : List Net.Handed}
    {sent : List Part} (handed : sys.handed = link.sys.handed ++ more)
    (accounts : sys.plain.Accounts)
    (contents : sys.sent.flatMap Net.Request.content = (spelling sent).map Net.Atom.byte)
    (readable : ∀ part ∈ sent, Readable malloc part) :
    ({ link with sys, sent } : Link).Sound malloc consumer where
  accounts := accounts
  contents := contents
  readable := readable
  arrived := by
    dsimp only
    rw [handed, List.flatMap_append, List.length_append]
    exact Nat.le_add_right_of_le sound.arrived
  socket := by
    obtain ⟨events, flowing, bytes, socket⟩ := sound.socket
    refine ⟨events, flowing, ?_, socket⟩
    dsimp only
    rw [bytes, handed, List.flatMap_append, List.take_append_of_le_length sound.arrived]

theorem step_send (sound : link.Sound malloc consumer) {part : Part} {packing : Net.Packing}
    {attached : Bool} (proceeds : link.Proceeds heap malloc (.send part packing attached)) :
    (link.step heap malloc consumer (.send part packing attached)).Sound malloc consumer := by
  obtain ⟨bytes, readable, takes⟩ := proceeds
  have accounts : (link.sys.step heap (.send (.obj packing) attached)).plain.Accounts :=
    Net.Sys.step_ships sound.accounts takes
  have handed : (link.sys.step heap (.send (.obj packing) attached)).handed = link.sys.handed ++ [] :=
    (List.append_nil _).symm
  refine sound.later handed accounts ?_ ?_
  · rw [Net.step_send]
    dsimp only
    split
    · have content : (Net.Request.obj packing).content = packing.bytes.map Net.Atom.byte := rfl
      rw [List.flatMap_append, List.flatMap_singleton, sound.contents, content, bytes, spelling,
        spelling, List.flatMap_append, List.flatMap_singleton, List.map_append]
    · exact sound.contents
  · intro other member
    split at member
    · rcases List.mem_append.mp member with old | new
      · exact sound.readable other old
      · rw [List.mem_singleton.mp new]
        exact readable
    · exact sound.readable other member

theorem step_tick (sound : link.Sound malloc consumer) {os : List Net.OsResult}
    (proceeds : link.Proceeds heap malloc (.tick os)) :
    (link.step heap malloc consumer (.tick os)).Sound malloc consumer := by
  have accounts : (link.sys.step heap (.tick os)).plain.Accounts :=
    Net.Sys.step_ships sound.accounts proceeds
  exact sound.later rfl accounts sound.contents sound.readable

/-- A read takes the bytes in front of those on the way. -/
theorem step_read (sound : link.Sound malloc consumer) {room n : ℕ}
    (proceeds : link.Proceeds heap malloc (.read room n)) :
    (link.step heap malloc consumer (.read room n)).Sound malloc consumer := by
  obtain ⟨events, flowing, bytes, socket⟩ := sound.socket
  have arrived := sound.arrived
  have length : (link.onTheWay.take n).length ≤
      (link.sys.handed.flatMap stream).length - link.arrived := by
    rw [onTheWay, List.length_take, List.length_drop]
    exact Nat.min_le_right _ _
  refine ⟨sound.accounts, sound.contents, sound.readable, ?_,
    events ++ [reads room (link.onTheWay.take n)], ?_, ?_, ?_⟩
  · dsimp only [step]
    omega
  · intro room' bytes' member
    rcases List.mem_append.mp member with old | new
    · exact flowing room' bytes' old
    · rw [List.mem_singleton, reads] at new
      split at new
      case isTrue => cases new
      case isFalse some =>
          cases new
          exact ⟨proceeds, some⟩
  · have chunk : chunks [reads room (link.onTheWay.take n)] = link.onTheWay.take n := by
      unfold reads
      split
      case isTrue none =>
          rw [none]
          rfl
      case isFalse => exact List.append_nil _
    have all : chunks (events ++ [reads room (link.onTheWay.take n)]) =
        chunks events ++ chunks [reads room (link.onTheWay.take n)] := List.flatMap_append
    have front : link.onTheWay.take n = link.onTheWay.take (link.onTheWay.take n).length := by
      rw [List.length_take, ← List.take_eq_take_min]
    rw [all, bytes, chunk]
    dsimp only [step]
    rw [List.take_add]
    exact congrArg (_ ++ ·) front
  · dsimp only [step]
    rw [socket, Socket.run, Socket.run, List.foldl_append]
    rfl

theorem step_fin (sound : link.Sound malloc consumer) (index : ℕ) :
    (link.step heap malloc consumer (.fin index)).Sound malloc consumer := by
  obtain ⟨events, flowing, bytes, socket⟩ := sound.socket
  refine ⟨sound.accounts, sound.contents, sound.readable, sound.arrived, events ++ [.fin index], ?_,
    ?_, ?_⟩
  · intro room' bytes' member
    rcases List.mem_append.mp member with old | new
    · exact flowing room' bytes' old
    · cases List.mem_singleton.mp new
  · exact List.flatMap_append.trans ((List.append_nil _).trans bytes)
  · dsimp only [step]
    rw [socket, Socket.run, Socket.run, List.foldl_append]
    rfl

theorem step_sound (sound : link.Sound malloc consumer) {act : Act}
    (proceeds : link.Proceeds heap malloc act) :
    (link.step heap malloc consumer act).Sound malloc consumer := by
  cases act with
  | send part packing attached => exact step_send sound proceeds
  | tick os => exact step_tick sound proceeds
  | read room n => exact step_read sound proceeds
  | fin index => exact step_fin sound index

end Link

end Cyue.Rpc
