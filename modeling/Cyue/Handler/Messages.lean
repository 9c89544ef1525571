import Cyue.Handler.Cut
import Cyue.Mpak.RoundTrip

/-!
# Receiving written messages

A run of the socket over the messages of some trees delivers exactly these
trees, in order, however the bytes are cut.
-/

namespace Cyue.Handler

open Mpak

/-- The message stands for the tree, with all its payloads readable. -/
def Message.Denotes (message : Message) (tree : PackTree) : Prop :=
  ∃ root cells, message = ⟨root.mapRaw some, cells.map (Obj.mapRaw some)⟩ ∧
    Mpak.Denotes id cells 0 root tree

/-- The parser has room for the tree: in its stack, in the `int`s of the
source and in the heap. -/
structure Parsable (malloc : Malloc) (tree : PackTree) : Prop where
  shallow : tree.depth ≤ 15
  short : tree.encode.length < 2 ^ 31
  grants : ∀ sz, sz ≤ sizeofObject * tree.encode.length → malloc sz = true

theorem bytesCursor_reads (pending : List UInt8) : (bytesCursor pending).Reads id := by
  intro offset len _
  rfl

namespace Stream

variable {malloc : Malloc} {consumer : Consumer}

structure Between (stream : Stream) : Prop where
  opened : stream.status = .opened
  idle : stream.ctx.Idle
  nothing : stream.pending = []

theorem feed_tree {stream : Stream} {tree : PackTree} (between : stream.Between)
    (parsable : Parsable malloc tree) (accepts : ∀ history, consumer.recv history = true) :
    ∃ message, message.Denotes tree ∧ (stream.feed malloc consumer tree.encode).Between ∧
      (stream.feed malloc consumer tree.encode).received = stream.received ++ [message] := by
  have unread : (bytesCursor tree.encode).unread = tree.encode ++ [] := (List.append_nil _).symm
  obtain ⟨fits, -⟩ := unpackLoop_tree between.idle (bytesCursor_reads tree.encode) unread
    parsable.short parsable.grants
  obtain ⟨after, frame, denotes, parsed⟩ := fits parsable.shallow
  rw [if_pos rfl, bytesCursor_advance, List.drop_length] at parsed
  have fed : stream.feed malloc consumer tree.encode =
      stream.recv consumer ⟨.success, after, bytesCursor []⟩ := by
    rw [feed_opened between.opened, drain_eq, between.nothing, List.nil_append]
    dsimp only
    rw [parsed]
    rfl
  refine ⟨message after, ⟨_, _, rfl, denotes⟩, ?_, ?_⟩
  · rw [fed]
    refine ⟨?_, ⟨rfl, ?_, ?_⟩, rfl⟩
    · simp only [recv, accepts, if_true]
    · simp [recv, initContext]
    · simpa [recv, initContext] using frame
  · rw [fed]
    rfl

/-- The messages of a list of trees are delivered one by one. -/
theorem feed_trees {stream : Stream} {trees : List PackTree} (between : stream.Between)
    (parsable : ∀ tree ∈ trees, Parsable malloc tree)
    (accepts : ∀ history, consumer.recv history = true) :
    ∃ messages, List.Forall₂ Message.Denotes messages trees ∧
      (stream.feed malloc consumer (trees.flatMap PackTree.encode)).Between ∧
      (stream.feed malloc consumer (trees.flatMap PackTree.encode)).received =
        stream.received ++ messages := by
  induction trees generalizing stream with
  | nil =>
      have same : stream.feed malloc consumer [] = stream := by
        rw [feed_opened between.opened, List.append_nil]
        apply drain_idle
        · rw [Context.top, between.idle.height, between.idle.status]
        · exact between.nothing
      exact ⟨[], .nil, by rw [List.flatMap_nil, same]; exact between,
        by rw [List.flatMap_nil, same, List.append_nil]⟩
  | cons tree rest ih =>
      obtain ⟨message, denotes, after, received⟩ :=
        feed_tree between (parsable tree (List.mem_cons_self ..)) accepts
      obtain ⟨messages, others, finally_between, all⟩ :=
        ih after fun other member => parsable other (List.mem_cons_of_mem _ member)
      have pieces : (stream.feed malloc consumer
          (tree.encode ++ rest.flatMap PackTree.encode)).Agrees _ :=
        feed_feed stream tree.encode (rest.flatMap PackTree.encode)
      have same := pieces.eq_of_opened (pieces.status.trans finally_between.opened)
      refine ⟨message :: messages, .cons denotes others, ?_, ?_⟩
      · rw [List.flatMap_cons, same]
        exact finally_between
      · rw [List.flatMap_cons, same, all, received, List.append_assoc]
        rfl

end Stream

/-- The messages at the front of the stream are delivered first, each exactly
once and in order, however the bytes are cut. -/
theorem run_messages {malloc : Malloc} {consumer : Consumer} {events : List Event}
    {trees : List PackTree} {tail : List UInt8} (flowing : Flowing events)
    (bytes : chunks events = trees.flatMap PackTree.encode ++ tail)
    (parsable : ∀ tree ∈ trees, Parsable malloc tree)
    (accepts : ∀ history, consumer.recv history = true) :
    ∃ messages more, List.Forall₂ Message.Denotes messages trees ∧
      (Socket.start.run malloc consumer events).received = messages ++ more ∧
      (tail = [] → more = []) := by
  obtain ⟨received, -, -⟩ := run_shows malloc consumer events flowing
  have between : Stream.start.Between := ⟨rfl, fresh_idle, rfl⟩
  obtain ⟨messages, denote, after, all⟩ := Stream.feed_trees between parsable accepts
  cases tail with
  | nil =>
      rw [List.append_nil] at bytes
      rw [bytes, all] at received
      exact ⟨messages, [], denote, received.trans (List.append_nil _).symm, fun _ => rfl⟩
  | cons byte tail =>
      have pieces : (Stream.start.feed malloc consumer (trees.flatMap PackTree.encode ++
          (byte :: tail))).Agrees _ := Stream.feed_feed _ _ _
      obtain ⟨more, behind⟩ := Stream.feed_received
        (Stream.start.feed malloc consumer (trees.flatMap PackTree.encode)) (byte :: tail)
      rw [bytes, pieces.received, behind, all] at received
      exact ⟨messages, more, denote, received, by simp⟩

/-- Two ways to cut the same bytes into chunks deliver the same messages and
leave the parser in the same state, whatever else happens to the buffers; and
the messages at the front of the bytes are delivered once each, in order. -/
theorem receive_cut (malloc : Malloc) (consumer : Consumer) (cut whole : List Event)
    (same : chunks cut = chunks whole) (cut_flows : Flowing cut) (whole_flows : Flowing whole) :
    ((Socket.start.run malloc consumer cut).received =
        (Socket.start.run malloc consumer whole).received ∧
      (Socket.start.run malloc consumer cut).status =
        (Socket.start.run malloc consumer whole).status ∧
      (Socket.start.run malloc consumer cut).parser =
        (Socket.start.run malloc consumer whole).parser) ∧
    ∀ trees tail, chunks cut = trees.flatMap PackTree.encode ++ tail →
      (∀ tree ∈ trees, Parsable malloc tree) → (∀ history, consumer.recv history = true) →
      ∃ messages more, List.Forall₂ Message.Denotes messages trees ∧
        (Socket.start.run malloc consumer cut).received = messages ++ more ∧
        (tail = [] → more = []) := by
  constructor
  · exact run_cut malloc consumer cut whole same cut_flows whole_flows
  · intro trees tail bytes parsable accepts
    exact run_messages cut_flows bytes parsable accepts

/-- A message and the start of another one, in three chunks and all at once. -/
theorem receive_cut_three :
    (Socket.start.run (fun _ => true) ⟨fun _ => true, fun _ => true⟩
      [.chunk 1024 [0x92, 0x05], .again 2048, .chunk 4096 [0xa1], .fin 0,
        .chunk 1024 [0x61, 0x91]]).received =
    (Socket.start.run (fun _ => true) ⟨fun _ => true, fun _ => true⟩
      [.chunk 1024 [0x92, 0x05, 0xa1, 0x61, 0x91]]).received := by
  refine (receive_cut _ _ [.chunk 1024 [0x92, 0x05], .again 2048, .chunk 4096 [0xa1], .fin 0,
    .chunk 1024 [0x61, 0x91]] [.chunk 1024 [0x92, 0x05, 0xa1, 0x61, 0x91]] rfl ?_ ?_).1.1
  · intro room bytes member
    simp only [List.mem_cons, Event.chunk.injEq, List.not_mem_nil, reduceCtorEq, false_or,
      or_false] at member
    rcases member with ⟨rfl, rfl⟩ | ⟨rfl, rfl⟩ | ⟨rfl, rfl⟩ <;> decide
  · intro room bytes member
    simp only [List.mem_singleton, Event.chunk.injEq] at member
    obtain ⟨rfl, rfl⟩ := member
    decide

end Cyue.Handler
