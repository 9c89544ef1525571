import Cyue.Http.Lookup

/-!
# Extensions and footers

A size line may have a comment behind a semicolon, and the zero chunk may have footers
behind it.  `recv_bodylen` looks for the semicolon in the byte behind the last one, which
is a terminator, so that the comment stays in the line and is read as a part of the size.
-/

namespace Cyue.Http

/-! ## Messages with extensions -/

structure Comment where
  text : List UInt8
  inside : lf ∉ text

def sizeLine (size : List UInt8) (comment : Option Comment) : List UInt8 :=
  size ++ (comment.map fun c => 59 :: c.text).getD [] ++ ending true

/-- A chunked message with comments behind its sizes, and with footers; `last` is the size of the
zero chunk. -/
structure Extended where
  header : Header
  chunks : List (Chunk × Option Comment)
  last : List UInt8
  comment : Option Comment
  footers : List Line
  nonempty : last ≠ []
  zero : hexFrom 0 last = some 0
  few : header.lines.length + footers.length ≤ maxHeader

def extendedChunk (c : Chunk × Option Comment) : List UInt8 :=
  sizeLine c.1.size c.2 ++ (c.1.data ++ ending true)

namespace Extended

/-- The message without its comments and footers. -/
def plain (e : Extended) : Message where
  header := e.header
  chunks := e.chunks.map Prod.fst
  last := e.last
  nonempty := e.nonempty
  zero := e.zero

def bytes (e : Extended) : List UInt8 :=
  e.header.bytes ++ (e.chunks.flatMap extendedChunk ++
    (sizeLine e.last e.comment ++ (e.footers.flatMap Line.bytes ++ ending true)))

def Uncommented (e : Extended) : Prop := (∀ c ∈ e.chunks, c.2 = none) ∧ e.comment = none

end Extended

theorem sizeLine_none (size : List UInt8) : sizeLine size none = size ++ ending true :=
  congrArg (· ++ ending true) (List.append_nil size)

theorem extendedChunk_none {c : Chunk × Option Comment} (none : c.2 = none) :
    extendedChunk c = c.1.bytes := by
  rw [extendedChunk, none, sizeLine_none]
  rfl

theorem extendedChunks_none {chunks : List (Chunk × Option Comment)} (none : ∀ c ∈ chunks, c.2 = none) :
    chunks.flatMap extendedChunk = (chunks.map Prod.fst).flatMap Chunk.bytes := by
  rw [List.flatMap_map, List.flatMap_def, List.flatMap_def]
  refine congrArg List.flatten (List.map_congr_left fun c mem => ?_)
  exact extendedChunk_none (none c mem)

theorem length_sizeLine_le (size : List UInt8) (comment : Option Comment) :
    (size ++ ending true).length ≤ (sizeLine size comment).length := by
  rw [sizeLine, List.length_append, List.length_append, List.length_append]
  omega

theorem length_extendedChunk_le (c : Chunk × Option Comment) :
    c.1.bytes.length ≤ (extendedChunk c).length := by
  have line := length_sizeLine_le c.1.size c.2
  rw [extendedChunk, Chunk.bytes, List.length_append, @List.length_append _ (sizeLine _ _)]
  exact Nat.add_le_add_right line _

theorem length_extendedChunks_le (chunks : List (Chunk × Option Comment)) :
    ((chunks.map Prod.fst).flatMap Chunk.bytes).length ≤ (chunks.flatMap extendedChunk).length := by
  induction chunks with
  | nil => exact le_rfl
  | cons c chunks ih =>
      rw [List.map_cons, List.flatMap_cons, List.flatMap_cons, List.length_append, List.length_append]
      exact Nat.add_le_add (length_extendedChunk_le c) ih

theorem Extended.length_plain_le (e : Extended) : e.plain.bytes.length ≤ e.bytes.length := by
  have chunks := length_extendedChunks_le e.chunks
  have last := length_sizeLine_le e.last e.comment
  change (e.header.bytes ++ ((e.chunks.map Prod.fst).flatMap Chunk.bytes ++
    (e.last ++ ending true ++ ending true))).length ≤ _
  unfold Extended.bytes
  simp only [List.length_append] at last ⊢
  omega

namespace Fsm

/-! ## A comment -/

/-- The semicolon is no digit. -/
theorem digitsFrom_comment {max n v pos : ℕ} {i : ℤ} {size : List UInt8} (value : hexFrom n size = some v)
    (rest : List UInt8) : digitsFrom 16 hexDigit max i pos (size ++ 59 :: rest) = none := by
  induction size generalizing n pos i with
  | nil => rfl
  | cons c size ih =>
      obtain ⟨d, digit, value⟩ := Option.bind_eq_some_iff.mp value
      rw [List.cons_append, digitsFrom, if_neg (hexDigit_ne digit).1, digit]
      dsimp only
      split
      · rfl
      · exact ih value

theorem htoi_comment {v max : ℕ} {size : List UInt8} (value : hexFrom 0 size = some v)
    (rest : List UInt8) : htoi (size ++ 59 :: rest) max = none := by
  unfold htoi number
  split
  · rename_i s same
    cases size with
    | nil => exact absurd (List.cons.inj same).1 (by decide)
    | cons c size =>
        obtain ⟨d, digit, _⟩ := Option.bind_eq_some_iff.mp value
        exact absurd (List.cons.inj same).1 (hexDigit_ne digit).2.1
  · exact digitsFrom_comment value rest

theorem Sizes.comment {f : Fsm} {data size : List UInt8} {v : ℕ} (sizes : Sizes f data)
    (value : hexFrom 0 size = Option.some v) (c : Comment)
    (room : Room f (sizeLine size (Option.some c)).length) :
    (f.acceptAll (sizeLine size (Option.some c))).state = .error := by
  have quiet : lf ∉ size ++ 59 :: c.text := by
    intro mem
    rcases List.mem_append.mp mem with mem | mem
    · exact hexFrom_no_lf value mem
    · rcases List.mem_cons.mp mem with same | mem
      · exact absurd same (by decide)
      · exact c.inside mem
  change Room f (size ++ 59 :: c.text ++ ending true).length at room
  obtain ⟨run, found⟩ := acceptAll_line (.inr (.inr (.inl sizes.state))) room quiet
    (List.append_ne_nil_of_left_ne_nil sizes.some _) (fun same => by cases same)
  have state : (f.pushAll (size ++ 59 :: c.text ++ ending true)).state = .recvBodylen := sizes.state
  have two : (f.pushAll (size ++ 59 :: c.text ++ ending true)).recvLf = 2 := found
  have ended : (f.pushAll (size ++ 59 :: c.text ++ ending true)).terminate 2 =
      f.pushAll (size ++ 59 :: c.text ++ gap true) := terminate_pushAll f _ true
  have begins : (f.pushAll (size ++ 59 :: c.text ++ gap true)).buf = f.len := sizes.buf
  have text : (f.pushAll (size ++ 59 :: c.text ++ gap true)).stringAt f.len =
      size ++ 59 :: (c.text ++ gap true) := by
    have joined : size ++ 59 :: c.text ++ gap true = size ++ 59 :: (c.text ++ gap true) :=
      List.append_assoc size (59 :: c.text) (gap true)
    rw [joined]
    exact List.drop_left
  change (f.acceptAll (size ++ 59 :: c.text ++ ending true)).state = .error
  rw [run, recv, state]
  change (f.pushAll (size ++ 59 :: c.text ++ ending true)).recvBodylen.state = _
  unfold recvBodylen
  dsimp only
  rw [two, if_pos (by decide)]
  unfold chunkSize
  dsimp only
  rw [ended, begins, text, htoi_comment value]
  rfl

/-- The first size with a comment ends the message. -/
theorem Sizes.commented {f : Fsm} {data : List UInt8} (sizes : Sizes f data)
    (chunks : List (Chunk × Option Comment)) {n : ℕ}
    (room : Room f ((chunks.flatMap extendedChunk).length + n))
    (short : ∀ c ∈ chunks, c.1.data.length + 2 < 2 ^ 31) (some : ¬ ∀ c ∈ chunks, c.2 = none) :
    (f.acceptAll (chunks.flatMap extendedChunk)).state = .error := by
  induction chunks generalizing f data with
  | nil => exact absurd (fun c mem => absurd mem List.not_mem_nil) some
  | cons c chunks ih =>
      rw [List.flatMap_cons, List.length_append] at room
      rw [List.flatMap_cons, acceptAll_append]
      by_cases none : c.2 = none
      · have bytes := extendedChunk_none none
        rw [bytes] at room ⊢
        obtain ⟨sizes', length, max, _⟩ :=
          sizes.chunk c.1 (room.less (by omega)) (short c (List.mem_cons_self ..))
        have total := c.1.length_bytes
        have room' : Room (f.acceptAll c.1.bytes) ((chunks.flatMap extendedChunk).length + n) :=
          room.after length max (by omega)
        refine ih sizes' room' (fun c mem => short c (List.mem_cons_of_mem _ mem)) fun all => ?_
        apply some
        intro c' mem
        rcases List.mem_cons.mp mem with rfl | mem
        · exact none
        · exact all c' mem
      · obtain ⟨comment, found⟩ := Option.ne_none_iff_exists'.mp none
        have line : (f.acceptAll (sizeLine c.1.size c.2)).state = .error := by
          rw [found]
          apply sizes.comment c.1.sized
          rw [← found]
          rw [extendedChunk, List.length_append] at room
          exact room.less (by omega)
        have final : (f.acceptAll (sizeLine c.1.size c.2)).state.Final := by
          rw [line]
          rfl
        rw [extendedChunk, acceptAll_append, acceptAll_final final, acceptAll_final final]
        exact line

end Fsm

open Fsm

/-! ## The whole message -/

theorem Extended.short_lines (e : Extended) {chunkSize : ℕ} (promised : chunkSize ≤ 65536)
    (fits : e.bytes.length < chunkSize) : ∀ l ∈ e.plain.header.lines, l.text.length < 2 ^ 16 := by
  have less := e.length_plain_le
  intro l mem
  have length := e.plain.line_length mem
  omega

theorem Extended.short_chunks (e : Extended) {chunkSize : ℕ} (promised : chunkSize ≤ 65536)
    (fits : e.bytes.length < chunkSize) : ∀ c ∈ e.plain.chunks, c.data.length + 2 < 2 ^ 31 := by
  have less := e.length_plain_le
  intro c mem
  have length := e.plain.chunk_length mem
  omega

/-- The receiver behind the header block. -/
theorem Extended.read (e : Extended) (f : Fsm) {chunkSize : ℕ} (promised : chunkSize ≤ 65536)
    (fits : e.bytes.length < chunkSize) :
    ∃ g, Sizes g [] ∧ g.nHd = e.header.lines.length ∧
      Room g ((e.chunks.flatMap extendedChunk).length + ((sizeLine e.last e.comment).length +
        ((e.footers.flatMap Line.bytes).length + (ending true).length))) ∧
      (f.reset chunkSize).append e.bytes e.bytes.length =
        ((g.acceptAll (e.chunks.flatMap extendedChunk)).acceptAll (sizeLine e.last e.comment)).acceptAll
          (e.footers.flatMap Line.bytes ++ ending true) := by
  have room := room_reset f fits (by omega)
  have few : e.header.bytes.length < chunkSize := by
    rw [Extended.bytes, List.length_append] at fits
    omega
  have count := (holds_received f promised e.header.few
    (List.append_ne_nil_of_right_ne_nil _ (List.cons_ne_nil _ _)) e.header.crlf few).count
  rw [append_eq] at count
  rw [Extended.bytes, List.length_append, List.length_append, List.length_append,
    List.length_append] at room
  obtain ⟨sizes, _, room⟩ := e.header.read f room (e.short_lines promised fits)
  refine ⟨_, sizes, count, room, ?_⟩
  rw [append_eq, Extended.bytes, acceptAll_append, acceptAll_append, acceptAll_append]

/-- Without comments, and whatever the footers are, the message is decoded. -/
theorem Extended.decoded (e : Extended) (f : Fsm) {chunkSize : ℕ} (promised : chunkSize ≤ 65536)
    (fits : e.bytes.length < chunkSize) (uncommented : e.Uncommented) :
    ((f.reset chunkSize).append e.bytes e.bytes.length).state = .recvFinish ∧
      ((f.reset chunkSize).append e.bytes e.bytes.length).body = e.plain.body := by
  obtain ⟨g, sizes, count, room, run⟩ := e.read f promised fits
  obtain ⟨plain, last⟩ := uncommented
  rw [extendedChunks_none plain, last, sizeLine_none] at room run
  obtain ⟨sizes, room, same⟩ := sizes.chunks _ room (e.short_chunks promised fits)
  obtain ⟨footing, room⟩ := sizes.zero e.zero room
  rw [same, count] at footing
  obtain ⟨footing, room⟩ := footing.lines e.footers room e.few
  obtain ⟨state, body, _⟩ := footing.finish room
  rw [run, acceptAll_append]
  exact ⟨state, body⟩

/-- A comment is an error. -/
theorem Extended.refused (e : Extended) (f : Fsm) {chunkSize : ℕ} (promised : chunkSize ≤ 65536)
    (fits : e.bytes.length < chunkSize) (commented : ¬ e.Uncommented) :
    ((f.reset chunkSize).append e.bytes e.bytes.length).state = .error := by
  obtain ⟨g, sizes, _, room, run⟩ := e.read f promised fits
  have final (h : Fsm) (error : h.state = .error) (bytes : List UInt8) :
      (h.acceptAll bytes).state = .error := by
    rw [acceptAll_final (by rw [error]; rfl)]
    exact error
  rw [run]
  apply final
  by_cases plain : ∀ c ∈ e.chunks, c.2 = none
  · have last : e.comment ≠ none := fun none => commented ⟨plain, none⟩
    obtain ⟨comment, found⟩ := Option.ne_none_iff_exists'.mp last
    rw [extendedChunks_none plain] at room ⊢
    obtain ⟨sizes, room, _⟩ := sizes.chunks _ room (e.short_chunks promised fits)
    rw [found] at room ⊢
    exact sizes.comment e.zero comment (room.less (Nat.le_add_right _ _))
  · apply final
    exact sizes.commented e.chunks room
      (fun c mem => e.short_chunks promised fits c.1 (List.mem_map_of_mem mem)) plain

/-- Footers are transparent, and comments are not. -/
theorem Extended.transparent_iff (e : Extended) (f : Fsm) {chunkSize : ℕ} (promised : chunkSize ≤ 65536)
    (fits : e.bytes.length < chunkSize) :
    (((f.reset chunkSize).append e.bytes e.bytes.length).state =
        ((f.reset chunkSize).append e.plain.bytes e.plain.bytes.length).state ∧
      ((f.reset chunkSize).append e.bytes e.bytes.length).body =
        ((f.reset chunkSize).append e.plain.bytes e.plain.bytes.length).body) ↔
      e.Uncommented := by
  obtain ⟨state, body, _⟩ := e.plain.decoded f (e.length_plain_le.trans_lt fits) (by omega)
    (e.short_lines promised fits) (e.short_chunks promised fits)
  rw [append_eq _ e.plain.bytes, state, body]
  constructor
  · rintro ⟨same, _⟩
    by_contra commented
    exact absurd ((e.refused f promised fits commented).symm.trans same) (by decide)
  · exact e.decoded f promised fits

/-- A response with one chunk and a footer; `comment` stands behind the size of the chunk. -/
def footed (comment : Option Comment) : Extended where
  header := hello.header
  chunks := [(⟨ascii "4", ascii "pong", by decide, by decide⟩, comment)]
  last := ascii "00"
  comment := none
  footers := [⟨ascii "Expires: 0", true, by decide, by decide, by decide⟩]
  nonempty := by decide
  zero := by decide
  few := by decide

theorem transparent_iff_footed :
    ((cleared.reset 512).append (footed none).bytes (footed none).bytes.length).state =
        ((cleared.reset 512).append (footed none).plain.bytes (footed none).plain.bytes.length).state ∧
      ((cleared.reset 512).append (footed none).bytes (footed none).bytes.length).body =
        ((cleared.reset 512).append (footed none).plain.bytes (footed none).plain.bytes.length).body :=
  ((footed none).transparent_iff cleared (by decide) (by decide)).mpr
    ⟨List.forall_mem_singleton.mpr rfl, rfl⟩

/-- The chunk with the extension `;a`. -/
def footedComment : Extended := footed (some ⟨ascii "a", by decide⟩)

theorem footedComment_refused :
    ((cleared.reset 512).append footedComment.bytes footedComment.bytes.length).state = .error ∧
      ((cleared.reset 512).append footedComment.plain.bytes footedComment.plain.bytes.length).state =
        .recvFinish :=
  ⟨by decide +kernel, by decide +kernel⟩

end Cyue.Http
