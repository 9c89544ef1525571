import Cyue.Http.Lookup
import Cyue.Http.Unframed
import Cyue.Ws.Reader

/-!
# From the handshake to the frames

The bytes that come behind the header block of a handshake are counted by `recv_ws_frame`
in the buffer of `m_sm`.  `read_body_and_fd` takes them from there before it reads from the
descriptor.
-/

namespace Cyue.Http.Fsm

/-! ## The end of the handshake -/

def consumeBody (f : Fsm) (r : ℕ) : Fsm :=
  let r := if f.bl < r then f.bl else r
  { f with bl := f.bl - r, bd := f.bd + r }

/-- `append` takes a byte before it compares what it has taken with `bl`. -/
def taken (call : List UInt8 × ℤ) : List UInt8 :=
  call.1.take (if call.2 ≤ 1 then 1 else call.2.toNat)

/-- The receiver waits for frames behind these bytes, and not earlier. -/
def Handshake (f : Fsm) (head : List UInt8) : Prop :=
  ∃ before c, head = before ++ [c] ∧ (f.acceptAll before).state ≠ .websocketEstablish ∧
    (f.acceptAll head).state = .websocketEstablish

theorem append_taken (f : Fsm) (call : List UInt8 × ℤ) :
    f.append call.1 call.2 = f.acceptAll (taken call) := by
  have start : call.2 - (0 : ℕ) = call.2 := Int.sub_zero _
  unfold append taken
  rw [appendFrom_taken, start]

theorem appends_taken (f : Fsm) (calls : List (List UInt8 × ℤ)) :
    calls.foldl (fun f call => f.append call.1 call.2) f = f.acceptAll (calls.flatMap taken) := by
  induction calls generalizing f with
  | nil => rfl
  | cons call calls ih =>
      rw [List.foldl_cons, append_taken, ih, List.flatMap_cons, acceptAll_append]

/-- The receiver is neither at a header nor at the end of a handshake, and never will be. -/
def Past (f : Fsm) : Prop := f.state ≠ .recvHeader ∧ f.state ≠ .websocketEstablish

theorem past_goto {f : Fsm} {state : State} (header : state ≠ .recvHeader)
    (websocket : state ≠ .websocketEstablish) : Past (f.goto state) :=
  ⟨header, websocket⟩

theorem past_chunkSize {f : Fsm} {state : State} (nlf : ℕ) (header : state ≠ .recvHeader)
    (websocket : state ≠ .websocketEstablish) : Past (f.chunkSize nlf state) := by
  unfold chunkSize
  dsimp only
  split
  · exact past_goto (by decide) (by decide)
  · split
    · exact ⟨nofun, nofun⟩
    · exact ⟨header, websocket⟩

theorem Past.recv {f : Fsm} (past : Past f) : Past f.recv := by
  obtain ⟨header, websocket⟩ := past
  unfold Fsm.recv
  split
  · rename_i state
    exact absurd state header
  · unfold recvBody
    dsimp only
    repeat' split
    all_goals exact ⟨nofun, nofun⟩
  · unfold recvBodyNochunk
    dsimp only
    repeat' split
    all_goals exact ⟨nofun, nofun⟩
  · unfold recvBodylen
    dsimp only
    split
    · exact past_chunkSize _ (by decide) (by decide)
    · split
      · exact past_chunkSize _ (by decide) (by decide)
      · exact past_goto (by decide) (by decide)
  · unfold recvFooter
    dsimp only
    repeat' split
    all_goals exact ⟨nofun, nofun⟩
  · unfold recvComment
    split
    · exact past_goto (by decide) (by decide)
    · exact past_goto (by decide) (by decide)
  · rename_i state
    exact absurd state websocket
  all_goals exact ⟨header, websocket⟩

theorem Past.acceptAll {f : Fsm} (past : Past f) (bytes : List UInt8) : Past (f.acceptAll bytes) := by
  induction bytes generalizing f with
  | nil => exact past
  | cons c bytes ih =>
      apply ih
      unfold accept feed
      split
      · exact past
      · split
        · exact past_goto (by decide) (by decide)
        · exact Past.recv (f := f.push c) past

theorem headerEnd_cases (f : Fsm) :
    f.headerEnd.len = f.len ∧ f.headerEnd.max = f.max ∧
      (Past f.headerEnd ∨
        (f.headerEnd.state = .websocketEstablish ∧ f.headerEnd.bd = f.len ∧ f.headerEnd.bl = 0)) := by
  obtain ⟨version, res, same⟩ := f.putrc_eq
  unfold Fsm.headerEnd
  dsimp only
  rw [same]
  split
  · exact ⟨rfl, rfl, .inl ⟨nofun, nofun⟩⟩
  · split
    · exact ⟨rfl, rfl, .inl ⟨nofun, nofun⟩⟩
    · split
      · exact ⟨rfl, rfl, .inr ⟨rfl, rfl, rfl⟩⟩
      · split
        · exact ⟨rfl, rfl, .inl ⟨nofun, nofun⟩⟩
        · exact ⟨rfl, rfl, .inl ⟨nofun, nofun⟩⟩

/-- A byte of a header block: the block goes on, or it is the end of a handshake, or of another
message. -/
theorem accept_header {f : Fsm} (state : f.state = .recvHeader) (room : Room f 1) (c : UInt8) :
    (f.accept c).len = f.len + 1 ∧ (f.accept c).max = f.max ∧
      ((f.accept c).state = .recvHeader ∨ Past (f.accept c) ∨
        ((f.accept c).state = .websocketEstablish ∧ (f.accept c).bd = f.len + 1 ∧
          (f.accept c).bl = 0)) := by
  have pushed : (f.push c).len = f.len + 1 := List.length_append
  have going : ¬ f.state.Final := by
    rw [state]
    decide
  have state' : (f.push c).state = .recvHeader := state
  rw [accept_eq going room, Fsm.recv, state']
  change (f.push c).recvHeader.len = _ ∧ (f.push c).recvHeader.max = _ ∧
    ((f.push c).recvHeader.state = _ ∨ Past (f.push c).recvHeader ∨
      ((f.push c).recvHeader.state = _ ∧ (f.push c).recvHeader.bd = _ ∧ (f.push c).recvHeader.bl = _))
  unfold recvHeader
  dsimp only
  have length := (len_terminate (f.push c) (recvLf_le (f.push c)).2).trans pushed
  split
  · exact ⟨pushed, rfl, .inl rfl⟩
  · split
    · obtain ⟨len, max, ends⟩ := headerEnd_cases ((f.push c).terminate (f.push c).recvLf)
      refine ⟨len.trans length, max, .inr (ends.imp_right ?_)⟩
      rw [length]
      exact id
    · split
      · exact ⟨length, rfl, .inl rfl⟩
      · exact ⟨length, rfl, .inr (.inl (past_goto (by decide) (by decide)))⟩

/-! ## The bytes behind the handshake -/

/-- The receiver waits for frames and has counted these bytes. -/
structure Waits (f : Fsm) (bytes : List UInt8) : Prop where
  state : f.state = .websocketEstablish
  inside : f.bd ≤ f.len
  stored : f.p.drop f.bd = bytes
  counted : f.bl = bytes.length

theorem Waits.accept {f : Fsm} {bytes : List UInt8} (waits : Waits f bytes) (room : Room f 1)
    (c : UInt8) :
    Waits (f.accept c) (bytes ++ [c]) ∧ (f.accept c).len = f.len + 1 ∧ (f.accept c).max = f.max := by
  have going : ¬ f.state.Final := by
    rw [waits.state]
    decide
  have state : (f.push c).state = .websocketEstablish := waits.state
  have length : (f.push c).len = f.len + 1 := List.length_append
  have run : f.accept c = (f.push c).recvWsFrame := by
    rw [accept_eq going room, Fsm.recv, state]
  have bound : bytes.length ≤ f.len := by
    rw [← waits.stored, List.length_drop]
    exact Nat.sub_le _ _
  rw [run]
  refine ⟨⟨rfl, ?_, ?_, ?_⟩, length, rfl⟩
  · exact (waits.inside.trans (Nat.le_succ _)).trans length.ge
  · change (f.p ++ [c]).drop f.bd = _
    rw [List.drop_append_of_le_length waits.inside, waits.stored]
  · have fits := room.fits
    have small := room.small
    change (f.bl + 1) % 2 ^ 32 = (bytes ++ [c]).length
    rw [waits.counted, List.length_append, List.length_singleton, Nat.mod_eq_of_lt (by omega)]

theorem Waits.acceptAll {f : Fsm} {bytes more : List UInt8} (waits : Waits f bytes)
    (room : Room f more.length) : Waits (f.acceptAll more) (bytes ++ more) := by
  induction more generalizing f bytes with
  | nil =>
      rw [List.append_nil]
      exact waits
  | cons c more ih =>
      rw [List.length_cons] at room
      obtain ⟨waits', length, max⟩ := waits.accept (room.less (Nat.le_add_left 1 _)) c
      have room' : Room (f.accept c) more.length := room.after length max (Nat.add_comm 1 _).le
      have joined : bytes ++ c :: more = (bytes ++ [c]) ++ more :=
        (List.append_assoc bytes [c] more).symm
      rw [joined]
      exact ih waits' room'

theorem Waits.body {f : Fsm} {bytes : List UInt8} (waits : Waits f bytes) : f.body = bytes := by
  unfold Fsm.body
  rw [waits.stored, waits.counted, List.take_length]

/-- The header block of a handshake leaves nothing of itself. -/
theorem handshake_ends {f : Fsm} {before : List UInt8} {c : UInt8} (state : f.state = .recvHeader)
    (room : Room f (before.length + 1)) (early : (f.acceptAll before).state ≠ .websocketEstablish)
    (ends : (f.acceptAll (before ++ [c])).state = .websocketEstablish) :
    Waits (f.acceptAll (before ++ [c])) [] ∧
      (f.acceptAll (before ++ [c])).len = f.len + (before.length + 1) ∧
        (f.acceptAll (before ++ [c])).max = f.max := by
  induction before generalizing f with
  | nil =>
      obtain ⟨length, max, header | past | ⟨_, bd, bl⟩⟩ := accept_header state room c
      · exact absurd (header.symm.trans ends) (by decide)
      · exact absurd ends past.2
      · refine ⟨⟨ends, (bd.trans length.symm).le, ?_, bl⟩, length, max⟩
        exact List.drop_eq_nil_of_le (length.trans bd.symm).le
  | cons d before ih =>
      rw [List.length_cons] at room
      obtain ⟨length, max, next⟩ := accept_header state (room.less (by omega)) d
      have room' : Room (f.accept d) (before.length + 1) :=
        room.after length max (Nat.add_comm 1 _).le
      rcases next with header | past | ⟨done, bd, bl⟩
      · obtain ⟨waits, total, same⟩ := ih header room' early ends
        refine ⟨waits, ?_, same.trans max⟩
        rw [List.length_cons]
        exact total.trans (by omega)
      · exact absurd ends (Past.acceptAll past _).2
      · have none : (f.accept d).p.drop (f.accept d).bd = [] :=
          List.drop_eq_nil_of_le (length.trans bd.symm).le
        have waits : Waits (f.accept d) [] := ⟨done, (bd.trans length.symm).le, none, bl⟩
        exact absurd (waits.acceptAll (room'.less (Nat.le_succ _))).state early

theorem Handshake.waits {f : Fsm} {head trailing : List UInt8} (shake : Handshake f head)
    (state : f.state = .recvHeader) (room : Room f (head ++ trailing).length) :
    Waits (f.acceptAll (head ++ trailing)) trailing := by
  obtain ⟨before, c, rfl, early, ends⟩ := shake
  rw [List.length_append, List.length_append, List.length_singleton] at room
  obtain ⟨waits, length, max⟩ :=
    handshake_ends state (room.less (Nat.le_add_right _ _)) early ends
  rw [acceptAll_append]
  exact waits.acceptAll (room.after length max le_rfl)

theorem Waits.consume {f : Fsm} {bytes : List UInt8} (waits : Waits f bytes) {r : ℕ}
    (le : r ≤ bytes.length) : Waits (f.consumeBody r) (bytes.drop r) := by
  have whole : ¬ f.bl < r := by
    rw [waits.counted]
    exact not_lt.mpr le
  have length : bytes.length = f.len - f.bd := by
    rw [← waits.stored, List.length_drop]
    rfl
  have inside := waits.inside
  unfold consumeBody
  rw [if_neg whole]
  refine ⟨waits.state, ?_, ?_, ?_⟩
  · change f.bd + r ≤ f.len
    omega
  · change f.p.drop (f.bd + r) = _
    rw [← List.drop_drop, waits.stored]
  · change f.bl - r = _
    rw [List.length_drop, waits.counted]

/-- A header block with a websocket key, and without a length or a transfer coding, is a handshake. -/
theorem handshake_lines (f : Fsm) {chunkSize : ℕ} {lines : List Line} {crlf : Bool}
    (few : lines.length ≤ maxHeader) (some : lines ≠ []) (short : ∀ l ∈ lines, l.text.length < 2 ^ 16)
    (room : Room (f.reset chunkSize) (lines.flatMap Line.bytes ++ ending crlf).length)
    (length : firstNamed lines (ascii "Content-Length") = none)
    (coding : firstNamed lines (ascii "Transfer-Encoding") = none) {l : Line}
    (key : firstNamed lines (ascii "Sec-WebSocket-Key") = Option.some l)
    (fits : (l.behind (ascii "Sec-WebSocket-Key")).length < 256) :
    Handshake (f.reset chunkSize) (lines.flatMap Line.bytes ++ ending crlf) := by
  rw [List.length_append] at room
  obtain ⟨heads, room, _⟩ := (heads_reset f chunkSize).lines few room short
  have last : (ending crlf).dropLast ++ [lf] = ending crlf := by cases crlf <;> rfl
  refine ⟨lines.flatMap Line.bytes ++ (ending crlf).dropLast, lf, ?_, ?_, ?_⟩
  · rw [List.append_assoc, last]
  · have less : (ending crlf).dropLast.length ≤ (ending crlf).length := by
      rw [List.length_dropLast]
      exact Nat.sub_le _ _
    have quiet : lf ∉ (ending crlf).dropLast := by cases crlf <;> decide
    rw [acceptAll_append, acceptAll_quiet (.inl heads.state) (room.less less) quiet]
    change ((f.reset chunkSize).acceptAll (lines.flatMap Line.bytes)).state ≠ _
    have state : ((f.reset chunkSize).acceptAll (lines.flatMap Line.bytes)).state = .recvHeader :=
      heads.state
    rw [state]
    decide
  · rw [acceptAll_append, heads.empty (heads.holds.p_ne_nil some) room]
    have holds := heads.holds.pushAll (gap crlf)
    generalize ((f.reset chunkSize).acceptAll (lines.flatMap Line.bytes)).pushAll (gap crlf) = g at holds
    obtain ⟨version, res, same⟩ := g.putrc_eq
    have holds : Holds g.putrc ([] ++ lines) := by
      rw [same]
      exact ⟨holds.count, holds.texts⟩
    have positive : 0 < 256 := by decide
    have noLength : g.putrc.hdrint (ascii "Content-Length") = none := by
      rw [hdrint, (holds.hdrstr_eq (by decide) positive).1]
      rw [List.nil_append, length]
      rfl
    have noCoding : g.putrc.hdrstr (ascii "Transfer-Encoding") 256 = none := by
      rw [(holds.hdrstr_eq (by decide) positive).1, List.nil_append, coding]
      rfl
    have found : g.putrc.hdrstr (ascii "Sec-WebSocket-Key") 256 =
        Option.some (l.behind (ascii "Sec-WebSocket-Key")) := by
      rw [(holds.hdrstr_eq (by decide) positive).1, List.nil_append, key, Option.map_some,
        Option.filter_some, if_pos (decide_eq_true fits)]
    unfold Fsm.headerEnd
    dsimp only
    rw [noLength, noCoding, found]
    rfl

end Cyue.Http.Fsm

namespace Cyue.Ws

open Http Http.Fsm

/-! ## Reading from the buffer and the descriptor -/

/-- What `read_body_and_fd` reads from: the buffer of `m_sm`, then the descriptor. -/
structure Channel where
  sm : Fsm
  events : List SockEvent
  eof : Bool

namespace Channel

/-- `bodylen()` is an `int`, and becomes a `size_t`. -/
def bodySize (c : Channel) : ℕ := if c.sm.bl < 2 ^ 31 then c.sm.bl else c.sm.bl + 2 ^ 64 - 2 ^ 32

def readBodyAndFd (c : Channel) (l : ℕ) : Got × Channel :=
  let bl := c.bodySize
  if 0 < bl then
    let r := if bl < l then bl else l
    (if r = 0 then .zero else .data ((c.sm.p.drop c.sm.bd).take r),
      { c with sm := c.sm.consumeBody r })
  else if l = 0 then (.zero, c)
  else
    let (got, events) := sysRead c.eof l c.events
    (got, { c with events := events })

end Channel

/-- The bytes that a read has put into the buffer of its caller. -/
def Got.bytes : Got → List UInt8
  | .data bytes => bytes
  | _ => []

/-- Reads of these sizes, and all bytes that they give. -/
def Channel.reads (c : Channel) : List ℕ → List UInt8 × Channel
  | [] => ([], c)
  | l :: sizes =>
      let (got, c) := c.readBodyAndFd l
      let (bytes, c) := c.reads sizes
      (got.bytes ++ bytes, c)

def Channel.input (c : Channel) : Input := ⟨c.sm.body, c.events, c.eof⟩

/-- A read takes the bytes that wait in the buffer as the frame reader expects it. -/
theorem Channel.read_buffered {c : Channel} {bytes : List UInt8} (waits : Waits c.sm bytes)
    (small : bytes.length < 2 ^ 31) (some : bytes ≠ []) (l : ℕ) :
    (c.readBodyAndFd l).1 = (c.input.readBodyAndFd l).1 ∧
      (c.readBodyAndFd l).1.bytes = bytes.take l ∧
      Waits (c.readBodyAndFd l).2.sm (bytes.drop l) ∧
      (c.readBodyAndFd l).2.events = c.events ∧ (c.readBodyAndFd l).2.eof = c.eof := by
  have size : c.bodySize = bytes.length := by
    rw [bodySize, waits.counted, if_pos small]
  have positive : 0 < bytes.length := List.length_pos_iff.mpr some
  have body : c.sm.body = bytes := waits.body
  have amount : (if bytes.length < l then bytes.length else l) = min l bytes.length := by
    split <;> omega
  have least : bytes.drop (min l bytes.length) = bytes.drop l := by
    rcases Nat.le_total l bytes.length with le | le
    · rw [Nat.min_eq_left le]
    · rw [Nat.min_eq_right le, List.drop_length, List.drop_eq_nil_of_le le]
  have front : (c.sm.p.drop c.sm.bd).take (min l bytes.length) = bytes.take l := by
    rw [waits.stored, ← List.take_take, List.take_length]
  have after := waits.consume (Nat.min_le_right l bytes.length)
  rw [least] at after
  unfold readBodyAndFd
  dsimp only
  rw [size, if_pos positive, amount, front]
  refine ⟨?_, ?_, after, rfl, rfl⟩
  · unfold Input.readBodyAndFd input
    dsimp only
    rw [body]
    by_cases zero : l = 0
    · rw [if_pos zero, if_pos (by omega)]
    · rw [if_neg zero, if_neg (by omega)]
      obtain ⟨b, rest, rfl⟩ := List.exists_cons_of_ne_nil some
      rfl
  · split
    · rename_i zero
      have none : l = 0 := by omega
      rw [none]
      rfl
    · rfl

/-- With nothing in the buffer a read goes to the descriptor. -/
theorem Channel.read_socket {c : Channel} (waits : Waits c.sm []) (l : ℕ) :
    (c.readBodyAndFd l).1 = (c.input.readBodyAndFd l).1 ∧
      c.events.flatMap SockEvent.arrived =
        (c.readBodyAndFd l).1.bytes ++ (c.readBodyAndFd l).2.events.flatMap SockEvent.arrived ∧
      (c.readBodyAndFd l).2.sm = c.sm ∧ (l = 0 → (c.readBodyAndFd l).2.events = c.events) := by
  have size : c.bodySize = 0 := by
    rw [bodySize, waits.counted, if_pos (by decide)]
    rfl
  have body : c.sm.body = [] := waits.body
  unfold readBodyAndFd Input.readBodyAndFd input
  dsimp only
  rw [size, body, if_neg (Nat.lt_irrefl 0)]
  by_cases zero : l = 0
  · rw [if_pos zero, if_pos zero]
    exact ⟨rfl, rfl, rfl, fun _ => rfl⟩
  · rw [if_neg zero, if_neg zero]
    refine ⟨rfl, ?_, rfl, fun none => absurd none zero⟩
    have reads := sysRead_reads c.eof (Nat.pos_of_ne_zero zero) c.events
    cases got : (sysRead c.eof l c.events).1 with
    | data bytes =>
        rw [got] at reads
        cases reads with
        | data _ _ _ _ split => exact split
    | zero => exact (reads.pending_eq (by rw [got]; exact nofun)).symm
    | again => exact (reads.pending_eq (by rw [got]; exact nofun)).symm
    | fail => exact (reads.pending_eq (by rw [got]; exact nofun)).symm

/-- Reads of any sizes give the bytes in the buffer, then those of the descriptor. -/
theorem Channel.reads_all {c : Channel} {bytes : List UInt8} (waits : Waits c.sm bytes)
    (small : bytes.length < 2 ^ 31) (sizes : List ℕ) :
    ∃ fromSocket, (c.reads sizes).1 = bytes.take sizes.sum ++ fromSocket ∧
      (c.reads sizes).2.sm.body = bytes.drop sizes.sum ∧
      c.events.flatMap SockEvent.arrived =
        fromSocket ++ (c.reads sizes).2.events.flatMap SockEvent.arrived ∧
      (sizes.sum ≤ bytes.length → (c.reads sizes).2.events = c.events) := by
  induction sizes generalizing c bytes with
  | nil => exact ⟨[], rfl, waits.body, rfl, fun _ => rfl⟩
  | cons l sizes ih =>
      rw [List.sum_cons]
      by_cases some : bytes = []
      · subst some
        obtain ⟨_, arrived, same, idle⟩ := read_socket waits l
        have waits' : Waits (c.readBodyAndFd l).2.sm [] := same ▸ waits
        obtain ⟨fromSocket, given, body, rest, still⟩ := ih waits' small
        refine ⟨(c.readBodyAndFd l).1.bytes ++ fromSocket, ?_, ?_, ?_, fun none => ?_⟩
        · rw [List.take_nil, List.nil_append] at given ⊢
          exact congrArg _ given
        · rw [List.drop_nil] at body ⊢
          exact body
        · rw [arrived, rest, List.append_assoc]
          rfl
        · rw [List.length_nil] at none
          exact (still (by rw [List.length_nil]; omega)).trans (idle (by omega))
      · obtain ⟨_, taken, waits', events, _⟩ := read_buffered waits small some l
        have small' : (bytes.drop l).length < 2 ^ 31 := by
          rw [List.length_drop]
          omega
        obtain ⟨fromSocket, given, body, rest, still⟩ := ih waits' small'
        refine ⟨fromSocket, ?_, ?_, ?_, fun fits => ?_⟩
        · change (c.readBodyAndFd l).1.bytes ++ ((c.readBodyAndFd l).2.reads sizes).1 = _
          rw [taken, given, List.take_add, List.append_assoc]
        · rw [List.drop_drop] at body
          exact body
        · rw [← events]
          exact rest
        · rw [List.length_drop] at still
          exact (still (by omega)).trans events

/-- The bytes behind a handshake come out of the reads in their order and once, in front of all
that is read from the descriptor, however they came to the receiver and are asked for.  `reset` is
given `READSIZE`, 512. -/
theorem trailing_bytes_first (f : Fsm) {chunkSize : ℕ} (promised : chunkSize < 2 ^ 31)
    {head trailing : List UInt8} (shake : Handshake (f.reset chunkSize) head)
    (calls : List (List UInt8 × ℤ)) (delivered : calls.flatMap taken = head ++ trailing)
    (fits : (head ++ trailing).length < chunkSize) (events : List SockEvent) (eof : Bool)
    (sizes : List ℕ) :
    let sm := calls.foldl (fun sm call => sm.append call.1 call.2) (f.reset chunkSize)
    let after := (Channel.mk sm events eof).reads sizes
    sm.state = .websocketEstablish ∧
      ∃ fromSocket, after.1 = trailing.take sizes.sum ++ fromSocket ∧
        after.2.sm.body = trailing.drop sizes.sum ∧
        events.flatMap SockEvent.arrived =
          fromSocket ++ after.2.events.flatMap SockEvent.arrived ∧
        (sizes.sum ≤ trailing.length → after.2.events = events) := by
  have waits : Waits (calls.foldl (fun sm call => sm.append call.1 call.2) (f.reset chunkSize))
      trailing := by
    rw [appends_taken, delivered]
    exact shake.waits rfl (room_reset f fits (by omega))
  have small : trailing.length < 2 ^ 31 := by
    rw [List.length_append] at fits
    omega
  exact ⟨waits.state, Channel.reads_all waits small sizes⟩

def askLines : List Line :=
  [⟨ascii "GET / HTTP/1.1", true, upgradeRequest.nonempty, upgradeRequest.inside,
      upgradeRequest.bare⟩,
    ⟨ascii "Sec-WebSocket-Key: dGhlIHNhbXBsZSBub25jZQ==", true, by decide, by decide, nofun⟩]

def askBytes : List UInt8 := askLines.flatMap Line.bytes ++ ending true

theorem askBytes_handshake : Handshake (cleared.reset 512) askBytes := by
  have room : Room (cleared.reset 512) askBytes.length := room_reset cleared (by decide) (by decide)
  have key : firstNamed askLines (ascii "Sec-WebSocket-Key") = askLines[1]? := rfl
  exact handshake_lines cleared (by decide) (List.cons_ne_nil _ _) (by decide) room (by decide)
    (by decide) key (by decide)

/-- Three bytes came with the request, two of them in the same call, and two more wait in the
descriptor. -/
theorem trailing_bytes_first_split :
    let sm := [(askBytes ++ [130, 2], (65 : ℤ)), ([104], 1)].foldl
      (fun sm call => sm.append call.1 call.2) (cleared.reset 512)
    let after := (Channel.mk sm [.bytes [105, 130]] false).reads [2, 4, 1]
    sm.state = .websocketEstablish ∧
      ∃ fromSocket, after.1 = [130, 2, 104].take 7 ++ fromSocket ∧
        after.2.sm.body = [130, 2, 104].drop 7 ∧
        [105, 130] = fromSocket ++ after.2.events.flatMap SockEvent.arrived ∧
        (7 ≤ 3 → after.2.events = [.bytes [105, 130]]) :=
  trailing_bytes_first cleared (by decide) askBytes_handshake _ (by decide) (by decide) _ false
    [2, 4, 1]

end Cyue.Ws
