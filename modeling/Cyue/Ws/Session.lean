import Cyue.Ws.Reader

/-!
# Calls that follow one another, and where they are in the stream

A session calls `read_frame` again whenever a call has returned, each time with
the buffer size that the caller chooses.  `AtHeader` and `InFrame` say where a
connection is in a stream of frames; they are what one call leaves to the next.
-/

namespace Cyue.Ws

def wires (fs : List Frame) : List UInt8 := fs.flatMap Frame.wire

def dataOf (fs : List Frame) : List UInt8 :=
  (fs.filter fun f => f.opcode.IsData).flatMap Frame.payload

/-! ## Sessions -/

/-- `sizes` are the buffer sizes of the calls to come; `log` is what the calls
that returned have returned. -/
structure Session where
  machine : Machine
  sizes : ℕ → ℕ
  log : List Outcome

namespace Session

def start (c : Conn) (input : Input) (sizes : ℕ → ℕ) : Session where
  machine := readFrame c input (sizes 0)
  sizes := fun n => sizes (n + 1)
  log := []

def step (s : Session) : Session :=
  match s.machine.pc with
  | .done outcome =>
      { machine := { s.machine with room := s.sizes 0, out := [], pc := .retry }
        sizes := fun n => s.sizes (n + 1)
        log := s.log ++ [outcome] }
  | _ => { s with machine := s.machine.step }

theorem step_done {s : Session} {outcome : Outcome} (pc : s.machine.pc = .done outcome) :
    s.step =
      { machine := { s.machine with room := s.sizes 0, out := [], pc := .retry }
        sizes := fun n => s.sizes (n + 1)
        log := s.log ++ [outcome] } := by
  simp only [step, pc]

theorem step_running {s : Session} (running : ∀ outcome, s.machine.pc ≠ .done outcome) :
    s.step = { s with machine := s.machine.step } := by
  unfold step
  split
  · next outcome pc => exact absurd pc (running outcome)
  · rfl

end Session

def Outcome.bytes : Outcome → List UInt8
  | .block bytes => bytes
  | _ => []

def delivered (log : List Outcome) : List UInt8 := log.flatMap Outcome.bytes

/-! ## Inside of a frame -/

/-- The header of `f` has been read, and the byte at index `i` of its payload is
the next to be unmasked. -/
structure Keyed (c : Conn) (f : Frame) (i : ℕ) : Prop where
  state : c.state = f.state
  header : ∃ t, c.frame = f.header ++ t
  index : f.key.isSome → c.maskIdx = i % 4

namespace Keyed

variable {c : Conn} {f : Frame} {i : ℕ}

theorem opcode (keyed : Keyed c f i) : Ws.opcode c.frame = f.opcode := by
  obtain ⟨t, header⟩ := keyed.header
  rw [header, f.opcode_header]

theorem inFrame (keyed : Keyed c f i) : c.state.InFrame = true := by
  rw [keyed.state, f.state_inFrame]

theorem unmask (keyed : Keyed c f i) (p : List UInt8) :
    (c.unmask p).1 = f.scramble i p ∧
      (f.key.isSome → (c.unmask p).2 = (i + p.length) % 4) := by
  obtain ⟨t, header⟩ := keyed.header
  unfold Conn.unmask Conn.mask Frame.scramble
  rw [header, f.masked_header, keyed.state]
  cases given : f.key with
  | none => exact ⟨rfl, fun some => by cases some⟩
  | some key =>
      have index : c.maskIdx = i % 4 := keyed.index (by rw [given]; rfl)
      have same : applyMask key (i % 4) p = applyMask key i p :=
        applyMask_congr key (Nat.mod_mod i 4) p
      have last : (i % 4 + p.length) % 4 = (i + p.length) % 4 := by omega
      simp only [Option.isSome_some, if_true, f.getMask_header t given, index,
        maskPayload_eq key p (Nat.mod_lt i (by decide)), same, last]
      exact ⟨trivial, fun _ => trivial⟩

theorem remain (keyed : Keyed c f i) (inside : c.read ≤ f.payload.length) :
    c.remain = f.payload.length - c.read := by
  obtain ⟨t, header⟩ := keyed.header
  have small : f.payload.length < 2 ^ 64 := f.length_lt
  rw [Conn.remain, keyed.state, header, f.frameSize_header]
  omega

end Keyed

namespace Machine

variable (m : Machine) (b : List UInt8)

@[simp]
theorem accept_conn : (m.accept b).conn =
    { m.conn with
      maskIdx := (m.conn.unmask b).2
      read := (m.conn.read + b.length) % 2 ^ 64 } := rfl

@[simp]
theorem accept_out : (m.accept b).out = m.out ++ (m.conn.unmask b).1 := rfl

@[simp]
theorem accept_room : (m.accept b).room = m.room - b.length := rfl

@[simp]
theorem accept_input : (m.accept b).input = m.input := rfl

@[simp]
theorem accept_pongs : (m.accept b).pongs = m.pongs := rfl

end Machine

/-- A prefix of a stretch of a stream is a prefix of its first part, if it fits there. -/
theorem append_split {b rest x y : List UInt8} (equal : b ++ rest = x ++ y)
    (le : b.length ≤ x.length) : x = b ++ x.drop b.length ∧ rest = x.drop b.length ++ y := by
  rcases List.append_eq_append_iff.mp equal with ⟨x', left, right⟩ | ⟨b', left, right⟩
  · rw [left, List.drop_left]
    exact ⟨rfl, right⟩
  · have none : b' = [] := by
      have := congrArg List.length left
      rw [List.length_append] at this
      exact List.eq_nil_of_length_eq_zero (by omega)
    subst none
    rw [List.append_nil] at left
    rw [← left, List.drop_length, List.append_nil, List.nil_append]
    exact ⟨rfl, right.symm⟩

/-- In a data frame, `c.read` bytes of which have been delivered. -/
structure InData (c : Conn) (pending : List UInt8) (f : Frame) (fs : List Frame) : Prop where
  data : f.opcode.IsData = true
  keyed : Keyed c f c.read
  inside : c.read ≤ f.payload.length
  stream : pending = f.body.drop c.read ++ wires fs

/-- Payload bytes that arrive are delivered clear. -/
theorem InData.accept {m : Machine} {b pending : List UInt8} {f : Frame} {fs : List Frame}
    (place : InData m.conn (b ++ pending) f fs) (le : b.length ≤ m.conn.remain) :
    InData (m.accept b).conn pending f fs ∧
      (m.accept b).conn.read = m.conn.read + b.length ∧
      (m.accept b).out = m.out ++ (f.payload.drop m.conn.read).take b.length := by
  obtain ⟨data, keyed, inside, stream⟩ := place
  rw [keyed.remain inside] at le
  have small : f.payload.length < 2 ^ 64 := f.length_lt
  obtain ⟨here, rest⟩ := append_split stream (by simpa using le)
  have count : (m.conn.read + b.length) % 2 ^ 64 = m.conn.read + b.length :=
    Nat.mod_eq_of_lt (by omega)
  have clear := keyed.unmask b
  rw [Machine.accept_conn, Machine.accept_out, count, clear.1, f.scramble_body here]
  refine ⟨⟨data, ⟨keyed.state, keyed.header, clear.2⟩, ?_, ?_⟩, rfl, rfl⟩
  · dsimp only
    omega
  · dsimp only
    rw [rest, List.drop_drop]

/-! ## Between frames -/

/-- The header bytes read so far; a header that has not been begun has none,
whatever the last frame has left in the buffer. -/
def Conn.held (c : Conn) : List UInt8 := if c.state = .established then [] else c.frame

def Conn.begun (c : Conn) : Conn := if c.state = .established then c.initFrame else c

/-- In front of the frames `fs` or in the header of the first of them. -/
structure AtHeader (c : Conn) (pending : List UInt8) (fs : List Frame) : Prop where
  state : c.state = .established ∨ c.state = .recvFrame ∧ c.read = 0 ∧ c.maskIdx = 0
  stream : c.held ++ pending = wires fs
  short : ∀ f ∈ fs.head?, c.held.length < f.header.length

theorem wires_cons (f : Frame) (fs : List Frame) :
    wires (f :: fs) = f.header ++ (f.body ++ wires fs) := by
  simp [wires, Frame.wire]

theorem wires_eq_nil {fs : List Frame} (none : wires fs = []) : fs = [] := by
  cases fs with
  | nil => rfl
  | cons f fs => rw [wires_cons, Frame.header] at none; cases none

theorem atHeader_established {c : Conn} {fs : List Frame} (state : c.state = .established) :
    AtHeader c (wires fs) fs := by
  refine ⟨Or.inl state, by rw [Conn.held, if_pos state, List.nil_append], ?_⟩
  intro f _
  have two := f.two_le_header
  rw [Conn.held, if_pos state, List.length_nil]
  omega

namespace AtHeader

variable {c : Conn} {pending : List UInt8} {fs : List Frame}

theorem begun_eq (place : AtHeader c pending fs) :
    c.begun.frame = c.held ∧ c.begun.read = 0 ∧ c.begun.maskIdx = 0 ∧
      c.begun.ctrlFrame = c.ctrlFrame := by
  unfold Conn.begun Conn.held
  rcases place.state with state | ⟨state, read, maskIdx⟩
  · rw [if_pos state, if_pos state]
    exact ⟨rfl, rfl, rfl, rfl⟩
  · rw [if_neg (by rw [state]; decide), if_neg (by rw [state]; decide)]
    exact ⟨rfl, read, maskIdx, rfl⟩

theorem begun (place : AtHeader c pending fs) : AtHeader c.begun pending fs := by
  have same : c.begun.held = c.held := by
    rcases place.state with state | ⟨state, _⟩
    · rw [Conn.begun, if_pos state, Conn.held, Conn.held, if_pos state]
      exact if_pos state
    · rw [Conn.begun, if_neg (by rw [state]; decide)]
  refine ⟨?_, by rw [same]; exact place.stream, by rw [same]; exact place.short⟩
  rcases place.state with state | state
  · exact Or.inl (by rw [Conn.begun, if_pos state]; exact state)
  · exact Or.inr (by rw [Conn.begun, if_neg (by rw [state.1]; decide)]; exact state)

theorem retry_eq {m : Machine} (place : AtHeader m.conn pending fs) :
    m.retry = { m with conn := m.conn.begun }.header := by
  rcases place.state with state | ⟨state, _⟩
  · simp only [Machine.retry, state, Conn.begun, if_true]
  · simp only [Machine.retry, state, Conn.begun, reduceCtorEq, if_false]

/-- At the end of the input nothing is left of the stream. -/
theorem eq_nil (place : AtHeader c [] fs) : fs = [] := by
  cases fs with
  | nil => rfl
  | cons f fs =>
      have stream := congrArg List.length place.stream
      have short := place.short f rfl
      rw [wires_cons, List.append_nil, List.length_append] at stream
      omega

/-- Bytes that arrive belong to a first frame: its header is still not
complete, or it is and the rest of them lies behind it. -/
theorem arrival {b : List UInt8} (place : AtHeader c (b ++ pending) fs) (some : b ≠ []) :
    ∃ f fs', fs = f :: fs' ∧
      ((∃ t, t ≠ [] ∧ f.header = (c.held ++ b) ++ t) ∨
        ∃ t, c.held ++ b = f.header ++ t ∧ t ++ pending = f.body ++ wires fs') := by
  have stream := place.stream
  cases fs with
  | nil =>
      rw [wires, List.flatMap_nil, List.append_eq_nil_iff, List.append_eq_nil_iff] at stream
      exact absurd stream.2.1 some
  | cons f fs =>
      refine ⟨f, fs, rfl, ?_⟩
      rw [wires_cons, ← List.append_assoc] at stream
      rcases List.append_eq_append_iff.mp stream with ⟨t, left, right⟩ | ⟨t, left, right⟩
      · by_cases none : t = []
        · subst none
          rw [List.append_nil] at left
          exact Or.inr ⟨[], by rw [List.append_nil, left], by simpa using right⟩
        · exact Or.inl ⟨t, none, left⟩
      · exact Or.inr ⟨t, left, right.symm⟩

/-- With the header still not complete, the bytes are kept and waited for more. -/
theorem waiting {b t : List UInt8} {f : Frame} {fs : List Frame}
    (place : AtHeader c (b ++ pending) (f :: fs)) (part : f.header = (c.held ++ b) ++ t)
    (missing : t ≠ []) :
    AtHeader { c.begun with frame := c.held ++ b, state := .recvFrame } pending (f :: fs) := by
  obtain ⟨_, read, maskIdx, _⟩ := place.begun_eq
  refine ⟨Or.inr ⟨rfl, read, maskIdx⟩, ?_, ?_⟩
  · rw [← place.stream, ← List.append_assoc]
    rfl
  · intro g first
    have more := List.length_pos_iff.mpr missing
    cases first
    rw [part, List.length_append]
    exact Nat.lt_add_of_pos_right more

theorem held_lt (place : AtHeader c pending fs) : c.held.length < sizeofFrame := by
  cases fs with
  | nil =>
      have none := List.append_eq_nil_iff.mp place.stream
      rw [none.1]
      decide
  | cons f fs => exact (place.short f rfl).trans_le f.header_length_le

theorem outside (place : AtHeader c pending fs) : c.state.InFrame = false := by
  rcases place.state with state | ⟨state, _⟩ <;> rw [state] <;> rfl

end AtHeader

/-! ## From the header into the frame -/

theorem analyze_short {m : Machine} {f : Frame} {t : List UInt8}
    (part : f.header = m.conn.frame ++ t) (missing : t ≠ []) :
    m.analyze = { m with conn := { m.conn with state := .recvFrame } }.leave := by
  simp only [Machine.analyze, f.analyzeFrame_short part missing, if_true]

theorem overRead_eq {c : Conn} {f : Frame} {t : List UInt8} (frame : c.frame = f.header ++ t) :
    c.overRead = t := by
  have front : (f.header ++ t).length - t.length = f.header.length := by simp
  rw [Conn.overRead, frame, f.analyzeFrame_header, front, List.drop_left]

/-- The header of `f` is complete in `m'`, and the bytes `t` read behind it are
in the caller's buffer. -/
structure Entered (m m' : Machine) (f : Frame) (t : List UInt8) : Prop where
  pc : m'.pc = .payload
  frame : m'.conn.frame = f.header ++ t
  keyed : Keyed m'.conn f t.length
  read : m'.conn.read = t.length
  out : m'.out = m.out ++ f.scramble 0 t
  room : m'.room = m.room - t.length
  ctrl : m'.conn.ctrlFrame = m.conn.ctrlFrame
  input : m'.input = m.input
  pongs : m'.pongs = m.pongs

theorem analyze_complete {m : Machine} {f : Frame} {t : List UInt8}
    (frame : m.conn.frame = f.header ++ t) (bound : m.conn.frame.length ≤ sizeofFrame)
    (read : m.conn.read = 0) (maskIdx : m.conn.maskIdx = 0) (fits : t.length ≤ m.room) :
    Entered m m.analyze f t := by
  have state : f.state ≠ .recvFrame := fun equal => by
    have inside := f.state_inFrame
    rw [equal] at inside
    cases inside
  have analyzed : analyzeFrame m.conn.frame = (f.state, t.length) := by
    rw [frame, f.analyzeFrame_header]
  let c : Conn := { m.conn with state := f.state }
  have keyed : Keyed c f 0 := ⟨rfl, ⟨t, frame⟩, fun _ => maskIdx⟩
  by_cases none : t.length = 0
  · have empty : t = [] := List.eq_nil_of_length_eq_zero none
    have moved : m.analyze = { m with conn := c, pc := .payload } := by
      simp only [Machine.analyze, analyzed, state, if_false, none, if_true, c]
    rw [moved, empty]
    refine ⟨rfl, by rw [← empty]; exact frame, keyed, read, ?_, rfl, rfl, rfl, rfl⟩
    unfold Frame.scramble
    cases f.key <;> exact (List.append_nil _).symm
  · have extra : c.overRead = t := overRead_eq frame
    have moved : m.analyze = { ({ m with conn := c } : Machine).accept t with pc := .payload } := by
      have enough : ¬ m.room < t.length := by omega
      simp only [Machine.analyze, analyzed, state, if_false, none, enough]
      rw [extra]
    have clear := keyed.unmask t
    have count : (m.conn.read + t.length) % 2 ^ 64 = t.length := by
      have all := congrArg List.length frame
      rw [List.length_append] at all
      rw [read, Nat.zero_add, Nat.mod_eq_of_lt]
      simp only [sizeofFrame] at bound
      omega
    rw [moved]
    refine ⟨rfl, frame, ⟨rfl, ⟨t, frame⟩, fun some => ?_⟩, count, ?_, rfl, rfl, rfl, rfl⟩
    · have last := clear.2 some
      rw [Nat.zero_add] at last
      exact last
    · rw [← clear.1]
      rfl

/-- A data frame is entered with the bytes behind its header delivered. -/
theorem Entered.inData {m m' : Machine} {f : Frame} {fs : List Frame} {t pending : List UInt8}
    (entered : Entered m m' f t) (data : f.opcode.IsData = true)
    (inside : t.length ≤ f.payload.length) (behind : t ++ pending = f.body ++ wires fs) :
    InData m'.conn pending f fs ∧ m'.out = m.out ++ f.payload.take t.length := by
  obtain ⟨front, rest⟩ := append_split behind (by simpa using inside)
  refine ⟨⟨data, entered.read ▸ entered.keyed, entered.read ▸ inside, ?_⟩, ?_⟩
  · rw [entered.read]
    exact rest
  · have clear : f.scramble 0 t = (f.payload.drop 0).take t.length := f.scramble_body front
    rw [entered.out, clear, List.drop_zero]

end Cyue.Ws
