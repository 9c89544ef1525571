import Cyue.Ws.Reader

/-!
# When `read_frame` returns

Each turn of the program takes bytes from the input, comes closer to a read or
leaves, with one exception: the arms of the reserved opcodes and of `ping` and
`pong` go back to `retry` without a change of `m_state`.  With room left in the
caller's buffer and nothing left to read of the frame, they are taken again
and again.
-/

namespace Cyue.Ws

namespace Machine

def Done (m : Machine) : Prop := ∃ outcome, m.pc = .done outcome

/-- The call is in a frame whose arm consumes nothing and goes back to `retry`. -/
def Stuck (m : Machine) : Prop :=
  0 < m.room ∧ m.conn.state.InFrame = true ∧
    (m.pc = .retry ∨ m.pc = .payload ∨ m.pc = .suck 0) ∧
    (opcode m.conn.frame = .reserved ∨
      (opcode m.conn.frame = .ping ∨ opcode m.conn.frame = .pong) ∧ m.conn.remain = 0)

/-! ## What the pieces leave alone -/

@[simp]
theorem done_finish (m : Machine) (outcome : Outcome) : (m.finish outcome).Done := ⟨outcome, rfl⟩

@[simp]
theorem done_leave (m : Machine) : m.leave.Done := ⟨_, rfl⟩

theorem next_eq_retry {m : Machine} (room : 0 < m.room) : m.next = { m with pc := .retry } :=
  if_pos room

theorem done_next {m : Machine} (full : ¬ 0 < m.room) : m.next.Done := by
  rw [next, if_neg full]
  exact done_finish m _

@[simp]
theorem next_input (m : Machine) : m.next.input = m.input := by
  unfold next
  split <;> rfl

@[simp]
theorem next_conn (m : Machine) : m.next.conn = m.conn := by
  unfold next
  split <;> rfl

@[simp]
theorem next_pongs (m : Machine) : m.next.pongs = m.pongs := by
  unfold next
  split <;> rfl

theorem next_pc_ne (m : Machine) (remain : ℕ) : m.next.pc ≠ .suck remain := by
  unfold next
  split <;> exact fun other => by cases other

@[simp]
theorem analyze_input (m : Machine) : m.analyze.input = m.input := by
  unfold analyze
  dsimp only
  split_ifs <;> rfl

theorem retry_inFrame {m : Machine} (inside : m.conn.state.InFrame = true) :
    m.retry = { m with pc := .payload } := by
  unfold retry
  split
  · next state => rw [state] at inside; cases inside
  · next state => rw [state] at inside; cases inside
  · rw [if_pos inside]

theorem payload_data {m : Machine} (data : (opcode m.conn.frame).IsData = true) :
    m.payload = m.dataPayload := by
  unfold payload
  cases given : opcode m.conn.frame <;> rw [given] at data <;> first | rfl | cases data

theorem payload_control {m : Machine} (control : (opcode m.conn.frame).IsControl = true) :
    m.payload = m.suckOut := by
  unfold payload
  cases given : opcode m.conn.frame <;> rw [given] at control <;> first | rfl | cases control

/-! ## Progress -/

/-- How far the program counter is from a read. -/
def distance (m : Machine) : ℕ :=
  match m.pc with
  | .retry => if m.conn.state.InFrame then 4 else 1
  | .payload => 3
  | .suck _ => 2
  | .done _ => 0

def rank (m : Machine) : ℕ :=
  match m.pc with
  | .done _ => 0
  | _ => 5 * m.input.weight + m.distance

theorem rank_done {m : Machine} (done : m.Done) : m.rank = 0 := by
  obtain ⟨outcome, pc⟩ := done
  simp [rank, pc]

theorem rank_pos {m : Machine} (running : ¬ m.Done) :
    m.rank = 5 * m.input.weight + m.distance ∧ 0 < m.distance := by
  unfold rank distance
  cases pc : m.pc with
  | retry => exact ⟨rfl, by dsimp only; split <;> omega⟩
  | payload => exact ⟨rfl, by dsimp only; omega⟩
  | suck remain => exact ⟨rfl, by dsimp only; omega⟩
  | done outcome => exact absurd ⟨outcome, pc⟩ running

theorem distance_le (m : Machine) : m.distance ≤ 4 := by
  unfold distance
  split <;> try split
  all_goals omega

/-- The step returned, or it consumed input, or it came closer to a read. -/
def Falls (m m' : Machine) : Prop :=
  m'.Done ∨ m'.input.weight < m.input.weight ∨
    m'.input = m.input ∧ m'.distance < m.distance

theorem rank_lt {m m' : Machine} (running : ¬ m.Done) (falls : Falls m m') :
    m'.rank < m.rank := by
  have before := rank_pos running
  by_cases done : m'.Done
  · rw [rank_done done]
    omega
  · have after := rank_pos done
    have bound := m'.distance_le
    rcases falls with finished | less | ⟨same, closer⟩
    · exact absurd finished done
    · omega
    · rw [same] at after
      omega

/-- Where the counter stands behind a header, a header has been read; the loop
over a control frame knows what remains of it. -/
def Synced (m : Machine) : Prop :=
  match m.pc with
  | .payload => m.conn.state.InFrame = true
  | .suck remain =>
      m.conn.state.InFrame = true ∧ remain = m.conn.remain ∧
        (opcode m.conn.frame).IsControl = true
  | _ => True

theorem Done.synced {m : Machine} (done : m.Done) : m.Synced := by
  obtain ⟨outcome, pc⟩ := done
  simp [Synced, pc]

theorem synced_next (m : Machine) : m.next.Synced := by
  by_cases room : 0 < m.room
  · rw [next_eq_retry room]
    trivial
  · exact (done_next room).synced

theorem analyzeFrame_state (frame : List UInt8) :
    (analyzeFrame frame).1 = .recvFrame ∨ (analyzeFrame frame).1.InFrame = true := by
  have inside : ∀ mask len, (variant mask len).1.InFrame = true := by
    intro mask len
    unfold variant
    split_ifs <;> rfl
  unfold analyzeFrame
  split
  · exact Or.inl rfl
  · dsimp only
    split
    · exact Or.inl rfl
    · exact Or.inr (inside _ _)

theorem synced_analyze (m : Machine) : m.analyze.Synced := by
  have state := analyzeFrame_state m.conn.frame
  unfold analyze
  dsimp only
  split_ifs with incomplete none short
  · exact (done_leave _).synced
  · exact state.resolve_left incomplete
  · exact (done_finish _ _).synced
  · exact state.resolve_left incomplete

theorem header_step (m : Machine) :
    m.header.Synced ∧ (m.header.Done ∨ m.header.input.weight < m.input.weight) := by
  have reads := m.input.readBodyAndFd_reads (sizeofFrame - m.conn.frame.length)
  unfold header
  generalize m.input.readBodyAndFd (sizeofFrame - m.conn.frame.length) = result at reads ⊢
  obtain ⟨got, after⟩ := result
  cases reads with
  | empty | eof | fail => exact ⟨(done_finish _ _).synced, Or.inl (done_finish _ _)⟩
  | again => exact ⟨(done_leave _).synced, Or.inl (done_leave _)⟩
  | data bytes _ some bound split less =>
      refine ⟨synced_analyze _, Or.inr ?_⟩
      dsimp only
      rw [analyze_input]
      exact less

theorem dataPayload_step (m : Machine) :
    m.dataPayload.Synced ∧
      (m.dataPayload.Done ∨ m.dataPayload.input.weight < m.input.weight ∨
        m.dataPayload.input = m.input ∧ m.dataPayload.distance < 3) := by
  unfold dataPayload
  split
  · split
    · exact ⟨(done_finish _ _).synced, Or.inl (done_finish _ _)⟩
    · exact ⟨trivial, Or.inr (Or.inr ⟨rfl, by simp [distance, State.InFrame]⟩)⟩
  · have reads := m.input.readBodyAndFd_reads (min m.room m.conn.remain)
    generalize m.input.readBodyAndFd (min m.room m.conn.remain) = result at reads ⊢
    obtain ⟨got, after⟩ := result
    cases reads with
    | empty | eof | fail => exact ⟨(done_finish _ _).synced, Or.inl (done_finish _ _)⟩
    | again => exact ⟨(done_leave _).synced, Or.inl (done_leave _)⟩
    | data bytes _ some bound split less =>
        refine ⟨synced_next _, Or.inr (Or.inl ?_)⟩
        rw [next_input]
        exact less

theorem remain_add (c : Conn) {n : ℕ} (small : n < 2 ^ 8) :
    ({ c with read := (c.read + n) % 2 ^ 64 } : Conn).remain =
      (c.remain + 2 ^ 64 - n) % 2 ^ 64 := by
  simp only [Conn.remain]
  omega

theorem write_len_lt (cf : ControlFrame) (bytes : List UInt8) : (cf.write bytes).len < 2 ^ 8 :=
  Nat.mod_lt _ (by decide)

theorem suck_step (m : Machine) {remain : ℕ} (more : remain ≠ 0)
    (inside : m.conn.state.InFrame = true) (same : remain = m.conn.remain)
    (control : (opcode m.conn.frame).IsControl = true) :
    (m.suck remain).Synced ∧
      ((m.suck remain).Done ∨ (m.suck remain).input.weight < m.input.weight) := by
  rw [suck, if_neg more]
  by_cases far : m.input.body = [] ∧ addressSpace ≤ remain
  · rw [Input.readControl, if_pos far]
    exact ⟨(done_finish _ _).synced, Or.inl (done_finish _ _)⟩
  have reads := m.input.readBodyAndFd_reads remain
  rw [Input.readControl, if_neg far]
  generalize m.input.readBodyAndFd remain = result at reads ⊢
  obtain ⟨got, after⟩ := result
  cases reads with
  | empty | eof | fail => exact ⟨(done_finish _ _).synced, Or.inl (done_finish _ _)⟩
  | again =>
      dsimp only
      split <;> exact ⟨(done_leave _).synced, Or.inl (done_leave _)⟩
  | data bytes _ some bound split less =>
      dsimp only
      split
      · exact ⟨(done_finish _ _).synced, Or.inl (done_finish _ _)⟩
      · refine ⟨⟨inside, ?_, control⟩, Or.inr less⟩
        rw [same]
        exact (remain_add _ (write_len_lt _ _)).symm

theorem retry_step {m : Machine} (pc : m.pc = .retry) :
    m.retry.Synced ∧ Falls m m.retry := by
  unfold retry
  split
  · have step := header_step { m with conn := m.conn.initFrame }
    exact ⟨step.1, step.2.imp_right Or.inl⟩
  · have step := header_step m
    exact ⟨step.1, step.2.imp_right Or.inl⟩
  · split
    · next inside =>
        refine ⟨inside, Or.inr (Or.inr ⟨rfl, ?_⟩)⟩
        simp only [distance, pc, inside, if_true]
        omega
    · exact ⟨(done_finish _ _).synced, Or.inl (done_finish _ _)⟩

theorem suckOut_step {m : Machine} (inside : m.conn.state.InFrame = true)
    (control : (opcode m.conn.frame).IsControl = true) :
    m.suckOut.Synced ∧ m.suckOut.input = m.input ∧ m.suckOut.distance = 2 := by
  unfold suckOut
  dsimp only
  split <;> exact ⟨⟨inside, rfl, control⟩, rfl, rfl⟩

theorem payload_step {m : Machine} (pc : m.pc = .payload) (inside : m.conn.state.InFrame = true)
    (free : ¬ m.Stuck) : m.payload.Synced ∧ Falls m m.payload := by
  have distance : m.distance = 3 := by simp only [Machine.distance, pc]
  cases code : opcode m.conn.frame with
  | continuationFrame | textFrame | binaryFrame =>
      simp only [payload, code]
      rw [Falls, distance]
      exact m.dataPayload_step
  | connectionClose | ping | pong =>
      have step := suckOut_step inside (by rw [code]; rfl)
      simp only [payload, code]
      refine ⟨step.1, Or.inr (Or.inr ⟨step.2.1, ?_⟩)⟩
      rw [distance, step.2.2]
      decide
  | reserved =>
      have full : ¬ 0 < m.room := fun room =>
        free ⟨room, inside, Or.inr (Or.inl pc), Or.inl code⟩
      simp only [payload, code]
      exact ⟨(done_next full).synced, Or.inl (done_next full)⟩

theorem sucked_step {m : Machine} (pc : m.pc = .suck 0) (inside : m.conn.state.InFrame = true)
    (extra : m.conn.remain = 0) (control : (opcode m.conn.frame).IsControl = true)
    (free : ¬ m.Stuck) : m.sucked.Done := by
  have full (code : opcode m.conn.frame = .ping ∨ opcode m.conn.frame = .pong) :
      ¬ 0 < m.room := fun room =>
    free ⟨room, inside, Or.inr (Or.inr pc), Or.inr ⟨code, extra⟩⟩
  cases code : opcode m.conn.frame with
  | connectionClose =>
      simp only [sucked, code]
      exact done_finish _ _
  | ping =>
      simp only [sucked, code]
      exact done_next (full (Or.inl code))
  | pong =>
      simp only [sucked, code]
      exact done_next (full (Or.inr code))
  | continuationFrame | textFrame | binaryFrame | reserved =>
      rw [code] at control
      cases control

/-- One step of a running call keeps the counter synced and falls, unless it is stuck. -/
theorem step_falls {m : Machine} (synced : m.Synced) (free : ¬ m.Stuck) (running : ¬ m.Done) :
    m.step.Synced ∧ Falls m m.step := by
  cases pc : m.pc with
  | retry =>
      simp only [step, pc]
      exact retry_step pc
  | payload =>
      simp only [Synced, pc] at synced
      simp only [step, pc]
      exact payload_step pc synced free
  | suck remain =>
      simp only [Synced, pc] at synced
      obtain ⟨inside, same, control⟩ := synced
      simp only [step, pc]
      by_cases extra : remain = 0
      · rw [suck, if_pos extra]
        rw [extra] at pc same
        have done := sucked_step pc inside same.symm control free
        exact ⟨done.synced, Or.inl done⟩
      · have step := suck_step m extra inside same control
        exact ⟨step.1, step.2.imp_right Or.inl⟩
  | done outcome => exact absurd ⟨outcome, pc⟩ running

/-! ## The trap -/

theorem done_step {m : Machine} (done : m.Done) : m.step.Done := by
  obtain ⟨outcome, pc⟩ := done
  exact ⟨outcome, by simp only [step, pc]⟩

theorem Stuck.not_done {m : Machine} (stuck : m.Stuck) : ¬ m.Done := by
  rintro ⟨outcome, pc⟩
  obtain ⟨_, _, (here | here | here), _⟩ := stuck <;> rw [pc] at here <;> cases here

theorem Stuck.step {m : Machine} (stuck : m.Stuck) : m.step.Stuck := by
  obtain ⟨room, inside, here, arm⟩ := stuck
  rcases here with pc | pc | pc
  · have moved : m.step = { m with pc := .payload } := by
      simp only [Machine.step, pc, retry_inFrame inside]
    rw [moved]
    exact ⟨room, inside, Or.inr (Or.inl rfl), arm⟩
  · rcases arm with code | ⟨code, extra⟩
    · have moved : m.step = { m with pc := .retry } := by
        simp only [Machine.step, pc, payload, code, next_eq_retry room]
      rw [moved]
      exact ⟨room, inside, Or.inl rfl, Or.inl code⟩
    · have moved : m.step = m.suckOut := by
        have control : (opcode m.conn.frame).IsControl = true := by
          rcases code with code | code <;> rw [code] <;> rfl
        simp only [Machine.step, pc, payload_control control]
      rw [moved, suckOut]
      dsimp only
      rw [extra]
      split <;> exact ⟨room, inside, Or.inr (Or.inr rfl), Or.inr ⟨code, extra⟩⟩
  · have moved : ∃ conn pongs, m.step = { m with conn := conn, pongs := pongs, pc := .retry } ∧
        conn.state = m.conn.state ∧ conn.frame = m.conn.frame ∧ conn.read = m.conn.read := by
      rcases arm with code | ⟨code | code, _⟩ <;>
        simp only [Machine.step, pc, suck, sucked, code, if_true] <;>
        exact ⟨_, _, next_eq_retry room, rfl, rfl, rfl⟩
    obtain ⟨conn, pongs, moved, state, frame, read⟩ := moved
    rw [moved]
    refine ⟨room, state ▸ inside, Or.inl rfl, ?_⟩
    simpa only [Conn.remain, state, frame, read] using arm

end Machine

/-- `read_frame(fd, p, l)` returns after finitely many steps. -/
def Returns (c : Conn) (input : Input) (l : ℕ) : Prop :=
  ∃ n, (Machine.step^[n] (readFrame c input l)).Done

/-- A call returns exactly if it never comes to a frame of a reserved opcode, or to a
ping or pong of which nothing remains, with room left in the caller's buffer. -/
theorem read_frame_returns_iff (c : Conn) (input : Input) (l : ℕ) :
    Returns c input l ↔ ∀ n, ¬ (Machine.step^[n] (readFrame c input l)).Stuck := by
  constructor
  · rintro returns n stuck
    exact Run.never_reaches Machine.Stuck Machine.Done (fun _ => Machine.Stuck.step)
      (fun _ => Machine.Stuck.not_done) (fun _ => Machine.done_step) stuck returns
  · intro free
    have keeps (m : Machine) (synced : m.Synced) (going : ¬ m.Stuck) : m.step.Synced := by
      by_cases done : m.Done
      · exact (Machine.done_step done).synced
      · exact (Machine.step_falls synced going done).1
    have falls (m : Machine) (synced : m.Synced) (going : ¬ m.Stuck) (running : ¬ m.Done) :
        m.step.rank < m.rank :=
      Machine.rank_lt running (Machine.step_falls synced going running).2
    exact Run.reaches Machine.rank Machine.Synced (fun m => ¬ m.Stuck) Machine.Done trivial
      keeps falls free

/-- A frame of two bytes with the reserved opcode 3 is enough. -/
theorem read_frame_spins :
    ¬ ∀ (c : Conn) (input : Input) (l : ℕ), 14 ≤ l → Returns c input l := by
  intro claim
  let c : Conn := ⟨.established, [], 0, none, 0⟩
  let input : Input := ⟨[], [.bytes [0x83, 0x00]], false⟩
  have stuck : (Machine.step^[1] (readFrame c input 14)).Stuck :=
    ⟨by decide, by decide, Or.inr (Or.inl (by decide)), Or.inl (by decide)⟩
  exact Run.never_reaches Machine.Stuck Machine.Done (fun _ => Machine.Stuck.step)
    (fun _ => Machine.Stuck.not_done) (fun _ => Machine.done_step) stuck
    (claim c input 14 (by decide))

end Cyue.Ws
