import Cyue.Ws.Session
import Cyue.Ws.Termination

/-!
# The payload stream

Over a stream of data frames, successive calls of `read_frame` deliver the
unmasked payloads without loss or repetition and in the end report the end of
file, as long as three things hold of each step.  A header read does not reach
beyond the frame whose header it completes, nor beyond the caller's buffer; the
frame is not empty; and no read returns 0 while the call holds bytes that it
has not returned.
-/

namespace Cyue.Ws

namespace Machine

def headerRead (m : Machine) : Got × Input :=
  m.input.readBodyAndFd (sizeofFrame - m.conn.held.length)

def payloadRead (m : Machine) : Got × Input :=
  m.input.readBodyAndFd (min m.room m.conn.remain)

/-- The header that is complete with the bytes at hand belongs to a frame that
is not empty and contains them, and the caller's buffer holds what lies behind it. -/
def Contains (room : ℕ) (frame : List UInt8) : Prop :=
  (analyzeFrame frame).1 ≠ .recvFrame →
    0 < frameSize (analyzeFrame frame).1 frame ∧
      (analyzeFrame frame).2 ≤ frameSize (analyzeFrame frame).1 frame ∧
      (analyzeFrame frame).2 ≤ room

def Takes (m : Machine) : Got → Prop
  | .zero => m.out = []
  | .data bytes => Contains m.room (m.conn.held ++ bytes)
  | _ => True

/-- The step at hand meets none of the three defects. -/
def Lossless (m : Machine) : Prop :=
  (m.pc = .retry → m.conn.state.InFrame = false → m.Takes m.headerRead.1) ∧
  (m.pc = .payload → m.conn.remain ≠ 0 → m.payloadRead.1 = .zero → m.out = [])

instance (room : ℕ) (frame : List UInt8) : Decidable (Contains room frame) :=
  inferInstanceAs (Decidable (_ → _))

instance (m : Machine) (got : Got) : Decidable (m.Takes got) :=
  match got with
  | .zero => inferInstanceAs (Decidable (m.out = []))
  | .data bytes => inferInstanceAs (Decidable (Contains m.room (m.conn.held ++ bytes)))
  | .again | .fail => .isTrue trivial

instance (m : Machine) : Decidable m.Lossless :=
  inferInstanceAs (Decidable ((_ → _ → _) ∧ (_ → _ → _ → _)))

/-- The bytes that the call holds or has just returned. -/
def holding (m : Machine) : List UInt8 :=
  match m.pc with
  | .done outcome => outcome.bytes
  | _ => m.out

theorem holding_leave (m : Machine) : m.leave.holding = m.out := by
  simp only [leave, finish, holding]
  split
  · next none => exact none.symm
  · rfl

theorem holding_next (m : Machine) : m.next.holding = m.out := by
  unfold next
  split <;> rfl

theorem roomy_next {m : Machine} (roomy : 14 ≤ m.room + m.out.length) (running : ¬ m.next.Done) :
    14 ≤ m.next.room + m.next.out.length := by
  by_cases room : 0 < m.room
  · rw [next_eq_retry room]
    exact roomy
  · exact absurd (done_next room) running

end Machine

/-! ## Where a machine is in a stream of data frames -/

/-- In a frame that is not empty, with `rest` still to be delivered. -/
def Within (c : Conn) (pending rest : List UInt8) : Prop :=
  ∃ f fs, (∀ g ∈ fs, g.opcode.IsData = true) ∧ InData c pending f fs ∧ 0 < f.payload.length ∧
    rest = f.payload.drop c.read ++ fs.flatMap Frame.payload

def Before (c : Conn) (pending rest : List UInt8) : Prop :=
  ∃ fs, (∀ g ∈ fs, g.opcode.IsData = true) ∧ AtHeader c pending fs ∧
    rest = fs.flatMap Frame.payload

namespace Machine

def Spot (m : Machine) (rest : List UInt8) : Prop :=
  match m.pc with
  | .payload => Within m.conn m.input.pending rest
  | .suck _ => False
  | _ => Before m.conn m.input.pending rest ∨ Within m.conn m.input.pending rest

theorem spot_next {m : Machine} {rest : List UInt8}
    (within : Within m.conn m.input.pending rest) : m.next.Spot rest := by
  by_cases room : 0 < m.room
  · rw [next_eq_retry room]
    exact Or.inr within
  · rw [next, if_neg room]
    exact Or.inr within

/-- The invariant of a call: what it holds and what lies ahead of it is `ahead`. -/
structure Reading (m : Machine) (ahead : List UInt8) : Prop where
  eof : m.input.eof = true
  clean : SockEvent.fail ∉ m.input.events
  roomy : ¬ m.Done → 14 ≤ m.room + m.out.length
  place : ∃ rest, m.Spot rest ∧ m.holding ++ rest = ahead

def Drained (m : Machine) : Prop := m.pc = .done .zero ∧ m.input.pending = []

/-- A step other than the last consumes input or comes closer to a read. -/
def Advances (m m' : Machine) : Prop :=
  m'.Drained ∨ m'.input.weight < m.input.weight ∨
    m'.input = m.input ∧ ¬ m'.Done ∧ m'.distance < m.distance

theorem Reading.after {m : Machine} {ahead : List UInt8} (reading : m.Reading ahead) (l : ℕ) :
    (m.input.readBodyAndFd l).2.eof = true ∧
      SockEvent.fail ∉ (m.input.readBodyAndFd l).2.events :=
  ⟨(m.input.readBodyAndFd_events l).1.trans reading.eof,
    fun failing => reading.clean ((m.input.readBodyAndFd_events l).2 failing)⟩

/-- The header arm, in front of data frames. -/
theorem header_reading {m : Machine} {ahead rest : List UInt8} (reading : m.Reading ahead)
    (pc : m.pc = .retry) (lossless : m.Lossless) (before : Before m.conn m.input.pending rest)
    (sum : m.out ++ rest = ahead) :
    m.retry.Reading ahead ∧ Advances m m.retry := by
  obtain ⟨fs, data, place, rfl⟩ := before
  have takes := lossless.1 pc place.outside
  obtain ⟨frame, read, maskIdx, ctrl⟩ := place.begun_eq
  have after := reading.after (sizeofFrame - m.conn.held.length)
  have reads := m.input.readBodyAndFd_reads (sizeofFrame - m.conn.held.length)
  have roomy := reading.roomy (by rintro ⟨outcome, done⟩; rw [pc] at done; cases done)
  have held := place.held_lt
  rw [place.retry_eq, header]
  simp only [frame, headerRead] at takes ⊢
  generalize m.input.readBodyAndFd (sizeofFrame - m.conn.held.length) = result
    at after reads takes ⊢
  obtain ⟨got, input⟩ := result
  obtain ⟨closed, clean⟩ := after
  cases reads with
  | empty nothing => omega
  | eof _ ended _ kept =>
      have none : m.out = [] := takes
      refine ⟨⟨closed, clean, fun running => absurd (done_finish _ _) running, _,
        Or.inl ⟨fs, data, ?_, rfl⟩, ?_⟩, Or.inl ⟨rfl, kept.1⟩⟩
      · exact kept.1 ▸ ended ▸ place.begun
      · rw [none] at sum
        exact sum
  | again _ _ same less =>
      refine ⟨⟨closed, clean, fun running => absurd (done_leave _) running, _,
        Or.inl ⟨fs, data, ?_, rfl⟩, ?_⟩, Or.inr (Or.inl ?_)⟩
      · exact same ▸ place.begun
      · rw [holding_leave]
        exact sum
      · exact less.resolve_right (by rw [reading.eof]; decide)
  | fail _ failing _ => exact absurd failing reading.clean
  | data bytes _ some bound split less =>
      have contains : Contains m.room (m.conn.held ++ bytes) := takes
      rw [split] at place
      obtain ⟨f, fs, rfl, ⟨t, missing, part⟩ | ⟨t, complete, behind⟩⟩ := place.arrival some
      · have moved := @analyze_short { m with
          conn := { m.conn.begun with frame := m.conn.held ++ bytes }, input := input }
          f t part missing
        dsimp only at moved ⊢
        rw [moved]
        refine ⟨⟨closed, clean, fun running => absurd (done_leave _) running, _,
          Or.inl ⟨_, data, place.waiting part missing, rfl⟩, ?_⟩, Or.inr (Or.inl less)⟩
        rw [holding_leave]
        exact sum
      · have size : (m.conn.held ++ bytes).length ≤ sizeofFrame := by
          rw [List.length_append]
          omega
        have state : f.state ≠ .recvFrame := fun equal => by
          have inside := f.state_inFrame
          rw [equal] at inside
          cases inside
        simp only [Contains, complete, f.analyzeFrame_header, f.frameSize_header] at contains
        obtain ⟨positive, inside, fits⟩ := contains state
        have entered := @analyze_complete { m with
          conn := { m.conn.begun with frame := m.conn.held ++ bytes }, input := input }
          f t complete size read maskIdx fits
        have here := entered.inData (data f (List.mem_cons_self ..)) inside behind
        dsimp only at entered here ⊢
        refine ⟨⟨?_, ?_, fun _ => ?_, f.payload.drop t.length ++ fs.flatMap Frame.payload, ?_, ?_⟩,
          Or.inr (Or.inl ?_)⟩
        · rw [entered.input]
          exact closed
        · rw [entered.input]
          exact clean
        · rw [entered.room, here.2, List.length_append, List.length_take_of_le inside]
          dsimp only
          omega
        · rw [Spot, entered.pc]
          refine ⟨f, fs, fun g mem => data g (List.mem_cons_of_mem _ mem), ?_, positive, ?_⟩
          · rw [entered.input]
            exact here.1
          · rw [entered.read]
        · rw [holding, entered.pc, ← sum]
          dsimp only
          rw [here.2, List.append_assoc, ← List.append_assoc (f.payload.take _),
            List.take_append_drop]
          rfl
        · rw [entered.input]
          exact less

/-- The data arm, in a frame that is not empty. -/
theorem dataPayload_reading {m : Machine} {ahead rest : List UInt8} (reading : m.Reading ahead)
    (pc : m.pc = .payload) (lossless : m.Lossless) (within : Within m.conn m.input.pending rest)
    (sum : m.out ++ rest = ahead) :
    m.dataPayload.Reading ahead ∧ Advances m m.dataPayload := by
  obtain ⟨f, fs, data, place, positive, rfl⟩ := within
  have whenZero := lossless.2 pc
  have remain := place.keyed.remain place.inside
  have small : f.payload.length < 2 ^ 64 := f.length_lt
  have roomy := reading.roomy (by rintro ⟨outcome, done⟩; rw [pc] at done; cases done)
  have after := reading.after (min m.room m.conn.remain)
  have reads := m.input.readBodyAndFd_reads (min m.room m.conn.remain)
  unfold dataPayload
  by_cases extra : m.conn.remain = 0
  · have all : m.conn.read = f.payload.length := by
      have := place.inside
      omega
    have some : ¬ m.conn.read % 2 ^ 64 = 0 := by omega
    rw [if_pos extra, if_neg some]
    refine ⟨⟨reading.eof, reading.clean, fun _ => roomy, fs.flatMap Frame.payload,
      Or.inl ⟨fs, data, ?_, rfl⟩, ?_⟩, Or.inr (Or.inr ⟨rfl, ?_, ?_⟩)⟩
    · have stream := place.stream
      rw [all, List.drop_of_length_le (by simp), List.nil_append] at stream
      dsimp only
      rw [stream]
      exact atHeader_established rfl
    · rw [← sum, all, List.drop_length]
      rfl
    · rintro ⟨outcome, done⟩
      cases done
    · simp [distance, pc, State.InFrame]
  · rw [if_neg extra]
    simp only [payloadRead] at whenZero
    replace whenZero := whenZero extra
    generalize m.input.readBodyAndFd (min m.room m.conn.remain) = result
      at after reads whenZero ⊢
    obtain ⟨got, input⟩ := result
    obtain ⟨closed, clean⟩ := after
    cases reads with
    | empty nothing =>
        have none : m.out = [] := whenZero rfl
        rw [none, List.length_nil] at roomy
        omega
    | eof _ ended _ kept =>
        have none : m.out = [] := whenZero rfl
        refine ⟨⟨closed, clean, fun running => absurd (done_finish _ _) running, _,
          Or.inr ⟨f, fs, data, ?_, positive, rfl⟩, ?_⟩, Or.inl ⟨rfl, kept.1⟩⟩
        · exact kept.1 ▸ ended ▸ place
        · rw [none] at sum
          exact sum
    | again _ _ same less =>
        refine ⟨⟨closed, clean, fun running => absurd (done_leave _) running, _,
          Or.inr ⟨f, fs, data, ?_, positive, rfl⟩, ?_⟩, Or.inr (Or.inl ?_)⟩
        · exact same ▸ place
        · rw [holding_leave]
          exact sum
        · exact less.resolve_right (by rw [reading.eof]; decide)
    | fail _ failing _ => exact absurd failing reading.clean
    | data bytes _ some bound split less =>
        rw [split] at place
        have here := @InData.accept { m with input := input } bytes _ f fs place
          (bound.trans (min_le_right _ _))
        obtain ⟨inData, read, out⟩ := here
        dsimp only at inData read out ⊢
        refine ⟨⟨?_, ?_, fun running => roomy_next ?_ running,
          f.payload.drop (m.conn.read + bytes.length) ++ fs.flatMap Frame.payload,
          spot_next ⟨f, fs, data, inData, positive, ?_⟩, ?_⟩, Or.inr (Or.inl ?_)⟩
        · rw [next_input]
          exact closed
        · rw [next_input]
          exact clean
        · have enough : bytes.length ≤ m.room := bound.trans (min_le_left _ _)
          have inside : bytes.length ≤ (f.payload.drop m.conn.read).length := by
            have := bound.trans (min_le_right _ _)
            rw [List.length_drop]
            omega
          rw [out, List.length_append, List.length_take_of_le inside, accept_room]
          dsimp only
          omega
        · rw [read]
        · rw [holding_next, out, ← sum, List.append_assoc, ← List.append_assoc (List.take _ _),
            ← List.drop_drop, List.take_append_drop]
        · rw [next_input]
          exact less

/-- One step of a running call keeps the invariant and advances. -/
theorem step_reading {m : Machine} {ahead : List UInt8} (reading : m.Reading ahead)
    (running : ¬ m.Done) (lossless : m.Lossless) : m.step.Reading ahead ∧ Advances m m.step := by
  obtain ⟨rest, spot, sum⟩ := reading.place
  cases pc : m.pc with
  | retry =>
      simp only [Spot, holding, pc] at spot sum
      simp only [step, pc]
      rcases spot with before | within
      · exact header_reading reading pc lossless before sum
      · obtain ⟨f, fs, data, place, positive, equal⟩ := within
        have inside := place.keyed.inFrame
        rw [retry_inFrame inside]
        refine ⟨⟨reading.eof, reading.clean, fun _ => reading.roomy running, rest,
          ⟨f, fs, data, place, positive, equal⟩, sum⟩, Or.inr (Or.inr ⟨rfl, ?_, ?_⟩)⟩
        · rintro ⟨outcome, done⟩
          cases done
        · simp [distance, pc, inside]
  | payload =>
      simp only [Spot, holding, pc] at spot sum
      have arm : m.payload = m.dataPayload := by
        obtain ⟨f, fs, data, place, positive, equal⟩ := spot
        exact payload_data (by rw [place.keyed.opcode]; exact place.data)
      simp only [step, pc, arm]
      exact dataPayload_reading reading pc lossless spot sum
  | suck remain => simp only [Spot, pc] at spot
  | done outcome => exact absurd ⟨outcome, pc⟩ running

theorem Spot.eq_nil {m : Machine} {rest : List UInt8} (spot : m.Spot rest)
    (none : m.input.pending = []) : rest = [] := by
  have before (place : Before m.conn m.input.pending rest) : rest = [] := by
    obtain ⟨fs, data, place, rfl⟩ := place
    rw [none] at place
    rw [place.eq_nil]
    rfl
  have within (place : Within m.conn m.input.pending rest) : rest = [] := by
    obtain ⟨f, fs, data, place, positive, rfl⟩ := place
    have stream := place.stream
    rw [none] at stream
    obtain ⟨all, last⟩ := List.append_eq_nil_iff.mp stream.symm
    have size := congrArg List.length all
    rw [List.length_drop, Frame.body_length, List.length_nil] at size
    rw [wires_eq_nil last, List.drop_of_length_le (by omega)]
    rfl
  unfold Spot at spot
  split at spot
  · exact within spot
  · exact spot.elim
  · exact spot.elim before within

end Machine

/-! ## Sessions over data frames -/

theorem delivered_append (log : List Outcome) (outcome : Outcome) :
    delivered (log ++ [outcome]) = delivered log ++ outcome.bytes := by
  simp [delivered]

namespace Session

/-- What has been delivered, with what is ahead of the call, is `total`. -/
structure Following (total : List UInt8) (s : Session) : Prop where
  sizes : ∀ k, 14 ≤ s.sizes k
  reading : ∃ ahead, s.machine.Reading ahead ∧ delivered s.log ++ ahead = total

def rank (s : Session) : ℕ :=
  6 * s.machine.input.weight +
    match s.machine.pc with
    | .done _ => 5
    | _ => s.machine.distance

theorem Following.step {total : List UInt8} {s : Session} (following : s.Following total)
    (lossless : s.machine.Lossless) : s.step.Following total := by
  obtain ⟨sizes, ahead, reading, sum⟩ := following
  by_cases done : s.machine.Done
  · obtain ⟨outcome, pc⟩ := done
    obtain ⟨rest, spot, parts⟩ := reading.place
    simp only [Machine.Spot, Machine.holding, pc] at spot parts
    rw [step_done pc]
    refine ⟨fun k => sizes (k + 1), rest, ⟨reading.eof, reading.clean, fun _ => ?_, rest, spot, rfl⟩, ?_⟩
    · exact (sizes 0).trans (Nat.le_add_right _ _)
    · rw [delivered_append, List.append_assoc, parts]
      exact sum
  · rw [step_running fun outcome pc => done ⟨outcome, pc⟩]
    exact ⟨sizes, ahead, (Machine.step_reading reading done lossless).1, sum⟩

theorem rank_lt {total : List UInt8} {s : Session} (following : s.Following total)
    (lossless : s.machine.Lossless) :
    s.step.machine.Drained ∨ s.step.rank < s.rank := by
  obtain ⟨sizes, ahead, reading, sum⟩ := following
  by_cases done : s.machine.Done
  · obtain ⟨outcome, pc⟩ := done
    rw [step_done pc]
    refine Or.inr ?_
    simp only [rank, pc]
    exact Nat.add_lt_add_left (Nat.lt_succ_of_le (Machine.distance_le _)) _
  · rw [step_running fun outcome pc => done ⟨outcome, pc⟩]
    have before : s.rank = 6 * s.machine.input.weight + s.machine.distance := by
      unfold rank
      split
      · next outcome pc => exact absurd ⟨outcome, pc⟩ done
      · rfl
    have after : rank { s with machine := s.machine.step } ≤
        6 * s.machine.step.input.weight + 5 := by
      have bound := Machine.distance_le s.machine.step
      unfold rank
      dsimp only
      split <;> omega
    rcases (Machine.step_reading reading done lossless).2 with drained | less | ⟨same, running, closer⟩
    · exact Or.inl drained
    · refine Or.inr ?_
      omega
    · refine Or.inr ?_
      rw [before, rank]
      dsimp only
      rw [same]
      split
      · next outcome pc => exact absurd ⟨outcome, pc⟩ running
      · omega

/-- The end of file is reported, when everything has been delivered. -/
theorem Following.reaches_end {total : List UInt8} {s : Session} (following : s.Following total)
    (lossless : ∀ n, (Session.step^[n] s).machine.Lossless) :
    ∃ n, (Session.step^[n] s).machine.Drained := by
  have found := Run.reaches rank (Following total) (fun s => s.machine.Lossless)
    (fun s => s.step.machine.Drained) following (fun _ => Following.step)
    (fun _ following lossless going => (rank_lt following lossless).resolve_left going) lossless
  obtain ⟨n, drained⟩ := found
  exact ⟨n + 1, by rw [Function.iterate_succ_apply']; exact drained⟩

/-- When everything has been delivered, nothing is delivered any more. -/
theorem Following.step_all {total : List UInt8} {s : Session} (following : s.Following total)
    (all : delivered s.log = total) :
    delivered s.step.log = total := by
  obtain ⟨sizes, ahead, reading, sum⟩ := following
  by_cases done : s.machine.Done
  · obtain ⟨outcome, pc⟩ := done
    obtain ⟨rest, spot, parts⟩ := reading.place
    have none : outcome.bytes ++ rest = [] := by
      simp only [Machine.holding, pc] at parts
      rw [parts]
      exact List.append_right_eq_self.mp (sum.trans all.symm)
    rw [step_done pc, delivered_append, (List.append_eq_nil_iff.mp none).1, List.append_nil]
    exact all
  · rw [step_running fun outcome pc => done ⟨outcome, pc⟩]
    exact all

end Session

theorem Session.delivered_step (s : Session) :
    (delivered s.log).length ≤ (delivered s.step.log).length := by
  unfold Session.step
  split
  · rw [delivered_append, List.length_append]
    exact Nat.le_add_right _ _
  · exact Nat.le_refl _

structure Session.Idle (s : Session) : Prop where
  pc : s.machine.pc = .retry ∨ s.machine.pc = .done .zero
  state : s.machine.conn.state = .established
  out : s.machine.out = []
  input : s.machine.input = ⟨[], [], true⟩

/-- The end of file is reported again and again. -/
theorem Session.Idle.step {s : Session} (idle : s.Idle) : s.step.Idle := by
  obtain ⟨pc | pc, state, out, input⟩ := idle
  · rw [step_running fun outcome equal => by rw [pc] at equal; cases equal]
    have moved : s.machine.step = { s.machine with conn := s.machine.conn.initFrame }.finish .zero := by
      simp only [Machine.step, pc, Machine.retry, state, Machine.header, Conn.initFrame, input,
        sizeofFrame, Input.readBodyAndFd, List.length_nil, Nat.sub_zero, sysRead]
      rfl
    rw [moved]
    exact ⟨Or.inr rfl, state, out, input⟩
  · rw [step_done pc]
    exact ⟨Or.inl rfl, state, rfl, input⟩

theorem Session.Idle.lossless {s : Session} (idle : s.Idle) : s.machine.Lossless := by
  refine ⟨fun _ _ => ?_, fun pc => ?_⟩
  · have zero : s.machine.headerRead.1 = .zero := by
      simp only [Machine.headerRead, idle.input, Conn.held, idle.state, if_true]
      rfl
    rw [zero]
    exact idle.out
  · rcases idle.pc with here | here <;> rw [here] at pc <;> cases pc

/-- Successive calls of `read_frame` deliver the unmasked payloads of the data
frames, in order and once, and then report the end of file. -/
theorem read_frame_stream (c : Conn) (input : Input) (sizes : ℕ → ℕ) (fs : List Frame)
    (ready : c.state = .established) (room : ∀ k, 14 ≤ sizes k)
    (data : ∀ f ∈ fs, f.opcode.IsData = true) (carried : input.pending = wires fs)
    (closed : input.eof = true) (clean : SockEvent.fail ∉ input.events)
    (lossless : ∀ n, (Session.step^[n] (Session.start c input sizes)).machine.Lossless) :
    (∀ n, delivered (Session.step^[n] (Session.start c input sizes)).log <+:
        fs.flatMap Frame.payload) ∧
      ∃ last, (Session.step^[last] (Session.start c input sizes)).log.getLast? = some .zero ∧
        ∀ n, last ≤ n → delivered (Session.step^[n] (Session.start c input sizes)).log =
          fs.flatMap Frame.payload := by
  let total := fs.flatMap Frame.payload
  have start : (Session.start c input sizes).Following total := by
    refine ⟨fun k => room (k + 1), total, ⟨closed, clean, fun _ => ?_, total, Or.inl ?_, rfl⟩, rfl⟩
    · exact (room 0).trans (Nat.le_add_right _ _)
    · refine ⟨fs, data, ?_, rfl⟩
      have place := @atHeader_established c fs ready
      rw [← carried] at place
      exact place
  have along := Run.holds_along (Session.Following total) (fun s => s.machine.Lossless) start
    (fun _ => Session.Following.step) lossless
  refine ⟨fun n => ?_, ?_⟩
  · obtain ⟨_, ahead, _, sum⟩ := along n
    exact ⟨ahead, sum⟩
  · obtain ⟨n, pc, none⟩ := start.reaches_end lossless
    have all : delivered (Session.step^[n] (Session.start c input sizes)).log = total := by
      obtain ⟨_, ahead, reading, sum⟩ := along n
      obtain ⟨rest, spot, parts⟩ := reading.place
      simp only [Machine.holding, pc] at parts
      rw [← sum, ← parts, spot.eq_nil none]
      simp [Outcome.bytes]
    refine ⟨n + 1, ?_, fun m le => ?_⟩
    · rw [Function.iterate_succ_apply', Session.step_done pc]
      simp
    · obtain ⟨k, rfl⟩ := Nat.exists_eq_add_of_le le
      induction k with
      | zero =>
          rw [Nat.add_zero, Function.iterate_succ_apply']
          exact (along n).step_all all
      | succ k ih =>
          rw [← Nat.add_assoc, Function.iterate_succ_apply']
          exact (along _).step_all (ih (Nat.le_add_right _ _))

/-- A masked frame of two bytes whose header and payload come at once. -/
theorem read_frame_stream_masked :
    ∃ last, ∀ n, last ≤ n →
      delivered (Session.step^[n] (Session.start ⟨.established, [], 0, none, 0⟩
        ⟨[], [.bytes [0x82, 0x82, 1, 2, 3, 4, 6, 10], .again], true⟩ fun _ => 14)).log =
          [7, 8] := by
  let f : Frame := ⟨0x82, some fun i => UInt8.ofNat (i + 1), .short, [7, 8], by decide⟩
  let start := Session.start ⟨.established, [], 0, none, 0⟩
    ⟨[], [.bytes [0x82, 0x82, 1, 2, 3, 4, 6, 10], .again], true⟩ fun _ => 14
  have idle : (Session.step^[4] start).Idle := ⟨Or.inl (by decide), by decide, by decide, by decide⟩
  have lossless : ∀ n, (Session.step^[n] start).machine.Lossless := by
    intro n
    rcases Nat.lt_or_ge n 4 with early | late
    · match n, early with
      | 0, _ | 1, _ | 2, _ | 3, _ => decide
    · exact (Run.stays Session.Idle (fun _ => Session.Idle.step) late idle).lossless
  obtain ⟨last, _, all⟩ := (read_frame_stream ⟨.established, [], 0, none, 0⟩
    ⟨[], [.bytes [0x82, 0x82, 1, 2, 3, 4, 6, 10], .again], true⟩ (fun _ => 14) [f] rfl
    (fun _ => Nat.le_refl 14) (by decide) (by decide) rfl (by decide) lossless).2
  exact ⟨last, all⟩

/-- Two frames of one byte that arrive together: the header read of the first
takes the second with it, and its header is delivered as payload. -/
theorem read_frame_overreads :
    ¬ ∀ (c : Conn) (input : Input) (sizes : ℕ → ℕ) (fs : List Frame),
      c.state = .established → (∀ k, 14 ≤ sizes k) → (∀ f ∈ fs, f.opcode.IsData = true) →
      input.pending = wires fs → input.eof = true → SockEvent.fail ∉ input.events →
      ∃ n, delivered (Session.step^[n] (Session.start c input sizes)).log =
        fs.flatMap Frame.payload := by
  intro claim
  let f : Frame := ⟨0x82, none, .short, [7], by decide⟩
  let start := Session.start ⟨.established, [], 0, none, 0⟩
    ⟨[], [.bytes [0x82, 1, 7, 0x82, 1, 7], .again], true⟩ fun _ => 14
  obtain ⟨n, all⟩ := claim ⟨.established, [], 0, none, 0⟩
    ⟨[], [.bytes [0x82, 1, 7, 0x82, 1, 7], .again], true⟩ (fun _ => 14) [f, f] rfl
    (fun _ => Nat.le_refl 14) (by decide) (by decide) rfl (by decide)
  have grows {i j : ℕ} (le : i ≤ j) : (delivered (Session.step^[i] start).log).length ≤
      (delivered (Session.step^[j] start).log).length :=
    Run.stays (fun s : Session =>
        (delivered (Session.step^[i] start).log).length ≤ (delivered s.log).length)
      (fun s le => le.trans s.delivered_step) le (Nat.le_refl _)
  have early : (delivered (Session.step^[2] start).log).length = 0 := by decide
  have late : (delivered (Session.step^[3] start).log).length = 4 := by decide
  have expected : ([f, f].flatMap Frame.payload).length = 2 := rfl
  have size : (delivered (Session.step^[n] start).log).length = 2 := by rw [← expected, ← all]
  rcases Nat.lt_or_ge n 3 with before | after
  · have := grows (Nat.le_of_lt_succ before)
    omega
  · have := grows after
    omega

end Cyue.Ws
