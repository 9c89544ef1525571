import Cyue.Ws.Stream
import Mathlib.Data.List.Forall2

/-!
# Control frames between data frames

Over a stream of data frames with pings, pongs and close frames anywhere
between them, the control frame buffer is never written behind its end, no
byte of a control frame reaches the caller and every pong carries the payload
of its ping, as long as two things hold of each step.  A header read does not
reach into the payload of a control frame, except for all of it where that is
harmless; and the cumulative count of `suck_out` does not run past the frame.
-/

namespace Cyue.Ws

namespace Machine

/-- What may lie behind a header, `over` bytes with a payload of `size`: they are
within the frame and the caller's buffer; of a control frame they are nothing or
everything, and of a ping everything, with a mask that has come round. -/
def Admitted (code : Opcode) (masked : Bool) (extra size room : ℕ) : Prop :=
  match code with
  | .continuationFrame | .textFrame | .binaryFrame => extra ≤ size ∧ extra ≤ room
  | .connectionClose => size ≤ controlFrameMax ∧ (extra = 0 ∨ extra = size ∧ extra ≤ room)
  | .ping => extra = size ∧ (extra = 0 ∨ extra < room) ∧ (masked = true → size % 4 = 0)
  | .pong => size ≤ controlFrameMax ∧ (extra = 0 ∨ extra = size ∧ extra < room)
  | .reserved => True

/-- The header that is complete with the bytes at hand is admitted. -/
def Admits (room : ℕ) (frame : List UInt8) : Prop :=
  (analyzeFrame frame).1 ≠ .recvFrame →
    Admitted (opcode frame) (masked frame) (analyzeFrame frame).2
      (frameSize (analyzeFrame frame).1 frame) room

/-- The bytes at hand are no more than the loop of `suck_out_recv_data` still
asks for, together with those that it counts again. -/
def Counts (m : Machine) (remain : ℕ) : Got → Prop
  | .data bytes => m.ctrl.len + bytes.length ≤ remain
  | _ => True

def Opens (m : Machine) : Got → Prop
  | .data bytes => Admits m.room (m.conn.held ++ bytes)
  | _ => True

def OrderlyAt (m : Machine) : Pc → Prop
  | .retry => m.conn.state.InFrame = false → m.Opens m.headerRead.1
  | .suck remain => remain ≠ 0 → m.Counts remain (m.input.readControl remain).1
  | _ => True

/-- The step at hand reaches none of the defects around control frames. -/
def Orderly (m : Machine) : Prop := m.OrderlyAt m.pc

instance (code : Opcode) (masked : Bool) (extra size room : ℕ) :
    Decidable (Admitted code masked extra size room) :=
  match code with
  | .continuationFrame | .textFrame | .binaryFrame => inferInstanceAs (Decidable (_ ∧ _))
  | .connectionClose | .pong => inferInstanceAs (Decidable (_ ∧ (_ ∨ _)))
  | .ping => inferInstanceAs (Decidable (_ ∧ (_ ∨ _) ∧ (_ → _)))
  | .reserved => .isTrue trivial

instance (room : ℕ) (frame : List UInt8) : Decidable (Admits room frame) :=
  inferInstanceAs (Decidable (_ → _))

instance (m : Machine) (got : Got) : Decidable (m.Opens got) :=
  match got with
  | .data bytes => inferInstanceAs (Decidable (Admits m.room (m.conn.held ++ bytes)))
  | .zero | .again | .fail => .isTrue trivial

instance (m : Machine) (remain : ℕ) (got : Got) : Decidable (m.Counts remain got) :=
  match got with
  | .data bytes => inferInstanceAs (Decidable (m.ctrl.len + bytes.length ≤ remain))
  | .zero | .again | .fail => .isTrue trivial

instance (m : Machine) : Decidable m.Orderly :=
  let decide (pc : Pc) : Decidable (m.OrderlyAt pc) :=
    match pc with
    | .retry => inferInstanceAs (Decidable (_ → _))
    | .suck remain =>
        inferInstanceAs (Decidable (remain ≠ 0 → m.Counts remain
          (m.input.readControl remain).1))
    | .payload | .done _ => .isTrue trivial
  decide m.pc

end Machine

/-- The stretch of the data stream that a call has taken up is what it returns. -/
def Returned : Outcome → List UInt8 → Prop
  | .block bytes, taken => taken = bytes
  | .again, taken => taken = []
  | _, _ => True

namespace Machine

/-- `taken` is in the caller's buffer, or has been returned. -/
def Clean (m : Machine) (taken : List UInt8) : Prop :=
  match m.pc with
  | .done outcome => Returned outcome taken
  | _ => m.out = taken

theorem clean_leave {m : Machine} {taken : List UInt8} (out : m.out = taken) :
    m.leave.Clean taken := by
  simp only [leave, finish, Clean]
  split
  · next none => exact out.symm.trans none
  · exact out.symm

theorem clean_next {m : Machine} {taken : List UInt8} (out : m.out = taken) :
    m.next.Clean taken := by
  by_cases room : 0 < m.room
  · rw [next_eq_retry room]
    exact out
  · rw [next, if_neg room]
    exact out.symm

/-! ## Where a machine is in a stream with control frames -/

/-- In front of the frames `fs` or in the header of the first. -/
structure Front (all : List Frame) (m : Machine) (taken rest : List UInt8) (fs : List Frame) :
    Prop where
  pc : m.pc = .retry ∨ m.Done
  suffix : fs <:+ all
  place : AtHeader m.conn m.input.pending fs
  rest : rest = dataOf fs
  ctrl : m.conn.ctrlFrame = none
  pongs : m.pongs = []
  clean : m.Clean taken

/-- In the data frame `f`. -/
structure Body (all : List Frame) (m : Machine) (taken rest : List UInt8) (f : Frame)
    (fs : List Frame) : Prop where
  pc : ∀ remain, m.pc ≠ .suck remain
  suffix : f :: fs <:+ all
  place : InData m.conn m.input.pending f fs
  rest : rest = f.payload.drop m.conn.read ++ dataOf fs
  ctrl : m.conn.ctrlFrame = none
  pongs : m.pongs = []
  clean : m.Clean taken

/-- In the control frame `f`, whose header was read together with `t`.  If `t`
is not empty it is also in the caller's buffer, and the call will not return it. -/
structure Collecting (all : List Frame) (m : Machine) (taken rest : List UInt8) (f : Frame)
    (fs : List Frame) (t : List UInt8) : Prop where
  suffix : f :: fs <:+ all
  control : f.opcode.IsControl = true
  rest : rest = dataOf fs
  state : m.conn.state = f.state
  frame : m.conn.frame = f.header ++ t
  small : f.payload.length ≤ controlFrameMax
  extra : t.length ≤ f.payload.length
  read : m.conn.read ≤ f.payload.length
  buffer : ∀ cf, m.conn.ctrlFrame = some cf →
    cf.buff.length = cf.len ∧ cf.len ≤ controlFrameMax
  sucking : ∀ remain, m.pc = .suck remain →
    remain = m.conn.remain ∧ ∃ cf, m.conn.ctrlFrame = some cf
  ping : f.opcode = .ping → Keyed m.conn f 0 ∧ t = f.body ∧ m.input.pending = wires fs ∧
    m.conn.read = f.payload.length ∧ (f.key.isSome → f.payload.length % 4 = 0) ∧
    ∀ cf, m.conn.ctrlFrame = some cf → (∃ remain, m.pc = .suck remain) ∧ cf = ⟨t, t.length⟩
  pongs : ∀ p ∈ m.pongs, f.opcode = .ping ∧ p = f.payload
  clean : match m.pc with
    | .done outcome => Returned outcome taken
    | _ => m.out = taken ∨
        m.conn.remain = 0 ∧ (f.opcode = .connectionClose ∨ 0 < m.room)

def Serving (all : List Frame) (m : Machine) (taken rest : List UInt8) : Prop :=
  (∃ fs, m.Front all taken rest fs) ∨ (∃ f fs, m.Body all taken rest f fs) ∨
    ∃ f fs t, m.Collecting all taken rest f fs t

theorem dataOf_cons_data {f : Frame} (fs : List Frame) (data : f.opcode.IsData = true) :
    dataOf (f :: fs) = f.payload ++ dataOf fs := by
  simp [dataOf, data]

theorem dataOf_cons_control {f : Frame} (fs : List Frame) (control : f.opcode.IsControl = true) :
    dataOf (f :: fs) = dataOf fs := by
  have other : f.opcode.IsData = false := by
    cases code : f.opcode <;> rw [code] at control <;> first | rfl | cases control
  simp [dataOf, other]

/-- The bytes taken up by a call move from what is ahead to what it has. -/
def Serves (all : List Frame) (m : Machine) (taken rest : List UInt8) : Prop :=
  ∃ taken' rest', Serving all m taken' rest' ∧ taken' ++ rest' = taken ++ rest

theorem collecting_of_entered {all : List Frame} {m m' : Machine} {f : Frame} {fs : List Frame}
    {t pending : List UInt8} (entered : Entered m m' f t) (suffix : f :: fs <:+ all)
    (control : f.opcode.IsControl = true) (behind : t ++ pending = f.body ++ wires fs)
    (pending_eq : m'.input.pending = pending) (ctrl : m.conn.ctrlFrame = none)
    (pongs : m.pongs = []) (small : f.payload.length ≤ controlFrameMax)
    (extra : t.length = 0 ∨ t.length = f.payload.length ∧
      (f.opcode = .connectionClose ∨ t.length < m.room))
    (ping : f.opcode = .ping → t.length = f.payload.length ∧
      (f.key.isSome → f.payload.length % 4 = 0)) :
    m'.Collecting all m.out (dataOf fs) f fs t := by
  have inside : t.length ≤ f.payload.length := by omega
  have remain := entered.keyed.remain (by rw [entered.read]; exact inside)
  rw [entered.read] at remain
  refine ⟨suffix, control, rfl, entered.keyed.state, entered.frame, small, inside, ?_, ?_, ?_, ?_,
    ?_, ?_⟩
  · rw [entered.read]
    exact inside
  · intro cf some
    rw [entered.ctrl, ctrl] at some
    cases some
  · intro r pc
    rw [entered.pc] at pc
    cases pc
  · intro code
    obtain ⟨all, whole⟩ := ping code
    obtain ⟨front, last⟩ := append_split behind (by simpa using inside)
    have none : f.body.drop t.length = [] := List.drop_of_length_le (by simp [all])
    rw [none] at front last
    rw [List.append_nil] at front
    refine ⟨⟨entered.keyed.state, entered.keyed.header, fun masked => ?_⟩, front.symm,
      pending_eq.trans last, entered.read.trans all, whole, fun cf some => ?_⟩
    · rw [entered.keyed.index masked, all, whole masked]
    · rw [entered.ctrl, ctrl] at some
      cases some
  · intro p mem
    rw [entered.pongs, pongs] at mem
    cases mem
  · rw [entered.pc]
    rcases extra with none | ⟨all, harmless⟩
    · have empty : t = [] := List.eq_nil_of_length_eq_zero none
      refine Or.inl ?_
      rw [entered.out, empty]
      unfold Frame.scramble
      cases f.key <;> exact List.append_nil _
    · refine Or.inr ⟨by omega, harmless.imp_right fun less => ?_⟩
      rw [entered.room]
      omega

/-- Behind the header of any admitted frame the call serves on. -/
theorem serves_of_entered {all : List Frame} {m m' : Machine} {f : Frame} {fs : List Frame}
    {t pending taken : List UInt8} (entered : Entered m m' f t) (suffix : f :: fs <:+ all)
    (kind : f.opcode.IsData = true ∨ f.opcode.IsControl = true)
    (admitted : Admitted f.opcode f.key.isSome t.length f.payload.length m.room)
    (behind : t ++ pending = f.body ++ wires fs) (pending_eq : m'.input.pending = pending)
    (ctrl : m.conn.ctrlFrame = none) (pongs : m.pongs = []) (short : t.length ≤ sizeofFrame)
    (out : m.out = taken) : Serves all m' taken (dataOf (f :: fs)) := by
  rcases kind with data | control
  · have inside : t.length ≤ f.payload.length := by
      cases code : f.opcode <;> rw [code] at data admitted <;>
        first | exact admitted.1 | cases data
    have here := entered.inData data inside behind
    rw [← pending_eq] at here
    refine ⟨taken ++ f.payload.take t.length, f.payload.drop t.length ++ dataOf fs,
      Or.inr (Or.inl ⟨f, fs, ?_, suffix, here.1, ?_, entered.ctrl.trans ctrl,
        entered.pongs.trans pongs, ?_⟩), ?_⟩
    · intro r pc
      rw [entered.pc] at pc
      cases pc
    · rw [entered.read]
    · rw [Clean, entered.pc]
      exact here.2.trans (by rw [out])
    · rw [dataOf_cons_data fs data, List.append_assoc, ← List.append_assoc (List.take _ _),
        List.take_append_drop]
  · rw [dataOf_cons_control fs control]
    refine ⟨taken, dataOf fs, Or.inr (Or.inr ⟨f, fs, t, ?_⟩), rfl⟩
    rw [← out]
    cases code : f.opcode with
    | continuationFrame | textFrame | binaryFrame | reserved =>
        rw [code] at control
        cases control
    | connectionClose =>
        rw [code] at admitted
        obtain ⟨small, extra⟩ := admitted
        exact collecting_of_entered entered suffix control behind pending_eq ctrl pongs small
          (extra.imp_right fun whole => ⟨whole.1, Or.inl code⟩) (by simp [code])
    | ping =>
        rw [code] at admitted
        obtain ⟨whole, extra, round⟩ := admitted
        have small : f.payload.length ≤ controlFrameMax := by
          simp only [sizeofFrame] at short
          simp only [controlFrameMax]
          omega
        exact collecting_of_entered entered suffix control behind pending_eq ctrl pongs small
          (extra.imp_right fun less => ⟨whole, Or.inr less⟩) fun _ => ⟨whole, round⟩
    | pong =>
        rw [code] at admitted
        obtain ⟨small, extra⟩ := admitted
        exact collecting_of_entered entered suffix control behind pending_eq ctrl pongs small
          (extra.imp_right fun whole => ⟨whole.1, Or.inr whole.2⟩) (by simp [code])

theorem Admitted.fits {code : Opcode} {masked : Bool} {extra size room : ℕ}
    (kind : code.IsData = true ∨ code.IsControl = true)
    (admitted : Admitted code masked extra size room) : extra ≤ room := by
  unfold Admitted at admitted
  cases code <;> dsimp only at admitted
  case reserved => rcases kind with kind | kind <;> cases kind
  all_goals omega

theorem front_step {all fs : List Frame} {m : Machine} {taken rest : List UInt8}
    (front : m.Front all taken rest fs) (pc : m.pc = .retry) (orderly : m.Orderly)
    (kinds : ∀ f ∈ all, f.opcode.IsData = true ∨ f.opcode.IsControl = true) :
    Serves all m.retry taken rest := by
  obtain ⟨_, suffix, place, rfl, ctrl, pongs, clean⟩ := front
  simp only [Clean, pc] at clean
  have admits : m.Opens m.headerRead.1 := by
    have opens : m.OrderlyAt m.pc := orderly
    rw [pc] at opens
    exact opens place.outside
  obtain ⟨frame, read, maskIdx, ctrlFrame⟩ := place.begun_eq
  have held := place.held_lt
  have reads := m.input.readBodyAndFd_reads (sizeofFrame - m.conn.held.length)
  have idle := reads.pending_eq
  rw [place.retry_eq, header]
  simp only [frame, headerRead] at admits ⊢
  generalize m.input.readBodyAndFd (sizeofFrame - m.conn.held.length) = result
    at reads admits idle ⊢
  obtain ⟨got, input⟩ := result
  have stay (m' : Machine) (same : m'.input = input) (conn : m'.conn = m.conn.begun)
      (kept : m'.pongs = m.pongs) (done : m'.Done) (clean : m'.Clean taken)
      (none : ∀ bytes, got ≠ .data bytes) : Serves all m' taken (dataOf fs) := by
    refine ⟨taken, _, Or.inl ⟨fs, Or.inr done, suffix, ?_, rfl, ?_, kept.trans pongs, clean⟩, rfl⟩
    · rw [conn, same, idle none]
      exact place.begun
    · rw [conn, ctrlFrame, ctrl]
  cases got with
  | zero => exact stay _ rfl rfl rfl (done_finish _ _) trivial (by simp)
  | again => exact stay _ rfl rfl rfl (done_leave _) (clean_leave clean) (by simp)
  | fail => exact stay _ rfl rfl rfl (done_finish _ _) trivial (by simp)
  | data bytes =>
      have allowed : Admits m.room (m.conn.held ++ bytes) := admits
      cases reads with
      | data _ _ some bound split less =>
      rw [split] at place
      obtain ⟨f, fs, rfl, ⟨t, missing, part⟩ | ⟨t, complete, behind⟩⟩ := place.arrival some
      · have moved := @analyze_short { m with
          conn := { m.conn.begun with frame := m.conn.held ++ bytes }, input := input }
          f t part missing
        dsimp only at moved ⊢
        rw [moved]
        exact ⟨taken, _, Or.inl ⟨f :: fs, Or.inr (done_leave _), suffix,
          place.waiting part missing, rfl, ctrlFrame.trans ctrl, pongs, clean_leave clean⟩, rfl⟩
      · have size : (m.conn.held ++ bytes).length ≤ sizeofFrame := by
          rw [List.length_append]
          omega
        have kind := kinds f (suffix.subset (List.mem_cons_self ..))
        have state : f.state ≠ .recvFrame := fun equal => by
          have inside := f.state_inFrame
          rw [equal] at inside
          cases inside
        simp only [Admits, complete, f.analyzeFrame_header, f.frameSize_header, f.opcode_header,
          f.masked_header] at allowed
        have admitted := allowed state
        have short : t.length ≤ sizeofFrame := by
          rw [complete, List.length_append] at size
          omega
        have entered := @analyze_complete { m with
          conn := { m.conn.begun with frame := m.conn.held ++ bytes }, input := input }
          f t complete size read maskIdx (admitted.fits kind)
        exact serves_of_entered entered suffix kind admitted behind (by rw [entered.input])
          (ctrlFrame.trans ctrl) pongs short clean

theorem body_step {all fs : List Frame} {f : Frame} {m : Machine} {taken rest : List UInt8}
    (body : m.Body all taken rest f fs) (running : ¬ m.Done) : Serves all m.step taken rest := by
  have place := body.place
  cases pc : m.pc with
  | retry =>
      simp only [step, pc, retry_inFrame place.keyed.inFrame]
      refine ⟨taken, rest, Or.inr (Or.inl ⟨f, fs, ?_, body.suffix, place, body.rest, body.ctrl,
        body.pongs, ?_⟩), rfl⟩
      · intro r other
        cases other
      · have clean := body.clean
        rw [Clean, pc] at clean
        exact clean
  | payload =>
      have clean : m.out = taken := by
        have clean := body.clean
        rw [Clean, pc] at clean
        exact clean
      have code : (opcode m.conn.frame).IsData = true := by
        rw [place.keyed.opcode]
        exact place.data
      have remain := place.keyed.remain place.inside
      have small : f.payload.length < 2 ^ 64 := f.length_lt
      have ended (m' : Machine) (done : m'.Done) (r : ℕ) : m'.pc ≠ .suck r := by
        obtain ⟨outcome, here⟩ := done
        rw [here]
        exact fun other => by cases other
      simp only [step, pc, payload_data code]
      unfold dataPayload
      by_cases extra : m.conn.remain = 0
      · rw [if_pos extra]
        have all : m.conn.read = f.payload.length := by
          have := place.inside
          omega
        by_cases none : m.conn.read % 2 ^ 64 = 0
        · rw [if_pos none]
          exact ⟨taken, rest, Or.inr (Or.inl ⟨f, fs, ended _ (done_finish _ _), body.suffix, place,
            body.rest, body.ctrl, body.pongs, trivial⟩), rfl⟩
        · rw [if_neg none]
          have stream := place.stream
          rw [all, List.drop_of_length_le (by simp), List.nil_append] at stream
          refine ⟨taken, rest, Or.inl ⟨fs, Or.inl rfl, (List.suffix_cons f fs).trans body.suffix, ?_,
            ?_, body.ctrl, body.pongs, clean⟩, rfl⟩
          · dsimp only
            rw [stream]
            exact atHeader_established rfl
          · rw [body.rest, all, List.drop_length]
            rfl
      · rw [if_neg extra]
        have reads := m.input.readBodyAndFd_reads (min m.room m.conn.remain)
        have idle := reads.pending_eq
        generalize m.input.readBodyAndFd (min m.room m.conn.remain) = result at reads idle ⊢
        obtain ⟨got, input⟩ := result
        have stay (m' : Machine) (same : m'.input = input) (conn : m'.conn = m.conn)
            (kept : m'.pongs = m.pongs) (done : m'.Done) (clean : m'.Clean taken)
            (none : ∀ bytes, got ≠ .data bytes) : Serves all m' taken rest := by
          refine ⟨taken, rest, Or.inr (Or.inl ⟨f, fs, ended _ done, body.suffix, ?_, ?_,
            ?_, kept.trans body.pongs, clean⟩), rfl⟩
          · rw [conn, same, idle none]
            exact place
          · rw [conn]
            exact body.rest
          · rw [conn]
            exact body.ctrl
        cases got with
        | zero => exact stay _ rfl rfl rfl (done_finish _ _) trivial (by simp)
        | again => exact stay _ rfl rfl rfl (done_leave _) (clean_leave clean) (by simp)
        | fail => exact stay _ rfl rfl rfl (done_finish _ _) trivial (by simp)
        | data bytes =>
            cases reads with
            | data _ _ some bound split less =>
            rw [split] at place
            obtain ⟨inData, read, out⟩ := @InData.accept { m with input := input } bytes _ f fs place
              (bound.trans (min_le_right _ _))
            dsimp only at inData read out ⊢
            refine ⟨taken ++ (f.payload.drop m.conn.read).take bytes.length,
              f.payload.drop (m.conn.read + bytes.length) ++ dataOf fs,
              Or.inr (Or.inl ⟨f, fs, ?_, body.suffix, ?_, ?_, ?_, ?_, clean_next ?_⟩), ?_⟩
            · exact next_pc_ne _
            · rw [next_conn, next_input]
              exact inData
            · rw [next_conn, read]
            · rw [next_conn]
              exact body.ctrl
            · rw [next_pongs]
              exact body.pongs
            · rw [out, clean]
            · rw [body.rest, List.append_assoc, ← List.append_assoc (List.take _ _),
                ← List.drop_drop, List.take_append_drop]
  | suck remain => exact absurd pc (body.pc remain)
  | done outcome => exact absurd ⟨outcome, pc⟩ running

/-- Bytes that stay within the buffer leave `m_len` alone. -/
theorem lenAfter_short (cf : ControlFrame) {start : ℕ} {b : List UInt8}
    (short : start + b.length ≤ controlFrameMax) : cf.lenAfter start b = cf.len := by
  have outside : b[controlFrameMax - start]? = none := List.getElem?_eq_none (by omega)
  rw [ControlFrame.lenAfter, if_pos (by omega), outside]
  rfl

/-- A write that stays within the buffer appends to it. -/
theorem write_append {cf : ControlFrame} {b : List UInt8} (whole : cf.buff.length = cf.len)
    (short : cf.len + b.length ≤ controlFrameMax) :
    cf.write b = ⟨cf.buff ++ b, cf.len + b.length⟩ := by
  have none : cf.buff.drop (cf.len + b.length) = [] := List.drop_of_length_le (by omega)
  have all : (cf.buff.rightpad cf.len 0).take cf.len = cf.buff := List.take_left' whole
  rw [ControlFrame.write, lenAfter_short cf short, all, none, List.append_nil,
    Nat.mod_eq_of_lt (by simp only [controlFrameMax] at short; omega)]

theorem alloc_write {t : List UInt8} (short : t.length ≤ controlFrameMax) :
    ControlFrame.alloc.write t = ⟨t, t.length⟩ := by
  have here : ControlFrame.alloc.len + t.length = t.length := Nat.zero_add _
  rw [write_append rfl (here.trans_le short), here]
  rfl

/-- A payload that stays within the buffer is what was written to it. -/
theorem payload_eq {cf : ControlFrame} (whole : cf.buff.length = cf.len)
    (short : cf.len ≤ controlFrameMax) : cf.payload = cf.buff := by
  rw [ControlFrame.payload, List.take_set_of_le short, List.rightpad, List.take_left' whole]

theorem unmask_length (c : Conn) (p : List UInt8) : (c.unmask p).1.length = p.length := by
  unfold Conn.unmask
  split
  · exact maskPayload_length _ p _
  · rfl

theorem setPayload_eq {cf : ControlFrame} {clear : List UInt8}
    (whole : cf.buff.length = cf.len) (short : cf.len ≤ controlFrameMax)
    (size : clear.length = cf.len) : cf.setPayload clear = ⟨clear, cf.len⟩ := by
  have none : cf.buff.drop cf.len = [] := List.drop_of_length_le whole.le
  rw [ControlFrame.setPayload, none, List.append_nil, lenAfter_short cf (by omega)]

namespace Collecting

variable {all fs : List Frame} {f : Frame} {m : Machine} {taken rest t : List UInt8}

theorem inFrame (here : m.Collecting all taken rest f fs t) : m.conn.state.InFrame = true := by
  rw [here.state, f.state_inFrame]

theorem code (here : m.Collecting all taken rest f fs t) :
    opcode m.conn.frame = f.opcode := by
  rw [here.frame, f.opcode_header]

theorem keyed (here : m.Collecting all taken rest f fs t) :
    m.conn.remain = f.payload.length - m.conn.read := by
  have small : f.payload.length < 2 ^ 64 := f.length_lt
  have read := here.read
  rw [Conn.remain, here.state, here.frame, f.frameSize_header]
  omega

/-- A ping has no buffer while the counter is elsewhere. -/
theorem no_ctrl (here : m.Collecting all taken rest f fs t) (code : f.opcode = .ping)
    (elsewhere : ∀ remain, m.pc ≠ .suck remain) : m.conn.ctrlFrame = none := by
  obtain ⟨_, _, _, _, _, buffer⟩ := here.ping code
  cases given : m.conn.ctrlFrame with
  | none => rfl
  | some cf =>
      obtain ⟨⟨remain, pc⟩, _⟩ := buffer cf given
      exact absurd pc (elsewhere remain)

theorem retry (here : m.Collecting all taken rest f fs t) (pc : m.pc = .retry) :
    m.step.Collecting all taken rest f fs t := by
  have clean := here.clean
  simp only [pc] at clean
  simp only [step, pc, retry_inFrame here.inFrame]
  refine { here with sucking := ?_, ping := fun code => ?_, clean := clean }
  · intro remain other
    cases other
  · obtain ⟨keyed, whole, pending, read, round, _⟩ := here.ping code
    refine ⟨keyed, whole, pending, read, round, fun cf some => ?_⟩
    have none := here.no_ctrl code (by rw [pc]; exact fun _ other => by cases other)
    rw [none] at some
    cases some

theorem payload (here : m.Collecting all taken rest f fs t) (pc : m.pc = .payload) :
    m.step.Collecting all taken rest f fs t := by
  have clean := here.clean
  simp only [pc] at clean
  have control : (opcode m.conn.frame).IsControl = true := by
    rw [here.code]
    exact here.control
  simp only [step, pc, payload_control control, suckOut]
  cases given : m.conn.ctrlFrame with
  | some cf =>
      refine { here with sucking := ?_, ping := fun code => ?_, clean := clean }
      · rintro remain ⟨⟩
        exact ⟨rfl, cf, given⟩
      · have none := here.no_ctrl code (by rw [pc]; exact fun _ other => by cases other)
        rw [none] at given
        cases given
  | none =>
      have short : t.length ≤ controlFrameMax := here.extra.trans here.small
      dsimp only
      rw [overRead_eq here.frame, alloc_write short]
      refine { here with buffer := ?_, sucking := ?_, ping := fun code => ?_, clean := clean }
      · rintro cf ⟨⟩
        exact ⟨rfl, short⟩
      · rintro remain ⟨⟩
        exact ⟨rfl, _, rfl⟩
      · obtain ⟨keyed, whole, pending, read, round, _⟩ := here.ping code
        refine ⟨⟨keyed.state, keyed.header, keyed.index⟩, whole, pending, read, round, ?_⟩
        rintro cf ⟨⟩
        exact ⟨⟨_, rfl⟩, rfl⟩

/-- A ping or pong is done with: the call goes on at `retry`, or returns what it
has if its buffer is full. -/
theorem next {m' : Machine} (here : m.Collecting all taken rest f fs t)
    (state : m'.conn.state = m.conn.state) (frame : m'.conn.frame = m.conn.frame)
    (read : m'.conn.read = m.conn.read) (ctrl : m'.conn.ctrlFrame = none)
    (input : m'.input = m.input) (ping : f.opcode = .ping → Keyed m'.conn f 0)
    (pongs : ∀ p ∈ m'.pongs, f.opcode = .ping ∧ p = f.payload)
    (clean : m'.out = taken ∨ 0 < m'.room) (extra : m'.conn.remain = 0) :
    m'.next.Collecting all taken rest f fs t := by
  refine ⟨here.suffix, here.control, here.rest, ?_, ?_, here.small, here.extra, ?_, ?_, ?_, ?_,
    ?_, ?_⟩
  · rw [next_conn, state, here.state]
  · rw [next_conn, frame, here.frame]
  · rw [next_conn, read]
    exact here.read
  · intro cf some
    rw [next_conn, ctrl] at some
    cases some
  · intro remain pc
    exact absurd pc (next_pc_ne m' remain)
  · intro code
    obtain ⟨_, whole, pending, all, round, _⟩ := here.ping code
    rw [next_conn, next_input, input, read]
    refine ⟨ping code, whole, pending, all, round, fun cf some => ?_⟩
    rw [ctrl] at some
    cases some
  · rw [next_pongs]
    exact pongs
  · by_cases room : 0 < m'.room
    · rw [next_eq_retry room]
      exact Or.inr ⟨extra, Or.inr room⟩
    · rw [Machine.next, if_neg room]
      exact (clean.resolve_right room).symm

/-- The whole control frame has been collected. -/
theorem sucked (here : m.Collecting all taken rest f fs t) (pc : m.pc = .suck 0) :
    m.sucked.Collecting all taken rest f fs t := by
  obtain ⟨extra, cf, ctrl⟩ := here.sucking 0 pc
  have clean := here.clean
  simp only [pc] at clean
  unfold Machine.sucked
  rw [here.code]
  cases code : f.opcode with
  | connectionClose =>
      refine { here with buffer := ?_, sucking := ?_, ping := ?_, clean := trivial }
      · rintro _ ⟨⟩
      · rintro _ ⟨⟩
      · intro ping
        rw [code] at ping
        cases ping
  | ping =>
      obtain ⟨keyed, whole, pending, read, round, buffer⟩ := here.ping code
      obtain ⟨_, rfl⟩ := buffer cf ctrl
      have size : t.length = f.payload.length := by rw [whole, Frame.body_length]
      have short : t.length ≤ controlFrameMax := size.trans_le here.small
      have payload : m.ctrl.payload = t := by
        rw [Machine.ctrl, ctrl]
        exact payload_eq rfl short
      obtain ⟨clear, index⟩ := keyed.unmask t
      have plain : f.scramble 0 t = f.payload := by
        rw [whole]
        exact f.scramble_scramble 0 _
      have pong : m.maskCtrl.ctrl.payload = f.payload := by
        have cleared : m.maskCtrl.ctrl = ⟨(m.conn.unmask t).1, t.length⟩ := by
          change m.ctrl.setPayload (m.conn.unmask m.ctrl.payload).1 = _
          rw [payload, Machine.ctrl, ctrl]
          exact setPayload_eq rfl short (unmask_length _ t)
        rw [cleared, payload_eq (unmask_length _ t) short, clear, plain]
      refine here.next rfl rfl rfl rfl rfl (fun _ => ?_) ?_ ?_ extra.symm
      · refine ⟨keyed.state, keyed.header, fun masked => ?_⟩
        have last : m.maskCtrl.conn.maskIdx = (m.conn.unmask t).2 := by rw [← payload]; rfl
        exact last.trans ((index masked).trans (by rw [Nat.zero_add, size, round masked]))
      · intro p mem
        rcases List.mem_append.mp mem with old | new
        · exact here.pongs p old
        · rw [List.mem_singleton.mp new]
          exact ⟨code, pong⟩
      · exact clean.imp_right fun tainted => tainted.2.resolve_left (by rw [code]; decide)
  | pong =>
      exact here.next rfl rfl rfl rfl rfl (by rw [code]; intro other; cases other) here.pongs
        (clean.imp_right fun tainted => tainted.2.resolve_left (by rw [code]; decide)) extra.symm
  | continuationFrame | textFrame | binaryFrame | reserved =>
      have control := here.control
      rw [code] at control
      cases control

/-- A read of the payload that would block; a close frame is unmasked all the same. -/
theorem suck_again (here : m.Collecting all taken rest f fs t) (out : m.out = taken)
    (notPing : f.opcode ≠ .ping) {cf : ControlFrame} (ctrl : m.conn.ctrlFrame = some cf)
    (input : Input) :
    let m' := { m with input := input }
    (if opcode m.conn.frame = .connectionClose then m'.maskCtrl.leave else m'.leave).Collecting
      all taken rest f fs t := by
  obtain ⟨whole, short⟩ := here.buffer cf ctrl
  dsimp only
  split
  · have held : m.ctrl = cf := by rw [Machine.ctrl, ctrl]; rfl
    have size : (m.conn.unmask cf.payload).1.length = cf.len := by
      rw [unmask_length, payload_eq whole short, whole]
    have clear : m.ctrl.setPayload (m.conn.unmask m.ctrl.payload).1 =
        ⟨(m.conn.unmask cf.payload).1, cf.len⟩ := by
      rw [held]
      exact setPayload_eq whole short size
    refine { here with
      buffer := ?_, sucking := ?_, ping := fun code => absurd code notPing,
      clean := clean_leave out }
    · intro _ some
      obtain rfl := Option.some.inj (some.symm.trans (congrArg Option.some clear))
      exact ⟨size, short⟩
    · rintro _ ⟨⟩
  · refine { here with
      sucking := ?_, ping := fun code => absurd code notPing, clean := clean_leave out }
    rintro _ ⟨⟩

theorem ctrl_write (here : m.Collecting all taken rest f fs t) {cf : ControlFrame}
    (ctrl : m.conn.ctrlFrame = some cf) {bytes : List UInt8}
    (fits : cf.len + bytes.length ≤ controlFrameMax) :
    m.ctrl.write bytes = ⟨cf.buff ++ bytes, cf.len + bytes.length⟩ := by
  rw [Machine.ctrl, ctrl]
  exact write_append (here.buffer cf ctrl).1 fits

/-- Bytes of the payload go behind those that the control frame has. -/
theorem suck_data (here : m.Collecting all taken rest f fs t) (out : m.out = taken)
    (notPing : f.opcode ≠ .ping) {cf : ControlFrame} (ctrl : m.conn.ctrlFrame = some cf)
    {bytes : List UInt8} {remain : ℕ} (same : remain = m.conn.remain)
    (read : m.conn.read + remain ≤ f.payload.length) (le : cf.len + bytes.length ≤ remain)
    (input : Input) :
    ({ m with
      conn := { m.conn with
        ctrlFrame := some (m.ctrl.write bytes)
        read := (m.conn.read + (m.ctrl.write bytes).len) % 2 ^ 64 }
      input := input
      pc := .suck ((remain + 2 ^ 64 - (m.ctrl.write bytes).len) % 2 ^ 64) } : Machine).Collecting
      all taken rest f fs t := by
  obtain ⟨whole, -⟩ := here.buffer cf ctrl
  have small : f.payload.length ≤ controlFrameMax := here.small
  have fits : cf.len + bytes.length ≤ controlFrameMax := by omega
  have count : (m.conn.read + (cf.len + bytes.length)) % 2 ^ 64 =
      m.conn.read + (cf.len + bytes.length) := by
    simp only [controlFrameMax] at small
    omega
  rw [here.ctrl_write ctrl fits]
  dsimp only
  rw [count]
  have left : ({ m.conn with read := m.conn.read + (cf.len + bytes.length) } : Conn).remain =
      (remain + 2 ^ 64 - (cf.len + bytes.length)) % 2 ^ 64 := by
    rw [← count, remain_add m.conn (by simp only [controlFrameMax] at fits; omega), same]
  refine { here with
    read := ?_, buffer := ?_, sucking := ?_, ping := fun code => absurd code notPing,
    clean := Or.inl out }
  · dsimp only
    omega
  · rintro _ ⟨⟩
    refine ⟨?_, fits⟩
    rw [List.length_append, whole]
  · rintro _ ⟨⟩
    exact ⟨left.symm, _, rfl⟩

/-- A turn of the loop that collects the payload. -/
theorem suck (here : m.Collecting all taken rest f fs t) {remain : ℕ} (pc : m.pc = .suck remain)
    (more : remain ≠ 0) (counts : Counts m remain (m.input.readControl remain).1) :
    (m.suck remain).Collecting all taken rest f fs t := by
  obtain ⟨same, cf, ctrl⟩ := here.sucking remain pc
  have clean := here.clean
  simp only [pc] at clean
  have out : m.out = taken := clean.resolve_right fun tainted => more (same.trans tainted.1)
  have keyed := here.keyed
  have notPing : f.opcode ≠ .ping := fun code => by
    obtain ⟨_, _, _, read, _⟩ := here.ping code
    omega
  have real : remain < addressSpace := by
    have small : f.payload.length ≤ controlFrameMax := here.small
    simp only [controlFrameMax] at small
    simp only [addressSpace]
    omega
  have reads := m.input.readBodyAndFd_reads remain
  rw [m.input.readControl_eq real] at counts
  rw [Machine.suck, if_neg more, m.input.readControl_eq real]
  generalize m.input.readBodyAndFd remain = result at reads counts ⊢
  obtain ⟨got, input⟩ := result
  cases got with
  | zero | fail =>
      refine { here with sucking := ?_, ping := fun code => absurd code notPing, clean := trivial }
      rintro _ ⟨⟩
  | again => exact here.suck_again out notPing ctrl input
  | data bytes =>
      cases reads with
      | data _ _ some bound split less =>
      have some := List.length_pos_iff.mpr some
      have le : cf.len + bytes.length ≤ remain := by
        have counts : m.ctrl.len + bytes.length ≤ remain := counts
        rw [Machine.ctrl, ctrl] at counts
        exact counts
      have read : m.conn.read + remain ≤ f.payload.length := by omega
      have small : f.payload.length ≤ controlFrameMax := here.small
      have written : (m.ctrl.write bytes).len ≠ 0 := by
        rw [here.ctrl_write ctrl (by omega)]
        dsimp only
        omega
      dsimp only
      rw [if_neg written]
      exact here.suck_data out notPing ctrl same read le input

/-- A step in a control frame. -/
theorem step (here : m.Collecting all taken rest f fs t) (running : ¬ m.Done)
    (orderly : m.Orderly) : m.step.Collecting all taken rest f fs t := by
  cases pc : m.pc with
  | retry => exact here.retry pc
  | payload => exact here.payload pc
  | suck remain =>
      simp only [Machine.step, pc]
      by_cases extra : remain = 0
      · rw [extra] at pc ⊢
        rw [Machine.suck, if_pos rfl]
        exact here.sucked pc
      · have counts : m.OrderlyAt m.pc := orderly
        rw [pc] at counts
        exact here.suck pc extra (counts extra)
  | done outcome => exact absurd ⟨outcome, pc⟩ running

end Collecting

/-- One step of a running call keeps the invariant. -/
theorem serving_step {all : List Frame} {m : Machine} {taken rest : List UInt8}
    (serving : Serving all m taken rest) (running : ¬ m.Done) (orderly : m.Orderly)
    (kinds : ∀ f ∈ all, f.opcode.IsData = true ∨ f.opcode.IsControl = true) :
    Serves all m.step taken rest := by
  rcases serving with ⟨fs, front⟩ | ⟨f, fs, body⟩ | ⟨f, fs, t, here⟩
  · have pc := front.pc.resolve_right running
    simp only [step, pc]
    exact front_step front pc orderly kinds
  · exact body_step body running
  · exact ⟨taken, rest, Or.inr (Or.inr ⟨f, fs, t, here.step running orderly⟩), rfl⟩

/-- The next call takes over where the last has stopped. -/
theorem serving_call {all : List Frame} {m : Machine} {taken rest : List UInt8}
    (serving : Serving all m taken rest) {outcome : Outcome} (pc : m.pc = .done outcome)
    (l : ℕ) :
    Returned outcome taken ∧
      Serving all { m with room := l, out := [], pc := .retry } [] rest := by
  rcases serving with ⟨fs, front⟩ | ⟨f, fs, body⟩ | ⟨f, fs, t, here⟩
  · have clean := front.clean
    rw [Clean, pc] at clean
    exact ⟨clean, Or.inl ⟨fs, { front with pc := Or.inl rfl, clean := rfl }⟩⟩
  · have clean := body.clean
    rw [Clean, pc] at clean
    exact ⟨clean, Or.inr (Or.inl ⟨f, fs, { body with
      pc := (fun _ other => by cases other), clean := rfl }⟩)⟩
  · have clean := here.clean
    simp only [pc] at clean
    refine ⟨clean, Or.inr (Or.inr ⟨f, fs, t, { here with
      sucking := ?_, ping := fun code => ?_, clean := Or.inl rfl }⟩)⟩
    · rintro _ ⟨⟩
    · obtain ⟨keyed, whole, pending, read, round, _⟩ := here.ping code
      refine ⟨keyed, whole, pending, read, round, fun cf some => ?_⟩
      have none := here.no_ctrl code (by rw [pc]; exact fun _ other => by cases other)
      rw [none] at some
      cases some

end Machine

/-! ## Sessions with control frames -/

/-- Each finished call has taken up a stretch of the data stream. -/
def Session.Served (all : List Frame) (s : Session) : Prop :=
  ∃ blocks taken rest, List.Forall₂ Returned s.log blocks ∧
    Machine.Serving all s.machine taken rest ∧ blocks.flatten ++ (taken ++ rest) = dataOf all

theorem Session.Served.step {all : List Frame} {s : Session} (served : s.Served all)
    (orderly : s.machine.Orderly)
    (kinds : ∀ f ∈ all, f.opcode.IsData = true ∨ f.opcode.IsControl = true) :
    s.step.Served all := by
  obtain ⟨blocks, taken, rest, returned, serving, sum⟩ := served
  by_cases done : s.machine.Done
  · obtain ⟨outcome, pc⟩ := done
    obtain ⟨last, next⟩ := Machine.serving_call serving pc (s.sizes 0)
    rw [step_done pc]
    refine ⟨blocks ++ [taken], [], rest, List.rel_append returned (.cons last .nil), next, ?_⟩
    rw [← sum]
    simp
  · rw [step_running fun outcome pc => done ⟨outcome, pc⟩]
    obtain ⟨taken', rest', serving', same⟩ := Machine.serving_step serving done orderly kinds
    exact ⟨blocks, taken', rest', returned, serving', by rw [same, sum]⟩

theorem Machine.Stuck.orderly {m : Machine} (stuck : m.Stuck) : m.Orderly := by
  obtain ⟨_, inside, pc, _⟩ := stuck
  unfold Machine.Orderly
  rcases pc with pc | pc | pc <;> rw [pc]
  · intro outside
    rw [inside] at outside
    cases outside
  · trivial
  · intro more
    exact absurd rfl more

end Cyue.Ws
