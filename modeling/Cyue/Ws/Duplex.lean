import Cyue.Ws.Sending
import Cyue.Ws.Stream
import Mathlib.Data.List.Induction
import Mathlib.Data.Nat.Find

/-!
# From one end to the other

What `ws_send` writes on one end of a connection is what the calls of `ws_recv` return
on the other, whatever the segments are in which it arrives.  Three things keep the
reader clear of its defects on all of these runs.  Each frame is at least as long as
the longest header, so that a header read ends in the frame that it begins.  What
arrives before a read would block fits into the caller's buffer.  And a read would
block once more between the last byte and the end of file.
-/

namespace Cyue.Ws

/-! ## Bursts -/

/-- The bytes that arrive before a read would block. -/
def burst : List SockEvent → ℕ
  | [] => 0
  | .again :: _ => 0
  | .fail :: _ => 0
  | .bytes arrived :: events => arrived.length + burst events

/-- Every burst leaves room for a header in a buffer of `l` bytes. -/
def Fits (l : ℕ) : List SockEvent → Prop
  | [] => sizeofFrame ≤ l
  | e :: events => burst (e :: events) + sizeofFrame ≤ l ∧ Fits l events

def Blocks (events : List SockEvent) : Prop := events.getLast? = some .again

theorem Fits.now {l : ℕ} {events : List SockEvent} (fits : Fits l events) :
    burst events + sizeofFrame ≤ l := by
  cases events with
  | nil => exact (Nat.zero_add sizeofFrame).le.trans fits
  | cons e events => exact fits.1

theorem Blocks.tail {e : SockEvent} {events : List SockEvent} (blocks : Blocks (e :: events)) :
    Blocks events ∨ e = .again ∧ events = [] := by
  cases events with
  | nil => exact .inr ⟨Option.some.inj blocks, rfl⟩
  | cons e' events => exact .inl (by rwa [Blocks, List.getLast?_cons_cons] at blocks)

theorem Blocks.cons {events : List SockEvent} (blocks : Blocks events) (e : SockEvent) :
    Blocks (e :: events) := by
  cases events with
  | nil => exact nomatch blocks
  | cons e' events => rwa [Blocks, List.getLast?_cons_cons]

/-- A read takes its bytes from the burst at hand. -/
theorem sysRead_burst (eof : Bool) {l n : ℕ} (positive : 0 < n) :
    (events : List SockEvent) → Fits l events →
      Fits l (sysRead eof n events).2 ∧
        ∀ bytes, (sysRead eof n events).1 = .data bytes →
          burst (sysRead eof n events).2 + bytes.length = burst events
  | [], fits => ⟨fits, fun bytes data => by cases eof <;> exact nomatch data⟩
  | .again :: events, fits => ⟨fits.2, nofun⟩
  | .fail :: events, fits => ⟨fits.2, nofun⟩
  | .bytes [] :: events, fits => by
      obtain ⟨later, taken⟩ := sysRead_burst eof positive events fits.2
      exact ⟨later, fun bytes data => (taken bytes data).trans (Nat.zero_add _).symm⟩
  | .bytes (byte :: arrived) :: events, fits => by
      have now : (byte :: arrived).length + burst events + sizeofFrame ≤ l := fits.1
      have less := List.length_drop (l := byte :: arrived) (i := min n readMax)
      refine ⟨⟨?_, fits.2⟩, fun bytes data => ?_⟩
      · show ((byte :: arrived).drop (min n readMax)).length + burst events + sizeofFrame ≤ l
        omega
      · obtain rfl := Got.data.inj data
        show ((byte :: arrived).drop (min n readMax)).length + burst events + _ =
          (byte :: arrived).length + burst events
        rw [List.length_take]
        omega

/-- Before a read has blocked there is no end of file. -/
theorem sysRead_blocks (eof : Bool) {n : ℕ} (positive : 0 < n) :
    (events : List SockEvent) → Blocks events →
      (sysRead eof n events).1 ≠ .zero ∧
        (Blocks (sysRead eof n events).2 ∨
          (sysRead eof n events).1 = .again ∧ (sysRead eof n events).2 = [])
  | [], blocks => nomatch blocks
  | .again :: events, blocks => by
      refine ⟨nofun, ?_⟩
      rcases blocks.tail with blocks | ⟨-, last⟩
      · exact .inl blocks
      · exact .inr ⟨rfl, last⟩
  | .fail :: events, blocks => by
      refine ⟨nofun, .inl ?_⟩
      exact blocks.tail.resolve_right fun last => nomatch last.1
  | .bytes [] :: events, blocks => by
      have later := blocks.tail.resolve_right fun last => nomatch last.1
      exact sysRead_blocks eof positive events later
  | .bytes (byte :: arrived) :: events, blocks => by
      have later := blocks.tail.resolve_right fun last => nomatch last.1
      exact ⟨nofun, .inl (later.cons _)⟩

/-! ## The input of a call -/

/-- What is ready to be read, the bytes behind the handshake included. -/
def Input.burst (input : Input) : ℕ := input.body.length + Ws.burst input.events

structure Paced (l : ℕ) (input : Input) : Prop where
  now : input.burst + sizeofFrame ≤ l
  later : Fits l input.events

def Input.Ended (input : Input) : Prop := input.body = [] ∧ input.events = []

variable {input : Input} {l n : ℕ}

theorem Paced.read (paced : Paced l input) (positive : 0 < n) :
    Paced l (input.readBodyAndFd n).2 ∧
      ∀ bytes, (input.readBodyAndFd n).1 = .data bytes →
        (input.readBodyAndFd n).2.burst + bytes.length = input.burst := by
  obtain ⟨body, events, eof⟩ := input
  obtain ⟨now, later⟩ := paced
  rw [Input.readBodyAndFd, if_neg (Nat.ne_of_gt positive)]
  cases body with
  | nil =>
      obtain ⟨fits, taken⟩ := sysRead_burst eof positive events later
      refine ⟨⟨?_, fits⟩, fun bytes data => ?_⟩
      · exact (congrArg (· + sizeofFrame) (Nat.zero_add _)).le.trans fits.now
      · have here := taken bytes data
        simp only [Input.burst, List.length_nil, Nat.zero_add]
        exact here
  | cons byte body =>
      have less := List.length_drop (l := byte :: body) (i := n)
      simp only [Input.burst] at now ⊢
      refine ⟨⟨?_, later⟩, fun bytes data => ?_⟩
      · simp only [Input.burst]
        omega
      · obtain rfl := Got.data.inj data
        rw [List.length_take]
        omega

theorem read_blocks (blocks : Blocks input.events) (positive : 0 < n) :
    (input.readBodyAndFd n).1 ≠ .zero ∧
      (Blocks (input.readBodyAndFd n).2.events ∨
        (input.readBodyAndFd n).1 = .again ∧ (input.readBodyAndFd n).2.Ended) := by
  obtain ⟨body, events, eof⟩ := input
  rw [Input.readBodyAndFd, if_neg (Nat.ne_of_gt positive)]
  cases body with
  | nil =>
      obtain ⟨some, ending⟩ := sysRead_blocks eof positive events blocks
      exact ⟨some, ending.imp_right fun held => ⟨held.1, rfl, held.2⟩⟩
  | cons byte body => exact ⟨by rintro ⟨⟩, .inl blocks⟩

theorem Input.Ended.read (ended : input.Ended) (n : ℕ) :
    (input.readBodyAndFd n).2 = input ∧ ∀ bytes, (input.readBodyAndFd n).1 ≠ .data bytes := by
  obtain ⟨body, events, eof⟩ := input
  obtain ⟨rfl, rfl⟩ := ended
  rw [Input.readBodyAndFd]
  split
  · exact ⟨rfl, by rintro bytes ⟨⟩⟩
  · exact ⟨rfl, fun bytes => by cases eof <;> rintro ⟨⟩⟩

/-! ## Frames that contain each header read -/

/-- A data frame that a header read does not leave. -/
structure Frame.Long (f : Frame) : Prop where
  data : f.opcode.IsData = true
  whole : sizeofFrame ≤ f.wire.length
  some : 0 < f.payload.length

def Outside (c : Conn) (pending : List UInt8) : Prop :=
  ∃ fs, (∀ g ∈ fs, g.Long) ∧ AtHeader c pending fs

def Inside (c : Conn) (pending : List UInt8) : Prop :=
  ∃ f fs, (∀ g ∈ f :: fs, g.Long) ∧ InData c pending f fs

namespace Machine

/-- Where a call stands in a stream of long frames. -/
def Place (m : Machine) : Prop :=
  match m.pc with
  | .payload => Inside m.conn m.input.pending
  | .suck _ => False
  | _ => Outside m.conn m.input.pending ∨ Inside m.conn m.input.pending

/-- The invariant of a call with a buffer of at least `l` bytes. -/
structure Steady (l : ℕ) (m : Machine) : Prop where
  paced : Paced l m.input
  room : ¬ m.Done → m.input.burst + sizeofFrame ≤ m.room
  ending : Blocks m.input.events ∨ m.input.Ended ∧ (m.Done ∨ m.out = [])
  zero : m.pc = .done .zero → m.input.Ended
  place : m.Place

variable {m : Machine} {l : ℕ}

theorem retry_running (pc : m.pc = .retry) : ¬ m.Done := by
  rintro ⟨outcome, done⟩
  cases pc.symm.trans done

theorem payload_running (pc : m.pc = .payload) : ¬ m.Done := by
  rintro ⟨outcome, done⟩
  cases pc.symm.trans done

/-- Bytes that complete a header lie in its frame, and fit into the buffer. -/
theorem contains_of_long {bytes : List UInt8} {fs : List Frame} (long : ∀ g ∈ fs, g.Long)
    {pending : List UInt8} (place : AtHeader m.conn (bytes ++ pending) fs) (some : bytes ≠ [])
    (short : bytes.length ≤ sizeofFrame - m.conn.held.length) {room : ℕ}
    (fits : bytes.length ≤ room) : Contains room (m.conn.held ++ bytes) := by
  have held := place.held_lt
  obtain ⟨f, fs, rfl, ⟨t, missing, part⟩ | ⟨t, complete, behind⟩⟩ := place.arrival some
  · intro analyzed
    rw [f.analyzeFrame_short part missing] at analyzed
    exact absurd rfl analyzed
  · have first := place.short f rfl
    have sizes := congrArg List.length complete
    rw [List.length_append, List.length_append] at sizes
    obtain ⟨data, whole, positive⟩ := long f List.mem_cons_self
    rw [Frame.wire, List.length_append, f.body_length] at whole
    intro _
    rw [complete, f.analyzeFrame_header, f.frameSize_header]
    exact ⟨positive, by dsimp only; omega, by dsimp only; omega⟩

/-- The invariant keeps a call clear of the three defects. -/
theorem Steady.lossless (steady : m.Steady l) : m.Lossless := by
  obtain ⟨paced, room, ending, -, place⟩ := steady
  constructor
  · intro pc outside
    have roomy := room (retry_running pc)
    rw [Place, pc] at place
    obtain ⟨fs, long, place⟩ : Outside m.conn m.input.pending := by
      refine place.resolve_right ?_
      rintro ⟨f, fs, -, inside⟩
      cases outside.symm.trans inside.keyed.inFrame
    have held := place.held_lt
    have positive : 0 < sizeofFrame - m.conn.held.length := Nat.sub_pos_of_lt held
    have reads := m.input.readBodyAndFd_reads (sizeofFrame - m.conn.held.length)
    have taken := (paced.read positive).2
    have blocks := fun blocks => (@read_blocks m.input _ blocks positive).1
    rw [headerRead]
    generalize m.input.readBodyAndFd (sizeofFrame - m.conn.held.length) = result
      at reads taken blocks ⊢
    obtain ⟨got, after⟩ := result
    cases reads with
    | empty nothing => omega
    | eof _ ended _ kept =>
        rcases ending with blocking | ⟨-, done | none⟩
        · exact absurd rfl (blocks blocking)
        · exact absurd done (retry_running pc)
        · exact none
    | again => trivial
    | fail => trivial
    | data bytes _ some bound split less =>
        rw [split] at place
        have here := taken bytes rfl
        dsimp only at here
        exact contains_of_long long place some bound (by omega)
  · intro pc remains zero
    have roomy := room (payload_running pc)
    rw [Place, pc] at place
    obtain ⟨f, fs, long, place⟩ := place
    have remain := place.keyed.remain place.inside
    have positive : 0 < min m.room m.conn.remain := by
      have header : 0 < sizeofFrame := by decide
      omega
    rw [payloadRead] at zero
    have reads := m.input.readBodyAndFd_reads (min m.room m.conn.remain)
    rw [zero] at reads
    generalize (m.input.readBodyAndFd (min m.room m.conn.remain)).2 = after at reads
    cases reads with
    | empty nothing => omega
    | eof _ ended =>
        have stream := place.stream
        rw [ended] at stream
        have none := congrArg List.length (List.append_eq_nil_iff.mp stream.symm).1
        rw [List.length_drop, f.body_length, List.length_nil] at none
        omega

/-- What a read leaves of the invariant. -/
theorem Steady.read (steady : m.Steady l) {n : ℕ} (positive : 0 < n) :
    Paced l (m.input.readBodyAndFd n).2 ∧
      (∀ bytes, (m.input.readBodyAndFd n).1 = .data bytes →
        (m.input.readBodyAndFd n).2.burst + bytes.length = m.input.burst ∧
          Blocks (m.input.readBodyAndFd n).2.events) ∧
      (Blocks (m.input.readBodyAndFd n).2.events ∨ (m.input.readBodyAndFd n).2.Ended) ∧
      ((m.input.readBodyAndFd n).1 = .zero → (m.input.readBodyAndFd n).2.Ended) := by
  obtain ⟨paced, taken⟩ := steady.paced.read positive
  refine ⟨paced, fun bytes data => ⟨taken bytes data, ?_⟩, ?_, fun zero => ?_⟩
  · rcases steady.ending with blocks | ⟨ended, -⟩
    · refine (read_blocks blocks positive).2.resolve_right ?_
      rintro ⟨again, -⟩
      cases again.symm.trans data
    · exact absurd data ((ended.read n).2 bytes)
  · rcases steady.ending with blocks | ⟨ended, -⟩
    · exact (read_blocks blocks positive).2.imp_right And.right
    · rw [(ended.read n).1]
      exact .inr ended
  · rcases steady.ending with blocks | ⟨ended, -⟩
    · exact absurd zero (read_blocks blocks positive).1
    · rw [(ended.read n).1]
      exact ended

/-- A call that returns keeps the invariant where its connection stands in the stream. -/
theorem steady_done (done : m.Done) (paced : Paced l m.input)
    (ending : Blocks m.input.events ∨ m.input.Ended) (zero : m.pc = .done .zero → m.input.Ended)
    (place : Outside m.conn m.input.pending ∨ Inside m.conn m.input.pending) : m.Steady l where
  paced := paced
  room running := absurd done running
  ending := ending.imp_right fun ended => ⟨ended, .inl done⟩
  zero := zero
  place := by
    obtain ⟨outcome, pc⟩ := done
    rw [Place, pc]
    exact place

theorem leave_zero (m : Machine) : m.leave.pc = .done .zero → m.leave.input.Ended := by
  rw [leave]
  split
  · rintro ⟨⟩
  · rintro ⟨⟩

/-- The header arm. -/
theorem header_steady (steady : m.Steady l) (pc : m.pc = .retry)
    (outside : Outside m.conn m.input.pending) : m.retry.Steady l := by
  obtain ⟨fs, long, place⟩ := outside
  obtain ⟨frame, read, maskIdx, -⟩ := place.begun_eq
  have roomy := steady.room (retry_running pc)
  have held := place.held_lt
  have positive : 0 < sizeofFrame - m.conn.held.length := Nat.sub_pos_of_lt held
  obtain ⟨paced, taken, ending, zero⟩ := steady.read positive
  have reads := m.input.readBodyAndFd_reads (sizeofFrame - m.conn.held.length)
  rw [place.retry_eq, header]
  simp only [frame]
  generalize m.input.readBodyAndFd (sizeofFrame - m.conn.held.length) = result
    at paced taken ending zero reads ⊢
  obtain ⟨got, input⟩ := result
  cases reads with
  | empty nothing => omega
  | eof _ ended _ kept =>
      refine steady_done (done_finish _ _) paced ending (fun _ => zero rfl) (.inl ⟨fs, long, ?_⟩)
      exact kept.1 ▸ ended ▸ place.begun
  | again _ _ same =>
      exact steady_done (done_leave _) paced ending (leave_zero _) (.inl ⟨fs, long, same ▸ place.begun⟩)
  | fail _ _ same =>
      exact steady_done (done_finish _ _) paced ending (by rintro ⟨⟩)
        (.inl ⟨fs, long, same ▸ place.begun⟩)
  | data bytes _ some bound split =>
      obtain ⟨burst, blocks⟩ := taken bytes rfl
      rw [split] at place
      have contains := @contains_of_long m bytes fs long _ place some bound m.room (by
        dsimp only at burst
        omega)
      obtain ⟨f, fs, rfl, ⟨t, missing, part⟩ | ⟨t, complete, behind⟩⟩ := place.arrival some
      · have moved := @analyze_short { m with
          conn := { m.conn.begun with frame := m.conn.held ++ bytes }, input := input }
          f t part missing
        dsimp only at moved ⊢
        rw [moved]
        exact steady_done (done_leave _) paced ending (leave_zero _) (.inl ⟨_, long, place.waiting part missing⟩)
      · have size : (m.conn.held ++ bytes).length ≤ sizeofFrame := by
          rw [List.length_append]
          omega
        have state : f.state ≠ .recvFrame := by
          intro equal
          cases equal ▸ f.state_inFrame
        simp only [Contains, complete, f.analyzeFrame_header, f.frameSize_header] at contains
        obtain ⟨-, inside, fits⟩ := contains state
        have entered := @analyze_complete { m with
          conn := { m.conn.begun with frame := m.conn.held ++ bytes }, input := input }
          f t complete size read maskIdx fits
        have here := entered.inData (long f List.mem_cons_self).data inside behind
        have less : t.length ≤ bytes.length := by
          have first := place.short f rfl
          have sizes := congrArg List.length complete
          rw [List.length_append, List.length_append] at sizes
          omega
        dsimp only at entered here burst ⊢
        refine ⟨?_, fun _ => ?_, ?_, fun done => ?_, ?_⟩
        · rw [entered.input]
          exact paced
        · rw [entered.input, entered.room]
          dsimp only
          omega
        · rw [entered.input]
          exact .inl blocks
        · cases entered.pc.symm.trans done
        · rw [Place, entered.pc, entered.input]
          exact ⟨f, fs, long, here.1⟩

/-- The data arm. -/
theorem dataPayload_steady (steady : m.Steady l) (pc : m.pc = .payload)
    (inside : Inside m.conn m.input.pending) : m.dataPayload.Steady l := by
  obtain ⟨f, fs, long, place⟩ := inside
  have roomy := steady.room (payload_running pc)
  have remain := place.keyed.remain place.inside
  have small : f.payload.length < 2 ^ 64 := f.length_lt
  have inside := place.inside
  have positive := (long f List.mem_cons_self).some
  unfold dataPayload
  by_cases spent : m.conn.remain = 0
  · have all : m.conn.read = f.payload.length := by omega
    have counted : ¬ m.conn.read % 2 ^ 64 = 0 := by omega
    rw [if_pos spent, if_neg counted]
    refine ⟨steady.paced, fun _ => roomy, ?_, by rintro ⟨⟩, .inl ⟨fs, fun g later => ?_, ?_⟩⟩
    · exact steady.ending.imp_right (.imp_right fun held =>
        .inr (held.resolve_left (payload_running pc)))
    · exact long g (List.mem_cons_of_mem _ later)
    · have stream := place.stream
      rw [all, List.drop_of_length_le f.body_length.le, List.nil_append] at stream
      dsimp only
      rw [stream]
      exact atHeader_established rfl
  · have header : 0 < sizeofFrame := by decide
    have more : 0 < min m.room m.conn.remain := by omega
    obtain ⟨paced, taken, ending, zero⟩ := steady.read more
    have reads := m.input.readBodyAndFd_reads (min m.room m.conn.remain)
    rw [if_neg spent]
    generalize m.input.readBodyAndFd (min m.room m.conn.remain) = result
      at paced taken ending zero reads ⊢
    obtain ⟨got, input⟩ := result
    cases reads with
    | empty nothing => omega
    | eof _ ended _ kept =>
        refine steady_done (done_finish _ _) paced ending (fun _ => zero rfl) (.inr ⟨f, fs, long, ?_⟩)
        exact kept.1 ▸ ended ▸ place
    | again _ _ same =>
        exact steady_done (done_leave _) paced ending (leave_zero _) (.inr ⟨f, fs, long, same ▸ place⟩)
    | fail _ _ same =>
        exact steady_done (done_finish _ _) paced ending (by rintro ⟨⟩)
          (.inr ⟨f, fs, long, same ▸ place⟩)
    | data bytes _ some bound split =>
        obtain ⟨burst, blocks⟩ := taken bytes rfl
        rw [split] at place
        have here := (@InData.accept { m with input := input } bytes _ f fs place
          (bound.trans (min_le_right _ _))).1
        dsimp only at burst here ⊢
        have left : 0 < (({ m with input := input } : Machine).accept bytes).room := by
          rw [accept_room]
          dsimp only
          omega
        rw [next_eq_retry left]
        refine ⟨paced, fun _ => ?_, .inl blocks, by rintro ⟨⟩, .inr ⟨f, fs, long, here⟩⟩
        rw [accept_room, accept_input]
        dsimp only
        omega

/-- One step of a running call keeps the invariant. -/
theorem Steady.step (steady : m.Steady l) (running : ¬ m.Done) : m.step.Steady l := by
  have place := steady.place
  cases pc : m.pc with
  | retry =>
      rw [Place, pc] at place
      simp only [Machine.step, pc]
      rcases place with outside | ⟨f, fs, long, inside⟩
      · exact header_steady steady pc outside
      · rw [retry_inFrame inside.keyed.inFrame]
        refine ⟨steady.paced, fun _ => steady.room running, ?_, by rintro ⟨⟩, f, fs, long, inside⟩
        exact steady.ending.imp_right (.imp_right fun held => .inr (held.resolve_left running))
  | payload =>
      rw [Place, pc] at place
      have arm : m.payload = m.dataPayload := by
        obtain ⟨f, fs, long, inside⟩ := place
        exact payload_data (by rw [inside.keyed.opcode]; exact inside.data)
      simp only [Machine.step, pc, arm]
      exact dataPayload_steady steady pc place
  | suck remain =>
      rw [Place, pc] at place
      exact place.elim
  | done outcome => exact absurd ⟨outcome, pc⟩ running

end Machine

/-! ## What comes later -/

def Input.followed (input : Input) (tail : List SockEvent) (eof : Bool) : Input :=
  ⟨input.body, input.events ++ tail, eof⟩

section

variable {l : ℕ} (tail : List SockEvent) (eof : Bool)

/-- A read does not look behind a read that would block. -/
theorem sysRead_followed {eof' : Bool} {n : ℕ} :
    (events : List SockEvent) → Blocks events →
      sysRead eof n (events ++ tail) =
        ((sysRead eof' n events).1, (sysRead eof' n events).2 ++ tail)
  | [], blocks => nomatch blocks
  | .again :: _, _ => rfl
  | .fail :: _, _ => rfl
  | .bytes [] :: events, blocks =>
      sysRead_followed events (blocks.tail.resolve_right fun last => nomatch last.1)
  | .bytes (_ :: _) :: _, _ => rfl

theorem read_followed {input : Input} (blocks : Blocks input.events) (n : ℕ) :
    (input.followed tail eof).readBodyAndFd n =
      ((input.readBodyAndFd n).1, (input.readBodyAndFd n).2.followed tail eof) := by
  obtain ⟨body, events, eof'⟩ := input
  simp only [Input.followed, Input.readBodyAndFd]
  split
  · rfl
  · cases body with
    | nil =>
        dsimp only
        rw [sysRead_followed tail eof events blocks]
    | cons byte body => rfl

namespace Machine

def followed (m : Machine) : Machine := { m with input := m.input.followed tail eof }

variable {m : Machine}

theorem analyze_followed (m : Machine) :
    (m.followed tail eof).analyze = m.analyze.followed tail eof := by
  unfold analyze followed
  dsimp only
  split
  · rfl
  · split
    · rfl
    · split
      · rfl
      · rfl

theorem header_followed (blocks : Blocks m.input.events) :
    (m.followed tail eof).header = m.header.followed tail eof := by
  have read : (m.followed tail eof).input.readBodyAndFd
      (sizeofFrame - (m.followed tail eof).conn.frame.length) = _ :=
    read_followed tail eof blocks (sizeofFrame - m.conn.frame.length)
  rw [header, header, read]
  generalize m.input.readBodyAndFd (sizeofFrame - m.conn.frame.length) = result
  obtain ⟨got, input⟩ := result
  cases got with
  | zero => rfl
  | again => rfl
  | fail => rfl
  | data bytes =>
      exact analyze_followed tail eof
        { m with conn := { m.conn with frame := m.conn.frame ++ bytes }, input := input }

theorem next_followed (m : Machine) : (m.followed tail eof).next = m.next.followed tail eof := by
  unfold next followed
  dsimp only
  split
  · rfl
  · rfl

theorem dataPayload_followed (blocks : Blocks m.input.events) :
    (m.followed tail eof).dataPayload = m.dataPayload.followed tail eof := by
  have read : (m.followed tail eof).input.readBodyAndFd
      (min (m.followed tail eof).room (m.followed tail eof).conn.remain) = _ :=
    read_followed tail eof blocks (min m.room m.conn.remain)
  unfold dataPayload
  by_cases spent : m.conn.remain = 0
  · by_cases counted : m.conn.read % 2 ^ 64 = 0
    · simp only [followed, spent, counted, if_true]
      rfl
    · simp only [followed, spent, counted, if_true, if_false]
  · have rest : ¬ (m.followed tail eof).conn.remain = 0 := spent
    rw [if_neg rest, if_neg spent, read]
    generalize m.input.readBodyAndFd (min m.room m.conn.remain) = result
    obtain ⟨got, input⟩ := result
    cases got with
    | zero => rfl
    | again => rfl
    | fail => rfl
    | data bytes => exact next_followed tail eof (({ m with input := input } : Machine).accept bytes)

/-- As long as a read would block before them, the events behind change nothing. -/
theorem Steady.step_followed (steady : m.Steady l) (blocks : Blocks m.input.events) :
    (m.followed tail eof).step = m.step.followed tail eof := by
  have place := steady.place
  cases pc : m.pc with
  | retry =>
      rw [Place, pc] at place
      have started : (m.followed tail eof).pc = .retry := pc
      simp only [Machine.step, pc, started]
      rcases place with ⟨fs, -, outside⟩ | ⟨f, fs, -, inside⟩
      · have here : AtHeader (m.followed tail eof).conn m.input.pending fs := outside
        rw [here.retry_eq, outside.retry_eq]
        exact header_followed (m := { m with conn := m.conn.begun }) tail eof blocks
      · have here : (m.followed tail eof).conn.state.InFrame = true := inside.keyed.inFrame
        rw [retry_inFrame here, retry_inFrame inside.keyed.inFrame]
        rfl
  | payload =>
      rw [Place, pc] at place
      obtain ⟨f, fs, -, inside⟩ := place
      have started : (m.followed tail eof).pc = .payload := pc
      have data : (opcode m.conn.frame).IsData = true := by
        rw [inside.keyed.opcode]
        exact inside.data
      have here : (opcode (m.followed tail eof).conn.frame).IsData = true := data
      simp only [Machine.step, pc, started]
      rw [payload_data here, payload_data data]
      exact dataPayload_followed tail eof blocks
  | suck remain =>
      rw [Place, pc] at place
      exact place.elim
  | done outcome =>
      have started : (m.followed tail eof).pc = .done outcome := pc
      simp only [Machine.step, pc, started]

end Machine

namespace Session

def followed (s : Session) : Session := { s with machine := s.machine.followed tail eof }

structure Steady (l : ℕ) (s : Session) : Prop where
  sizes : ∀ k, l ≤ s.sizes k
  machine : s.machine.Steady l

variable {s : Session}

theorem Steady.step (steady : s.Steady l) : s.step.Steady l := by
  obtain ⟨sizes, machine⟩ := steady
  by_cases done : s.machine.Done
  · obtain ⟨outcome, pc⟩ := done
    obtain ⟨paced, -, ending, -, place⟩ := machine
    rw [Machine.Place, pc] at place
    rw [step_done pc]
    refine ⟨fun k => sizes (k + 1), paced, fun _ => paced.now.trans (sizes 0), ?_, by rintro ⟨⟩, place⟩
    exact ending.imp_right fun held => ⟨held.1, .inr rfl⟩
  · rw [step_running fun outcome pc => done ⟨outcome, pc⟩]
    exact ⟨sizes, machine.step done⟩

theorem Steady.step_followed (steady : s.Steady l) (blocks : Blocks s.machine.input.events) :
    (s.followed tail eof).step = s.step.followed tail eof := by
  by_cases done : s.machine.Done
  · obtain ⟨outcome, pc⟩ := done
    have here : (s.followed tail eof).machine.pc = .done outcome := pc
    rw [step_done pc, step_done here]
    rfl
  · have here : ∀ outcome, (s.followed tail eof).machine.pc ≠ .done outcome :=
      fun outcome pc => done ⟨outcome, pc⟩
    rw [step_running here, step_running fun outcome pc => done ⟨outcome, pc⟩]
    exact congrArg (fun machine => { s with machine := machine })
      (steady.machine.step_followed tail eof blocks)

theorem Steady.run (steady : s.Steady l) (n : ℕ) : (Session.step^[n] s).Steady l := by
  induction n with
  | zero => exact steady
  | succ n ih =>
      rw [Function.iterate_succ_apply']
      exact ih.step

theorem Steady.run_followed (steady : s.Steady l) {n : ℕ}
    (blocks : ∀ k < n, Blocks (Session.step^[k] s).machine.input.events) :
    Session.step^[n] (s.followed tail eof) = (Session.step^[n] s).followed tail eof := by
  induction n with
  | zero => rfl
  | succ n ih =>
      rw [Function.iterate_succ_apply', ih fun k less => blocks k (less.trans n.lt_succ_self),
        Function.iterate_succ_apply']
      exact (steady.run n).step_followed tail eof (blocks n n.lt_succ_self)

/-- A session that follows a stream of long frames comes to the end of its events, and then
everything has been delivered. -/
theorem Steady.delivers (steady : s.Steady l) {total : List UInt8} (following : s.Following total) :
    ∃ n, (Session.step^[n] (s.followed tail eof)).machine.input = ⟨[], tail, eof⟩ ∧
      delivered (Session.step^[n] (s.followed tail eof)).log = total ∧
      ∀ k ≤ n, delivered (Session.step^[k] (s.followed tail eof)).log <+: total := by
  have lossless (n : ℕ) : (Session.step^[n] s).machine.Lossless := (steady.run n).machine.lossless
  have along := Run.holds_along (Session.Following total) (fun s => s.machine.Lossless) following
    (fun _ => Session.Following.step) lossless
  have reached : ∃ n, (Session.step^[n] s).machine.input.Ended := by
    obtain ⟨n, pc, -⟩ := following.reaches_end lossless
    exact ⟨n, (steady.run n).machine.zero pc⟩
  classical
  let first := Nat.find reached
  have ended : (Session.step^[first] s).machine.input.Ended := Nat.find_spec reached
  have before (k : ℕ) (less : k < first) : Blocks (Session.step^[k] s).machine.input.events :=
    (steady.run k).machine.ending.resolve_right fun held => Nat.find_min reached less held.1
  have same (k : ℕ) (le : k ≤ first) :
      Session.step^[k] (s.followed tail eof) = (Session.step^[k] s).followed tail eof :=
    steady.run_followed tail eof fun j less => before j (less.trans_le le)
  have input : (Session.step^[first] (s.followed tail eof)).machine.input = ⟨[], tail, eof⟩ := by
    rw [same first le_rfl]
    obtain ⟨body, events⟩ := ended
    simp only [followed, Machine.followed, Input.followed, body, events, List.nil_append]
  have parts (k : ℕ) (le : k ≤ first) :
      delivered (Session.step^[k] (s.followed tail eof)).log <+: total := by
    obtain ⟨-, ahead, -, sum⟩ := along k
    rw [same k le]
    exact ⟨ahead, sum⟩
  -- nothing is left of the stream but what the last call holds
  have held : delivered (Session.step^[first] s).log ++ (Session.step^[first] s).machine.holding =
      total := by
    obtain ⟨-, ahead, reading, sum⟩ := along first
    obtain ⟨rest, spot, whole⟩ := reading.place
    have none : (Session.step^[first] s).machine.input.pending = [] := by
      obtain ⟨body, events⟩ := ended
      rw [Input.pending, body, events]
      rfl
    rw [spot.eq_nil none, List.append_nil] at whole
    rw [whole, sum]
  by_cases done : (Session.step^[first] s).machine.Done
  · obtain ⟨outcome, pc⟩ := done
    have returned : (Session.step^[first] (s.followed tail eof)).machine.pc = .done outcome := by
      rw [same first le_rfl]
      exact pc
    have all : delivered (Session.step^[first + 1] (s.followed tail eof)).log = total := by
      rw [Function.iterate_succ_apply', step_done returned, delivered_append, same first le_rfl]
      rw [Machine.holding, pc] at held
      exact held
    refine ⟨first + 1, ?_, all, fun k le => ?_⟩
    · rw [Function.iterate_succ_apply', step_done returned]
      exact input
    · rcases Nat.le_succ_iff.mp le with earlier | rfl
      · exact parts k earlier
      · exact all ▸ List.prefix_refl _
  · have none : (Session.step^[first] s).machine.out = [] := by
      rcases (steady.run first).machine.ending with blocks | ⟨-, returned | none⟩
      · rw [ended.2] at blocks
        cases blocks
      · exact absurd returned done
      · exact none
    have empty : (Session.step^[first] s).machine.holding = [] := by
      rw [Machine.holding]
      split
      · next outcome pc => exact absurd ⟨outcome, pc⟩ done
      · exact none
    refine ⟨first, input, ?_, parts⟩
    rw [same first le_rfl]
    rw [empty, List.append_nil] at held
    exact held

end Session

end

/-! ## Both ends -/

/-- A call of `ws_send`, with the key drawn and what the system answers. -/
structure Send where
  rnd : Key
  payload : List UInt8
  headerResult : Option ℕ
  payloadResult : Option ℕ

/-- `ws_send` -/
def Send.frame (w : Send) : FrameWrite where
  masked := true
  fin := true
  opc := 2
  rnd := w.rnd
  payload := w.payload
  headerResult := w.headerResult
  payloadResult := w.payloadResult

/-- The call returns without an error, its header was not cut, and it is long enough for a
header read of the other end. -/
structure Send.Sound (server : Bool) (w : Send) : Prop where
  succeeds : 0 ≤ (w.frame.writeFrame server).result
  settled : w.frame.Settled server
  long : (if server then 12 else 8) ≤ w.payload.length

variable {server : Bool}

theorem Send.Sound.addressable {w : Send} (sound : w.Sound server) : w.payload.length < 2 ^ 64 := by
  by_contra long
  have failed : (w.frame.writeFrame server).result < 0 := by
    cases header : w.frame.headerResult with
    | none =>
        rw [FrameWrite.writeFrame_refused header]
        exact (by decide : esend < 0)
    | some n =>
        have cut : ¬ (FrameWrite.Takes w.frame.payloadResult w.frame.payload.length ∧
            w.frame.payload.length < 2 ^ 31) := fun taken => long (taken.2.trans (by decide))
        rw [(FrameWrite.writeFrame_cut header cut).1]
        exact (by decide : esend < 0)
  exact absurd sound.succeeds failed.not_ge

/-- The frame of a call, as the other end gets it. -/
theorem Send.Sound.frame_long {w : Send} (sound : w.Sound server) :
    ∃ f : Frame, f.Long ∧ (w.frame.writeFrame server).accepted = f.wire ∧ f.payload = w.payload := by
  have long := sound.long
  refine ⟨Frame.sent (true && !server) true 2 w.rnd w.payload sound.addressable, ⟨?_, ?_, ?_⟩, ?_, rfl⟩
  · exact (by decide : (Opcode.ofNibble ((UInt8.ofNat (128 + 2 % 16)).toNat % 16)).IsData = true)
  · have two : 2 ≤ (Frame.sent (true && !server) true 2 w.rnd w.payload sound.addressable).header.length :=
      Frame.two_le_header _
    rw [Frame.wire, List.length_append, Frame.body_length]
    change 14 ≤ _ + w.payload.length
    cases server with
    | true =>
        rw [if_pos rfl] at long
        omega
    | false =>
        rw [if_neg (by decide)] at long
        have six : 6 ≤ (Frame.sent (true && !false) true 2 w.rnd w.payload sound.addressable).header.length := by
          simp [Frame.header, Frame.keyBytes, Frame.sent]
        omega
  · change 0 < w.payload.length
    split at long <;> omega
  · rw [(FrameWrite.complete_iff.mpr sound.settled).whole sound.succeeds]
    exact writeFrame_wire server true true 2 w.rnd sound.addressable

/-- A call that returns without an error leaves the connection open. -/
theorem Send.Sound.stays {w : Send} (sound : w.Sound server) :
    (w.frame.writeFrame server).closed = false := by
  have succeeds := sound.succeeds
  unfold FrameWrite.writeFrame at succeeds ⊢
  dsimp only at succeeds ⊢
  split
  · rfl
  · next first =>
      rw [if_neg first] at succeeds
      split
      · next short =>
          rw [if_pos short] at succeeds
          exact absurd succeeds (show ¬ (0 : ℤ) ≤ esend by decide)
      · rfl

def sent (server : Bool) (sends : List Send) : Stream :=
  sends.foldl (fun s w => Stream.send server s w.frame) ⟨[], false⟩

theorem sends_wires (sends : List Send) (sound : ∀ w ∈ sends, w.Sound server) :
    ∃ fs : List Frame, (∀ f ∈ fs, f.Long) ∧
      sent server sends = ⟨wires fs, false⟩ ∧
      fs.flatMap Frame.payload = sends.flatMap Send.payload := by
  induction sends using List.reverseRecOn with
  | nil => exact ⟨[], by rintro f ⟨⟩, rfl, rfl⟩
  | append_singleton sends w ih =>
      obtain ⟨fs, long, stream, payloads⟩ := ih fun v member => sound v (List.mem_append_left _ member)
      have last : w.Sound server := sound w (List.mem_append_right _ List.mem_cons_self)
      obtain ⟨f, whole, accepted, payload⟩ := last.frame_long
      refine ⟨fs ++ [f], ?_, ?_, ?_⟩
      · intro g member
        rcases List.mem_append.mp member with earlier | here
        · exact long g earlier
        · rwa [List.mem_singleton.mp here]
      · rw [sent, List.foldl_append, ← sent, stream]
        change Stream.send server ⟨wires fs, false⟩ w.frame = _
        rw [Stream.send, if_neg Bool.false_ne_true, accepted, last.stays]
        simp only [wires, List.flatMap_append, List.flatMap_singleton]
      · rw [List.flatMap_append, List.flatMap_append, payloads, List.flatMap_singleton,
          List.flatMap_singleton, payload]

/-- For every run of `ws_send` whose calls succeed, with headers that are not cut and at least 12 bytes
from a server and 8 from a client, and every segmentation of their bytes that ends in a read that would
block: the calls of `ws_recv` on the other end, whose buffers have room for each burst, deliver at each
moment a prefix of what was sent, and all of it when the last of these reads is done.  What comes then,
be it a close frame or an error, changes nothing. -/
theorem sends_delivered {sends : List Send} (sound : ∀ w ∈ sends, w.Sound server) (c : Conn)
    (input : Input) (sizes : ℕ → ℕ) (l : ℕ) (ready : c.state = .established)
    (carried : input.pending = (sent server sends).bytes) (clean : SockEvent.fail ∉ input.events)
    (blocks : Blocks input.events) (paced : Paced l input) (room : ∀ k, l ≤ sizes k)
    (tail : List SockEvent) (eof : Bool) :
    let start := Session.start c (input.followed tail eof) sizes
    ∃ n, (Session.step^[n] start).machine.input = ⟨[], tail, eof⟩ ∧
      delivered (Session.step^[n] start).log = sends.flatMap Send.payload ∧
      ∀ k ≤ n, delivered (Session.step^[k] start).log <+: sends.flatMap Send.payload := by
  obtain ⟨fs, long, stream, payloads⟩ := sends_wires sends sound
  rw [stream] at carried
  have place : AtHeader c input.pending fs := carried ▸ atHeader_established ready
  let s := Session.start c ⟨input.body, input.events, true⟩ sizes
  have fits (k : ℕ) : sizeofFrame ≤ sizes k :=
    ((Nat.le_add_left _ _).trans paced.now).trans (room k)
  have steady : s.Steady l :=
    ⟨fun k => room (k + 1), ⟨paced.now, paced.later⟩, fun _ => paced.now.trans (room 0),
      .inl blocks, by rintro ⟨⟩, .inl ⟨fs, long, place⟩⟩
  have following : s.Following (fs.flatMap Frame.payload) := by
    refine ⟨fun k => fits (k + 1), _, ⟨rfl, clean, fun _ => ?_, _, .inl ?_, rfl⟩, rfl⟩
    · exact (fits 0).trans (Nat.le_add_right _ _)
    · exact ⟨fs, fun f member => (long f member).data, place, rfl⟩
  rw [← payloads]
  exact steady.delivers tail eof following

/-- Two messages of a client; the second header and the first payload arrive in one segment, and a
close frame behind them. -/
theorem sends_delivered_two :
    let sends : List Send := [⟨fun i => UInt8.ofNat i, [1, 2, 3, 4, 5, 6, 7, 8], some 6, some 8⟩,
      ⟨fun _ => 7, [9, 8, 7, 6, 5, 4, 3, 2, 1], some 6, some 9⟩]
    let bytes := (sent false sends).bytes
    ∃ n, delivered (Session.step^[n] (Session.start ⟨.established, [], 0, none, 0⟩
      ⟨bytes.take 3, [.bytes ((bytes.drop 3).take 15), .again, .bytes (bytes.drop 18), .again,
        .bytes [0x88, 0x80, 0, 0, 0, 0]], true⟩ fun _ => 64)).log =
      [1, 2, 3, 4, 5, 6, 7, 8, 9, 8, 7, 6, 5, 4, 3, 2, 1] := by
  intro sends bytes
  have sound : ∀ w ∈ sends, w.Sound false := by
    intro w member
    rcases List.mem_cons.mp member with rfl | member
    · exact ⟨by decide +kernel, .inr (.inl ⟨6, rfl, by decide +kernel⟩), by decide⟩
    · obtain rfl := List.mem_singleton.mp member
      exact ⟨by decide +kernel, .inr (.inl ⟨6, rfl, by decide +kernel⟩), by decide⟩
  obtain ⟨n, -, all, -⟩ := sends_delivered sound ⟨.established, [], 0, none, 0⟩
    ⟨bytes.take 3, [.bytes ((bytes.drop 3).take 15), .again, .bytes (bytes.drop 18), .again], true⟩
    (fun _ => 64) 64 rfl (by decide +kernel) (by decide +kernel) rfl
    ⟨by decide +kernel, by decide +kernel, by decide +kernel, by decide +kernel, by decide +kernel,
      (by decide : sizeofFrame ≤ 64)⟩
    (fun _ => le_rfl) [.bytes [0x88, 0x80, 0, 0, 0, 0]] true
  exact ⟨n, all⟩

end Cyue.Ws
