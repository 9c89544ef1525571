import Cyue.Util.Pbuf
import Cyue.Ws.Wire

/-!
# The writes of `write_frame`

A frame goes out with two writes, of its header and of its payload, which is
masked where the caller holds it.  Each write takes as many bytes as the system
says, or it fails and takes none.
-/

namespace Cyue.Ws

def esend : ℤ := -30

/-- `sys_write`, which returns the count as an `int`: the result of the call, and
the bytes taken. -/
def sysWrite (result : Option ℕ) (p : List UInt8) : ℤ × List UInt8 :=
  match result with
  | none => (-1, [])
  | some n => (intOfSize (p.take n).length, p.take n)

theorem sysWrite_count (n : ℕ) (p : List UInt8) :
    (sysWrite (some n) p).1 = intOfSize (p.take n).length := by
  rw [sysWrite]

/-- A call of `write_frame`, with the key drawn and what the system answers. -/
structure FrameWrite where
  masked : Bool
  fin : Bool
  opc : ℕ
  rnd : Key
  payload : List UInt8
  headerResult : Option ℕ
  payloadResult : Option ℕ

/-- What a call leaves: the bytes that the system has taken, the payload in the
memory of the caller, and whether the descriptor is closed. -/
structure Sent where
  result : ℤ
  accepted : List UInt8
  payload : List UInt8
  closed : Bool

namespace FrameWrite

def header (server : Bool) (w : FrameWrite) : List UInt8 :=
  writeHeader (w.masked && !server) w.fin w.opc w.rnd w.payload.length

def body (server : Bool) (w : FrameWrite) : List UInt8 :=
  if w.masked && !server then (maskPayload w.rnd w.payload 0).1 else w.payload

def writeFrame (server : Bool) (w : FrameWrite) : Sent :=
  let written := sysWrite w.headerResult (w.header server)
  if written.1 < 0 then
    { result := esend, accepted := written.2, payload := w.payload, closed := false }
  else
    -- masking is in place, so that the caller's payload is now the one sent
    let rest := sysWrite w.payloadResult (w.body server)
    if rest.1 < 0 ∨ rest.1.toNat < w.payload.length then
      { result := esend, accepted := written.2 ++ rest.2, payload := w.body server,
        closed := true }
    else
      { result := rest.1, accepted := written.2 ++ rest.2, payload := w.body server,
        closed := false }

/-- A call that succeeds has sent the frame, and one that does not has closed
the descriptor or has sent nothing and left the payload as it was. -/
structure Complete (server : Bool) (w : FrameWrite) : Prop where
  whole : 0 ≤ (w.writeFrame server).result →
    (w.writeFrame server).accepted =
      Ws.writeFrame server w.masked w.fin w.opc w.rnd w.payload
  nothing : (w.writeFrame server).result < 0 →
    (w.writeFrame server).closed = true ∨ (w.writeFrame server).accepted = []
  retry : (w.writeFrame server).result < 0 → (w.writeFrame server).closed = false →
    (w.writeFrame server).payload = w.payload

def Takes (result : Option ℕ) (l : ℕ) : Prop := ∃ n ∈ result, l ≤ n

/-- The header is taken as a whole or not at all, or the payload is not taken as
a whole; a count from 2^31 on is no `int`. -/
def Settled (server : Bool) (w : FrameWrite) : Prop :=
  w.headerResult = none ∨ Takes w.headerResult (w.header server).length ∨
    ¬ Takes w.payloadResult w.payload.length ∨ 2 ^ 31 ≤ w.payload.length

variable {server : Bool} {w : FrameWrite}

/-! ## One call -/

theorem body_length : (w.body server).length = w.payload.length := by
  rw [body]
  split
  · exact maskPayload_length w.rnd w.payload 0
  · rfl

theorem header_length_le : (w.header server).length ≤ 14 := by
  rw [header, writeHeader]
  cases w.masked && !server with
  | false => dsimp only; split <;> [split; skip] <;> simp
  | true => dsimp only; split <;> [split; skip] <;> simp

theorem frame_eq : Ws.writeFrame server w.masked w.fin w.opc w.rnd w.payload =
    w.header server ++ w.body server := rfl

/-- A write of a few bytes fails only if the system refuses it. -/
theorem sysWrite_small {result : Option ℕ} {p : List UInt8} (small : p.length < 2 ^ 31) :
    (sysWrite result p).1 < 0 ↔ result = none := by
  cases result with
  | none => exact iff_of_true (by decide : (-1 : ℤ) < 0) rfl
  | some n =>
      refine iff_of_false ?_ nofun
      have short : (p.take n).length ≤ p.length := List.length_take_le' n p
      rw [sysWrite_count, intOfSize_eq (short.trans_lt small)]
      omega

/-- The check of the second write, which compares the `int` with the length. -/
theorem sysWrite_whole {result : Option ℕ} {p : List UInt8} :
    ¬ ((sysWrite result p).1 < 0 ∨ (sysWrite result p).1.toNat < p.length) ↔
      Takes result p.length ∧ p.length < 2 ^ 31 := by
  cases result with
  | none =>
      refine iff_of_false (fun whole => whole (.inl (by decide : (-1 : ℤ) < 0))) ?_
      rintro ⟨⟨n, none, -⟩, -⟩
      exact nomatch none
  | some n =>
      have count : (p.take n).length = min n p.length := List.length_take
      have taken : Takes (some n) p.length ↔ p.length ≤ n := by simp [Takes]
      have below := intOfSize_le (p.take n).length
      have range := intOfSize_bounds (p.take n).length
      have same := @intOfSize_eq (p.take n).length
      rw [sysWrite_count, taken]
      omega

theorem writeFrame_refused (refused : w.headerResult = none) : w.writeFrame server =
    { result := esend, accepted := [], payload := w.payload, closed := false } := by
  rw [writeFrame, refused]
  exact if_pos (by decide : (-1 : ℤ) < 0)

/-- The payload is taken as a whole. -/
theorem writeFrame_taken {n : ℕ} (header : w.headerResult = some n)
    (taken : Takes w.payloadResult w.payload.length ∧ w.payload.length < 2 ^ 31) :
    0 ≤ (w.writeFrame server).result ∧
      (w.writeFrame server).accepted = (w.header server).take n ++ w.body server := by
  have go : ¬ (sysWrite w.headerResult (w.header server)).1 < 0 := by
    rw [sysWrite_small (header_length_le.trans_lt (by decide)), header]
    exact nofun
  rw [← @body_length server w] at taken
  have whole := sysWrite_whole.mpr taken
  rw [body_length] at whole
  have first : (sysWrite w.headerResult (w.header server)).2 = (w.header server).take n := by
    rw [header]
    rfl
  have second : (sysWrite w.payloadResult (w.body server)).2 = w.body server := by
    obtain ⟨⟨m, answer, enough⟩, -⟩ := taken
    rw [Option.mem_def.mp answer]
    exact List.take_of_length_le enough
  rw [writeFrame, if_neg go, if_neg whole, first, second]
  exact ⟨Int.not_lt.mp fun negative => whole (.inl negative), rfl⟩

/-- The payload is not taken as a whole. -/
theorem writeFrame_cut {n : ℕ} (header : w.headerResult = some n)
    (cut : ¬ (Takes w.payloadResult w.payload.length ∧ w.payload.length < 2 ^ 31)) :
    (w.writeFrame server).result = esend ∧ (w.writeFrame server).closed = true := by
  have go : ¬ (sysWrite w.headerResult (w.header server)).1 < 0 := by
    rw [sysWrite_small (header_length_le.trans_lt (by decide)), header]
    exact nofun
  rw [← @body_length server w] at cut
  have short := not_not.mp fun whole => cut (sysWrite_whole.mp whole)
  rw [body_length] at short
  rw [writeFrame, if_neg go, if_pos short]
  exact ⟨rfl, rfl⟩

/-- A call meets its promise if and only if the header was not cut in front of a
payload that was taken. -/
theorem complete_iff : w.Complete server ↔ w.Settled server := by
  cases header : w.headerResult with
  | none =>
      have refused := @writeFrame_refused server w header
      refine iff_of_true ⟨fun success => ?_, fun _ => .inr ?_, fun _ _ => ?_⟩ (.inl header)
      · rw [refused] at success
        exact absurd success (show ¬ (0 : ℤ) ≤ esend by decide)
      · rw [refused]
      · rw [refused]
  | some n =>
      by_cases taken : Takes w.payloadResult w.payload.length ∧ w.payload.length < 2 ^ 31
      · obtain ⟨success, accepted⟩ := @writeFrame_taken server w n header taken
        have whole : w.Settled server ↔ (w.header server).length ≤ n := by
          have refused : ¬ ((w.headerResult = none) ∨ ¬ Takes w.payloadResult w.payload.length ∨
              2 ^ 31 ≤ w.payload.length) := by
            rw [header]
            rintro (none | cut | long)
            · exact nomatch none
            · exact cut taken.1
            · exact Nat.not_le.mpr taken.2 long
          rw [Settled, or_left_comm, or_iff_left refused, header]
          simp [Takes]
        rw [whole]
        constructor
        · intro complete
          have same := complete.whole success
          rw [accepted, frame_eq] at same
          have lengths := congrArg List.length (List.append_cancel_right same)
          rw [List.length_take] at lengths
          omega
        · intro enough
          refine ⟨fun _ => ?_, fun failed => absurd success failed.not_ge,
            fun failed => absurd success failed.not_ge⟩
          rw [accepted, frame_eq, List.take_of_length_le enough]
      · obtain ⟨failed, closed⟩ := @writeFrame_cut server w n header taken
        refine iff_of_true ⟨fun success => ?_, fun _ => .inl closed, fun _ stays => ?_⟩ ?_
        · rw [failed] at success
          exact absurd success (by decide)
        · exact nomatch closed.symm.trans stays
        · rcases not_and_or.mp taken with refused | long
          · exact .inr (.inr (.inl refused))
          · exact .inr (.inr (.inr (Nat.not_lt.mp long)))

end FrameWrite

/-! ## The frames of a connection -/

/-- What the peer gets of a connection, and whether it is closed. -/
structure Stream where
  bytes : List UInt8
  closed : Bool

/-- A call on a connection that is still open. -/
def Stream.send (server : Bool) (s : Stream) (w : FrameWrite) : Stream :=
  if s.closed then s
  else
    { bytes := s.bytes ++ (w.writeFrame server).accepted,
      closed := (w.writeFrame server).closed }

/-- Behind whole frames there is at most one that was cut, and then the
connection is closed. -/
def Stream.Intact (s : Stream) : Prop :=
  ∃ frames : List Frame, ∃ rest, s.bytes = (frames.map Frame.wire).flatten ++ rest ∧
    (rest = [] ∨ s.closed = true)

theorem Stream.Intact.send {server : Bool} {s : Stream} {w : FrameWrite} (intact : s.Intact)
    (settled : w.Settled server) : (s.send server w).Intact := by
  rw [Stream.send]
  split
  case isTrue => exact intact
  case isFalse stays =>
    obtain ⟨frames, rest, bytes, nothing | closed⟩ := intact
    case inr => exact absurd closed stays
    subst nothing
    rw [List.append_nil] at bytes
    have complete := FrameWrite.complete_iff.mpr settled
    by_cases failed : (w.writeFrame server).result < 0
    · refine ⟨frames, (w.writeFrame server).accepted, by rw [bytes], ?_⟩
      exact (complete.nothing failed).symm
    · have whole := complete.whole (Int.not_lt.mp failed)
      have addressable : w.payload.length < 2 ^ 64 := by
        cases header : w.headerResult with
        | none =>
            rw [FrameWrite.writeFrame_refused header] at failed
            exact absurd (show esend < 0 by decide) failed
        | some n =>
            by_contra long
            have cut : ¬ (FrameWrite.Takes w.payloadResult w.payload.length ∧
                w.payload.length < 2 ^ 31) := fun taken => long (taken.2.trans (by decide))
            rw [(@FrameWrite.writeFrame_cut server w _ header cut).1] at failed
            exact absurd (show esend < 0 by decide) failed
      rw [whole, writeFrame_wire _ _ _ _ _ addressable, bytes]
      let frame := Frame.sent (w.masked && !server) w.fin w.opc w.rnd w.payload addressable
      exact ⟨frames ++ [frame], [], by simp [frame], .inl rfl⟩

/-- For every call and all answers of the system: the call succeeds only with
the whole frame sent, and fails only with the descriptor closed or with nothing
sent and the payload as it was, if and only if no payload is taken as a whole
behind a header that was cut.  The peer of a connection with such calls never
finds a frame behind one that was cut. -/
theorem write_frame_complete_iff (server : Bool) :
    (∀ w : FrameWrite, w.Complete server ↔ w.Settled server) ∧
      ∀ ws : List FrameWrite, (∀ w ∈ ws, w.Settled server) →
        (ws.foldl (Stream.send server) ⟨[], false⟩).Intact := by
  refine ⟨fun w => FrameWrite.complete_iff, fun ws settled => ?_⟩
  have start : Stream.Intact ⟨[], false⟩ := ⟨[], [], rfl, .inl rfl⟩
  generalize (⟨[], false⟩ : Stream) = s at start ⊢
  induction ws generalizing s with
  | nil => exact start
  | cons w ws ih =>
      refine ih (fun w later => settled w (List.mem_cons_of_mem _ later)) _ ?_
      exact start.send (settled w List.mem_cons_self)

/-- A masked text of one byte, which the system takes, and whose header it takes
as a whole or up to the given count. -/
def oneByte (header : ℕ) : FrameWrite where
  masked := true
  fin := true
  opc := 1
  rnd := fun _ => 7
  payload := [104]
  headerResult := some header
  payloadResult := some 1

theorem write_frame_complete_whole : (oneByte 6).Settled false ∧ (oneByte 6).Complete false ∧
    ([oneByte 6, oneByte 6].foldl (Stream.send false) ⟨[], false⟩).Intact := by
  have settled : (oneByte 6).Settled false := .inr (.inl ⟨6, rfl, le_rfl⟩)
  obtain ⟨complete, intact⟩ := write_frame_complete_iff false
  refine ⟨settled, (complete _).mpr settled, intact _ fun w member => ?_⟩
  obtain rfl : w = oneByte 6 := by simpa using member
  exact settled

/-- Of the header one byte is taken, and the call succeeds all the same. -/
theorem header_cut : ((oneByte 1).writeFrame false).result = 1 ∧
    ((oneByte 1).writeFrame false).accepted = [0x81, 104 ^^^ 7] ∧
    ¬ (oneByte 1).Complete false := by
  refine ⟨by decide +kernel, by decide +kernel, fun complete => ?_⟩
  rcases FrameWrite.complete_iff.mp complete with refused | ⟨n, taken, enough⟩ | cut | long
  · exact nomatch refused
  · obtain rfl : 1 = n := Option.some.inj taken
    exact absurd enough (by decide)
  · exact cut ⟨1, rfl, le_rfl⟩
  · exact absurd long (by decide)

end Cyue.Ws
