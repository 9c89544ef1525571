import Cyue.Handler.Cut
import Cyue.Mpak.Stale

/-!
# A stream between messages goes on as a new one

What a stream delivers next depends on what is left of earlier messages only
through the parser's context and the pending bytes.  A receiver that is between
messages, with no bytes pending, delivers what a new one would.
-/

namespace Cyue.Handler

open Mpak Shared

/-- `fabric::recv`, which refuses a message by its contents. -/
def fabric (accepts : Message → Bool) (keeps : List Message → Bool) : Consumer where
  recv history := (history.getLast?.map accepts).getD true
  keeps := keeps

@[simp] theorem fabric_recv (accepts : Message → Bool) (keeps : List Message → Bool)
    (history : List Message) (message : Message) :
    (fabric accepts keeps).recv (history ++ [message]) = accepts message := by
  simp [fabric]

def decoded (malloc : Malloc) (consumer : Consumer) (bytes : List UInt8) : List Message :=
  (Stream.start.feed malloc consumer bytes).received

/-- The context of a parser that holds nothing of an earlier message but
leftovers. -/
structure Unused {ρ : Type} (ctx : Context ρ) : Prop where
  idle : ctx.Idle
  atWork : ctx.atWork = .uninit
  cells : ctx.cells = []

theorem Unused.alike {ρ : Type} {ctx : Context ρ} (unused : Unused ctx) : ctx.Alike .fresh where
  height := unused.idle.height
  atWork := unused.atWork
  cells := unused.cells
  below i inside := by
    rw [unused.idle.height] at inside
    exact absurd inside (Nat.not_lt_zero i)
  top := by
    have status := unused.idle.status
    unfold Context.top
    rw [unused.idle.height]
    exact ⟨status, unused.idle.d, fun started => absurd status started,
      fun counts => by rw [status] at counts; cases counts⟩

theorem Unused.mapRaw {ρ σ : Type} {ctx : Context ρ} (unused : Unused ctx) (f : ρ → σ) :
    Unused (ctx.mapRaw f) where
  idle := ⟨unused.idle.height, unused.idle.status, unused.idle.d⟩
  atWork := by
    unfold Context.mapRaw
    rw [unused.atWork]
    rfl
  cells := by
    unfold Context.mapRaw
    rw [unused.cells]
    rfl

theorem Unused.of_mapRaw {ρ σ : Type} {ctx : Context ρ} {f : ρ → σ}
    (unused : Unused (ctx.mapRaw f)) : Unused ctx where
  idle := ⟨unused.idle.height, unused.idle.status, unused.idle.d⟩
  atWork := by
    have work := unused.atWork
    unfold Context.mapRaw at work
    cases same : ctx.atWork <;> simp_all [Obj.mapRaw]
  cells := List.map_eq_nil_iff.mp unused.cells

theorem Unused.of_alike {ρ : Type} {ctx other : Context ρ} (unused : Unused other)
    (alike : ctx.Alike other) : Unused ctx where
  idle := by
    have height := alike.height.trans unused.idle.height
    have top := alike.top
    rw [Context.top, Context.top, height, unused.idle.height] at top
    exact ⟨height, top.status.trans unused.idle.status, top.d.trans unused.idle.d⟩
  atWork := alike.atWork.trans unused.atWork
  cells := alike.cells.trans unused.cells

/-- Both contexts are given up for the next message. -/
theorem initContext_alike {ρ : Type} {ctx other : Context ρ} (alike : ctx.Alike other) :
    (initContext ctx).Alike (initContext other) where
  height := rfl
  atWork := rfl
  cells := rfl
  below i inside := absurd inside (Nat.not_lt_zero i)
  top := by
    have bottom : (ctx.stack 0).d = (other.stack 0).d := by
      rcases Nat.eq_zero_or_pos ctx.stackHeight with zero | positive
      · have top := alike.top.d
        rw [Context.top, Context.top, ← alike.height, zero] at top
        exact top
      · rw [alike.below 0 positive]
    simp only [initContext, Context.top, Function.update_self]
    exact ⟨rfl, bottom, fun started => absurd rfl started, fun counts => by cases counts⟩

namespace Stream

variable {malloc : Malloc} {accepts : Message → Bool} {keeps : List Message → Bool}

/-- The stream has received `past` and then the same as the other one. -/
structure Trails (past : List Message) (stream other : Stream) : Prop where
  received : stream.received = past ++ other.received
  status : stream.status = other.status
  parser : stream.status = .opened → stream.ctx.Alike other.ctx ∧ stream.pending = other.pending

namespace Trails

variable {past : List Message} {stream other : Stream}

theorem of_closed (received : stream.received = past ++ other.received)
    (status : stream.status = other.status) (closed : stream.status ≠ .opened) :
    stream.Trails past other :=
  ⟨received, status, fun opened => absurd opened closed⟩

theorem agrees {third : Stream} (trails : stream.Trails past other) (same : other.Agrees third) :
    stream.Trails past third where
  received := by rw [trails.received, same.received]
  status := trails.status.trans same.status
  parser opened := by
    rw [← same.eq_of_opened (trails.status.symm.trans opened)]
    exact trails.parser opened

/-- The same message is delivered. -/
theorem recv (accepts : Message → Bool) (keeps : List Message → Bool)
    (trails : stream.Trails past other) {result result' : Result (List UInt8)}
    (ctx : result.ctx.Alike result'.ctx) (cur : result.cur = result'.cur) :
    (stream.recv (fabric accepts keeps) result).Trails past
      (other.recv (fabric accepts keeps) result') := by
  have message : Stream.message result.ctx = Stream.message result'.ctx := by
    unfold Stream.message
    rw [ctx.atWork, ctx.cells]
  refine ⟨?_, ?_, fun _ => ⟨initContext_alike ctx, congrArg Cursor.unread cur⟩⟩
  · simp only [Stream.recv, message, trails.received, List.append_assoc]
  · simp only [Stream.recv, message, fabric_recv]

end Trails

theorem drain_trails {past : List Message} (stream : Stream) {other : Stream}
    (trails : stream.Trails past other) (opened : stream.status = .opened) :
    (drain malloc (fabric accepts keeps) stream).Trails past
      (drain malloc (fabric accepts keeps) other) := by
  obtain ⟨ctx, pending⟩ := trails.parser opened
  obtain ⟨ret, cur, after⟩ := unpackLoop_alike malloc stream.ctx (bytesCursor stream.pending) ctx
  rw [drain_eq, drain_eq malloc _ other, ← pending]
  unfold settle
  rw [← ret]
  cases outcome : (unpackLoop malloc stream.ctx (bytesCursor stream.pending)).ret with
  | success => exact trails.recv accepts keeps (after (by simp [outcome]) (by simp [outcome])) cur
  | extraBytes =>
      have next := trails.recv accepts keeps (after (by simp [outcome]) (by simp [outcome])) cur
      dsimp only
      rw [← next.status]
      split
      · next open_after => exact drain_trails _ next open_after
      · exact next
  | wait =>
      exact ⟨trails.received, trails.status, fun _ =>
        ⟨after (by simp [outcome]) (by simp [outcome]), congrArg Cursor.unread cur⟩⟩
  | parseError => exact .of_closed trails.received rfl (by simp)
  | assertion => exact .of_closed trails.received rfl (by simp)
termination_by stream.work
decreasing_by exact recv_work_lt outcome

/-- Streams that trail one another stay so when both are fed the same. -/
theorem feed_trails {past : List Message} {stream other : Stream}
    (trails : stream.Trails past other) (bytes : List UInt8) :
    (stream.feed malloc (fabric accepts keeps) bytes).Trails past
      (other.feed malloc (fabric accepts keeps) bytes) := by
  by_cases opened : stream.status = .opened
  · obtain ⟨ctx, pending⟩ := trails.parser opened
    rw [feed_opened opened, feed_opened (trails.status.symm.trans opened)]
    refine drain_trails _ ⟨trails.received, trails.status, fun _ => ⟨ctx, ?_⟩⟩ opened
    rw [pending]
  · have closed : other.status ≠ .opened := by rwa [← trails.status]
    unfold feed
    rw [if_neg opened, if_neg closed]
    exact trails

/-- A stream between messages goes on as a new one. -/
theorem trails_start {stream : Stream} (opened : stream.status = .opened)
    (unused : Unused stream.ctx) (nothing : stream.pending = []) :
    stream.Trails stream.received .start where
  received := (List.append_nil _).symm
  status := opened
  parser _ := ⟨unused.alike, nothing⟩

end Stream

end Cyue.Handler
