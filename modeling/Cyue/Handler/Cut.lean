import Cyue.Handler.ReadStream
import Mathlib.Data.List.Perm.Basic

/-!
# Receiving does not depend on how the stream is cut

The stream of bytes alone has this property because the parser resumes.  The
socket with its buffers simulates that stream: its unread bytes are the
pending ones, and every payload pointer of the parser leads, through a block
that the parser's `sbuf` keeps alive, to the payload's bytes.
-/

namespace Cyue.Handler

open Mpak Shared

/-! ## The stream of bytes -/

theorem bytesCursor_extends (pending more : List UInt8) :
    (bytesCursor pending).Extends (bytesCursor (pending ++ more)) more := by
  refine ⟨rfl, ?_⟩
  intro offset len inside
  have within : offset + len ≤ pending.length := inside
  simp only [bytesCursor]
  rw [List.drop_append_of_le_length (by omega), List.take_append_of_le_length]
  rw [List.length_drop]
  omega

@[simp] theorem bytesCursor_unread (pending : List UInt8) :
    (bytesCursor pending).unread = pending := rfl

theorem bytesCursor_advance (pending : List UInt8) (used : Nat) :
    (bytesCursor pending).advance used = bytesCursor (pending.drop used) := by
  simp [Cursor.advance, bytesCursor, List.drop_drop]

/-- The parser on more pending bytes. -/
theorem unpackLoop_append (malloc : Malloc) (ctx : Context (List UInt8))
    (pending more : List UInt8) : ∃ rest,
      (unpackLoop malloc ctx (bytesCursor pending)).cur = bytesCursor rest ∧
      unpackLoop malloc ctx (bytesCursor (pending ++ more)) =
        (unpackLoop malloc ctx (bytesCursor pending)).resume malloc
          (bytesCursor (rest ++ more)) := by
  obtain ⟨used, bound, cur, resumed⟩ :=
    unpackLoop_extends malloc ctx (bytesCursor pending) (bytesCursor_extends pending more)
  refine ⟨pending.drop used, ?_, ?_⟩
  · rw [cur, bytesCursor_advance]
  · have inside : used ≤ pending.length := bound
    rw [resumed, bytesCursor_advance, List.drop_append_of_le_length inside]

namespace Stream

variable (malloc : Malloc) (consumer : Consumer)

/-- What `drain` does with the outcome of the parser. -/
def settle (stream : Stream) (result : Result (List UInt8)) : Stream :=
  match result.ret with
  | .success => stream.recv consumer result
  | .extraBytes =>
      if (stream.recv consumer result).status = .opened then
        drain malloc consumer (stream.recv consumer result)
      else stream.recv consumer result
  | .wait => { stream with ctx := result.ctx, pending := result.cur.unread }
  | .parseError => { stream with status := .destroyed }
  | .assertion => { stream with status := .assertion }

theorem drain_eq (stream : Stream) :
    drain malloc consumer stream = settle malloc consumer stream
      (unpackLoop malloc stream.ctx (bytesCursor stream.pending)) := by
  rw [drain]
  split <;> rename_i outcome <;> simp only [settle, outcome]

/-- Streams that a receiver cannot tell apart: once closed, the parser's state
does not matter. -/
structure Agrees (one other : Stream) : Prop where
  received : one.received = other.received
  status : one.status = other.status
  parser : one.status = .opened → one.ctx = other.ctx ∧ one.pending = other.pending

variable {malloc consumer}

namespace Agrees

theorem refl (stream : Stream) : stream.Agrees stream := ⟨rfl, rfl, fun _ => ⟨rfl, rfl⟩⟩

theorem eq_of_opened {one other : Stream} (agrees : one.Agrees other)
    (opened : one.status = .opened) : one = other := by
  obtain ⟨ctx, pending⟩ := agrees.parser opened
  have received := agrees.received
  have status := agrees.status
  cases one
  cases other
  simp_all

theorem trans {one two three : Stream} (first : one.Agrees two) (second : two.Agrees three) :
    one.Agrees three where
  received := first.received.trans second.received
  status := first.status.trans second.status
  parser opened := by
    have same := first.eq_of_opened opened
    subst same
    exact second.parser opened

theorem symm {one other : Stream} (agrees : one.Agrees other) : other.Agrees one where
  received := agrees.received.symm
  status := agrees.status.symm
  parser opened := by
    obtain ⟨ctx, pending⟩ := agrees.parser (agrees.status.trans opened)
    exact ⟨ctx.symm, pending.symm⟩

theorem of_closed {one other : Stream} (received : one.received = other.received)
    (status : one.status = other.status) (closed : one.status ≠ .opened) : one.Agrees other :=
  ⟨received, status, fun opened => absurd opened closed⟩

theorem feed {one other : Stream} (agrees : one.Agrees other) (bytes : List UInt8) :
    (one.feed malloc consumer bytes).Agrees (other.feed malloc consumer bytes) := by
  by_cases opened : one.status = .opened
  · rw [agrees.eq_of_opened opened]
    exact refl _
  · have closed : other.status ≠ .opened := by rwa [← agrees.status]
    simp only [Stream.feed, opened, closed, if_false]
    exact agrees

end Agrees

theorem settle_agrees (one other : Stream) (result : Result (List UInt8))
    (received : one.received = other.received) (status : one.status = other.status) :
    (settle malloc consumer one result).Agrees (settle malloc consumer other result) := by
  have same : one.recv consumer result = other.recv consumer result := by
    simp only [recv, received]
  cases outcome : result.ret with
  | success | extraBytes =>
      simp only [settle, outcome, same]
      exact .refl _
  | wait =>
      simp only [settle, outcome]
      exact ⟨received, status, fun _ => ⟨rfl, rfl⟩⟩
  | parseError | assertion =>
      simp only [settle, outcome]
      exact .of_closed received rfl (by simp)

/-- A parser between messages has nothing to do without bytes. -/
theorem drain_idle (stream : Stream) (initial : stream.ctx.top.status = .initial)
    (nothing : stream.pending = []) : drain malloc consumer stream = stream := by
  rw [drain_eq, unpackLoop_eq, nothing]
  simp only [unpackStep, initial, bytesCursor_unread, proceed, settle]
  rw [← nothing]

@[simp] theorem initContext_status {ρ : Type} (ctx : Context ρ) :
    (initContext ctx).top.status = .initial := by
  simp [initContext, Context.top]

theorem feed_opened {stream : Stream} (opened : stream.status = .opened) (bytes : List UInt8) :
    stream.feed malloc consumer bytes =
      drain malloc consumer { stream with pending := stream.pending ++ bytes } :=
  if_pos opened

/-- Behind a completed message, all bytes that are there are drained. -/
theorem settle_resume (stream : Stream) (result : Result (List UInt8)) (rest more : List UInt8)
    (done : result.ret = .success ∨ result.ret = .extraBytes) {next : Stream}
    (behind : next = { stream.recv consumer result with pending := rest ++ more }) :
    settle malloc consumer { stream with pending := stream.pending ++ more }
        (result.resume malloc (bytesCursor (rest ++ more))) =
      if next.status = .opened then drain malloc consumer next else next := by
  have resumed : result.resume malloc (bytesCursor (rest ++ more)) =
      ⟨if rest ++ more = [] then .success else .extraBytes, result.ctx,
        bytesCursor (rest ++ more)⟩ := by
    rcases done with outcome | outcome <;>
    · simp only [Result.resume, outcome]
      rfl
  have same : ({ stream with pending := stream.pending ++ more } : Stream).recv consumer
      ⟨if rest ++ more = [] then .success else .extraBytes, result.ctx,
        bytesCursor (rest ++ more)⟩ = next := by
    rw [behind]
    rfl
  rw [resumed]
  unfold settle
  rw [same]
  by_cases nothing : rest ++ more = []
  · have idle : drain malloc consumer next = next := by
      apply drain_idle
      · rw [behind]
        exact initContext_status _
      · rw [behind]
        exact nothing
    simp only [nothing, if_true, idle, ite_self]
  · simp only [nothing, if_false]

/-- Draining, then getting more bytes and draining again, is draining all. -/
theorem drain_append (stream : Stream) (more : List UInt8) (opened : stream.status = .opened) :
    (drain malloc consumer { stream with pending := stream.pending ++ more }).Agrees
      ((drain malloc consumer stream).feed malloc consumer more) := by
  induction stream using drain.induct malloc consumer with
  | case1 stream outcome =>
      obtain ⟨rest, cur, whole⟩ := unpackLoop_append malloc stream.ctx stream.pending more
      have last : rest = [] := by
        have unread := unpackLoop_success malloc stream.ctx (bytesCursor stream.pending) outcome
        rwa [cur] at unread
      rw [drain_eq, drain_eq malloc consumer stream]
      dsimp only
      rw [whole, settle_resume stream _ rest more (.inl outcome) rfl]
      simp only [settle, outcome]
      have pending : (stream.recv consumer
          (unpackLoop malloc stream.ctx (bytesCursor stream.pending))).pending = rest := by
        simp only [recv, cur, bytesCursor_unread]
      split
      · next open_after =>
          rw [feed_opened open_after, pending]
          exact .refl _
      · next closed =>
          rw [feed, if_neg closed]
          exact .of_closed rfl rfl closed
  | case2 stream outcome next open_after ih =>
      obtain ⟨rest, cur, whole⟩ := unpackLoop_append malloc stream.ctx stream.pending more
      have pending : next.pending = rest := by
        simp only [next, recv, cur, bytesCursor_unread]
      rw [drain_eq, drain_eq malloc consumer stream]
      dsimp only
      rw [whole, settle_resume stream _ rest more (.inr outcome) rfl]
      simp only [settle, outcome]
      rw [if_pos open_after, if_pos open_after, ← pending]
      exact ih open_after
  | case3 stream outcome next closed =>
      obtain ⟨rest, cur, whole⟩ := unpackLoop_append malloc stream.ctx stream.pending more
      rw [drain_eq, drain_eq malloc consumer stream]
      dsimp only
      rw [whole, settle_resume stream _ rest more (.inr outcome) rfl]
      simp only [settle, outcome]
      rw [if_neg closed, if_neg closed, feed, if_neg closed]
      exact .of_closed rfl rfl closed
  | case4 stream outcome =>
      obtain ⟨rest, cur, whole⟩ := unpackLoop_append malloc stream.ctx stream.pending more
      rw [drain_eq, drain_eq malloc consumer stream]
      dsimp only
      have resumed : (unpackLoop malloc stream.ctx (bytesCursor stream.pending)).resume malloc
          (bytesCursor (rest ++ more)) = unpackLoop malloc
            (unpackLoop malloc stream.ctx (bytesCursor stream.pending)).ctx
            (bytesCursor (rest ++ more)) := by
        simp only [Result.resume, outcome]
      have quiet : settle malloc consumer stream
          (unpackLoop malloc stream.ctx (bytesCursor stream.pending)) =
            { stream with
              ctx := (unpackLoop malloc stream.ctx (bytesCursor stream.pending)).ctx
              pending := rest } := by
        simp only [settle, outcome, cur, bytesCursor_unread]
      rw [whole, resumed, quiet, feed, if_pos opened, drain_eq]
      exact settle_agrees _ _ _ rfl rfl
  | case5 stream outcome | case6 stream outcome =>
      obtain ⟨rest, cur, whole⟩ := unpackLoop_append malloc stream.ctx stream.pending more
      rw [drain_eq, drain_eq malloc consumer stream]
      dsimp only
      rw [whole]
      simp only [settle, outcome, Result.resume]
      rw [feed, if_neg (by simp)]
      exact .of_closed rfl rfl (by simp)

/-- The bytes arrive in one piece or in two. -/
theorem feed_feed (stream : Stream) (first second : List UInt8) :
    (stream.feed malloc consumer (first ++ second)).Agrees
      ((stream.feed malloc consumer first).feed malloc consumer second) := by
  by_cases opened : stream.status = .opened
  · rw [feed_opened opened, feed_opened opened, ← List.append_assoc]
    exact drain_append { stream with pending := stream.pending ++ first } second opened
  · simp only [feed, opened, if_false]
    exact .refl _

theorem drain_received (stream : Stream) :
    ∃ more, (drain malloc consumer stream).received = stream.received ++ more := by
  induction stream using drain.induct malloc consumer with
  | case1 stream outcome =>
      rw [drain_eq]
      simp only [settle, outcome]
      exact ⟨[message _], rfl⟩
  | case2 stream outcome next open_after ih =>
      obtain ⟨more, received⟩ := ih
      rw [drain_eq]
      simp only [settle, outcome]
      rw [if_pos open_after]
      exact ⟨message _ :: more, received.trans (List.append_assoc _ [_] _)⟩
  | case3 stream outcome next closed =>
      rw [drain_eq]
      simp only [settle, outcome]
      rw [if_neg closed]
      exact ⟨[message _], rfl⟩
  | case4 stream outcome | case5 stream outcome | case6 stream outcome =>
      rw [drain_eq]
      simp only [settle, outcome]
      exact ⟨[], (List.append_nil _).symm⟩

/-- What has been delivered stays delivered. -/
theorem feed_received (stream : Stream) (bytes : List UInt8) :
    ∃ more, (stream.feed malloc consumer bytes).received = stream.received ++ more := by
  unfold feed
  split
  · exact drain_received _
  · exact ⟨[], (List.append_nil _).symm⟩

theorem feed_start_nil : start.feed malloc consumer [] = start := by
  rw [feed_opened rfl]
  exact drain_idle start rfl rfl

end Stream

/-! ## The socket simulates the stream -/

section

variable {ρ σ τ : Type}

/-- Pointers that can be resolved stay resolved to the same bytes. -/
def Keeps (before after : ρ → Option σ) : Prop :=
  ∀ p bytes, before p = some bytes → after p = some bytes

theorem Keeps.obj {before after : ρ → Option σ} (keeps : Keeps before after) {obj : Obj ρ}
    {abs : Obj σ} (same : obj.mapRaw before = abs.mapRaw some) :
    obj.mapRaw after = abs.mapRaw some := by
  cases obj <;> cases abs <;> simp_all [Obj.mapRaw]
  exact keeps _ _ same.1

theorem Keeps.context {before after : ρ → Option σ} (keeps : Keeps before after)
    {ctx : Context ρ} {abs : Context σ} (same : ctx.mapRaw before = abs.mapRaw some) :
    ctx.mapRaw after = abs.mapRaw some := by
  simp only [Context.mapRaw, Context.mk.injEq] at same ⊢
  obtain ⟨height, work, cells, stack⟩ := same
  refine ⟨height, keeps.obj work, ?_, stack⟩
  have length : ctx.cells.length = abs.cells.length := by
    simpa using congrArg List.length cells
  apply List.ext_getElem (by simpa using length)
  intro i left right
  rw [List.getElem_map, List.getElem_map]
  apply keeps.obj
  have inside : i < (ctx.cells.map (Obj.mapRaw before)).length := by simpa using left
  have at_i := List.getElem_of_eq cells inside
  rwa [List.getElem_map, List.getElem_map] at at_i

end

namespace Socket

/-- All references to blocks: the `pbuf`'s own, those of the parser's `sbuf`
and those of the messages the fabric has kept. -/
def held (sock : Socket) : List Nat :=
  sock.pbuf.base.toList ++ (sock.sbf.getD [] ++ sock.lent.flatten)

/-- The buffers and blocks of the socket are in order. -/
structure Sound (sock : Socket) : Prop where
  accounted : sock.heap.Accounted sock.held
  block : ∀ block, sock.pbuf.base = some block → sock.heap.contents block = sock.pbuf.data
  ofs : sock.pbuf.ofs ≤ sock.pbuf.last
  empty : sock.pbuf.base = none → sock.pbuf.available = 0

/-- The socket has received what the stream has, and while it is open its
parser is where the stream's is. -/
structure Simulates (sock : Socket) (stream : Stream) : Prop where
  sound : sock.Sound
  received : sock.received = stream.received
  status : sock.status = stream.status
  objs : sock.status = .opened →
    sock.ctx.mapRaw (payload sock.heap (sock.sbf.getD [])) = stream.ctx.mapRaw some
  pending : sock.status = .opened → sock.pbuf.unread = stream.pending

theorem simulates_start : start.Simulates .start where
  sound := ⟨Heap.Accounted.empty, by simp [start, Pbuf.empty], Nat.le_refl _, fun _ => rfl⟩
  received := rfl
  status := rfl
  objs _ := rfl
  pending _ := rfl

theorem payload_some {heap : Heap (List UInt8)} {refs : List Nat} {p : RawPtr}
    {bytes : List UInt8} (found : payload heap refs p = some bytes) :
    ∃ block, p.block = some block ∧ block ∈ refs ∧ heap.count block ≠ 0 ∧
      p.ofs + p.len ≤ (heap.contents block).length ∧
      bytes = ((heap.contents block).drop p.ofs).take p.len := by
  unfold payload Heap.read? at found
  cases held : p.block with
  | none => simp [held] at found
  | some block =>
      simp only [held] at found
      split at found
      · next member =>
          split at found
          · cases found
          · next content read =>
              split at read
              · cases read
              · next positive =>
                  cases read
                  split at found
                  · next inside =>
                      cases found
                      exact ⟨block, rfl, member, positive, inside, rfl⟩
                  · cases found
      · cases found

theorem payload_of {heap : Heap (List UInt8)} {refs held : List Nat} {block ofs len : Nat}
    (accounted : heap.Accounted held) (member : block ∈ refs) (listed : block ∈ held)
    (inside : ofs + len ≤ (heap.contents block).length) :
    payload heap refs ⟨some block, ofs, len⟩ =
      some (((heap.contents block).drop ofs).take len) := by
  simp only [payload, member, if_true, accounted.read? listed, inside]

/-- What the references of an `sbuf` lead to survives while the blocks stay
referred to and only grow at their ends. -/
theorem keeps_payload {before after : Heap (List UInt8)} {refs wider held : List Nat}
    (accounted : after.Accounted held) (covers : ∀ block ∈ refs, block ∈ wider)
    (listed : ∀ block ∈ refs, block ∈ held)
    (grown : ∀ block ∈ refs, ∃ more, after.contents block = before.contents block ++ more) :
    Keeps (payload before refs) (payload after wider) := by
  rintro ⟨named, ofs, len⟩ bytes found
  obtain ⟨block, same, member, -, inside, rfl⟩ := payload_some found
  obtain ⟨more, content⟩ := grown block member
  dsimp only at same inside ⊢
  subst same
  have longer : ofs + len ≤ (after.contents block).length := by
    rw [content, List.length_append]
    omega
  rw [payload_of accounted (covers block member) (listed block member) longer, content,
    List.drop_append_of_le_length (by omega), List.take_append_of_le_length]
  rw [List.length_drop]
  omega

theorem reserve_sound {sock : Socket} (sound : sock.Sound) (room : Nat) :
    (sock.reserve room).Sound := by
  unfold reserve
  split
  · exact sound
  · next short =>
      have accounted := sound.accounted
      cases base : sock.pbuf.base with
      | none =>
          simp only [held, base, Option.toList_none, List.nil_append] at accounted
          simp only [Pbuf.reserve, if_neg short, base]
          refine ⟨?_, ?_, sound.ofs, by simp⟩
          · exact accounted.alloc _
          · intro block same
            cases same
            exact Heap.alloc_contents_next _ _
      | some block =>
          simp only [held, base, Option.toList_some] at accounted
          simp only [Pbuf.reserve, if_neg short, base]
          refine ⟨?_, ?_, Nat.zero_le _, by simp⟩
          · have both := (accounted.alloc sock.pbuf.unread).perm (List.Perm.swap _ _ _)
            exact both.unref
          · intro fresh same
            cases same
            exact Heap.alloc_contents_next _ _

theorem reserve_base {sock : Socket} {room : Nat} (sound : sock.Sound) (positive : 0 < room) :
    ∃ block, (sock.reserve room).pbuf.base = some block := by
  unfold reserve
  split
  · next enough =>
      cases base : sock.pbuf.base with
      | none =>
          have nothing := sound.empty base
          omega
      | some block => exact ⟨block, rfl⟩
  · next short =>
      cases base : sock.pbuf.base <;> simp [Pbuf.reserve, short, base]

theorem reserve_simulates {sock : Socket} {stream : Stream} (sim : sock.Simulates stream)
    (room : Nat) : (sock.reserve room).Simulates stream := by
  have sound := reserve_sound sim.sound room
  refine ⟨sound, ?_, ?_, ?_, ?_⟩
  · unfold reserve
    split <;> exact sim.received
  · unfold reserve
    split <;> exact sim.status
  · intro opened
    have accounted := sound.accounted
    revert accounted opened
    unfold reserve
    split
    · intro opened _
      exact sim.objs opened
    · next short =>
        intro opened accounted
        refine (keeps_payload accounted (fun _ member => member) ?_ ?_).context (sim.objs opened)
        · intro block member
          exact List.mem_append_right _ (List.mem_append_left _ member)
        · intro block member
          have known := sim.sound.accounted.known block
            (List.mem_append_right _ (List.mem_append_left _ member))
          refine ⟨[], ?_⟩
          rw [List.append_nil]
          cases sock.pbuf.base with
          | none => exact Heap.alloc_contents_of_lt _ _ known
          | some old => exact Heap.alloc_contents_of_lt _ _ known
  · intro opened
    revert opened
    unfold reserve
    split
    · exact sim.pending
    · next short =>
        intro opened
        rw [← sim.pending opened]
        cases base : sock.pbuf.base <;> simp [Pbuf.reserve, short, base, Pbuf.unread]

theorem commit_simulates {sock : Socket} {stream : Stream} {block : Nat}
    (sim : sock.Simulates stream) (base : sock.pbuf.base = some block) (bytes : List UInt8) :
    (sock.commit bytes).Simulates { stream with pending := stream.pending ++ bytes } := by
  have accounted : (sock.commit bytes).heap.Accounted (sock.commit bytes).held := by
    simp only [commit, base]
    exact sim.sound.accounted.store _ _
  have content : (sock.commit bytes).heap.contents block = sock.pbuf.data ++ bytes := by
    simp [commit, base]
  have still_based : (sock.commit bytes).pbuf.base ≠ none := by simp [commit, base]
  refine ⟨⟨accounted, ?_, ?_, fun none => absurd none still_based⟩, sim.received, sim.status,
    ?_, ?_⟩
  · intro other same
    have here : block = other := Option.some.inj (base.symm.trans same)
    rw [← here]
    exact content
  · have ofs := sim.sound.ofs
    simp only [commit, Pbuf.append_ofs, Pbuf.append_last]
    omega
  · intro opened
    refine (keeps_payload accounted (fun _ member => member) ?_ ?_).context (sim.objs opened)
    · intro other member
      exact List.mem_append_right _ (List.mem_append_left _ member)
    · intro other member
      by_cases same : other = block
      · subst same
        exact ⟨bytes, by rw [content, sim.sound.block _ base]⟩
      · refine ⟨[], ?_⟩
        simp only [commit, base, List.append_nil]
        exact Heap.store_contents_of_ne _ _ same
  · intro opened
    have ofs : sock.pbuf.ofs ≤ sock.pbuf.data.length := sim.sound.ofs
    rw [← sim.pending opened]
    simp only [commit, Pbuf.unread, Pbuf.append_data, Pbuf.append_ofs]
    exact List.drop_append_of_le_length ofs

/-- The parser's cursor into the `pbuf`, with the bytes for the pointers. -/
theorem cursorOf_extends {sock : Socket} {stream : Stream} {block : Nat} {heap : Heap (List UInt8)}
    {refs held : List Nat} (base : sock.pbuf.base = some block)
    (pending : sock.pbuf.unread = stream.pending)
    (content : heap.contents block = sock.pbuf.data) (accounted : heap.Accounted held)
    (member : block ∈ refs) (listed : block ∈ held) (ofs : sock.pbuf.ofs ≤ sock.pbuf.last) :
    ((bytesCursor stream.pending).mapRaw some).Extends
      ((cursorOf sock.pbuf).mapRaw (payload heap refs)) [] := by
  refine ⟨?_, ?_⟩
  · simp [cursorOf, pending]
  · intro offset len inside
    have within : offset + len ≤ sock.pbuf.data.length - sock.pbuf.ofs := by
      rw [Cursor.mapRaw_unread, bytesCursor_unread, ← pending] at inside
      simpa [Pbuf.unread] using inside
    have ofs' : sock.pbuf.ofs ≤ sock.pbuf.data.length := ofs
    change payload heap refs ⟨sock.pbuf.base, sock.pbuf.ofs + offset, len⟩ =
      some ((stream.pending.drop offset).take len)
    rw [base, payload_of accounted member listed (by rw [content]; omega), content, ← pending,
      Pbuf.unread, List.drop_drop]

/-- Unpacking the `pbuf` is parsing the pending bytes. -/
theorem unpack_simulates (malloc : Malloc) {sock : Socket} {stream : Stream} {block : Nat}
    (sim : sock.Simulates stream) (opened : sock.status = .opened)
    (base : sock.pbuf.base = some block) :
    let result := unpackLoop malloc stream.ctx (bytesCursor stream.pending)
    (sock.unpack malloc).ret = result.ret ∧ (sock.unpack malloc).sock.pbuf.base = some block ∧
      (sock.unpack malloc).sock.Simulates
        { stream with ctx := result.ctx, pending := result.cur.unread } := by
  intro result
  have held_eq : sock.held = block :: (sock.sbf.getD [] ++ sock.lent.flatten) := by
    simp [held, base]
  have accounted : (sock.heap.refer block).Accounted
      (block :: block :: (sock.sbf.getD [] ++ sock.lent.flatten)) := by
    have before := sim.sound.accounted
    rw [held_eq] at before
    exact before.refer (List.mem_cons_self ..)
  have content : (sock.heap.refer block).contents block = sock.pbuf.data :=
    sim.sound.block block base
  let f := payload (sock.heap.refer block) (block :: sock.sbf.getD [])
  have objs : sock.ctx.mapRaw f = stream.ctx.mapRaw some := by
    refine (keeps_payload accounted ?_ ?_ ?_).context (sim.objs opened)
    · intro other member
      exact List.mem_cons_of_mem _ member
    · intro other member
      exact List.mem_cons_of_mem _ (List.mem_cons_of_mem _ (List.mem_append_left _ member))
    · intro other _
      exact ⟨[], (List.append_nil _).symm⟩
  have pending := sim.pending opened
  have ext : ((bytesCursor stream.pending).mapRaw some).Extends
      ((cursorOf sock.pbuf).mapRaw f) [] :=
    cursorOf_extends base pending content accounted (List.mem_cons_self ..)
      (List.mem_cons_self ..) sim.sound.ofs
  -- both loops, with the pointers resolved
  obtain ⟨used, bound, end_cur, same⟩ :=
    unpackLoop_congr malloc (stream.ctx.mapRaw some) ((bytesCursor stream.pending).mapRaw some) ext
  rw [← objs, unpackLoop_mapRaw, objs, unpackLoop_mapRaw] at same
  rw [unpackLoop_mapRaw] at end_cur
  have ret : (unpackLoop malloc sock.ctx (cursorOf sock.pbuf)).ret = result.ret :=
    congrArg Result.ret same
  have ctx : (unpackLoop malloc sock.ctx (cursorOf sock.pbuf)).ctx.mapRaw f =
      result.ctx.mapRaw some := congrArg Result.ctx same
  have left : (unpackLoop malloc sock.ctx (cursorOf sock.pbuf)).cur.unread =
      sock.pbuf.unread.drop used := congrArg (fun r => r.cur.unread) same
  have rest : result.cur.unread = stream.pending.drop used :=
    congrArg Cursor.unread end_cur
  have inside : used ≤ sock.pbuf.unread.length := by
    rw [pending]
    exact bound
  have spent : sock.pbuf.unread.length -
      (unpackLoop malloc sock.ctx (cursorOf sock.pbuf)).cur.unread.length = used := by
    rw [left, List.length_drop]
    omega
  have unpacked : sock.unpack malloc =
      ⟨(unpackLoop malloc sock.ctx (cursorOf sock.pbuf)).ret, { sock with
        heap := sock.heap.refer block
        pbuf := { sock.pbuf with ofs := sock.pbuf.ofs + used }
        ctx := (unpackLoop malloc sock.ctx (cursorOf sock.pbuf)).ctx
        sbf := some (block :: sock.sbf.getD []) }⟩ := by
    simp only [unpack, base, spent]
  rw [unpacked]
  refine ⟨ret, base, ⟨?_, ?_, ?_, ?_⟩, sim.received, sim.status, fun _ => ctx, fun _ => ?_⟩
  · simp only [held, base, Option.toList_some, Option.getD_some]
    exact accounted
  · exact sim.sound.block
  · have length : sock.pbuf.unread.length = sock.pbuf.data.length - sock.pbuf.ofs := by
      simp [Pbuf.unread]
    have ofs : sock.pbuf.ofs ≤ sock.pbuf.data.length := sim.sound.ofs
    change sock.pbuf.ofs + used ≤ sock.pbuf.data.length
    omega
  · intro none
    rw [base] at none
    cases none
  · change sock.pbuf.data.drop (sock.pbuf.ofs + used) = result.cur.unread
    rw [rest, ← pending, Pbuf.unread, List.drop_drop]

/-- A message is handed over as the stream has it. -/
theorem recv_simulates (consumer : Consumer) {sock : Socket} {stream : Stream}
    {result : Result (List UInt8)} (opened : sock.status = .opened)
    (sim : sock.Simulates { stream with ctx := result.ctx, pending := result.cur.unread }) :
    (sock.recv consumer).Simulates (stream.recv consumer result) ∧
      (sock.recv consumer).pbuf = sock.pbuf := by
  have objs := sim.objs opened
  have message : sock.message = Stream.message result.ctx := by
    have work := congrArg Context.atWork objs
    have cells := congrArg Context.cells objs
    exact congr (congrArg Message.mk work) cells
  have received : sock.received = stream.received := sim.received
  have height := congrArg Context.stackHeight objs
  have stack : sock.ctx.stack = result.ctx.stack := congrArg Context.stack objs
  have reset : ∀ f : RawPtr → Option (List UInt8),
      (initContext sock.ctx).mapRaw f = (initContext result.ctx).mapRaw some := by
    intro f
    simp only [initContext, Context.mapRaw, stack, Obj.mapRaw, List.map_nil]
  have accounted := sim.sound.accounted
  unfold recv Stream.recv
  simp only [message, received]
  split
  · refine ⟨⟨⟨?_, sim.sound.block, sim.sound.ofs, sim.sound.empty⟩, rfl, rfl, fun _ => reset _,
      fun _ => sim.pending opened⟩, rfl⟩
    simpa only [held, Option.getD_none, List.nil_append, List.flatten_cons] using accounted
  · refine ⟨⟨⟨?_, ?_, sim.sound.ofs, sim.sound.empty⟩, rfl, rfl, fun _ => reset _,
      fun _ => sim.pending opened⟩, rfl⟩
    · refine Heap.Accounted.unrefAll (accounted.perm ?_)
      simp only [held, Option.getD_none, List.nil_append]
      exact (List.perm_append_comm_assoc _ _ _)
    · intro block base
      rw [Heap.unrefAll_contents]
      exact sim.sound.block block base

/-- What `read_stream` does with the outcome of `unpack`. -/
def settle (malloc : Malloc) (consumer : Consumer) (unpacked : Unpacked) : Socket :=
  match unpacked.ret with
  | .success => unpacked.sock.recv consumer
  | .extraBytes =>
      if (unpacked.sock.recv consumer).status = .opened then
        retry malloc consumer (unpacked.sock.recv consumer)
      else unpacked.sock.recv consumer
  | .wait => unpacked.sock
  | .parseError => { unpacked.sock with status := .destroyed }
  | .assertion => { unpacked.sock with status := .assertion }

theorem retry_eq (malloc : Malloc) (consumer : Consumer) (sock : Socket) :
    sock.retry malloc consumer = settle malloc consumer (sock.unpack malloc) := by
  rw [retry]
  split <;> rename_i outcome <;> simp only [settle, outcome]

/-- A socket that is closed only has to have received the same. -/
theorem Simulates.close {sock : Socket} {stream : Stream} {status : Status}
    (sim : sock.Simulates stream) (closed : status ≠ .opened) (ctx : Context (List UInt8))
    (pending : List UInt8) :
    ({ sock with status } : Socket).Simulates ⟨ctx, pending, stream.received, status⟩ where
  sound := ⟨sim.sound.accounted, sim.sound.block, sim.sound.ofs, sim.sound.empty⟩
  received := sim.received
  status := rfl
  objs opened := absurd opened closed
  pending opened := absurd opened closed

/-- One `unpack`, and the delivery of its message if it completes one. -/
theorem unpack_recv_simulates (malloc : Malloc) (consumer : Consumer) {sock : Socket}
    {stream : Stream} {block : Nat} (sim : sock.Simulates stream) (opened : sock.status = .opened)
    (base : sock.pbuf.base = some block) :
    let result := unpackLoop malloc stream.ctx (bytesCursor stream.pending)
    (sock.unpack malloc).ret = result.ret ∧
      (sock.unpack malloc).sock.Simulates
        { stream with ctx := result.ctx, pending := result.cur.unread } ∧
      ((sock.unpack malloc).sock.recv consumer).Simulates (stream.recv consumer result) ∧
      ((sock.unpack malloc).sock.recv consumer).pbuf.base = some block := by
  intro result
  obtain ⟨ret, base_after, after⟩ := unpack_simulates malloc sim opened base
  have still : (sock.unpack malloc).sock.status = .opened :=
    after.status.trans (sim.status.symm.trans opened)
  obtain ⟨delivered, same⟩ := recv_simulates consumer still after
  exact ⟨ret, after, delivered, (congrArg Pbuf.base same).trans base_after⟩

/-- `read_stream` from its first `unpack` on drains the stream. -/
theorem retry_simulates (malloc : Malloc) (consumer : Consumer) (sock : Socket) {stream : Stream}
    {block : Nat} (sim : sock.Simulates stream) (opened : sock.status = .opened)
    (base : sock.pbuf.base = some block) :
    (sock.retry malloc consumer).Simulates (stream.drain malloc consumer) := by
  obtain ⟨ret, after, delivered, next_base⟩ :=
    unpack_recv_simulates malloc consumer sim opened base
  rw [retry_eq, Stream.drain_eq]
  unfold settle Stream.settle
  rw [← ret]
  cases outcome : (sock.unpack malloc).ret with
  | success => exact delivered
  | extraBytes =>
      dsimp only
      rw [← delivered.status]
      split
      · next open_after => exact retry_simulates malloc consumer _ delivered open_after next_base
      · exact delivered
  | wait => exact after
  | parseError => exact after.close (by simp) _ _
  | assertion => exact after.close (by simp) _ _
termination_by sock.work
decreasing_by exact recv_work_lt outcome

theorem readStream_simulates (malloc : Malloc) (consumer : Consumer) {sock : Socket}
    {stream : Stream} (sim : sock.Simulates stream) (opened : sock.status = .opened) {room : Nat}
    (positive : 0 < room) {bytes : List UInt8} (some_bytes : bytes ≠ []) :
    (sock.readStream malloc consumer room bytes).Simulates
      (stream.feed malloc consumer bytes) := by
  obtain ⟨block, base⟩ := reserve_base sim.sound positive
  have reserved := reserve_simulates sim room
  have still : (sock.reserve room).status = .opened := by
    rw [reserved.status, ← sim.status, opened]
  have committed := commit_simulates reserved base bytes
  unfold readStream
  dsimp only
  rw [if_neg some_bytes, Stream.feed_opened (sim.status.symm.trans opened)]
  exact retry_simulates malloc consumer _ committed still base

/-- A message that the fabric has kept is finished. -/
theorem fin_simulates {sock : Socket} {stream : Stream} (sim : sock.Simulates stream)
    (malloc : Malloc) (consumer : Consumer) (index : Nat) :
    (sock.step malloc consumer (.fin index)).Simulates stream := by
  unfold step
  dsimp only
  cases found : sock.lent[index]? with
  | none => exact sim
  | some refs =>
      obtain ⟨bound, at_index⟩ := List.getElem?_eq_some_iff.mp found
      have lent : sock.lent.flatten.Perm (refs ++ (sock.lent.eraseIdx index).flatten) := by
        have perm := (List.getElem_cons_eraseIdx_perm bound).symm
        rw [at_index] at perm
        exact perm.flatten
      have accounted : (sock.heap.unrefAll refs).Accounted (sock.pbuf.base.toList ++
          (sock.sbf.getD [] ++ (sock.lent.eraseIdx index).flatten)) := by
        refine Heap.Accounted.unrefAll (sim.sound.accounted.perm ?_)
        refine ((lent.append_left _).append_left _).trans ?_
        rw [← List.append_assoc, ← List.append_assoc, ← List.append_assoc]
        exact (List.perm_append_comm.append_right _).trans
          (by rw [List.append_assoc, List.append_assoc, List.append_assoc])
      refine ⟨⟨accounted, ?_, sim.sound.ofs, sim.sound.empty⟩, sim.received, sim.status, ?_,
        sim.pending⟩
      · intro block base
        rw [Heap.unrefAll_contents]
        exact sim.sound.block block base
      · intro opened
        refine (keeps_payload accounted (fun _ member => member) ?_ ?_).context (sim.objs opened)
        · intro block member
          exact List.mem_append_right _ (List.mem_append_left _ member)
        · intro block _
          exact ⟨[], by simp⟩

end Socket

namespace Stream

def step (malloc : Malloc) (consumer : Consumer) (stream : Stream) : Event → Stream
  | .chunk _ bytes => stream.feed malloc consumer bytes
  | _ => stream

/-- The stream has nothing left to do with the bytes it has. -/
def Quiet (malloc : Malloc) (consumer : Consumer) (stream : Stream) : Prop :=
  (stream.feed malloc consumer []).Agrees stream

theorem quiet_feed (malloc : Malloc) (consumer : Consumer) (stream : Stream) (bytes : List UInt8) :
    Quiet malloc consumer (stream.feed malloc consumer bytes) := by
  have pieces : (stream.feed malloc consumer (bytes ++ [])).Agrees _ :=
    feed_feed stream bytes []
  rw [List.append_nil] at pieces
  exact pieces.symm

end Stream

namespace Socket

theorem step_simulates (malloc : Malloc) (consumer : Consumer) {sock : Socket} {stream : Stream}
    (sim : sock.Simulates stream) (event : Event)
    (flows : ∀ room bytes, event = .chunk room bytes → 0 < room ∧ bytes ≠ []) :
    (sock.step malloc consumer event).Simulates (stream.step malloc consumer event) := by
  cases event with
  | chunk room bytes =>
      obtain ⟨positive, some_bytes⟩ := flows room bytes rfl
      unfold step Stream.step
      dsimp only
      split
      · next opened => exact readStream_simulates malloc consumer sim opened positive some_bytes
      · next closed =>
          rw [Stream.feed, if_neg (by rwa [← sim.status])]
          exact sim
  | again room =>
      unfold step Stream.step
      dsimp only
      split
      · exact reserve_simulates sim room
      · exact sim
  | fin index => exact fin_simulates sim malloc consumer index

/-- A run of the socket is the stream fed with all its bytes at once. -/
theorem run_simulates (malloc : Malloc) (consumer : Consumer) {sock : Socket} {stream : Stream}
    (events : List Event) (sim : sock.Simulates stream) (quiet : stream.Quiet malloc consumer)
    (flowing : Flowing events) : ∃ fed, (sock.run malloc consumer events).Simulates fed ∧
      (stream.feed malloc consumer (chunks events)).Agrees fed := by
  induction events generalizing sock stream with
  | nil => exact ⟨stream, sim, quiet⟩
  | cons event rest ih =>
      have first := step_simulates malloc consumer sim event
        (fun room bytes same => flowing room bytes (same ▸ List.mem_cons_self ..))
      have others : Flowing rest := fun room bytes member =>
        flowing room bytes (List.mem_cons_of_mem _ member)
      cases event with
      | chunk room bytes =>
          obtain ⟨fed, run, agrees⟩ := ih first (Stream.quiet_feed malloc consumer stream bytes) others
          exact ⟨fed, run, (Stream.feed_feed stream bytes (chunks rest)).trans agrees⟩
      | again room => exact ih first quiet others
      | fin index => exact ih first quiet others

end Socket

/-- What a run of the socket shows: the messages it has delivered, whether it
is still open, and the state of its parser. -/
theorem run_shows (malloc : Malloc) (consumer : Consumer) (events : List Event)
    (flowing : Flowing events) :
    let sock := Socket.start.run malloc consumer events
    let stream := Stream.start.feed malloc consumer (chunks events)
    sock.received = stream.received ∧ sock.status = stream.status ∧
      sock.parser = stream.parser := by
  intro sock stream
  have quiet : Stream.start.Quiet malloc consumer := by
    unfold Stream.Quiet
    rw [Stream.feed_start_nil]
    exact .refl _
  obtain ⟨fed, sim, agrees⟩ :=
    Socket.run_simulates malloc consumer events Socket.simulates_start quiet flowing
  have status : sock.status = stream.status := sim.status.trans agrees.status.symm
  refine ⟨sim.received.trans agrees.received.symm, status, ?_⟩
  unfold Socket.parser Stream.parser
  by_cases opened : stream.status = .opened
  · have sock_opened := status.trans opened
    have same : stream = fed := agrees.eq_of_opened opened
    rw [if_pos sock_opened, if_pos opened, sim.objs sock_opened, sim.pending sock_opened, same]
  · rw [if_neg fun sock_opened => opened (status.symm.trans sock_opened), if_neg opened]

/-- Two ways to cut the same bytes into chunks deliver the same messages and
leave the parser in the same state, whatever else happens to the buffers. -/
theorem run_cut (malloc : Malloc) (consumer : Consumer) (cut whole : List Event)
    (same : chunks cut = chunks whole) (cut_flows : Flowing cut) (whole_flows : Flowing whole) :
    (Socket.start.run malloc consumer cut).received =
        (Socket.start.run malloc consumer whole).received ∧
      (Socket.start.run malloc consumer cut).status =
        (Socket.start.run malloc consumer whole).status ∧
      (Socket.start.run malloc consumer cut).parser =
        (Socket.start.run malloc consumer whole).parser := by
  obtain ⟨cut_received, cut_status, cut_context⟩ := run_shows malloc consumer cut cut_flows
  obtain ⟨received, status, parser⟩ := run_shows malloc consumer whole whole_flows
  rw [same] at cut_received cut_status cut_context
  exact ⟨cut_received.trans received.symm, cut_status.trans status.symm,
    cut_context.trans parser.symm⟩

end Cyue.Handler
