import Cyue.Handler.Cut
import Cyue.Lib.Run
import Cyue.Mpak.Ordered

/-!
# Sessions of reserve, commit and unpack

The receive buffer, the parser and the objects it has completed, over any order
of calls: `unpack(pbuf &)` enters the loop, which then takes one turn after
the other until it returns, and it may be called again whatever it has
returned.  Allocations may be refused.  The frames behind the parser's stack
hold whatever lies in memory there.

`nested`, `pushed` and the message a completed object remembers are not in the
source: they record what has happened.
-/

namespace Cyue.Handler

open Mpak Mpak.Release Shared Memory

/-- A completed object with the arrays and references of its `sbuf`, and the
message that it was when it was completed. -/
structure Completed where
  root : Obj RawPtr
  cells : List (Obj RawPtr)
  refs : List Nat
  seen : Message

structure Receiver where
  heap : Heap (List UInt8)
  pbuf : Pbuf
  ctx : Context RawPtr
  /-- `m_ctx.sbf`, as the blocks it refers to; `none` for a null pointer -/
  sbf : Option (List Nat)
  /-- the loop of `unpack` runs -/
  inside : Bool
  /-- `l_pushstack` has returned an error -/
  nested : Bool
  /-- the levels whose frames a push, or the constructor, has initialised -/
  pushed : List ℕ
  alive : List Completed

inductive Act where
  | reserve (sz : ℕ) (granted : Bool) (outside : Mem)
  | commit (bytes : List UInt8)
  | call (granted : Bool)
  | turn (env : Env RawPtr) (beyond : Mem)
  | fin (index : ℕ)

namespace Receiver

/-- `mpak()` and `pbuf()`; the constructor sets the bottom frame alone. -/
def start (memory : ℕ → StackMem) : Receiver where
  heap := .empty
  pbuf := .empty
  ctx := { Context.fresh with
    stack := Function.update memory 0 { memory 0 with status := .initial, d := .work } }
  sbf := none
  inside := false
  nested := false
  pushed := [0]
  alive := []

/-- What `reserve` copies: the unread bytes, unless `m_ofs` has left the buffer. -/
def copied (pbuf : Pbuf) (outside : Mem) : List UInt8 :=
  if pbuf.ofs ≤ pbuf.last then pbuf.unread
  else load outside pbuf.ofs (pbuf.last + sizeMax - pbuf.ofs)

/-- The buffer for which `reserve` allocates. -/
def moved (pbuf : Pbuf) (fresh sz : ℕ) (outside : Mem) : Pbuf :=
  match pbuf.base with
  | some _ =>
      let need := sz + (copied pbuf outside).length
      ⟨some fresh, copied pbuf outside, Pbuf.growLimit need pbuf.limit need, 0⟩
  | none => { pbuf with
      base := some fresh, limit := Pbuf.growLimit sz Pbuf.initialBufferSize sz }

/-- With `m_ofs` in the buffer that is what `Pbuf.reserve` makes. -/
theorem moved_eq {pbuf : Pbuf} (inside : pbuf.ofs ≤ pbuf.last) {sz : ℕ}
    (short : ¬ sz ≤ pbuf.available) (fresh : ℕ) (outside : Mem) :
    moved pbuf fresh sz outside = pbuf.reserve fresh sz := by
  unfold moved Pbuf.reserve
  rw [if_neg short]
  cases pbuf.base with
  | none => rfl
  | some block =>
      dsimp only
      rw [copied, if_pos inside, Pbuf.unread, List.length_drop]
      rfl

/-- `pbuf::reserve`.  No allocation of 2^63 bytes is granted. -/
def reserve (recv : Receiver) (sz : ℕ) (granted : Bool) (outside : Mem) : Receiver :=
  let pbuf := moved recv.pbuf recv.heap.next sz outside
  if sz ≤ recv.pbuf.available then recv
  else if granted = true ∧ pbuf.limit < 2 ^ 63 then
    let heap := recv.heap.alloc pbuf.data
    { recv with
      heap := match recv.pbuf.base with
        | some block => heap.unref block
        | none => heap
      pbuf }
  else recv

/-- A write at `last_p()` and its `commit`, as far as the assertion of `commit` allows. -/
def commit (recv : Receiver) (bytes : List UInt8) : Receiver :=
  match recv.pbuf.base with
  | none => recv
  | some block =>
      if recv.pbuf.last + bytes.length ≤ recv.pbuf.limit then
        let pbuf := recv.pbuf.append bytes
        { recv with heap := recv.heap.store block pbuf.data, pbuf }
      else recv

/-- `unpack(pbuf &)` up to the loop: the `sbuf` refers to the block of the `pbuf`, unless
it gets no memory for the reference. -/
def call (recv : Receiver) (granted : Bool) : Receiver :=
  match recv.pbuf.base with
  | none => recv
  | some block =>
      if granted then
        { recv with heap := recv.heap.refer block, sbf := some (block :: recv.sbf.getD []),
                    inside := true }
      else { recv with sbf := some (recv.sbf.getD []) }

/-- What the loop sees of the buffer, and of the memory behind it. -/
def input (recv : Receiver) (beyond : Mem) : Input RawPtr where
  mem i := recv.pbuf.data.getD i (beyond i)
  last := recv.pbuf.last
  rawAt ofs len := ⟨recv.pbuf.base, ofs, len⟩

def turn (recv : Receiver) (env : Env RawPtr) (beyond : Mem) : Turn RawPtr :=
  Release.turn env (recv.input beyond) recv.ctx recv.pbuf.ofs

/-- `set_sbuf`, `init_context` and `result`: the object goes to its receiver, with the
references of the `sbuf`. -/
def complete (recv : Receiver) (ctx : Context RawPtr) : Receiver :=
  let refs := recv.sbf.getD []
  { recv with
    ctx := initContext ctx
    sbf := none
    inside := false
    alive := recv.alive ++ [{
      root := ctx.atWork
      cells := ctx.cells
      refs
      seen := ⟨ctx.atWork.mapRaw (Socket.payload recv.heap refs),
        ctx.cells.map (Obj.mapRaw (Socket.payload recv.heap refs))⟩ }] }

def ends (recv : Receiver) (turn : Turn RawPtr) : Receiver :=
  let parsed := { recv with pbuf := { recv.pbuf with ofs := turn.ofs } }
  match turn.next with
  | .go ctx => { parsed with
      ctx
      pushed := if recv.ctx.stackHeight < ctx.stackHeight then ctx.stackHeight :: recv.pushed
        else recv.pushed }
  | .ret .unpackContinue ctx => { parsed with ctx, inside := false }
  | .ret .unpackParseError ctx => { parsed with ctx, inside := false }
  | .ret .unpackSuccess ctx => parsed.complete ctx
  | .ret .unpackExtraBytes ctx => parsed.complete ctx
  | .tooNested ctx => { parsed with ctx, inside := false, nested := true }
  | .hangs => recv

/-- `sbuf::fin` of a completed object. -/
def fin (recv : Receiver) (index : ℕ) : Receiver :=
  match recv.alive[index]? with
  | none => recv
  | some obj =>
      { recv with heap := recv.heap.unrefAll obj.refs, alive := recv.alive.eraseIdx index }

/-- The buffer is not touched while the loop runs. -/
def act (recv : Receiver) : Act → Receiver
  | .reserve sz granted outside =>
      if recv.inside then recv else recv.reserve sz granted outside
  | .commit bytes => if recv.inside then recv else recv.commit bytes
  | .call granted => if recv.inside then recv else recv.call granted
  | .turn env beyond => if recv.inside then recv.ends (recv.turn env beyond) else recv
  | .fin index => recv.fin index

def run (recv : Receiver) (acts : List Act) : Receiver := acts.foldl act recv

/-! ## The stack over a session -/

/-- The frame that the running loop has selected lies in the stack, and a push has
initialised it. -/
def Selected (recv : Receiver) : Prop :=
  recv.inside = true →
    recv.ctx.stackHeight < unpackStackDepth ∧ recv.ctx.stackHeight ∈ recv.pushed

/-- The parser is not called again once it has nested too deep. -/
def Calm (recv : Receiver) (act : Act) : Prop := act = .call true → recv.nested = false

structure Climbed (recv : Receiver) : Prop where
  height : recv.nested = false → recv.ctx.stackHeight < unpackStackDepth
  pushed : recv.nested = false → ∀ level ≤ recv.ctx.stackHeight, level ∈ recv.pushed
  deep : recv.nested = true → recv.inside = false ∧ unpackStackDepth ≤ recv.ctx.stackHeight
  based : recv.inside = true ∨ recv.nested = true → recv.pbuf.base ≠ none

theorem climbed_start (memory : ℕ → StackMem) : (start memory).Climbed where
  height _ := by
    change 0 < 16
    decide
  pushed _ level low := by
    rw [Nat.le_zero.mp low]
    exact List.mem_singleton_self 0
  deep nested := nomatch nested
  based running := by rcases running with inside | nested <;> contradiction

theorem Climbed.selected {recv : Receiver} (climbed : recv.Climbed) : recv.Selected := by
  intro inside
  have shallow : recv.nested = false := by
    cases nested : recv.nested with
    | false => rfl
    | true => exact nomatch inside.symm.trans (climbed.deep nested).1
  exact ⟨climbed.height shallow, climbed.pushed shallow _ (Nat.le_refl _)⟩

/-- What leaves the parser alone and does not lose the block leaves the stack where it is. -/
theorem Climbed.congr {recv next : Receiver} (climbed : recv.Climbed) (ctx : next.ctx = recv.ctx)
    (pushed : next.pushed = recv.pushed) (nested : next.nested = recv.nested)
    (inside : next.inside = recv.inside) (base : recv.pbuf.base ≠ none → next.pbuf.base ≠ none) :
    next.Climbed where
  height := by
    rw [nested, ctx]
    exact climbed.height
  pushed := by
    rw [nested, ctx, pushed]
    exact climbed.pushed
  deep := by
    rw [nested, inside, ctx]
    exact climbed.deep
  based := by
    rw [nested, inside]
    exact fun running => base (climbed.based running)

@[simp] theorem moved_base (pbuf : Pbuf) (fresh sz : ℕ) (outside : Mem) :
    (moved pbuf fresh sz outside).base = some fresh := by
  unfold moved
  split <;> rfl

theorem reserve_climbed {recv : Receiver} (climbed : recv.Climbed) (sz : ℕ) (granted : Bool)
    (outside : Mem) : (recv.reserve sz granted outside).Climbed := by
  unfold reserve
  dsimp only
  split
  · exact climbed
  · split
    · exact climbed.congr rfl rfl rfl rfl fun _ => by simp
    · exact climbed

theorem commit_climbed {recv : Receiver} (climbed : recv.Climbed) (bytes : List UInt8) :
    (recv.commit bytes).Climbed := by
  unfold commit
  split
  · exact climbed
  · split
    · exact climbed.congr rfl rfl rfl rfl id
    · exact climbed

theorem fin_climbed {recv : Receiver} (climbed : recv.Climbed) (index : ℕ) :
    (recv.fin index).Climbed := by
  unfold fin
  split
  · exact climbed
  · exact climbed.congr rfl rfl rfl rfl id

theorem call_climbed {recv : Receiver} (climbed : recv.Climbed) {granted : Bool}
    (calm : granted = true → recv.nested = false) : (recv.call granted).Climbed := by
  unfold call
  split
  · exact climbed
  · next block base =>
      split
      · next grant =>
          have shallow : recv.nested ≠ true := by simp [calm grant]
          have based : recv.pbuf.base ≠ none := by simp [base]
          exact ⟨climbed.height, climbed.pushed, fun nested => absurd nested shallow, fun _ => based⟩
      · exact climbed.congr rfl rfl rfl rfl id

/-- The stack of a completed parser, which starts over. -/
theorem complete_climbed {recv : Receiver} (climbed : recv.Climbed) (shallow : recv.nested = false)
    (ctx : Context RawPtr) : (recv.complete ctx).Climbed where
  height _ := by
    change 0 < 16
    decide
  pushed _ level low := by
    have ground : level = 0 := Nat.le_zero.mp low
    rw [ground]
    exact climbed.pushed shallow 0 (Nat.zero_le _)
  deep nested := nomatch shallow.symm.trans nested
  based running := by
    rcases running with inside | nested
    · exact nomatch inside
    · exact nomatch shallow.symm.trans nested

theorem ends_climbed {recv : Receiver} (climbed : recv.Climbed) (inside : recv.inside = true)
    {turn : Turn RawPtr} (climbs : turn.next.Climbs recv.ctx.stackHeight) :
    (recv.ends turn).Climbed := by
  have shallow : recv.nested = false := by
    cases nested : recv.nested with
    | false => rfl
    | true => exact nomatch inside.symm.trans (climbed.deep nested).1
  have calm : recv.nested ≠ true := by simp [shallow]
  have height := climbed.height shallow
  have pushed := climbed.pushed shallow
  have based := climbed.based (.inl inside)
  have moved : ({ recv with pbuf := { recv.pbuf with ofs := turn.ofs } } : Receiver).Climbed :=
    climbed.congr rfl rfl rfl rfl id
  -- a return leaves the stack no higher than it was
  have paused : ∀ ctx : Context RawPtr, ctx.stackHeight ≤ recv.ctx.stackHeight →
      ({ recv with pbuf := { recv.pbuf with ofs := turn.ofs }, ctx, inside := false } :
        Receiver).Climbed := fun ctx low =>
    ⟨fun _ => Nat.lt_of_le_of_lt low height, fun _ level below =>
      pushed level (Nat.le_trans below low), fun nested => absurd nested calm, fun _ => based⟩
  unfold ends
  cases next : turn.next with
  | hangs => exact climbed
  | tooNested ctx =>
      rw [next] at climbs
      exact ⟨nofun, nofun, fun _ => ⟨rfl, climbs.2⟩, fun _ => based⟩
  | ret ret ctx =>
      rw [next] at climbs
      cases ret with
      | unpackContinue => exact paused ctx climbs
      | unpackParseError => exact paused ctx climbs
      | unpackSuccess => exact complete_climbed moved shallow ctx
      | unpackExtraBytes => exact complete_climbed moved shallow ctx
  | go ctx =>
      rw [next] at climbs
      refine ⟨fun _ => ?_, fun _ => ?_, fun nested => absurd nested calm, fun _ => based⟩
      · rcases climbs with low | ⟨-, room⟩
        · exact Nat.lt_of_le_of_lt low height
        · exact room
      · intro level below
        dsimp only at below ⊢
        split
        · next higher =>
            rcases climbs with low | ⟨raised, -⟩
            · omega
            · rcases Nat.lt_or_ge recv.ctx.stackHeight level with top | under
              · have same : level = ctx.stackHeight := by omega
                rw [same]
                exact List.mem_cons_self
              · exact List.mem_cons_of_mem _ (pushed level under)
        · exact pushed level (by omega)

/-- Every act that does not call a parser again that has nested too deep. -/
theorem act_climbed {recv : Receiver} {act : Act} (climbed : recv.Climbed)
    (calm : recv.Calm act) : (recv.act act).Climbed := by
  unfold Receiver.act
  cases act with
  | reserve sz granted outside =>
      dsimp only
      split
      · exact climbed
      · exact reserve_climbed climbed sz granted outside
  | commit bytes =>
      dsimp only
      split
      · exact climbed
      · exact commit_climbed climbed bytes
  | call granted =>
      dsimp only
      split
      · exact climbed
      · refine call_climbed climbed fun grant => ?_
        subst grant
        exact calm rfl
  | turn env beyond =>
      dsimp only
      split
      · next inside => exact ends_climbed climbed inside (turn_climbs env _ _ _)
      · exact climbed
  | fin index => exact fin_climbed climbed index

/-- Calling it again selects a frame behind the stack. -/
theorem not_selected {recv : Receiver} {act : Act} (climbed : recv.Climbed)
    (again : ¬ recv.Calm act) : ¬ (recv.act act).Selected := by
  intro selected
  have again' : act = .call true ∧ recv.nested = true := by
    unfold Calm at again
    simpa using again
  obtain ⟨rfl, nested⟩ := again'
  obtain ⟨outside, deep⟩ := climbed.deep nested
  obtain ⟨block, base⟩ := Option.ne_none_iff_exists'.mp (climbed.based (.inr nested))
  have called : recv.act (.call true) = { recv with
      heap := recv.heap.refer block, sbf := some (block :: recv.sbf.getD []), inside := true } := by
    simp only [Receiver.act, outside, call, base]
    rfl
  rw [called] at selected
  exact Nat.not_lt_of_le deep (selected rfl).1

theorem run_selected_iff {recv : Receiver} (climbed : recv.Climbed) (acts : List Act) :
    (∀ n, (recv.run (acts.take n)).Selected) ↔ Run.Along act Calm recv acts := by
  induction acts generalizing recv with
  | nil =>
      refine iff_of_true (fun n => ?_) trivial
      rw [List.take_nil]
      exact climbed.selected
  | cons first rest ih =>
      constructor
      · intro selected
        have calm : recv.Calm first := by
          by_contra again
          exact not_selected climbed again (selected 1)
        exact ⟨calm, (ih (act_climbed climbed calm)).mp fun n => selected (n + 1)⟩
      · rintro ⟨calm, along⟩ n
        cases n with
        | zero => exact climbed.selected
        | succ n => exact (ih (act_climbed climbed calm)).mpr along n

/-- Whenever the loop runs, its frame lies in the stack and has been initialised,
exactly if the parser is never called again after it has nested too deep. -/
theorem stack_bounded (memory : ℕ → StackMem) (acts : List Act) :
    (∀ n, ((start memory).run (acts.take n)).Selected) ↔
      Run.Along act Calm (start memory) acts :=
  run_selected_iff (climbed_start memory) acts

def generous : Env RawPtr := ⟨fun _ => true, fun _ _ => .work⟩

/-- Sixteen arrays of one element, one in the other, then another call. -/
def nestedCall : List Act :=
  [.reserve 16 true fun _ => 0, .commit (List.replicate 16 0x91), .call true] ++
    List.replicate 16 (.turn generous fun _ => 0) ++ [.call true]

def zeros : ℕ → StackMem := fun _ => ⟨.initial, .work, 0, 0, .nil⟩

/-- The second call runs on the seventeenth frame. -/
theorem nestedCall_selects : ¬ ∀ n, ((start zeros).run (nestedCall.take n)).Selected := by
  intro selected
  have inside : ((start zeros).run (nestedCall.take 20)).inside = true := by decide +kernel
  have height : ((start zeros).run (nestedCall.take 20)).ctx.stackHeight = 16 := by
    decide +kernel
  have room := (selected 20 inside).1
  rw [height] at room
  exact Nat.lt_irrefl 16 room

end Receiver

end Cyue.Handler
