import Cyue.Handler.Receiver

/-!
# The parser stays inside its input

As long as the parser is not called again after it has nested too deep, and no
refused container makes it read a length of more than 32 bits, its stack is
ordered in every state of a session.  If moreover every length that it
consumes fits, it reads unread bytes only, ends inside the buffer, and its
assertions hold.
-/

namespace Cyue.Handler

open Mpak Mpak.Release Shared Memory

namespace Receiver

def Resumable (recv : Receiver) : Act → Prop
  | .call granted => granted = true → recv.nested = false
  | .turn _ beyond => recv.inside = true → Narrow (recv.input beyond) recv.ctx recv.pbuf.ofs
  | _ => True

/-- The acts that moreover consume only what fits. -/
def Fitting (recv : Receiver) : Act → Prop
  | .call granted => granted = true → recv.nested = false
  | .turn _ beyond => recv.inside = true →
      Narrow (recv.input beyond) recv.ctx recv.pbuf.ofs ∧
        Fits (recv.input beyond) recv.ctx recv.pbuf.ofs
  | _ => True

instance (recv : Receiver) : ∀ act, Decidable (recv.Resumable act)
  | .call _ | .turn _ _ => inferInstanceAs (Decidable (_ → _))
  | .reserve _ _ _ | .commit _ | .fin _ => isTrue trivial

instance (recv : Receiver) : ∀ act, Decidable (recv.Fitting act)
  | .call _ => inferInstanceAs (Decidable (_ → _))
  | .turn _ _ => inferInstanceAs (Decidable (_ → _ ∧ _))
  | .reserve _ _ _ | .commit _ | .fin _ => isTrue trivial

theorem Fitting.resumable {recv : Receiver} {act : Act} (fitting : recv.Fitting act) :
    recv.Resumable act := by
  cases act with
  | turn env beyond => exact fun inside => (fitting inside).1
  | call granted => exact fitting
  | reserve | commit | fin => trivial

structure Steady (recv : Receiver) : Prop where
  halted : recv.nested = true → recv.inside = false
  ordered : recv.nested = false → Ordered recv.ctx
  near : recv.nested = false → ∀ beyond, Near (recv.input beyond) recv.ctx recv.pbuf.ofs
  room : recv.pbuf.last ≤ recv.pbuf.limit
  wide : recv.pbuf.limit < 2 ^ 63
  positive : recv.pbuf.base ≠ none → 0 < recv.pbuf.limit
  empty : recv.pbuf.base = none → recv.pbuf.data = []

theorem Steady.shallow {recv : Receiver} (steady : recv.Steady) (inside : recv.inside = true) :
    recv.nested = false := by
  cases nested : recv.nested with
  | false => rfl
  | true => exact nomatch inside.symm.trans (steady.halted nested)

theorem Steady.last {recv : Receiver} (steady : recv.Steady) (beyond : Mem) :
    (recv.input beyond).last < 2 ^ 63 := Nat.lt_of_le_of_lt steady.room steady.wide

/-- A context with nothing but its bottom frame. -/
theorem ordered_bottom {ctx : Context RawPtr} (ground : ctx.stackHeight = 0)
    (bottom : (ctx.stack 0).d = .work) (initial : (ctx.stack 0).status = .initial) :
    Ordered ctx where
  height := by
    rw [ground]
    decide
  bottom := bottom
  linked level under := by
    rw [ground] at under
    exact absurd under (Nat.not_lt_zero level)
  top := by
    refine .inl ?_
    rw [Context.top, ground, Header, initial]
    trivial

theorem ordered_initContext {ctx : Context RawPtr} (bottom : (ctx.stack 0).d = .work) :
    Ordered (initContext ctx) :=
  ordered_bottom rfl (by simpa [initContext] using bottom) (by simp [initContext])

theorem steady_start (memory : ℕ → StackMem) : (start memory).Steady where
  halted nested := nomatch nested
  ordered _ := ordered_bottom rfl (by simp [start]) (by simp [start])
  near _ _ := near_of_status (by simp [start, Context.top, Context.fresh])
    (by simp [start, Context.top, Context.fresh])
  room := Nat.le_refl _
  wide := by
    change 0 < 2 ^ 63
    decide
  positive based := absurd rfl based
  empty _ := rfl

theorem moved_room {pbuf : Pbuf} (fresh sz : ℕ) (outside : Mem)
    (positive : pbuf.base ≠ none → 0 < pbuf.limit) (empty : pbuf.base = none → pbuf.data = []) :
    (moved pbuf fresh sz outside).last ≤ (moved pbuf fresh sz outside).limit ∧
      0 < (moved pbuf fresh sz outside).limit := by
  unfold moved
  cases base : pbuf.base with
  | some block =>
      have old : 0 < pbuf.limit := positive (by simp [base])
      have covers := Pbuf.growLimit_enough (sz + (copied pbuf outside).length) pbuf.limit
        (sz + (copied pbuf outside).length) old (Nat.le_add_left _ _)
      have grows := Pbuf.growLimit_ge (sz + (copied pbuf outside).length) pbuf.limit
        (sz + (copied pbuf outside).length)
      refine ⟨?_, Nat.lt_of_lt_of_le old grows⟩
      exact Nat.le_trans (Nat.le_add_left _ _) covers
  | none =>
      have grows := Pbuf.growLimit_ge sz Pbuf.initialBufferSize sz
      refine ⟨?_, Nat.lt_of_lt_of_le (by decide) grows⟩
      simp only [Pbuf.last, empty base, List.length_nil]
      exact Nat.zero_le _

/-- The unread bytes are still unread. -/
theorem moved_ofs (pbuf : Pbuf) (fresh sz : ℕ) (outside : Mem) :
    (moved pbuf fresh sz outside).ofs = 0 ∨
      (moved pbuf fresh sz outside).last = pbuf.last ∧
        (moved pbuf fresh sz outside).ofs = pbuf.ofs := by
  unfold moved
  split
  · exact .inl rfl
  · exact .inr ⟨rfl, rfl⟩

theorem moved_close {pbuf : Pbuf} (fresh sz : ℕ) (outside : Mem) (close : pbuf.ofs ≤ pbuf.last) :
    (moved pbuf fresh sz outside).ofs ≤ (moved pbuf fresh sz outside).last := by
  rcases moved_ofs pbuf fresh sz outside with front | ⟨last, ofs⟩
  · rw [front]
    exact Nat.zero_le _
  · rw [last, ofs]
    exact close

theorem reserve_steady {recv : Receiver} (steady : recv.Steady) (sz : ℕ) (granted : Bool)
    (outside : Mem) : (recv.reserve sz granted outside).Steady := by
  obtain ⟨room, positive⟩ :=
    moved_room recv.heap.next sz outside steady.positive steady.empty
  unfold reserve
  dsimp only
  split
  · exact steady
  · split
    · next grant =>
        refine ⟨steady.halted, steady.ordered, ?_, room, grant.2, fun _ => positive, ?_⟩
        · intro shallow beyond reads
          exact moved_close _ _ _ (steady.near shallow beyond reads)
        · intro none
          exact nomatch (moved_base _ _ _ _).symm.trans none
    · exact steady

theorem commit_steady {recv : Receiver} (steady : recv.Steady) (bytes : List UInt8) :
    (recv.commit bytes).Steady := by
  unfold commit
  split
  · exact steady
  · next block base =>
      split
      · next fits =>
          refine ⟨steady.halted, steady.ordered, ?_, ?_, steady.wide, steady.positive, ?_⟩
          · intro shallow beyond reads
            have close := steady.near shallow beyond reads
            change recv.pbuf.ofs ≤ (recv.pbuf.append bytes).last
            rw [Pbuf.append_last]
            exact Nat.le_trans close (Nat.le_add_right _ _)
          · change (recv.pbuf.append bytes).last ≤ recv.pbuf.limit
            rw [Pbuf.append_last]
            exact fits
          · exact fun none => nomatch none.symm.trans base
      · exact steady

theorem call_steady {recv : Receiver} (steady : recv.Steady) {granted : Bool}
    (calm : granted = true → recv.nested = false) : (recv.call granted).Steady := by
  unfold call
  split
  · exact steady
  · split
    · next grant =>
        have shallow : recv.nested ≠ true := by simp [calm grant]
        exact { steady with halted := fun nested => absurd nested shallow }
    · exact { steady with }

theorem fin_steady {recv : Receiver} (steady : recv.Steady) (index : ℕ) :
    (recv.fin index).Steady := by
  unfold fin
  split
  · exact steady
  · exact { steady with }

/-- What the running loop does in its next turn. -/
theorem Steady.does {recv : Receiver} (steady : recv.Steady) (inside : recv.inside = true)
    (env : Env RawPtr) {beyond : Mem}
    (narrow : Narrow (recv.input beyond) recv.ctx recv.pbuf.ofs) :
    Does (recv.input beyond) recv.ctx recv.pbuf.ofs (recv.turn env beyond) :=
  turn_does (steady.ordered (steady.shallow inside)) (steady.last beyond)
    (steady.near (steady.shallow inside) beyond) narrow

theorem ends_steady {recv : Receiver} (steady : recv.Steady) (inside : recv.inside = true)
    {beyond : Mem} {turn : Turn RawPtr}
    (does : Does (recv.input beyond) recv.ctx recv.pbuf.ofs turn) : (recv.ends turn).Steady := by
  have shallow := steady.shallow inside
  have calm : recv.nested ≠ true := by simp [shallow]
  have ordered := steady.ordered shallow
  have leaves := fun {after : Context RawPtr} (left : turn.next.Leaves after) =>
    does.leaves ordered (steady.near shallow beyond) left
  have completes : ∀ ctx : Context RawPtr, turn.next.Completes ctx →
      (({ recv with pbuf := { recv.pbuf with ofs := turn.ofs } } : Receiver).complete ctx).Steady :=
    fun ctx completed =>
      ⟨fun _ => rfl, fun _ => ordered_initContext (does.completes ordered completed).1,
        fun _ _ => near_of_status (by simp [complete]) (by simp [complete]), steady.room,
        steady.wide, steady.positive, steady.empty⟩
  unfold ends
  cases next : turn.next with
  | hangs => exact steady
  | tooNested ctx => exact ⟨fun _ => rfl, nofun, nofun, steady.room, steady.wide,
      steady.positive, steady.empty⟩
  | go ctx =>
      obtain ⟨ordered, near, -⟩ := leaves (.inl next)
      exact ⟨fun nested => absurd nested calm, fun _ => ordered, fun _ _ => near, steady.room,
        steady.wide, steady.positive, steady.empty⟩
  | ret ret ctx =>
      cases ret with
      | unpackContinue =>
          obtain ⟨ordered, near, -⟩ := leaves (.inr (.inl next))
          exact ⟨fun _ => rfl, fun _ => ordered, fun _ _ => near, steady.room, steady.wide,
            steady.positive, steady.empty⟩
      | unpackParseError =>
          obtain ⟨ordered, near, -⟩ := leaves (.inr (.inr next))
          exact ⟨fun _ => rfl, fun _ => ordered, fun _ _ => near, steady.room, steady.wide,
            steady.positive, steady.empty⟩
      | unpackSuccess => exact completes ctx (.inl next)
      | unpackExtraBytes => exact completes ctx (.inr next)

theorem act_steady {recv : Receiver} {act : Act} (steady : recv.Steady)
    (resumable : recv.Resumable act) : (recv.act act).Steady := by
  unfold Receiver.act
  cases act with
  | reserve sz granted outside =>
      dsimp only
      split
      · exact steady
      · exact reserve_steady steady sz granted outside
  | commit bytes =>
      dsimp only
      split
      · exact steady
      · exact commit_steady steady bytes
  | call granted =>
      dsimp only
      split
      · exact steady
      · exact call_steady steady resumable
  | turn env beyond =>
      dsimp only
      split
      · next inside => exact ends_steady steady inside (steady.does inside env (resumable inside))
      · exact steady
  | fin index => exact fin_steady steady index

/-! ## Inside the buffer -/

/-- The next turn of the running loop is safe. -/
def TurnSafe (recv : Receiver) : Act → Prop
  | .turn env beyond => recv.inside = true →
      Safe (recv.input beyond) recv.pbuf.ofs (recv.turn env beyond)
  | _ => True

instance (recv : Receiver) : ∀ act, Decidable (recv.TurnSafe act)
  | .turn _ _ => inferInstanceAs (Decidable (_ → _))
  | .call _ | .reserve _ _ _ | .commit _ | .fin _ => isTrue trivial

theorem turn_safe {recv : Receiver} (steady : recv.Steady)
    (close : recv.pbuf.ofs ≤ recv.pbuf.last) {act : Act} (fitting : recv.Fitting act) :
    recv.TurnSafe act := by
  cases act with
  | turn env beyond =>
      intro inside
      obtain ⟨narrow, fits⟩ := fitting inside
      exact (steady.does inside env narrow).safe (steady.ordered (steady.shallow inside)) close
        (steady.last beyond) fits
  | reserve | commit | call | fin => trivial

theorem ends_close {recv : Receiver} (close : recv.pbuf.ofs ≤ recv.pbuf.last)
    {turn : Turn RawPtr} (inside : turn.ofs ≤ recv.pbuf.last) :
    (recv.ends turn).pbuf.ofs ≤ (recv.ends turn).pbuf.last := by
  unfold ends
  cases turn.next with
  | hangs => exact close
  | go ctx => exact inside
  | tooNested ctx => exact inside
  | ret ret ctx => cases ret <;> exact inside

theorem act_close {recv : Receiver}
    (close : recv.pbuf.ofs ≤ recv.pbuf.last) {act : Act} (safe : recv.TurnSafe act) :
    (recv.act act).pbuf.ofs ≤ (recv.act act).pbuf.last := by
  unfold Receiver.act
  cases act with
  | reserve sz granted outside =>
      dsimp only [reserve]
      split
      · exact close
      · split
        · exact close
        · split
          · exact moved_close _ _ _ close
          · exact close
  | commit bytes =>
      dsimp only [commit]
      split
      · exact close
      · split
        · exact close
        · split
          · change recv.pbuf.ofs ≤ (recv.pbuf.append bytes).last
            rw [Pbuf.append_last]
            exact Nat.le_trans close (Nat.le_add_right _ _)
          · exact close
  | call granted =>
      dsimp only [call]
      split
      · exact close
      · split
        · exact close
        · split <;> exact close
  | turn env beyond =>
      dsimp only
      split
      · next inside => exact ends_close close (safe inside).ofs
      · exact close
  | fin index =>
      dsimp only [fin]
      split <;> exact close

/-- In a session whose acts are fitting, every turn of the loop reads unread bytes
of the buffer only, ends inside it, and its assertions hold. -/
theorem unpack_stays_inside (memory : ℕ → StackMem) (acts : List Act)
    (fitting : Run.Along act Fitting (start memory) acts) :
    Run.Along act TurnSafe (start memory) acts := by
  have inside : (start memory).pbuf.ofs ≤ (start memory).pbuf.last := Nat.le_refl _
  refine fitting.gives (fun recv => recv.Steady ∧ recv.pbuf.ofs ≤ recv.pbuf.last)
    ⟨steady_start memory, inside⟩ ?keeps ?meets
  case keeps =>
    rintro recv act ⟨steady, close⟩ fits
    exact ⟨act_steady steady fits.resumable, act_close close (turn_safe steady close fits)⟩
  case meets =>
    rintro recv act ⟨steady, close⟩ fits
    exact turn_safe steady close fits

def parseOnce (bytes : List UInt8) (turns : ℕ) : List Act :=
  [.reserve bytes.length true fun _ => 0, .commit bytes, .call true] ++
    List.replicate turns (.turn generous fun _ => 0)

/-- An array of a raw of two bytes and a `float`. -/
theorem unpack_stays_inside_array :
    Run.Along act TurnSafe (start zeros)
      (parseOnce [0x92, 0xa2, 0x68, 0x69, 0xca, 0x3f, 0x80, 0x00, 0x00] 7) :=
  unpack_stays_inside zeros _ (by decide +kernel)

/-- A `BIG_FLOAT_16` of no bytes: the assertion on its length fails, and four bytes
are read from behind the buffer. -/
theorem big_float_unsafe :
    ¬ Run.Along act TurnSafe (start zeros) (parseOnce [0xd6, 0x00, 0x00] 3) := by
  decide +kernel

end Receiver

end Cyue.Handler
