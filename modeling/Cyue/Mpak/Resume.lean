import Cyue.Mpak.Natural

/-!
# Parsing on with more bytes

A turn that does not wait for bytes does the same when more bytes lie behind
those it has seen, and a turn that waits leaves the context alone.  So the
loop on a longer buffer is the loop on the shorter one, resumed.
-/

namespace Cyue.Mpak

open Context

variable {ρ : Type}

namespace Cursor

/-- `longer` has `more` behind the unread bytes of `cur`. -/
structure Extends (cur longer : Cursor ρ) (more : List UInt8) : Prop where
  unread : longer.unread = cur.unread ++ more
  rawAt : ∀ offset len, offset + len ≤ cur.unread.length →
    longer.rawAt offset len = cur.rawAt offset len

theorem Extends.advance {cur longer : Cursor ρ} {more : List UInt8}
    (ext : cur.Extends longer more) {used : Nat} (available : used ≤ cur.unread.length) :
    (cur.advance used).Extends (longer.advance used) more := by
  constructor
  · rw [advance_unread, advance_unread, ext.unread, List.drop_append_of_le_length available]
  · intro offset len inside
    rw [advance_unread, List.length_drop] at inside
    exact ext.rawAt (used + offset) len (by omega)

theorem Extends.length {cur longer : Cursor ρ} {more : List UInt8}
    (ext : cur.Extends longer more) : cur.unread.length ≤ longer.unread.length := by
  rw [ext.unread, List.length_append]
  exact Nat.le_add_right _ _

theorem Extends.take {cur longer : Cursor ρ} {more : List UInt8}
    (ext : cur.Extends longer more) {count : Nat} (enough : ¬ cur.unread.length < count) :
    longer.unread.take count = cur.unread.take count := by
  rw [ext.unread, List.take_append_of_le_length (Nat.not_lt.mp enough)]

end Cursor

/-! ## Bytes used by a turn -/

/-- The outcome is not to wait, and uses at most `count` bytes. -/
def Step.Within (count : Nat) : Step ρ → Prop
  | .go _ used | .done _ used | .error _ used | .assertion _ used => used ≤ count
  | .wait _ => False

theorem Step.Within.mono {step : Step ρ} {count larger : Nat} (within : step.Within count)
    (bound : count ≤ larger) : step.Within larger := by
  cases step with
  | wait ctx => exact within
  | _ => exact Nat.le_trans within bound

theorem pushStack_within {ctx : Context ρ} {obj : Option Slot} {used count : Nat}
    (bound : used ≤ count) : (ctx.pushStack obj used).Within count := by
  unfold pushStack
  cases obj with
  | none => exact bound
  | some slot =>
      dsimp only
      split <;> exact bound

theorem popStack_within {ctx : Context ρ} {used count : Nat} (bound : used ≤ count) :
    (ctx.popStack used).Within count := by
  unfold popStack
  split
  · exact bound
  · dsimp only
    split <;> exact bound

theorem lengthCheck_within {malloc : Malloc} {ctx : Context ρ} {used count : Nat}
    (bound : used ≤ count) : (lengthCheck malloc ctx used).Within count := by
  unfold lengthCheck
  dsimp only
  split
  · split
    · exact bound
    · split
      · exact popStack_within bound
      · exact pushStack_within bound
  · split
    · exact bound
    · split
      · exact popStack_within bound
      · exact pushStack_within bound
  · exact bound

theorem stepInitial_within (malloc : Malloc) (ctx : Context ρ) (b : UInt8) :
    (stepInitial malloc ctx b).Within 1 := by
  unfold stepInitial
  dsimp only
  split_ifs
  · exact popStack_within (Nat.le_refl 1)
  · exact Nat.le_refl 1
  · exact lengthCheck_within (Nat.le_refl 1)
  · exact lengthCheck_within (Nat.le_refl 1)
  · exact popStack_within (Nat.le_refl 1)
  · exact popStack_within (Nat.le_refl 1)
  · exact popStack_within (Nat.le_refl 1)
  · exact Nat.le_refl 1
  · exact popStack_within (Nat.le_refl 1)
  · exact Nat.le_refl 1

theorem stepLength_within {malloc : Malloc} {ctx : Context ρ} {cur : Cursor ρ}
    (enough : ¬ cur.unread.length < ctx.top.requireLen) :
    (stepLength malloc ctx cur).Within cur.unread.length := by
  unfold stepLength
  dsimp only
  rw [if_neg enough]
  exact lengthCheck_within (Nat.not_lt.mp enough)

theorem stepData_within {ctx : Context ρ} {cur : Cursor ρ}
    (enough : ¬ cur.unread.length < ctx.top.requireLen) :
    (stepData ctx cur).Within cur.unread.length := by
  have bound := Nat.not_lt.mp enough
  unfold stepData
  dsimp only
  rw [if_neg enough]
  split
  · split
    · exact popStack_within bound
    · exact Nat.zero_le _
  · split
    · exact popStack_within bound
    · split
      · exact popStack_within bound
      · exact Nat.zero_le _
  · exact popStack_within bound
  · exact Nat.zero_le _

theorem stepArray_within (ctx : Context ρ) (count : Nat) : (stepArray ctx).Within count := by
  unfold stepArray
  dsimp only
  split
  · exact pushStack_within (Nat.zero_le _)
  · exact popStack_within (Nat.zero_le _)

theorem stepMapVal_within (ctx : Context ρ) (count : Nat) : (stepMapVal ctx).Within count := by
  unfold stepMapVal
  dsimp only
  split
  · exact pushStack_within (Nat.zero_le _)
  · exact popStack_within (Nat.zero_le _)

/-- A turn either waits, and then leaves the context as it is, or does not see
the bytes behind those it has. -/
theorem unpackStep_extends (malloc : Malloc) (ctx : Context ρ) {cur longer : Cursor ρ}
    {more : List UInt8} (ext : cur.Extends longer more) :
    unpackStep malloc ctx cur = .wait ctx ∨
      (unpackStep malloc ctx cur).Within cur.unread.length ∧
        unpackStep malloc ctx longer = unpackStep malloc ctx cur := by
  cases status : ctx.top.status with
  | initial =>
      simp only [unpackStep, status]
      cases unread : cur.unread with
      | nil => exact .inl rfl
      | cons b rest =>
          right
          constructor
          · exact (stepInitial_within malloc ctx b).mono (Nat.succ_pos _)
          · rw [ext.unread, unread, List.cons_append]
  | processLength =>
      simp only [unpackStep, status]
      by_cases short : cur.unread.length < ctx.top.requireLen
      · left
        simp only [stepLength, short, if_true]
      · right
        refine ⟨stepLength_within short, ?_⟩
        have enough : ¬ longer.unread.length < ctx.top.requireLen := by
          have length := ext.length
          omega
        simp only [stepLength, short, enough, if_false, ext.take short]
  | processData =>
      simp only [unpackStep, status]
      by_cases short : cur.unread.length < ctx.top.requireLen
      · left
        simp only [stepData, short, if_true]
      · right
        refine ⟨stepData_within short, ?_⟩
        have enough : ¬ longer.unread.length < ctx.top.requireLen := by
          have length := ext.length
          omega
        have pointer : longer.curP ctx.top.requireLen = cur.curP ctx.top.requireLen :=
          ext.rawAt 0 _ (by omega)
        simp only [stepData, short, enough, if_false, ext.take short, pointer]
  | processArray =>
      simp only [unpackStep, status]
      exact .inr ⟨stepArray_within ctx _, trivial⟩
  | processMap =>
      simp only [unpackStep, status]
      exact .inr ⟨pushStack_within (Nat.zero_le _), trivial⟩
  | processMapVal =>
      simp only [unpackStep, status]
      exact .inr ⟨stepMapVal_within ctx _, trivial⟩

/-- A turn that does not wait is the same with more bytes. -/
theorem turn_extends {malloc : Malloc} {ctx : Context ρ} {cur longer : Cursor ρ} {step : Step ρ}
    {more : List UInt8} (turn : unpackStep malloc ctx cur = step) (busy : step ≠ .wait ctx)
    (ext : cur.Extends longer more) :
    step.Within cur.unread.length ∧ unpackStep malloc ctx longer = step := by
  rcases unpackStep_extends malloc ctx ext with waits | ⟨within, same⟩
  · exact absurd (turn.symm.trans waits) busy
  · rw [turn] at within same
    exact ⟨within, same⟩

theorem turn_within {malloc : Malloc} {ctx : Context ρ} {cur : Cursor ρ} {step : Step ρ}
    (turn : unpackStep malloc ctx cur = step) (busy : step ≠ .wait ctx) :
    step.Within cur.unread.length :=
  (turn_extends turn busy ⟨(List.append_nil _).symm, fun _ _ _ => rfl⟩).1

/-! ## The loop -/

/-- What becomes of a result when the unread bytes are those of `cur`. -/
def Result.resume (malloc : Malloc) (result : Result ρ) (cur : Cursor ρ) : Result ρ :=
  match result.ret with
  | .wait => unpackLoop malloc result.ctx cur
  | .success | .extraBytes =>
      ⟨if cur.unread = [] then .success else .extraBytes, result.ctx, cur⟩
  | .parseError => ⟨.parseError, result.ctx, cur⟩
  | .assertion => ⟨.assertion, result.ctx, cur⟩

/-- The loop on more bytes is the loop on fewer, resumed. -/
theorem unpackLoop_extends (malloc : Malloc) (ctx : Context ρ) (cur : Cursor ρ)
    {longer : Cursor ρ} {more : List UInt8} (ext : cur.Extends longer more) :
    ∃ used, used ≤ cur.unread.length ∧
      (unpackLoop malloc ctx cur).cur = cur.advance used ∧
      unpackLoop malloc ctx longer =
        (unpackLoop malloc ctx cur).resume malloc (longer.advance used) := by
  induction ctx, cur using unpackLoop.induct malloc generalizing longer with
  | case1 ctx cur next used turn ih =>
      obtain ⟨within, same⟩ := turn_extends turn (fun waits => by cases waits) ext
      have bound : used ≤ cur.unread.length := within
      obtain ⟨rest, inside, end_cur, resumed⟩ := ih (ext.advance bound)
      rw [Cursor.advance_unread, List.length_drop] at inside
      refine ⟨used + rest, by omega, ?_, ?_⟩
      · rw [unpackLoop_eq, turn, proceed, end_cur, Cursor.advance_advance]
      · rw [unpackLoop_eq malloc ctx longer, same, proceed, resumed, Cursor.advance_advance,
          unpackLoop_eq malloc ctx cur, turn, proceed]
  | case2 ctx cur next turn =>
      rcases unpackStep_extends malloc ctx ext with waits | ⟨within, same⟩
      · refine ⟨0, Nat.zero_le _, ?_, ?_⟩
        · rw [unpackLoop_eq, turn, proceed, Cursor.advance_zero]
        · rw [unpackLoop_eq malloc ctx cur, waits, Cursor.advance_zero]
          rfl
      · rw [turn] at within
        exact within.elim
  | case3 ctx cur next used turn =>
      obtain ⟨within, same⟩ := turn_extends turn (fun waits => by cases waits) ext
      refine ⟨used, within, by rw [unpackLoop_eq, turn, proceed], ?_⟩
      rw [unpackLoop_eq malloc ctx longer, same, unpackLoop_eq malloc ctx cur, turn, proceed,
        proceed]
      by_cases last : (cur.advance used).unread = []
      · rw [if_pos last]
        rfl
      · rw [if_neg last]
        rfl
  | case4 ctx cur next used turn =>
      obtain ⟨within, same⟩ := turn_extends turn (fun waits => by cases waits) ext
      refine ⟨used, within, by rw [unpackLoop_eq, turn, proceed], ?_⟩
      rw [unpackLoop_eq malloc ctx longer, same, unpackLoop_eq malloc ctx cur, turn, proceed,
        proceed]
      rfl
  | case5 ctx cur next used turn =>
      obtain ⟨within, same⟩ := turn_extends turn (fun waits => by cases waits) ext
      refine ⟨used, within, by rw [unpackLoop_eq, turn, proceed], ?_⟩
      rw [unpackLoop_eq malloc ctx longer, same, unpackLoop_eq malloc ctx cur, turn, proceed,
        proceed]
      rfl

/-! ## Cursors that differ out of reach -/

theorem Cursor.Extends.symm {cur other : Cursor ρ} (ext : cur.Extends other []) :
    other.Extends cur [] := by
  have same : other.unread = cur.unread := by rw [ext.unread, List.append_nil]
  constructor
  · rw [same, List.append_nil]
  · intro offset len inside
    rw [same] at inside
    exact (ext.rawAt offset len inside).symm

theorem unpackStep_congr (malloc : Malloc) (ctx : Context ρ) {cur other : Cursor ρ}
    (ext : cur.Extends other []) : unpackStep malloc ctx other = unpackStep malloc ctx cur := by
  rcases unpackStep_extends malloc ctx ext with waits | ⟨-, same⟩
  · rcases unpackStep_extends malloc ctx ext.symm with too | ⟨-, same⟩
    · rw [waits, too]
    · exact same.symm
  · exact same

/-- The loop only takes payload pointers within the unread bytes. -/
theorem unpackLoop_congr (malloc : Malloc) (ctx : Context ρ) (cur : Cursor ρ) {other : Cursor ρ}
    (ext : cur.Extends other []) : ∃ used, used ≤ cur.unread.length ∧
      (unpackLoop malloc ctx cur).cur = cur.advance used ∧
      unpackLoop malloc ctx other =
        { unpackLoop malloc ctx cur with cur := other.advance used } := by
  induction ctx, cur using unpackLoop.induct malloc generalizing other with
  | case1 ctx cur next used turn ih =>
      have bound : used ≤ cur.unread.length := turn_within turn (by simp)
      obtain ⟨rest, inside, end_cur, same⟩ := ih (ext.advance bound)
      rw [Cursor.advance_unread, List.length_drop] at inside
      refine ⟨used + rest, by omega, ?_, ?_⟩
      · rw [unpackLoop_eq, turn, proceed, end_cur, Cursor.advance_advance]
      · rw [unpackLoop_eq malloc ctx other, unpackStep_congr malloc ctx ext, turn, proceed, same,
          Cursor.advance_advance, unpackLoop_eq malloc ctx cur, turn, proceed]
  | case2 ctx cur next turn =>
      refine ⟨0, Nat.zero_le _, ?_, ?_⟩
      · rw [unpackLoop_eq, turn, proceed, Cursor.advance_zero]
      · rw [unpackLoop_eq malloc ctx other, unpackStep_congr malloc ctx ext, turn,
          Cursor.advance_zero, unpackLoop_eq malloc ctx cur, turn]
        rfl
  | case3 ctx cur next used turn =>
      have bound : used ≤ cur.unread.length := turn_within turn (by simp)
      have same : (other.advance used).unread = (cur.advance used).unread := by
        rw [(ext.advance bound).unread, List.append_nil]
      refine ⟨used, bound, by rw [unpackLoop_eq, turn, proceed], ?_⟩
      rw [unpackLoop_eq malloc ctx other, unpackStep_congr malloc ctx ext, turn, proceed, same,
        unpackLoop_eq malloc ctx cur, turn, proceed]
  | case4 ctx cur next used turn =>
      have bound : used ≤ cur.unread.length := turn_within turn (by simp)
      refine ⟨used, bound, by rw [unpackLoop_eq, turn, proceed], ?_⟩
      rw [unpackLoop_eq malloc ctx other, unpackStep_congr malloc ctx ext, turn, proceed,
        unpackLoop_eq malloc ctx cur, turn, proceed]
  | case5 ctx cur next used turn =>
      have bound : used ≤ cur.unread.length := turn_within turn (by simp)
      refine ⟨used, bound, by rw [unpackLoop_eq, turn, proceed], ?_⟩
      rw [unpackLoop_eq malloc ctx other, unpackStep_congr malloc ctx ext, turn, proceed,
        unpackLoop_eq malloc ctx cur, turn, proceed]

/-! ## A completed message has used bytes -/

theorem popStack_done {ctx next : Context ρ} {used spent : Nat}
    (done : ctx.popStack used = .done next spent) : spent = used := by
  unfold popStack at done
  split at done
  · cases done
    rfl
  · dsimp only at done
    split at done <;> cases done

theorem pushStack_not_done {ctx next : Context ρ} {obj : Option Slot} {used spent : Nat} :
    ctx.pushStack obj used ≠ .done next spent := by
  unfold pushStack
  cases obj with
  | none => simp
  | some slot =>
      dsimp only
      split <;> simp

theorem lengthCheck_done {malloc : Malloc} {ctx next : Context ρ} {used spent : Nat}
    (done : lengthCheck malloc ctx used = .done next spent) : spent = used := by
  unfold lengthCheck at done
  dsimp only at done
  split at done
  · split at done
    · cases done
    · split at done
      · exact popStack_done done
      · exact absurd done pushStack_not_done
  · split at done
    · cases done
    · split at done
      · exact popStack_done done
      · exact absurd done pushStack_not_done
  · cases done

theorem stepInitial_done {malloc : Malloc} {ctx next : Context ρ} {b : UInt8} {spent : Nat}
    (done : stepInitial malloc ctx b = .done next spent) : spent = 1 := by
  unfold stepInitial at done
  dsimp only at done
  split_ifs at done
  · exact popStack_done done
  · exact lengthCheck_done done
  · exact lengthCheck_done done
  · exact popStack_done done
  · exact popStack_done done
  · exact popStack_done done
  · exact popStack_done done

theorem unpackStep_done {malloc : Malloc} {ctx next : Context ρ} {cur : Cursor ρ} {used : Nat}
    (done : unpackStep malloc ctx cur = .done next used) :
    5 * (cur.advance used).unread.length < loopMeasure ctx cur := by
  rw [Cursor.advance_unread, List.length_drop]
  unfold loopMeasure
  cases status : ctx.top.status with
  | initial =>
      simp only [unpackStep, status] at done
      cases unread : cur.unread with
      | nil =>
          rw [unread] at done
          cases done
      | cons b rest =>
          rw [unread] at done
          have one := stepInitial_done done
          rw [List.length_cons]
          omega
  | _ =>
      simp only [ParseState.rank]
      omega

/-- Parsing the next message from the bytes behind a completed one takes less. -/
theorem unpackLoop_done (malloc : Malloc) (ctx : Context ρ) (cur : Cursor ρ)
    (done : (unpackLoop malloc ctx cur).ret = .success ∨
      (unpackLoop malloc ctx cur).ret = .extraBytes) :
    5 * (unpackLoop malloc ctx cur).cur.unread.length < loopMeasure ctx cur := by
  induction ctx, cur using unpackLoop.induct malloc with
  | case1 ctx cur next used turn ih =>
      rw [unpackLoop_eq, turn, proceed] at done ⊢
      exact Nat.lt_trans (ih done) (unpackStep_decreases malloc ctx cur turn)
  | case2 ctx cur next turn =>
      rw [unpackLoop_eq, turn, proceed] at done
      simp at done
  | case3 ctx cur next used turn =>
      rw [unpackLoop_eq, turn, proceed]
      exact unpackStep_done turn
  | case4 ctx cur next used turn =>
      rw [unpackLoop_eq, turn, proceed] at done
      simp at done
  | case5 ctx cur next used turn =>
      rw [unpackLoop_eq, turn, proceed] at done
      simp at done

/-- `UNPACK_SUCCESS` means that nothing is left. -/
theorem unpackLoop_success (malloc : Malloc) (ctx : Context ρ) (cur : Cursor ρ)
    (done : (unpackLoop malloc ctx cur).ret = .success) :
    (unpackLoop malloc ctx cur).cur.unread = [] := by
  induction ctx, cur using unpackLoop.induct malloc with
  | case1 ctx cur next used turn ih =>
      rw [unpackLoop_eq, turn, proceed] at done ⊢
      exact ih done
  | case3 ctx cur next used turn =>
      rw [unpackLoop_eq, turn, proceed] at done ⊢
      by_contra left
      simp only [if_neg left] at done
      cases done
  | case2 ctx cur next turn =>
      rw [unpackLoop_eq, turn, proceed] at done
      cases done
  | case4 ctx cur next used turn =>
      rw [unpackLoop_eq, turn, proceed] at done
      cases done
  | case5 ctx cur next used turn =>
      rw [unpackLoop_eq, turn, proceed] at done
      cases done

end Cyue.Mpak
