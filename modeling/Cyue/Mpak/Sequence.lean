import Cyue.Mpak.Pack

/-!
# Sequences of pushes

When an operation that makes several pushes one after another succeeds: the free
space has to be larger than all of its bytes, and no push may end at a position
whose `int` is negative, since the next step takes it for an error.
-/

namespace Cyue.Mpak.Packer

def after (pk : Packer) (bytes : List UInt8) : Packer := ⟨pk.pb.append bytes, pk.c⟩

@[simp] theorem after_nil (pk : Packer) : pk.after [] = pk := by
  rw [after, Pbuf.append_nil]

theorem after_after (pk : Packer) (first second : List UInt8) :
    (pk.after first).after second = pk.after (first ++ second) := by
  rw [after, after, after, Pbuf.append_append]

theorem available_after {pk : Packer} {bytes : List UInt8}
    (room : bytes.length < pk.pb.available) :
    (pk.after bytes).pb.available = pk.pb.available - bytes.length := by
  simp only [after, Pbuf.available, Pbuf.append_last, Pbuf.append_limit] at room ⊢
  by_cases within : pk.pb.last ≤ pk.pb.limit
  · rw [if_pos within] at room ⊢
    rw [if_pos (by omega)]
    omega
  · rw [if_neg within] at room ⊢
    rw [if_neg (by omega)]
    omega

theorem eshort_negative : eshort < 0 := by decide

theorem push_of_room {pk : Packer} {bytes : List UInt8} (room : bytes.length < pk.pb.available) :
    pk.push bytes = (pk.after bytes, (pk.after bytes).curpos) :=
  if_neg (Nat.not_le.mpr room)

theorem push_of_full {pk : Packer} {bytes : List UInt8} (full : ¬ bytes.length < pk.pb.available) :
    pk.push bytes = (pk, eshort) :=
  if_pos (Nat.not_lt.mp full)

/-- The positions where the pushes start and end are not negative. -/
def Stops : List (List UInt8) → Packer → Prop
  | [], pk => 0 ≤ pk.curpos
  | bytes :: rest, pk => 0 ≤ pk.curpos ∧ Stops rest (pk.after bytes)

/-- Every push of the sequence finds its room, and no position is negative. -/
def Admits : List (List UInt8) → Packer → Prop
  | [], pk => 0 ≤ pk.curpos
  | bytes :: rest, pk =>
      0 ≤ pk.curpos ∧ bytes.length < pk.pb.available ∧ Admits rest (pk.after bytes)

theorem Admits.start {pushes : List (List UInt8)} {pk : Packer} (admits : Admits pushes pk) :
    0 ≤ pk.curpos := by
  cases pushes with
  | nil => exact admits
  | cons bytes rest => exact admits.1

theorem admits_append (front back : List (List UInt8)) (pk : Packer) :
    Admits (front ++ back) pk ↔ Admits front pk ∧ Admits back (pk.after front.flatten) := by
  induction front generalizing pk with
  | nil =>
      rw [List.nil_append, List.flatten_nil, after_nil]
      exact ⟨fun admits => ⟨admits.start, admits⟩, And.right⟩
  | cons bytes rest ih =>
      rw [List.cons_append, Admits, Admits, ih, List.flatten_cons, ← after_after, and_assoc,
        and_assoc]

/-- The free space is looked at before each push, but all pushes together have to
fit. -/
theorem admits_iff (pushes : List (List UInt8)) (pk : Packer) :
    Admits pushes pk ↔
      (pushes ≠ [] → pushes.flatten.length < pk.pb.available) ∧ Stops pushes pk := by
  induction pushes generalizing pk with
  | nil => exact ⟨fun admits => ⟨fun some => absurd rfl some, admits⟩, And.right⟩
  | cons bytes rest ih =>
      rw [Admits, Stops, ih, List.flatten_cons, List.length_append]
      constructor
      · rintro ⟨start, room, fits, stops⟩
        refine ⟨fun _ => ?_, start, stops⟩
        cases rest with
        | nil => exact room
        | cons other others =>
            have rest_fits := fits (List.cons_ne_nil _ _)
            rw [available_after room] at rest_fits
            omega
      · rintro ⟨fits, start, stops⟩
        have total := fits (List.cons_ne_nil _ _)
        have room : bytes.length < pk.pb.available := by omega
        refine ⟨start, room, fun _ => ?_, stops⟩
        rw [available_after room]
        omega

/-- The position of a writer that has not come 2^31 bytes far. -/
theorem curpos_after {pk : Packer} (bytes : List UInt8) (behind : pk.c ≤ pk.pb.last)
    (short : pk.pb.last + bytes.length - pk.c < 2 ^ 31) :
    (pk.after bytes).curpos = ((pk.pb.last + bytes.length - pk.c : ℕ) : ℤ) := by
  have size : (((pk.after bytes).pb.last : ℕ) : ℤ) - (pk.after bytes).c =
      ((pk.pb.last + bytes.length - pk.c : ℕ) : ℤ) := by
    rw [after, Pbuf.append_last]
    dsimp only
    omega
  rw [curpos, size, intOfSize_eq short]

theorem stops_short {pushes : List (List UInt8)} {pk : Packer} (behind : pk.c ≤ pk.pb.last)
    (short : pk.pb.last + pushes.flatten.length - pk.c < 2 ^ 31) : Stops pushes pk := by
  induction pushes generalizing pk with
  | nil =>
      have position := curpos_after [] behind short
      rw [after_nil] at position
      rw [Stops, position]
      exact Int.natCast_nonneg _
  | cons bytes rest ih =>
      rw [List.flatten_cons, List.length_append] at short
      have position := curpos_after [] behind (by rw [List.length_nil]; omega)
      rw [after_nil] at position
      refine ⟨?_, ih ?_ ?_⟩
      · rw [position]
        exact Int.natCast_nonneg _
      · rw [after, Pbuf.append_last]
        exact behind.trans (Nat.le_add_right _ _)
      · rw [after, Pbuf.append_last]
        dsimp only
        omega

/-- From a position that is not negative, the operation makes these pushes until one
of them fails, and returns the position behind them. -/
def Takes (op : Packer → Packer × ℤ) (pushes : List (List UInt8)) : Prop :=
  ∀ pk : Packer, 0 ≤ pk.curpos → (0 ≤ (op pk).2 ↔ Admits pushes pk) ∧
    (Admits pushes pk →
      op pk = (pk.after pushes.flatten, (pk.after pushes.flatten).curpos))

theorem push_takes (bytes : List UInt8) : Takes (·.push bytes) [bytes] := by
  intro pk start
  rw [List.flatten_singleton]
  by_cases room : bytes.length < pk.pb.available
  · dsimp only
    rw [push_of_room room]
    exact ⟨⟨fun fine => ⟨start, room, fine⟩, fun admits => admits.2.2⟩, fun _ => rfl⟩
  · have refused : ¬ Admits [bytes] pk := fun admits => room admits.2.1
    dsimp only
    rw [push_of_full room]
    exact ⟨⟨fun fine => absurd eshort_negative (Int.not_lt.mpr fine), fun admits => absurd admits refused⟩,
      fun admits => absurd admits refused⟩

/-- One operation after another, where the failure of the first is some error. -/
theorem Takes.compose {one two whole : Packer → Packer × ℤ} {front back : List (List UInt8)}
    (first : Takes one front) (second : Takes two back)
    (stops : ∀ pk, (one pk).2 < 0 → (whole pk).2 < 0)
    (goes : ∀ pk, 0 ≤ (one pk).2 → whole pk = two (one pk).1) :
    Takes whole (front ++ back) := by
  intro pk start
  obtain ⟨accepted, done⟩ := first pk start
  rw [admits_append, List.flatten_append, ← after_after]
  by_cases admits : Admits front pk
  · have fine := accepted.mpr admits
    have position : 0 ≤ (pk.after front.flatten).curpos := by
      rwa [done admits] at fine
    obtain ⟨rest, end_of_rest⟩ := second (pk.after front.flatten) position
    rw [goes pk fine, done admits]
    exact ⟨by rw [rest, and_iff_right admits], fun both => end_of_rest both.2⟩
  · have failed := stops pk (Int.not_le.mp fun fine => admits (accepted.mp fine))
    refine ⟨⟨fun fine => ?_, fun both => absurd both.1 admits⟩, fun both => absurd both.1 admits⟩
    exact absurd fine (Int.not_le.mpr failed)

theorem Takes.andThen {one two : Packer → Packer × ℤ} {front back : List (List UInt8)}
    (first : Takes one front) (second : Takes two back) :
    Takes (fun pk => Packer.andThen (one pk) two) (front ++ back) := by
  refine first.compose second ?_ ?_
  · intro pk failed
    rwa [Packer.andThen, if_pos failed]
  · intro pk fine
    rw [Packer.andThen, if_neg (Int.not_lt.mpr fine)]

theorem pushRaw_takes (p : List UInt8) : Takes (·.pushRaw p) [rawHeader p.length, p] :=
  (push_takes _).andThen (push_takes p)

end Cyue.Mpak.Packer
