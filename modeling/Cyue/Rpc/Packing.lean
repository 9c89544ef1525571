import Cyue.Mpak.Sequence
import Cyue.Mpak.RoundTrip
import Cyue.Util.Msgid

/-!
# Packing requests and responses

`pack_request`, `pack_error` and `pack_response` are sequences of steps, each of
them under `verify_success`.  That macro is made for functions that return a
`bool`, and what it returns for a failed step is `false`.
-/

namespace Cyue.Rpc

open Bytes Mpak Mpak.Packer

abbrev Step := Packer → Packer × ℤ

/-- `verify_success`, with what follows it. -/
def verifySuccess (done : Packer × ℤ) (next : Step) : Packer × ℤ :=
  if done.2 < 0 then (done.1, 0) else next done.1

def returnLen (pk : Packer) : Packer × ℤ := (pk, pk.curpos)

def request : UInt8 := 0

def response : UInt8 := 1

def packResponse (p : Step) (msgid : UInt32) (pk : Packer) : Packer × ℤ :=
  verifySuccess (pk.pushArrayLen 4) fun pk =>
    verifySuccess (pk.pushU8 response) fun pk =>
      verifySuccess (pk.pushU32 msgid) fun pk =>
        verifySuccess pk.pushnil fun pk => verifySuccess (p pk) returnLen

/-! ## Sequences of steps -/

def verifyAll : List Step → Step
  | [], pk => returnLen pk
  | step :: rest, pk => verifySuccess (step pk) (verifyAll rest)

def Fails : List Step → Packer → Prop
  | [], _ => False
  | step :: rest, pk => (step pk).2 < 0 ∨ Fails rest (step pk).1

def final (steps : List Step) (pk : Packer) : Packer :=
  steps.foldl (fun pk step => (step pk).1) pk

theorem verifyAll_done {steps : List Step} {pk : Packer} (fine : ¬ Fails steps pk) :
    verifyAll steps pk = returnLen (final steps pk) := by
  induction steps generalizing pk with
  | nil => rfl
  | cons step rest ih =>
      rw [Fails, not_or] at fine
      rw [verifyAll, verifySuccess, if_neg fine.1, ih fine.2]
      rfl

/-- A head of pushes fails, or the steps behind it do. -/
theorem fails_pushes (pushes : List (List UInt8)) (rest : List Step) {pk : Packer}
    (start : 0 ≤ pk.curpos) :
    Fails (pushes.map (fun bytes pk => pk.push bytes) ++ rest) pk ↔
      ¬ Admits pushes pk ∨ Fails rest (pk.after pushes.flatten) := by
  induction pushes generalizing pk with
  | nil =>
      rw [List.map_nil, List.nil_append, List.flatten_nil, after_nil, Admits]
      exact ⟨.inr, fun either => either.resolve_left fun negative => negative start⟩
  | cons bytes pushes ih =>
      rw [List.map_cons, List.cons_append, Fails, Admits, List.flatten_cons, ← after_after]
      by_cases room : bytes.length < pk.pb.available
      · rw [push_of_room room]
        by_cases position : 0 ≤ (pk.after bytes).curpos
        · rw [ih position, and_iff_right start, and_iff_right room, or_iff_right]
          exact Int.not_lt.mpr position
        · have stuck : ¬ Admits pushes (pk.after bytes) := fun admits => position admits.start
          exact ⟨fun _ => .inl fun admits => stuck admits.2.2,
            fun _ => .inl (Int.not_le.mp position)⟩
      · rw [push_of_full room]
        exact ⟨fun _ => .inl fun admits => room admits.2.1, fun _ => .inl eshort_negative⟩

theorem final_pushes {pushes : List (List UInt8)} (rest : List Step) {pk : Packer}
    (admits : Admits pushes pk) :
    final (pushes.map (fun bytes pk => pk.push bytes) ++ rest) pk =
      final rest (pk.after pushes.flatten) := by
  induction pushes generalizing pk with
  | nil => rw [List.map_nil, List.nil_append, List.flatten_nil, after_nil]
  | cons bytes pushes ih =>
      obtain ⟨-, room, later⟩ := admits
      have first : (pk.push bytes).1 = pk.after bytes := by rw [push_of_room room]
      rw [List.flatten_cons, ← after_after, ← ih later, ← first]
      rfl

/-! ## Messages -/

/-- The bytes are one object for the parser, and the tree says which. -/
def Complete (bytes : List UInt8) (tree : PackTree) : Prop :=
  bytes ≠ [] ∧ ∀ (ρ : Type) (malloc : Malloc) (payload : ρ → List UInt8),
    Spells malloc payload bytes tree

/-- From `pk` on a functor has appended `n` objects.  It may have moved the buffer. -/
def Packed (n : ℕ) (pk : Packer) (done : Packer × ℤ) : Prop :=
  ∃ parts : List Part, parts.length = n ∧ (∀ part ∈ parts, Complete part.1 part.2) ∧
    done.1.c = pk.c ∧ done.1.pb.data = pk.pb.data ++ spelling parts

/-- The writer has appended the four parts of a message of the given kind. -/
def Appended (pb : Pbuf) (kind : List PackTree → Prop) (pk : Packer) : Prop :=
  ∃ parts : List Part, parts.length = 4 ∧ (∀ part ∈ parts, Complete part.1 part.2) ∧
    kind (parts.map Prod.snd) ∧ pk.c = pb.last ∧
      pk.pb.data = pb.data ++ (arrayHeader 4 ++ spelling parts)

def head (kind : UInt8) (msgid : UInt32) : List (List UInt8) :=
  [arrayHeader 4, (PackTree.u8 kind).encode, (PackTree.u32 msgid).encode]

def pushes (head : List (List UInt8)) : List Step := head.map fun bytes pk => pk.push bytes

def responseSteps (p : Step) (msgid : UInt32) : List Step :=
  pushes (head response msgid ++ [PackTree.nil.encode]) ++ [p]

theorem packResponse_eq (p : Step) (msgid : UInt32) (pk : Packer) :
    packResponse p msgid pk = verifyAll (responseSteps p msgid) pk :=
  rfl

section

variable (pb : Pbuf) (kind : UInt8) (msgid : UInt32)

theorem startPack_curpos : (startPack pb).curpos = 0 := by
  have none : ((startPack pb).pb.last : ℤ) - (startPack pb).c = 0 := Int.sub_self _
  rw [curpos, none]
  rfl

/-- Up to 2^31 bytes only the room matters. -/
theorem admits_start {pushes : List (List UInt8)} (some : pushes ≠ [])
    (short : pushes.flatten.length < 2 ^ 31) :
    Admits pushes (startPack pb) ↔ pushes.flatten.length < pb.available := by
  have stops : Stops pushes (startPack pb) := by
    refine stops_short le_rfl ?_
    change pb.last + pushes.flatten.length - pb.last < 2 ^ 31
    omega
  rw [admits_iff, and_iff_left stops]
  exact ⟨fun fits => fits some, fun room _ => room⟩

theorem head_length (small : kind ≤ 0x7f) : (head kind msgid).flatten.length = 7 := by
  have fix : (PackTree.u8 kind).encode = [kind] := by rw [PackTree.encode, if_pos small]
  have header : arrayHeader 4 = [0x94] := rfl
  have id : (PackTree.u32 msgid).encode = 0xce :: beBytes 4 msgid.toNat := by rw [PackTree.encode]
  simp [head, fix, header, id]

end

/-- The steps behind the head, and whether one of them fails. -/
theorem steps_head {front : List (List UInt8)} {n : ℕ} (length : front.flatten.length = n)
    (short : n < 2 ^ 31) (some : front ≠ []) (rest : List Step) (pb : Pbuf) :
    (¬ Fails (pushes front ++ rest) (startPack pb) ↔
      n < pb.available ∧ ¬ Fails rest ((startPack pb).after front.flatten)) ∧
    (n < pb.available →
      final (pushes front ++ rest) (startPack pb) = final rest ((startPack pb).after front.flatten)) := by
  subst length
  constructor
  · rw [pushes, fails_pushes _ _ (startPack_curpos pb).ge, admits_start pb some short, not_or,
      not_not]
  · exact fun room => final_pushes rest ((admits_start pb some short).mpr room)

theorem fails_single (step : Step) (pk : Packer) : ¬ Fails [step] pk ↔ 0 ≤ (step pk).2 := by
  rw [Fails, Fails, or_false, Int.not_lt]

def behindHead (kind : UInt8) (msgid : UInt32) (pb : Pbuf) : Packer :=
  (startPack pb).after (head kind msgid).flatten

section

variable (pb : Pbuf)

/-- The steps of a response: eight bytes are pushed, and then the functor packs. -/
theorem responseSteps_run (p : Step) (msgid : UInt32) :
    let done := p ((behindHead response msgid pb).after [0xc0])
    (¬ Fails (responseSteps p msgid) (startPack pb) ↔ 8 < pb.available ∧ 0 ≤ done.2) ∧
      (8 < pb.available → final (responseSteps p msgid) (startPack pb) = done.1) := by
  intro done
  let front := head response msgid ++ [PackTree.nil.encode]
  have flat : front.flatten = (head response msgid).flatten ++ [0xc0] := by
    rw [List.flatten_append]
    rfl
  have length : front.flatten.length = 8 := by
    rw [flat, List.length_append, head_length response msgid (by decide)]
    rfl
  have there : (startPack pb).after front.flatten = (behindHead response msgid pb).after [0xc0] := by
    rw [flat, ← after_after]
    rfl
  have run := steps_head length (by decide) (List.cons_ne_nil _ _) [p] pb
  rw [fails_single, there] at run
  exact run

end

/-- `fiber::operator ()`, for what the coroutine packs: a functor of `pack_response`
that is under the same macro. -/
def fiberCall (packResponse : Step) : Step := fun pk => verifySuccess (packResponse pk) returnLen

/-- When the coroutine fails without having written anything, the head of a response is
reported as a whole message. -/
theorem packResponse_hides {inner : Step} {msgid : UInt32} {pb : Pbuf} (room : 8 < pb.available)
    (failed : inner ((behindHead response msgid pb).after [0xc0]) =
      ((behindHead response msgid pb).after [0xc0], eshort)) :
    (packResponse (fiberCall inner) msgid (startPack pb)).2 = 8 := by
  have hidden : fiberCall inner ((behindHead response msgid pb).after [0xc0]) =
      ((behindHead response msgid pb).after [0xc0], 0) := by
    rw [fiberCall, verifySuccess, failed, if_pos eshort_negative]
  obtain ⟨fine, last⟩ := responseSteps_run pb (fiberCall inner) msgid
  rw [hidden] at fine last
  have length : ((head response msgid).flatten ++ [0xc0]).length = 8 := by
    rw [List.length_append, head_length response msgid (by decide)]
    rfl
  have size : pb.last + ((head response msgid).flatten ++ [0xc0]).length - pb.last = 8 := by
    rw [length, Nat.add_sub_cancel_left]
  have eight : (startPack pb).pb.last + ((head response msgid).flatten ++ [0xc0]).length -
      (startPack pb).c = 8 := size
  have position := curpos_after ((head response msgid).flatten ++ [0xc0]) (le_refl (startPack pb).c)
    (by rw [eight]; decide)
  rw [eight] at position
  rw [packResponse_eq, verifyAll_done (fine.mpr ⟨room, le_rfl⟩), last room, behindHead, after_after]
  exact position

end Cyue.Rpc
