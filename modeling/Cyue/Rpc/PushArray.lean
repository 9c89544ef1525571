import Cyue.Mpak.Sequence
import Cyue.Rpc.Repack

/-!
# `push_array` and `push_map`

Both write a header and then the given objects with `<< data`.  The loop of
`push_map` tests the result of a key for being zero, where every other result is
tested for being negative.
-/

namespace Cyue.Rpc

open Mpak Mpak.Packer

/-- `push_array`; its loop is the one of `<< data` for an array. -/
def pushArray (a : List Data) (pk : Packer) : Packer × ℤ :=
  andThen (pk.pushArrayLen a.length) (repackElems a)

/-- The loop of `push_map`. -/
def pushEntries : List (Data × Data) → Packer → Packer × ℤ
  | [], pk => returnCurpos pk
  | (key, val) :: rest, pk =>
      let pushed := key.repack pk
      -- not `< 0`
      if pushed.2 ≠ 0 then (pushed.1, eshort)
      else verify (val.repack pushed.1) (pushEntries rest)

/-- `push_map`, for an array of keys and values taken in pairs. -/
def pushMap (a : List (Data × Data)) (pk : Packer) : Packer × ℤ :=
  andThen (pk.pushMapLen a.length) (pushEntries a)

/-! ## Scalars as pushes -/

def Scalar.pushes : Scalar → List (List UInt8)
  | .raw p => [rawHeader p.length, p]
  | s => [s.encode]

theorem Scalar.pushes_flatten (s : Scalar) : s.pushes.flatten = s.encode := by
  cases s <;> simp [pushes, encode, tree, SignedTree.encode, PackTree.encode]

theorem returnCurpos_takes : Takes returnCurpos [] := by
  intro pk start
  rw [List.flatten_nil, after_nil]
  exact ⟨⟨fun _ => start, fun _ => start⟩, fun _ => rfl⟩

theorem verify_takes {one two : Packer → Packer × ℤ} {front back : List (List UInt8)}
    (first : Takes one front) (second : Takes two back) :
    Takes (fun pk => Rpc.verify (one pk) two) (front ++ back) := by
  refine first.compose second ?_ ?_
  · intro pk failed
    rw [Rpc.verify, if_pos failed]
    exact eshort_negative
  · intro pk fine
    rw [Rpc.verify, if_neg (Int.not_lt.mpr fine)]

theorem Scalar.write_takes (s : Scalar) : Takes s.tree.write s.pushes := by
  cases s with
  | raw p => simpa only [tree, SignedTree.write, PackTree.write, pushes] using pushRaw_takes p
  | _ =>
      simpa only [tree, SignedTree.write, PackTree.write, Signed.write, pushnil, pushBool, pushS32,
        pushDouble, pushes, encode, SignedTree.encode, PackTree.encode, Signed.encode] using
          push_takes _

theorem Scalar.repack_takes (s : Scalar) : Takes s.data.repack s.pushes := by
  have whole := verify_takes s.write_takes returnCurpos_takes
  rw [List.append_nil] at whole
  intro pk start
  rw [s.repack_eq]
  exact whole pk start

/-! ## The loops -/

theorem repackElems_takes (elems : List Scalar) :
    Takes (repackElems (elems.map Scalar.data)) (elems.flatMap Scalar.pushes) := by
  induction elems with
  | nil =>
      intro pk start
      rw [List.map_nil, repackElems]
      exact returnCurpos_takes pk start
  | cons s rest ih =>
      simpa only [List.map_cons, repackElems, List.flatMap_cons] using verify_takes s.repack_takes ih

/-- The array that `push_map` is given. -/
def pairs (entries : List (Scalar × Scalar)) : List (Data × Data) :=
  entries.map fun entry => (entry.1.data, entry.2.data)

def pairPushes (entries : List (Scalar × Scalar)) : List (List UInt8) :=
  entries.flatMap fun entry => entry.1.pushes ++ entry.2.pushes

/-- The position behind every key is zero, which is what the loop of `push_map`
lets pass. -/
def KeysAtZero : List (Scalar × Scalar) → Packer → Prop
  | [], _ => True
  | (key, val) :: rest, pk =>
      (pk.after key.encode).curpos = 0 ∧ KeysAtZero rest (pk.after (key.encode ++ val.encode))

/-- An operation that succeeds where the pushes do under a further condition. -/
def TakesIf (op : Packer → Packer × ℤ) (pushes : List (List UInt8)) (fine : Packer → Prop) : Prop :=
  ∀ pk : Packer, 0 ≤ pk.curpos → (0 ≤ (op pk).2 ↔ Admits pushes pk ∧ fine pk) ∧
    (0 ≤ (op pk).2 → (op pk).1 = pk.after pushes.flatten)

theorem takes_takesIf {op : Packer → Packer × ℤ} {pushes : List (List UInt8)}
    (takes : Takes op pushes) : TakesIf op pushes fun _ => True := by
  intro pk start
  obtain ⟨accepted, done⟩ := takes pk start
  refine ⟨accepted.trans (and_iff_left trivial).symm, fun fine => ?_⟩
  rw [done (accepted.mp fine)]

theorem verify_takesIf {one two : Packer → Packer × ℤ} {front back : List (List UInt8)}
    {fine : Packer → Prop} (first : Takes one front) (second : TakesIf two back fine) :
    TakesIf (fun pk => verify (one pk) two) (front ++ back)
      fun pk => fine (pk.after front.flatten) := by
  intro pk start
  obtain ⟨accepted, done⟩ := first pk start
  rw [admits_append, List.flatten_append, ← after_after]
  by_cases admits : Admits front pk
  · have positive := accepted.mpr admits
    have position : 0 ≤ (pk.after front.flatten).curpos := by
      rwa [done admits] at positive
    obtain ⟨rest, rest_done⟩ := second (pk.after front.flatten) position
    have goes : verify (one pk) two = two (pk.after front.flatten) := by
      rw [verify, if_neg (Int.not_lt.mpr positive), done admits]
    dsimp only
    rw [goes]
    exact ⟨by rw [rest, and_iff_right admits], rest_done⟩
  · have failed : (one pk).2 < 0 := Int.not_le.mp fun positive => admits (accepted.mp positive)
    have result : (verify (one pk) two).2 < 0 := by
      rw [verify, if_pos failed]
      exact eshort_negative
    exact ⟨⟨fun positive => absurd positive (Int.not_le.mpr result),
      fun both => absurd both.1.1 admits⟩, fun positive => absurd positive (Int.not_le.mpr result)⟩

theorem pushEntries_takesIf (entries : List (Scalar × Scalar)) :
    TakesIf (pushEntries (pairs entries)) (pairPushes entries) (KeysAtZero entries) := by
  induction entries with
  | nil => exact takes_takesIf returnCurpos_takes
  | cons entry rest ih =>
      intro pk start
      obtain ⟨key, val⟩ := entry
      obtain ⟨accepted, done⟩ := key.repack_takes pk start
      have pushes : pairPushes ((key, val) :: rest) =
          key.pushes ++ (val.pushes ++ pairPushes rest) := by
        rw [pairPushes, List.flatMap_cons, List.append_assoc, pairPushes]
      have unfolds : pushEntries (pairs ((key, val) :: rest)) pk =
          if (key.data.repack pk).2 ≠ 0 then ((key.data.repack pk).1, eshort)
          else verify (val.data.repack (key.data.repack pk).1) (pushEntries (pairs rest)) := rfl
      rw [pushes, admits_append, List.flatten_append, ← after_after, key.pushes_flatten, unfolds,
        KeysAtZero]
      rw [key.pushes_flatten] at done
      by_cases passed : Admits key.pushes pk ∧ (pk.after key.encode).curpos = 0
      · obtain ⟨admits, zero⟩ := passed
        obtain ⟨others, others_done⟩ := verify_takesIf val.repack_takes ih (pk.after key.encode)
          (Int.le_of_eq zero.symm)
        dsimp only at others others_done
        rw [val.pushes_flatten, after_after] at others
        rw [done admits, if_neg (fun apart => apart zero)]
        exact ⟨by rw [others, and_iff_right admits, and_iff_right zero], others_done⟩
      · have nonzero : (key.data.repack pk).2 ≠ 0 := by
          intro zero
          have admits := accepted.mp (Int.le_of_eq zero.symm)
          rw [done admits] at zero
          exact passed ⟨admits, zero⟩
        rw [if_pos nonzero]
        exact ⟨⟨fun positive => absurd eshort_negative (Int.not_lt.mpr positive),
          fun met => absurd ⟨met.1.1, met.2.1⟩ passed⟩,
          fun positive => absurd eshort_negative (Int.not_lt.mpr positive)⟩

/-! ## Containers -/

/-- With room for all of the bytes the operation writes exactly these; without it, it
fails. -/
def Packs (op : Packer → Packer × ℤ) (bytes : List UInt8) (pk : Packer) : Prop :=
  if bytes.length < pk.pb.available then 0 ≤ (op pk).2 ∧ (op pk).1 = pk.after bytes
  else (op pk).2 < 0

theorem headed_packs (header : List UInt8) {loop : Packer → Packer × ℤ}
    {pushes : List (List UInt8)} {fine : Packer → Prop} (takes : TakesIf loop pushes fine)
    (pk : Packer) :
    Packs (fun pk => andThen (pk.push header) loop) (header ++ pushes.flatten) pk ↔
      ((header ++ pushes.flatten).length < pk.pb.available →
        Stops pushes (pk.after header) ∧ fine (pk.after header)) := by
  rw [Packs, List.length_append]
  by_cases header_room : header.length < pk.pb.available
  · by_cases start : 0 ≤ (pk.after header).curpos
    · obtain ⟨accepted, done⟩ := takes (pk.after header) start
      have goes : andThen (pk.push header) loop = loop (pk.after header) := by
        rw [push_of_room header_room, andThen, if_neg (Int.not_lt.mpr start)]
      rw [goes]
      rw [admits_iff, available_after header_room] at accepted
      rw [after_after] at done
      split
      case isTrue room =>
        have fits : pushes ≠ [] → pushes.flatten.length < pk.pb.available - header.length :=
          fun _ => by omega
        rw [and_iff_left_of_imp done, accepted]
        exact ⟨fun met _ => ⟨met.1.2, met.2⟩, fun met => ⟨⟨fits, (met room).1⟩, (met room).2⟩⟩
      case isFalse full =>
        refine ⟨fun _ room => absurd room full, fun _ => Int.not_le.mp fun positive => full ?_⟩
        obtain ⟨⟨fits, -⟩, -⟩ := accepted.mp positive
        by_cases none : pushes = []
        · rw [none, List.flatten_nil, List.length_nil]
          exact header_room
        · have room := fits none
          omega
    · have result : (andThen (pk.push header) loop).2 < 0 := by
        rw [push_of_room header_room, andThen, if_pos (Int.not_le.mp start)]
        exact Int.not_le.mp start
      have stuck : ¬ Stops pushes (pk.after header) := by
        cases pushes with
        | nil => exact start
        | cons bytes rest => exact fun stops => start stops.1
      split
      case isTrue room =>
        exact ⟨fun met => absurd met.1 (Int.not_le.mpr result), fun met => absurd (met room).1 stuck⟩
      case isFalse full => exact ⟨fun _ room => absurd room full, fun _ => result⟩
  · have full : ¬ header.length + pushes.flatten.length < pk.pb.available := by omega
    have result : (andThen (pk.push header) loop).2 < 0 := by
      rw [push_of_full header_room, andThen, if_pos eshort_negative]
      exact eshort_negative
    rw [if_neg full]
    exact ⟨fun _ room => absurd room full, fun _ => result⟩

theorem pushes_flatten (elems : List Scalar) :
    (elems.flatMap Scalar.pushes).flatten = packed elems := by
  induction elems with
  | nil => rfl
  | cons s rest ih => rw [List.flatMap_cons, List.flatten_append, s.pushes_flatten, ih, packed_cons]

def flattened (entries : List (Scalar × Scalar)) : List Scalar :=
  entries.flatMap fun entry => [entry.1, entry.2]

theorem pairPushes_flatten (entries : List (Scalar × Scalar)) :
    (pairPushes entries).flatten = packed (flattened entries) := by
  have same : pairPushes entries = (flattened entries).flatMap Scalar.pushes := by
    rw [pairPushes, flattened, List.flatMap_assoc]
    simp
  rw [same, pushes_flatten]

theorem pushArray_packs (elems : List Scalar) (pk : Packer) :
    Packs (pushArray (elems.map Scalar.data)) (arrayHeader elems.length ++ packed elems) pk ↔
      ((arrayHeader elems.length ++ packed elems).length < pk.pb.available →
        Stops (elems.flatMap Scalar.pushes) (pk.after (arrayHeader elems.length))) := by
  have met := headed_packs (arrayHeader elems.length)
    (takes_takesIf (repackElems_takes elems)) pk
  rw [pushes_flatten] at met
  simp only [and_true] at met
  have same : pushArray (elems.map Scalar.data) = fun pk =>
      andThen (pk.push (arrayHeader elems.length)) (repackElems (elems.map Scalar.data)) := by
    funext pk
    rw [pushArray, List.length_map, pushArrayLen]
  rw [same]
  exact met

theorem pushMap_packs (entries : List (Scalar × Scalar)) (pk : Packer) :
    Packs (pushMap (pairs entries)) (mapHeader entries.length ++ packed (flattened entries)) pk ↔
      ((mapHeader entries.length ++ packed (flattened entries)).length < pk.pb.available →
        Stops (pairPushes entries) (pk.after (mapHeader entries.length)) ∧
          KeysAtZero entries (pk.after (mapHeader entries.length))) := by
  have met := headed_packs (mapHeader entries.length) (pushEntries_takesIf entries) pk
  rw [pairPushes_flatten] at met
  have same : pushMap (pairs entries) = fun pk =>
      andThen (pk.push (mapHeader entries.length)) (pushEntries (pairs entries)) := by
    funext pk
    rw [pushMap, pairs, List.length_map, pushMapLen]
  rw [same]
  exact met

/-! ## Positions that an `int` can tell -/

/-- Before 2^31 bytes `push_array` does what it is for. -/
theorem pushArray_short (elems : List Scalar) {pk : Packer} (behind : pk.c ≤ pk.pb.last)
    (short : pk.pb.last + (arrayHeader elems.length ++ packed elems).length - pk.c < 2 ^ 31) :
    Packs (pushArray (elems.map Scalar.data)) (arrayHeader elems.length ++ packed elems) pk := by
  rw [pushArray_packs]
  intro _
  rw [List.length_append] at short
  apply stops_short
  · rw [after, Pbuf.append_last]
    exact behind.trans (Nat.le_add_right _ _)
  · rw [after, Pbuf.append_last, pushes_flatten]
    dsimp only
    omega

/-- Before 2^31 bytes `push_map` fails on every map that has entries. -/
theorem pushMap_short (entries : List (Scalar × Scalar)) {pk : Packer}
    (behind : pk.c ≤ pk.pb.last)
    (short : pk.pb.last + (mapHeader entries.length ++ packed (flattened entries)).length - pk.c <
      2 ^ 31) :
    Packs (pushMap (pairs entries)) (mapHeader entries.length ++ packed (flattened entries)) pk ↔
      ((mapHeader entries.length ++ packed (flattened entries)).length < pk.pb.available →
        entries = []) := by
  rw [pushMap_packs]
  refine forall_congr' fun room => ?_
  rw [List.length_append] at short
  constructor
  · rintro ⟨-, keys⟩
    cases entries with
    | nil => rfl
    | cons entry rest =>
        obtain ⟨key, val⟩ := entry
        have pos := key.tree.encode_pos
        have total : (packed (flattened ((key, val) :: rest))).length =
            key.encode.length + (packed (val :: flattened rest)).length := by
          rw [← List.length_append]
          rfl
        have position := curpos_after (mapHeader ((key, val) :: rest).length ++ key.encode)
          behind (by rw [List.length_append]; omega)
        rw [← after_after, keys.1, List.length_append] at position
        rw [Scalar.encode] at position
        omega
  · rintro rfl
    rw [List.length_nil] at short ⊢
    refine ⟨stops_short ?_ ?_, trivial⟩
    · rw [after, Pbuf.append_last]
      exact behind.trans (Nat.le_add_right _ _)
    · rw [after, Pbuf.append_last]
      rw [pairPushes, List.flatMap_nil, List.flatten_nil, List.length_nil]
      dsimp only
      omega

/-- `push_array` writes its header and all scalars, or fails for lack of room, unless a
position cannot be told from an error; `push_map` does so only if besides every key
ends at a position that is zero as an `int`, so that a map with entries fails. -/
theorem pushArray_pushMap (pk : Packer) :
    (∀ elems : List Scalar,
      let bytes := arrayHeader elems.length ++ packed elems
      Packs (pushArray (elems.map Scalar.data)) bytes pk ↔
        (bytes.length < pk.pb.available →
          Stops (elems.flatMap Scalar.pushes) (pk.after (arrayHeader elems.length)))) ∧
    ∀ entries : List (Scalar × Scalar),
      let bytes := mapHeader entries.length ++ packed (flattened entries)
      Packs (pushMap (pairs entries)) bytes pk ↔
        (bytes.length < pk.pb.available →
          Stops (pairPushes entries) (pk.after (mapHeader entries.length)) ∧
            KeysAtZero entries (pk.after (mapHeader entries.length))) :=
  ⟨fun elems => pushArray_packs elems pk, fun entries => pushMap_packs entries pk⟩

/-- A map with one entry fails in an empty buffer of 256 bytes. -/
theorem pushMap_entry_fails :
    let pk := startPack ⟨some 0, [], 256, 0⟩
    let bytes := mapHeader 1 ++ packed (flattened [(.nil, .nil)])
    bytes.length < pk.pb.available ∧ (pushMap (pairs [(.nil, .nil)]) pk).2 = eshort ∧
      ¬ Packs (pushMap (pairs [(.nil, .nil)])) bytes pk := by
  intro pk bytes
  have room : bytes.length < pk.pb.available := by decide
  have failed : (pushMap (pairs [(.nil, .nil)]) pk).2 = eshort := by decide
  refine ⟨room, failed, fun met => ?_⟩
  rw [Packs, if_pos room, failed] at met
  exact absurd met.1 (by decide)

end Cyue.Rpc
