import Mathlib.Data.UInt
import Cyue.Mpak.Signed
import Cyue.Rpc.Object

/-!
# Packing decoded objects

`<< data` writes a decoded object, and `push_array` and `push_map` a container
of such objects.  A scalar is written as its type's own operator writes it,
where an integer goes through `operator int`; a container's elements are
written without a header.
-/

namespace Cyue.Mpak.DoubleValue

/-- A `float` converted to a `double`: both by their patterns, a NaN made quiet. -/
def widenSingle (pattern : UInt32) : UInt64 :=
  let sign := pattern.toNat / 2 ^ 31 * 2 ^ 63
  let exponent := pattern.toNat / 2 ^ 23 % 2 ^ 8
  let fraction := pattern.toNat % 2 ^ 23
  let magnitude :=
    if exponent = 255 then
      2047 * 2 ^ 52 + (if fraction = 0 then 0 else fraction % 2 ^ 22 * 2 ^ 29 + 2 ^ 51)
    else if exponent ≠ 0 then (exponent + 896) * 2 ^ 52 + fraction * 2 ^ 29
    else if fraction = 0 then 0
    -- a subnormal number becomes a normal one
    else (fraction.log2 + 874) * 2 ^ 52 + (fraction - 2 ^ fraction.log2) * 2 ^ (52 - fraction.log2)
  UInt64.ofNat (sign + magnitude)

/-- The bits of `via.dec`. -/
def pattern : DoubleValue → UInt64
  | .bits pattern => pattern
  | .single pattern => widenSingle pattern

end Cyue.Mpak.DoubleValue

namespace Cyue.Rpc

open Mpak Mpak.Packer

variable {ρ : Type}

/-- `verify`, with what follows it. -/
def verify (pushed : Packer × ℤ) (next : Packer → Packer × ℤ) : Packer × ℤ :=
  if pushed.2 < 0 then (pushed.1, eshort) else next pushed.1

def returnCurpos (pk : Packer) : Packer × ℤ := (pk, pk.curpos)

mutual

/-- `operator << (const data &)`. -/
def Data.repack : Data → Packer → Packer × ℤ
  | .nil, pk => verify pk.pushnil returnCurpos
  | .boolean f, pk => verify (pk.pushBool f) returnCurpos
  | .integer i64, pk => verify (pk.pushS32 i64.toUInt32.toInt32) returnCurpos
  | .double dec, pk => verify (pk.pushDouble dec.pattern) returnCurpos
  | .raw p, pk => verify (pk.pushRaw p) returnCurpos
  | .array elems, pk => repackElems elems pk
  | .map entries, pk => repackEntries entries pk

def repackElems : List Data → Packer → Packer × ℤ
  | [], pk => returnCurpos pk
  | d :: rest, pk => verify (d.repack pk) (repackElems rest)

def repackEntries : List (Data × Data) → Packer → Packer × ℤ
  | [], pk => returnCurpos pk
  | (key, val) :: rest, pk =>
      verify (key.repack pk) fun pk => verify (val.repack pk) (repackEntries rest)

end

/-! ## Scalars -/

inductive Scalar where
  | nil
  | boolean (f : Bool)
  | integer (i64 : UInt64)
  | double (dec : DoubleValue)
  | raw (p : List UInt8)

namespace Scalar

def data : Scalar → Data
  | .nil => .nil
  | .boolean f => .boolean f
  | .integer i64 => .integer i64
  | .double dec => .double dec
  | .raw p => .raw p

def tree : Scalar → SignedTree
  | .nil => .plain .nil
  | .boolean f => .plain (.boolean f)
  | .integer i64 => .signed (.s32 i64.toUInt32.toInt32)
  | .double dec => .plain (.double dec.pattern)
  | .raw p => .plain (.raw p)

def encode (s : Scalar) : List UInt8 := s.tree.encode

theorem repack_eq (s : Scalar) (pk : Packer) :
    s.data.repack pk = verify (s.tree.write pk) returnCurpos := by
  cases s <;>
    simp only [data, tree, Data.repack, SignedTree.write, PackTree.write, Signed.write]

theorem depth_read (s : Scalar) : s.tree.read.depth = 0 := by
  cases s <;> rfl

end Scalar

mutual

/-- The scalars of an object in the order they are written. -/
def Data.leaves : Data → List Scalar
  | .nil => [.nil]
  | .boolean f => [.boolean f]
  | .integer i64 => [.integer i64]
  | .double dec => [.double dec]
  | .raw p => [.raw p]
  | .array elems => leavesElems elems
  | .map entries => leavesEntries entries

def leavesElems : List Data → List Scalar
  | [] => []
  | d :: rest => d.leaves ++ leavesElems rest

def leavesEntries : List (Data × Data) → List Scalar
  | [] => []
  | (key, val) :: rest => key.leaves ++ (val.leaves ++ leavesEntries rest)

end

def packed (scalars : List Scalar) : List UInt8 := scalars.flatMap Scalar.encode

@[simp] theorem packed_nil : packed [] = [] := rfl

@[simp] theorem packed_cons (s : Scalar) (scalars : List Scalar) :
    packed (s :: scalars) = s.encode ++ packed scalars := rfl

theorem packed_append (first second : List Scalar) :
    packed (first ++ second) = packed first ++ packed second := List.flatMap_append

theorem packed_singleton (s : Scalar) : packed [s] = s.encode := List.append_nil _

/-! ## What is written -/

theorem returnCurpos_writes : Writes returnCurpos [] := by
  intro pk _
  rw [Pbuf.append_nil]
  rfl

theorem verify_writes {first second : Packer → Packer × ℤ} {front back : List UInt8}
    (one : Writes first front) (two : Writes second back) :
    Writes (fun pk => verify (first pk) second) (front ++ back) := by
  intro pk accepted
  dsimp only [verify] at accepted ⊢
  split at accepted
  case isTrue =>
    have failed : ¬ (0 : ℤ) ≤ eshort := by decide
    exact absurd accepted failed
  case isFalse kept =>
    rw [if_neg kept, two _ accepted, one pk (Int.not_lt.mp kept), Pbuf.append_append]

theorem Scalar.repack_writes (s : Scalar) : Writes s.data.repack s.encode := by
  have whole := verify_writes s.tree.write_writes returnCurpos_writes
  rw [List.append_nil] at whole
  intro pk accepted
  rw [s.repack_eq] at accepted ⊢
  exact whole pk accepted

mutual

/-- An object is written as its scalars, without the headers of containers. -/
theorem Data.repack_writes : (d : Data) → Writes d.repack (packed d.leaves)
  | .nil => by
      rw [Data.leaves, packed_singleton]
      exact Scalar.nil.repack_writes
  | .boolean f => by
      rw [Data.leaves, packed_singleton]
      exact (Scalar.boolean f).repack_writes
  | .integer i64 => by
      rw [Data.leaves, packed_singleton]
      exact (Scalar.integer i64).repack_writes
  | .double dec => by
      rw [Data.leaves, packed_singleton]
      exact (Scalar.double dec).repack_writes
  | .raw p => by
      rw [Data.leaves, packed_singleton]
      exact (Scalar.raw p).repack_writes
  | .array elems => by
      rw [Data.leaves]
      simpa only [Data.repack] using repackElems_writes elems
  | .map entries => by
      rw [Data.leaves]
      simpa only [Data.repack] using repackEntries_writes entries

theorem repackElems_writes : (elems : List Data) →
    Writes (repackElems elems) (packed (leavesElems elems))
  | [] => by
      simpa only [repackElems, leavesElems, packed_nil] using returnCurpos_writes
  | d :: rest => by
      rw [leavesElems, packed_append]
      simpa only [repackElems] using verify_writes d.repack_writes (repackElems_writes rest)

theorem repackEntries_writes : (entries : List (Data × Data)) →
    Writes (repackEntries entries) (packed (leavesEntries entries))
  | [] => by
      simpa only [repackEntries, leavesEntries, packed_nil] using returnCurpos_writes
  | (key, val) :: rest => by
      rw [leavesEntries, packed_append, packed_append]
      simpa only [repackEntries] using
        verify_writes key.repack_writes (verify_writes val.repack_writes (repackEntries_writes rest))

end

/-! ## What comes back -/

/-- The parsed object is the given one: containers of the same sizes, the same
numbers and doubles, payloads with the same bytes. -/
inductive Shows (payload : ρ → List UInt8) (cells : List (Obj ρ)) : Obj ρ → Data → Prop where
  | nil : Shows payload cells .nil .nil
  | boolean (f : Bool) : Shows payload cells (.boolean f) (.boolean f)
  | integer (i64 : UInt64) : Shows payload cells (.integer i64) (.integer i64)
  | double (held dec : DoubleValue) (same : held.pattern = dec.pattern) :
      Shows payload cells (.double held) (.double dec)
  | raw (ptr : ρ) : Shows payload cells (.raw ptr (payload ptr).length) (.raw (payload ptr))
  | array (elems : List Data) (ptr : ℕ) (inside : ptr + elems.length ≤ cells.length)
      (each : ∀ i (bound : i < elems.length),
        Shows payload cells (cells.getD (ptr + i) .uninit) elems[i]) :
      Shows payload cells (.array elems.length ptr) (.array elems)
  | map (entries : List (Data × Data)) (ptr : ℕ) (inside : ptr + 2 * entries.length ≤ cells.length)
      (keys : ∀ i (bound : i < entries.length),
        Shows payload cells (cells.getD (ptr + 2 * i) .uninit) entries[i].1)
      (vals : ∀ i (bound : i < entries.length),
        Shows payload cells (cells.getD (ptr + 2 * i + 1) .uninit) entries[i].2) :
      Shows payload cells (.map entries.length ptr) (.map entries)

/-- The objects that `<< data` does not change: an integer has to survive
`operator int` and the lost sign, and a container has lost its header. -/
def Data.restorable : Data → Bool
  | .integer i64 => i64 < 2 ^ 32
  | .array _ => false
  | .map _ => false
  | _ => true

section

variable {payload : ρ → List UInt8} {cells : List (Obj ρ)} {lo : ℕ} {obj : Obj ρ}

theorem low_half (i64 : UInt64) : i64.toUInt32.toUInt64 = i64 ↔ i64 < 2 ^ 32 := by
  rw [UInt64.lt_iff_toNat_lt, ← UInt64.toNat_inj, UInt32.toNat_toUInt64, UInt64.toNat_toUInt32]
  have bound : (2 ^ 32 : UInt64).toNat = 2 ^ 32 := rfl
  rw [bound]
  omega

/-- What the parser makes of a scalar is the scalar, apart from large integers. -/
theorem Scalar.shows_iff {s : Scalar} (denotes : Denotes payload cells lo obj s.tree.read) :
    Shows payload cells obj s.data ↔ s.data.restorable = true := by
  cases s with
  | nil =>
      cases denotes
      exact ⟨fun _ => rfl, fun _ => .nil⟩
  | boolean f =>
      cases denotes
      exact ⟨fun _ => rfl, fun _ => .boolean f⟩
  | integer i64 =>
      cases denotes
      change Shows payload cells (.integer i64.toUInt32.toUInt64) (.integer i64) ↔
        decide (i64 < 2 ^ 32) = true
      rw [decide_eq_true_eq, ← low_half]
      constructor
      · intro shows
        generalize i64.toUInt32.toUInt64 = number at shows ⊢
        cases shows
        rfl
      · intro same
        rw [same]
        exact .integer i64
  | double dec =>
      cases denotes
      exact ⟨fun _ => rfl, fun _ => .double _ dec rfl⟩
  | raw p =>
      cases denotes
      exact ⟨fun _ => rfl, fun _ => .raw _⟩

/-- What the parser makes of a scalar is no container. -/
theorem Scalar.not_container {s : Scalar} (denotes : Denotes payload cells lo obj s.tree.read) :
    (∀ elems, ¬ Shows payload cells obj (.array elems)) ∧
      ∀ entries, ¬ Shows payload cells obj (.map entries) := by
  cases s <;> cases denotes <;> exact ⟨nofun, nofun⟩

end

theorem unpackLoop_nothing {malloc : Malloc} {ctx : Context ρ} {cur : Cursor ρ} (idle : ctx.Idle)
    (unread : cur.unread = []) : (unpackLoop malloc ctx cur).ret = .wait := by
  have initial : ctx.top.status = .initial := by
    rw [Context.top, idle.height, idle.status]
  rw [unpackLoop_eq, unpackStep, initial, unread]
  rfl

/-- The scalars of an object are parsed as a message if there is just one. -/
theorem unpack_packed {malloc : Malloc} {op : Packer → Packer × ℤ} {scalars : List Scalar}
    {pk : Packer} {ctx : Context RawPtr} (writes : Writes op (packed scalars)) (idle : ctx.Idle)
    (start : pk.pb.ofs = pk.pb.last) (written : 0 ≤ (op pk).2)
    (short : (packed scalars).length < 2 ^ 31)
    (grants : ∀ sz, sz ≤ sizeofObject * (packed scalars).length → malloc sz = true) :
    let pb := (op pk).1.pb
    let result := unpackLoop malloc ctx (cursorOf pb)
    (∀ s, scalars = [s] → result.ret = .success ∧ result.cur.unread = []) ∧
    (result.ret = .success → ∃ s, scalars = [s] ∧
      Denotes (payloadOf pb) result.ctx.cells 0 result.ctx.atWork s.tree.read) := by
  intro pb result
  have buffer : pb = pk.pb.append (packed scalars) := congrArg Packer.pb (writes pk written)
  have unread : (cursorOf pb).unread = packed scalars := by
    rw [buffer]
    change (pk.pb.data ++ packed scalars).drop pk.pb.ofs = packed scalars
    rw [start]
    exact List.drop_left
  cases scalars with
  | nil =>
      refine ⟨nofun, fun success => ?_⟩
      have waits : result.ret = .wait := unpackLoop_nothing idle unread
      exact nomatch waits.symm.trans success
  | cons s rest =>
      rw [packed_cons] at unread short grants
      rw [List.length_append] at short grants
      obtain ⟨after, -, denotes, finish⟩ := (unpackLoop_spelled (s.tree.spells_read malloc _) idle
        (cursorOf_reads pb) unread (by rw [Scalar.encode] at short; omega)
          fun sz small => grants sz (small.trans (Nat.mul_le_mul_left _ (Nat.le_add_right _ _)))).1
            (by rw [s.depth_read]; exact Nat.zero_le _)
      have outcome : result = ⟨_, after, _⟩ := finish
      rw [outcome]
      constructor
      · intro one same
        obtain ⟨rfl, rfl⟩ := List.cons.inj same
        refine ⟨rfl, ?_⟩
        rw [Cursor.advance_unread, unread, packed_nil, List.append_nil]
        exact List.drop_length
      · intro success
        refine ⟨s, ?_, denotes⟩
        cases rest with
        | nil => rfl
        | cons other others =>
            have more : packed (other :: others) ≠ [] := by
              rw [packed_cons]
              exact List.append_ne_nil_of_left_ne_nil
                (List.ne_nil_of_length_pos other.tree.encode_pos) _
            dsimp only at success
            rw [if_neg more] at success
            exact nomatch success

/-- An object that is packed again and unpacked comes back if and only if it is
no container and no integer of more than 32 bits. -/
theorem repacked_restored {malloc : Malloc} {d : Data} {pk : Packer} {ctx : Context RawPtr}
    (idle : ctx.Idle) (start : pk.pb.ofs = pk.pb.last) (written : 0 ≤ (d.repack pk).2)
    (short : (packed d.leaves).length < 2 ^ 31)
    (grants : ∀ sz, sz ≤ sizeofObject * (packed d.leaves).length → malloc sz = true) :
    let pb := (d.repack pk).1.pb
    let result := unpackLoop malloc ctx (cursorOf pb)
    (result.ret = .success ∧ result.cur.unread = [] ∧
      Shows (payloadOf pb) result.ctx.cells result.ctx.atWork d) ↔ d.restorable = true := by
  intro pb result
  obtain ⟨one, success⟩ := unpack_packed d.repack_writes idle start written short grants
  have scalar : ∀ s : Scalar, d = s.data → d.leaves = [s] → ((result.ret = .success ∧
      result.cur.unread = [] ∧ Shows (payloadOf pb) result.ctx.cells result.ctx.atWork d) ↔
        d.restorable = true) := by
    intro s same leaf
    obtain ⟨parsed, consumed⟩ := one s leaf
    obtain ⟨s', leaf', denotes⟩ := success parsed
    obtain ⟨rfl, -⟩ := List.cons.inj (leaf.symm.trans leaf')
    have shows_iff := s.shows_iff denotes
    rw [← same] at shows_iff
    exact ⟨fun met => shows_iff.mp met.2.2, fun fine => ⟨parsed, consumed, shows_iff.mpr fine⟩⟩
  cases d with
  | nil => exact scalar .nil rfl rfl
  | boolean f => exact scalar (.boolean f) rfl rfl
  | integer i64 => exact scalar (.integer i64) rfl rfl
  | double dec => exact scalar (.double dec) rfl rfl
  | raw p => exact scalar (.raw p) rfl rfl
  | array elems =>
      refine ⟨fun met => ?_, nofun⟩
      obtain ⟨s, -, denotes⟩ := success met.1
      exact absurd met.2.2 (s.not_container denotes |>.1 elems)
  | map entries =>
      refine ⟨fun met => ?_, nofun⟩
      obtain ⟨s, -, denotes⟩ := success met.1
      exact absurd met.2.2 (s.not_container denotes |>.2 entries)

/-- A raw object comes back. -/
theorem repacked_restored_raw :
    let d := Data.raw [0x61, 0x62]
    let pb := (d.repack (startPack ⟨some 0, [], 256, 0⟩)).1.pb
    let result := unpackLoop (fun _ => true) Context.fresh (cursorOf pb)
    (result.ret = .success ∧ result.cur.unread = [] ∧
      Shows (payloadOf pb) result.ctx.cells result.ctx.atWork d) ↔ d.restorable = true :=
  repacked_restored fresh_idle rfl (by decide) (by decide) fun _ _ => rfl

/-- An array with one nil comes back as nil. -/
theorem array_unwrapped :
    let d := Data.array [.nil]
    let written := d.repack (startPack ⟨some 0, [], 256, 0⟩)
    let result := unpackLoop (fun _ => true) Context.fresh (cursorOf written.1.pb)
    0 ≤ written.2 ∧ result.ret = .success ∧ result.ctx.atWork = .nil ∧
      ¬ Shows (payloadOf written.1.pb) result.ctx.cells result.ctx.atWork d := by
  intro d written result
  have accepted : 0 ≤ written.2 := by decide
  obtain ⟨one, success⟩ := unpack_packed d.repack_writes fresh_idle rfl
    accepted (by decide) fun _ _ => rfl
  have parsed : result.ret = .success := (one .nil rfl).1
  obtain ⟨s, leaf, denotes⟩ := success parsed
  obtain ⟨rfl, -⟩ := List.cons.inj leaf
  refine ⟨accepted, parsed, ?_, Scalar.nil.not_container denotes |>.1 [.nil]⟩
  change Denotes _ _ _ _ .nil at denotes
  generalize result.ctx.atWork = obj at denotes
  cases denotes
  rfl

end Cyue.Rpc
