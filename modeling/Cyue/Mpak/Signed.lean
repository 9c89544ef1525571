import Cyue.Mpak.RoundTrip

/-!
# Signed numbers

The push operators for signed numbers write tags of their own, and the parser
reads the number behind such a tag as it reads an unsigned one: only a negative
fixnum and a number of 64 bits keep their sign.
-/

namespace Cyue.Mpak

open Bytes Context Packer

variable {ρ : Type}

namespace Packer

def pushS8 (pk : Packer) (s : Int8) : Packer × Int :=
  if 0xe0 ≤ s.toUInt8 then pk.push [s.toUInt8] else pk.push [0xd0, s.toUInt8]

def pushS16 (pk : Packer) (s : Int16) : Packer × Int :=
  pk.push (0xd1 :: beBytes 2 s.toUInt16.toNat)

def pushS32 (pk : Packer) (s : Int32) : Packer × Int :=
  pk.push (0xd2 :: beBytes 4 s.toUInt32.toNat)

def pushS64 (pk : Packer) (s : Int64) : Packer × Int :=
  pk.push (0xd3 :: beBytes 8 s.toUInt64.toNat)

end Packer

/-- `operator long long`, where its assertion holds. -/
def Obj.longLong : Obj ρ → Option Int64
  | .integer i64 => some i64.toInt64
  | _ => none

/-- A number with the width of the operator it is pushed with. -/
inductive Signed where
  | s8 (s : Int8)
  | s16 (s : Int16)
  | s32 (s : Int32)
  | s64 (s : Int64)
  deriving DecidableEq

namespace Signed

def value : Signed → Int64
  | .s8 s => s.toInt64
  | .s16 s => s.toInt64
  | .s32 s => s.toInt64
  | .s64 s => s

def write : Signed → Packer → Packer × Int
  | .s8 s, pk => pk.pushS8 s
  | .s16 s, pk => pk.pushS16 s
  | .s32 s, pk => pk.pushS32 s
  | .s64 s, pk => pk.pushS64 s

def encode : Signed → List UInt8
  | .s8 s => if 0xe0 ≤ s.toUInt8 then [s.toUInt8] else [0xd0, s.toUInt8]
  | .s16 s => 0xd1 :: beBytes 2 s.toUInt16.toNat
  | .s32 s => 0xd2 :: beBytes 4 s.toUInt32.toNat
  | .s64 s => 0xd3 :: beBytes 8 s.toUInt64.toNat

/-- The unsigned number that the parser takes the bytes for. -/
def read : Signed → PackTree
  | .s8 s =>
      if 0xe0 ≤ s.toUInt8 then .u64 (UInt64.ofNat (2 ^ 64 - 256 + s.toUInt8.toNat))
      else .u8 s.toUInt8
  | .s16 s => .u16 s.toUInt16
  | .s32 s => .u32 s.toUInt32
  | .s64 s => .u64 s.toUInt64

/-- The numbers whose sign the parser does not lose. -/
def exact : Signed → Bool
  | .s8 s => -32 ≤ s
  | .s16 s => 0 ≤ s
  | .s32 s => 0 ≤ s
  | .s64 _ => true

theorem write_writes (s : Signed) : Writes s.write s.encode := by
  cases s with
  | s8 s =>
      intro pk
      simp only [write, pushS8, encode]
      split
      · exact push_writes [s.toUInt8] pk
      · exact push_writes [0xd0, s.toUInt8] pk
  | s16 s => exact push_writes _
  | s32 s => exact push_writes _
  | s64 s => exact push_writes _

theorem encode_pos (s : Signed) : 0 < s.encode.length := by
  cases s with
  | s8 s =>
      rw [encode]
      split <;> simp
  | _ => simp [encode]

/-! ## What the parser makes of a signed number -/

/-- A negative fixnum has none of the other tags. -/
theorem fixnum_tag {b : UInt8} (fix : 0xe0 ≤ b) :
    ¬ b ≤ 0x7f ∧ b &&& 0xe0 ≠ 0xa0 ∧ b &&& 0xf0 ≠ 0x90 ∧ b &&& 0xf0 ≠ 0x80 ∧ b ≠ 0xc0 ∧
      b ≠ 0xc2 ∧ b ≠ 0xc3 ∧ ¬ b ≤ 0xdf := by
  have tags : ∀ x : BitVec 8, 0xe0 ≤ x → ¬ x ≤ 0x7f ∧ x &&& 0xe0 ≠ 0xa0 ∧ x &&& 0xf0 ≠ 0x90 ∧
      x &&& 0xf0 ≠ 0x80 ∧ x ≠ 0xc0 ∧ x ≠ 0xc2 ∧ x ≠ 0xc3 ∧ ¬ x ≤ 0xdf := by decide
  have differs : ∀ {x y : UInt8}, x.toBitVec ≠ y.toBitVec → x ≠ y :=
    fun apart same => apart (congrArg UInt8.toBitVec same)
  obtain ⟨positive, raw, array, map, nil, no, yes, table⟩ := tags b.toBitVec fix
  exact ⟨positive, differs raw, differs array, differs map, differs nil, differs no, differs yes,
    table⟩

theorem stepInitial_fixnum (malloc : Malloc) {b : UInt8} (fix : 0xe0 ≤ b) (ctx : Context ρ) :
    stepInitial malloc ctx b =
      (ctx.write ctx.top.d (.integer (UInt64.ofNat (2 ^ 64 - 256 + b.toNat)))).popStack 1 := by
  obtain ⟨positive, raw, array, map, nil, no, yes, table⟩ := fixnum_tag fix
  simp only [stepInitial]
  rw [if_neg positive, if_neg raw, if_neg array, if_neg map, if_neg nil, if_neg no, if_neg yes,
    if_neg (fun range => table range.2), if_pos fix]

theorem spells_read (malloc : Malloc) (payload : ρ → List UInt8) (s : Signed) :
    Spells malloc payload s.encode s.read := by
  cases s with
  | s8 s =>
      rw [encode, read]
      split
      case isTrue fix =>
        exact spells_tag rfl (fun _ _ => .u64 _) (stepInitial_fixnum malloc fix)
      case isFalse =>
        have bytes : [0xd0, s.toUInt8] = 0xd0 :: beBytes 1 s.toUInt8.toNat := by simp [beBytes]
        rw [bytes]
        refine spells_number rfl (fun _ _ => .u8 _) (fun _ => rfl) ?_
        exact stepData_integer (by simp) s.toUInt8.toNat_lt (by simp)
  | s16 s =>
      refine spells_number rfl (fun _ _ => .u16 _) (fun _ => rfl) ?_
      exact stepData_integer (by simp) s.toUInt16.toNat_lt (by simp)
  | s32 s =>
      refine spells_number rfl (fun _ _ => .u32 _) (fun _ => rfl) ?_
      exact stepData_integer (by simp) s.toUInt32.toNat_lt (by simp)
  | s64 s =>
      refine spells_number rfl (fun _ _ => .u64 _) (fun _ => rfl) ?_
      exact stepData_integer (by simp) s.toUInt64.toNat_lt (by simp)

theorem depth_read (s : Signed) : s.read.depth = 0 := by
  cases s with
  | s8 s =>
      rw [read]
      split <;> rw [PackTree.depth] <;> simp
  | _ => rfl

/-- The parser fills the upper bits with zeros, which is the sign of a number
that is not negative. -/
theorem zeros_are_sign {w : ℕ} (narrow : w < 64) (x : BitVec w) :
    x.setWidth 64 = x.signExtend 64 ↔ 0 ≤ x.toInt := by
  constructor
  · intro same
    have wide : (x.setWidth 64).toInt = x.toNat := by
      rw [BitVec.toInt_setWidth]
      have small : x.toNat < 2 ^ 63 :=
        x.isLt.trans_le (Nat.pow_le_pow_right (by decide) (by omega))
      rw [Int.bmod_eq_of_le] <;> omega
    rw [← BitVec.toInt_signExtend_of_le narrow.le, ← same, wide]
    exact Int.natCast_nonneg _
  · intro positive
    exact (BitVec.signExtend_eq_setWidth_of_msb_false (BitVec.msb_eq_false_iff_two_mul_lt.mpr
      (BitVec.toInt_pos_iff.mp positive))).symm

theorem s8_exact (s : Int8) (wide : ¬ 0xe0 ≤ s.toUInt8) :
    s.toUInt8.toUInt64.toInt64 = s.toInt64 ↔ -32 ≤ s := by
  have sign := zeros_are_sign (by decide) s.toBitVec
  have tags : ∀ x : BitVec 8, ¬ 0xe0 ≤ x → (0 ≤ x.toInt ↔ BitVec.sle (-32) x) := by decide
  rw [← Int64.toBitVec_inj]
  exact sign.trans ((tags s.toBitVec wide).trans Iff.rfl)

theorem fixnum_exact (s : Int8) (fix : 0xe0 ≤ s.toUInt8) :
    (UInt64.ofNat (2 ^ 64 - 256 + s.toUInt8.toNat)).toInt64 = s.toInt64 ∧ -32 ≤ s := by
  have tags : ∀ x : BitVec 8, 0xe0 ≤ x → BitVec.ofNat 64 (2 ^ 64 - 256 + x.toNat) =
      x.signExtend 64 ∧ BitVec.sle (-32) x := by decide
  rw [← Int64.toBitVec_inj]
  exact tags s.toBitVec fix

/-- The accessor returns the number if and only if the parser kept its sign. -/
theorem longLong_read {payload : ρ → List UInt8} {cells : List (Obj ρ)} {lo : ℕ} {obj : Obj ρ}
    {s : Signed} (denotes : Denotes payload cells lo obj s.read) :
    obj.longLong = some s.value ↔ s.exact = true := by
  cases s with
  | s8 s =>
      rw [read] at denotes
      rw [exact, value, decide_eq_true_eq]
      split at denotes
      case isTrue fix =>
        cases denotes
        obtain ⟨same, small⟩ := fixnum_exact s fix
        rw [Obj.longLong, same]
        exact ⟨fun _ => small, fun _ => rfl⟩
      case isFalse wide =>
        cases denotes
        rw [Obj.longLong, Option.some.injEq]
        exact s8_exact s wide
  | s16 s =>
      cases denotes
      rw [Obj.longLong, value, exact, Option.some.injEq, decide_eq_true_eq,
        Int16.le_iff_toInt_le, ← Int64.toBitVec_inj]
      exact zeros_are_sign (by decide) s.toBitVec
  | s32 s =>
      cases denotes
      rw [Obj.longLong, value, exact, Option.some.injEq, decide_eq_true_eq,
        Int32.le_iff_toInt_le, ← Int64.toBitVec_inj]
      exact zeros_are_sign (by decide) s.toBitVec
  | s64 s =>
      cases denotes
      exact ⟨fun _ => rfl, fun _ => rfl⟩

end Signed

/-! ## Signed numbers in a tree -/

/-- What a caller can write when signed numbers are pushed as well. -/
inductive SignedTree where
  | signed (s : Signed)
  | plain (tree : PackTree)
  | array (elems : List SignedTree)
  | map (entries : List (SignedTree × SignedTree))

namespace SignedTree

mutual

def write : SignedTree → Packer → Packer × Int
  | .signed s, pk => s.write pk
  | .plain tree, pk => tree.write pk
  | .array elems, pk => andThen (pk.pushArrayLen elems.length) (writeElems elems)
  | .map entries, pk => andThen (pk.pushMapLen entries.length) (writeEntries entries)

def writeElems : List SignedTree → Packer → Packer × Int
  | [], pk => (pk, 0)
  | elem :: rest, pk => andThen (elem.write pk) (writeElems rest)

def writeEntries : List (SignedTree × SignedTree) → Packer → Packer × Int
  | [], pk => (pk, 0)
  | (key, val) :: rest, pk =>
      andThen (key.write pk) fun pk => andThen (val.write pk) (writeEntries rest)

end

mutual

def encode : SignedTree → List UInt8
  | .signed s => s.encode
  | .plain tree => tree.encode
  | .array elems => arrayHeader elems.length ++ encodeElems elems
  | .map entries => mapHeader entries.length ++ encodeEntries entries

def encodeElems : List SignedTree → List UInt8
  | [] => []
  | elem :: rest => elem.encode ++ encodeElems rest

def encodeEntries : List (SignedTree × SignedTree) → List UInt8
  | [] => []
  | (key, val) :: rest => key.encode ++ (val.encode ++ encodeEntries rest)

end

mutual

/-- The tree that the parser takes the message for. -/
def read : SignedTree → PackTree
  | .signed s => s.read
  | .plain tree => tree
  | .array elems => .array (readElems elems)
  | .map entries => .map (readEntries entries)

def readElems : List SignedTree → List PackTree
  | [] => []
  | elem :: rest => elem.read :: readElems rest

def readEntries : List (SignedTree × SignedTree) → List (PackTree × PackTree)
  | [] => []
  | (key, val) :: rest => (key.read, val.read) :: readEntries rest

end

def flatten (entries : List (SignedTree × SignedTree)) : List SignedTree :=
  entries.flatMap fun entry => [entry.1, entry.2]

@[simp] theorem flatten_cons (entry : SignedTree × SignedTree)
    (rest : List (SignedTree × SignedTree)) :
    flatten (entry :: rest) = entry.1 :: entry.2 :: flatten rest := rfl

def children : SignedTree → List SignedTree
  | .array elems => elems
  | .map entries => flatten entries
  | _ => []

def sub : SignedTree → List ℕ → Option SignedTree
  | tree, [] => some tree
  | tree, index :: path => tree.children[index]?.bind fun child => child.sub path

/-- The message of a tree with the tree that the parser takes it for. -/
def part (tree : SignedTree) : Part := (tree.encode, tree.read)

/-! ## Messages -/

theorem encode_pos (tree : SignedTree) : 0 < tree.encode.length := by
  cases tree with
  | signed s =>
      rw [encode]
      exact s.encode_pos
  | plain tree =>
      rw [encode]
      exact tree.encode_pos
  | array elems =>
      rw [encode, arrayHeader]
      split_ifs <;> simp
  | map entries =>
      rw [encode, mapHeader]
      split_ifs <;> simp

mutual

theorem write_writes : (tree : SignedTree) → Writes tree.write tree.encode
  | .signed s => by simpa [write, encode] using s.write_writes
  | .plain tree => by simpa [write, encode] using tree.write_writes
  | .array elems => by
      simpa [write, encode, pushArrayLen] using
        andThen_writes (push_writes _) (writeElems_writes elems)
  | .map entries => by
      simpa [write, encode, pushMapLen] using
        andThen_writes (push_writes _) (writeEntries_writes entries)

theorem writeElems_writes : (elems : List SignedTree) →
    Writes (writeElems elems) (encodeElems elems)
  | [] => by
      intro pk _
      simp [writeElems, encodeElems]
  | elem :: rest => by
      simpa [writeElems, encodeElems] using
        andThen_writes (write_writes elem) (writeElems_writes rest)

theorem writeEntries_writes : (entries : List (SignedTree × SignedTree)) →
    Writes (writeEntries entries) (encodeEntries entries)
  | [] => by
      intro pk _
      simp [writeEntries, encodeEntries]
  | (key, val) :: rest => by
      simpa [writeEntries, encodeEntries] using
        andThen_writes (write_writes key)
          (andThen_writes (write_writes val) (writeEntries_writes rest))

end

theorem encodeElems_eq (elems : List SignedTree) :
    encodeElems elems = spelling (elems.map part) := by
  induction elems with
  | nil => simp [encodeElems, spelling]
  | cons elem rest ih => simp [encodeElems, part, ih]

theorem encodeEntries_eq (entries : List (SignedTree × SignedTree)) :
    encodeEntries entries = spelling ((flatten entries).map part) := by
  induction entries with
  | nil => simp [encodeEntries, flatten, spelling]
  | cons entry rest ih => simp [encodeEntries, part, ih]

theorem readElems_eq (elems : List SignedTree) :
    readElems elems = (elems.map part).map Prod.snd := by
  induction elems with
  | nil => rw [readElems, List.map_nil, List.map_nil]
  | cons elem rest ih => rw [readElems, ih, List.map_cons, List.map_cons, part]

theorem flatten_readEntries (entries : List (SignedTree × SignedTree)) :
    PackTree.flatten (readEntries entries) = ((flatten entries).map part).map Prod.snd := by
  induction entries with
  | nil => simp [readEntries, PackTree.flatten, flatten]
  | cons entry rest ih => simp [readEntries, part, ih]

theorem readEntries_length (entries : List (SignedTree × SignedTree)) :
    (readEntries entries).length = entries.length := by
  induction entries with
  | nil => rw [readEntries, List.length_nil, List.length_nil]
  | cons entry rest ih => rw [readEntries, List.length_cons, List.length_cons, ih]

theorem parts_some (elems : List SignedTree) : ∀ p ∈ elems.map part, p.1 ≠ [] := by
  intro p member
  obtain ⟨elem, -, rfl⟩ := List.mem_map.mp member
  exact List.ne_nil_of_length_pos elem.encode_pos

mutual

/-- The message of a tree with signed numbers spells what the parser makes of it. -/
theorem spells_read (malloc : Malloc) (payload : ρ → List UInt8) :
    (tree : SignedTree) → Spells malloc payload tree.encode tree.read
  | .signed s => by
      rw [encode, read]
      exact s.spells_read malloc payload
  | .plain tree => by
      rw [encode, read]
      exact spells_encode malloc payload tree
  | .array elems => by
      rw [encode, encodeElems_eq, read, readElems_eq]
      have whole := spells_array (parts_some elems) (spells_all malloc payload elems)
      rwa [List.length_map] at whole
  | .map entries => by
      rw [encode, encodeEntries_eq, read, ← readEntries_length]
      exact spells_map (flatten_readEntries entries) (parts_some _)
        (spells_entries malloc payload entries)

theorem spells_all (malloc : Malloc) (payload : ρ → List UInt8) :
    (elems : List SignedTree) → ∀ p ∈ elems.map part, Spells malloc payload p.1 p.2
  | [] => by simp
  | elem :: rest => by
      have head := spells_read malloc payload elem
      have others := spells_all malloc payload rest
      intro p member
      rcases List.mem_cons.mp member with rfl | later
      · exact head
      · exact others p later

theorem spells_entries (malloc : Malloc) (payload : ρ → List UInt8) :
    (entries : List (SignedTree × SignedTree)) →
      ∀ p ∈ (flatten entries).map part, Spells malloc payload p.1 p.2
  | [] => by simp [flatten]
  | (key, val) :: rest => by
      have left := spells_read malloc payload key
      have right := spells_read malloc payload val
      have others := spells_entries malloc payload rest
      intro p member
      rw [flatten_cons, List.map_cons, List.map_cons] at member
      rcases List.mem_cons.mp member with rfl | member
      · exact left
      · rcases List.mem_cons.mp member with rfl | later
        · exact right
        · exact others p later

end

/-! ## The objects of a decoded tree -/

end SignedTree

namespace Context

/-- The objects that an object holds: the elements of an array, the keys and
values of a map. -/
def child (ctx : Context ρ) : Obj ρ → ℕ → Option (Obj ρ)
  | .array size ptr, index => if index < size then ctx.cells[ptr + index]? else none
  | .map size ptr, index => if index < 2 * size then ctx.cells[ptr + index]? else none
  | _, _ => none

def sub (ctx : Context ρ) : Obj ρ → List ℕ → Option (Obj ρ)
  | obj, [] => some obj
  | obj, index :: path => (ctx.child obj index).bind fun child => ctx.sub child path

theorem elem_denotes {payload : ρ → List UInt8} {ctx : Context ρ} {lo index : ℕ} {obj : Obj ρ}
    {elems : List PackTree} {tree : PackTree}
    (denotes : Denotes payload ctx.cells lo obj (.array elems))
    (there : elems[index]? = some tree) :
    ∃ inner, ctx.child obj index = some inner ∧ Denotes payload ctx.cells lo inner tree := by
  obtain ⟨bound, rfl⟩ := List.getElem?_eq_some_iff.mp there
  cases denotes with
  | array _ ptr owned inside each =>
      have denotes := each index bound
      have room : ptr + index < ctx.cells.length := by omega
      rw [List.getD_eq_getElem?_getD, List.getElem?_eq_getElem room, Option.getD_some] at denotes
      exact ⟨_, by rw [child, if_pos bound, List.getElem?_eq_getElem room], denotes⟩

theorem entry_denotes {payload : ρ → List UInt8} {ctx : Context ρ} {lo index : ℕ} {obj : Obj ρ}
    {entries : List (PackTree × PackTree)} {tree : PackTree}
    (denotes : Denotes payload ctx.cells lo obj (.map entries))
    (there : (PackTree.flatten entries)[index]? = some tree) :
    ∃ inner, ctx.child obj index = some inner ∧ Denotes payload ctx.cells lo inner tree := by
  obtain ⟨bound, rfl⟩ := List.getElem?_eq_some_iff.mp there
  have under : index < 2 * entries.length := by rwa [PackTree.flatten_length] at bound
  cases denotes with
  | map _ ptr owned inside each =>
      have denotes := each index bound
      have room : ptr + index < ctx.cells.length := by omega
      rw [List.getD_eq_getElem?_getD, List.getElem?_eq_getElem room, Option.getD_some] at denotes
      exact ⟨_, by rw [child, if_pos under, List.getElem?_eq_getElem room], denotes⟩

end Context

namespace SignedTree

/-- Every signed number of the tree is what the accessor returns for the object
at its position. -/
def Returned (ctx : Context ρ) (tree : SignedTree) : Prop :=
  ∀ path s, tree.sub path = some (.signed s) →
    ∃ obj, ctx.sub ctx.atWork path = some obj ∧ obj.longLong = some s.value

def Exact (tree : SignedTree) : Prop :=
  ∀ path s, tree.sub path = some (.signed s) → s.exact = true

variable {payload : ρ → List UInt8} {ctx : Context ρ} {lo : ℕ}

theorem child_denotes {obj : Obj ρ} {tree child : SignedTree} {index : ℕ}
    (denotes : Denotes payload ctx.cells lo obj tree.read)
    (there : tree.children[index]? = some child) :
    ∃ inner, ctx.child obj index = some inner ∧ Denotes payload ctx.cells lo inner child.read := by
  cases tree with
  | signed s => exact nomatch there
  | plain tree => exact nomatch there
  | array elems =>
      have there : elems[index]? = some child := there
      rw [read] at denotes
      refine elem_denotes denotes ?_
      rw [readElems_eq, List.map_map, List.getElem?_map, there]
      rfl
  | map entries =>
      have there : (flatten entries)[index]? = some child := there
      rw [read] at denotes
      refine entry_denotes denotes ?_
      rw [flatten_readEntries, List.map_map, List.getElem?_map, there]
      rfl

/-- Every position of the tree is one of the object. -/
theorem sub_denotes {obj : Obj ρ} {tree inner : SignedTree} {path : List ℕ}
    (denotes : Denotes payload ctx.cells lo obj tree.read) (there : tree.sub path = some inner) :
    ∃ found, ctx.sub obj path = some found ∧ Denotes payload ctx.cells lo found inner.read := by
  induction path generalizing obj tree with
  | nil =>
      obtain rfl := Option.some.inj there
      exact ⟨obj, rfl, denotes⟩
  | cons index path ih =>
      rw [sub, Option.bind_eq_some_iff] at there
      obtain ⟨child, member, deeper⟩ := there
      obtain ⟨held, taken, denoted⟩ := child_denotes denotes member
      obtain ⟨found, reached, denoting⟩ := ih denoted deeper
      exact ⟨found, by rw [Context.sub, taken, Option.bind_some, reached], denoting⟩

theorem returned_iff {tree : SignedTree}
    (denotes : Denotes payload ctx.cells lo ctx.atWork tree.read) :
    tree.Returned ctx ↔ tree.Exact := by
  constructor
  · intro returned path s there
    obtain ⟨found, reached, denoted⟩ := sub_denotes denotes there
    obtain ⟨obj, same, value⟩ := returned path s there
    obtain rfl := Option.some.inj (reached.symm.trans same)
    rw [read] at denoted
    exact (Signed.longLong_read denoted).mp value
  · intro exact_tree path s there
    obtain ⟨found, reached, denoted⟩ := sub_denotes denotes there
    rw [read] at denoted
    exact ⟨found, reached, (Signed.longLong_read denoted).mpr (exact_tree path s there)⟩

end SignedTree

/-- Signed numbers that were pushed come back unchanged if and only if none of
them is a negative one that the parser reads as an unsigned number. -/
theorem signed_returned {malloc : Malloc} {tree : SignedTree} {pk : Packer} {ctx : Context RawPtr}
    (idle : ctx.Idle) (start : pk.pb.ofs = pk.pb.last) (written : 0 ≤ (tree.write pk).2)
    (short : tree.encode.length < 2 ^ 31)
    (grants : ∀ sz, sz ≤ sizeofObject * tree.encode.length → malloc sz = true) :
    let result := unpackLoop malloc ctx (cursorOf (tree.write pk).1.pb)
    (result.ret = .success ∧ tree.Returned result.ctx) ↔ tree.read.depth ≤ 15 ∧ tree.Exact := by
  intro result
  obtain ⟨fits, deep⟩ := unpack_written tree.write_writes (tree.spells_read malloc _) idle start
    written short grants
  by_cases shallow : tree.read.depth ≤ 15
  · obtain ⟨after, cur, -, denotes, finish⟩ := fits shallow
    have outcome : result = ⟨.success, after, cur⟩ := finish
    have same : tree.Returned after ↔ tree.Exact := SignedTree.returned_iff denotes
    rw [outcome]
    exact ⟨fun met => ⟨shallow, same.mp met.2⟩, fun met => ⟨rfl, same.mpr met.2⟩⟩
  · have failed : result.ret = .parseError := deep (Nat.not_le.mp shallow)
    constructor
    · intro met
      rw [failed] at met
      exact nomatch met.1
    · intro met
      exact absurd met.1 shallow

/-- A pair with a negative fixnum comes back. -/
theorem signed_returned_pair :
    let tree := SignedTree.array [.signed (.s8 (-3)), .signed (.s64 (-70000))]
    let result := unpackLoop (fun _ => true) Context.fresh
      (cursorOf (tree.write (startPack ⟨some 0, [], 256, 0⟩)).1.pb)
    (result.ret = .success ∧ tree.Returned result.ctx) ↔ tree.read.depth ≤ 15 ∧ tree.Exact :=
  signed_returned fresh_idle rfl (by decide) (by decide) fun _ _ => rfl

/-- A negative number of 16 bits comes back as 65535. -/
theorem signed_unsigned :
    let tree := SignedTree.signed (.s16 (-1))
    let written := tree.write (startPack ⟨some 0, [], 256, 0⟩)
    let result := unpackLoop (fun _ => true) Context.fresh (cursorOf written.1.pb)
    0 ≤ written.2 ∧ result.ret = .success ∧ result.ctx.atWork.longLong = some 65535 ∧
      ¬ tree.Returned result.ctx := by
  intro tree written result
  have accepted : 0 ≤ written.2 := by decide
  obtain ⟨after, cur, -, denotes, finish⟩ := (unpack_written tree.write_writes
    (tree.spells_read (fun _ => true) _) fresh_idle rfl accepted (by decide) fun _ _ => rfl).1
      (by decide)
  have outcome : result = ⟨.success, after, cur⟩ := finish
  have number : after.atWork = .integer 65535 := by
    have tree_read : tree.read = .u16 65535 := rfl
    rw [tree_read] at denotes
    generalize after.atWork = obj at denotes
    cases denotes
    rfl
  rw [outcome]
  have value : after.atWork.longLong = some 65535 := by rw [number]; rfl
  refine ⟨accepted, rfl, value, ?_⟩
  intro returned
  obtain ⟨obj, same, kept⟩ := returned [] (.s16 (-1)) rfl
  obtain rfl := Option.some.inj same
  exact absurd (kept.symm.trans value) (by decide)

end Cyue.Mpak
