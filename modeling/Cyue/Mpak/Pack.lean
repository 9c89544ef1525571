import Cyue.Mpak.Object
import Cyue.Util.Pbuf

/-!
# The mpak writer

The push operations append to a `pbuf` through `start_pack`'s view of it.
Every push first checks the free space, and the check is strict: a push of
exactly the free space is refused.  An operation answers with the writer it
leaves behind and the `int` it returns, which is negative on failure.
-/

namespace Cyue.Mpak

open Bytes

def eshort : Int := -21

/-- The packing half of an `mpak`: `m_pbuf` and `m_c`. -/
structure Packer where
  pb : Pbuf
  c : Nat
  deriving DecidableEq, Repr

namespace Packer

def startPack (pb : Pbuf) : Packer := ⟨pb, pb.last⟩

def curpos (pk : Packer) : Int := intOfSize ((pk.pb.last : Int) - pk.c)

/-- The bytes of one push, behind its `CHECK_LENGTH`. -/
def push (pk : Packer) (bytes : List UInt8) : Packer × Int :=
  if pk.pb.available ≤ bytes.length then (pk, eshort)
  else
    let pk := { pk with pb := pk.pb.append bytes }
    (pk, pk.curpos)

/-- One operation after another, the second only when the first has not failed. -/
def andThen (first : Packer × Int) (second : Packer → Packer × Int) : Packer × Int :=
  if first.2 < 0 then first else second first.1

def pushnil (pk : Packer) : Packer × Int := pk.push [0xc0]

def pushBool (pk : Packer) (f : Bool) : Packer × Int := pk.push [if f then 0xc3 else 0xc2]

def pushU8 (pk : Packer) (u : UInt8) : Packer × Int :=
  if u ≤ 0x7f then pk.push [u] else pk.push [0xcc, u]

def pushU16 (pk : Packer) (u : UInt16) : Packer × Int := pk.push (0xcd :: beBytes 2 u.toNat)

def pushU32 (pk : Packer) (u : UInt32) : Packer × Int := pk.push (0xce :: beBytes 4 u.toNat)

def pushU64 (pk : Packer) (u : UInt64) : Packer × Int := pk.push (0xcf :: beBytes 8 u.toNat)

/-- `operator << (double)`, given the bit pattern of the double. -/
def pushDouble (pk : Packer) (bits : UInt64) : Packer × Int :=
  pk.push (0xcb :: beBytes 8 bits.toNat)

def rawHeader (l : Nat) : List UInt8 :=
  if l ≤ 0x1f then [0xa0 ||| UInt8.ofNat l]
  else if l ≤ 0xffff then 0xda :: beBytes 2 l
  else 0xdb :: beBytes 4 l

def arrayHeader (l : Nat) : List UInt8 :=
  if l ≤ 0xf then [0x90 ||| UInt8.ofNat l]
  else if l ≤ 0xffff then 0xdc :: beBytes 2 l
  else 0xdd :: beBytes 4 l

def mapHeader (l : Nat) : List UInt8 :=
  if l ≤ 0xf then [0x80 ||| UInt8.ofNat l]
  else if l ≤ 0xffff then 0xde :: beBytes 2 l
  else 0xdf :: beBytes 4 l

def pushRawLen (pk : Packer) (l : Nat) : Packer × Int := pk.push (rawHeader l)

def pushRawOnlydata (pk : Packer) (p : List UInt8) : Packer × Int := pk.push p

def pushRaw (pk : Packer) (p : List UInt8) : Packer × Int :=
  andThen (pk.pushRawLen p.length) (·.pushRawOnlydata p)

def pushArrayLen (pk : Packer) (l : Nat) : Packer × Int := pk.push (arrayHeader l)

def pushMapLen (pk : Packer) (l : Nat) : Packer × Int := pk.push (mapHeader l)

/-! ## What a push appends -/

/-- An operation writes the given bytes whenever it does not fail. -/
def Writes (op : Packer → Packer × Int) (bytes : List UInt8) : Prop :=
  ∀ pk, 0 ≤ (op pk).2 → (op pk).1 = ⟨pk.pb.append bytes, pk.c⟩

theorem push_writes (bytes : List UInt8) : Writes (·.push bytes) bytes := by
  intro pk
  simp only [push]
  split
  · intro accepted
    simp [eshort] at accepted
  · intro _
    rfl

theorem andThen_writes {first second : Packer → Packer × Int} {front back : List UInt8}
    (one : Writes first front) (two : Writes second back) :
    Writes (fun pk => andThen (first pk) second) (front ++ back) := by
  intro pk
  simp only [andThen]
  split
  · next failed =>
      intro accepted
      omega
  · next kept =>
      intro accepted
      have written := one pk (Int.not_lt.mp kept)
      rw [two _ accepted, written, Pbuf.append_append]

theorem pushRaw_writes (p : List UInt8) : Writes (·.pushRaw p) (rawHeader p.length ++ p) :=
  andThen_writes (push_writes _) (push_writes _)

end Packer

/-! ## Writing a tree -/

/-- What a caller can write with the push operations.  An integer keeps the
width of the operator it is pushed with. -/
inductive PackTree where
  | nil
  | boolean (f : Bool)
  | u8 (u : UInt8)
  | u16 (u : UInt16)
  | u32 (u : UInt32)
  | u64 (u : UInt64)
  | double (bits : UInt64)
  | raw (p : List UInt8)
  | array (elems : List PackTree)
  | map (entries : List (PackTree × PackTree))

namespace PackTree

open Packer

mutual

/-- The pushes for a tree, stopping at the first one that fails. -/
def write : PackTree → Packer → Packer × Int
  | .nil, pk => pk.pushnil
  | .boolean f, pk => pk.pushBool f
  | .u8 u, pk => pk.pushU8 u
  | .u16 u, pk => pk.pushU16 u
  | .u32 u, pk => pk.pushU32 u
  | .u64 u, pk => pk.pushU64 u
  | .double bits, pk => pk.pushDouble bits
  | .raw p, pk => pk.pushRaw p
  | .array elems, pk => andThen (pk.pushArrayLen elems.length) (writeElems elems)
  | .map entries, pk => andThen (pk.pushMapLen entries.length) (writeEntries entries)

def writeElems : List PackTree → Packer → Packer × Int
  | [], pk => (pk, 0)
  | elem :: rest, pk => andThen (elem.write pk) (writeElems rest)

def writeEntries : List (PackTree × PackTree) → Packer → Packer × Int
  | [], pk => (pk, 0)
  | (key, val) :: rest, pk =>
      andThen (key.write pk) fun pk => andThen (val.write pk) (writeEntries rest)

end

mutual

def encode : PackTree → List UInt8
  | .nil => [0xc0]
  | .boolean f => [if f then 0xc3 else 0xc2]
  | .u8 u => if u ≤ 0x7f then [u] else [0xcc, u]
  | .u16 u => 0xcd :: beBytes 2 u.toNat
  | .u32 u => 0xce :: beBytes 4 u.toNat
  | .u64 u => 0xcf :: beBytes 8 u.toNat
  | .double bits => 0xcb :: beBytes 8 bits.toNat
  | .raw p => rawHeader p.length ++ p
  | .array elems => arrayHeader elems.length ++ encodeElems elems
  | .map entries => mapHeader entries.length ++ encodeEntries entries

def encodeElems : List PackTree → List UInt8
  | [] => []
  | elem :: rest => elem.encode ++ encodeElems rest

def encodeEntries : List (PackTree × PackTree) → List UInt8
  | [] => []
  | (key, val) :: rest => key.encode ++ (val.encode ++ encodeEntries rest)

end

mutual

def depth : PackTree → Nat
  | .array elems => depthElems elems
  | .map entries => depthEntries entries
  | _ => 0

def depthElems : List PackTree → Nat
  | [] => 0
  | elem :: rest => max (elem.depth + 1) (depthElems rest)

def depthEntries : List (PackTree × PackTree) → Nat
  | [] => 0
  | (key, val) :: rest => max (key.depth + 1) (max (val.depth + 1) (depthEntries rest))

end

def flatten (entries : List (PackTree × PackTree)) : List PackTree :=
  entries.flatMap fun entry => [entry.1, entry.2]

@[simp] theorem flatten_cons (entry : PackTree × PackTree)
    (rest : List (PackTree × PackTree)) :
    flatten (entry :: rest) = entry.1 :: entry.2 :: flatten rest := rfl

theorem flatten_length (entries : List (PackTree × PackTree)) :
    (flatten entries).length = 2 * entries.length := by
  induction entries with
  | nil => rfl
  | cons entry rest ih =>
      rw [flatten_cons, List.length_cons, List.length_cons, ih, List.length_cons]
      omega

theorem encodeEntries_eq (entries : List (PackTree × PackTree)) :
    encodeEntries entries = encodeElems (flatten entries) := by
  induction entries with
  | nil => simp [encodeEntries, flatten, encodeElems]
  | cons entry rest ih =>
      simp [encodeEntries, encodeElems, ih]

theorem depthEntries_eq (entries : List (PackTree × PackTree)) :
    depthEntries entries = depthElems (flatten entries) := by
  induction entries with
  | nil => simp [depthEntries, flatten, depthElems]
  | cons entry rest ih =>
      simp [depthEntries, depthElems, ih]

mutual

/-- The tree with every integer in its widest form: a parsed object does not
tell which width its integer was written with. -/
def widen : PackTree → PackTree
  | .u8 u => .u64 u.toUInt64
  | .u16 u => .u64 u.toUInt64
  | .u32 u => .u64 u.toUInt64
  | .array elems => .array (widenElems elems)
  | .map entries => .map (widenEntries entries)
  | tree => tree

def widenElems : List PackTree → List PackTree
  | [] => []
  | elem :: rest => elem.widen :: widenElems rest

def widenEntries : List (PackTree × PackTree) → List (PackTree × PackTree)
  | [] => []
  | (key, val) :: rest => (key.widen, val.widen) :: widenEntries rest

end

theorem widenElems_eq (elems : List PackTree) : widenElems elems = elems.map widen := by
  induction elems with
  | nil => simp [widenElems]
  | cons elem rest ih => simp [widenElems, ih]

theorem flatten_widenEntries (entries : List (PackTree × PackTree)) :
    flatten (widenEntries entries) = (flatten entries).map widen := by
  induction entries with
  | nil => simp [widenEntries, flatten]
  | cons entry rest ih => simp [widenEntries, ih]

theorem flatten_injective {first second : List (PackTree × PackTree)}
    (same : flatten first = flatten second) : first = second := by
  induction first generalizing second with
  | nil =>
      cases second with
      | nil => rfl
      | cons entry rest => simp [flatten] at same
  | cons entry rest ih =>
      cases second with
      | nil => simp [flatten] at same
      | cons other others =>
          simp only [flatten_cons, List.cons.injEq] at same
          obtain ⟨key, val, tail⟩ := same
          rw [ih tail, Prod.ext key val]

theorem encode_pos (tree : PackTree) : 0 < tree.encode.length := by
  cases tree with
  | u8 u =>
      rw [encode]
      split <;> simp
  | raw p =>
      rw [encode, rawHeader]
      split_ifs <;> simp
  | array elems =>
      rw [encode, arrayHeader]
      split_ifs <;> simp
  | map entries =>
      rw [encode, mapHeader]
      split_ifs <;> simp
  | _ => simp [encode]

mutual

/-- A tree whose pushes all succeed has been written as its message. -/
theorem write_writes : (tree : PackTree) → Writes tree.write tree.encode
  | .nil => by simpa [write, encode, pushnil] using push_writes [0xc0]
  | .boolean f => by simpa [write, encode, pushBool] using push_writes [if f then 0xc3 else 0xc2]
  | .u8 u => by
      intro pk
      simp only [write, pushU8, encode]
      split
      · exact push_writes [u] pk
      · exact push_writes [0xcc, u] pk
  | .u16 u => by simpa [write, encode, pushU16] using push_writes (0xcd :: beBytes 2 u.toNat)
  | .u32 u => by simpa [write, encode, pushU32] using push_writes (0xce :: beBytes 4 u.toNat)
  | .u64 u => by simpa [write, encode, pushU64] using push_writes (0xcf :: beBytes 8 u.toNat)
  | .double bits => by simpa [write, encode, pushDouble] using push_writes (0xcb :: beBytes 8 bits.toNat)
  | .raw p => by simpa [write, encode] using pushRaw_writes p
  | .array elems => by
      simpa [write, encode, pushArrayLen] using
        andThen_writes (push_writes _) (writeElems_writes elems)
  | .map entries => by
      simpa [write, encode, pushMapLen] using
        andThen_writes (push_writes _) (writeEntries_writes entries)

theorem writeElems_writes : (elems : List PackTree) →
    Writes (writeElems elems) (encodeElems elems)
  | [] => by
      intro pk _
      simp [writeElems, encodeElems]
  | elem :: rest => by
      simpa [writeElems, encodeElems] using
        andThen_writes (write_writes elem) (writeElems_writes rest)

theorem writeEntries_writes : (entries : List (PackTree × PackTree)) →
    Writes (writeEntries entries) (encodeEntries entries)
  | [] => by
      intro pk _
      simp [writeEntries, encodeEntries]
  | (key, val) :: rest => by
      simpa [writeEntries, encodeEntries] using
        andThen_writes (write_writes key)
          (andThen_writes (write_writes val) (writeEntries_writes rest))

end

end PackTree

end Cyue.Mpak
