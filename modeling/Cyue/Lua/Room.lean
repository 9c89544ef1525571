import Cyue.Lib.Fuel
import Cyue.Lua.Pack

/-!
# Where packing keeps its frames

A push that is refused is repeated for a number, a boolean and a string only; a
header, or a part of a function or of what `__pack` gives, is left out, and the
string's header is written again.  Values that cannot be packed are left out of a
table.  The room that a value finds tells whether any of this happens.
-/

namespace Cyue.Lua

open Mpak Packer Fuel

/-! ## What is to be written -/

def cstring (str : List UInt8) : List UInt8 :=
  (str.takeWhile (· ≠ 0) ++ [0]).take (64 * 1024 + 1)

def Custom.tree : Custom → Option PackTree
  | .packs _ (some text) bytes => some (.array [.u8 7, .raw (cstring text), .raw bytes])
  | _ => none

mutual

/-- The message of a value, if it can be packed.  C functions and userdata without
`__pack` are packed as `nil`. -/
def LuaValue.tree : LuaValue → Option PackTree
  | .nil => some .nil
  | .number bits => some (.double bits)
  | .boolean b => some (.boolean b)
  | .string s => some (.raw s)
  | .table _ .absent entries => (treeEntries entries).map .map
  | .table _ pack _ => pack.tree
  | .cfunction _ => some .nil
  | .function _ (some chunk) => some (.array [.u8 6, .raw chunk])
  | .function _ none => none
  | .userdata _ .absent => some .nil
  | .userdata _ pack => pack.tree
  | .lightuserdata _ => none
  | .thread _ => none

def treeEntries : List (LuaValue × LuaValue) → Option (List (PackTree × PackTree))
  | [] => some []
  | (k, v) :: rest =>
    k.tree.bind fun k => v.tree.bind fun v => (treeEntries rest).map ((k, v) :: ·)

end

def treeArgs : List LuaValue → Option (List PackTree)
  | [] => some []
  | v :: rest => v.tree.bind fun t => (treeArgs rest).map (t :: ·)

mutual

/-- The keys of a table are different, and none of them is `nil`. -/
def LuaValue.Valid : LuaValue → Prop
  | .table _ _ entries => ((entries.map (·.1.raw)).Nodup ∧ Raw.nil ∉ entries.map (·.1.raw)) ∧
      ValidEntries entries
  | _ => True

def ValidEntries : List (LuaValue × LuaValue) → Prop
  | [] => True
  | (k, v) :: rest => k.Valid ∧ v.Valid ∧ ValidEntries rest

end

/-! ## Room -/

/-- The buffer without its bytes: where the message starts, the length, the limit and
the number of allocations. -/
structure Space where
  start : ℕ
  used : ℕ
  limit : ℕ
  allocs : ℕ
  deriving DecidableEq, Repr

inductive Room where
  /-- It is packed whole, into this space. -/
  | left (sp : Space)
  /-- `pack_stack` returns an error for it. -/
  | refused
  /-- Packing it raises an error. -/
  | stopped
  /-- A part is left out or written twice. -/
  | lost
  deriving DecidableEq, Repr

def Room.bind (room : Room) (next : Space → Room) : Room :=
  match room with
  | .left sp => next sp
  | room => room

/-- In a table the error of an element is not noticed. -/
def Room.inside : Room → Room
  | .refused => .lost
  | room => room

namespace Space

variable (heap : ℕ → Option ℕ)

def free (sp : Space) : ℕ := sp.limit - sp.used

/-- The message is shorter than an `int` can tell. -/
def Small (sp : Space) : Prop := sp.used - sp.start < 2 ^ 31

/-- Pushes of `n` bytes altogether that are not repeated. -/
def push (sp : Space) (n : ℕ) : Room :=
  if n < sp.free ∧ sp.used + n - sp.start < 2 ^ 31 then .left { sp with used := sp.used + n }
  else .lost

def expand (sp : Space) (sz : ℕ) : Option Space :=
  if sz ≤ sp.free then some sp
  else if (heap sp.allocs).isNone then none
  else if sp.limit = 0 then
    some { sp with limit := Pbuf.growLimit sz Pbuf.initialBufferSize sz, allocs := sp.allocs + 1 }
  else
    some { sp with
      limit := Pbuf.growLimit (sz + sp.used) sp.limit (sz + sp.used), allocs := sp.allocs + 1 }

/-- A `retry` of `n` bytes, of which `first` bytes are pushed first.  If only these find room they
stay, and `retry` gives up where there is no memory for the others. -/
def retry (sp : Space) (first n : ℕ) : Room :=
  if first < sp.free then
    if sp.free ≤ n ∧ (expand heap { sp with used := sp.used + first } 1024).isNone then .refused
    else sp.push n
  else
    match sp.expand heap 1024 with
    | none => .refused
    | some sp => sp.push n

end Space

variable (heap : ℕ → Option ℕ)

def Custom.room : Custom → Space → Room
  | .raises, _ => .stopped
  | .absent, _ => .refused
  | .fails _, _ => .refused
  | .packs _ text bytes, sp =>
    match sp.expand heap bytes.length with
    | none => .refused
    | some sp =>
      (sp.push 2).bind fun sp =>
        match text with
        | none => .stopped
        | some text =>
          sp.push ((rawHeader (cstring text).length ++ cstring text) ++
            (rawHeader bytes.length ++ bytes)).length

mutual

def LuaValue.room : LuaValue → Space → Room
  | .nil, sp => sp.retry heap 1 1
  | .number _, sp => sp.retry heap 9 9
  | .boolean _, sp => sp.retry heap 1 1
  | .string s, sp =>
    sp.retry heap (rawHeader s.length).length (rawHeader s.length ++ s).length
  | .table _ .absent entries, sp =>
    (sp.push (mapHeader entries.length).length).bind fun sp => roomEntries entries sp
  | .table _ pack _, sp => pack.room heap sp
  | .cfunction _, sp => sp.retry heap 1 1
  | .function _ none, _ => .lost
  | .function _ (some chunk), sp =>
    match sp.expand heap chunk.length with
    | none => .lost
    | some sp => sp.push (2 + (rawHeader chunk.length ++ chunk).length)
  | .userdata _ .absent, sp => sp.retry heap 1 1
  | .userdata _ pack, sp => pack.room heap sp
  | .lightuserdata _, _ => .refused
  | .thread _, _ => .refused

def roomEntries : List (LuaValue × LuaValue) → Space → Room
  | [], sp => .left sp
  | (k, v) :: rest, sp =>
    (k.room sp).inside.bind fun sp => (v.room sp).inside.bind fun sp => roomEntries rest sp

end

def roomArgs : List LuaValue → Space → Room
  | [], sp => .left sp
  | v :: rest, sp => (v.room heap sp).bind fun sp => roomArgs rest sp

/-! ## What is packed -/

inductive Input where
  | stack (v : LuaValue)
  | rpcArgs (vs : List LuaValue)
  | response (vs : List LuaValue)

namespace Input

def pack (fuel : ℕ) (s : Serializer) : Input → Option Outcome
  | .stack v => s.packStack heap fuel v
  | .rpcArgs vs => s.packStackAsRpcArgs heap fuel vs
  | .response vs => s.packStackAsResponse heap fuel vs

/-- The complete messages: one value, the method name and the array of the arguments,
or one array. -/
def message : Input → Option (List UInt8)
  | .stack v => v.tree.map PackTree.encode
  | .rpcArgs [] => some (PackTree.array []).encode
  | .rpcArgs (method :: args) =>
    method.tree.bind fun t => (treeArgs args).map fun ts => t.encode ++ (PackTree.array ts).encode
  | .response vs => (treeArgs vs).map fun ts => (PackTree.array ts).encode

def Valid : Input → Prop
  | .stack v => v.Valid
  | .rpcArgs vs => ∀ v, v ∈ vs → v.Valid
  | .response vs => ∀ v, v ∈ vs → v.Valid

def room (sp : Space) : Input → Room
  | .stack v => v.room heap sp
  | .rpcArgs [] => sp.push (arrayHeader 0).length
  | .rpcArgs (method :: args) =>
    (method.room heap sp).bind fun sp =>
      (sp.push (arrayHeader args.length).length).bind fun sp => roomArgs heap args sp
  | .response vs => (sp.push (arrayHeader vs.length).length).bind fun sp => roomArgs heap vs sp

end Input

end Cyue.Lua
