import Cyue.Mpak.Pack

/-!
# Packing Lua values

`pack_stack` and what is built from it, for a serializer whose `pbuf` grows when a
push is refused.  The `n`-th block that is asked of the allocator is `heap n`.

A function of the VM is known by what it gives: `lua_dump` by the chunk, `__pack` by
what it writes and returns.  A table is the list of its entries in the order of
`lua_next`, which there are fewer than 2^31 of, and the stack has room for what is
pushed.  A table that contains itself is not among the values: packing one never ends.
-/

namespace Cyue.Lua

open Mpak Packer

def emalloc : Int := -1
def einval : Int := -6
def enotfound : Int := -9
def esyscall : Int := -24

/-! ## Values -/

/-- What `lua_next` compares. -/
inductive Raw where
  | nil
  | number (bits : UInt64)
  | boolean (b : Bool)
  | string (s : List UInt8)
  | reference (addr : ℕ)
  deriving DecidableEq, Repr

/-- What `__pack` does. -/
inductive Custom where
  /-- The lookup of the field raises an error. -/
  | raises
  | absent
  /-- `lua_pcall` fails and leaves the message on the stack. -/
  | fails (message : Raw)
  /-- `text` is what `lua_tostring` gives for the result. -/
  | packs (result : Raw) (text : Option (List UInt8)) (bytes : List UInt8)
  deriving DecidableEq, Repr

inductive LuaValue where
  | nil
  | number (bits : UInt64)
  | boolean (b : Bool)
  | string (s : List UInt8)
  | table (addr : ℕ) (pack : Custom) (entries : List (LuaValue × LuaValue))
  | cfunction (addr : ℕ)
  | function (addr : ℕ) (chunk : Option (List UInt8))
  | userdata (addr : ℕ) (pack : Custom)
  | lightuserdata (addr : ℕ)
  | thread (addr : ℕ)

/-- The two zeros are equal. -/
def LuaValue.raw : LuaValue → Raw
  | .nil => .nil
  | .number bits => .number (if bits = 0x8000000000000000 then 0 else bits)
  | .boolean b => .boolean b
  | .string s => .string s
  | .table addr _ _ => .reference addr
  | .cfunction addr => .reference addr
  | .function addr _ => .reference addr
  | .userdata addr _ => .reference addr
  | .lightuserdata addr => .reference addr
  | .thread addr => .reference addr

/-- The entries behind a key.  `lua_next` raises an error if there is no such key. -/
def luaNext (entries : List (LuaValue × LuaValue)) (key : Raw) :
    Option (List (LuaValue × LuaValue)) :=
  if key = .nil then some entries
  else
    match entries.dropWhile (·.1.raw ≠ key) with
    | [] => none
    | _ :: rest => some rest

/-- A result that is a number has become a string. -/
def Raw.tostring (result : Raw) (text : List UInt8) : Raw :=
  match result with
  | .number _ => .string text
  | result => result

/-! ## The serializer -/

structure Serializer where
  pk : Packer
  allocs : ℕ

/-- What a call returns: the serializer, the `int` and what it has left on the stack,
the top first. -/
inductive Outcome where
  /-- An error is raised, or a null pointer is read. -/
  | stopped
  | returned (s : Serializer) (r : Int) (left : List Raw)

namespace Serializer

variable (heap : ℕ → Option ℕ)

def len (s : Serializer) : Int := s.pk.curpos

def expandBuffer (s : Serializer) (sz : ℕ) : Serializer × Int :=
  if sz ≤ s.pk.pb.available then (s, 0)
  else
    match heap s.allocs with
    | none => ({ s with allocs := s.allocs + 1 }, emalloc)
    | some fresh => (⟨{ s.pk with pb := s.pk.pb.reserve fresh sz }, s.allocs + 1⟩, 0)

/-- `retry`, from the size `sz` on. -/
def retryFrom (op : Packer → Packer × Int) : ℕ → ℕ → Serializer → Option (Serializer × Int)
  | 0, _, _ => none
  | fuel + 1, sz, s =>
    let pushed : Serializer := { s with pk := (op s.pk).1 }
    let r := (op s.pk).2
    if r < 0 then
      let expanded := expandBuffer heap pushed sz
      if expanded.2 < 0 then some (expanded.1, r)
      else retryFrom op fuel (2 * sz % 2 ^ 64) expanded.1
    else some (pushed, r)

/-- A case of `pack_stack` that is one `retry`. -/
def retry (op : Packer → Packer × Int) (fuel : ℕ) (s : Serializer) : Option Outcome :=
  (retryFrom heap op fuel 1024 s).bind fun tried =>
    some (.returned tried.1 (if tried.2 < 0 then tried.2 else tried.1.len) [])

def pushString (pk : Packer) (str : List UInt8) : Packer × Int :=
  pk.pushRaw ((str.takeWhile (· ≠ 0) ++ [0]).take (64 * 1024 + 1))

/-- `pack_function`.  A push that fails returns `false`, and that is `NBR_OK`. -/
def packFunction (chunk : Option (List UInt8)) (s : Serializer) : Serializer × Int :=
  match chunk with
  | none => (s, einval)
  | some bytes =>
    let expanded := expandBuffer heap s bytes.length
    if expanded.2 < 0 then expanded
    else
      let pushed := andThen (expanded.1.pk.pushArrayLen 2) fun pk =>
        andThen (pk.pushU8 6) fun pk => pk.pushRaw bytes
      ({ expanded.1 with pk := pushed.1 }, 0)

/-- `call_custom_pack`, with the same `false`. -/
def callCustomPack (pack : Custom) (s : Serializer) : Outcome :=
  match pack with
  | .raises => .stopped
  | .absent => .returned s enotfound []
  | .fails message => .returned s esyscall [message]
  | .packs result text bytes =>
    let expanded := expandBuffer heap s bytes.length
    if expanded.2 < 0 then .returned expanded.1 expanded.2 [result]
    else
      let tagged := andThen (expanded.1.pk.pushArrayLen 3) (·.pushU8 7)
      if tagged.2 < 0 then .returned { expanded.1 with pk := tagged.1 } 0 [result]
      else
        match text with
        | none => .stopped
        | some text =>
          let pushed := andThen (pushString tagged.1 text) (·.pushRaw bytes)
          .returned { expanded.1 with pk := pushed.1 } 0
            (if pushed.2 < 0 then [result.tostring text] else [])

mutual

def packStack : ℕ → LuaValue → Serializer → Option Outcome
  | 0, _, _ => none
  | fuel + 1, v, s =>
    match v with
    | .nil => retry heap (·.pushnil) fuel s
    | .number bits => retry heap (·.pushDouble bits) fuel s
    | .boolean b => retry heap (·.pushBool b) fuel s
    | .string str => retry heap (·.pushRaw str) fuel s
    | .table _ pack entries =>
      match callCustomPack heap pack s with
      | .stopped => some .stopped
      | .returned s r left =>
        if r < 0 then
          if r = enotfound then packTable fuel entries s else some (.returned s r left)
        else some (.returned s s.len left)
    | .cfunction _ => retry heap (·.pushnil) fuel s
    | .function _ chunk =>
      let packed := packFunction heap chunk s
      some (.returned packed.1 (if packed.2 < 0 then 0 else packed.1.len) [])
    | .userdata _ pack =>
      match callCustomPack heap pack s with
      | .stopped => some .stopped
      | .returned s r left =>
        if r < 0 then
          if r = enotfound then retry heap (·.pushnil) fuel s else some (.returned s r left)
        else some (.returned s s.len left)
    | .lightuserdata _ => some (.returned s einval [])
    | .thread _ => some (.returned s einval [])

/-- `pack_table`, with the result of `pack_stack` -/
def packTable : ℕ → List (LuaValue × LuaValue) → Serializer → Option Outcome
  | 0, _, _ => none
  | fuel + 1, entries, s =>
    packEntries fuel entries .nil [] { s with pk := (s.pk.pushMapLen entries.length).1 }

/-- Its loop.  `key` is on the top of the stack and `left` is below it.  What the calls
have left above the key and the value makes `lua_pop` take another value than theirs. -/
def packEntries : ℕ → List (LuaValue × LuaValue) → Raw → List Raw → Serializer → Option Outcome
  | 0, _, _, _, _ => none
  | fuel + 1, entries, key, left, s =>
    match luaNext entries key with
    | none => some .stopped
    | some [] => some (.returned s s.len left)
    | some ((k, v) :: _) =>
      (packStack fuel k s).bind fun
        | .stopped => some .stopped
        | .returned s _ above =>
          (packStack fuel v s).bind fun
            | .stopped => some .stopped
            | .returned s _ above' =>
              match (above' ++ above ++ [v.raw, k.raw]).tail with
              | [] => some .stopped
              | key :: rest => packEntries fuel entries key (rest ++ left) s

end

/-- The values of a call one after another, and `sr.len()`. -/
def packArgs : ℕ → List LuaValue → Serializer → Option Outcome
  | _, [], s => some (.returned s s.len [])
  | fuel, v :: rest, s =>
    (packStack heap fuel v s).bind fun
      | .stopped => some .stopped
      | .returned s r left => if r < 0 then some (.returned s r left) else packArgs fuel rest s

/-- `pack_stack_as_rpc_args`, for the values from `start_index` on -/
def packStackAsRpcArgs (fuel : ℕ) (vs : List LuaValue) (s : Serializer) : Option Outcome :=
  match vs with
  | [] => packArgs heap fuel [] { s with pk := (s.pk.pushArrayLen 0).1 }
  | method :: args =>
    (packStack heap fuel method s).bind fun
      | .stopped => some .stopped
      | .returned s r left =>
        if r < 0 then some (.returned s r left)
        else packArgs heap fuel args { s with pk := (s.pk.pushArrayLen args.length).1 }

def packStackAsResponse (fuel : ℕ) (vs : List LuaValue) (s : Serializer) : Option Outcome :=
  packArgs heap fuel vs { s with pk := (s.pk.pushArrayLen vs.length).1 }

end Serializer

end Cyue.Lua
