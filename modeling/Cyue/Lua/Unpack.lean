import Cyue.Lib.Fuel
import Cyue.Lua.Pack
import Cyue.Mpak.Object

/-!
# Unpacking Lua values

`unpack_stack` for an object that the parser has left, with the arrays that it points
into.  The values are put on the stack of the VM, and a table on the stack is filled
with `lua_settable`.  Two tables are equal if they have equal values under the same
keys; the order of `lua_next` is not part of a table.
-/

namespace Cyue.Lua

open Mpak

/-! ## Equal values -/

/-- `lua_rawget`, of the entry that has the key. -/
def entryOf (entries : List (LuaValue × LuaValue)) (key : Raw) : Option LuaValue :=
  (entries.find? (·.1.raw = key)).map (·.2)

mutual

/-- The values are equal; numbers are if they have the same bits. -/
def LuaValue.Same : LuaValue → LuaValue → Prop
  | .nil, .nil => True
  | .number bits, .number bits' => bits = bits'
  | .boolean b, .boolean b' => b = b'
  | .string str, .string str' => str = str'
  | .table _ _ entries, .table _ _ entries' =>
      entries.length = entries'.length ∧ SameEntries entries entries'
  | _, _ => False

def SameEntries : List (LuaValue × LuaValue) → List (LuaValue × LuaValue) → Prop
  | [], _ => True
  | (k, v) :: rest, entries =>
      (∃ v', entryOf entries k.raw = some v' ∧ v.Same v') ∧ SameEntries rest entries

end

/-! ## The VM -/

/-- The stack, the top first, and how many tables there are. -/
structure Vm where
  stack : List LuaValue
  tables : ℕ

/-- What `require` gives for a name. -/
inductive Module (ρ : Type) where
  /-- The lookup of `unpack_method` raises an error. -/
  | raises
  /-- There is no module, or it has no such function. -/
  | absent
  /-- The value made of a packed object; `nil` if the function fails. -/
  | unpacks (unpack : Obj ρ → LuaValue)

/-- What surrounds `unpack_stack`: the value that `lua_load` pushes with its result, the
module of a name, and the conversions to a double. -/
structure Host (ρ : Type) where
  load : List UInt8 → Int × LuaValue
  custom : List UInt8 → Module ρ
  ofSingle : UInt32 → UInt64
  ofInt : Int → UInt64

/-- A key that no table has. -/
def LuaValue.badKey : LuaValue → Bool
  | .nil => true
  | .number bits => 0x7ff0000000000000 < bits &&& 0x7fffffffffffffff
  | _ => false

/-- The entries after an assignment; assigning `nil` removes the entry. -/
def setEntry (entries : List (LuaValue × LuaValue)) (k v : LuaValue) :
    List (LuaValue × LuaValue) :=
  if v.raw = .nil then entries.filter (·.1.raw ≠ k.raw)
  else if (entryOf entries k.raw).isSome then
    entries.map fun e => if e.1.raw = k.raw then (e.1, v) else e
  else entries ++ [(k, v)]

namespace Vm

def push (vm : Vm) (v : LuaValue) : Vm := { vm with stack := v :: vm.stack }

def createtable (vm : Vm) : Vm :=
  ⟨.table vm.tables .absent [] :: vm.stack, vm.tables + 1⟩

/-- `lua_settable(vm, -3)`; `none` is an error that is raised. -/
def settable (vm : Vm) : Option Vm :=
  match vm.stack with
  | v :: k :: .table addr pack entries :: below =>
      if k.badKey then none
      else some { vm with stack := .table addr pack (setEntry entries k v) :: below }
  | _ => none

end Vm

/-! ## unpack_stack -/

/-- `stopped` is an error that is raised, an object that is not there, or a member that is read of
an object of another kind; `resp` asserts its kind. -/
inductive Unpacked where
  | stopped
  | returned (vm : Vm) (r : Int)

variable {ρ : Type}

namespace Host

variable (host : Host ρ) (payload : ρ → List UInt8) (cells : List (Obj ρ))

def bits : DoubleValue → UInt64
  | .bits pattern => pattern
  | .single pattern => host.ofSingle pattern

def unpackFunction (d : Option (Obj ρ)) (vm : Vm) : Unpacked :=
  match d with
  | some (.raw ptr size) =>
      let loaded := host.load ((payload ptr).take size)
      .returned (vm.push loaded.2) (if loaded.1 < 0 then esyscall else 0)
  | _ => .stopped

/-- `call_custom_unpack`, which pushes nil where there is no such module. -/
def callCustomUnpack (name packed : Option (Obj ρ)) (vm : Vm) : Unpacked :=
  match name with
  | some (.raw ptr size) =>
      match host.custom ((payload ptr).take size) with
      | .raises => .stopped
      | .absent => .returned (vm.push .nil) 0
      | .unpacks unpack =>
          match packed with
          | some packed => .returned (vm.push (unpack packed)) 0
          | none => .stopped
  | _ => .stopped

variable {cells} in
/-- An object of the array is there. -/
theorem cell_there {n : ℕ} (inside : n < cells.length) : cells[n]? = some (cells.getD n .uninit) := by
  rw [List.getD_eq_getElem?_getD, List.getElem?_eq_getElem inside]
  rfl

def elem (size ptr n : ℕ) : Option (Obj ρ) := if n < size then cells[ptr + n]? else none

mutual

def unpackStack : ℕ → Option (Obj ρ) → Vm → Option Unpacked
  | 0, _, _ => none
  | fuel + 1, o, vm =>
    match o with
    | some .nil => some (.returned (vm.push .nil) 0)
    | some (.boolean value) => some (.returned (vm.push (.boolean value)) 0)
    | some (.array size ptr) =>
      match elem cells size ptr 0 with
      | some (.integer i64) =>
        let kind := intOfSize i64.toNat
        if kind = 6 then some (host.unpackFunction payload (elem cells size ptr 1) vm)
        else if kind = 7 then
          some (host.callCustomUnpack payload (elem cells size ptr 1) (elem cells size ptr 2) vm)
        else if kind < 0 then unpackElems fuel size 0 ptr vm.createtable
        else some (.returned vm einval)
      | _ => some .stopped
    | some (.map size ptr) => unpackEntries fuel size ptr vm.createtable
    | some (.raw ptr size) => some (.returned (vm.push (.string ((payload ptr).take size))) 0)
    | some (.double dec) => some (.returned (vm.push (.number (host.bits dec))) 0)
    | some (.integer i64) =>
      some (.returned (vm.push (.number (host.ofInt (intOfSize i64.toNat)))) 0)
    | _ => some .stopped
termination_by structural fuel => fuel

/-- The loop over the elements of an error object, at the index `i`. -/
def unpackElems : ℕ → ℕ → ℕ → ℕ → Vm → Option Unpacked
  | 0, _, _, _, _ => none
  | _ + 1, 0, _, _, vm => some (.returned vm 0)
  | fuel + 1, size + 1, i, ptr, vm =>
    (unpackStack fuel cells[ptr]? (vm.push (.number (host.ofInt (i + 1))))).bind fun
      | .stopped => some .stopped
      | .returned vm _ =>
        match vm.settable with
        | none => some .stopped
        | some vm => unpackElems fuel size (i + 1) (ptr + 1) vm
termination_by structural fuel => fuel

/-- The loop over the entries of a map, with the results of `unpack_stack` dropped. -/
def unpackEntries : ℕ → ℕ → ℕ → Vm → Option Unpacked
  | 0, _, _, _ => none
  | _ + 1, 0, _, vm => some (.returned vm 0)
  | fuel + 1, size + 1, ptr, vm =>
    (unpackStack fuel cells[ptr]? vm).bind fun
      | .stopped => some .stopped
      | .returned vm _ =>
        (unpackStack fuel cells[ptr + 1]? vm).bind fun
          | .stopped => some .stopped
          | .returned vm _ =>
            match vm.settable with
            | none => some .stopped
            | some vm => unpackEntries fuel size (ptr + 2) vm
termination_by structural fuel => fuel

end

end Host

end Cyue.Lua
