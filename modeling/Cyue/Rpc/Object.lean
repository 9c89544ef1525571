import Cyue.Lib.Fallible
import Cyue.Mpak.Object
import Cyue.Util.Pbuf

/-!
# Decoded objects and their accessors

`mpak::data` as a tree, and its accessors, which check nothing: an accessor
whose element is not there, or which is applied to an object of another kind
than its `ASSERT` or `CHECK` names, is a fault.  `unpack_stack` is what a
coroutine does with an object that it passes on to Lua.
-/

namespace Cyue.Rpc

open Fallible Mpak

variable {σ : Type}

inductive Data where
  | nil
  | boolean (value : Bool)
  | integer (i64 : UInt64)
  | double (dec : DoubleValue)
  | raw (bytes : List UInt8)
  | array (elems : List Data)
  | map (entries : List (Data × Data))

namespace Data

def kind : Data → Kind
  | .nil => .nil
  | .boolean _ => .boolean
  | .integer _ => .integer
  | .double _ => .double
  | .raw _ => .blob
  | .array _ => .array
  | .map _ => .map

def elem (n : ℕ) : Data → Prog σ Data
  | .array elems => present elems[n]?
  | _ => present none

/-- `size`, an `U32`, of an array or a map. -/
def size : Data → Prog σ ℕ
  | .array elems => pure (elems.length % 2 ^ 32)
  | .map entries => pure (entries.length % 2 ^ 32)
  | _ => present none

/-- The size as an `int` is that of the container as one. -/
theorem size_narrowed (n : ℕ) : intOfSize ((n % 2 ^ 32 : ℕ) : ℤ) = intOfSize n := by
  rw [intOfSize, Int.natCast_mod]
  exact Int.emod_bmod ..

theorem size_array (elems : List Data) (s : σ) :
    ∃ n : ℕ, (Data.array elems).size s = some (n, s) ∧ intOfSize n = intOfSize elems.length :=
  ⟨_, rfl, size_narrowed _⟩

theorem size_map (entries : List (Data × Data)) (s : σ) :
    ∃ n : ℕ, (Data.map entries).size s = some (n, s) ∧ intOfSize n = intOfSize entries.length :=
  ⟨_, rfl, size_narrowed _⟩

def toInt : Data → Prog σ ℤ
  | .integer i64 => pure (intOfSize i64.toNat)
  | _ => present none

def toU32 : Data → Prog σ UInt32
  | .integer i64 => pure i64.toUInt32
  | _ => present none

/-- `operator const char *` together with `len`. -/
def blob : Data → Prog σ (List UInt8)
  | .raw bytes => pure bytes
  | _ => present none

end Data

/-! ## Objects that go to Lua -/

/-- The Lua machine: what `lua_load` answers for a chunk, and whether the
module of a user data can be required and has an unpack function. -/
structure Lua (σ : Type) where
  load : List UInt8 → σ → ℤ × σ
  custom : List UInt8 → σ → Bool × σ

def luaTFunction : ℤ := 6

def luaTUserdata : ℤ := 7

def einval : ℤ := -6

def esyscall : ℤ := -24

/-- `unpack_function`, with the reader callback that `lua_load` calls. -/
def unpackFunction (lua : Lua σ) (d : Data) : Prog σ ℤ := do
  let code ← d.blob
  let r ← ask (lua.load code)
  pure (if r < 0 then esyscall else 0)

def callCustomUnpack (lua : Lua σ) (d : Data) : Prog σ ℤ := do
  let name ← d.elem 1
  let name ← name.blob
  let found ← ask (lua.custom name)
  if found then do
    let _ ← d.elem 2
    pure 0
  else pure 0

mutual

def unpackStack (lua : Lua σ) : Data → Prog σ ℤ
  | .array elems => do
      let first ← (Data.array elems).elem 0
      let tag ← first.toInt
      if tag = luaTFunction then do
        let code ← (Data.array elems).elem 1
        unpackFunction lua code
      else if tag = luaTUserdata then callCustomUnpack lua (.array elems)
      else if tag < 0 then do
        unpackEach lua elems
        pure 0
      else pure einval
  | .map entries => do
      unpackEntries lua entries
      pure 0
  | _ => pure 0

/-- The loop over the elements of an error object, which drops their results. -/
def unpackEach (lua : Lua σ) : List Data → Prog σ Unit
  | [] => pure ()
  | d :: rest => do
      let _ ← unpackStack lua d
      unpackEach lua rest

/-- The loop over the entries of a map, which drops their results. -/
def unpackEntries (lua : Lua σ) : List (Data × Data) → Prog σ Unit
  | [] => pure ()
  | (key, val) :: rest => do
      let _ ← unpackStack lua key
      let _ ← unpackStack lua val
      unpackEntries lua rest

end

/-- The loop of `start` and `resume` over the arguments: the first one that
fails ends it. -/
def unpackArgs (lua : Lua σ) (arg : ℕ → Prog σ Data) : List ℕ → Prog σ ℤ
  | [] => pure 0
  | i :: rest => do
      let d ← arg i
      let r ← unpackStack lua d
      if r < 0 then pure r else unpackArgs lua arg rest

/-! ## The shape of what Lua can be given -/

/-- `[ type:int(LUA_T*), arg1, arg2, ..., argN ]`. -/
def tag : List Data → Option ℤ
  | .integer i64 :: _ => some (intOfSize i64.toNat)
  | _ => none

/-- An array with a type tag that `unpack_stack` does not know is refused. -/
def refused : Data → Bool
  | .array elems =>
      (tag elems).any fun tag => tag ≠ luaTFunction ∧ tag ≠ luaTUserdata ∧ 0 ≤ tag
  | _ => false

/-- `[LUA_TFUNCTION, func code:blob]`. -/
def hasCode : List Data → Bool
  | _ :: .raw _ :: _ => true
  | _ => false

/-- `[LUA_TUSERDATA, string: module, packed object]`. -/
def hasModule : List Data → Bool
  | _ :: .raw _ :: _ :: _ => true
  | _ => false

mutual

/-- Every array, at every level, starts with an integer tag and has the
elements that belong to the tag. -/
def readable : Data → Bool
  | .array elems =>
      match tag elems with
      | some tag =>
          if tag = luaTFunction then hasCode elems
          else if tag = luaTUserdata then hasModule elems
          else if tag < 0 then readableEach elems
          else true
      | none => false
  | .map entries => readableEntries entries
  | _ => true

def readableEach : List Data → Bool
  | [] => true
  | d :: rest => readable d && readableEach rest

def readableEntries : List (Data × Data) → Bool
  | [] => true
  | (key, val) :: rest => readable key && readable val && readableEntries rest

end

def readableUpto : List Data → Bool
  | [] => true
  | d :: rest => readable d && (refused d || readableUpto rest)

/-! ## What has the shape is read without a fault -/

section

variable {lua : Lua σ} {elems : List Data}

theorem elem_ensures {n : ℕ} {d : Data} (there : elems[n]? = some d) :
    Ensures ((Data.array elems).elem n : Prog σ Data) (· = d) :=
  ensures_present there

theorem hasCode_ensures (has : hasCode elems = true) :
    Ensures (do let code ← (Data.array elems).elem 1; unpackFunction lua code) fun _ => True := by
  match elems, has with
  | _ :: .raw code :: _, _ =>
      refine (elem_ensures rfl).bind fun d same => ?_
      subst same
      refine (ensures_pure trivial).bind fun bytes (_ : True) => ?_
      exact ensures_ask.bind fun _ _ => ensures_pure trivial

theorem hasModule_ensures (has : hasModule elems = true) :
    Ensures (callCustomUnpack lua (.array elems)) fun _ => True := by
  match elems, has with
  | _ :: .raw name :: packed :: _, _ =>
      refine (elem_ensures rfl).bind fun d same => ?_
      subst same
      refine (ensures_pure trivial).bind fun bytes (_ : True) => ?_
      refine ensures_ask.bind fun found _ => ?_
      cases found with
      | true => exact (elem_ensures rfl).bind fun _ _ => ensures_pure trivial
      | false => exact ensures_pure trivial

theorem tag_ensures {t : ℤ} (tagged : tag elems = some t) {f : ℤ → Prog σ ℤ} {post : ℤ → Prop}
    (next : Ensures (f t) post) :
    Ensures (do let first ← (Data.array elems).elem 0; let tag ← first.toInt; f tag) post := by
  match elems, tagged with
  | .integer i64 :: _, tagged =>
      obtain rfl := Option.some.inj tagged
      refine (elem_ensures rfl).bind fun d same => ?_
      subst same
      have read : Ensures (Data.toInt (.integer i64) : Prog σ ℤ) (· = intOfSize i64.toNat) :=
        ensures_pure rfl
      refine read.bind fun tag same => ?_
      rw [same]
      exact next

theorem unpackArray_ensures (shape : readable (.array elems) = true)
    (each : readableEach elems = true → Ensures (unpackEach lua elems) fun _ => True) :
    Ensures (unpackStack lua (.array elems)) fun r => refused (.array elems) = true → r < 0 := by
  rw [readable] at shape
  rw [refused]
  cases tagged : tag elems with
  | none =>
      rw [tagged] at shape
      exact nomatch shape
  | some t =>
      rw [tagged] at shape
      rw [unpackStack, Option.any_some, decide_eq_true_eq]
      apply tag_ensures tagged
      dsimp only at shape
      split at shape
      case isTrue function =>
        rw [if_pos function]
        exact (hasCode_ensures shape).weaken fun r _ known => absurd function known.1
      case isFalse function =>
        rw [if_neg function]
        split at shape
        case isTrue userdata =>
          rw [if_pos userdata]
          exact (hasModule_ensures shape).weaken fun r _ known => absurd userdata known.2.1
        case isFalse userdata =>
          rw [if_neg userdata]
          split at shape
          case isTrue negative =>
            rw [if_pos negative]
            refine (each shape).bind fun _ _ => ensures_pure fun known => ?_
            exact absurd known.2.2 (Int.not_le.mpr negative)
          case isFalse negative =>
            rw [if_neg negative]
            exact ensures_pure fun _ => by decide

mutual

/-- A readable object is unpacked, and a refused one with an error. -/
theorem unpackStack_ensures (lua : Lua σ) : ∀ d, readable d = true →
    Ensures (unpackStack lua d) fun r => refused d = true → r < 0
  | .nil, _ => ensures_pure nofun
  | .boolean _, _ => ensures_pure nofun
  | .integer _, _ => ensures_pure nofun
  | .double _, _ => ensures_pure nofun
  | .raw _, _ => ensures_pure nofun
  | .array elems, shape => unpackArray_ensures shape (unpackEach_ensures lua elems)
  | .map entries, shape =>
      (unpackEntries_ensures lua entries shape).bind fun _ _ => ensures_pure nofun

theorem unpackEach_ensures (lua : Lua σ) : ∀ l, readableEach l = true →
    Ensures (unpackEach lua l) fun _ => True
  | [], _ => ensures_pure trivial
  | d :: rest, shape => by
      rw [readableEach, Bool.and_eq_true] at shape
      rw [unpackEach]
      exact (unpackStack_ensures lua d shape.1).bind fun _ _ => unpackEach_ensures lua rest shape.2

theorem unpackEntries_ensures (lua : Lua σ) : ∀ l, readableEntries l = true →
    Ensures (unpackEntries lua l) fun _ => True
  | [], _ => ensures_pure trivial
  | (key, val) :: rest, shape => by
      rw [readableEntries, Bool.and_eq_true, Bool.and_eq_true] at shape
      rw [unpackEntries]
      refine (unpackStack_ensures lua key shape.1.1).bind fun _ _ => ?_
      refine (unpackStack_ensures lua val shape.1.2).bind fun _ _ => ?_
      exact unpackEntries_ensures lua rest shape.2

end

/-- Arguments up to the first refused one are unpacked. -/
theorem unpackArgs_ensures (lua : Lua σ) {k n : ℕ} {args : List Data}
    (from_args : ∀ i, elems[k + i]? = args[i]?) (inside : n ≤ args.length)
    (shape : readableUpto (args.take n) = true) :
    Ensures (unpackArgs lua (fun i => (Data.array elems).elem i) (List.range' k n))
      fun _ => True := by
  induction n generalizing k args with
  | zero => exact ensures_pure trivial
  | succ n ih =>
      match args, inside with
      | d :: args, inside =>
          rw [List.take_succ_cons, readableUpto, Bool.and_eq_true, Bool.or_eq_true] at shape
          obtain ⟨reads, later⟩ := shape
          rw [List.range'_succ, unpackArgs]
          refine (elem_ensures (from_args 0)).bind fun d' same => ?_
          subst same
          refine (unpackStack_ensures lua d' reads).bind fun r refusal => ?_
          split
          case isTrue => exact ensures_pure trivial
          case isFalse kept =>
            refine ih (fun i => ?_) (Nat.le_of_succ_le_succ inside)
              (later.resolve_left fun known => kept (refusal known))
            rw [Nat.add_assoc, Nat.add_comm 1 i]
            exact from_args (i + 1)

end

/-! ## What is read without a fault has the shape -/

/-- A Lua machine that loads every chunk and knows every module. -/
def obliging : Lua Unit where
  load := fun _ s => (0, s)
  custom := fun _ s => (true, s)

section

variable {elems : List Data} {r : ℤ × Unit}

theorem elem_run {n : ℕ} {s : σ} {d : Data × σ} (run : (Data.array elems).elem n s = some d) :
    elems[n]? = some d.1 :=
  (present_eq_some.mp run).1

theorem blob_run {d : Data} {s : σ} {bytes : List UInt8 × σ} (run : d.blob s = some bytes) :
    d = .raw bytes.1 := by
  cases d with
  | raw content =>
      obtain rfl := Option.some.inj run
      rfl
  | _ => exact nomatch run

theorem hasCode_run
    (run : (do let code ← (Data.array elems).elem 1; unpackFunction obliging code) () = some r) :
    hasCode elems = true ∧ 0 ≤ r.1 := by
  obtain ⟨code, s, there, rest⟩ := bind_eq_some.mp run
  obtain ⟨bytes, s', blob, rest'⟩ := bind_eq_some.mp rest
  obtain ⟨loaded, s'', called, result⟩ := bind_eq_some.mp rest'
  have second := elem_run there
  rw [blob_run blob] at second
  obtain ⟨rfl, _⟩ := Prod.mk.inj (Option.some.inj called)
  obtain rfl := Option.some.inj result
  match elems, second with
  | _ :: _ :: _, second =>
      obtain rfl := Option.some.inj second
      exact ⟨rfl, le_rfl⟩

theorem hasModule_run (run : callCustomUnpack obliging (.array elems) () = some r) :
    hasModule elems = true ∧ 0 ≤ r.1 := by
  obtain ⟨name, s, there, rest⟩ := bind_eq_some.mp run
  obtain ⟨bytes, s', blob, rest'⟩ := bind_eq_some.mp rest
  obtain ⟨found, s'', called, tail⟩ := bind_eq_some.mp rest'
  have second := elem_run there
  rw [blob_run blob] at second
  obtain ⟨rfl, _⟩ := Prod.mk.inj (Option.some.inj called)
  obtain ⟨packed, s₃, third, result⟩ := bind_eq_some.mp tail
  obtain rfl := Option.some.inj result
  match elems, second, elem_run third with
  | _ :: _ :: _ :: _, second, _ =>
      obtain rfl := Option.some.inj second
      exact ⟨rfl, le_rfl⟩

theorem tag_run {f : ℤ → Prog σ ℤ} {s : σ} {r : ℤ × σ}
    (run : (do let first ← (Data.array elems).elem 0; let tag ← first.toInt; f tag) s = some r) :
    ∃ t s', tag elems = some t ∧ f t s' = some r := by
  obtain ⟨first, s', there, rest⟩ := bind_eq_some.mp run
  obtain ⟨t, s'', read, result⟩ := bind_eq_some.mp rest
  refine ⟨t, s'', ?_, result⟩
  match first, read with
  | .integer i64, read =>
      obtain ⟨rfl, _⟩ := Prod.mk.inj (Option.some.inj read)
      match elems, elem_run there with
      | _ :: _, rfl => rfl

theorem unpackArray_run (run : unpackStack obliging (.array elems) () = some r)
    (each : ∀ u, unpackEach obliging elems () = some u → readableEach elems = true) :
    readable (.array elems) = true ∧ (r.1 < 0 → refused (.array elems) = true) := by
  rw [unpackStack] at run
  obtain ⟨t, s, tagged, run⟩ := tag_run run
  rw [readable, refused, tagged, Option.any_some, decide_eq_true_eq]
  dsimp only
  split
  case isTrue function =>
    rw [if_pos function] at run
    obtain ⟨has, fine⟩ := hasCode_run run
    exact ⟨has, fun failed => absurd failed (Int.not_lt.mpr fine)⟩
  case isFalse function =>
    rw [if_neg function] at run
    split
    case isTrue userdata =>
      rw [if_pos userdata] at run
      obtain ⟨has, fine⟩ := hasModule_run run
      exact ⟨has, fun failed => absurd failed (Int.not_lt.mpr fine)⟩
    case isFalse userdata =>
      rw [if_neg userdata] at run
      split
      case isTrue negative =>
        rw [if_pos negative] at run
        obtain ⟨u, s', first, result⟩ := bind_eq_some.mp run
        obtain rfl := Option.some.inj result
        exact ⟨each _ first, fun failed => absurd failed (lt_irrefl 0)⟩
      case isFalse negative =>
        exact ⟨rfl, fun _ => ⟨function, userdata, Int.not_lt.mp negative⟩⟩

mutual

/-- An object that is unpacked is readable, and one that is not refused is
unpacked without an error. -/
theorem unpackStack_run : ∀ d (r : ℤ × Unit), unpackStack obliging d () = some r →
    readable d = true ∧ (r.1 < 0 → refused d = true)
  | .nil, _, run => ⟨rfl, by obtain rfl := Option.some.inj run; exact nofun⟩
  | .boolean _, _, run => ⟨rfl, by obtain rfl := Option.some.inj run; exact nofun⟩
  | .integer _, _, run => ⟨rfl, by obtain rfl := Option.some.inj run; exact nofun⟩
  | .double _, _, run => ⟨rfl, by obtain rfl := Option.some.inj run; exact nofun⟩
  | .raw _, _, run => ⟨rfl, by obtain rfl := Option.some.inj run; exact nofun⟩
  | .array elems, _, run => unpackArray_run run (unpackEach_run elems)
  | .map entries, _, run => by
      obtain ⟨u, s, first, result⟩ := bind_eq_some.mp run
      obtain rfl := Option.some.inj result
      exact ⟨unpackEntries_run entries _ first, nofun⟩

theorem unpackEach_run : ∀ l (u : Unit × Unit), unpackEach obliging l () = some u →
    readableEach l = true
  | [], _, _ => rfl
  | d :: rest, _, run => by
      obtain ⟨r, s, first, later⟩ := bind_eq_some.mp run
      rw [readableEach, Bool.and_eq_true]
      exact ⟨(unpackStack_run d _ first).1, unpackEach_run rest _ later⟩

theorem unpackEntries_run : ∀ l (u : Unit × Unit), unpackEntries obliging l () = some u →
    readableEntries l = true
  | [], _, _ => rfl
  | (key, val) :: rest, _, run => by
      obtain ⟨r, s, first, later⟩ := bind_eq_some.mp run
      obtain ⟨r', s', second, last⟩ := bind_eq_some.mp later
      rw [readableEntries, Bool.and_eq_true, Bool.and_eq_true]
      exact ⟨⟨(unpackStack_run key _ first).1, (unpackStack_run val _ second).1⟩,
        unpackEntries_run rest _ last⟩

end

theorem unpackArgs_run {k n : ℕ} {args : List Data} (from_args : ∀ i, elems[k + i]? = args[i]?)
    (run : unpackArgs obliging (fun i => (Data.array elems).elem i) (List.range' k n) () = some r) :
    readableUpto (args.take n) = true := by
  induction n generalizing k args with
  | zero => rfl
  | succ n ih =>
      rw [List.range'_succ, unpackArgs] at run
      obtain ⟨d, s, there, rest⟩ := bind_eq_some.mp run
      obtain ⟨result, s', unpacked, tail⟩ := bind_eq_some.mp rest
      obtain ⟨reads, refusal⟩ := unpackStack_run d _ unpacked
      match args, from_args, (from_args 0).symm.trans (elem_run there) with
      | _ :: args, from_args, rfl =>
          rw [List.take_succ_cons, readableUpto, Bool.and_eq_true, Bool.or_eq_true]
          refine ⟨reads, ?_⟩
          split at tail
          case isTrue failed => exact .inl (refusal failed)
          case isFalse =>
            refine .inr (ih (fun i => ?_) tail)
            rw [Nat.add_assoc, Nat.add_comm 1 i]
            exact from_args (i + 1)

end

end Cyue.Rpc
