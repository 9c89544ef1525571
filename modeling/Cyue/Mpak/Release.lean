import Cyue.Lib.Memory
import Cyue.Mpak.Container

/-!
# The mpak parser on machine words

`unpackStep` sees unread bytes, and stops where an assertion fails.  Here is
the same loop as a build without assertions runs it: over the memory behind
`p()`, with `m_ofs` and `m_len` as 64-bit numbers, lengths narrowed to `int` and
`uint32_t` where the source narrows them, and assertions that are reported
and not obeyed.  A turn also reports which bytes it has read.
-/

namespace Cyue.Mpak.Release

open Bytes Memory

variable {ρ : Type}

def sizeMax : ℕ := 2 ^ 64

/-- What the loop sees of the `pbuf` and does not change. -/
structure Input (ρ : Type) where
  mem : Mem
  last : ℕ
  rawAt : ℕ → ℕ → ρ

/-- What the heap decides: which requests it grants, and where an element of an
object leads that is no container. -/
structure Env (ρ : Type) where
  malloc : Malloc
  wild : Obj ρ → ℕ → Slot

inductive Ret where
  | unpackContinue
  | unpackSuccess
  | unpackExtraBytes
  | unpackParseError
  deriving DecidableEq, Repr

/-- How a turn ends: `continue`, a `return`, the `return UNPACK_PARSE_ERROR` of
`l_pushstack`, or not at all because `sbuf::malloc` never returns. -/
inductive Next (ρ : Type) where
  | go (ctx : Context ρ)
  | ret (ret : Ret) (ctx : Context ρ)
  | tooNested (ctx : Context ρ)
  | hangs

/-- A turn of the loop: how it ends, the new `m_ofs`, the offsets and lengths of
its reads, and whether its assertions hold but for those that guard a returned
parse error. -/
structure Turn (ρ : Type) where
  next : Next ρ
  ofs : ℕ
  reads : List (ℕ × ℕ)
  asserts : Bool

def Turn.after (turn : Turn ρ) (reads : List (ℕ × ℕ)) (asserts : Bool) : Turn ρ :=
  { turn with reads := reads ++ turn.reads, asserts := asserts && turn.asserts }

@[simp] theorem Turn.after_nil (turn : Turn ρ) : turn.after [] true = turn := rfl

/-- The assertion of `pbuf::add_parsed_ofs`, for the `int` it is given. -/
def parsedOfsHolds (last ofs : ℕ) (sz : Int) : Bool :=
  decide (sz = 0 ∨ (sz < 0 ∧ -sz < ofs) ∨ (0 < sz ∧ ofs + sz ≤ last))

def addParsedOfs (ofs : ℕ) (sz : ℕ) : ℕ := ((ofs + intOfSize sz) % sizeMax).toNat

/-- `(sp->require_len + pbf.ofs()) > pbf.last()`. -/
def lacking (input : Input ρ) (requireLen ofs : ℕ) : Bool :=
  decide (input.last < (requireLen + ofs) % sizeMax)

/-- `cast_to` of an unsigned type of `width` bytes. -/
def castTo (input : Input ρ) (ofs width : ℕ) : ℕ := beNat (load input.mem ofs width)

/-! ## Containers -/

/-- `sizeof` of what a container allocates for each of its entries. -/
def entrySize : Shape → ℕ
  | .array => sizeofObject
  | .map => 2 * sizeofObject

/-- The bytes that `init_array` or `init_map` asks for. -/
def request (shape : Shape) (sz : ℕ) : ℕ := sz * entrySize shape % sizeMax

inductive Init (ρ : Type) where
  | made (ctx : Context ρ)
  | refused
  | hangs

/-- `init_array` and `init_map`.  `sbuf::malloc` doubles a `size_t` from 256 on
until it covers the request, which it never does beyond 2^63. -/
def init (shape : Shape) (malloc : Malloc) (ctx : Context ρ) (d : Slot) (sz : ℕ) : Init ρ :=
  if sz = 0 then .made (ctx.write d (shape.obj 0 0))
  else if 2 ^ 63 < request shape sz then .hangs
  else if malloc (request shape sz) then
    .made (({ ctx with
      cells := ctx.cells ++ List.replicate (request shape sz / sizeofObject) Obj.uninit }).write d
        (shape.obj (sz % 2 ^ 32) ctx.cells.length))
  else .refused

theorem init_stack {shape : Shape} {malloc : Malloc} {ctx next : Context ρ} {d : Slot} {sz : ℕ}
    (made : init shape malloc ctx d sz = .made next) :
    next.stackHeight = ctx.stackHeight ∧ next.stack = ctx.stack := by
  unfold init at made
  split_ifs at made
  · cases made
    exact ⟨Context.write_stackHeight _ _ _, Context.write_stack _ _ _⟩
  · cases made
    exact ⟨Context.write_stackHeight _ _ _, Context.write_stack _ _ _⟩

def initArray (malloc : Malloc) (ctx : Context ρ) (d : Slot) (sz : ℕ) : Init ρ :=
  init .array malloc ctx d sz

def initMap (malloc : Malloc) (ctx : Context ρ) (d : Slot) (sz : ℕ) : Init ρ :=
  init .map malloc ctx d sz

/-- `data::elem_new`, and whether its assertion holds. -/
def elemNew (env : Env ρ) (ctx : Context ρ) (d : Slot) (idx : ℕ) : Slot × Bool :=
  match ctx.read d with
  | .array size ptr => (.cell (ptr + idx), decide (idx < size))
  | obj => (env.wild obj idx, false)

def keyNew (env : Env ρ) (ctx : Context ρ) (d : Slot) (idx : ℕ) : Slot × Bool :=
  match ctx.read d with
  | .map size ptr => (.cell (ptr + 2 * idx), decide (idx < size))
  | obj => (env.wild obj (2 * idx), false)

def valNew (env : Env ρ) (ctx : Context ρ) (d : Slot) (idx : ℕ) : Slot × Bool :=
  match ctx.read d with
  | .map size ptr => (.cell (ptr + 2 * idx + 1), decide (idx < size))
  | obj => (env.wild obj (2 * idx + 1), false)

/-! ## The labels -/

def waitNextBuffer (ctx : Context ρ) (ofs : ℕ) : Turn ρ := ⟨.ret .unpackContinue ctx, ofs, [], true⟩

def error (ctx : Context ρ) (ofs : ℕ) : Turn ρ := ⟨.ret .unpackParseError ctx, ofs, [], true⟩

def keepStack (ctx : Context ρ) (ofs : ℕ) : Turn ρ := ⟨.go ctx, ofs, [], true⟩

/-- `l_pushstack`, with what `elem_new`, `key_new` or `val_new` has put in `obj`. -/
def pushStack (ctx : Context ρ) (obj : Slot × Bool) (ofs : ℕ) : Turn ρ :=
  let ctx := { ctx with stackHeight := ctx.stackHeight + 1 }
  if unpackStackDepth ≤ ctx.stackHeight then ⟨.tooNested ctx, ofs, [], obj.2⟩
  else ⟨.go (ctx.setTop { ctx.top with d := obj.1, status := .initial }), ofs, [], obj.2⟩

def popStack (input : Input ρ) (ctx : Context ρ) (ofs : ℕ) : Turn ρ :=
  if ctx.stackHeight = 0 then
    ⟨.ret (if input.last = ofs then .unpackSuccess else .unpackExtraBytes) ctx, ofs, [], true⟩
  else
    let ctx := { ctx with stackHeight := ctx.stackHeight - 1 }
    ⟨.go ctx, ofs, [], decide (ctx.top.status ≠ .initial)⟩

def lengthCheck (env : Env ρ) (input : Input ρ) (ctx : Context ρ) (ofs : ℕ) : Turn ρ :=
  let sp := ctx.top
  match sp.requireType with
  | .array =>
      match initArray env.malloc ctx sp.d sp.requireLen with
      | .hangs => ⟨.hangs, ofs, [], true⟩
      | .refused => error ctx ofs
      | .made ctx =>
          if sp.requireLen = 0 then popStack input ctx ofs
          else
            let ctx := ctx.setTop { sp with status := .processArray, nPopObj := 0 }
            pushStack ctx (elemNew env ctx sp.d 0) ofs
  | .map =>
      match initMap env.malloc ctx sp.d sp.requireLen with
      | .hangs => ⟨.hangs, ofs, [], true⟩
      | .refused => error ctx ofs
      | .made ctx =>
          if sp.requireLen = 0 then popStack input ctx ofs
          else
            let ctx := ctx.setTop { sp with status := .processMap, nPopObj := 0 }
            pushStack ctx (keyNew env ctx sp.d 0) ofs
  | _ => keepStack (ctx.setTop { sp with status := .processData }) ofs

def started (sp : StackMem) : Shape → StackMem
  | .array => { sp with status := .processArray, nPopObj := 0 }
  | .map => { sp with status := .processMap, nPopObj := 0 }

def firstNew (env : Env ρ) (ctx : Context ρ) (d : Slot) : Shape → Slot × Bool
  | .array => elemNew env ctx d 0
  | .map => keyNew env ctx d 0

/-- `l_length_check` at a container. -/
theorem lengthCheck_container (env : Env ρ) (input : Input ρ) {ctx : Context ρ} (ofs : ℕ)
    {shape : Shape} (kind : ctx.top.requireType = shape.kind) :
    lengthCheck env input ctx ofs =
      match init shape env.malloc ctx ctx.top.d ctx.top.requireLen with
      | .hangs => ⟨.hangs, ofs, [], true⟩
      | .refused => error ctx ofs
      | .made next =>
          if ctx.top.requireLen = 0 then popStack input next ofs
          else
            let next := next.setTop (started ctx.top shape)
            pushStack next (firstNew env next ctx.top.d shape) ofs := by
  unfold lengthCheck
  dsimp only
  split
  · next array =>
      have same : shape = .array := by
        cases shape with
        | array => rfl
        | map => exact nomatch array.symm.trans kind
      subst same
      rw [initArray]
      cases init .array env.malloc ctx ctx.top.d ctx.top.requireLen <;> rfl
  · next map =>
      have same : shape = .map := by
        cases shape with
        | array => exact nomatch map.symm.trans kind
        | map => rfl
      subst same
      rw [initMap]
      cases init .map env.malloc ctx ctx.top.d ctx.top.requireLen <;> rfl
  · next no_array no_map =>
      cases shape with
      | array => exact absurd kind no_array
      | map => exact absurd kind no_map

/-- `l_length_check` at anything else. -/
theorem lengthCheck_other (env : Env ρ) (input : Input ρ) {ctx : Context ρ} (ofs : ℕ)
    (other : ∀ shape : Shape, ctx.top.requireType ≠ shape.kind) :
    lengthCheck env input ctx ofs =
      keepStack (ctx.setTop { ctx.top with status := .processData }) ofs := by
  unfold lengthCheck
  dsimp only
  split
  · next kind => exact absurd kind (other .array)
  · next kind => exact absurd kind (other .map)
  · rfl

/-! ## The states -/

/-- `case context::INITIAL`, on the popped byte. -/
def turnInitial (env : Env ρ) (input : Input ρ) (ctx : Context ρ) (ofs : ℕ) (b : UInt8) :
    Turn ρ :=
  let sp := ctx.top
  if b ≤ 0x7f then popStack input (ctx.write sp.d (.integer b.toUInt64)) ofs
  else if b &&& 0xe0 = 0xa0 then
    keepStack (ctx.setTop { sp with requireLen := (b &&& 0x1f).toNat, status := .processData,
                                    requireType := .blob }) ofs
  else if b &&& 0xf0 = 0x90 then
    lengthCheck env input
      (ctx.setTop { sp with requireLen := (b &&& 0x0f).toNat, requireType := .array }) ofs
  else if b &&& 0xf0 = 0x80 then
    lengthCheck env input
      (ctx.setTop { sp with requireLen := (b &&& 0x0f).toNat, requireType := .map }) ofs
  else if b = 0xc0 then popStack input (ctx.write sp.d .nil) ofs
  else if b = 0xc2 then popStack input (ctx.write sp.d (.boolean false)) ofs
  else if b = 0xc3 then popStack input (ctx.write sp.d (.boolean true)) ofs
  else if 0xc4 ≤ b ∧ b ≤ 0xdf then
    let dst := destTable.getD (b &&& 0x1f).toNat (.processData, 0, .nil)
    keepStack (ctx.setTop { sp with status := dst.1, requireLen := dst.2.1,
                                    requireType := dst.2.2 }) ofs
  else if 0xe0 ≤ b then
    popStack input (ctx.write sp.d (.integer (UInt64.ofNat (2 ^ 64 - 256 + b.toNat)))) ofs
  else error ctx ofs

/-- Whether the source has a `cast_to` for a width. -/
def castable (width : ℕ) : Bool := decide (width = 1 ∨ width = 2 ∨ width = 4 ∨ width = 8)

/-- `sp->require_len` after the inner `switch` of `case context::PROCESS_LENGTH`. -/
def lengthRead (input : Input ρ) (ofs tmp : ℕ) : ℕ :=
  if castable tmp then castTo input ofs tmp else tmp

def turnLength (env : Env ρ) (input : Input ρ) (ctx : Context ρ) (ofs : ℕ) : Turn ρ :=
  let sp := ctx.top
  if lacking input sp.requireLen ofs then waitNextBuffer ctx ofs
  else
    let tmp := sp.requireLen
    (lengthCheck env input (ctx.setTop { sp with requireLen := lengthRead input ofs tmp })
      (addParsedOfs ofs tmp)).after
        (if castable tmp then [(ofs, tmp)] else [])
        (parsedOfsHolds input.last ofs (intOfSize tmp))

def turnData (input : Input ρ) (ctx : Context ρ) (ofs : ℕ) : Turn ρ :=
  let sp := ctx.top
  let parsed := addParsedOfs ofs sp.requireLen
  let holds := parsedOfsHolds input.last ofs (intOfSize sp.requireLen)
  if lacking input sp.requireLen ofs then waitNextBuffer ctx ofs
  else
    match sp.requireType with
    | .integer =>
        if castable sp.requireLen then
          (popStack input (ctx.write sp.d
            (.integer (UInt64.ofNat (castTo input ofs sp.requireLen)))) parsed).after
              [(ofs, sp.requireLen)] holds
        else error ctx ofs
    | .double =>
        if sp.requireLen = 8 then
          (popStack input (ctx.write sp.d
            (.double (.bits (UInt64.ofNat (castTo input ofs 8))))) parsed).after [(ofs, 8)] holds
        else
          (popStack input (ctx.write sp.d
            (.double (.single (UInt32.ofNat (castTo input ofs 4))))) parsed).after
              [(ofs, 4)] (decide (sp.requireLen = 4) && holds)
    | .blob =>
        (popStack input (ctx.write sp.d
          (.raw (input.rawAt ofs (sp.requireLen % 2 ^ 32)) (sp.requireLen % 2 ^ 32)))
            parsed).after [] holds
    | _ => error ctx ofs

def turnArray (env : Env ρ) (input : Input ρ) (ctx : Context ρ) (ofs : ℕ) : Turn ρ :=
  let sp := { ctx.top with nPopObj := ctx.top.nPopObj + 1 }
  let ctx := ctx.setTop sp
  if sp.nPopObj < sp.requireLen then pushStack ctx (elemNew env ctx sp.d sp.nPopObj) ofs
  else popStack input ctx ofs

def turnMap (env : Env ρ) (ctx : Context ρ) (ofs : ℕ) : Turn ρ :=
  let sp := { ctx.top with status := .processMapVal }
  let ctx := ctx.setTop sp
  pushStack ctx (valNew env ctx sp.d sp.nPopObj) ofs

def turnMapVal (env : Env ρ) (input : Input ρ) (ctx : Context ρ) (ofs : ℕ) : Turn ρ :=
  let sp := { ctx.top with nPopObj := ctx.top.nPopObj + 1 }
  if sp.nPopObj < sp.requireLen then
    let ctx := ctx.setTop { sp with status := .processMap }
    pushStack ctx (keyNew env ctx sp.d sp.nPopObj) ofs
  else popStack input (ctx.setTop sp) ofs

def turn (env : Env ρ) (input : Input ρ) (ctx : Context ρ) (ofs : ℕ) : Turn ρ :=
  match ctx.top.status with
  | .initial =>
      if ofs < input.last then
        (turnInitial env input ctx (ofs + 1) (input.mem ofs)).after [(ofs, 1)] true
      else waitNextBuffer ctx ofs
  | .processLength => turnLength env input ctx ofs
  | .processData => turnData input ctx ofs
  | .processArray => turnArray env input ctx ofs
  | .processMap => turnMap env ctx ofs
  | .processMapVal => turnMapVal env input ctx ofs

/-! ## The branches of a state -/

section

variable {env : Env ρ} {input : Input ρ} {ctx : Context ρ} {ofs : ℕ} {motive : Turn ρ → Prop}

/-- The entries of the table that are read as a length have two or four bytes. -/
theorem destTable_entry (i : ℕ) (motive : ParseState × ℕ × Kind → Prop)
    (length : ∀ rlen ≤ 4, ∀ rtype, motive (.processLength, rlen, rtype))
    (data : ∀ rlen ≤ 8, ∀ rtype, motive (.processData, rlen, rtype)) :
    motive (destTable.getD i (.processData, 0, .nil)) := by
  rw [List.getD_eq_getElem?_getD]
  cases found : destTable[i]? with
  | none => exact data 0 (Nat.zero_le 8) .nil
  | some dst =>
      have all : ∀ dst ∈ destTable, dst.1 = .processLength ∧ dst.2.1 ≤ 4 ∨
          dst.1 = .processData ∧ dst.2.1 ≤ 8 := by decide
      obtain ⟨state, rlen, rtype⟩ := dst
      rcases all _ (List.mem_of_getElem? found) with ⟨same, short⟩ | ⟨same, short⟩
      · dsimp only at same
        subst same
        exact length rlen short rtype
      · dsimp only at same
        subst same
        exact data rlen short rtype

/-- A byte is a value of its own, the tag of a field, the header of a container or
unknown. -/
theorem turnInitial_cases (b : UInt8)
    (stores : ∀ obj : Obj ρ, (∀ p size, obj ≠ .raw p size) →
      motive (popStack input (ctx.write ctx.top.d obj) ofs))
    (tags : ∀ frame : StackMem, frame.d = ctx.top.d →
      frame.status = .processLength ∧ frame.requireLen ≤ 4 ∨
        frame.status = .processData ∧ frame.requireLen < 256 →
      motive (keepStack (ctx.setTop frame) ofs))
    (counts : ∀ requireLen < 256, ∀ requireType,
      motive (lengthCheck env input (ctx.setTop { ctx.top with requireLen, requireType }) ofs))
    (fails : motive (error ctx ofs)) : motive (turnInitial env input ctx ofs b) := by
  unfold turnInitial
  dsimp only
  split_ifs
  · exact stores _ fun _ _ same => nomatch same
  · exact tags _ rfl (.inr ⟨rfl, UInt8.toNat_lt _⟩)
  · exact counts _ (UInt8.toNat_lt _) _
  · exact counts _ (UInt8.toNat_lt _) _
  · exact stores _ fun _ _ same => nomatch same
  · exact stores _ fun _ _ same => nomatch same
  · exact stores _ fun _ _ same => nomatch same
  · refine tags _ rfl ?_
    dsimp only
    refine destTable_entry (b &&& 0x1f).toNat (fun dst => dst.1 = .processLength ∧ dst.2.1 ≤ 4 ∨
      dst.1 = .processData ∧ dst.2.1 < 256) ?_ ?_
    · exact fun rlen short _ => .inl ⟨rfl, short⟩
    · exact fun rlen short _ => .inr ⟨rfl, Nat.lt_of_le_of_lt short (by decide)⟩
  · exact stores _ fun _ _ same => nomatch same
  · exact fails

/-- The end of a field is awaited, or its value stored, or refused. -/
theorem turnData_cases (waits : motive (waitNextBuffer ctx ofs))
    (stores : ∀ obj reads asserts, motive ((popStack input (ctx.write ctx.top.d obj)
      (addParsedOfs ofs ctx.top.requireLen)).after reads asserts))
    (fails : motive (error ctx ofs)) : motive (turnData input ctx ofs) := by
  unfold turnData
  dsimp only
  split
  · exact waits
  · split
    · split
      · exact stores _ _ _
      · exact fails
    · split
      · exact stores _ _ _
      · exact stores _ _ _
    · exact stores _ _ _
    · exact fails

end

/-! ## The loop -/

/-- Where the loop is: before a turn, or after its end. -/
inductive Loop (ρ : Type) where
  | running (ctx : Context ρ) (ofs : ℕ)
  | returned (ret : Ret) (ctx : Context ρ) (ofs : ℕ)
  | hung

def Loop.step (env : Env ρ) (input : Input ρ) : Loop ρ → Loop ρ
  | .running ctx ofs =>
      match (turn env input ctx ofs).next with
      | .go next => .running next (turn env input ctx ofs).ofs
      | .ret ret next => .returned ret next (turn env input ctx ofs).ofs
      | .tooNested next => .returned .unpackParseError next (turn env input ctx ofs).ofs
      | .hangs => .hung
  | ended => ended

/-- The loop after so many turns, when the heap answers each of them for itself. -/
def loop (envs : ℕ → Env ρ) (input : Input ρ) (ctx : Context ρ) (ofs : ℕ) : ℕ → Loop ρ
  | 0 => .running ctx ofs
  | n + 1 => (loop envs input ctx ofs n).step (envs n) input

end Cyue.Mpak.Release
