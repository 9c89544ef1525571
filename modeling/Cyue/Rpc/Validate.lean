import Cyue.Rpc.Object

/-!
# What the fabric reads of an accepted message

`fabric::recv` checks a decoded object with `validate_as_rpc_message` and then
reads it itself, through `fiber::start` and through the coroutine that it
starts or resumes.  Everything outside of the object is an environment: a pool
that may be empty, a Lua machine, the table of yielded fibers.
-/

namespace Cyue.Rpc

open Fallible Mpak

variable {σ : Type}

namespace Data

def validateAsRpcMessage : Data → Bool
  | .array _ => true
  | _ => false

def type (o : Data) : Prog σ UInt8 := do
  let d ← o.elem 0
  let u ← d.toU32
  pure u.toUInt8

def msgid (o : Data) : Prog σ UInt32 := do
  let d ← o.elem 1
  d.toU32

def cmd (o : Data) : Prog σ Data := o.elem 2

def arg (o : Data) (idx : ℕ) : Prog σ Data := do
  let d ← o.elem 3
  d.elem idx

def alen (o : Data) : Prog σ ℤ := do
  let d ← o.elem 3
  let n ← d.size
  pure (intOfSize n)

def resp (o : Data) : Prog σ Data := o.elem 3

def error (o : Data) : Prog σ Data := o.elem 2

def isRequest (o : Data) : Prog σ Bool := do
  let t ← o.type
  pure (t = 0)

def isResponse (o : Data) : Prog σ Bool := do
  let t ← o.type
  pure (t = 1)

def isNotify (o : Data) : Prog σ Bool := do
  let t ← o.type
  pure (t = 2)

def isError (o : Data) : Prog σ Bool := do
  let response ← o.isResponse
  if response then do
    let e ← o.error
    pure (e.kind ≠ .nil)
  else pure false

end Data

/-! ## The consumers -/

/-- What the consumers ask of their surroundings. -/
structure Env (σ : Type) where
  lua : Lua σ
  create : σ → Bool × σ
  authorized : σ → Bool × σ
  hasNamespace : σ → Bool × σ
  hasProc : σ → Bool × σ
  findAndEraseIf : UInt32 → σ → Bool × σ

def enotfound : ℤ := -9

def emalloc : ℤ := -1

/-- `load_proc`, where `push_procname` is an `unpack_stack`. -/
def loadProc (env : Env σ) (proc : Data) : Prog σ ℤ := do
  let table ← ask env.hasNamespace
  if table then do
    let _ ← unpackStack env.lua proc
    let found ← ask env.hasProc
    pure (if found then 1 else enotfound)
  else pure enotfound

/-- `coroutine::start` of a request, up to the resumption with as many values
as the result says; `none` is `exec_error`. -/
def coStart (env : Env σ) (o : Data) : Prog σ (Option ℤ) := do
  let al ← o.alen
  let allowed ← ask env.authorized
  if allowed then do
    let proc ← o.cmd
    let r ← loadProc env proc
    if r < 0 then do
      let _ ← o.msgid
      pure none
    else do
      let r ← unpackArgs env.lua o.arg (List.range al.toNat)
      pure (if r < 0 then none else some al)
  else pure none

/-- `fabric::start` and `fiber::start` of a request. -/
def start (env : Env σ) (o : Data) : Prog σ (Option ℤ) := do
  let created ← ask env.create
  if created then do
    let _ ← o.msgid
    let _ ← o.msgid
    coStart env o
  else pure (some emalloc)

def unpackResponseToStack (env : Env σ) (o : Data) : Prog σ ℤ := do
  let failed ← o.isError
  if failed then do
    let e ← o.error
    let r ← unpackStack env.lua e
    pure (if r < 0 then r else 2)
  else do
    let d ← o.resp
    let n ← d.size
    let al := intOfSize n
    let r ← unpackArgs env.lua (fun i => do let d ← o.resp; d.elem i) (List.range al.toNat)
    pure (if r < 0 then r else al + 1)

theorem unpackResponse_error {env : Env σ} {o e : Data} {r : ℤ} {s s' : σ}
    (failed : o.isError s = some (true, s)) (there : o.error s = some (e, s))
    (call : unpackStack env.lua e s = some (r, s')) :
    unpackResponseToStack env o s = some (if r < 0 then r else 2, s') :=
  bind_eq_some.mpr ⟨true, s, failed, bind_eq_some.mpr ⟨e, s, there,
    bind_eq_some.mpr ⟨r, s', call, rfl⟩⟩⟩

theorem unpackResponse_values {env : Env σ} {o d : Data} {n : ℕ} {al r : ℤ} {s s' : σ}
    (success : o.isError s = some (false, s)) (there : o.resp s = some (d, s))
    (size : d.size s = some (n, s)) (narrowed : intOfSize n = al)
    (loop : unpackArgs env.lua (fun i => do let d ← o.resp; d.elem i) (List.range al.toNat) s =
      some (r, s')) :
    unpackResponseToStack env o s = some (if r < 0 then r else al + 1, s') := by
  subst narrowed
  exact bind_eq_some.mpr ⟨false, s, success, bind_eq_some.mpr ⟨d, s, there,
    bind_eq_some.mpr ⟨n, s, size, bind_eq_some.mpr ⟨r, s', loop, rfl⟩⟩⟩⟩

/-- `coroutine::resume` with a response. -/
def coResume (env : Env σ) (o : Data) : Prog σ (Option ℤ) := do
  let r ← unpackResponseToStack env o
  pure (if r < 0 then none else some r)

def recv (env : Env σ) (o : Data) : Prog σ ℤ :=
  if o.validateAsRpcMessage then do
    let request ← o.isRequest
    if request then do
      let _ ← start env o
      pure 0
    else do
      let response ← o.isResponse
      if response then do
        let id ← o.msgid
        let found ← ask (env.findAndEraseIf id)
        if found then do
          let _ ← coResume env o
          pure 0
        else pure 0
      else do
        let _ ← o.isNotify
        pure 0
  else pure einval

/-! ## The shape of a message -/

/-- The count that the loops use: the `U32` size as an `int`. -/
def count (n : ℕ) : ℕ := (intOfSize (n % 2 ^ 32 : ℕ)).toNat

/-- An array of objects for Lua; a map passes when it has no entries. -/
def listShape : Data → Bool
  | .array elems => readableUpto (elems.take (count elems.length))
  | .map entries => count entries.length = 0
  | _ => false

/-- `[msgid, command, arguments]`. -/
def requestShape : List Data → Bool
  | .integer _ :: proc :: args :: _ => readable proc && listShape args
  | _ => false

/-- `error` and what follows it. -/
def resultShape (error : Data) (rest : List Data) : Bool :=
  if error.kind = .nil then rest.head?.any listShape else readable error

/-- `[msgid, error, response]`. -/
def responseShape : List Data → Bool
  | .integer _ :: error :: rest => resultShape error rest
  | _ => false

/-- `[type, ..]`, by the type that is read of the first element. -/
def messageShape : List Data → Bool
  | .integer t :: rest =>
      if t.toUInt32.toUInt8 = 0 then requestShape rest
      else if t.toUInt32.toUInt8 = 1 then responseShape rest
      else true
  | _ => false

/-- What the validator would have to check: an array with the shape of its
message type, or no array at all. -/
def wellFormed : Data → Bool
  | .array elems => messageShape elems
  | _ => true

theorem count_le (n : ℕ) : count n ≤ n := by
  have bounds := intOfSize_le (n % 2 ^ 32)
  rw [count]
  omega

section

variable {env : Env σ} {elems : List Data} {d : Data}

/-! ## A message of that shape is read without a fault -/

theorem arg_eq (there : elems[3]? = some d) :
    ((Data.array elems).arg : ℕ → Prog σ Data) = d.elem := by
  funext i
  change ((present elems[3]? : Prog σ Data) >>= fun d => d.elem i) = _
  rw [there]
  rfl

theorem resp_eq (there : elems[3]? = some d) :
    (fun i => (Data.array elems).resp >>= fun d => d.elem i : ℕ → Prog σ Data) =
      fun i => d.elem i :=
  arg_eq there

/-- The count of a list for Lua, and the loop of that many turns. -/
theorem listShape_ensures (lua : Lua σ) (shape : listShape d = true) :
    ∃ n, (d.size : Prog σ ℕ) = pure n ∧
      Ensures (unpackArgs lua (fun i => d.elem i) (List.range (intOfSize n).toNat))
        fun _ => True := by
  cases d with
  | array elems =>
      have inside := count_le elems.length
      rw [listShape] at shape
      rw [count] at inside shape
      refine ⟨elems.length % 2 ^ 32, rfl, ?_⟩
      rw [List.range_eq_range']
      exact unpackArgs_ensures lua (fun i => by rw [Nat.zero_add]) inside shape
  | map entries =>
      rw [listShape, decide_eq_true_eq, count] at shape
      refine ⟨entries.length % 2 ^ 32, rfl, ?_⟩
      rw [shape]
      exact ensures_pure trivial
  | _ => exact nomatch shape

theorem loadProc_ensures {proc : Data} (reads : readable proc = true) :
    Ensures (loadProc env proc) fun _ => True := by
  refine ensures_ask.bind fun table _ => ?_
  cases table with
  | false => exact ensures_pure trivial
  | true =>
      refine (unpackStack_ensures env.lua proc reads).bind fun _ _ => ?_
      exact ensures_ask.bind fun _ _ => ensures_pure trivial

theorem toU32_ensures {i : UInt64} :
    Ensures (Data.toU32 (.integer i) : Prog σ UInt32) (· = i.toUInt32) :=
  ensures_pure rfl

theorem msgid_ensures {i : UInt64} (there : elems[1]? = some (.integer i)) :
    Ensures ((Data.array elems).msgid : Prog σ UInt32) fun _ => True := by
  refine (elem_ensures there).bind fun e same => ?_
  subst same
  exact toU32_ensures.weaken fun _ _ => trivial

theorem type_ensures {t : UInt64} (there : elems[0]? = some (.integer t)) :
    Ensures ((Data.array elems).type : Prog σ UInt8) (· = t.toUInt32.toUInt8) := by
  refine (elem_ensures there).bind fun e same => ?_
  subst same
  refine toU32_ensures.bind fun u same => ?_
  rw [same]
  exact ensures_pure rfl

theorem start_ensures {first : Data} {rest : List Data} (shape : requestShape rest = true) :
    Ensures (start env (.array (first :: rest))) fun _ => True := by
  match rest, shape with
  | .integer i :: proc :: args :: more, shape =>
      rw [requestShape, Bool.and_eq_true] at shape
      obtain ⟨n, sized, loop⟩ := listShape_ensures env.lua shape.2
      refine ensures_ask.bind fun created _ => ?_
      cases created with
      | false => exact ensures_pure trivial
      | true =>
          refine (msgid_ensures rfl).bind fun _ _ => (msgid_ensures rfl).bind fun _ _ => ?_
          have counted : Ensures
              ((Data.array (first :: .integer i :: proc :: args :: more)).alen : Prog σ ℤ)
              (· = intOfSize n) := by
            refine (elem_ensures rfl).bind fun e same => ?_
            subst same
            rw [sized]
            exact ensures_pure rfl
          refine counted.bind fun al same => ensures_ask.bind fun allowed _ => ?_
          rw [same]
          cases allowed with
          | false => exact ensures_pure trivial
          | true =>
              refine (elem_ensures rfl).bind fun e same => ?_
              subst same
              refine (loadProc_ensures shape.1).bind fun r _ => ?_
              split
              case isTrue => exact (msgid_ensures rfl).bind fun _ _ => ensures_pure trivial
              case isFalse =>
                rw [arg_eq rfl]
                exact loop.bind fun _ _ => ensures_pure trivial

theorem isResponse_ensures {t : UInt64} (there : elems[0]? = some (.integer t)) :
    Ensures ((Data.array elems).isResponse : Prog σ Bool)
      (· = decide (t.toUInt32.toUInt8 = 1)) := by
  refine (type_ensures there).bind fun u same => ?_
  rw [same]
  exact ensures_pure rfl

theorem resume_ensures {t i : UInt64} {error : Data} {rest : List Data}
    (response : t.toUInt32.toUInt8 = 1) (shape : resultShape error rest = true) :
    Ensures (coResume env (.array (.integer t :: .integer i :: error :: rest))) fun _ => True := by
  refine Ensures.bind ?_ fun (_ : _) (_ : True) => ensures_pure trivial
  have failed : Ensures
      ((Data.array (.integer t :: .integer i :: error :: rest)).isError : Prog σ Bool)
      (· = decide (error.kind ≠ .nil)) := by
    refine (isResponse_ensures rfl).bind fun _ same => ?_
    rw [same, decide_eq_true response]
    refine (elem_ensures rfl).bind fun e same => ?_
    subst same
    exact ensures_pure rfl
  refine failed.bind fun _ same => ?_
  subst same
  rw [resultShape] at shape
  by_cases success : error.kind = .nil
  · rw [if_pos success] at shape
    rw [if_neg (by simpa using success)]
    match rest, shape with
    | resp :: more, shape =>
        obtain ⟨n, sized, loop⟩ := listShape_ensures env.lua shape
        refine (elem_ensures rfl).bind fun e same => ?_
        subst same
        rw [sized]
        refine (ensures_pure rfl).bind fun n' (same : n = n') => ?_
        subst same
        exact loop.bind fun _ _ => ensures_pure trivial
  · rw [if_neg success] at shape
    rw [if_pos (by simpa using success)]
    refine (elem_ensures rfl).bind fun e same => ?_
    subst same
    exact (unpackStack_ensures env.lua e shape).bind fun _ _ => ensures_pure trivial

/-- An accepted message of the right shape is read without a fault. -/
theorem recv_ensures (env : Env σ) (shape : messageShape elems = true) :
    Ensures (recv env (.array elems)) fun _ => True := by
  match elems, shape with
  | .integer t :: rest, shape =>
      rw [messageShape] at shape
      rw [recv, if_pos (by rfl)]
      have request : Ensures ((Data.array (.integer t :: rest)).isRequest : Prog σ Bool)
          (· = decide (t.toUInt32.toUInt8 = 0)) := by
        refine (type_ensures rfl).bind fun u same => ?_
        rw [same]
        exact ensures_pure rfl
      refine request.bind fun asked same => ?_
      rw [same]
      by_cases zero : t.toUInt32.toUInt8 = 0
      · rw [if_pos zero] at shape
        rw [if_pos (decide_eq_true zero)]
        exact (start_ensures shape).bind fun _ _ => ensures_pure trivial
      · rw [if_neg zero] at shape
        rw [if_neg (by simpa using zero)]
        refine (isResponse_ensures rfl).bind fun answered same => ?_
        rw [same]
        by_cases one : t.toUInt32.toUInt8 = 1
        · rw [if_pos one] at shape
          rw [if_pos (decide_eq_true one)]
          match rest, shape with
          | .integer i :: error :: rest, shape =>
              refine (msgid_ensures rfl).bind fun id _ => ensures_ask.bind fun found _ => ?_
              cases found with
              | true => exact (resume_ensures one shape).bind fun _ _ => ensures_pure trivial
              | false => exact ensures_pure trivial
        · rw [if_neg (by simpa using one)]
          refine Ensures.bind ?_ fun (_ : _) (_ : True) => ensures_pure trivial
          exact (type_ensures rfl).bind fun _ _ => ensures_pure trivial

end

/-! ## A message that is always read without a fault has the shape -/

/-- Surroundings in which everything is found. -/
def willing : Env Unit where
  lua := obliging
  create := fun s => (true, s)
  authorized := fun s => (true, s)
  hasNamespace := fun s => (true, s)
  hasProc := fun s => (true, s)
  findAndEraseIf := fun _ s => (true, s)

section

variable {elems : List Data} {d : Data} {s : σ}

theorem toU32_run {r : UInt32 × σ} (run : d.toU32 s = some r) :
    ∃ i, d = .integer i ∧ r.1 = i.toUInt32 := by
  cases d with
  | integer i =>
      obtain rfl := pure_eq_some.mp run
      exact ⟨i, rfl, rfl⟩
  | _ => exact nomatch run

theorem type_run {r : UInt8 × σ} (run : (Data.array elems).type s = some r) :
    ∃ t rest, elems = .integer t :: rest ∧ r.1 = t.toUInt32.toUInt8 := by
  obtain ⟨e, s', there, tail⟩ := bind_eq_some.mp run
  obtain ⟨u, s'', read, result⟩ := bind_eq_some.mp tail
  obtain ⟨t, rfl, same⟩ := toU32_run read
  obtain rfl := pure_eq_some.mp result
  match elems, elem_run there with
  | _ :: rest, rfl => exact ⟨t, rest, rfl, congrArg UInt32.toUInt8 same⟩

theorem msgid_run {r : UInt32 × σ} (run : (Data.array elems).msgid s = some r) :
    ∃ i, elems[1]? = some (.integer i) := by
  obtain ⟨e, s', there, read⟩ := bind_eq_some.mp run
  obtain ⟨i, rfl, _⟩ := toU32_run read
  exact ⟨i, elem_run there⟩

theorem listShape_run {n : ℕ × Unit} {r : ℤ × Unit} (sized : d.size () = some n)
    (run : unpackArgs obliging (fun i => d.elem i) (List.range (intOfSize n.1).toNat) () = some r) :
    listShape d = true := by
  cases d with
  | array elems =>
      obtain rfl := pure_eq_some.mp sized
      rw [listShape, count]
      rw [List.range_eq_range'] at run
      exact unpackArgs_run (fun i => by rw [Nat.zero_add]) run
  | map entries =>
      obtain rfl := pure_eq_some.mp sized
      rw [listShape, count, decide_eq_true_eq]
      cases turns : (intOfSize (entries.length % 2 ^ 32 : ℕ)).toNat with
      | zero => rfl
      | succ n =>
          rw [turns, List.range_succ_eq_map, unpackArgs] at run
          obtain ⟨e, s, there, _⟩ := bind_eq_some.mp run
          cases there
  | _ => cases sized

theorem loadProc_run {proc : Data} {r : ℤ × Unit} (run : loadProc willing proc () = some r) :
    readable proc = true ∧ r.1 = 1 := by
  obtain ⟨table, s, called, tail⟩ := bind_eq_some.mp run
  obtain ⟨rfl, rfl⟩ := Prod.mk.inj (ask_eq_some.mp called)
  obtain ⟨u, s', unpacked, tail'⟩ := bind_eq_some.mp tail
  obtain ⟨found, s'', called', result⟩ := bind_eq_some.mp tail'
  obtain ⟨rfl, rfl⟩ := Prod.mk.inj (ask_eq_some.mp called')
  obtain rfl := pure_eq_some.mp result
  exact ⟨(unpackStack_run proc _ unpacked).1, rfl⟩

theorem start_run {first : Data} {rest : List Data} {r : Option ℤ × Unit}
    (run : start willing (.array (first :: rest)) () = some r) : requestShape rest = true := by
  obtain ⟨created, s, called, run₁⟩ := bind_eq_some.mp run
  obtain ⟨rfl, rfl⟩ := Prod.mk.inj (ask_eq_some.mp called)
  obtain ⟨id, s₁, again, run₂⟩ := bind_eq_some.mp run₁
  obtain ⟨_, s₂, _, run₃⟩ := bind_eq_some.mp run₂
  obtain ⟨al, s₃, counted, run₄⟩ := bind_eq_some.mp run₃
  obtain ⟨args, s₄, there, counted'⟩ := bind_eq_some.mp counted
  obtain ⟨n, s₅, sized, result⟩ := bind_eq_some.mp counted'
  obtain ⟨size, _⟩ := Prod.mk.inj (pure_eq_some.mp result)
  obtain ⟨allowed, s₆, called', run₅⟩ := bind_eq_some.mp run₄
  obtain ⟨rfl, rfl⟩ := Prod.mk.inj (ask_eq_some.mp called')
  obtain ⟨proc, s₇, named, run₆⟩ := bind_eq_some.mp run₅
  obtain ⟨loaded, s₈, load, run₇⟩ := bind_eq_some.mp run₆
  obtain ⟨reads, one⟩ := loadProc_run load
  rw [show loaded = 1 from one, if_neg (by decide), arg_eq (elem_run there), size] at run₇
  obtain ⟨last, s₉, unpacked, _⟩ := bind_eq_some.mp run₇
  obtain ⟨i, second⟩ := msgid_run again
  match rest, second, elem_run named, elem_run there with
  | _ :: _ :: _ :: _, rfl, rfl, rfl =>
      rw [requestShape, Bool.and_eq_true]
      exact ⟨reads, listShape_run sized unpacked⟩

theorem isResponse_run {t : UInt64} {rest : List Data} {r : Bool × σ}
    (run : (Data.array (.integer t :: rest)).isResponse s = some r) :
    r.1 = decide (t.toUInt32.toUInt8 = 1) := by
  have there : (Data.integer t :: rest)[0]? = some (.integer t) := rfl
  obtain ⟨r', s', run', same⟩ := isResponse_ensures there s
  obtain rfl := Option.some.inj (run'.symm.trans run)
  exact same

theorem resume_run {t i : UInt64} {rest : List Data} {r : Option ℤ × Unit}
    (response : t.toUInt32.toUInt8 = 1)
    (run : coResume willing (.array (.integer t :: .integer i :: rest)) () = some r) :
    responseShape (.integer i :: rest) = true := by
  obtain ⟨values, s, run₁, _⟩ := bind_eq_some.mp run
  obtain ⟨failed, s₁, checked, run₂⟩ := bind_eq_some.mp run₁
  obtain ⟨answered, s₂, typed, checked'⟩ := bind_eq_some.mp checked
  have yes : answered = true := (isResponse_run typed).trans (decide_eq_true response)
  rw [if_pos yes] at checked'
  obtain ⟨error, s₃, third, result⟩ := bind_eq_some.mp checked'
  have kind : failed = decide (error.kind ≠ .nil) :=
    congrArg Prod.fst (pure_eq_some.mp result)
  match rest, elem_run third with
  | _ :: more, rfl =>
      rw [responseShape, resultShape]
      split
      case isTrue success =>
        rw [if_neg (by simpa [kind] using success)] at run₂
        obtain ⟨resp, s₄, fourth, run₃⟩ := bind_eq_some.mp run₂
        obtain ⟨n, s₅, sized, run₄⟩ := bind_eq_some.mp run₃
        obtain ⟨last, s₆, unpacked, _⟩ := bind_eq_some.mp run₄
        have there := elem_run fourth
        rw [resp_eq there] at unpacked
        have shape := listShape_run sized unpacked
        rw [List.head?_eq_getElem?]
        exact (congrArg (Option.any listShape) (show more[0]? = some resp from there)).trans shape
      case isFalse failure =>
        rw [if_pos (by simpa [kind] using failure)] at run₂
        obtain ⟨error', s₄, third', run₃⟩ := bind_eq_some.mp run₂
        obtain ⟨last, s₅, unpacked, _⟩ := bind_eq_some.mp run₃
        obtain rfl : _ = error' := Option.some.inj (elem_run third')
        exact (unpackStack_run _ _ unpacked).1

/-- A message that is read without a fault where everything is found has the
shape. -/
theorem recv_run {r : ℤ × Unit} (run : recv willing (.array elems) () = some r) :
    messageShape elems = true := by
  rw [recv, if_pos (by rfl)] at run
  obtain ⟨request, s, asked, run₁⟩ := bind_eq_some.mp run
  obtain ⟨u, s₁, typed, result⟩ := bind_eq_some.mp asked
  obtain ⟨t, rest, rfl, type⟩ := type_run typed
  have zero : request = decide (t.toUInt32.toUInt8 = 0) := by
    rw [← type]
    exact congrArg Prod.fst (pure_eq_some.mp result)
  rw [messageShape]
  split
  case isTrue same =>
    rw [if_pos (zero.trans (decide_eq_true same))] at run₁
    obtain ⟨started, s₂, run₂, _⟩ := bind_eq_some.mp run₁
    exact start_run run₂
  case isFalse other =>
    rw [if_neg (by simpa [zero] using other)] at run₁
    obtain ⟨response, s₂, answered, run₂⟩ := bind_eq_some.mp run₁
    split
    case isTrue one =>
      have yes : response = true := (isResponse_run answered).trans (decide_eq_true one)
      rw [if_pos yes] at run₂
      obtain ⟨id, s₃, named, run₃⟩ := bind_eq_some.mp run₂
      obtain ⟨found, s₄, called, run₄⟩ := bind_eq_some.mp run₃
      obtain ⟨rfl, rfl⟩ := Prod.mk.inj (ask_eq_some.mp called)
      obtain ⟨resumed, s₅, run₅, _⟩ := bind_eq_some.mp run₄
      obtain ⟨i, second⟩ := msgid_run named
      match rest, second with
      | _ :: _, rfl => exact resume_run one run₅
    case isFalse => rfl

end

/-- Whatever the surroundings do, an accepted object is read without a fault
exactly when it has the shape of its message type. -/
theorem validate_sufficient_iff (o : Data) :
    (o.validateAsRpcMessage = true →
      ∀ (σ : Type) (env : Env σ) (s : σ), (recv env o s).isSome) ↔ wellFormed o = true := by
  cases o with
  | array elems =>
      constructor
      · intro sufficient
        obtain ⟨r, run⟩ := Option.isSome_iff_exists.mp (sufficient rfl Unit willing ())
        exact recv_run run
      · intro shape _ σ env s
        exact (recv_ensures env shape).isSome s
  | _ => exact iff_of_true (fun accepted => nomatch accepted) rfl

/-- The empty array is accepted, and has no message type. -/
theorem accepted_empty : ¬ ((Data.array []).validateAsRpcMessage = true →
    ∀ (σ : Type) (env : Env σ) (s : σ), (recv env (.array []) s).isSome) := by
  intro sufficient
  exact nomatch sufficient rfl Unit willing ()

end Cyue.Rpc
