import Cyue.Lib.Run
import Mathlib.Logic.Function.Basic
import Mathlib.Tactic.Common

/-!
# Namespaces

The symbols of an emittable are the fields of a table of Lua, `__sym`, whose fields
may be tables again.  A namespace is an object around it: what is assigned to the
namespace goes to `__sym`, and what is read from it is looked up there with
`fetcher`, the parts of the key being separated by dots.  A symbol that was found
is stored in the namespace object, so that the next lookup finds it there.
-/

namespace Cyue.Lua

abbrev Symbol := List UInt8

def dot : UInt8 := 46

def underscore : UInt8 := 95

def symField : Symbol := [95, 95, 115, 121, 109]

def emitterField : Symbol := [95, 95, 101, 109, 105, 116, 116, 101, 114]

/-- A value of Lua; `data` is a number, a string or a userdata. -/
inductive Value (π : Type*) where
  | nil
  | boolean (b : Bool)
  | data (d : ℕ)
  | function (f : π)
  | table (t : ℕ)
  deriving DecidableEq

namespace Value

variable {π : Type*}

def truthy : Value π → Bool
  | nil => false
  | boolean b => b
  | _ => true

end Value

/-- The tables of the program.  A callback list is a table with a list of functions,
and an emitter is a table with the methods of emitters. -/
structure Heap (π : Type*) where
  fields : ℕ → Symbol → Value π
  callbacks : ℕ → Option (List π)
  emitters : ℕ → Bool
  fresh : ℕ

/-- A namespace object with its own fields; `local_call` is set for one of the kind `raw`. -/
structure Namespace (π : Type*) where
  heap : Heap π
  own : Symbol → Value π
  localCall : Bool

namespace Heap

variable {π : Type*}

/-- `rawget`; `none` is an error that is raised. -/
def rawget (h : Heap π) (r : Value π) (k : Symbol) : Option (Value π) :=
  match r with
  | .table t => some (h.fields t k)
  | _ => none

def set (h : Heap π) (t : ℕ) (k : Symbol) (v : Value π) : Heap π :=
  { h with fields := Function.update h.fields t (Function.update (h.fields t) k v) }

/-- The loop of `fetcher`, with what is left of the key. -/
def fetch (h : Heap π) (localCall : Bool) (r : Value π) (sk : Symbol) :
    Symbol → Option (Value π)
  | [] => h.rawget r sk
  | b :: k =>
      if b = dot then
        match h.rawget r sk with
        | none => none
        | some r => if r.truthy then h.fetch localCall r [] k else some .nil
      else if localCall = false ∧ sk = [] ∧ b = underscore then some .nil
      else h.fetch localCall r (sk ++ [b]) k

def fetcher (h : Heap π) (t : Value π) (k : Symbol) (localCall : Bool) : Option (Value π) :=
  h.fetch localCall t [] k

def newTable (h : Heap π) : Heap π := { h with fresh := h.fresh + 1 }

/-- `create_callback_list`, without the name of the list. -/
def createCallbackList (h : Heap π) : Heap π :=
  { h with callbacks := Function.update h.callbacks h.fresh (some []), fresh := h.fresh + 1 }

/-- `push` of a callback list. -/
def push [DecidableEq π] (h : Heap π) (t : ℕ) (f : π) : Heap π :=
  { h with
    callbacks := Function.update h.callbacks t
      ((h.callbacks t).map fun fs => if f ∈ fs then fs else fs ++ [f]) }

def isCallbackList (h : Heap π) : Value π → Bool
  | .table t => (h.callbacks t).isSome
  | _ => false

end Heap

namespace Namespace

variable {π : Type*} [DecidableEq π]

/-- A program with no tables but the symbol table of this namespace. -/
def create (localCall : Bool) : Namespace π where
  heap := { fields := fun _ _ => .nil, callbacks := fun _ => none, emitters := fun _ => false, fresh := 1 }
  own := Function.update (fun _ => .nil) symField (.table 0)
  localCall := localCall

def rawset (s : Namespace π) (k : Symbol) (v : Value π) : Namespace π :=
  { s with own := Function.update s.own k v }

def sym (s : Namespace π) : Value π := s.own symField

def fetcher (s : Namespace π) (k : Symbol) : Option (Value π) :=
  s.heap.fetcher s.sym k s.localCall

/-- `namespace[k]`, with `__index` where the object has no such field. -/
def index (s : Namespace π) (k : Symbol) : Namespace π × Option (Value π) :=
  if s.own k = .nil then
    match s.fetcher k with
    | none => (s, none)
    | some r => (if r.truthy then s.rawset k r else s, some r)
  else (s, some (s.own k))

/-- `rawset(t.__sym, k, v)`, or an error where there is no table. -/
def setSymbol (s : Namespace π) (k : Symbol) (v : Value π) : Namespace π :=
  match s.sym with
  | .table t => { s with heap := s.heap.set t k v }
  | _ => s

/-- `bind` of an emitter for one event, without the requests to the system.
`namespace[key]` is assigned where `__sym` has no such symbol. -/
def bind (s : Namespace π) (key : Symbol) (f : π) : Namespace π :=
  match s.heap.rawget s.sym key with
  | none => s
  | some old =>
      let s :=
        if old.truthy then s
        else
          let list := Value.table s.heap.fresh
          let s := { s with heap := s.heap.createCallbackList }
          if s.own key = .nil then s.setSymbol key list else s.rawset key list
      match s.heap.rawget s.sym key with
      | some (.table list) => { s with heap := s.heap.push list f }
      | _ => s

/-- `bind` assigns a fresh list where there was none, and puts the function on a list at the end. -/
theorem bind_cases (s : Namespace π) (key : Symbol) (f : π) :
    ∃ s' : Namespace π,
      (s' = s ∨ s.own key = .nil ∧
          s' = setSymbol { s with heap := s.heap.createCallbackList } key (.table s.heap.fresh) ∨
        s.own key ≠ .nil ∧
          s' = rawset { s with heap := s.heap.createCallbackList } key (.table s.heap.fresh)) ∧
      (s.bind key f = s' ∨ ∃ list, s.bind key f = { s' with heap := s'.heap.push list f }) := by
  rw [bind]
  cases s.heap.rawget s.sym key with
  | none => exact ⟨s, .inl rfl, .inl rfl⟩
  | some old =>
      dsimp only
      generalize same : (if old.truthy = true then s else _) = s'
      refine ⟨s', ?_, ?_⟩
      · rw [← same]
        split
        · exact .inl rfl
        · split
          case isTrue missing => exact .inr (.inl ⟨missing, rfl⟩)
          case isFalse present => exact .inr (.inr ⟨present, rfl⟩)
      · split
        · exact .inr ⟨_, rfl⟩
        · exact .inl rfl

/-- `__newindex`; a function whose name starts with `__` is bound to the event. -/
def newindex (s : Namespace π) (k : Symbol) (v : Value π) : Namespace π :=
  match v, s.heap.rawget s.sym k with
  | .function f, some old =>
      if k.take 2 = [underscore, underscore] ∧ (old.truthy = false ∨ s.heap.isCallbackList old) then
        let emitter := s.index emitterField
        match emitter.2 with
        | some (.table e) => if s.heap.emitters e then emitter.1.bind k f else emitter.1
        | _ => emitter.1
      else s.setSymbol k v
  | _, _ => s.setSymbol k v

/-- `namespace[k] = v`, with `__newindex` where the object has no such field. -/
def assign (s : Namespace π) (k : Symbol) (v : Value π) : Namespace π :=
  if s.own k = .nil then s.newindex k v else s.rawset k v

def setField (s : Namespace π) (t : ℕ) (k : Symbol) (v : Value π) : Namespace π :=
  { s with heap := s.heap.set t k v }

/-- The constructor of an emitter, which it stores in the namespace if there is none. -/
def ctor (s : Namespace π) : Namespace π :=
  let e := s.heap.fresh
  let s := { s with heap :=
    { s.heap with emitters := Function.update s.heap.emitters e true, fresh := e + 1 } }
  if s.own emitterField = .nil then s.rawset emitterField (.table e) else s

/-- `__unref_namespace` of the emitter `e` -/
def unrefNamespace (s : Namespace π) (e : ℕ) : Namespace π :=
  let emitter := s.index emitterField
  if emitter.2 = some (.table e) then emitter.1.assign emitterField .nil else emitter.1

/-! ## What reads a symbol -/

/-- What a file that is imported reads for a global; `_G[k]` is what Lua has. -/
def importIndex (global : Symbol → Value π) (s : Namespace π) (k : Symbol) : Option (Value π) :=
  (s.heap.rawget s.sym k).map fun v => if v.truthy then v else global k

/-- What `coroutine::start` is given: the endpoint may be any of the endpoints of a fiber. -/
inductive Endpoint where
  | nop
  | callback
  | remote (isServerConn established : Bool)
  | here
  deriving DecidableEq

def Endpoint.authorized : Endpoint → Bool
  | .remote isServerConn established => !isServerConn || established
  | _ => true

/-- How `coroutine::start` ends.  `raised` is an error of Lua outside of `lua_resume`,
and otherwise `lua_resume` calls the value with so many arguments. -/
inductive Started (π : Type*) where
  | execError
  | raised
  | resumed (proc : Value π) (al : ℕ)
  deriving DecidableEq

/-- `load_proc`; `none` is an error that is raised, and nil is `NBR_ENOTFOUND`. -/
def loadProc (s : Namespace π) (k : Symbol) (ignoreProtection : Bool) :
    Namespace π × Option (Value π) :=
  if ignoreProtection then (s, s.heap.rawget s.sym k) else s.index k

/-- `coroutine::start` of a request; an argument is `none` if it cannot be unpacked. -/
def start (s : Namespace π) (endp : Endpoint) (cmd : Symbol) (args : List (Option (Value π))) :
    Namespace π × Started π :=
  if endp.authorized then
    let loaded := s.loadProc cmd false
    match loaded.2 with
    | none => (loaded.1, .raised)
    | some .nil => (loaded.1, .execError)
    | some proc =>
        if args.all Option.isSome then (loaded.1, .resumed proc args.length)
        else (loaded.1, .execError)
  else (s, .execError)

/-! ## Programs -/

/-- What the program does with the namespace and with its tables, and the requests. -/
inductive Act (π : Type*) where
  | newTable
  | ctor
  | unref (e : ℕ)
  | lookup (k : Symbol)
  | define (k : Symbol) (v : Value π)
  /-- A global of a file that is imported. -/
  | global (k : Symbol) (v : Value π)
  /-- A field of a table. -/
  | field (t : ℕ) (k : Symbol) (v : Value π)
  | request (endp : Endpoint) (cmd : Symbol) (args : List (Option (Value π)))

def step (s : Namespace π) : Act π → Namespace π
  | .newTable => { s with heap := s.heap.newTable }
  | .ctor => s.ctor
  | .unref e => s.unrefNamespace e
  | .lookup k => (s.index k).1
  | .define k v => s.assign k v
  | .global k v => s.assign k v
  | .field t k v => s.setField t k v
  | .request endp cmd args => (s.start endp cmd args).1

end Namespace

/-! ## The parts of a key -/

def components (k : Symbol) : List Symbol := k.splitOn dot

namespace Heap

variable {π : Type*}

def reach (h : Heap π) (localCall : Bool) (r : Value π) : List Symbol → Option (Value π)
  | [] => some r
  | c :: cs =>
      if localCall = false ∧ c.head? = some underscore then some .nil
      else if cs = [] then h.rawget r c
      else
        match h.rawget r c with
        | none => none
        | some r => if r.truthy then h.reach localCall r cs else some .nil

/-- The loop has the current part in `sk`. -/
theorem fetch_eq (h : Heap π) {localCall : Bool} {r : Value π} {sk k : Symbol} (part : dot ∉ sk)
    (visible : localCall = false → sk.head? ≠ some underscore) :
    h.fetch localCall r sk k = h.reach localCall r (components (sk ++ k)) := by
  induction k generalizing r sk with
  | nil =>
      have whole : components (sk ++ []) = [sk] := by
        rw [components, List.append_nil, List.splitOn_eq_singleton part]
      have allowed : ¬ (localCall = false ∧ sk.head? = some underscore) := fun both =>
        visible both.1 both.2
      rw [whole, fetch, reach, if_neg allowed, if_pos rfl]
  | cons b k ih =>
      rw [fetch]
      by_cases ends : b = dot
      · subst ends
        have split : components (sk ++ dot :: k) = sk :: components k :=
          List.splitOn_append_cons_self_of_not_mem part k
        have more : components k ≠ [] := List.splitOn_ne_nil dot k
        have allowed : ¬ (localCall = false ∧ sk.head? = some underscore) := fun both =>
          visible both.1 both.2
        rw [if_pos rfl, split, reach, if_neg allowed, if_neg more]
        cases h.rawget r sk with
        | none => rfl
        | some r =>
            dsimp only
            rw [ih List.not_mem_nil (fun _ start => nomatch start), List.nil_append]
      · rw [if_neg ends]
        by_cases start : localCall = false ∧ sk = [] ∧ b = underscore
        · obtain ⟨remote, rfl, rfl⟩ := start
          have split : ∃ c cs, components ([] ++ underscore :: k) = (underscore :: c) :: cs := by
            have cut : components (underscore :: k) = (components k).modifyHead (List.cons underscore) := by
              rw [components, List.splitOn_cons_eq_if_modifyHead]
              exact if_neg (by decide)
            obtain ⟨c, cs, found⟩ := List.exists_cons_of_ne_nil (List.splitOn_ne_nil dot k)
            refine ⟨c, cs, cut.trans ?_⟩
            rw [components, found]
            rfl
          obtain ⟨c, cs, split⟩ := split
          rw [if_pos ⟨remote, rfl, rfl⟩, split, reach, if_pos ⟨remote, rfl⟩]
        · rw [if_neg start, ih]
          · rw [List.append_assoc]
            rfl
          · rw [List.mem_append, List.mem_singleton]
            exact fun either => either.elim part fun same => ends same.symm
          · intro remote head
            cases sk with
            | nil => exact start ⟨remote, rfl, Option.some.inj head⟩
            | cons a sk => exact visible remote head

/-- `fetcher` goes from part to part. -/
theorem fetcher_eq (h : Heap π) (t : Value π) (k : Symbol) (localCall : Bool) :
    h.fetcher t k localCall = h.reach localCall t (components k) :=
  h.fetch_eq List.not_mem_nil fun _ start => nomatch start

end Heap

end Cyue.Lua
