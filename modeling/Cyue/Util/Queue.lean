import Mathlib.Data.List.Basic
import Mathlib.Logic.Function.Basic
import Mathlib.Tactic.Common

/-!
# The chunked queue

A chunk is a number and a pointer to an element is a chunk with a position in
it, which stays below `N`.  The functions here are run by one thread: a loop that
waits for another thread never ends, and gives `none`, as does a null pointer
that is followed.  `allocate` is given what it returns, and `live` tells which
chunks it has returned.
-/

namespace Cyue

variable {α : Type*}

/-- What one end of a queue refers to: `m_w`, `m_wpos` and `m_wp`, or the like
for reading. -/
structure Cursor where
  c : ℕ
  pos : ℕ
  ptr : ℕ × ℕ
  deriving DecidableEq, Repr

structure Queue (α : Type*) where
  next : ℕ → Option ℕ
  p : ℕ → ℕ → α
  live : ℕ → Bool
  c : Option ℕ
  free : Option ℕ
  writer : Cursor
  reader : Cursor

namespace Queue

def current (c pos : ℕ) : ℕ × ℕ := (c, pos)

/-- `init`, with what `allocate` returns and what the memory holds. -/
def init (c : ℕ) (p : ℕ → ℕ → α) : Queue α where
  next := fun _ => none
  p := p
  live := fun a => decide (a = c)
  c := some c
  free := none
  writer := ⟨c, 0, current c 0⟩
  reader := ⟨c, 0, current c 0⟩

def cursor (s : Queue α) (rval : Bool) : Cursor := if rval then s.reader else s.writer

def setCursor (s : Queue α) (rval : Bool) (k : Cursor) : Queue α :=
  if rval then { s with reader := k } else { s with writer := k }

def load (s : Queue α) (ptr : ℕ × ℕ) : α := s.p ptr.1 ptr.2

def store (s : Queue α) (ptr : ℕ × ℕ) (val : α) : Queue α :=
  { s with p := Function.update s.p ptr.1 (Function.update (s.p ptr.1) ptr.2 val) }

def readable (s : Queue α) : Bool := decide (s.reader.ptr ≠ s.writer.ptr)

/-- `queue::free` into the cache. -/
def recycle (s : Queue α) (c : ℕ) : Queue α :=
  let s := if s.c = some c then { s with c := s.next c } else s
  { s with next := Function.update s.next c s.free, free := some c }

def cache (s : Queue α) : Option ℕ × Queue α :=
  match s.free with
  | none => (none, s)
  | some c => (some c, { s with free := s.next c })

def allocate (s : Queue α) (alloc : Option ℕ) : Option ℕ × Queue α :=
  match alloc with
  | none => (none, s)
  | some c => (some c, { s with live := Function.update s.live c true })

def expand (s : Queue α) (alloc : Option ℕ) : Bool × Queue α :=
  let taken := match s.cache with
    | (some c, s) => (some c, s)
    | (none, s) => s.allocate alloc
  match taken with
  | (none, s) => (false, s)
  | (some c, s) =>
      (true, { s with
        next := Function.update (Function.update s.next c none) s.writer.c (some c) })

/-- `!c->next && !expand()`, negated. -/
def hasNext (s : Queue α) (c : ℕ) (alloc : Option ℕ) : Bool × Queue α :=
  if (s.next c).isSome then (true, s) else s.expand alloc

/-- `movestep`: whether it returns a pointer, and the value read or written. -/
def movestep (N : ℕ) (s : Queue α) (rval : Bool) (val : α) (alloc : Option ℕ) :
    Option (Bool × α × Queue α) :=
  let k := s.cursor rval
  let p := k.ptr
  let pos := k.pos + 1
  let s := s.setCursor rval { k with pos := pos }
  if N = pos then
    if rval then
      match s.next k.c with
      | none => none
      | some c =>
          let val := s.load p
          let s := (s.setCursor rval { k with c := c, pos := pos }).recycle k.c
          some (true, val, s.setCursor rval ⟨c, 0, current c 0⟩)
    else
      match (s.store p val).hasNext k.c alloc with
      | (false, s) => some (false, val, s)
      | (true, s) =>
          match s.next k.c with
          | none => none
          | some c => some (true, val, s.setCursor rval ⟨c, 0, current c 0⟩)
  else if rval then some (true, s.load p, s.setCursor rval ⟨k.c, pos, current k.c pos⟩)
  else some (true, val, (s.store p val).setCursor rval ⟨k.c, pos, current k.c pos⟩)

def mmovestep (N : ℕ) (s : Queue α) (rval : Bool) (val : α) (alloc : Option ℕ) :
    Option (Bool × α × Queue α) :=
  let k := s.cursor rval
  let pos := k.pos + 1
  let s := s.setCursor rval { k with pos := pos }
  if N ≤ pos then
    if pos = N then
      let p := current k.c (N - 1)
      let out := if rval then s.load p else val
      let grown := if rval then (true, s) else (s.store p val).hasNext k.c alloc
      match grown with
      | (false, s) => some (false, val, s)
      | (true, s) =>
          match s.next k.c with
          | none => none
          | some c =>
              -- nobody else moves the pointer to the last element
              if k.ptr ≠ p then none
              else
                let s := s.setCursor rval { k with c := c, pos := pos }
                let s := if rval then s.recycle k.c else s
                some (true, out, s.setCursor rval ⟨c, 0, current c 0⟩)
    else none
  else
    let p := current k.c (pos - 1)
    let out := if rval then s.load p else val
    let s := if rval then s else s.store p val
    if k.ptr = p then some (true, out, s.setCursor rval ⟨k.c, pos, current k.c pos⟩) else none

/-- A call; what `pop` finds in its argument is given as well. -/
inductive Op (α : Type*) where
  | push (val : α) (alloc : Option ℕ)
  | mpush (val : α) (alloc : Option ℕ)
  | pop (val : α)
  | mpop (val : α)

/-- What a call returns: whether it has pushed, or the value popped. -/
inductive Result (α : Type*) where
  | pushed (ok : Bool)
  | popped (val : Option α)

def Result.popOf (ok : Bool) (val : α) : Result α := .popped (if ok then some val else none)

def step (N : ℕ) (s : Queue α) : Op α → Option (Result α × Queue α)
  | .push val alloc => (s.movestep N false val alloc).map fun (ok, _, s) => (.pushed ok, s)
  | .mpush val alloc => (s.mmovestep N false val alloc).map fun (ok, _, s) => (.pushed ok, s)
  | .pop val =>
      if s.readable then
        (s.movestep N true val none).map fun (ok, val, s) => (.popOf ok val, s)
      else some (.popped none, s)
  | .mpop val =>
      if s.readable then
        (s.mmovestep N true val none).map fun (ok, val, s) => (.popOf ok val, s)
      else some (.popped none, s)

def run (N : ℕ) (s : Queue α) : List (Op α) → Option (List (Result α) × Queue α)
  | [] => some ([], s)
  | op :: ops => (s.step N op).bind fun (result, s) =>
      (run N s ops).map fun (results, s) => (result :: results, s)

end Queue

end Cyue
