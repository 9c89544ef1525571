import Cyue.Util.Str

/-!
# The string-keyed hash

`hash` with `HKT_STR` keys, and `map` over it.  An element is a number; its
memory begins with the key field and goes on with the value, so that offset 0
is `m_key.string.k` and the value is at `m_key_size` less the two links in
front of the key.  A copy or comparison that leaves the key field is noted in
`outside`; what lies behind the value is not part of the model.
-/

namespace Cyue.StrMap

open Memory Str

/-- The loop of `pjw_hush`. -/
def pjw (key : CString) : UInt32 :=
  key.1.foldl (fun h c =>
    let h := (h <<< 4) + c.toUInt32
    let g := h &&& 0xf0000000
    if g ≠ 0 then (h ^^^ (g >>> 24)) ^^^ g else h) 0

/-- What `init` is given; `size` is the prime that it computes. -/
structure Config where
  size : ℕ
  positive : 0 < size
  keybuf : ℕ
  valSize : ℕ
  max : ℕ
  expandable : Bool

namespace Config

/-- `get_key_size`, with links of 8 bytes. -/
def keySize (cfg : Config) : ℕ := 8 * 2 + 8 + (3 + cfg.keybuf) / 4 * 4

/-- `get_keybuf_size`: what there is from the key to the value. -/
def keybufSize (cfg : Config) : ℕ := cfg.keySize - 8 * 2

def hush (cfg : Config) (key : CString) : ℕ := (pjw key).toNat % cfg.size

end Config

/-- The bytes of a `V`. -/
abbrev Value (cfg : Config) := { v : List UInt8 // v.length = cfg.valSize }

/-- The hash with its allocator.  `used` and `heap` are the flags of the
elements and `made` counts the elements that were ever made. -/
structure Hash where
  table : ℕ → Option ℕ
  next : ℕ → Option ℕ
  prev : ℕ → Option ℕ
  mem : ℕ → Mem
  free : List ℕ
  used : ℕ → Bool
  heap : ℕ → Bool
  max : ℕ
  use : ℕ
  made : ℕ
  outside : Bool

namespace Hash

/-- `init`.  `init_header` links the first element even where `max` is 0. -/
def init (cfg : Config) : Hash where
  table := fun _ => none
  next := fun _ => none
  prev := fun _ => none
  mem := fun _ _ => 0
  free := List.range (Nat.max cfg.max 1)
  used := fun _ => false
  heap := fun _ => false
  max := cfg.max
  use := 0
  made := Nat.max cfg.max 1
  outside := false

def value (cfg : Config) (s : Hash) (e : ℕ) : Value cfg :=
  ⟨load (s.mem e) cfg.keybufSize cfg.valSize, load_length ..⟩

def setValue (cfg : Config) (s : Hash) (e : ℕ) (v : Value cfg) : Hash :=
  { s with mem := Function.update s.mem e (store (s.mem e) cfg.keybufSize v.1) }

/-- `alloc_nolock`; `calloc` says whether the heap has another element. -/
def allocNolock (cfg : Config) (s : Hash) (calloc : Bool) : Option (ℕ × Hash) :=
  match s.free with
  | e :: rest =>
    some (e, { s with free := rest, used := Function.update s.used e true, use := s.use + 1 })
  | [] =>
    if cfg.expandable && calloc then
      some (s.made, { s with
        mem := Function.update s.mem s.made fun _ => 0
        used := Function.update s.used s.made true
        heap := Function.update s.heap s.made true
        max := s.max + 1
        use := s.use + 1
        made := s.made + 1 })
    else none

/-- `fix_size_allocator::free`.  A heap element goes back to the heap while
half of all elements are unused. -/
def release (s : Hash) (e : ℕ) : Hash :=
  if ¬ s.used e then s
  else if s.heap e ∧ s.use ≤ s.max / 2 then { s with max := s.max - 1, use := s.use - 1 }
  else { s with
    free := e :: s.free
    used := Function.update s.used e false
    use := s.use - 1 }

/-- `cmp_key`, and whether it leaves the key field. -/
def cmpKey (cfg : Config) (s : Hash) (e : ℕ) (key : CString) : Bool × Bool :=
  let r := cmp (s.mem e) key.bytes cfg.keySize
  (r.1 = 0, cfg.keybufSize ≤ r.2)

def setKey (cfg : Config) (s : Hash) (e : ℕ) (key : CString) : Hash :=
  let r := copy (s.mem e) key cfg.keySize
  { s with
    mem := Function.update s.mem e r.1
    outside := s.outside || cfg.keybufSize ≤ r.2 }

/-- The loop over a chain, for at most so many elements: the element with the
key, and whether a comparison leaves a key field. -/
def search (cfg : Config) (s : Hash) (key : CString) : ℕ → Option ℕ → Option (Option ℕ × Bool)
  | _, none => some (none, false)
  | 0, some _ => none
  | turns + 1, some e =>
    if (s.cmpKey cfg e key).1 then some (some e, (s.cmpKey cfg e key).2)
    else (search cfg s key turns (s.next e)).map fun r => (r.1, (s.cmpKey cfg e key).2 || r.2)

/-- The chain of a key.  A chain that does not end within all the elements
does not end at all. -/
def lookup (cfg : Config) (s : Hash) (key : CString) : Option (Option ℕ × Hash) :=
  (search cfg s key s.made (s.table (cfg.hush key))).map fun r =>
    (r.1, { s with outside := s.outside || r.2 })

/-- A new element becomes the first of its chain. -/
def pushFront (s : Hash) (h e : ℕ) : Hash :=
  { s with
    next := Function.update s.next e (s.table h)
    prev := match s.table h with
      | some first => Function.update (Function.update s.prev e none) first (some e)
      | none => Function.update s.prev e none
    table := Function.update s.table h (some e) }

def unlink (s : Hash) (h e : ℕ) : Hash :=
  let s := match s.prev e with
    | some p => { s with next := Function.update s.next p (s.next e) }
    | none => { s with table := Function.update s.table h (s.next e) }
  match s.next e with
  | some n => { s with prev := Function.update s.prev n (s.prev e) }
  | none => s

/-- What a data functor does with the value of an element: the new value, and
whether `insert` returns the value's pointer. -/
abbrev Functor (cfg : Config) := Value cfg → Bool → Value cfg × Bool

/-- `insert` with a data functor. -/
def insert (cfg : Config) (s : Hash) (key : CString) (f : Functor cfg) (calloc : Bool) :
    Option (Hash × Option (Value cfg)) :=
  (s.lookup cfg key).map fun (found, s) =>
    match found with
    | some e =>
      let r := f (s.value cfg e) true
      (s.setValue cfg e r.1, if r.2 then some r.1 else none)
    | none =>
      match s.allocNolock cfg calloc with
      | none => (s, none)
      | some (e, s) =>
        let s := s.setKey cfg e key
        let r := f (s.value cfg e) false
        ((s.setValue cfg e r.1).pushFront (cfg.hush key) e, if r.2 then some r.1 else none)

def get (cfg : Config) (s : Hash) (key : CString) : Option (Hash × Option (Value cfg)) :=
  (s.lookup cfg key).map fun (found, s) => (s, found.map (s.value cfg))

def remove (cfg : Config) (s : Hash) (key : CString) : Option (Hash × Bool) :=
  (s.lookup cfg key).map fun (found, s) =>
    match found with
    | some e => ((s.unlink (cfg.hush key) e).release e, true)
    | none => (s, false)

end Hash

/-! ## The map -/

/-- An operation of `map`.  `alloc` without a value constructs one on the bytes
that it finds; `calloc` tells whether the heap has another element. -/
inductive Op (cfg : Config) where
  | insert (v : Value cfg) (key : CString) (calloc : Bool)
  | alloc (v : Value cfg) (key : CString) (calloc : Bool)
  | allocNew (create : Value cfg → Value cfg) (key : CString) (calloc : Bool)
  | find (key : CString)
  | erase (key : CString)

/-- What an operation returns: the value behind the pointer, or a `bool`. -/
inductive Out (cfg : Config) where
  | ptr (v : Option (Value cfg))
  | done (erased : Bool)

variable {cfg : Config}

def insertSetData (v : Value cfg) : Hash.Functor cfg := fun old exists_ =>
  if exists_ then (old, false) else (v, true)

def allocSetData (v : Value cfg) : Hash.Functor cfg := fun _ _ => (v, true)

/-- The data functor of `alloc` without a value. -/
def allocIfSetData (create : Value cfg → Value cfg) : Hash.Functor cfg := fun old exists_ =>
  (if exists_ then old else create old, true)

/-- One operation; `none` if it hangs. -/
def Hash.exec (s : Hash) : Op cfg → Option (Hash × Out cfg)
  | .insert v key calloc =>
    (s.insert cfg key (insertSetData v) calloc).map fun r => (r.1, .ptr r.2)
  | .alloc v key calloc => (s.insert cfg key (allocSetData v) calloc).map fun r => (r.1, .ptr r.2)
  | .allocNew create key calloc =>
    (s.insert cfg key (allocIfSetData create) calloc).map fun r => (r.1, .ptr r.2)
  | .find key => (s.get cfg key).map fun r => (r.1, .ptr r.2)
  | .erase key => (s.remove cfg key).map fun r => (r.1, .done r.2)

end Cyue.StrMap
