import Cyue.Util.Allocator

/-!
# The hash over its allocator

`hash` and `map` for keys of any type, whose elements come from a
`fix_size_allocator`.  A key is compared as a whole, as numbers are, and names
that fit into the key field.  A call takes the lock of the allocator, so that it
is one step for all other threads.
-/

namespace Cyue

open Chain

/-- The hash.  The memory of an element holds its two links in a chain, the key
and the value; `zero` is what a value in zeroed memory is.  `stored` is what was
stored last under each key and not removed since. -/
structure Keyed (K V : Type*) where
  /-- `get_hush` -/
  hush : K → ℕ
  zero : V
  array : FixSizeAllocator
  table : ℕ → Option ℕ
  next : ℕ → Option ℕ
  prev : ℕ → Option ℕ
  key : ℕ → K
  value : ℕ → V
  stored : K → Option V

namespace Keyed

variable {K V : Type*} [DecidableEq K]

/-- `init`; the memory of the keys is not read before it is written. -/
def init (hush : K → ℕ) (zero : V) (unset : K) (max : ℕ) (threadsafe expandable : Bool) :
    Keyed K V where
  hush := hush
  zero := zero
  array := .initHeader max threadsafe expandable
  table := fun _ => none
  next := fun _ => none
  prev := fun _ => none
  key := fun _ => unset
  value := fun _ => zero
  stored := fun _ => none

/-- The loop over a chain, for at most so many elements. -/
def search (s : Keyed K V) (k : K) : ℕ → Option ℕ → Option ℕ
  | _, none => none
  | 0, some _ => none
  | turns + 1, some e => if s.key e = k then some e else search s k turns (s.next e)

/-- The element with a key.  A chain has no more elements than were handed out. -/
def get (s : Keyed K V) (k : K) : Option ℕ := s.search k s.array.held.length (s.table (s.hush k))

/-- What a data functor does with the value of an element that is there already or
is new: the value it leaves, and whether it returns the pointer. -/
abbrev Functor (V : Type*) := V → Bool → V × Bool

def store (s : Keyed K V) (k : K) (e : ℕ) (v : V) : Keyed K V :=
  { s with
    value := Function.update s.value e v
    stored := Function.update s.stored k (some v) }

def pushFront (s : Keyed K V) (h e : ℕ) : Keyed K V :=
  { s with
    next := Function.update s.next e (s.table h)
    prev := (s.table h).elim (Function.update s.prev e none) fun first =>
      Function.update (Function.update s.prev e none) first (some e)
    table := Function.update s.table h (some e) }

def unlink (s : Keyed K V) (h e : ℕ) : Keyed K V :=
  { s with
    table := (s.prev e).elim (Function.update s.table h (s.next e)) fun _ => s.table
    next := (s.prev e).elim s.next fun p => Function.update s.next p (s.next e)
    prev := (s.next e).elim s.prev fun n => Function.update s.prev n (s.prev e) }

/-- `insert` with a data functor: the pointer it returns. -/
def insert (s : Keyed K V) (k : K) (f : Functor V) (calloc : Option ℕ) : Option ℕ × Keyed K V :=
  match s.get k with
  | some e =>
      let r := f (s.value e) true
      (if r.2 then some e else none, s.store k e r.1)
  | none =>
      match s.array.allocNolock calloc with
      | (none, array) => (none, { s with array := array })
      | (some e, array) =>
          let r := f (if s.array.free.isSome then s.value e else s.zero) false
          (if r.2 then some e else none,
            ({ s with array := array, key := Function.update s.key e k }.store k e r.1).pushFront
              (s.hush k) e)

/-- `remove` with a functor that may keep the element: the pointer it returns. -/
def remove (s : Keyed K V) (k : K) (f : V → Bool) : Option ℕ × Keyed K V :=
  match s.get k with
  | none => (none, s)
  | some e =>
      if f (s.value e) then
        (some e, { s.unlink (s.hush k) e with
          array := (s.array.release e false true).2
          stored := Function.update s.stored k none })
      else (some e, s)

/-! ## The operations of a map -/

def insertSetData (v : V) : Functor V := fun old exists_ =>
  if exists_ then (old, false) else (v, true)

def allocSetData (v : V) : Functor V := fun _ _ => (v, true)

def allocIfSetData (create : V → V) : Functor V := fun old exists_ =>
  (if exists_ then old else create old, true)

def nopRemove : V → Bool := fun _ => true

inductive Op (K V : Type*) where
  | insert (k : K) (f : Functor V) (calloc : Option ℕ)
  | remove (k : K) (f : V → Bool)

def step (s : Keyed K V) : Op K V → Keyed K V
  | .insert k f calloc => (s.insert k f calloc).2
  | .remove k f => (s.remove k f).2

/-- `calloc` returns no memory that is in use, and `m_max` does not wrap. -/
def Allowed (s : Keyed K V) : Op K V → Prop
  | .insert _ _ calloc =>
      ∀ e, calloc = some e → s.array.live e = false ∧ s.array.max.toNat + 1 < 2 ^ 32
  | .remove _ _ => True

/-! ## Sound states -/

/-- The elements that are handed out are those of the chains, each in the chain of
its key, and hold what was stored. -/
structure Sound (s : Keyed K V) (bucket : ℕ → List ℕ) (used free : List ℕ) (base : ℕ) : Prop where
  lists : s.array.Lists used free
  based : s.array.Based base
  few : used.length + free.length < 2 ^ 32
  chain : ∀ h, Segment s.next (s.table h) (bucket h) none
  back : ∀ h, Back s.prev none (bucket h)
  members : ∀ h e, e ∈ bucket h ↔ e ∈ used ∧ s.hush (s.key e) = h
  distinct : ∀ e e', e ∈ used → e' ∈ used → s.key e = s.key e' → e = e'
  stored : ∀ k v, s.stored k = some v ↔ ∃ e, e ∈ used ∧ s.key e = k ∧ s.value e = v

variable {s : Keyed K V} {bucket : ℕ → List ℕ} {used free : List ℕ} {base : ℕ} {k : K} {e : ℕ}

/-- The search of a chain finds the element with the key, or there is none. -/
theorem search_spec {l : List ℕ} {p : Option ℕ}
    (chain : Segment s.next p l none) {turns : ℕ} (enough : l.length ≤ turns) :
    (∃ e, e ∈ l ∧ s.key e = k ∧ s.search k turns p = some e) ∨
      (∀ e, e ∈ l → s.key e ≠ k) ∧ s.search k turns p = none := by
  induction l generalizing p turns with
  | nil =>
      obtain rfl : p = none := chain
      refine .inr ⟨nofun, ?_⟩
      cases turns <;> rfl
  | cons e l ih =>
      obtain ⟨rfl, chain⟩ := chain
      cases turns with
      | zero => exact absurd enough (Nat.not_succ_le_zero _)
      | succ turns =>
          rw [search]
          split
          case isTrue same => exact .inl ⟨e, List.mem_cons_self, same, rfl⟩
          case isFalse differ =>
            rcases ih chain (Nat.le_of_succ_le_succ enough) with ⟨u, member, same, run⟩ |
              ⟨absent, run⟩
            · exact .inl ⟨u, List.mem_cons_of_mem e member, same, run⟩
            · refine .inr ⟨fun u member => ?_, run⟩
              rcases List.mem_cons.mp member with rfl | rest
              · exact differ
              · exact absent u rest

/-- A key is found if and only if something is stored under it. -/
theorem Sound.get_spec (sound : Sound s bucket used free base) (k : K) :
    (∃ e, e ∈ used ∧ s.key e = k ∧ s.stored k = some (s.value e) ∧ s.get k = some e) ∨
      (∀ e, e ∈ used → s.key e ≠ k) ∧ s.stored k = none ∧ s.get k = none := by
  have short : (bucket (s.hush k)).length ≤ s.array.held.length := by
    have inside : bucket (s.hush k) ⊆ used := fun e member => ((sound.members _ e).mp member).1
    rw [sound.lists.held]
    exact (List.subperm_of_subset (sound.chain _).nodup inside).length_le
  rcases search_spec (k := k) (sound.chain (s.hush k)) short with
    ⟨e, member, same, run⟩ | ⟨absent, run⟩
  · have inside := ((sound.members _ e).mp member).1
    exact .inl ⟨e, inside, same, (sound.stored k _).mpr ⟨e, inside, same, rfl⟩, run⟩
  · have nowhere : ∀ e, e ∈ used → s.key e ≠ k := by
      intro e inside same
      exact absent e ((sound.members _ e).mpr ⟨inside, congrArg s.hush same⟩) same
    refine .inr ⟨nowhere, ?_, run⟩
    apply Option.eq_none_iff_forall_ne_some.mpr
    intro v held
    obtain ⟨e, inside, same, -⟩ := (sound.stored k v).mp held
    exact nowhere e inside same

theorem Sound.get_isSome (sound : Sound s bucket used free base) (k : K) :
    (s.get k).isSome = (s.stored k).isSome := by
  rcases sound.get_spec k with ⟨e, -, -, held, run⟩ | ⟨-, held, run⟩
  · rw [held, run]
    rfl
  · rw [held, run]
    rfl

theorem Sound.get_eq_none (sound : Sound s bucket used free base) (absent : s.stored k = none) :
    s.get k = none := by
  have found := sound.get_isSome k
  rw [absent] at found
  exact Option.not_isSome_iff_eq_none.mp fun some => nomatch found.symm.trans some

/-- The functor writes the value of the element with the key. -/
theorem Sound.store (sound : Sound s bucket used free base) (inside : e ∈ used)
    (here : s.key e = k) (v : V) : Sound (s.store k e v) bucket used free base := by
  refine { sound with stored := fun k' v' => ?_ }
  change Function.update s.stored k (some v) k' = some v' ↔
    ∃ u, u ∈ used ∧ s.key u = k' ∧ Function.update s.value e v u = v'
  by_cases same : k' = k
  · subst same
    rw [Function.update_self]
    constructor
    · rintro ⟨rfl⟩
      exact ⟨e, inside, here, Function.update_self ..⟩
    · rintro ⟨u, inside', here', rfl⟩
      obtain rfl := sound.distinct u e inside' inside (here'.trans here.symm)
      rw [Function.update_self]
  · rw [Function.update_of_ne same, sound.stored]
    have other : ∀ u, s.key u = k' → Function.update s.value e v u = s.value u := by
      rintro u rfl
      apply Function.update_of_ne
      rintro rfl
      exact same here
    constructor
    · rintro ⟨u, inside', here', rfl⟩
      exact ⟨u, inside', here', other u here'⟩
    · rintro ⟨u, inside', here', rfl⟩
      exact ⟨u, inside', here', (other u here').symm⟩

omit [DecidableEq K] in
theorem Sound.buckets (sound : Sound s bucket used free base) :
    Buckets s.table s.next s.prev bucket where
  chain := sound.chain
  back := sound.back
  apart h h' u left right :=
    ((sound.members h u).mp left).2.symm.trans ((sound.members h' u).mp right).2

/-- A new element with its key and value becomes the first of its chain. -/
theorem Sound.pushFront (sound : Sound s bucket used free base) {array : FixSizeAllocator}
    {free' : List ℕ} (lists : array.Lists (e :: used) free') (based : array.Based base)
    (few : (e :: used).length + free'.length < 2 ^ 32) (new : e ∉ used)
    (absent : ∀ u, u ∈ used → s.key u ≠ k) (v : V) :
    Sound (({ s with array := array, key := Function.update s.key e k }.store k e v).pushFront
        (s.hush k) e)
      (Function.update bucket (s.hush k) (e :: bucket (s.hush k))) (e :: used) free' base := by
  have outside : ∀ h, e ∉ bucket h := fun h member => new ((sound.members h e).mp member).1
  have key_of_used : ∀ u, u ∈ used → Function.update s.key e k u = s.key u := by
    intro u inside
    apply Function.update_of_ne
    rintro rfl
    exact new inside
  have value_of_used : ∀ u, u ∈ used → Function.update s.value e v u = s.value u := by
    intro u inside
    apply Function.update_of_ne
    rintro rfl
    exact new inside
  have pushed := sound.buckets.pushFront outside (s.hush k)
  refine ⟨lists, based, few, pushed.chain, pushed.back, ?_, ?_, ?_⟩
  · intro h u
    change u ∈ Function.update bucket _ _ h ↔ u ∈ e :: used ∧
      s.hush (Function.update s.key e k u) = h
    rw [mem_pushed]
    by_cases fresh : u = e
    · subst fresh
      rw [Function.update_self, and_iff_right List.mem_cons_self, and_iff_right rfl,
        or_iff_left (outside h), eq_comm]
    · rw [Function.update_of_ne fresh, List.mem_cons, or_iff_right fresh, ← sound.members]
      exact or_iff_right fun both => fresh both.1
  · intro u w left right same
    change Function.update s.key e k u = Function.update s.key e k w at same
    rcases List.mem_cons.mp left with first | left
    · rcases List.mem_cons.mp right with second | right
      · exact first.trans second.symm
      · rw [first, Function.update_self, key_of_used w right] at same
        exact absurd same.symm (absent w right)
    · rcases List.mem_cons.mp right with second | right
      · rw [second, Function.update_self, key_of_used u left] at same
        exact absurd same (absent u left)
      · rw [key_of_used u left, key_of_used w right] at same
        exact sound.distinct u w left right same
  · intro k' v'
    change Function.update s.stored k (some v) k' = some v' ↔ ∃ u, u ∈ e :: used ∧
      Function.update s.key e k u = k' ∧ Function.update s.value e v u = v'
    by_cases same : k' = k
    · subst same
      rw [Function.update_self]
      constructor
      · rintro ⟨rfl⟩
        exact ⟨e, List.mem_cons_self, Function.update_self .., Function.update_self ..⟩
      · rintro ⟨u, inside, here, rfl⟩
        rcases List.mem_cons.mp inside with rfl | inside
        · rw [Function.update_self]
        · rw [key_of_used u inside] at here
          exact absurd here (absent u inside)
    · rw [Function.update_of_ne same, sound.stored]
      constructor
      · rintro ⟨u, inside, here, held⟩
        exact ⟨u, List.mem_cons_of_mem e inside, (key_of_used u inside).trans here,
          (value_of_used u inside).trans held⟩
      · rintro ⟨u, inside, here, held⟩
        rcases List.mem_cons.mp inside with rfl | inside
        · rw [Function.update_self] at here
          exact absurd here.symm same
        · exact ⟨u, inside, (key_of_used u inside).symm.trans here,
            (value_of_used u inside).symm.trans held⟩

/-- What `insert` does: it writes the value that is there, finds no element, or
takes the first free element or one from the heap. -/
inductive Inserted (s : Keyed K V) (bucket : ℕ → List ℕ) (used free : List ℕ) (base : ℕ) (k : K)
    (f : Functor V) (calloc : Option ℕ) : Option ℕ × Keyed K V → Prop where
  | present (e : ℕ) (inside : e ∈ used) (here : s.key e = k)
      (sound : Sound (s.store k e (f (s.value e) true).1) bucket used free base) :
      Inserted s bucket used free base k f calloc
        (if (f (s.value e) true).2 then some e else none, s.store k e (f (s.value e) true).1)
  | full (absent : s.stored k = none) (none_left : free = []) :
      Inserted s bucket used free base k f calloc (none, s)
  | new (e : ℕ) (free' : List ℕ) (old : V) (s' : Keyed K V)
      (absent : s.stored k = none) (fresh : e ∉ used)
      (taken : free = e :: free' ∨ free = [] ∧ free' = [] ∧ calloc = some e)
      (key : s'.key = Function.update s.key e k)
      (value : s'.value = Function.update s.value e (f old false).1)
      (stored : s'.stored = Function.update s.stored k (some (f old false).1))
      (sound : Sound s' (Function.update bucket (s.hush k) (e :: bucket (s.hush k))) (e :: used)
        free' base) :
      Inserted s bucket used free base k f calloc
        (if (f old false).2 then some e else none, s')

theorem Sound.insert (sound : Sound s bucket used free base) (f : Functor V) {calloc : Option ℕ}
    (allowed : s.Allowed (.insert k f calloc)) :
    Inserted s bucket used free base k f calloc (s.insert k f calloc) := by
  have fresh : ∀ e, calloc = some e → s.array.live e = false := fun e same => (allowed e same).1
  rcases sound.get_spec k with ⟨e, inside, here, -, run⟩ | ⟨absent, held, run⟩
  · rw [Keyed.insert, run]
    exact .present e inside here (sound.store inside here _)
  · have based := sound.based.allocNolock fresh
    rcases sound.lists.allocNolock fresh with ⟨none_left, alloc⟩ |
      ⟨e, free', some_e, new, lists, taken⟩
    · rw [Keyed.insert, run, alloc]
      exact .full held none_left
    · have few : (e :: used).length + free'.length < 2 ^ 32 := by
        have small := sound.few
        rcases taken with rfl | ⟨rfl, rfl, rfl⟩
        · rw [List.length_cons] at small ⊢
          omega
        · have bound := (allowed e rfl).2
          rw [sound.lists.max, UInt32.toNat_ofNat_of_lt' small] at bound
          rw [List.length_cons]
          simpa using bound
      have run_insert : s.insert k f calloc =
          let r := f (if s.array.free.isSome then s.value e else s.zero) false
          (if r.2 then some e else none,
            ({ s with
                array := (s.array.allocNolock calloc).2
                key := Function.update s.key e k }.store k e r.1).pushFront (s.hush k) e) := by
        rw [Keyed.insert, run]
        dsimp only
        generalize s.array.allocNolock calloc = result at some_e
        obtain ⟨_, array⟩ := result
        subst some_e
        rfl
      rw [run_insert]
      exact .new e free' _ _ held new taken rfl rfl rfl
        (sound.pushFront lists based few new absent _)

/-- An element leaves its chain and is taken back. -/
theorem Sound.unlink (sound : Sound s bucket used free base) {array : FixSizeAllocator}
    {free' : List ℕ} (inside : e ∈ used) (here : s.key e = k)
    (lists : array.Lists (used.erase e) free') (based : array.Based base)
    (few : (used.erase e).length + free'.length < 2 ^ 32) :
    ∃ bucket', Sound { s.unlink (s.hush k) e with
      array := array, stored := Function.update s.stored k none } bucket' (used.erase e) free'
        base := by
  have member : e ∈ bucket (s.hush k) := (sound.members _ e).mpr ⟨inside, congrArg s.hush here⟩
  obtain ⟨l, r, split⟩ := List.append_of_mem member
  have kept : ∀ u, u ∈ used.erase e ↔ u ≠ e ∧ u ∈ used := fun u =>
    sound.lists.chain.nodup.mem_erase_iff
  have unlinked := sound.buckets.unlink split
  refine ⟨Function.update bucket (s.hush k) (l ++ r), lists, based, few, unlinked.chain,
    unlinked.back, ?_, ?_, ?_⟩
  · intro h u
    change u ∈ Function.update bucket _ _ h ↔ u ∈ used.erase e ∧ s.hush (s.key u) = h
    rw [sound.buckets.mem_left split, kept, and_assoc, ← sound.members]
  · intro u w left right
    exact sound.distinct u w ((kept u).mp left).2 ((kept w).mp right).2
  · intro k' v
    change Function.update s.stored k none k' = some v ↔
      ∃ u, u ∈ used.erase e ∧ s.key u = k' ∧ s.value u = v
    by_cases same : k' = k
    · subst same
      rw [Function.update_self]
      refine iff_of_false nofun ?_
      rintro ⟨u, again, there, -⟩
      obtain ⟨other, again⟩ := (kept u).mp again
      exact other (sound.distinct u e again inside (there.trans here.symm))
    · rw [Function.update_of_ne same, sound.stored]
      constructor
      · rintro ⟨u, again, there, held⟩
        refine ⟨u, (kept u).mpr ⟨?_, again⟩, there, held⟩
        rintro rfl
        exact same (there.symm.trans here)
      · rintro ⟨u, again, there, held⟩
        exact ⟨u, ((kept u).mp again).2, there, held⟩

/-- What `remove` does: it finds nothing, the functor keeps the element, or the
element leaves and is given back to the heap or to the free elements. -/
inductive Removed (s : Keyed K V) (used free : List ℕ) (base : ℕ) (k : K) (f : V → Bool) :
    Option ℕ × Keyed K V → Prop where
  | absent (absent : s.stored k = none) : Removed s used free base k f (none, s)
  | kept (e : ℕ) (inside : e ∈ used) (here : s.key e = k) (held : s.stored k = some (s.value e))
      (keeps : f (s.value e) = false) : Removed s used free base k f (some e, s)
  | taken (e : ℕ) (inside : e ∈ used) (here : s.key e = k) (held : s.stored k = some (s.value e))
      (leaves : f (s.value e) = true) (s' : Keyed K V) (bucket' : ℕ → List ℕ) (free' : List ℕ)
      (sound : Sound s' bucket' (used.erase e) free' base) (key : s'.key = s.key)
      (value : s'.value = s.value) (stored : s'.stored = Function.update s.stored k none)
      (back : free' = e :: free ∧ ¬ s.array.GivesBack e ∨ free' = free ∧ s.array.GivesBack e) :
      Removed s used free base k f (some e, s')

theorem Sound.remove (sound : Sound s bucket used free base) (k : K) (f : V → Bool) :
    Removed s used free base k f (s.remove k f) := by
  rw [Keyed.remove]
  rcases sound.get_spec k with ⟨e, inside, here, held, run⟩ | ⟨-, held, run⟩
  · rw [run]
    dsimp only
    split
    case isTrue leaves =>
      obtain ⟨free', lists, back⟩ :=
        sound.lists.release_taken sound.based sound.few inside true
      have few : (used.erase e).length + free'.length < 2 ^ 32 := by
        have small := sound.few
        have positive := List.length_pos_of_mem inside
        rw [List.length_erase_of_mem inside]
        rcases back with ⟨rfl, -⟩ | ⟨rfl, -⟩
        · rw [List.length_cons]
          omega
        · omega
      obtain ⟨bucket', sound'⟩ :=
        sound.unlink inside here lists (sound.based.release e false true) few
      exact .taken e inside here held leaves _ bucket' free' sound' rfl rfl rfl back
    case isFalse keeps => exact .kept e inside here held (Bool.eq_false_of_not_eq_true keeps)
  · rw [run]
    exact .absent held

/-! ## Runs -/

def Coherent (base : ℕ) (s : Keyed K V) : Prop :=
  ∃ bucket used free, Sound s bucket used free base

/-- An element that was handed out is found under its key, with what was stored last. -/
theorem Coherent.get_of_held (coherent : Coherent base s) (held : e ∈ s.array.held)
    (here : s.key e = k) : s.get k = some e ∧ s.stored k = some (s.value e) := by
  obtain ⟨bucket, used, free, sound⟩ := coherent
  rw [sound.lists.held] at held
  rcases sound.get_spec k with ⟨e', inside, here', stored, found⟩ | ⟨absent, -, -⟩
  · obtain rfl := sound.distinct e' e inside held (here'.trans here.symm)
    exact ⟨found, stored⟩
  · exact absurd here (absent e held)

omit [DecidableEq K] in
theorem Coherent.live (coherent : Coherent base s) (held : e ∈ s.array.held) :
    s.array.live e = true := by
  obtain ⟨bucket, used, free, sound⟩ := coherent
  exact (sound.lists.live e).mpr (.inl (sound.lists.held ▸ held))

omit [DecidableEq K] in
theorem init_coherent (hush : K → ℕ) (zero : V) (unset : K) {max : ℕ} (positive : 0 < max)
    (few : max < 2 ^ 32) (threadsafe expandable : Bool) :
    Coherent max (init hush zero unset max threadsafe expandable) := by
  refine ⟨fun _ => [], [], List.range' 0 max, ?_⟩
  constructor
  · exact FixSizeAllocator.initHeader_lists positive threadsafe expandable
  · exact FixSizeAllocator.initHeader_based max threadsafe expandable
  · rw [List.length_range', List.length_nil, Nat.zero_add]
    exact few
  · exact fun _ => rfl
  · exact fun _ => trivial
  · exact fun _ _ => iff_of_false List.not_mem_nil (fun ⟨member, _⟩ => nomatch member)
  · exact fun _ _ member => nomatch member
  · exact fun _ _ => iff_of_false nofun (fun ⟨_, member, _⟩ => nomatch member)

theorem Coherent.step (coherent : Coherent base s) {op : Op K V} (allowed : s.Allowed op) :
    Coherent base (s.step op) := by
  obtain ⟨bucket, used, free, sound⟩ := coherent
  cases op with
  | insert k f calloc =>
      have inserted := sound.insert f allowed
      rw [Keyed.step]
      generalize s.insert k f calloc = result at inserted ⊢
      cases inserted with
      | present e inside here sound' => exact ⟨bucket, used, free, sound'⟩
      | full => exact ⟨bucket, used, free, sound⟩
      | new e free' old s' absent fresh taken key value stored sound' =>
          exact ⟨_, e :: used, free', sound'⟩
  | remove k f =>
      have removed := sound.remove k f
      rw [Keyed.step]
      generalize s.remove k f = result at removed ⊢
      cases removed with
      | absent => exact ⟨bucket, used, free, sound⟩
      | kept => exact ⟨bucket, used, free, sound⟩
      | taken e inside here held leaves s' bucket' free' sound' =>
          exact ⟨bucket', used.erase e, free', sound'⟩

/-- After any operations of any threads the map is coherent. -/
theorem Coherent.run (coherent : Coherent base s) {ops : List (Op K V)}
    (allowed : Run.Along Keyed.step Allowed s ops) : Coherent base (ops.foldl Keyed.step s) :=
  Run.holds_after (Coherent base) Allowed coherent (fun _ _ coherent allowed => coherent.step allowed)
    allowed

structure New (K V : Type*) where
  hush : K → ℕ
  zero : V
  unset : K
  max : ℕ
  positive : 0 < max
  few : max < 2 ^ 32
  threadsafe : Bool
  expandable : Bool

def New.map (new : New K V) : Keyed K V :=
  init new.hush new.zero new.unset new.max new.threadsafe new.expandable

omit [DecidableEq K] in
theorem New.coherent (new : New K V) : Coherent new.max new.map :=
  init_coherent new.hush new.zero new.unset new.positive new.few new.threadsafe new.expandable

def New.after (new : New K V) (ops : List (Op K V)) : Keyed K V := ops.foldl step new.map

end Keyed

end Cyue
