import Cyue.Util.Keyed

/-!
# Shared named memory

`shared_allocator`: any number of threads call `alloc` and `free` for names.  A
step is one access to what they share: a call of the pool, which is one step under
its lock, the initialiser, a call of the checker, and an addition to a counter.
What the initialisers and checkers return is up to the elements.

The map runs the destructor of an element that it has erased behind its lock, when the
element is free and may be another one's already.  The step `erase` leaves this late
destructor out.
-/

namespace Cyue

/-- `element`: the counter, and how often `init` and `fin` were called since the
element was constructed. -/
structure Shared where
  refc : UInt32
  inits : ℕ
  fins : ℕ
  deriving DecidableEq, Repr

/-- `element()` -/
def Shared.new : Shared := ⟨0, 0, 0⟩

/-- Where a thread is: in `alloc` with the name and the element that it found, or
in `free` behind the last reference. -/
inductive Place (K : Type*) where
  | outside
  | initialising (k : K) (e : ℕ)
  | checking (k : K) (e : ℕ)
  /-- At `error` in `alloc_and_init`. -/
  | failing (k : K)
  | referring (e : ℕ)
  | finalising (e : ℕ)
  | erasing (e : ℕ)
  deriving DecidableEq, Repr

namespace Place

variable {K : Type*}

/-- The element that is found and not referred to yet. -/
def found : Place K → Option ℕ
  | initialising _ e => some e
  | checking _ e => some e
  | referring e => some e
  | _ => none

/-- The element whose last reference is given up. -/
def leaving : Place K → Option ℕ
  | finalising e => some e
  | erasing e => some e
  | _ => none

end Place

/-- The pool with its threads.  `refs` are the pointers that `alloc` returned and
that were not passed to `free` since. -/
structure Shalloc (K : Type*) where
  pool : Keyed K Shared
  place : ℕ → Place K
  refs : List ℕ

/-- The next step of a thread, with what `calloc` or the element returns. -/
inductive Turn (K : Type*) where
  | alloc (i : ℕ) (k : K) (calloc : Option ℕ)
  | init (i : ℕ) (r : ℤ)
  | check (i : ℕ) (r : ℤ)
  | fail (i : ℕ)
  | refer (i : ℕ)
  | free (i : ℕ) (e : ℕ)
  | fin (i : ℕ)
  | erase (i : ℕ)

namespace Shalloc

open Keyed

variable {K : Type*} [DecidableEq K]

def write (pool : Keyed K Shared) (e : ℕ) (f : Shared → Shared) : Keyed K Shared :=
  pool.store (pool.key e) e (f (pool.value e))

def goes (s : Shalloc K) (i : ℕ) (place : Place K) : Shalloc K :=
  { s with place := Function.update s.place i place }

/-- `alloc(k, &exist)` of the pool in `alloc_and_init` -/
def lookup (s : Shalloc K) (i : ℕ) (k : K) (calloc : Option ℕ) : Shalloc K :=
  let r := s.pool.insert k (allocIfSetData fun _ => .new) calloc
  match r.1 with
  | none => { s with pool := r.2 }
  | some e =>
      { s with pool := r.2 }.goes i
        (if (s.pool.get k).isSome then .checking k e else .initialising k e)

/-- A step; a thread that is somewhere else does nothing. -/
def step (s : Shalloc K) : Turn K → Shalloc K
  | .alloc i k calloc =>
      match s.place i with
      | .outside => s.lookup i k calloc
      | _ => s
  | .init i r =>
      match s.place i with
      | .initialising k e =>
          { s with pool := write s.pool e fun v => { v with inits := v.inits + 1 } }.goes i
            (if r < 0 then .failing k else .referring e)
      | _ => s
  | .check i r =>
      match s.place i with
      | .checking k e =>
          if r = 0 then s else s.goes i (if r < 0 then .failing k else .referring e)
      | _ => s
  | .fail i =>
      match s.place i with
      | .failing k => { s with pool := (s.pool.remove k nopRemove).2 }.goes i .outside
      | _ => s
  | .refer i =>
      match s.place i with
      | .referring e =>
          { s with
            pool := write s.pool e fun v => { v with refc := v.refc + 1 }
            refs := e :: s.refs }.goes i .outside
      | _ => s
  | .free i e =>
      match s.place i with
      | .outside =>
          { s with
            pool := write s.pool e fun v => { v with refc := v.refc - 1 }
            refs := s.refs.erase e }.goes i
              (if (s.pool.value e).refc - 1 ≤ 0 then .finalising e else .outside)
      | _ => s
  | .fin i =>
      match s.place i with
      | .finalising e =>
          { s with pool := write s.pool e fun v => { v with fins := v.fins + 1 } }.goes i (.erasing e)
      | _ => s
  | .erase i =>
      match s.place i with
      | .erasing e =>
          { s with pool := (s.pool.remove (s.pool.key e) nopRemove).2 }.goes i .outside
      | _ => s

/-- `calloc` returns no memory that is in use, and a pointer is passed to `free`
once for each `alloc` that returned it. -/
def Allowed (s : Shalloc K) : Turn K → Prop
  | .alloc _ k calloc => s.pool.Allowed (.insert k (allocIfSetData fun _ => .new) calloc)
  | .free _ e => e ∈ s.refs
  | _ => True

/-- What keeps the threads apart.  A name is not looked up while its element is
being finalised, the last reference is not given up while another thread has found
the element, an `alloc` that has failed finds no element under its name that is
referred to or with which another thread is at work, and the counter does not wrap. -/
def Heeds (s : Shalloc K) : Turn K → Prop
  | .alloc i k _ => s.place i = .outside → ∀ e, s.pool.get k = some e →
      ∀ j, (s.place j).leaving ≠ some e
  | .free i e => s.place i = .outside → (s.pool.value e).refc = 1 →
      ∀ j, (s.place j).found ≠ some e
  | .fail i => ∀ k, s.place i = .failing k → ∀ e, s.pool.get k = some e →
      e ∉ s.refs ∧ ∀ j, (s.place j).found ≠ some e ∧ (s.place j).leaving ≠ some e
  | .refer i => ∀ e, s.place i = .referring e → s.refs.count e + 1 < 2 ^ 32
  | _ => True

/-- An element in the pool is initialised once, or is still to be; one that is
referred to is in the pool and was not finalised, and so is one that a thread is
about to initialise. -/
structure Good (s : Shalloc K) : Prop where
  once : ∀ e, e ∈ s.pool.array.held → (s.pool.value e).inits ≤ 1 ∧
    ((s.pool.value e).inits = 1 ∨ ∃ i k, s.place i = .initialising k e)
  held : ∀ e, e ∈ s.refs → e ∈ s.pool.array.held ∧ (s.pool.value e).fins = 0
  starting : ∀ i k e, s.place i = .initialising k e →
    s.pool.get k = some e ∧ (s.pool.value e).inits = 0 ∧ (s.pool.value e).fins = 0

/-! ## The calls of the pool -/

variable {pool : Keyed K Shared} {base : ℕ}

theorem write_coherent (coherent : Coherent base pool) {e : ℕ} (held : e ∈ pool.array.held)
    (f : Shared → Shared) : Coherent base (write pool e f) := by
  obtain ⟨bucket, used, free, sound⟩ := coherent
  exact ⟨bucket, used, free, sound.store (sound.lists.held ▸ held) rfl _⟩

/-- How `alloc` of the pool ends. -/
inductive Looked (pool : Keyed K Shared) (base : ℕ) (k : K) :
    Option ℕ × Keyed K Shared → Prop where
  | there (e : ℕ) (held : e ∈ pool.array.held) (key : pool.key e = k) (found : pool.get k = some e)
      (pool' : Keyed K Shared) (coherent : Coherent base pool') (same_array : pool'.array = pool.array)
      (same_key : pool'.key = pool.key) (same_value : pool'.value = pool.value) :
      Looked pool base k (some e, pool')
  | full (absent : pool.get k = none) : Looked pool base k (none, pool)
  | new (e : ℕ) (absent : pool.get k = none) (fresh : e ∉ pool.array.held) (pool' : Keyed K Shared)
      (coherent : Coherent base pool') (held : pool'.array.held = e :: pool.array.held)
      (key : pool'.key = Function.update pool.key e k)
      (value : pool'.value = Function.update pool.value e .new) : Looked pool base k (some e, pool')

theorem insert_looked (coherent : Coherent base pool) {k : K} {calloc : Option ℕ}
    (allowed : pool.Allowed (.insert k (allocIfSetData fun _ => .new) calloc)) :
    Looked pool base k (pool.insert k (allocIfSetData fun _ => .new) calloc) := by
  obtain ⟨bucket, used, free, sound⟩ := coherent
  have inserted := sound.insert (allocIfSetData fun _ => .new) allowed
  generalize pool.insert k (allocIfSetData fun _ => .new) calloc = result at inserted
  cases inserted with
  | present e inside here sound' =>
      rcases sound.get_spec k with ⟨e', inside', here', -, found⟩ | ⟨absent, -, -⟩
      · obtain rfl := sound.distinct e' e inside' inside (here'.trans here.symm)
        have same : Function.update pool.value e' (pool.value e') = pool.value :=
          Function.update_eq_self ..
        exact .there e' (sound.lists.held ▸ inside) here found _ ⟨bucket, used, free, sound'⟩ rfl
          rfl same
      · exact absurd here (absent e inside)
  | full absent => exact .full (sound.get_eq_none absent)
  | new e free' old pool' absent fresh taken key value stored sound' =>
      refine .new e (sound.get_eq_none absent) (sound.lists.held ▸ fresh) pool' ⟨_, _, _, sound'⟩ ?_
        key value
      rw [sound'.lists.held, sound.lists.held]

/-- How `erase` of the pool ends. -/
inductive Erased (pool : Keyed K Shared) (base : ℕ) (k : K) : Keyed K Shared → Prop where
  | absent (absent : pool.get k = none) : Erased pool base k pool
  | taken (e : ℕ) (inside : e ∈ pool.array.held) (here : pool.key e = k)
      (found : pool.get k = some e) (pool' : Keyed K Shared) (coherent : Coherent base pool')
      (held : pool'.array.held = pool.array.held.erase e) (key : pool'.key = pool.key)
      (value : pool'.value = pool.value) (distinct : pool.array.held.Nodup) :
      Erased pool base k pool'

theorem remove_erased (coherent : Coherent base pool) (k : K) :
    Erased pool base k (pool.remove k nopRemove).2 := by
  obtain ⟨bucket, used, free, sound⟩ := coherent
  have removed := sound.remove k nopRemove
  generalize pool.remove k nopRemove = result at removed
  cases removed with
  | absent absent => exact .absent (sound.get_eq_none absent)
  | kept e inside here held keeps => exact nomatch keeps
  | taken e inside here held leaves pool' bucket' free' sound' key value =>
      rcases sound.get_spec k with ⟨e', inside', here', -, found⟩ | ⟨absent, -, -⟩
      · obtain rfl := sound.distinct e' e inside' inside (here'.trans here.symm)
        refine .taken e' (sound.lists.held ▸ inside) here found pool' ⟨_, _, _, sound'⟩ ?_ key value ?_
        · rw [sound'.lists.held, sound.lists.held]
        · rw [sound.lists.held]
          exact sound.lists.chain.nodup
      · exact absurd here (absent e inside)

/-! ## The invariant -/

/-- What holds between the threads and the pool as long as nothing goes wrong. -/
structure Inv (base : ℕ) (s : Shalloc K) : Prop where
  coherent : Coherent base s.pool
  found : ∀ i e, (s.place i).found = some e → e ∈ s.pool.array.held
  named : ∀ i k e, s.place i = .initialising k e → s.pool.key e = k
  sole : ∀ i j k k' e, s.place i = .initialising k e → s.place j = .initialising k' e → i = j
  leaving : ∀ i e, (s.place i).leaving = some e → e ∈ s.pool.array.held ∧ e ∉ s.refs ∧
    ∀ j, (s.place j).found ≠ some e ∧ ((s.place j).leaving = some e → j = i)
  refs : ∀ e, e ∈ s.refs → e ∈ s.pool.array.held
  counted : ∀ e, e ∈ s.pool.array.held →
    (s.pool.value e).refc.toNat = s.refs.count e
  fins : ∀ e, e ∈ s.pool.array.held → (∀ i, (s.place i).leaving ≠ some e) →
    (s.pool.value e).fins = 0
  inits : ∀ e, e ∈ s.pool.array.held →
    ((∃ i k, s.place i = .initialising k e) ∧ (s.pool.value e).inits = 0) ∨
      ((∀ i k, s.place i ≠ .initialising k e) ∧ (s.pool.value e).inits = 1)

variable {s : Shalloc K}

omit [DecidableEq K] in
theorem found_of_initialising {place : Place K} {k : K} {e : ℕ}
    (at_ : place = .initialising k e) : place.found = some e := by
  rw [at_]
  rfl

omit [DecidableEq K] in
/-- An element that another thread has found is not being left. -/
theorem Inv.not_leaving (inv : Inv base s) {i : ℕ} {e : ℕ} (found : (s.place i).found = some e)
    (j : ℕ) : (s.place j).leaving ≠ some e :=
  fun leaving => ((inv.leaving j e leaving).2.2 i).1 found

theorem Inv.good (inv : Inv base s) : Good s := by
  constructor
  · intro e held
    rcases inv.inits e held with ⟨starts, none_yet⟩ | ⟨-, once⟩
    · exact ⟨none_yet ▸ Nat.zero_le 1, .inr starts⟩
    · exact ⟨once.le, .inl once⟩
  · intro e member
    have held := inv.refs e member
    exact ⟨held, inv.fins e held fun i leaving => (inv.leaving i e leaving).2.1 member⟩
  · intro i k e starts
    have found := found_of_initialising starts
    have held := inv.found i e found
    refine ⟨?_, ?_, inv.fins e held (inv.not_leaving found)⟩
    · exact (inv.coherent.get_of_held held (inv.named i k e starts)).1
    · rcases inv.inits e held with ⟨-, none_yet⟩ | ⟨nobody, -⟩
      · exact none_yet
      · exact absurd starts (nobody i k)

/-! ## The steps -/

/-- A thread looks up a name that nobody is giving up. -/
theorem Inv.lookup (inv : Inv base s) {i : ℕ} {k : K} {calloc : Option ℕ}
    (outside : s.place i = .outside)
    (allowed : s.pool.Allowed (.insert k (allocIfSetData fun _ => .new) calloc))
    (calm : ∀ e, s.pool.get k = some e → ∀ j, (s.place j).leaving ≠ some e) :
    Inv base (s.lookup i k calloc) := by
  have looked := insert_looked inv.coherent allowed
  rw [Shalloc.lookup]
  generalize s.pool.insert k (allocIfSetData fun _ => .new) calloc = result at looked ⊢
  cases looked with
  | there e held key here pool' coherent' same_array same_key same_value =>
      obtain ⟨coherent, found, named, sole, leaving, refs, counted, fins, inits⟩ := inv
      dsimp only
      rw [here]
      constructor
      · exact coherent'
      all_goals
        simp only [goes, Option.isSome_some, if_true, same_array, same_key, same_value,
          Function.update_apply]
      · grind [Place.found]
      · grind
      · grind
      · grind [Place.found, Place.leaving]
      · exact refs
      · exact counted
      · grind [Place.leaving]
      · grind
  | full absent => exact inv
  | new e absent fresh pool' coherent' held key value =>
      obtain ⟨coherent, found, named, sole, leaving, refs, counted, fins, inits⟩ := inv
      dsimp only
      rw [absent]
      have unreferred : s.refs.count e = 0 :=
        List.count_eq_zero.mpr fun member => fresh (refs e member)
      have zero : Shared.new.refc.toNat = 0 := rfl
      constructor
      · exact coherent'
      all_goals
        simp only [goes, Option.isSome_none, Bool.false_eq_true, if_false, held, key, value,
          Function.update_apply, List.mem_cons]
      · grind [Place.found]
      · grind [Place.found]
      · grind [Place.found]
      · grind [Place.found, Place.leaving]
      · grind
      · grind
      · grind [Shared.new, Place.leaving]
      · intro u member
        by_cases same : u = e
        · subst same
          exact .inl ⟨⟨i, k, if_pos rfl⟩, congrArg Shared.inits (if_pos rfl)⟩
        · grind [Place.found]

/-- The initialiser returns. -/
theorem Inv.init (inv : Inv base s) {i e : ℕ} {k : K} (here : s.place i = .initialising k e)
    (place : Place K) (after : place = .failing k ∨ place = .referring e) :
    Inv base ({ s with
      pool := write s.pool e fun v => { v with inits := v.inits + 1 } }.goes i place) := by
  have held : e ∈ s.pool.array.held := inv.found i e (found_of_initialising here)
  have coherent' := write_coherent inv.coherent held fun v => { v with inits := v.inits + 1 }
  obtain ⟨coherent, found, named, sole, leaving, refs, counted, fins, inits⟩ := inv
  constructor
  · exact coherent'
  all_goals simp only [goes, write, Keyed.store, Function.update_apply]
  · grind [Place.found]
  · grind
  · grind
  · grind [Place.found, Place.leaving]
  · exact refs
  · grind
  · grind [Place.leaving]
  · grind

omit [DecidableEq K] in
/-- A thread goes on without touching the pool, at the same element or at none. -/
theorem Inv.goes (inv : Inv base s) {i e : ℕ} {k : K} (here : s.place i = .checking k e)
    (place : Place K) (after : place = .failing k ∨ place = .referring e) :
    Inv base (s.goes i place) := by
  obtain ⟨coherent, found, named, sole, leaving, refs, counted, fins, inits⟩ := inv
  constructor
  · exact coherent
  all_goals simp only [Shalloc.goes, Function.update_apply]
  · grind [Place.found]
  · grind
  · grind
  · grind [Place.found, Place.leaving]
  · exact refs
  · exact counted
  · grind [Place.leaving]
  · grind

/-- An element that nobody refers to or works with is removed. -/
theorem Inv.remove (inv : Inv base s) {i : ℕ} {k : K}
    (alone : ∀ e, s.pool.get k = some e → e ∉ s.refs ∧
      ∀ j, (s.place j).found ≠ some e ∧ (j ≠ i → (s.place j).leaving ≠ some e))
    (kept : (s.place i).found = none)
    (last : ∀ e, (s.place i).leaving = some e → s.pool.get k = some e) :
    Inv base ({ s with pool := (s.pool.remove k nopRemove).2 }.goes i .outside) := by
  have erased := remove_erased inv.coherent k
  generalize (s.pool.remove k nopRemove).2 = pool' at erased ⊢
  obtain ⟨coherent, found, named, sole, leaving, refs, counted, fins, inits⟩ := inv
  cases erased with
  | absent absent =>
      constructor
      · exact coherent
      all_goals simp only [Shalloc.goes, Function.update_apply]
      · grind [Place.found]
      · grind
      · grind
      · grind [Place.found, Place.leaving]
      · exact refs
      · exact counted
      · grind [Place.leaving]
      · grind [Place.found]
  | taken e inside here there pool' coherent' held key value distinct =>
      obtain ⟨unreferred, apart⟩ := alone e there
      constructor
      · exact coherent'
      all_goals
        simp only [Shalloc.goes, held, key, value, Function.update_apply, distinct.mem_erase_iff]
      · grind [Place.found]
      · grind
      · grind
      · grind [Place.found, Place.leaving]
      · grind
      · grind
      · grind [Place.leaving]
      · grind [Place.found]

/-- A thread refers to the element that it has found. -/
theorem Inv.refer (inv : Inv base s) {i e : ℕ} (here : s.place i = .referring e)
    (few : s.refs.count e + 1 < 2 ^ 32) :
    Inv base ({ s with
      pool := write s.pool e fun v => { v with refc := v.refc + 1 }
      refs := e :: s.refs }.goes i .outside) := by
  have held : e ∈ s.pool.array.held := inv.found i e (by rw [here]; rfl)
  have coherent' := write_coherent inv.coherent held fun v => { v with refc := v.refc + 1 }
  have count : ((s.pool.value e).refc + 1).toNat = s.refs.count e + 1 := by
    rw [UInt32.toNat_add, inv.counted e held]
    exact Nat.mod_eq_of_lt few
  obtain ⟨coherent, found, named, sole, leaving, refs, counted, fins, inits⟩ := inv
  constructor
  · exact coherent'
  all_goals simp only [Shalloc.goes, write, Keyed.store, Function.update_apply, List.mem_cons,
    List.count_cons]
  · grind [Place.found]
  · grind
  · grind
  · grind [Place.found, Place.leaving]
  · grind
  · grind
  · grind [Place.leaving]
  · grind

/-- A reference is given up; behind the last one the element is left. -/
theorem Inv.unref (inv : Inv base s) {i e : ℕ} (here : s.place i = .outside) (member : e ∈ s.refs)
    (calm : (s.pool.value e).refc = 1 → ∀ j, (s.place j).found ≠ some e) :
    Inv base ({ s with
      pool := write s.pool e fun v => { v with refc := v.refc - 1 }
      refs := s.refs.erase e }.goes i
        (if (s.pool.value e).refc - 1 ≤ 0 then .finalising e else .outside)) := by
  have held : e ∈ s.pool.array.held := inv.refs e member
  have coherent' := write_coherent inv.coherent held fun v => { v with refc := v.refc - 1 }
  have positive : 0 < s.refs.count e := List.count_pos_iff.mpr member
  have count : ((s.pool.value e).refc - 1).toNat = s.refs.count e - 1 := by
    rw [UInt32.toNat_sub_of_le, inv.counted e held]
    · rfl
    · rw [UInt32.le_iff_toNat_le, inv.counted e held]
      exact positive
  have stays : ∀ j, (s.place j).leaving ≠ some e :=
    fun j leaving => (inv.leaving j e leaving).2.1 member
  have erased : ∀ u, u ≠ e → (u ∈ s.refs.erase e ↔ u ∈ s.refs) :=
    fun u other => List.mem_erase_of_ne other
  split
  case isTrue last =>
    have one : s.refs.count e = 1 := by
      rw [UInt32.le_iff_toNat_le, count] at last
      have zero : (0 : UInt32).toNat = 0 := rfl
      omega
    have apart := calm (UInt32.toNat_inj.mp ((inv.counted e held).trans one))
    have gone : e ∉ s.refs.erase e := by
      rw [← List.count_eq_zero, List.count_erase_self, one]
    obtain ⟨coherent, found, named, sole, leaving, refs, counted, fins, inits⟩ := inv
    constructor
    · exact coherent'
    all_goals simp only [Shalloc.goes, write, Keyed.store, Function.update_apply, List.count_erase]
    · grind [Place.found]
    · grind
    · grind
    · grind [Place.found, Place.leaving]
    · grind
    · grind
    · grind [Place.leaving]
    · grind
  case isFalse more =>
    obtain ⟨coherent, found, named, sole, leaving, refs, counted, fins, inits⟩ := inv
    constructor
    · exact coherent'
    all_goals simp only [Shalloc.goes, write, Keyed.store, Function.update_apply, List.count_erase]
    · grind [Place.found]
    · grind
    · grind
    · grind [Place.found, Place.leaving]
    · grind [List.mem_of_mem_erase]
    · grind
    · grind [Place.leaving]
    · grind

/-- An element that is left is finalised. -/
theorem Inv.fin (inv : Inv base s) {i e : ℕ} (here : s.place i = .finalising e) :
    Inv base ({ s with pool := write s.pool e fun v => { v with fins := v.fins + 1 } }.goes i
      (.erasing e)) := by
  have leaves : (s.place i).leaving = some e := by rw [here]; rfl
  have held : e ∈ s.pool.array.held := (inv.leaving i e leaves).1
  have coherent' := write_coherent inv.coherent held fun v => { v with fins := v.fins + 1 }
  obtain ⟨coherent, found, named, sole, leaving, refs, counted, fins, inits⟩ := inv
  constructor
  · exact coherent'
  all_goals simp only [Shalloc.goes, write, Keyed.store, Function.update_apply]
  · grind [Place.found]
  · grind
  · grind
  · grind [Place.found, Place.leaving]
  · exact refs
  · grind
  · grind [Place.leaving]
  · grind

/-- Every step that heeds the others keeps the invariant. -/
theorem Inv.step (inv : Inv base s) {turn : Turn K} (allowed : s.Allowed turn)
    (heeds : s.Heeds turn) : Inv base (s.step turn) := by
  cases turn with
  | alloc i k calloc =>
      cases here : s.place i with
      | outside =>
          simp only [Shalloc.step, here]
          exact inv.lookup here allowed (heeds here)
      | _ =>
          simp only [Shalloc.step, here]
          exact inv
  | init i r =>
      cases here : s.place i with
      | initialising k e =>
          simp only [Shalloc.step, here]
          apply inv.init here
          split
          · exact .inl rfl
          · exact .inr rfl
      | _ =>
          simp only [Shalloc.step, here]
          exact inv
  | check i r =>
      cases here : s.place i with
      | checking k e =>
          simp only [Shalloc.step, here]
          split
          · exact inv
          · apply inv.goes here
            split
            · exact .inl rfl
            · exact .inr rfl
      | _ =>
          simp only [Shalloc.step, here]
          exact inv
  | fail i =>
      cases here : s.place i with
      | failing k =>
          simp only [Shalloc.step, here]
          apply inv.remove
          · intro e there
            obtain ⟨unreferred, apart⟩ := heeds k here e there
            exact ⟨unreferred, fun j => ⟨(apart j).1, fun _ => (apart j).2⟩⟩
          · rw [here]
            rfl
          · rw [here]
            exact fun e leaves => nomatch leaves
      | _ =>
          simp only [Shalloc.step, here]
          exact inv
  | refer i =>
      cases here : s.place i with
      | referring e =>
          simp only [Shalloc.step, here]
          exact inv.refer here (heeds e here)
      | _ =>
          simp only [Shalloc.step, here]
          exact inv
  | free i e =>
      cases here : s.place i with
      | outside =>
          simp only [Shalloc.step, here]
          exact inv.unref here allowed (heeds here)
      | _ =>
          simp only [Shalloc.step, here]
          exact inv
  | fin i =>
      cases here : s.place i with
      | finalising e =>
          simp only [Shalloc.step, here]
          exact inv.fin here
      | _ =>
          simp only [Shalloc.step, here]
          exact inv
  | erase i =>
      cases here : s.place i with
      | erasing e =>
          simp only [Shalloc.step, here]
          have leaves : (s.place i).leaving = some e := by rw [here]; rfl
          obtain ⟨held, unreferred, apart⟩ := inv.leaving i e leaves
          have there := (inv.coherent.get_of_held held rfl).1
          apply inv.remove
          · intro e' there'
            obtain rfl := Option.some.inj (there.symm.trans there')
            refine ⟨unreferred, fun j => ⟨(apart j).1, fun other leaves => ?_⟩⟩
            exact other ((apart j).2 leaves)
          · rw [here]
            rfl
          · intro e' leaves'
            obtain rfl := Option.some.inj (leaves.symm.trans leaves')
            exact there
      | _ =>
          simp only [Shalloc.step, here]
          exact inv

/-! ## Runs -/

def start (new : New K Shared) : Shalloc K := ⟨new.map, fun _ => .outside, []⟩

omit [DecidableEq K] in
theorem start_inv (new : New K Shared) : Inv new.max (start new) where
  coherent := new.coherent
  found := fun _ _ => nofun
  named := fun _ _ _ => nofun
  sole := fun _ _ _ _ _ => nofun
  leaving := fun _ _ => nofun
  refs := fun _ => nofun
  counted := fun _ => nofun
  fins := fun _ => nofun
  inits := fun _ => nofun

/-- In every run whose steps heed the other threads, each state is good. -/
theorem shared_good (new : New K Shared) (turns : List (Turn K))
    (allowed : Run.Along Shalloc.step Allowed (start new) turns)
    (heeds : Run.Along Shalloc.step Heeds (start new) turns) :
    ∀ n, Good ((turns.take n).foldl Shalloc.step (start new)) := by
  intro n
  have keeps : ∀ (s : Shalloc K) turn, Inv new.max s → s.Allowed turn ∧ s.Heeds turn →
      Inv new.max (s.step turn) := fun s turn inv ⟨allowed, heeds⟩ => inv.step allowed heeds
  exact (Run.holds_after (Inv new.max) _ (start_inv new) keeps ((allowed.and heeds).take n)).good

def fourElements : New ℕ Shared where
  hush := (· % 7)
  zero := .new
  unset := 0
  max := 4
  positive := by decide
  few := by decide
  threadsafe := true
  expandable := true

/-- Two threads share an element, and the second one gives up the last reference. -/
def sharing : List (Turn ℕ) :=
  [.alloc 0 5 none, .init 0 1, .alloc 1 5 none, .refer 0, .check 1 0, .check 1 1, .refer 1,
    .free 0 0, .free 1 0, .fin 1, .erase 1]

theorem shared_good_two : Good (sharing.foldl Shalloc.step (start fourElements)) := by
  have allowed : Run.Along Shalloc.step Allowed (start fourElements) sharing :=
    ⟨nofun, trivial, nofun, trivial, trivial, trivial, trivial, (List.mem_cons_self : 0 ∈ [0, 0]),
      (List.mem_cons_self : 0 ∈ [0]), trivial, trivial, trivial⟩
  have nobody_leaves : ((start fourElements).step (.alloc 0 5 none) |>.step (.init 0 1)).Heeds
      (.alloc 1 5 none) := by
    intro _ e _ j
    match j with
    | 0 => exact nofun
    | j + 1 => exact nofun
  have nobody_seeks : ([.alloc 0 5 none, .init 0 1, .alloc 1 5 none, .refer 0, .check 1 0,
      .check 1 1, .refer 1, .free 0 0].foldl Shalloc.step (start fourElements)).Heeds
      (.free 1 0) := by
    intro _ _ j
    match j with
    | 0 => exact nofun
    | 1 => exact nofun
    | j + 2 => exact nofun
  have heeds : Run.Along Shalloc.step Heeds (start fourElements) sharing :=
    ⟨fun _ _ => nofun, trivial, nobody_leaves, fun _ _ => (by decide : 0 + 1 < 2 ^ 32), trivial,
      trivial, fun e here => by cases here; decide, fun _ one => absurd one (by decide),
      nobody_seeks, trivial, trivial, trivial⟩
  exact shared_good fourElements sharing allowed heeds 11

/-- The second thread's checks fail while the first one is about to initialise
the element, as they do where a poller is not opened yet, and the second thread
removes it. -/
theorem starting_removed :
    let s := [Turn.alloc 0 5 none, .alloc 1 5 none, .check 1 (-1), .fail 1].foldl Shalloc.step
      (start fourElements)
    s.place 0 = .initialising 5 0 ∧ s.pool.get 5 = none ∧ ¬ Good s := by
  intro s
  have place : s.place 0 = .initialising 5 0 := by decide
  have gone : s.pool.get 5 = none := by decide
  refine ⟨place, gone, fun good => ?_⟩
  exact nomatch gone.symm.trans (good.starting 0 5 0 place).1

end Shalloc

end Cyue
