import Cyue.Util.Keyed

/-!
# The values of removed elements

`remove` gives the element back and returns a pointer to its value, which the
caller reads afterwards: `find_and_erase` copies it, `erase` destroys it, and the
timeout of a handshake calls the handler in it.  Other threads may allocate
before the caller reads.
-/

namespace Cyue.Keyed

variable {K V : Type} [DecidableEq K]

/-- An allocation by another thread: `insert` or `alloc` with its data functor. -/
structure Allocation (K V : Type) where
  key : K
  functor : Functor V
  calloc : Option ℕ

def Allocation.op (a : Allocation K V) : Op K V := .insert a.key a.functor a.calloc

/-- The allocations of other threads between two steps of a caller. -/
def during (s : Keyed K V) (gap : List (Allocation K V)) : Keyed K V :=
  (gap.map Allocation.op).foldl step s

def read (s : Keyed K V) (e : ℕ) : Option V := if s.array.live e then some (s.value e) else none

def Spare (s : Keyed K V) (e : ℕ) : Prop := s.array.live e = true ∧ e ∉ s.array.held

/-- `remove`, and the use of the pointer that it returned: the element, and the
state in which its value is read. -/
def removeAndRead (s : Keyed K V) (k : K) (f : V → Bool) (gap : List (Allocation K V)) :
    Option (ℕ × Keyed K V) :=
  match s.remove k f with
  | (none, _) => none
  | (some e, s') => some (e, s'.during gap)

/-- `find_and_erase`; `v = *pv` reads the element. -/
def findAndErase (s : Keyed K V) (k : K) (gap : List (Allocation K V)) : Option (ℕ × Keyed K V) :=
  s.removeAndRead k nopRemove gap

/-- `find_and_erase_if`; `v = *pv` reads the element. -/
def findAndEraseIf (s : Keyed K V) (k : K) (removable : V → Bool) (gap : List (Allocation K V)) :
    Option (ℕ × Keyed K V) :=
  s.removeAndRead k removable gap

/-- `erase`; the destructor reads the element. -/
def erase (s : Keyed K V) (k : K) (gap : List (Allocation K V)) : Option (ℕ × Keyed K V) :=
  s.removeAndRead k nopRemove gap

/-- The value that was stored last is read.  A removed element is spare memory
of the map meanwhile, and one that the functor keeps is still that of the key. -/
def Exact (s : Keyed K V) (k : K) (f : V → Bool) (used : Option (ℕ × Keyed K V)) : Prop :=
  match s.stored k with
  | none => used = none
  | some v => ∃ e t, used = some (e, t) ∧
      if f v then t.Spare e ∧ t.read e = some v else t.get k = some e ∧ t.read e = t.stored k

/-- A removed element is not given back to the heap, and nobody allocates a key
that is not in the map before it has been read. -/
def Undisturbed (s : Keyed K V) (k : K) (f : V → Bool) (gap : List (Allocation K V)) : Prop :=
  ∀ e, s.get k = some e → f (s.value e) = true →
    ¬ s.array.GivesBack e ∧ ∀ a, a ∈ gap → a.key ≠ k ∧ (s.get a.key).isSome

theorem during_append (s : Keyed K V) (gap gap' : List (Allocation K V)) :
    s.during (gap ++ gap') = (s.during gap).during gap' := by
  rw [during, List.map_append, List.foldl_append]
  rfl

/-! ## Spare elements -/

variable {s s' : Keyed K V} {bucket : ℕ → List ℕ} {used free : List ℕ} {base : ℕ} {k : K} {e : ℕ}
  {f : V → Bool} {gap : List (Allocation K V)}

omit [DecidableEq K] in
theorem Sound.spare (sound : Sound s bucket used (e :: free) base) : s.Spare e := by
  constructor
  · exact (sound.lists.live e).mpr (.inr List.mem_cons_self)
  · intro held
    rw [sound.lists.held] at held
    exact sound.lists.disjoint held List.mem_cons_self

/-- Without a spare element there is none after an allocation. -/
theorem Spare.of_insert {a : Allocation K V} (sound : Sound s bucket used free base)
    (allowed : s.Allowed a.op) (spare : (s.step a.op).Spare e) : s.Spare e := by
  have inserted := sound.insert a.functor allowed
  change Spare (s.insert a.key a.functor a.calloc).2 e at spare
  generalize s.insert a.key a.functor a.calloc = result at inserted spare
  cases inserted with
  | present => exact spare
  | full => exact spare
  | new e' free' old s' absent fresh taken key value stored sound' =>
      obtain ⟨live, held⟩ := spare
      rw [sound'.lists.held] at held
      have listed : e ∈ free' := by
        rcases (sound'.lists.live e).mp live with inside | listed
        · exact absurd inside held
        · exact listed
      constructor
      · refine (sound.lists.live e).mpr (.inr ?_)
        rcases taken with rfl | ⟨-, rfl, -⟩
        · exact List.mem_cons_of_mem e' listed
        · exact nomatch listed
      · rw [sound.lists.held]
        exact fun inside => held (List.mem_cons_of_mem e' inside)

theorem Spare.of_during (coherent : Coherent base s)
    (allowed : Run.Along step Allowed s (gap.map Allocation.op)) (spare : (s.during gap).Spare e) :
    s.Spare e := by
  induction gap generalizing s with
  | nil => exact spare
  | cons a gap ih =>
      have later := ih (coherent.step allowed.1) allowed.2 spare
      obtain ⟨bucket, used, free, sound⟩ := coherent
      exact later.of_insert sound allowed.1

/-- The first free element stays free as long as only keys that are in the map
are allocated, and its value stays as well. -/
theorem spare_during_iff (sound : Sound s bucket used (e :: free) base)
    (allowed : Run.Along step Allowed s (gap.map Allocation.op)) :
    (s.during gap).Spare e ∧ (s.during gap).value e = s.value e ↔
      ∀ a, a ∈ gap → (s.stored a.key).isSome := by
  induction gap generalizing s bucket with
  | nil => exact iff_of_true ⟨sound.spare, rfl⟩ nofun
  | cons a gap ih =>
      have inserted := sound.insert a.functor allowed.1
      have coherent : Coherent base (s.step a.op) := Coherent.step ⟨_, _, _, sound⟩ allowed.1
      obtain ⟨-, later⟩ := allowed
      change Coherent base (s.insert a.key a.functor a.calloc).2 at coherent
      change Run.Along _ _ (s.insert a.key a.functor a.calloc).2 _ at later
      change Spare ((s.insert a.key a.functor a.calloc).2.during gap) e ∧
        ((s.insert a.key a.functor a.calloc).2.during gap).value e = _ ↔ _
      generalize s.insert a.key a.functor a.calloc = result at inserted later coherent ⊢
      cases inserted with
      | present e' inside here sound' =>
          have present : (s.stored a.key).isSome = true := by
            rw [(sound.stored a.key _).mpr ⟨e', inside, here, rfl⟩]
            rfl
          have stored : ∀ k, ((s.store a.key e' (a.functor (s.value e') true).1).stored k).isSome =
              (s.stored k).isSome := by
            intro k
            change (Function.update s.stored a.key _ k).isSome = _
            by_cases same : k = a.key
            · rw [same, Function.update_self, present]
              rfl
            · rw [Function.update_of_ne same]
          have value : (s.store a.key e' (a.functor (s.value e') true).1).value e = s.value e := by
            refine Function.update_of_ne ?_ ..
            rintro rfl
            exact sound.lists.disjoint inside List.mem_cons_self
          have rest := ih sound' later
          rw [value] at rest
          rw [rest, List.forall_mem_cons, and_iff_right present]
          exact forall₂_congr fun a _ => by rw [stored]
      | full absent none_left => exact nomatch none_left
      | new e' free' old s' absent fresh taken key value stored sound' =>
          have first : e' = e := by
            rcases taken with same | ⟨none_left, -⟩
            · exact (List.cons.inj same).1.symm
            · exact nomatch none_left
          constructor
          · rintro ⟨spare, -⟩
            refine absurd ?_ (spare.of_during coherent later).2
            rw [sound'.lists.held, first]
            exact List.mem_cons_self
          · intro all
            have here := all a List.mem_cons_self
            rw [absent] at here
            exact nomatch here

/-- An element that holds a key goes on to hold it. -/
theorem held_during (coherent : Coherent base s)
    (allowed : Run.Along step Allowed s (gap.map Allocation.op)) (held : e ∈ s.array.held)
    (here : s.key e = k) : e ∈ (s.during gap).array.held ∧ (s.during gap).key e = k := by
  induction gap generalizing s with
  | nil => exact ⟨held, here⟩
  | cons a gap ih =>
      have kept : e ∈ (s.step a.op).array.held ∧ (s.step a.op).key e = k := by
        obtain ⟨bucket, used, free, sound⟩ := coherent
        have inserted := sound.insert a.functor allowed.1
        change e ∈ (s.insert a.key a.functor a.calloc).2.array.held ∧
          (s.insert a.key a.functor a.calloc).2.key e = k
        generalize s.insert a.key a.functor a.calloc = result at inserted ⊢
        cases inserted with
        | present => exact ⟨held, here⟩
        | full => exact ⟨held, here⟩
        | new e' free' old s' absent fresh taken key value stored sound' =>
            rw [sound.lists.held] at held
            rw [sound'.lists.held, key]
            refine ⟨List.mem_cons_of_mem e' held, (Function.update_of_ne ?_ ..).trans here⟩
            rintro rfl
            exact fresh held
      exact ih (coherent.step allowed.1) allowed.2 kept.1 kept.2

theorem Coherent.read_of_held (coherent : Coherent base s) (held : e ∈ s.array.held)
    (here : s.key e = k) : s.read e = s.stored k := by
  rw [read, if_pos (coherent.live held), (coherent.get_of_held held here).2]

/-! ## Reading a removed value -/

omit [DecidableEq K] in
theorem read_eq_some (spare : s.Spare e) (v : V) : s.read e = some v ↔ s.value e = v := by
  rw [read, if_pos spare.1, Option.some.injEq]

theorem exact_some {v : V} (held : s.stored k = some v)
    (leaves : f v = true) : s.Exact k f (some (e, s')) ↔ s'.Spare e ∧ s'.read e = some v := by
  rw [Exact, held]
  constructor
  · rintro ⟨e', t, same, reads⟩
    obtain ⟨rfl, rfl⟩ := Prod.mk.inj (Option.some.inj same)
    rw [leaves] at reads
    exact reads
  · intro reads
    refine ⟨e, s', rfl, ?_⟩
    rw [leaves]
    exact reads

/-- What is used after `remove` is right if and only if nothing has disturbed it. -/
theorem Sound.exact_iff (sound : Sound s bucket used free base)
    (allowed : Run.Along step Allowed (s.remove k f).2 (gap.map Allocation.op)) :
    s.Exact k f (s.removeAndRead k f gap) ↔ s.Undisturbed k f gap := by
  have removed := sound.remove k f
  have before : Coherent base s := ⟨bucket, used, free, sound⟩
  have allowed_remove : s.Allowed (.remove k f) := trivial
  have coherent : Coherent base (s.remove k f).2 := before.step allowed_remove
  rw [removeAndRead]
  generalize s.remove k f = result at removed allowed coherent ⊢
  cases removed with
  | absent absent =>
      rw [Exact, absent]
      refine iff_of_true rfl fun e found => ?_
      have nowhere := sound.get_isSome k
      rw [found, absent] at nowhere
      exact nomatch nowhere
  | kept e inside here held keeps =>
      have found := (Coherent.get_of_held ⟨bucket, used, free, sound⟩
        (sound.lists.held ▸ inside) here).1
      rw [Exact, held]
      constructor
      · intro _ e' same leaves
        obtain rfl := Option.some.inj (found.symm.trans same)
        exact nomatch keeps.symm.trans leaves
      · intro _
        obtain ⟨held', here'⟩ := held_during coherent allowed (sound.lists.held ▸ inside) here
        refine ⟨e, _, rfl, ?_⟩
        rw [keeps]
        have coherent' := coherent.run allowed
        exact ⟨(coherent'.get_of_held held' here').1, coherent'.read_of_held held' here'⟩
  | taken e inside here held leaves s' bucket' free' sound' key value stored back =>
      have found := (Coherent.get_of_held ⟨bucket, used, free, sound⟩
        (sound.lists.held ▸ inside) here).1
      have exact_spare : s.Exact k f (some (e, s'.during gap)) ↔
          (s'.during gap).Spare e ∧ (s'.during gap).value e = s'.value e := by
        rw [exact_some held leaves, value]
        exact and_congr_right fun spare => read_eq_some spare _
      have in_map : ∀ k', (s'.stored k').isSome = true ↔ k' ≠ k ∧ (s.get k').isSome = true := by
        intro k'
        rw [stored, sound.get_isSome]
        by_cases same : k' = k
        · rw [same, Function.update_self]
          exact iff_of_false nofun fun both => both.1 rfl
        · rw [Function.update_of_ne same]
          exact (and_iff_right same).symm
      have undisturbed : s.Undisturbed k f gap ↔
          ¬ s.array.GivesBack e ∧ ∀ a, a ∈ gap → a.key ≠ k ∧ (s.get a.key).isSome := by
        constructor
        · intro all
          exact all e found leaves
        · intro here e' same _
          obtain rfl := Option.some.inj (found.symm.trans same)
          exact here
      change Exact s k f (some (e, s'.during gap)) ↔ _
      rw [exact_spare, undisturbed]
      rcases back with ⟨rfl, keeps⟩ | ⟨rfl, gives⟩
      · rw [spare_during_iff sound' allowed, and_iff_right keeps]
        exact forall₂_congr fun a _ => in_map a.key
      · refine iff_of_false (fun both => ?_) fun both => both.1 gives
        have spare := both.1.of_during coherent allowed
        rcases (sound'.lists.live e).mp spare.1 with again | again
        · exact sound.lists.chain.nodup.not_mem_erase again
        · exact sound.lists.disjoint inside again

theorem removeAndRead_eq (found : s.get k = some e) (leaves : f (s.value e) = true) :
    s.removeAndRead k f gap = some (e, (s.remove k f).2.during gap) := by
  have removed : s.remove k f = (some e, (s.remove k f).2) := by
    rw [remove, found]
    dsimp only
    rw [if_pos leaves]
  rw [removeAndRead, removed]

/-! ## Handshakes -/

structure Handshaker (H : Type) where
  fd : ℤ
  h : H
  limit : ℕ
  deriving DecidableEq

variable {H : Type}

/-- `start_handshake` inserts the handshake under its descriptor. -/
def startHandshake (hs : Handshaker H) (calloc : Option ℕ) : Allocation ℤ (Handshaker H) :=
  ⟨hs.fd, insertSetData hs, calloc⟩

/-- The handshakes that other threads start between two steps. -/
def starts (gap : List (Handshaker H × Option ℕ)) : List (Allocation ℤ (Handshaker H)) :=
  gap.map fun p => startHandshake p.1 p.2

/-- What is done with the map of handshakes; the timeouts erase as well. -/
inductive HandshakeOp (H : Type) where
  | start (hs : Handshaker H) (calloc : Option ℕ)
  | findAndErase (fd : ℤ)

def HandshakeOp.op : HandshakeOp H → Op ℤ (Handshaker H)
  | .start hs calloc => (startHandshake hs calloc).op
  | .findAndErase fd => .remove fd nopRemove

/-- `timeout_iterator` on the element of a visited handshake: the element that
`erase` found, the state in which it is destroyed, and the state in which the
handler and the descriptor of the visited element are read for the call. -/
def timeoutIterator (s : Keyed ℤ (Handshaker H)) (now e : ℕ)
    (gap₀ gap₁ gap₂ : List (Handshaker H × Option ℕ)) :
    Option (ℕ × Keyed ℤ (Handshaker H) × Keyed ℤ (Handshaker H)) :=
  let hs := s.value e
  if hs.limit < now then
    ((s.during (starts gap₀)).erase hs.fd (starts gap₁)).map fun r =>
      (r.1, r.2, r.2.during (starts gap₂))
  else none

/-- The handshake is destroyed and called as it was stored last, while its element
is spare memory of the map. -/
def TimeoutExact (s : Keyed ℤ (Handshaker H)) (now e : ℕ)
    (used : Option (ℕ × Keyed ℤ (Handshaker H) × Keyed ℤ (Handshaker H))) : Prop :=
  if (s.value e).limit < now then
    ∃ v e' t u, s.stored (s.value e).fd = some v ∧ used = some (e', t, u) ∧
      (t.Spare e' ∧ t.read e' = some v) ∧ u.Spare e ∧ u.read e = some v
  else used = none

def Tagged (s : Keyed ℤ (Handshaker H)) : Prop :=
  ∀ fd hs, s.stored fd = some hs → hs.fd = fd

section

variable {s : Keyed ℤ (Handshaker H)} {gap : List (Handshaker H × Option ℕ)}

/-- A handshake that is there stays as it is when another one is started. -/
theorem Sound.start {hs : Handshaker H} {calloc : Option ℕ}
    (sound : Sound s bucket used free base)
    (allowed : s.Allowed (startHandshake hs calloc).op) (inside : e ∈ used) :
    (s.step (startHandshake hs calloc).op).value e = s.value e := by
  have inserted : Inserted s bucket used free base hs.fd (insertSetData hs) calloc _ :=
    sound.insert _ allowed
  change (s.insert hs.fd (insertSetData hs) calloc).2.value e = s.value e
  generalize s.insert hs.fd (insertSetData hs) calloc = result at inserted ⊢
  cases inserted with
  | present e' inside' here sound' =>
      change Function.update s.value e' (s.value e') e = s.value e
      rw [Function.update_eq_self]
  | full => rfl
  | new e' free' old s' absent fresh taken key value stored sound' =>
      rw [value]
      apply Function.update_of_ne
      rintro rfl
      exact fresh inside

theorem value_during (coherent : Coherent base s)
    (allowed : Run.Along step Allowed s ((starts gap).map Allocation.op))
    (held : e ∈ s.array.held) : (s.during (starts gap)).value e = s.value e := by
  induction gap generalizing s with
  | nil => rfl
  | cons p gap ih =>
      have one : Run.Along step Allowed s ([startHandshake p.1 p.2].map Allocation.op) :=
        ⟨allowed.1, trivial⟩
      have held' := (held_during coherent one held rfl).1
      refine (ih (coherent.step allowed.1) allowed.2 held').trans ?_
      obtain ⟨bucket, used, free, sound⟩ := coherent
      exact sound.start allowed.1 (sound.lists.held ▸ held)

theorem Tagged.step (tagged : Tagged s) (coherent : Coherent base s) {op : HandshakeOp H}
    (allowed : s.Allowed op.op) : Tagged (s.step op.op) := by
  obtain ⟨bucket, used, free, sound⟩ := coherent
  cases op with
  | start hs calloc =>
      have inserted : Inserted s bucket used free base hs.fd (insertSetData hs) calloc _ :=
        sound.insert _ allowed
      change Tagged (s.insert hs.fd (insertSetData hs) calloc).2
      generalize s.insert hs.fd (insertSetData hs) calloc = result at inserted ⊢
      cases inserted with
      | present e inside here sound' =>
          intro fd hs' there
          change Function.update s.stored hs.fd (some (s.value e)) fd = some hs' at there
          rw [Function.update_apply] at there
          split at there
          case isTrue same =>
            obtain rfl := Option.some.inj there
            exact tagged fd (s.value e) ((sound.stored fd _).mpr ⟨e, inside, here.trans same.symm, rfl⟩)
          case isFalse => exact tagged fd hs' there
      | full => exact tagged
      | new e free' old s' absent fresh taken key value stored sound' =>
          intro fd hs' there
          rw [stored, Function.update_apply] at there
          split at there
          case isTrue same =>
            obtain rfl := Option.some.inj there
            exact same.symm
          case isFalse => exact tagged fd hs' there
  | findAndErase fd =>
      have removed := sound.remove fd nopRemove
      change Tagged (s.remove fd nopRemove).2
      generalize s.remove fd nopRemove = result at removed ⊢
      cases removed with
      | absent => exact tagged
      | kept => exact tagged
      | taken e inside here held leaves s' bucket' free' sound' key value stored =>
          intro fd' hs there
          rw [stored, Function.update_apply] at there
          split at there
          case isTrue => exact nomatch there
          case isFalse => exact tagged fd' hs there

structure Handshaking (base : ℕ) (s : Keyed ℤ (Handshaker H)) : Prop where
  coherent : Coherent base s
  tagged : Tagged s

theorem Handshaking.run (handshaking : Handshaking base s) {ops : List (HandshakeOp H)}
    (allowed : Run.Along step Allowed s (ops.map HandshakeOp.op)) :
    Handshaking base ((ops.map HandshakeOp.op).foldl step s) := by
  induction ops generalizing s with
  | nil => exact handshaking
  | cons op ops ih =>
      refine ih ⟨handshaking.coherent.step allowed.1, ?_⟩ allowed.2
      exact handshaking.tagged.step handshaking.coherent allowed.1

/-- A handshake that has run out is used as it was stored last if and only if
nothing disturbs its element between its removal and the call. -/
theorem Handshaking.timeout_iff (handshaking : Handshaking base s) {now : ℕ}
    {gap₀ gap₁ gap₂ : List (Handshaker H × Option ℕ)} (held : e ∈ s.array.held)
    (before : Run.Along step Allowed s ((starts gap₀).map Allocation.op))
    (after : Run.Along step Allowed
      ((s.during (starts gap₀)).remove (s.value e).fd nopRemove).2
      ((starts gap₁ ++ starts gap₂).map Allocation.op)) :
    s.TimeoutExact now e (s.timeoutIterator now e gap₀ gap₁ gap₂) ↔
      ((s.value e).limit < now →
        (s.during (starts gap₀)).Undisturbed (s.value e).fd nopRemove
          (starts gap₁ ++ starts gap₂)) := by
  obtain ⟨coherent, tagged⟩ := handshaking
  rw [TimeoutExact, timeoutIterator]
  by_cases due : (s.value e).limit < now
  · rw [if_pos due, if_pos due]
    have coherent₀ : Coherent base (s.during (starts gap₀)) := coherent.run before
    have value := value_during coherent before held
    have here : s.key e = (s.value e).fd :=
      (tagged _ _ (coherent.get_of_held held rfl).2).symm
    have stored := (coherent.get_of_held held here).2
    obtain ⟨held₀, here₀⟩ := held_during coherent before held here
    obtain ⟨found, stored₀⟩ := coherent₀.get_of_held held₀ here₀
    rw [value] at stored₀
    generalize s.during (starts gap₀) = s₀ at *
    obtain ⟨bucket, used, free, sound₀⟩ := coherent₀
    have early := (Run.along_append.mp (List.map_append .. ▸ after)).1
    have destroyed : s₀.Exact (s.value e).fd nopRemove (s₀.removeAndRead _ _ (starts gap₁)) ↔ _ :=
      sound₀.exact_iff early
    have called := sound₀.exact_iff after
    rw [removeAndRead_eq found rfl, exact_some stored₀ rfl] at destroyed called
    have erased : s₀.erase (s.value e).fd (starts gap₁) = _ := removeAndRead_eq found rfl
    rw [erased, forall_prop_of_true due, ← called, during_append]
    constructor
    · rintro ⟨v, e', t, u, held', same, -, call⟩
      obtain rfl := Option.some.inj (stored.symm.trans held')
      obtain ⟨rfl, rfl, rfl⟩ : _ ∧ _ ∧ _ := by simpa using same
      exact call
    · intro call
      rw [← during_append] at call
      have calm := called.mp call
      rw [during_append] at call
      refine ⟨_, e, _, _, stored, rfl, destroyed.mpr fun e' here leaves => ?_, call⟩
      obtain ⟨keeps, present⟩ := calm e' here leaves
      exact ⟨keeps, fun a member => present a (List.mem_append_left _ member)⟩
  · rw [if_neg due, if_neg due]
    exact iff_of_true rfl fun run_out => absurd run_out due

end

/-! ## Every map -/

/-- In every map, `find_and_erase`, `find_and_erase_if` and `erase` use the value
stored last, and read it from memory that is still the map's, if and only if
nothing disturbs the element before it is read; and so does the timeout of every
handshake. -/
theorem removed_used_iff {H : Type}
    (new : New K V) (ops : List (Op K V)) (k : K) (removable : V → Bool)
    (gap : List (Allocation K V)) (new' : New ℤ (Handshaker H)) (ops' : List (HandshakeOp H))
    (now e : ℕ) (gap₀ gap₁ gap₂ : List (Handshaker H × Option ℕ))
    (run : Run.Along step Allowed new.map ops)
    (gap_erase : Run.Along step Allowed ((new.after ops).remove k nopRemove).2
      (gap.map Allocation.op))
    (gap_erase_if : Run.Along step Allowed ((new.after ops).remove k removable).2
      (gap.map Allocation.op))
    (run' : Run.Along step Allowed new'.map (ops'.map HandshakeOp.op))
    (visited : e ∈ (new'.after (ops'.map HandshakeOp.op)).array.held)
    (before : Run.Along step Allowed (new'.after (ops'.map HandshakeOp.op))
      ((starts gap₀).map Allocation.op))
    (afterwards : Run.Along step Allowed
      (((new'.after (ops'.map HandshakeOp.op)).during (starts gap₀)).remove
        ((new'.after (ops'.map HandshakeOp.op)).value e).fd nopRemove).2
      ((starts gap₁ ++ starts gap₂).map Allocation.op)) :
    let s := new.after ops
    let m := new'.after (ops'.map HandshakeOp.op)
    (s.Exact k nopRemove (s.findAndErase k gap) ↔ s.Undisturbed k nopRemove gap) ∧
      (s.Exact k removable (s.findAndEraseIf k removable gap) ↔ s.Undisturbed k removable gap) ∧
      (s.Exact k nopRemove (s.erase k gap) ↔ s.Undisturbed k nopRemove gap) ∧
      (m.TimeoutExact now e (m.timeoutIterator now e gap₀ gap₁ gap₂) ↔
        ((m.value e).limit < now →
          (m.during (starts gap₀)).Undisturbed (m.value e).fd nopRemove
            (starts gap₁ ++ starts gap₂))) := by
  obtain ⟨bucket, used, free, sound⟩ := new.coherent.run run
  have tagged : Tagged new'.map := nofun
  have handshaking := Handshaking.run ⟨new'.coherent, tagged⟩ run'
  constructor
  · exact sound.exact_iff gap_erase
  · constructor
    · exact sound.exact_iff gap_erase_if
    · constructor
      · exact sound.exact_iff gap_erase
      · exact handshaking.timeout_iff visited before afterwards

/-- One element in the block, and more from the heap. -/
def oneElement (V : Type) (zero : V) : New ℤ V where
  hush := fun k => (k % 7).toNat
  zero := zero
  unset := 0
  max := 1
  positive := Nat.one_pos
  few := by decide
  threadsafe := true
  expandable := true

def insertOp (k : ℤ) (v : ℕ) (calloc : Option ℕ) : Op ℤ ℕ := .insert k (insertSetData v) calloc

/-- A key is removed, and of two handshakes the first one runs out, while the
second one is started again. -/
theorem removed_used_two :
    let s := (oneElement ℕ 0).after [insertOp 1 10 none]
    let m := (oneElement (Handshaker Unit) ⟨0, (), 0⟩).after ([HandshakeOp.start ⟨5, (), 100⟩ none,
      .start ⟨6, (), 100⟩ (some 7)].map HandshakeOp.op)
    s.Exact 1 nopRemove (s.findAndErase 1 []) ∧
      m.TimeoutExact 200 0 (m.timeoutIterator 200 0 [] [(⟨6, (), 100⟩, none)] []) := by
  intro s m
  have used := removed_used_iff (oneElement ℕ 0) [insertOp 1 10 none] 1 (fun _ => false) []
    (oneElement (Handshaker Unit) ⟨0, (), 0⟩) [.start ⟨5, (), 100⟩ none,
      .start ⟨6, (), 100⟩ (some 7)] 200 0 [] [(⟨6, (), 100⟩, none)] []
    ⟨nofun, trivial⟩ trivial trivial
    ⟨nofun, fun e same => by cases same; decide, trivial⟩
    (by decide) trivial ⟨nofun, trivial⟩
  constructor
  · refine used.1.mpr fun e found _ => ⟨?_, nofun⟩
    obtain rfl : 0 = e := Option.some.inj (Eq.trans rfl found)
    decide
  · refine used.2.2.2.mpr fun _ e found _ => ?_
    obtain rfl : 0 = e := Option.some.inj (Eq.trans rfl found)
    constructor
    · decide
    · intro a member
      obtain rfl := List.mem_singleton.mp member
      decide

/-- Three elements, two of them from the heap.  When only the last one is left,
its memory is given back to the heap before its value is copied. -/
theorem erased_given_back :
    let s := (oneElement ℕ 0).after [insertOp 1 10 none, insertOp 2 20 (some 7),
      insertOp 3 30 (some 9), .remove 1 nopRemove, .remove 2 nopRemove]
    s.stored 3 = some 30 ∧ ((s.findAndErase 3 []).map fun r => (r.1, r.2.read r.1)) = some (9, none) ∧
      ¬ s.Exact 3 nopRemove (s.findAndErase 3 []) := by
  intro s
  have stored : s.stored 3 = some 30 := by decide
  have reads : ((s.findAndErase 3 []).map fun r => (r.1, r.2.read r.1)) = some (9, none) := by
    decide
  refine ⟨stored, reads, fun exact_ => ?_⟩
  rw [Exact, stored] at exact_
  obtain ⟨e, t, used, read⟩ := exact_
  rw [used] at reads
  obtain ⟨rfl, none_read⟩ := Prod.mk.inj (Option.some.inj reads)
  exact nomatch none_read.symm.trans read.2

end Cyue.Keyed
