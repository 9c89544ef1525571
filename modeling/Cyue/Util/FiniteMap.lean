import Cyue.Lib.Chain
import Cyue.Lib.Run
import Cyue.Util.Hash
import Mathlib.Data.List.Perm.Subperm

/-!
# The string-keyed map is a finite map

Against the history of its operations: what `find` gives for a key is the value
that was stored last under that key and not erased since, as long as every key
that is stored fits into the key field.
-/

namespace Cyue.StrMap

open Chain Memory Str

variable {cfg : Config}

/-! ## The finite map of a history -/

namespace Op

def key : Op cfg → CString
  | .insert _ key _ => key
  | .alloc _ key _ => key
  | .allocNew _ key _ => key
  | .find key => key
  | .erase key => key

end Op

/-- What an operation leaves under its key.  One that returned no pointer has
stored nothing. -/
def after : Op cfg → Out cfg → Option (Value cfg) → Option (Value cfg)
  | .find _, _, held => held
  | .erase _, _, _ => none
  | _, .ptr (some v), _ => some v
  | _, _, held => held

/-- What is stored under a key after a history, whose last operation is its
head. -/
def latest : List (Op cfg × Out cfg) → CString → Option (Value cfg)
  | [], _ => none
  | (op, out) :: history, key =>
    if op.key = key then after op out (latest history key) else latest history key

/-- What an operation may return when the map holds `m`.  Where an element is
needed there may be none. -/
def Allowed (m : CString → Option (Value cfg)) : Op cfg → Out cfg → Prop
  | .insert v key _, out =>
    if (m key).isSome then out = .ptr none else out = .ptr (some v) ∨ out = .ptr none
  | .alloc v key _, out =>
    out = .ptr (some v) ∨ m key = none ∧ out = .ptr none
  | .allocNew _ key _, out =>
    if (m key).isSome then out = .ptr (m key) else ∃ v, out = .ptr v
  | .find key, out => out = .ptr (m key)
  | .erase key, out => out = .done (m key).isSome

def Lawful : List (Op cfg × Out cfg) → Prop
  | [] => True
  | (op, out) :: history => Lawful history ∧ Allowed (latest history) op out

/-! ## Sound states -/

/-- The chains, and which key each of their elements holds. -/
structure Sound (cfg : Config) (s : Hash) (bucket : ℕ → List ℕ) (key : ℕ → CString) : Prop where
  chain : ∀ h, Segment s.next (s.table h) (bucket h) none
  back : ∀ h, Back s.prev none (bucket h)
  home : ∀ h e, e ∈ bucket h → cfg.hush (key e) = h
  stored : ∀ h e, e ∈ bucket h → Holds (s.mem e) (key e)
  short : ∀ h e, e ∈ bucket h → (key e).length < cfg.keybufSize
  distinct : ∀ h e e', e ∈ bucket h → e' ∈ bucket h → key e = key e' → e = e'
  live : ∀ h e, e ∈ bucket h → e < s.made ∧ s.used e = true
  spare : ∀ e, e ∈ s.free → e < s.made ∧ s.used e = false
  spare_nodup : s.free.Nodup

variable {s s' : Hash} {bucket : ℕ → List ℕ} {key : ℕ → CString} {k : CString} {e h : ℕ}

theorem keybufSize_lt (cfg : Config) : cfg.keybufSize < cfg.keySize := by
  rw [Config.keybufSize, Config.keySize]
  omega

theorem Sound.cmpKey_eq (sound : Sound cfg s bucket key) (member : e ∈ bucket h) (k : CString) :
    s.cmpKey cfg e k = (decide (key e = k), false) := by
  have short := sound.short h e member
  obtain ⟨exact, last⟩ := cmp_spec (sound.stored h e member) k
    (short.le.trans (keybufSize_lt cfg).le)
  have inside : ¬ cfg.keybufSize ≤ (cmp (s.mem e) k.bytes cfg.keySize).2 :=
    Nat.not_le.mpr (last.trans_lt short)
  rw [Hash.cmpKey, decide_eq_false inside]
  exact congrArg (·, false) (decide_eq_decide.mpr exact)

/-- The search of a chain finds the element with the key, or there is none. -/
theorem Sound.search_spec (sound : Sound cfg s bucket key) {l : List ℕ} {p : Option ℕ}
    (chain : Segment s.next p l none) (members : ∀ e, e ∈ l → e ∈ bucket h) {turns : ℕ}
    (enough : l.length ≤ turns) :
    (∃ e, e ∈ l ∧ key e = k ∧ s.search cfg k turns p = some (some e, false)) ∨
      (∀ e, e ∈ l → key e ≠ k) ∧ s.search cfg k turns p = some (none, false) := by
  induction l generalizing p turns with
  | nil =>
      obtain rfl : p = none := chain
      exact .inr ⟨nofun, by cases turns <;> rfl⟩
  | cons e l ih =>
      obtain ⟨rfl, chain⟩ := chain
      cases turns with
      | zero => exact absurd enough (Nat.not_succ_le_zero _)
      | succ turns =>
          rw [Hash.search, sound.cmpKey_eq (members e List.mem_cons_self)]
          split
          case isTrue same =>
            exact .inl ⟨e, List.mem_cons_self, of_decide_eq_true same, rfl⟩
          case isFalse other =>
            have differ : key e ≠ k := fun same => other (decide_eq_true same)
            have later := ih chain (fun u member => members u (List.mem_cons_of_mem e member))
              (Nat.le_of_succ_le_succ enough)
            rcases later with ⟨u, member, same, run⟩ | ⟨absent, run⟩
            · rw [run]
              exact .inl ⟨u, List.mem_cons_of_mem e member, same, rfl⟩
            · rw [run]
              refine .inr ⟨fun u member => ?_, rfl⟩
              rcases List.mem_cons.mp member with rfl | rest
              · exact differ
              · exact absent u rest

/-- A chain has at most as many elements as were ever made. -/
theorem Sound.length_le (sound : Sound cfg s bucket key) (h : ℕ) :
    (bucket h).length ≤ s.made := by
  have inside : bucket h ⊆ List.range s.made := fun e member =>
    List.mem_range.mpr (sound.live h e member).1
  have counted := (List.subperm_of_subset (sound.chain h).nodup inside).length_le
  rwa [List.length_range] at counted

theorem Sound.lookup_spec (sound : Sound cfg s bucket key) (k : CString) :
    (∃ e, e ∈ bucket (cfg.hush k) ∧ key e = k ∧ s.lookup cfg k = some (some e, s)) ∨
      (∀ e, e ∈ bucket (cfg.hush k) → key e ≠ k) ∧ s.lookup cfg k = some (none, s) := by
  have same : { s with outside := s.outside || false } = s := by
    rw [Bool.or_false]
  rcases sound.search_spec (sound.chain (cfg.hush k)) (fun _ => id) (sound.length_le _)
    with ⟨e, member, holds, run⟩ | ⟨absent, run⟩
  · refine .inl ⟨e, member, holds, ?_⟩
    rw [Hash.lookup, run, Option.map_some, same]
  · refine .inr ⟨absent, ?_⟩
    rw [Hash.lookup, run, Option.map_some, same]

/-! ## Values -/

theorem value_setValue (v : Value cfg) : (s.setValue cfg e v).value cfg e = v := by
  apply Subtype.ext
  have whole := load_store (s.mem e) cfg.keybufSize v.1
  rw [v.2] at whole
  change load (Function.update s.mem e _ e) _ _ = _
  rw [Function.update_self]
  exact whole

theorem value_setValue_other {u : ℕ} (v : Value cfg) (other : u ≠ e) :
    (s.setValue cfg e v).value cfg u = s.value cfg u := by
  apply Subtype.ext
  change load (Function.update s.mem e _ u) _ _ = _
  rw [Function.update_of_ne other]
  rfl

theorem holds_setValue {u : ℕ} (v : Value cfg) (holds : Holds (s.mem u) k)
    (short : k.length < cfg.keybufSize) : Holds ((s.setValue cfg e v).mem u) k := by
  intro i inside
  change Function.update s.mem e _ u i = _
  rw [Function.update_apply]
  split
  case isTrue same =>
    subst same
    exact (store_of_lt (inside.trans_lt short)).trans (holds i inside)
  case isFalse => exact holds i inside

theorem Sound.setValue (sound : Sound cfg s bucket key) (v : Value cfg) :
    Sound cfg (s.setValue cfg e v) bucket key :=
  { sound with
    stored := fun h u member => holds_setValue v (sound.stored h u member) (sound.short h u member) }

/-- A sound state that holds the finite map `m`. -/
structure Represents (cfg : Config) (s : Hash) (bucket : ℕ → List ℕ) (key : ℕ → CString)
    (m : CString → Option (Value cfg)) : Prop where
  sound : Sound cfg s bucket key
  agrees : ∀ k v, m k = some v ↔
    ∃ e, e ∈ bucket (cfg.hush k) ∧ key e = k ∧ s.value cfg e = v

variable {m : CString → Option (Value cfg)}

theorem Represents.absent (represents : Represents cfg s bucket key m)
    (absent : ∀ e, e ∈ bucket (cfg.hush k) → key e ≠ k) : m k = none := by
  apply Option.eq_none_iff_forall_ne_some.mpr
  intro v held
  obtain ⟨e, member, same, _⟩ := (represents.agrees k v).mp held
  exact absent e member same

/-- The value of an element that is there is replaced. -/
theorem Represents.setValue (represents : Represents cfg s bucket key m)
    (member : e ∈ bucket (cfg.hush k)) (here : key e = k) (v : Value cfg) :
    Represents cfg (s.setValue cfg e v) bucket key (Function.update m k (some v)) := by
  refine ⟨represents.sound.setValue v, fun k' v' => ?_⟩
  rw [Function.update_apply]
  split
  case isTrue same =>
    subst same
    constructor
    · intro held
      obtain rfl := Option.some.inj held
      exact ⟨e, member, here, value_setValue v⟩
    · rintro ⟨u, member', here', rfl⟩
      obtain rfl := represents.sound.distinct _ u e member' member (here'.trans here.symm)
      rw [value_setValue]
  case isFalse other =>
    rw [represents.agrees]
    apply exists_congr
    intro u
    apply and_congr_right
    intro member'
    apply and_congr_right
    intro here'
    rw [value_setValue_other]
    rintro rfl
    exact other (here'.symm.trans here)

/-! ## New elements -/

/-- An element is taken from the free list or from the heap. -/
structure Taken (s s' : Hash) (e : ℕ) : Prop where
  table : s'.table = s.table
  next : s'.next = s.next
  prev : s'.prev = s.prev
  outside : s'.outside = s.outside
  mem : ∀ u, u ≠ e → s'.mem u = s.mem u
  used : s'.used = Function.update s.used e true
  inside : e < s'.made
  grown : s.made ≤ s'.made
  unused : s.made ≤ e ∨ s.used e = false
  spare : ∀ u, u ∈ s'.free → u ∈ s.free ∧ u ≠ e
  spare_nodup : s'.free.Nodup

theorem Sound.taken (sound : Sound cfg s bucket key) {calloc : Bool}
    (taken : s.allocNolock cfg calloc = some (e, s')) : Taken s s' e := by
  rw [Hash.allocNolock] at taken
  split at taken
  case h_1 u rest free =>
    obtain ⟨rfl, rfl⟩ := Prod.mk.inj (Option.some.inj taken)
    have listed : u ∈ s.free := free ▸ List.mem_cons_self
    obtain ⟨inside, unused⟩ := sound.spare u listed
    obtain ⟨absent, distinct⟩ := List.nodup_cons.mp (free ▸ sound.spare_nodup)
    exact {
      table := rfl, next := rfl, prev := rfl, outside := rfl
      mem := fun _ _ => rfl
      used := rfl
      inside := inside
      grown := le_rfl
      unused := .inr unused
      spare := fun w member => ⟨free ▸ List.mem_cons_of_mem u member, fun same =>
        absent (same ▸ member)⟩
      spare_nodup := distinct }
  case h_2 free =>
    split at taken
    case isTrue =>
      obtain ⟨rfl, rfl⟩ := Prod.mk.inj (Option.some.inj taken)
      exact {
        table := rfl, next := rfl, prev := rfl, outside := rfl
        mem := fun u other => Function.update_of_ne other ..
        used := rfl
        inside := Nat.lt_succ_self _
        grown := Nat.le_succ _
        unused := .inl le_rfl
        spare := fun w member => nomatch free ▸ member
        spare_nodup := sound.spare_nodup }
    case isFalse => exact nomatch taken

/-- An element that is taken is in no chain. -/
theorem Sound.not_mem (sound : Sound cfg s bucket key) (taken : Taken s s' e) (h : ℕ) :
    e ∉ bucket h := by
  intro member
  obtain ⟨inside, used⟩ := sound.live h e member
  rcases taken.unused with fresh | unused
  · exact absurd inside (Nat.not_lt_of_le fresh)
  · exact nomatch used.symm.trans unused

theorem Taken.setKey (taken : Taken s s' e) (short : k.length < cfg.keybufSize) :
    Taken s (s'.setKey cfg e k) e := by
  have fits : k.length < cfg.keySize := short.trans (keybufSize_lt cfg)
  refine { taken with
    outside := ?_
    mem := fun u other => (Function.update_of_ne other ..).trans (taken.mem u other) }
  rw [← taken.outside, Hash.setKey, copy_last fits, decide_eq_false (Nat.not_le.mpr short)]
  exact Bool.or_false _

theorem Taken.setValue (taken : Taken s s' e) (v : Value cfg) :
    Taken s (s'.setValue cfg e v) e :=
  { taken with mem := fun u other => (Function.update_of_ne other ..).trans (taken.mem u other) }

theorem holds_setKey (short : k.length < cfg.keybufSize) :
    Holds ((s.setKey cfg e k).mem e) k := by
  change Holds (Function.update s.mem e _ e) k
  rw [Function.update_self]
  exact copy_holds (short.trans (keybufSize_lt cfg))

theorem Back.pushFront {l : List ℕ} {p : Option ℕ} (back : Back s.prev none l)
    (first : p = l.head?) (outside : e ∉ l) (distinct : l.Nodup) :
    Back (match p with
      | some first => Function.update (Function.update s.prev e none) first (some e)
      | none => Function.update s.prev e none) none (e :: l) := by
  have fresh : Back (Function.update s.prev e none) none l := back.update outside
  have relinked : Back (l.head?.elim _ fun first => Function.update _ first (some e)) (some e) l :=
    fresh.relink distinct
  subst first
  cases l with
  | nil => exact ⟨Function.update_self .., trivial⟩
  | cons a l =>
      refine ⟨?_, relinked⟩
      refine (Function.update_of_ne ?_ ..).trans (Function.update_self ..)
      rintro rfl
      exact outside List.mem_cons_self

theorem Sound.buckets (sound : Sound cfg s bucket key) : Buckets s.table s.next s.prev bucket where
  chain := sound.chain
  back := sound.back
  apart h h' u left right := (sound.home h u left).symm.trans (sound.home h' u right)

theorem pushFront_prev (s : Hash) (h e : ℕ) :
    (s.pushFront h e).prev = (s.table h).elim (Function.update s.prev e none) fun first =>
      Function.update (Function.update s.prev e none) first (some e) := by
  unfold Hash.pushFront
  cases s.table h with
  | none => rfl
  | some first => rfl

/-- A new element with its key becomes the first of its chain. -/
theorem Sound.pushFront (sound : Sound cfg s bucket key) (taken : Taken s s' e)
    (holds : Holds (s'.mem e) k) (short : k.length < cfg.keybufSize)
    (absent : ∀ u, u ∈ bucket (cfg.hush k) → key u ≠ k) :
    Sound cfg (s'.pushFront (cfg.hush k) e)
      (Function.update bucket (cfg.hush k) (e :: bucket (cfg.hush k)))
      (Function.update key e k) := by
  have apart : ∀ h u, u ∈ bucket h → u ≠ e := by
    rintro h u member rfl
    exact sound.not_mem taken h member
  have members : ∀ h u, u ∈ Function.update bucket (cfg.hush k) (e :: bucket (cfg.hush k)) h →
      u = e ∧ h = cfg.hush k ∨ u ≠ e ∧ u ∈ bucket h := by
    intro h u member
    exact (mem_pushed.mp member).imp_right fun rest => ⟨apart h u rest, rest⟩
  have pushed := sound.buckets.pushFront (sound.not_mem taken) (cfg.hush k)
  have key_other : ∀ u, u ≠ e → Function.update key e k u = key u := fun u other =>
    Function.update_of_ne other ..
  constructor
  case chain =>
    change ∀ h, Segment (Function.update s'.next e (s'.table (cfg.hush k)))
      (Function.update s'.table (cfg.hush k) (some e) h) _ none
    rw [taken.next, taken.table]
    exact pushed.chain
  case back =>
    rw [pushFront_prev, taken.table, taken.prev]
    exact pushed.back
  case home =>
    intro h u member
    rcases members h u member with ⟨rfl, rfl⟩ | ⟨other, member⟩
    · rw [Function.update_self]
    · rw [key_other u other]
      exact sound.home h u member
  case stored =>
    intro h u member
    rcases members h u member with ⟨rfl, _⟩ | ⟨other, member⟩
    · rw [Function.update_self]
      exact holds
    · rw [key_other u other]
      change Holds (s'.mem u) _
      rw [taken.mem u other]
      exact sound.stored h u member
  case short =>
    intro h u member
    rcases members h u member with ⟨rfl, _⟩ | ⟨other, member⟩
    · rw [Function.update_self]
      exact short
    · rw [key_other u other]
      exact sound.short h u member
  case distinct =>
    intro h u w left right same
    rcases members h u left with ⟨rfl, rfl⟩ | ⟨other, left'⟩
    · rcases members _ w right with ⟨rfl, _⟩ | ⟨other, right'⟩
      · rfl
      · rw [Function.update_self, key_other w other] at same
        exact absurd same.symm (absent w right')
    · rcases members h w right with ⟨rfl, rfl⟩ | ⟨other', right'⟩
      · rw [Function.update_self, key_other u other] at same
        exact absurd same (absent u left')
      · rw [key_other u other, key_other w other'] at same
        exact sound.distinct h u w left' right' same
  case live =>
    intro h u member
    change u < s'.made ∧ s'.used u = true
    rw [taken.used]
    rcases members h u member with ⟨rfl, _⟩ | ⟨other, member⟩
    · exact ⟨taken.inside, Function.update_self ..⟩
    · obtain ⟨inside, used⟩ := sound.live h u member
      exact ⟨inside.trans_le taken.grown, (Function.update_of_ne other ..).trans used⟩
  case spare =>
    intro u member
    obtain ⟨before, other⟩ := taken.spare u member
    obtain ⟨inside, unused⟩ := sound.spare u before
    change u < s'.made ∧ s'.used u = false
    rw [taken.used]
    exact ⟨inside.trans_le taken.grown, (Function.update_of_ne other ..).trans unused⟩
  case spare_nodup => exact taken.spare_nodup

theorem Represents.pushFront (represents : Represents cfg s bucket key m) (taken : Taken s s' e)
    (holds : Holds (s'.mem e) k) (short : k.length < cfg.keybufSize)
    (absent : ∀ u, u ∈ bucket (cfg.hush k) → key u ≠ k) :
    Represents cfg (s'.pushFront (cfg.hush k) e)
      (Function.update bucket (cfg.hush k) (e :: bucket (cfg.hush k)))
      (Function.update key e k) (Function.update m k (some (s'.value cfg e))) := by
  have sound := represents.sound
  have apart : ∀ h u, u ∈ bucket h → u ≠ e := by
    rintro h u member rfl
    exact sound.not_mem taken h member
  refine ⟨sound.pushFront taken holds short absent, fun k' v => ?_⟩
  change _ ↔ ∃ u, _ ∧ _ ∧ s'.value cfg u = v
  rw [Function.update_apply]
  by_cases same : k' = k
  · subst same
    rw [if_pos rfl, Function.update_self]
    constructor
    · intro held
      exact ⟨e, List.mem_cons_self, Function.update_self .., Option.some.inj held⟩
    · rintro ⟨u, member, here, rfl⟩
      rcases List.mem_cons.mp member with rfl | rest
      · rfl
      · rw [Function.update_of_ne (apart _ u rest)] at here
        exact absurd here (absent u rest)
  · rw [if_neg same, represents.agrees]
    have value : ∀ u, u ≠ e → s'.value cfg u = s.value cfg u := fun u other =>
      Subtype.ext (congrArg (load · _ _) (taken.mem u other))
    constructor
    · rintro ⟨u, member, here, held⟩
      have other := apart _ u member
      refine ⟨u, ?_, (Function.update_of_ne other ..).trans here, (value u other).trans held⟩
      rw [Function.update_apply]
      split
      case isTrue together => exact List.mem_cons_of_mem e (together ▸ member)
      case isFalse => exact member
    · rintro ⟨u, member, here, held⟩
      have other : u ≠ e := by
        rintro rfl
        rw [Function.update_self] at here
        exact same here.symm
      rw [Function.update_of_ne other] at here
      refine ⟨u, ?_, here, (value u other).symm.trans held⟩
      rw [Function.update_apply] at member
      split at member
      case isTrue together =>
        exact together ▸ (List.mem_cons.mp member).resolve_left other
      case isFalse => exact member

/-! ## Elements that leave -/

theorem unlink_eq : s.unlink h e = { s with
    table := (s.prev e).elim (Function.update s.table h (s.next e)) fun _ => s.table
    next := (s.prev e).elim s.next fun p => Function.update s.next p (s.next e)
    prev := (s.next e).elim s.prev fun n => Function.update s.prev n (s.prev e) } := by
  have kept : ∀ p, Function.update s.next p (s.next e) e = s.next e := by
    intro p
    rw [Function.update_apply]
    split
    case isTrue => rfl
    case isFalse => rfl
  cases before : s.prev e with
  | none => cases behind : s.next e <;> simp [Hash.unlink, before, behind]
  | some p =>
      have kept := kept p
      cases behind : s.next e <;> rw [behind] at kept <;> simp [Hash.unlink, before, kept, behind]

theorem Sound.mem_unlinked (sound : Sound cfg s bucket key) {l r : List ℕ}
    (split : bucket h = l ++ e :: r) {h' u : ℕ}
    (member : u ∈ Function.update bucket h (l ++ r) h') : u ∈ bucket h' ∧ u ≠ e := by
  exact ((sound.buckets.mem_left split).mp member).symm

/-- An element is taken out of its chain. -/
theorem Sound.unlink (sound : Sound cfg s bucket key) {l r : List ℕ}
    (split : bucket h = l ++ e :: r) :
    Sound cfg (s.unlink h e) (Function.update bucket h (l ++ r)) key := by
  have unlinked := sound.buckets.unlink split
  rw [unlink_eq]
  exact { sound with
    chain := unlinked.chain
    back := unlinked.back
    home := fun h' u member => sound.home h' u (sound.mem_unlinked split member).1
    stored := fun h' u member => sound.stored h' u (sound.mem_unlinked split member).1
    short := fun h' u member => sound.short h' u (sound.mem_unlinked split member).1
    distinct := fun h' u w left right => sound.distinct h' u w
      (sound.mem_unlinked split left).1 (sound.mem_unlinked split right).1
    live := fun h' u member => sound.live h' u (sound.mem_unlinked split member).1 }

/-- An element without a chain is given back. -/
theorem Sound.release (sound : Sound cfg s bucket key) (used : s.used e = true)
    (inside : e < s.made) (absent : ∀ h, e ∉ bucket h) : Sound cfg (s.release e) bucket key := by
  rw [Hash.release, if_neg (fun unused => unused used)]
  split
  case isTrue => exact { sound with }
  case isFalse =>
    have listed : e ∉ s.free := fun member =>
      nomatch used.symm.trans (sound.spare e member).2
    exact { sound with
      live := fun h u member => by
        obtain ⟨below, used⟩ := sound.live h u member
        refine ⟨below, (Function.update_of_ne ?_ ..).trans used⟩
        rintro rfl
        exact absent h member
      spare := fun u member => by
        change u < s.made ∧ Function.update s.used e false u = false
        rcases List.mem_cons.mp member with rfl | rest
        · exact ⟨inside, Function.update_self ..⟩
        · obtain ⟨below, unused⟩ := sound.spare u rest
          refine ⟨below, (Function.update_of_ne ?_ ..).trans unused⟩
          rintro rfl
          exact listed rest
      spare_nodup := List.nodup_cons.mpr ⟨listed, sound.spare_nodup⟩ }

theorem release_mem : (s.release e).mem = s.mem := by
  rw [Hash.release]
  split
  case isTrue => rfl
  case isFalse => split <;> rfl

theorem release_outside : (s.release e).outside = s.outside := by
  rw [Hash.release]
  split
  case isTrue => rfl
  case isFalse => split <;> rfl

theorem value_remove {u : ℕ} : ((s.unlink h e).release e).value cfg u = s.value cfg u := by
  apply Subtype.ext
  change load (((s.unlink h e).release e).mem u) _ _ = _
  rw [release_mem, unlink_eq]
  rfl

/-- `remove` forgets the key and nothing else. -/
theorem Represents.remove (represents : Represents cfg s bucket key m)
    (member : e ∈ bucket (cfg.hush k)) (here : key e = k) :
    ∃ bucket', Represents cfg ((s.unlink (cfg.hush k) e).release e) bucket' key
      (Function.update m k none) := by
  have sound := represents.sound
  obtain ⟨l, r, split⟩ := List.append_of_mem member
  obtain ⟨inside, used⟩ := sound.live _ e member
  have unlinked := sound.unlink split
  have absent : ∀ h, e ∉ Function.update bucket (cfg.hush k) (l ++ r) h := fun h again =>
    (sound.mem_unlinked split again).2 rfl
  have stays : ∀ h u, u ∈ bucket h → u ≠ e →
      u ∈ Function.update bucket (cfg.hush k) (l ++ r) h := by
    intro h u member other
    rw [Function.update_apply]
    split
    case isTrue same =>
      rw [same, split] at member
      rcases List.mem_append.mp member with left | right
      · exact List.mem_append_left r left
      · exact List.mem_append_right l ((List.mem_cons.mp right).resolve_left other)
    case isFalse => exact member
  refine ⟨_, ⟨unlinked.release ?_ ?_ absent, fun k' v => ?_⟩⟩
  · rw [unlink_eq]
    exact used
  · rw [unlink_eq]
    exact inside
  · rw [Function.update_apply]
    by_cases same : k' = k
    · rw [if_pos same]
      refine iff_of_false nofun ?_
      rintro ⟨u, again, there, _⟩
      obtain ⟨before, other⟩ := sound.mem_unlinked split again
      rw [same] at before there
      exact other (sound.distinct _ u e before member (there.trans here.symm))
    · rw [if_neg same, represents.agrees]
      apply exists_congr
      intro u
      rw [value_remove]
      constructor
      · rintro ⟨before, there, held⟩
        refine ⟨stays _ u before ?_, there, held⟩
        rintro rfl
        exact same (there.symm.trans here)
      · rintro ⟨after, there, held⟩
        exact ⟨(sound.mem_unlinked split after).1, there, held⟩

/-! ## One operation -/

def Hash.Full (cfg : Config) (s : Hash) (calloc : Bool) : Prop :=
  s.free = [] ∧ (cfg.expandable && calloc) = false

theorem allocNolock_eq_none {calloc : Bool} :
    s.allocNolock cfg calloc = none ↔ s.Full cfg calloc := by
  rw [Hash.allocNolock, Hash.Full]
  cases s.free with
  | nil =>
      constructor
      · intro failed
        refine ⟨rfl, ?_⟩
        by_contra more
        rw [Bool.not_eq_false] at more
        rw [more] at failed
        exact nomatch failed
      · rintro ⟨-, more⟩
        rw [more]
        rfl
  | cons u rest => exact iff_of_false nofun (fun full => nomatch full.1)

theorem Represents.lookup_spec (represents : Represents cfg s bucket key m) (k : CString) :
    (∃ e, e ∈ bucket (cfg.hush k) ∧ key e = k ∧ m k = some (s.value cfg e) ∧
        s.lookup cfg k = some (some e, s)) ∨
      (∀ e, e ∈ bucket (cfg.hush k) → key e ≠ k) ∧ m k = none ∧
        s.lookup cfg k = some (none, s) := by
  rcases represents.sound.lookup_spec k with ⟨e, member, here, run⟩ | ⟨absent, run⟩
  · exact .inl ⟨e, member, here, (represents.agrees k _).mpr ⟨e, member, here, rfl⟩, run⟩
  · exact .inr ⟨absent, represents.absent absent, run⟩

theorem Represents.get_spec (represents : Represents cfg s bucket key m) (k : CString) :
    s.get cfg k = some (s, m k) := by
  rcases represents.lookup_spec k with ⟨e, _, _, held, run⟩ | ⟨_, held, run⟩
  · rw [Hash.get, run, held]
    rfl
  · rw [Hash.get, run, held]
    rfl

def returned (r : Value cfg × Bool) : Option (Value cfg) := if r.2 then some r.1 else none

/-- How `insert` may end: the value that is there is given to the functor, no
element is left, or a new one is given to the functor. -/
inductive Inserted (m : CString → Option (Value cfg)) (k : CString) (f : Hash.Functor cfg) :
    (CString → Option (Value cfg)) → Option (Value cfg) → Prop where
  | present (old : Value cfg) (held : m k = some old) :
      Inserted m k f (Function.update m k (some (f old true).1)) (returned (f old true))
  | full (absent : m k = none) : Inserted m k f m none
  | new (absent : m k = none) (old : Value cfg) :
      Inserted m k f (Function.update m k (some (f old false).1)) (returned (f old false))

/-- The result of `insert` where the key fits or no element is left. -/
theorem Represents.insert_spec (represents : Represents cfg s bucket key m)
    (clean : s.outside = false) (f : Hash.Functor cfg) {calloc : Bool}
    (fits : k.length < cfg.keybufSize ∨ s.Full cfg calloc) :
    ∃ s' out bucket' key' m', s.insert cfg k f calloc = some (s', out) ∧
      Represents cfg s' bucket' key' m' ∧ s'.outside = false ∧ Inserted m k f m' out := by
  rcases represents.lookup_spec k with ⟨e, member, here, held, run⟩ | ⟨absent, none_held, run⟩
  · refine ⟨s.setValue cfg e (f (s.value cfg e) true).1, _, bucket, key, _, ?_,
      represents.setValue member here _, clean, .present _ held⟩
    rw [Hash.insert, run]
    rfl
  · cases alloc : s.allocNolock cfg calloc with
    | none =>
        refine ⟨s, none, bucket, key, m, ?_, represents, clean, .full none_held⟩
        rw [Hash.insert, run, Option.map_some]
        dsimp only
        rw [alloc]
    | some new =>
        obtain ⟨e, s₁⟩ := new
        have short : k.length < cfg.keybufSize := fits.resolve_right fun full =>
          nomatch alloc.symm.trans (allocNolock_eq_none.mpr full)
        have taken := (represents.sound.taken alloc).setKey short
        have holds := holds_setKey (s := s₁) (e := e) short
        have stored := taken.setValue (f ((s₁.setKey cfg e k).value cfg e) false).1
        have pushed := represents.pushFront stored (holds_setValue _ holds short) short absent
        rw [value_setValue] at pushed
        refine ⟨_, _, _, _, _, ?_, pushed, stored.outside.trans clean, .new none_held _⟩
        rw [Hash.insert, run, Option.map_some]
        dsimp only
        rw [alloc]
        rfl

/-- A key that does not fit is written over the end of its field. -/
theorem Represents.insert_outside (represents : Represents cfg s bucket key m)
    (f : Hash.Functor cfg) {calloc : Bool} (long : cfg.keybufSize ≤ k.length)
    (room : ¬ s.Full cfg calloc) :
    ∃ s' out, s.insert cfg k f calloc = some (s', out) ∧ s'.outside = true := by
  rcases represents.lookup_spec k with ⟨e, member, here, _, _⟩ | ⟨_, _, run⟩
  · have short := represents.sound.short _ e member
    rw [here] at short
    exact absurd short (Nat.not_lt_of_le long)
  · cases alloc : s.allocNolock cfg calloc with
    | none => exact absurd (allocNolock_eq_none.mp alloc) room
    | some new =>
        obtain ⟨e, s₁⟩ := new
        have last : cfg.keybufSize ≤ (copy (s₁.mem e) k cfg.keySize).2 :=
          copy_beyond long (keybufSize_lt cfg)
        refine ⟨((s₁.setKey cfg e k).setValue cfg e
          (f ((s₁.setKey cfg e k).value cfg e) false).1).pushFront (cfg.hush k) e,
          returned (f ((s₁.setKey cfg e k).value cfg e) false), ?_, ?_⟩
        · rw [Hash.insert, run, Option.map_some]
          dsimp only
          rw [alloc]
          rfl
        · change (s₁.outside || decide (cfg.keybufSize ≤ _)) = true
          rw [decide_eq_true last, Bool.or_true]

/-! ## Histories -/

abbrev History (cfg : Config) := List (Op cfg × Out cfg)

variable {history : History cfg} {op : Op cfg} {out : Out cfg}

theorem latest_cons : latest ((op, out) :: history) =
    Function.update (latest history) op.key (after op out (latest history op.key)) := by
  funext k
  rw [latest, Function.update_apply]
  by_cases same : op.key = k
  · rw [if_pos same, if_pos same.symm, same]
  · rw [if_neg same, if_neg (Ne.symm same)]

/-- What `insert` stores is what the operation leaves under its key. -/
theorem Inserted.eq_update {f : Hash.Functor cfg} {m' : CString → Option (Value cfg)}
    {out : Option (Value cfg)} (inserted : Inserted m k f m' out)
    (present : ∀ old, after op (.ptr (returned (f old true))) (some old) = some (f old true).1)
    (new : ∀ old, after op (.ptr (returned (f old false))) none = some (f old false).1)
    (full : after op (.ptr none) none = none) :
    m' = Function.update m k (after op (.ptr out) (m k)) := by
  cases inserted with
  | present old held => rw [held, present]
  | full absent =>
      rw [absent, full, ← absent]
      exact (Function.update_eq_self k m).symm
  | new absent old => rw [absent, new]

structure Inv (s : Hash) (history : History cfg) : Prop where
  holds : ∃ bucket key, Represents cfg s bucket key (latest history)
  clean : s.outside = false
  lawful : Lawful history

/-- The value of `find` is the one stored last, everything returned is what a
finite map returns, and no copy or comparison has left a key field. -/
def Exact (s : Hash) (history : History cfg) : Prop :=
  s.outside = false ∧ Lawful history ∧
    ∀ k, ∃ s', s.exec (.find k : Op cfg) = some (s', .ptr (latest history k)) ∧ s'.outside = false

theorem Inv.exact (inv : Inv s history) : Exact s history := by
  obtain ⟨bucket, key, represents⟩ := inv.holds
  refine ⟨inv.clean, inv.lawful, fun k => ⟨s, ?_, inv.clean⟩⟩
  rw [Hash.exec, represents.get_spec]
  rfl

/-- An operation that stores a key has room for it in the key field, or has no
element for it. -/
def Hash.Fits (s : Hash) : Op cfg → Prop
  | .insert _ key calloc => key.length < cfg.keybufSize ∨ s.Full cfg calloc
  | .alloc _ key calloc => key.length < cfg.keybufSize ∨ s.Full cfg calloc
  | .allocNew _ key calloc => key.length < cfg.keybufSize ∨ s.Full cfg calloc
  | _ => True

theorem Inv.insert (inv : Inv s history) {f : Hash.Functor cfg} {calloc : Bool}
    (fits : k.length < cfg.keybufSize ∨ s.Full cfg calloc) (same : op.key = k)
    (present : ∀ old, after op (.ptr (returned (f old true))) (some old) = some (f old true).1)
    (new : ∀ old, after op (.ptr (returned (f old false))) none = some (f old false).1)
    (full : after op (.ptr none) none = none)
    (allowed : ∀ m' out, Inserted (latest history) k f m' out →
      Allowed (latest history) op (.ptr out)) :
    ∃ s' out, s.insert cfg k f calloc = some (s', out) ∧ Inv s' ((op, .ptr out) :: history) := by
  obtain ⟨bucket, key, represents⟩ := inv.holds
  obtain ⟨s', out, bucket', key', m', run, represents', clean, inserted⟩ :=
    represents.insert_spec inv.clean f fits
  refine ⟨s', out, run, ⟨bucket', key', ?_⟩, clean, inv.lawful, allowed m' out inserted⟩
  rw [latest_cons, same, ← inserted.eq_update present new full]
  exact represents'

/-- One operation on a sound state. -/
theorem Inv.exec (inv : Inv s history) (fits : s.Fits op) :
    ∃ s' out, s.exec op = some (s', out) ∧ Inv s' ((op, out) :: history) := by
  cases op with
  | insert v k calloc =>
      have allowed : ∀ m' out, Inserted (latest history) k (insertSetData v) m' out →
          Allowed (latest history) (.insert v k calloc) (.ptr out) := by
        intro m' out inserted
        rw [Allowed]
        cases inserted with
        | present old held => rw [held]; rfl
        | full absent => rw [absent]; exact .inr rfl
        | new absent old => rw [absent]; exact .inl rfl
      obtain ⟨s', out, run, inv'⟩ :=
        inv.insert fits rfl (fun _ => rfl) (fun _ => rfl) rfl allowed
      exact ⟨s', .ptr out, by rw [Hash.exec, run, Option.map_some], inv'⟩
  | alloc v k calloc =>
      have allowed : ∀ m' out, Inserted (latest history) k (allocSetData v) m' out →
          Allowed (latest history) (.alloc v k calloc) (.ptr out) := by
        intro m' out inserted
        cases inserted with
        | present old held => exact .inl rfl
        | full absent => exact .inr ⟨absent, rfl⟩
        | new absent old => exact .inl rfl
      obtain ⟨s', out, run, inv'⟩ :=
        inv.insert fits rfl (fun _ => rfl) (fun _ => rfl) rfl allowed
      exact ⟨s', .ptr out, by rw [Hash.exec, run, Option.map_some], inv'⟩
  | allocNew create k calloc =>
      have allowed : ∀ m' out, Inserted (latest history) k (allocIfSetData create) m' out →
          Allowed (latest history) (.allocNew create k calloc) (.ptr out) := by
        intro m' out inserted
        rw [Allowed]
        cases inserted with
        | present old held => rw [held]; rfl
        | full absent => rw [absent]; exact ⟨_, rfl⟩
        | new absent old => rw [absent]; exact ⟨_, rfl⟩
      obtain ⟨s', out, run, inv'⟩ :=
        inv.insert fits rfl (fun _ => rfl) (fun _ => rfl) rfl allowed
      exact ⟨s', .ptr out, by rw [Hash.exec, run, Option.map_some], inv'⟩
  | find k =>
      obtain ⟨bucket, key, represents⟩ := inv.holds
      refine ⟨s, .ptr (latest history k), ?_, ⟨bucket, key, ?_⟩, inv.clean, inv.lawful, rfl⟩
      · rw [Hash.exec, represents.get_spec]
        rfl
      · rw [latest_cons]
        change Represents cfg s bucket key
          (Function.update (latest history) k (latest history k))
        rw [Function.update_eq_self]
        exact represents
  | erase k =>
      obtain ⟨bucket, key, represents⟩ := inv.holds
      rcases represents.lookup_spec k with ⟨e, member, here, held, run⟩ | ⟨_, absent, run⟩
      · obtain ⟨bucket', represents'⟩ := represents.remove member here
        refine ⟨(s.unlink (cfg.hush k) e).release e, .done true, ?_, ⟨bucket', key, ?_⟩, ?_,
          inv.lawful, ?_⟩
        · rw [Hash.exec, Hash.remove, run]
          rfl
        · rw [latest_cons]
          exact represents'
        · rw [release_outside, unlink_eq]
          exact inv.clean
        · rw [Allowed, held]
          rfl
      · refine ⟨s, .done false, ?_, ⟨bucket, key, ?_⟩, inv.clean, inv.lawful, ?_⟩
        · rw [Hash.exec, Hash.remove, run]
          rfl
        · rw [latest_cons]
          change Represents cfg s bucket key (Function.update (latest history) k none)
          rw [← absent, Function.update_eq_self]
          exact represents
        · rw [Allowed, absent]
          rfl

/-- An operation that does not fit leaves the key field. -/
theorem Inv.exec_outside (inv : Inv s history) (long : ¬ s.Fits op) :
    ∃ s' out, s.exec op = some (s', out) ∧ s'.outside = true := by
  obtain ⟨bucket, key, represents⟩ := inv.holds
  cases op with
  | insert v k calloc =>
      obtain ⟨above, room⟩ := not_or.mp long
      obtain ⟨s', out, run, outside⟩ :=
        represents.insert_outside (insertSetData v) (Nat.not_lt.mp above) room
      exact ⟨s', .ptr out, by rw [Hash.exec, run, Option.map_some], outside⟩
  | alloc v k calloc =>
      obtain ⟨above, room⟩ := not_or.mp long
      obtain ⟨s', out, run, outside⟩ :=
        represents.insert_outside (allocSetData v) (Nat.not_lt.mp above) room
      exact ⟨s', .ptr out, by rw [Hash.exec, run, Option.map_some], outside⟩
  | allocNew create k calloc =>
      obtain ⟨above, room⟩ := not_or.mp long
      obtain ⟨s', out, run, outside⟩ :=
        represents.insert_outside (allocIfSetData create) (Nat.not_lt.mp above) room
      exact ⟨s', .ptr out, by rw [Hash.exec, run, Option.map_some], outside⟩
  | find k => exact absurd trivial long
  | erase k => exact absurd trivial long

theorem init_inv (cfg : Config) : Inv (Hash.init cfg) ([] : History cfg) := by
  refine ⟨⟨fun _ => [], fun _ => ⟨[], nofun⟩, ?_, ?_⟩, rfl, trivial⟩
  · exact {
      chain := fun _ => rfl
      back := fun _ => trivial
      home := fun _ _ => nofun
      stored := fun _ _ => nofun
      short := fun _ _ => nofun
      distinct := fun _ _ _ => nofun
      live := fun _ _ => nofun
      spare := fun e member => ⟨List.mem_range.mp member, rfl⟩
      spare_nodup := List.nodup_range }
  · intro k v
    exact iff_of_false nofun fun ⟨_, member, _⟩ => nomatch member

/-! ## Runs -/

/-- A run goes on with one operation; `none` is a run that hangs. -/
def react (t : Option (Hash × History cfg)) (op : Op cfg) : Option (Hash × History cfg) :=
  t.bind fun t => (t.1.exec op).map fun r => (r.1, (op, r.2) :: t.2)

theorem react_some {s' : Hash} (history : History cfg) (run : s.exec op = some (s', out)) :
    react (some (s, history)) op = some (s', (op, out) :: history) := by
  rw [react, Option.bind_some, run]
  rfl

theorem Inv.exact_iff {ops : List (Op cfg)} (inv : Inv s history) :
    (∀ n, ∃ s' history', (ops.take n).foldl react (some (s, history)) = some (s', history') ∧
        Exact s' history') ↔
      Run.Along react (fun t op => ∀ s history, t = some (s, history) → s.Fits op)
        (some (s, history)) ops := by
  induction ops generalizing s history with
  | nil =>
      refine iff_of_true (fun n => ⟨s, history, ?_, inv.exact⟩) trivial
      rw [List.take_nil]
      rfl
  | cons op ops ih =>
      by_cases fits : s.Fits op
      · obtain ⟨s', out, run, inv'⟩ := inv.exec fits
        have next := react_some history run
        constructor
        · intro exact
          refine ⟨fun t history' same => ?_, ?_⟩
          · obtain ⟨rfl, _⟩ := Prod.mk.inj (Option.some.inj same)
            exact fits
          · rw [next]
            refine (ih inv').mp fun n => ?_
            have later := exact (n + 1)
            rw [List.take_succ_cons, List.foldl_cons, next] at later
            exact later
        · rintro ⟨_, along⟩ n
          cases n with
          | zero => exact ⟨s, history, rfl, inv.exact⟩
          | succ n =>
              rw [next] at along
              rw [List.take_succ_cons, List.foldl_cons, next]
              exact (ih inv').mpr along n
      · obtain ⟨s', out, run, outside⟩ := inv.exec_outside fits
        refine iff_of_false (fun exact => ?_) (fun along => fits (along.1 s history rfl))
        obtain ⟨t, history', reached, clean, _⟩ := exact 1
        rw [List.take_succ_cons, List.foldl_cons, react_some _ run] at reached
        obtain ⟨rfl, _⟩ := Prod.mk.inj (Option.some.inj reached)
        exact nomatch clean.symm.trans outside

/-- In every run of a map the state is exact after every operation if and only
if each key that is stored is shorter than its field. -/
theorem finite_map_iff (cfg : Config) (ops : List (Op cfg)) :
    (∀ n, ∃ s history, (ops.take n).foldl react (some (Hash.init cfg, [])) = some (s, history) ∧
        Exact s history) ↔
      Run.Along react (fun t op => ∀ s history, t = some (s, history) → s.Fits op)
        (some (Hash.init cfg, [])) ops :=
  (init_inv cfg).exact_iff

def pointerMap : Config where
  size := 7
  positive := by decide
  keybuf := 256
  valSize := 8
  max := 4
  expandable := true

def longKey : CString := ⟨List.replicate 264 97, by decide⟩

def pointer : Value pointerMap := ⟨[1, 2, 3, 4, 5, 6, 7, 8], rfl⟩

/-- The value is written over the terminator of the key, and the key is not
found again. -/
theorem long_key_lost : ∃ (s s' : Hash) (history : History pointerMap),
    [Op.insert pointer longKey true].foldl react (some (Hash.init pointerMap, [])) =
        some (s, history) ∧
      latest history longKey = some pointer ∧
      s.exec (.find longKey : Op pointerMap) = some (s', .ptr none) := by
  have run : ([Op.insert pointer longKey true].foldl react
      (some (Hash.init pointerMap, []))).map (fun t => (latest t.2 longKey,
        (t.1.get pointerMap longKey).map Prod.snd)) = some (some pointer, some none) := by
    decide +kernel
  obtain ⟨⟨s, history⟩, reached, same⟩ := Option.map_eq_some_iff.mp run
  obtain ⟨held, found⟩ := Prod.mk.inj same
  obtain ⟨⟨s', _⟩, answer, rfl⟩ := Option.map_eq_some_iff.mp found
  refine ⟨s, s', history, reached, held, ?_⟩
  rw [Hash.exec, answer]
  rfl

end Cyue.StrMap
