import Mathlib.Algebra.Ring.Int.Defs
import Mathlib.Algebra.Ring.Nat
import Cyue.Lib.Chain
import Cyue.Lib.Run
import Mathlib.Data.List.Perm.Subperm

/-!
# `fix_size_allocator`

The elements of the block are numbered from 0 on; an element from the heap has
any other number that `calloc` gives it.  `live` tells where there is memory of
an element.  A call is given whether the lock could be taken, and `alloc` what
`calloc` would return.  `held` lists the elements that were handed out and not
taken back since, the latest first.
-/

namespace Cyue

open Chain

structure FixSizeAllocator where
  prev : ℕ → Option ℕ
  next : ℕ → Option ℕ
  /-- The flags `elem_used` and `elem_from_heap`. -/
  inuse : ℕ → Bool
  fromHeap : ℕ → Bool
  live : ℕ → Bool
  used : Option ℕ
  free : Option ℕ
  max : UInt32
  use : UInt32
  threadsafe : Bool
  expandable : Bool
  held : List ℕ

namespace FixSizeAllocator

def ok : ℤ := 0

def ealready : ℤ := -5

def einval : ℤ := -6

def epthread : ℤ := -19

def setPrev (s : FixSizeAllocator) (e : ℕ) (link : Option ℕ) : FixSizeAllocator :=
  { s with prev := Function.update s.prev e link }

def setNext (s : FixSizeAllocator) (e : ℕ) (link : Option ℕ) : FixSizeAllocator :=
  { s with next := Function.update s.next e link }

/-- The loop of `init_header` over the elements up to one: the links and `ep`. -/
def link : ℕ → (ℕ → Option ℕ) × ℕ
  | 0 => (fun _ => none, 0)
  | i + 1 => (Function.update (link i).1 (link i).2 (some (i + 1)), i + 1)

def initHeader (max : ℕ) (threadsafe expandable : Bool) : FixSizeAllocator where
  prev := fun _ => none
  next := Function.update (link (max - 1)).1 (link (max - 1)).2 none
  inuse := fun _ => false
  fromHeap := fun _ => false
  live := fun e => decide (e < max)
  used := none
  free := some 0
  max := UInt32.ofNat max
  use := 0
  threadsafe := threadsafe
  expandable := expandable
  held := []

/-- The end of `alloc_elm`: the element becomes the first of the used ones. -/
def push (s : FixSizeAllocator) (e : ℕ) : FixSizeAllocator :=
  let s := (s.setPrev e none).setNext e s.used
  let s := match s.next e with
    | none => s
    | some n => s.setPrev n (some e)
  { s with used := some e }

def allocElm (s : FixSizeAllocator) (calloc : Option ℕ) : Option ℕ × FixSizeAllocator :=
  match s.free with
  | none =>
      if s.expandable then
        match calloc with
        | none => (none, s)
        | some e =>
            (some e, push { s with
              prev := Function.update s.prev e none
              next := Function.update s.next e none
              inuse := Function.update s.inuse e false
              fromHeap := Function.update s.fromHeap e true
              live := Function.update s.live e true
              max := s.max + 1 } e)
      else (none, s)
  | some e => (some e, push { s with free := s.next e } e)

def allocNolock (s : FixSizeAllocator) (calloc : Option ℕ) : Option ℕ × FixSizeAllocator :=
  match s.allocElm calloc with
  | (none, s) => (none, s)
  | (some e, s) =>
      (some e, { s with
        inuse := Function.update s.inuse e true, use := s.use + 1, held := e :: s.held })

def alloc (s : FixSizeAllocator) (calloc : Option ℕ) (locks : Bool) : Option ℕ × FixSizeAllocator :=
  if s.threadsafe && !locks then (none, s) else s.allocNolock calloc

/-- The first part of `free_elm`: the element leaves the used ones. -/
def unlink (s : FixSizeAllocator) (e : ℕ) : FixSizeAllocator :=
  if s.used = some e then
    let s := match s.next e with
      | none => s
      | some n => s.setPrev n none
    { s with used := s.next e }
  else
    match s.next e, s.prev e with
    | none, some p => s.setNext p none
    | some n, some p => (s.setNext p (some n)).setPrev n (some p)
    | _, none => s

/-- The second part: memory from the heap is given back, or the element becomes
the first of the free ones. -/
def giveBack (s : FixSizeAllocator) (e : ℕ) : FixSizeAllocator :=
  if s.fromHeap e ∧ s.use ≤ s.max / 2 then
    { s with live := Function.update s.live e false, max := s.max - 1 }
  else
    { (s.setPrev e none).setNext e s.free with
      free := some e, inuse := Function.update s.inuse e false }

def freeElm (s : FixSizeAllocator) (e : ℕ) : FixSizeAllocator := (s.unlink e).giveBack e

/-- `check_address` of an element of the block. -/
def checkAddress (s : FixSizeAllocator) (e : ℕ) : Bool := decide (e < s.max.toNat)

/-- `fix_size_allocator::free` -/
def release (s : FixSizeAllocator) (e : ℕ) (lock locks : Bool) : ℤ × FixSizeAllocator :=
  if !s.inuse e then (ealready, s)
  else if s.fromHeap e || s.checkAddress e then
    if lock && s.threadsafe && !locks then (epthread, s)
    else
      let s := s.freeElm e
      (ok, { s with use := s.use - 1, held := s.held.erase e })
  else (einval, s)

/-! ## Events -/

inductive Event where
  | alloc (calloc : Option ℕ) (locks : Bool)
  | release (e : ℕ) (lock locks : Bool)
  deriving DecidableEq

def step (s : FixSizeAllocator) : Event → FixSizeAllocator
  | .alloc calloc locks => (s.alloc calloc locks).2
  | .release e lock locks => (s.release e lock locks).2

/-- `calloc` returns no memory that is in use, and only what was handed out is
taken back. -/
def Allowed (s : FixSizeAllocator) : Event → Prop
  | .alloc calloc _ => ∀ e, calloc = some e → s.live e = false
  | .release e _ _ => e ∈ s.held

/-! ## The two lists -/

/-- The used elements are linked both ways, the free ones one way. -/
structure Linked (s : FixSizeAllocator) (used free : List ℕ) : Prop where
  chain : Segment s.next s.used used none
  back : Back s.prev none used
  freeChain : Segment s.next s.free free none
  disjoint : used.Disjoint free

/-- All elements are in the two lists, which the counters count. -/
structure Lists (s : FixSizeAllocator) (used free : List ℕ) : Prop extends Linked s used free where
  inuse : ∀ e, e ∈ used → s.inuse e = true
  idle : ∀ e, e ∈ free → s.inuse e = false
  live : ∀ e, s.live e = true ↔ e ∈ used ∨ e ∈ free
  use : s.use = UInt32.ofNat used.length
  max : s.max = UInt32.ofNat (used.length + free.length)
  held : s.held = used

variable {s s' : FixSizeAllocator} {used free : List ℕ} {e : ℕ}

/-! ### The start -/

/-- The elements up to one are linked one after the other. -/
theorem link_segment (i : ℕ) : (link i).2 = i ∧
    ∀ n, (link i).1 n = if n < i then some (n + 1) else none := by
  induction i with
  | zero => exact ⟨rfl, fun n => (if_neg (Nat.not_lt_zero n)).symm⟩
  | succ i ih =>
      refine ⟨rfl, fun n => ?_⟩
      change Function.update (link i).1 (link i).2 (some (i + 1)) n = _
      rw [ih.1, Function.update_apply, ih.2]
      by_cases last : n = i
      · rw [if_pos last, if_pos (last ▸ Nat.lt_succ_self i), last]
      · rw [if_neg last]
        by_cases less : n < i
        · rw [if_pos less, if_pos (Nat.lt_succ_of_lt less)]
        · rw [if_neg less, if_neg fun more => less (Nat.lt_of_le_of_ne (Nat.le_of_lt_succ more) last)]

/-- Numbers in a row are chained if each leads to the next and the last nowhere. -/
theorem range_segment {next : ℕ → Option ℕ} (i n : ℕ) (last : next (i + n) = none)
    (links : ∀ k, i ≤ k → k < i + n → next k = some (k + 1)) :
    Segment next (some i) (List.range' i (n + 1)) none := by
  induction n generalizing i with
  | zero => exact ⟨rfl, last⟩
  | succ n ih =>
      rw [List.range'_succ]
      refine ⟨rfl, ?_⟩
      rw [links i le_rfl (by omega)]
      refine ih (i + 1) ?_ fun k more less => links k (by omega) (by omega)
      rw [Nat.add_right_comm]
      exact last

theorem initHeader_lists {max : ℕ} (positive : 0 < max) (threadsafe expandable : Bool) :
    Lists (initHeader max threadsafe expandable) [] (List.range' 0 max) := by
  obtain ⟨n, rfl⟩ := Nat.exists_eq_succ_of_ne_zero positive.ne'
  have next : ∀ k, (initHeader (n + 1) threadsafe expandable).next k =
      if k < n then some (k + 1) else none := by
    intro k
    change Function.update (link n).1 (link n).2 none k = _
    rw [(link_segment n).1, Function.update_apply, (link_segment n).2]
    by_cases last : k = n
    · rw [if_pos last, if_neg (last ▸ Nat.lt_irrefl n)]
    · rw [if_neg last]
  constructor
  · refine ⟨rfl, trivial, ?_, List.disjoint_nil_left _⟩
    refine range_segment 0 n ?_ fun k _ less => ?_
    · rw [next, Nat.zero_add, if_neg (Nat.lt_irrefl n)]
    · rw [next, if_pos (Nat.zero_add n ▸ less)]
  · exact fun e member => nomatch member
  · exact fun e _ => rfl
  · intro e
    rw [or_iff_right List.not_mem_nil, List.mem_range'_1]
    change decide (e < n + 1) = true ↔ _
    rw [decide_eq_true_iff]
    omega
  · rfl
  · rw [List.length_range', List.length_nil, Nat.zero_add]
    rfl
  · rfl

/-! ### `alloc` -/

theorem push_frame (s : FixSizeAllocator) (e : ℕ) : ∃ prev next first,
    s.push e = { s with prev := prev, next := next, used := first } := by
  rw [push]
  dsimp only [setPrev, setNext]
  split
  · exact ⟨_, _, _, rfl⟩
  · exact ⟨_, _, _, rfl⟩

/-- A new element becomes the first of the used ones. -/
theorem Linked.push (linked : Linked s used free) (fresh : e ∉ used) (kept : e ∉ free) :
    Linked (s.push e) (e :: used) free := by
  have distinct := linked.chain.nodup
  have start : s.used = used.head? := linked.chain.start_eq
  have pushed : s.push e = { s with
      next := Function.update s.next e s.used
      prev := used.head?.elim (Function.update s.prev e none) fun first =>
        Function.update (Function.update s.prev e none) first (some e)
      used := some e } := by
    rw [FixSizeAllocator.push]
    dsimp only [setPrev, setNext]
    rw [Function.update_self, start]
    cases used with
    | nil => rfl
    | cons first used => rfl
  rw [pushed]
  constructor
  · refine ⟨rfl, ?_⟩
    dsimp only
    rw [Function.update_self]
    exact linked.chain.update fresh
  · have moved : Back (Function.update _ e none) _ _ := linked.back.update fresh
    have relinked : Back _ (some e) _ := moved.relink distinct
    refine ⟨?_, relinked⟩
    cases used with
    | nil => exact Function.update_self ..
    | cons first used =>
        have other : e ≠ first := fun same => fresh (same ▸ List.mem_cons_self)
        exact (Function.update_of_ne other ..).trans (Function.update_self ..)
  · exact linked.freeChain.update kept
  · exact List.disjoint_cons_left.mpr ⟨kept, linked.disjoint⟩

/-- An element that is handed out was not used, and is now.  It is the first of the
free ones; where there are none, it comes from the heap. -/
theorem Lists.allocNolock (lists : Lists s used free) {calloc : Option ℕ}
    (fresh : ∀ e, calloc = some e → s.live e = false) :
    free = [] ∧ s.allocNolock calloc = (none, s) ∨
      ∃ e free', (s.allocNolock calloc).1 = some e ∧ e ∉ used ∧
        Lists (s.allocNolock calloc).2 (e :: used) free' ∧
        (free = e :: free' ∨ free = [] ∧ free' = [] ∧ calloc = some e) := by
  have start : s.free = free.head? := lists.freeChain.start_eq
  -- the flags and the counters after an element was put in front
  have done : ∀ {t : FixSizeAllocator} {e : ℕ} {free' : List ℕ}, Linked t used free' →
      e ∉ used → e ∉ free' → (∀ e, e ∈ used → t.inuse e = true) →
      (∀ e, e ∈ free' → t.inuse e = false) →
      (∀ e', t.live e' = true ↔ e' = e ∨ e' ∈ used ∨ e' ∈ free') →
      t.use = UInt32.ofNat used.length → t.max = UInt32.ofNat (used.length + free'.length + 1) →
      t.held = used → Lists { t.push e with
        inuse := Function.update (t.push e).inuse e true, use := (t.push e).use + 1,
        held := e :: (t.push e).held } (e :: used) free' := by
    intro t e free' linked new apart inuse idle live use max held
    obtain ⟨prev, next, first, pushed⟩ := push_frame t e
    have linked' := linked.push new apart
    rw [pushed] at linked' ⊢
    refine ⟨⟨linked'.chain, linked'.back, linked'.freeChain, linked'.disjoint⟩, ?_, ?_, ?_, ?_, ?_,
      ?_⟩
    · intro e' member
      by_cases same : e' = e
      · subst same
        exact Function.update_self ..
      · refine (Function.update_of_ne same ..).trans (inuse e' ?_)
        exact (List.mem_cons.mp member).resolve_left same
    · intro e' member
      refine (Function.update_of_ne ?_ ..).trans (idle e' member)
      rintro rfl
      exact apart member
    · intro e'
      rw [List.mem_cons, or_assoc]
      exact live e'
    · rw [List.length_cons, UInt32.ofNat_add]
      exact congrArg (· + 1) use
    · rw [List.length_cons, Nat.add_right_comm]
      exact max
    · exact congrArg (e :: ·) held
  unfold FixSizeAllocator.allocNolock allocElm
  cases free with
  | nil =>
      rw [show s.free = none from start]
      dsimp only
      by_cases expandable : s.expandable = true
      · rw [if_pos expandable]
        cases calloc with
        | none => exact .inl ⟨rfl, rfl⟩
        | some e =>
            have dead := fresh e rfl
            have new : e ∉ used := fun member => by
              rw [(lists.live e).mpr (.inl member)] at dead
              cases dead
            refine .inr ⟨e, [], rfl, new,
              done ?_ new List.not_mem_nil ?_ ?_ ?_ lists.use ?_ lists.held, .inr ⟨rfl, rfl, rfl⟩⟩
            · exact ⟨lists.chain.update new, lists.back.update new, rfl, lists.disjoint⟩
            · intro e' member
              refine (Function.update_of_ne ?_ ..).trans (lists.inuse e' member)
              rintro rfl
              exact new member
            · exact fun e' member => nomatch member
            · intro e'
              rw [← lists.live e']
              by_cases same : e' = e
              · subst same
                exact iff_of_true (Function.update_self ..) (.inl rfl)
              · rw [or_iff_right same]
                exact (Function.update_of_ne same ..).congr_left
            · rw [UInt32.ofNat_add]
              exact congrArg (· + 1) lists.max
      · rw [if_neg expandable]
        exact .inl ⟨rfl, rfl⟩
  | cons e free =>
      obtain ⟨apart, distinct⟩ := List.nodup_cons.mp lists.freeChain.nodup
      rw [show s.free = some e from start]
      dsimp only
      have new : e ∉ used := fun member => lists.disjoint member List.mem_cons_self
      refine .inr ⟨e, free, rfl, new,
        done ?_ new apart lists.inuse ?_ ?_ lists.use lists.max lists.held, .inl rfl⟩
      · exact ⟨lists.chain, lists.back, lists.freeChain.2,
          fun e' member free => lists.disjoint member (List.mem_cons_of_mem e free)⟩
      · exact fun e' member => lists.idle e' (List.mem_cons_of_mem e member)
      · intro e'
        rw [lists.live e', List.mem_cons]
        exact or_left_comm

/-- `alloc` gives no memory back. -/
theorem alloc_live {calloc : Option ℕ} {locks : Bool} (live : s.live e = true) :
    (s.alloc calloc locks).2.live e = true := by
  have pushed : ∀ (t : FixSizeAllocator) (e : ℕ), (t.push e).live = t.live := by
    intro t e
    obtain ⟨prev, next, first, pushed⟩ := push_frame t e
    rw [pushed]
  rw [FixSizeAllocator.alloc]
  split
  · exact live
  · unfold FixSizeAllocator.allocNolock allocElm
    cases s.free with
    | some e' =>
        dsimp only
        rw [pushed]
        exact live
    | none =>
        by_cases expandable : s.expandable = true
        · rw [if_pos expandable]
          cases calloc with
          | none => exact live
          | some e' =>
              dsimp only
              rw [pushed]
              change Function.update s.live e' true e = true
              rw [Function.update_apply]
              split
              · rfl
              · exact live
        · rw [if_neg expandable]
          exact live

/-! ### `free` -/

theorem unlink_frame (s : FixSizeAllocator) (e : ℕ) : ∃ prev next first,
    s.unlink e = { s with prev := prev, next := next, used := first } := by
  rw [unlink]
  split
  · dsimp only [setPrev]
    split
    · exact ⟨_, _, _, rfl⟩
    · exact ⟨_, _, _, rfl⟩
  · split
    · exact ⟨_, _, _, rfl⟩
    · exact ⟨_, _, _, rfl⟩
    · exact ⟨s.prev, s.next, s.used, rfl⟩

/-- A used element leaves the list, wherever it stands. -/
theorem Linked.unlink {l r : List ℕ} (linked : Linked s (l ++ e :: r) free) :
    Linked (s.unlink e) (l ++ r) free := by
  have distinct := linked.chain.nodup
  have start : s.used = (l ++ e :: r).head? := linked.chain.start_eq
  have next : s.next e = r.head? := linked.chain.next_eq
  have prev : s.prev e = l.getLast?.or none := linked.back.prev_eq
  have disjoint : (l ++ r).Disjoint free := fun e' member => linked.disjoint
    (List.Sublist.mem member ((List.sublist_cons_self e r).append_left l))
  have back := linked.back.bypass distinct
  rcases List.eq_nil_or_concat l with rfl | ⟨l, b, rfl⟩
  · -- the first one
    have first : s.used = some e := start
    have before : s.prev e = none := prev
    have rest := linked.chain.2
    rw [next] at rest
    rw [before] at back
    have unlinked : s.unlink e = { s with
        prev := r.head?.elim s.prev fun n => Function.update s.prev n none, used := r.head? } := by
      rw [FixSizeAllocator.unlink, if_pos first]
      cases r with
      | nil => simp [next]
      | cons n r => simp [next, setPrev]
    rw [unlinked]
    exact ⟨rest, back, linked.freeChain, disjoint⟩
  · rw [List.concat_eq_append] at *
    have first : ¬ s.used = some e := by
      intro same
      obtain ⟨l', whole⟩ : ∃ l', l ++ [b] ++ e :: r = e :: l' := by
        rw [same] at start
        exact List.head?_eq_some_iff.mp start.symm
      cases l with
      | nil =>
          obtain ⟨rfl, -⟩ := List.cons.inj whole
          simp at distinct
      | cons a l =>
          obtain ⟨rfl, -⟩ := List.cons.inj whole
          simp at distinct
    have before : s.prev e = some b := by
      rw [prev, List.getLast?_concat]
      rfl
    have bypassed := Segment.bypass (by simpa using linked.chain :
      Segment s.next s.used (l ++ b :: e :: r) none)
    have kept : b ∉ free := fun there => linked.disjoint (by simp) there
    rw [FixSizeAllocator.unlink, if_neg first]
    rw [next] at bypassed ⊢
    rw [before] at back ⊢
    have whole : l ++ [b] ++ r = l ++ b :: r := by simp
    rw [whole] at back disjoint ⊢
    cases r with
    | nil => exact ⟨bypassed, back, linked.freeChain.update kept, disjoint⟩
    | cons n r => exact ⟨bypassed, back, linked.freeChain.update kept, disjoint⟩

theorem Linked.unlink_erase (linked : Linked s used free) (member : e ∈ used) :
    Linked (s.unlink e) (used.erase e) free := by
  have distinct := linked.chain.nodup
  obtain ⟨l, r, rfl⟩ := List.append_of_mem member
  have apart : e ∉ l ++ r := (List.nodup_cons.mp (List.nodup_middle.mp distinct)).1
  rw [List.erase_append_right _ fun there => apart (List.mem_append_left r there),
    List.erase_cons_head]
  exact linked.unlink

/-- The memory of an element is to be given back to the heap. -/
def GivesBack (s : FixSizeAllocator) (e : ℕ) : Prop := s.fromHeap e = true ∧ s.use ≤ s.max / 2

instance (s : FixSizeAllocator) (e : ℕ) : Decidable (s.GivesBack e) :=
  inferInstanceAs (Decidable (_ ∧ _))

/-- A used element that is taken back leaves the used ones; its memory is given
back to the heap, or it is free. -/
theorem Lists.release (lists : Lists s used free) (member : e ∈ used) (lock locks : Bool) :
    (s.release e lock locks).2 = s ∨
      ∃ free', Lists (s.release e lock locks).2 (used.erase e) free' ∧
        (free' = e :: free ∧ ¬ s.GivesBack e ∨ free' = free ∧ s.GivesBack e) := by
  obtain ⟨l, r, rfl⟩ := List.append_of_mem member
  have distinct := lists.chain.nodup
  have apart : e ∉ l ++ r := (List.nodup_cons.mp (List.nodup_middle.mp distinct)).1
  have before : e ∉ l := fun there => apart (List.mem_append_left r there)
  have erased : (l ++ e :: r).erase e = l ++ r := by
    rw [List.erase_append_right _ before, List.erase_cons_head]
  have kept : e ∉ free := lists.disjoint member
  have sub : ∀ e', e' ∈ l ++ e :: r ↔ e' = e ∨ e' ∈ l ++ r := by
    intro e'
    rw [List.mem_append, List.mem_append, List.mem_cons, or_left_comm]
  have count : (l ++ e :: r).length = (l ++ r).length + 1 := by
    rw [List.length_append, List.length_append, List.length_cons, Nat.add_assoc]
  have linked := lists.toLinked.unlink
  obtain ⟨prev, next, first, unlinked⟩ := unlink_frame s e
  have use : s.use - 1 = UInt32.ofNat (l ++ r).length := by
    rw [lists.use, count, UInt32.ofNat_add]
    exact UInt32.add_sub_cancel ..
  unfold FixSizeAllocator.release
  split
  · exact .inl rfl
  · split
    · split
      · exact .inl rfl
      · refine .inr ?_
        dsimp only
        rw [erased, freeElm]
        rw [unlinked] at linked ⊢
        rw [giveBack]
        dsimp only
        split
        case isTrue gives =>
            refine ⟨free, ⟨⟨linked.chain, linked.back, linked.freeChain, linked.disjoint⟩,
              fun e' there => lists.inuse e' ((sub e').mpr (.inr there)), lists.idle, ?_, use, ?_, ?_⟩,
              .inr ⟨rfl, gives⟩⟩
            · intro e'
              dsimp only
              by_cases same : e' = e
              · subst same
                rw [Function.update_self]
                exact iff_of_false nofun (fun either => either.elim apart kept)
              · rw [Function.update_of_ne same, lists.live, sub, or_iff_right same]
            · change s.max - 1 = _
              rw [lists.max, count, Nat.add_right_comm, UInt32.ofNat_add]
              exact UInt32.add_sub_cancel ..
            · change s.held.erase e = _
              rw [lists.held, erased]
        case isFalse keeps =>
            refine ⟨e :: free, ⟨⟨linked.chain.update apart, linked.back.update apart, ?_, ?_⟩,
              ?_, ?_, ?_, use, ?_, ?_⟩, .inl ⟨rfl, keeps⟩⟩
            · refine ⟨rfl, ?_⟩
              change Segment (Function.update next e s.free) (Function.update next e s.free e) free none
              rw [Function.update_self]
              exact linked.freeChain.update kept
            · exact List.disjoint_cons_right.mpr ⟨apart, linked.disjoint⟩
            · intro e' there
              change Function.update s.inuse e false e' = true
              rw [Function.update_of_ne (fun same : e' = e => apart (same ▸ there))]
              exact lists.inuse e' ((sub e').mpr (.inr there))
            · intro e' there
              change Function.update s.inuse e false e' = false
              by_cases same : e' = e
              · rw [same, Function.update_self]
              · rw [Function.update_of_ne same]
                exact lists.idle e' ((List.mem_cons.mp there).resolve_left same)
            · intro e'
              change s.live e' = true ↔ _
              rw [lists.live, sub, List.mem_cons, or_left_comm, or_assoc]
            · change s.max = _
              rw [lists.max, count, List.length_cons, Nat.add_right_comm, Nat.add_assoc]
            · change s.held.erase e = _
              rw [lists.held, erased]
    · exact .inl rfl

/-! ### The block -/

/-- The first elements are those of the block, and all others come from the heap. -/
structure Based (s : FixSizeAllocator) (base : ℕ) : Prop where
  block : ∀ e, e < base → s.live e = true ∧ s.fromHeap e = false
  others : ∀ e, s.live e = true → s.fromHeap e = false → e < base

variable {base : ℕ}

theorem initHeader_based (max : ℕ) (threadsafe expandable : Bool) :
    Based (initHeader max threadsafe expandable) max := by
  constructor
  · exact fun e inside => ⟨decide_eq_true inside, rfl⟩
  · exact fun e live _ => of_decide_eq_true live

theorem Based.allocNolock (based : Based s base) {calloc : Option ℕ}
    (fresh : ∀ e, calloc = some e → s.live e = false) : Based (s.allocNolock calloc).2 base := by
  have pushed : ∀ {t : FixSizeAllocator} {e : ℕ}, Based t base → Based { t.push e with
      inuse := Function.update (t.push e).inuse e true, use := (t.push e).use + 1,
      held := e :: (t.push e).held } base := by
    intro t e based
    obtain ⟨prev, next, first, pushed⟩ := push_frame t e
    rw [pushed]
    exact ⟨based.block, based.others⟩
  unfold FixSizeAllocator.allocNolock allocElm
  cases s.free with
  | some e => exact pushed (t := { s with free := s.next e }) ⟨based.block, based.others⟩
  | none =>
      by_cases expandable : s.expandable = true
      · rw [if_pos expandable]
        cases calloc with
        | none => exact based
        | some e =>
            have other : ∀ e', e' < base → e' ≠ e := by
              rintro e' inside rfl
              exact nomatch (based.block e' inside).1.symm.trans (fresh e' rfl)
            apply pushed
            constructor
            · intro e' inside
              have apart := other e' inside
              obtain ⟨live, block⟩ := based.block e' inside
              exact ⟨(Function.update_of_ne apart ..).trans live,
                (Function.update_of_ne apart ..).trans block⟩
            · intro e' live block
              by_cases same : e' = e
              · subst same
                exact nomatch (Function.update_self ..).symm.trans block
              · exact based.others e' ((Function.update_of_ne same ..).symm.trans live)
                  ((Function.update_of_ne same ..).symm.trans block)
      · rw [if_neg expandable]
        exact based

theorem Based.release (based : Based s base) (e : ℕ) (lock locks : Bool) :
    Based (s.release e lock locks).2 base := by
  obtain ⟨prev, next, first, unlinked⟩ := unlink_frame s e
  unfold FixSizeAllocator.release
  split
  · exact based
  · split
    · split
      · exact based
      · dsimp only
        rw [freeElm, unlinked, giveBack]
        split
        case isTrue gives =>
            have other : ∀ e', e' < base → e' ≠ e := by
              rintro e' inside rfl
              exact nomatch (based.block e' inside).2.symm.trans gives.1
            constructor
            · intro e' inside
              obtain ⟨live, block⟩ := based.block e' inside
              exact ⟨(Function.update_of_ne (other e' inside) ..).trans live, block⟩
            · intro e' live block
              refine based.others e' ?_ block
              by_cases same : e' = e
              · subst same
                exact nomatch (Function.update_self ..).symm.trans live
              · exact (Function.update_of_ne same ..).symm.trans live
        case isFalse => exact ⟨based.block, based.others⟩
    · exact based

/-- As long as `m_max` does not wrap, the address of a used element is accepted. -/
theorem Lists.address (lists : Lists s used free) (based : Based s base)
    (few : used.length + free.length < 2 ^ 32) (member : e ∈ used) :
    (s.fromHeap e || s.checkAddress e) = true := by
  cases heap : s.fromHeap e with
  | true => rfl
  | false =>
      have inside : e < base := based.others e ((lists.live e).mpr (.inl member)) heap
      have listed : List.range base ⊆ used ++ free := by
        intro e' below
        have live := (based.block e' (List.mem_range.mp below)).1
        exact List.mem_append.mpr ((lists.live e').mp live)
      have counted := (List.subperm_of_subset List.nodup_range listed).length_le
      rw [List.length_range, List.length_append] at counted
      rw [Bool.false_or, checkAddress, lists.max, UInt32.toNat_ofNat_of_lt' few]
      exact decide_eq_true (inside.trans_le counted)

/-- A used element whose address is accepted is taken back. -/
theorem Lists.release_taken (lists : Lists s used free) (based : Based s base)
    (few : used.length + free.length < 2 ^ 32) (member : e ∈ used) (locks : Bool) :
    ∃ free', Lists (s.release e false locks).2 (used.erase e) free' ∧
      (free' = e :: free ∧ ¬ s.GivesBack e ∨ free' = free ∧ s.GivesBack e) := by
  rcases lists.release member false locks with same | taken
  · have shorter : (s.release e false locks).2.held = s.held.erase e := by
      rw [FixSizeAllocator.release, if_neg (by simp [lists.inuse e member]),
        if_pos (lists.address based few member)]
      obtain ⟨prev, next, first, unlinked⟩ := unlink_frame s e
      change (s.freeElm e).held.erase e = _
      rw [freeElm, unlinked, giveBack]
      split <;> rfl
    rw [same, lists.held] at shorter
    have length := congrArg List.length shorter
    rw [List.length_erase_of_mem member] at length
    have positive := List.length_pos_of_mem member
    omega
  · exact taken

/-! ## Runs -/

theorem Lists.step (lists : Lists s used free) {event : Event} (allowed : s.Allowed event) :
    ∃ used' free', Lists (s.step event) used' free' := by
  cases event with
  | alloc calloc locks =>
      change ∃ used' free', Lists (s.alloc calloc locks).2 used' free'
      rw [FixSizeAllocator.alloc]
      split
      · exact ⟨used, free, lists⟩
      · rcases lists.allocNolock allowed with ⟨-, same⟩ | ⟨e, free', -, -, lists', -⟩
        · rw [same]
          exact ⟨used, free, lists⟩
        · exact ⟨e :: used, free', lists'⟩
  | release e lock locks =>
      have member : e ∈ used := lists.held ▸ allowed
      rcases lists.release member lock locks with same | ⟨free', lists', -⟩
      · refine ⟨used, free, ?_⟩
        rw [FixSizeAllocator.step, same]
        exact lists
      · exact ⟨used.erase e, free', lists'⟩

def run (max : ℕ) (threadsafe expandable : Bool) (events : List Event) : FixSizeAllocator :=
  events.foldl FixSizeAllocator.step (initHeader max threadsafe expandable)

/-- After any calls, the used elements are a list linked both ways, the free
ones are another list, and the counters count them, in 32 bits.  What `alloc`
returns was not used; memory that goes back to the heap is that of an element
from there which has left the list before. -/
theorem lists_sound {max : ℕ} (positive : 0 < max) (threadsafe expandable : Bool)
    (events : List Event)
    (allowed : Run.Along FixSizeAllocator.step Allowed (initHeader max threadsafe expandable)
      events) :
    let s := run max threadsafe expandable events
    ∃ used free, Lists s used free ∧
      (used.length + free.length < 2 ^ 32 →
        s.use.toNat = used.length ∧ s.max.toNat = used.length + free.length) ∧
      (∀ calloc locks e, s.Allowed (.alloc calloc locks) → (s.alloc calloc locks).1 = some e →
        e ∉ used) ∧
      ∀ event e, s.Allowed event → s.live e = true → (s.step event).live e = false →
        s.fromHeap e = true ∧ (∃ lock locks, event = .release e lock locks) ∧
          Linked (s.unlink e) (used.erase e) free ∧ e ∉ used.erase e := by
  have start : ∃ used free, Lists (initHeader max threadsafe expandable) used free :=
    ⟨_, _, initHeader_lists positive threadsafe expandable⟩
  obtain ⟨used, free, lists⟩ := Run.holds_after (fun s => ∃ used free, Lists s used free) Allowed
    start (fun s event ⟨used, free, lists⟩ allowed => lists.step allowed) allowed
  change Lists (run max threadsafe expandable events) used free at lists
  generalize run max threadsafe expandable events = s at lists ⊢
  refine ⟨used, free, lists, ?_, ?_, ?_⟩
  · intro fits
    rw [lists.use, lists.max]
    exact ⟨UInt32.toNat_ofNat_of_lt' ((Nat.le_add_right ..).trans_lt fits),
      UInt32.toNat_ofNat_of_lt' fits⟩
  · intro calloc locks e fresh returned
    rw [FixSizeAllocator.alloc] at returned
    split at returned
    · cases returned
    · rcases lists.allocNolock fresh with ⟨-, same⟩ | ⟨e', free', some, new, -⟩
      · rw [same] at returned
        cases returned
      · rw [some] at returned
        exact Option.some.inj returned ▸ new
  · intro event e allowed live dead
    cases event with
    | alloc calloc locks =>
        rw [show (s.step (.alloc calloc locks)).live e = true from alloc_live live] at dead
        cases dead
    | release e' lock locks =>
        have member : e' ∈ used := lists.held ▸ allowed
        change (s.release e' lock locks).2.live e = false at dead
        rcases lists.release member lock locks with same | ⟨free', lists', gives⟩
        · rw [same, live] at dead
          cases dead
        · have gone : ¬ (e ∈ used.erase e' ∨ e ∈ free') := by
            rw [← lists'.live, dead]
            exact Bool.false_ne_true
          have same : e = e' := by
            by_contra other
            refine gone (((lists.live e).mp live).imp (List.mem_erase_of_ne other).mpr ?_)
            rcases gives with ⟨rfl, -⟩ | ⟨rfl, -⟩
            · exact List.mem_cons_of_mem e'
            · exact id
          subst same
          rcases gives with ⟨rfl, -⟩ | ⟨rfl, heap⟩
          · exact absurd (.inr List.mem_cons_self) gone
          · exact ⟨heap.1, ⟨lock, locks, rfl⟩, lists.toLinked.unlink_erase member,
              lists.chain.nodup.not_mem_erase⟩

/-- One element in the block and two from the heap, of which the first is free
in the end and the second is given back. -/
theorem lists_sound_heap : ∃ used free, Lists (run 1 true true [.alloc none true,
    .alloc (some 7) true, .alloc (some 9) true, .release 0 true true, .release 7 true true,
    .alloc none false, .release 9 true true]) used free := by
  obtain ⟨used, free, lists, -⟩ := lists_sound (by decide : 0 < 1) true true [.alloc none true,
    .alloc (some 7) true, .alloc (some 9) true, .release 0 true true, .release 7 true true,
    .alloc none false, .release 9 true true] ⟨nofun, fun e same => by cases same; rfl,
      fun e same => by cases same; rfl, (by decide : 0 ∈ [9, 7, 0]), (by decide : 7 ∈ [9, 7]),
      nofun, (by decide : 9 ∈ [9]), trivial⟩
  exact ⟨used, free, lists⟩

end FixSizeAllocator

end Cyue
