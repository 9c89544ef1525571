import Mathlib.Data.List.Count
import Mathlib.Logic.Function.Basic
import Mathlib.Tactic.Common

/-!
# Shared blocks with reference counts

A heap of blocks, each with a count of its references and a content.  A block
whose count is zero is free.  `Accounted` ties the counts to a list of the
references that are held somewhere; as long as it is kept, a held block can
be read.
-/

namespace Cyue.Shared

structure Heap (α : Type) where
  next : Nat
  count : Nat → Nat
  contents : Nat → α

namespace Heap

variable {α : Type}

def empty [Inhabited α] : Heap α := ⟨0, fun _ => 0, fun _ => default⟩

def read? (heap : Heap α) (block : Nat) : Option α :=
  if heap.count block = 0 then none else some (heap.contents block)

/-- A fresh block, with one reference; its identity is `heap.next`. -/
def alloc (heap : Heap α) (content : α) : Heap α where
  next := heap.next + 1
  count := Function.update heap.count heap.next 1
  contents := Function.update heap.contents heap.next content

def refer (heap : Heap α) (block : Nat) : Heap α :=
  { heap with count := Function.update heap.count block (heap.count block + 1) }

def unref (heap : Heap α) (block : Nat) : Heap α :=
  { heap with count := Function.update heap.count block (heap.count block - 1) }

def unrefAll (heap : Heap α) (blocks : List Nat) : Heap α := blocks.foldl unref heap

def store (heap : Heap α) (block : Nat) (content : α) : Heap α :=
  { heap with contents := Function.update heap.contents block content }

/-- `held` lists all references to the blocks of the heap. -/
structure Accounted (heap : Heap α) (held : List Nat) : Prop where
  count : ∀ block, heap.count block = held.count block
  known : ∀ block ∈ held, block < heap.next

namespace Accounted

variable {heap : Heap α} {held : List Nat}

theorem perm {other : List Nat} (accounted : heap.Accounted held) (same : held.Perm other) :
    heap.Accounted other where
  count block := (accounted.count block).trans (same.count_eq block)
  known block member := accounted.known block (same.mem_iff.mpr member)

theorem empty [Inhabited α] : (Heap.empty : Heap α).Accounted [] := ⟨fun _ => rfl, by simp⟩

theorem read? (accounted : heap.Accounted held) {block : Nat} (member : block ∈ held) :
    heap.read? block = some (heap.contents block) := by
  have positive : 0 < held.count block := List.count_pos_iff.mpr member
  rw [← accounted.count] at positive
  exact if_neg (Nat.ne_of_gt positive)

theorem alloc (accounted : heap.Accounted held) (content : α) :
    (heap.alloc content).Accounted (heap.next :: held) := by
  have unknown : heap.next ∉ held := fun member =>
    Nat.lt_irrefl _ (accounted.known heap.next member)
  constructor
  · intro block
    by_cases same : block = heap.next
    · subst same
      simp [Heap.alloc, List.count_eq_zero.mpr unknown]
    · simp [Heap.alloc, Function.update_of_ne same, accounted.count, Ne.symm same]
  · intro block member
    rcases List.mem_cons.mp member with rfl | older
    · exact Nat.lt_succ_self _
    · exact Nat.lt_succ_of_lt (accounted.known block older)

theorem refer (accounted : heap.Accounted held) {block : Nat} (member : block ∈ held) :
    (heap.refer block).Accounted (block :: held) := by
  constructor
  · intro other
    by_cases same : other = block
    · subst same
      simp [Heap.refer, accounted.count]
    · simp [Heap.refer, Function.update_of_ne same, accounted.count, Ne.symm same]
  · intro other inside
    rcases List.mem_cons.mp inside with rfl | older
    · exact accounted.known _ member
    · exact accounted.known other older

theorem unref {block : Nat} (accounted : heap.Accounted (block :: held)) :
    (heap.unref block).Accounted held := by
  constructor
  · intro other
    by_cases same : other = block
    · subst same
      simp [Heap.unref, accounted.count]
    · simp [Heap.unref, Function.update_of_ne same, accounted.count, Ne.symm same]
  · intro other inside
    exact accounted.known other (List.mem_cons_of_mem _ inside)

theorem unrefAll {blocks : List Nat} (accounted : heap.Accounted (blocks ++ held)) :
    (heap.unrefAll blocks).Accounted held := by
  induction blocks generalizing heap with
  | nil => exact accounted
  | cons block rest ih => exact ih accounted.unref

theorem store (accounted : heap.Accounted held) (block : Nat) (content : α) :
    (heap.store block content).Accounted held := ⟨accounted.count, accounted.known⟩

end Accounted

@[simp] theorem unrefAll_contents (heap : Heap α) (blocks : List Nat) :
    (heap.unrefAll blocks).contents = heap.contents := by
  induction blocks generalizing heap with
  | nil => rfl
  | cons block rest ih => exact ih (heap.unref block)

theorem alloc_contents_of_lt (heap : Heap α) (content : α) {block : Nat}
    (known : block < heap.next) : (heap.alloc content).contents block = heap.contents block :=
  Function.update_of_ne (Nat.ne_of_lt known) _ _

@[simp] theorem alloc_contents_next (heap : Heap α) (content : α) :
    (heap.alloc content).contents heap.next = content :=
  Function.update_self _ _ _

@[simp] theorem store_contents_self (heap : Heap α) (block : Nat) (content : α) :
    (heap.store block content).contents block = content :=
  Function.update_self _ _ _

theorem store_contents_of_ne (heap : Heap α) {block other : Nat} (content : α)
    (different : other ≠ block) :
    (heap.store block content).contents other = heap.contents other :=
  Function.update_of_ne different _ _

end Heap

end Cyue.Shared
