import Mathlib.Data.List.Basic
import Mathlib.Data.List.Nodup
import Mathlib.Logic.Function.Basic
import Mathlib.Tactic.Common

/-!
# Chains of linked cells

`next` gives for each cell the link to its successor, `none` being the null
link.  A segment is the list of cells met between two links, and a chain is a
segment that ends at the null link.
-/

namespace Cyue.Chain

variable {ρ : Type*} {next next' : ρ → Option ρ}

/-- Following `next` from `p` through exactly the cells of the list leads to `q`. -/
def Segment (next : ρ → Option ρ) : Option ρ → List ρ → Option ρ → Prop
  | p, [], q => p = q
  | p, a :: l, q => p = some a ∧ Segment next (next a) l q

@[simp] theorem segment_nil {p q : Option ρ} : Segment next p [] q ↔ p = q := Iff.rfl

@[simp] theorem segment_cons {p q : Option ρ} {a : ρ} {l : List ρ} :
    Segment next p (a :: l) q ↔ p = some a ∧ Segment next (next a) l q := Iff.rfl

/-- Segments are chained at a common link. -/
theorem segment_append {l m : List ρ} {p q : Option ρ} :
    Segment next p (l ++ m) q ↔ ∃ r, Segment next p l r ∧ Segment next r m q := by
  induction l generalizing p with
  | nil =>
      constructor
      · intro whole
        exact ⟨p, rfl, whole⟩
      · rintro ⟨r, rfl, whole⟩
        exact whole
  | cons a l ih =>
      constructor
      · rintro ⟨first, whole⟩
        obtain ⟨r, left, right⟩ := ih.mp whole
        exact ⟨r, ⟨first, left⟩, right⟩
      · rintro ⟨r, ⟨first, left⟩, right⟩
        exact ⟨first, ih.mpr ⟨r, left, right⟩⟩

/-- A segment depends on the links of its own cells. -/
theorem Segment.congr {l : List ρ} {p q : Option ρ} (segment : Segment next p l q)
    (same : ∀ a, a ∈ l → next' a = next a) : Segment next' p l q := by
  induction l generalizing p with
  | nil => exact segment
  | cons a l ih =>
      refine ⟨segment.1, ?_⟩
      rw [same a List.mem_cons_self]
      exact ih segment.2 fun b member => same b (List.mem_cons_of_mem a member)

/-- Writing the link of another cell leaves a segment alone. -/
theorem Segment.update [DecidableEq ρ] {l : List ρ} {p q link : Option ρ} {c : ρ}
    (segment : Segment next p l q) (outside : c ∉ l) :
    Segment (Function.update next c link) p l q := by
  apply segment.congr
  intro a member
  refine Function.update_of_ne ?_ ..
  rintro rfl
  exact outside member

/-- A link starts one chain only. -/
theorem Segment.unique {l m : List ρ} {p : Option ρ} (left : Segment next p l none)
    (right : Segment next p m none) : l = m := by
  induction l generalizing p m with
  | nil =>
      cases m with
      | nil => rfl
      | cons b m => exact nomatch left.symm.trans right.1
  | cons a l ih =>
      cases m with
      | nil => exact nomatch right.symm.trans left.1
      | cons b m =>
          obtain rfl : a = b := Option.some.inj (left.1.symm.trans right.1)
          rw [ih left.2 right.2]

/-- A chain that ends meets no cell twice. -/
theorem Segment.nodup {l : List ρ} {p : Option ρ} (chain : Segment next p l none) :
    l.Nodup := by
  induction l generalizing p with
  | nil => exact List.nodup_nil
  | cons a l ih =>
      refine List.nodup_cons.mpr ⟨fun again => ?_, ih chain.2⟩
      obtain ⟨left, right, rfl⟩ := List.append_of_mem again
      obtain ⟨r, _, tail⟩ := segment_append.mp chain.2
      have again : Segment next (some a) (a :: right) none := ⟨rfl, tail.2⟩
      have equal : a :: (left ++ a :: right) = a :: right :=
        Segment.unique ⟨rfl, chain.2⟩ again
      have lengths := congrArg List.length equal
      simp only [List.length_cons, List.length_append] at lengths
      omega

/-- The link that starts a chain leads to its first cell. -/
theorem Segment.start_eq {l : List ρ} {p : Option ρ} (chain : Segment next p l none) :
    p = l.head? := by
  cases l with
  | nil => exact chain
  | cons a l => exact chain.1

/-- The link that starts a chain is null or one of its cells. -/
theorem Segment.start_mem {l : List ρ} {p : Option ρ} {a : ρ} (chain : Segment next p l none)
    (start : p = some a) : a ∈ l := by
  cases l with
  | nil => exact nomatch start.symm.trans chain
  | cons b l =>
      obtain rfl : a = b := Option.some.inj (start.symm.trans chain.1)
      exact List.mem_cons_self

/-- A chain holds the successors of its cells. -/
theorem Segment.next_mem {l : List ρ} {p : Option ρ} {a b : ρ} (chain : Segment next p l none)
    (member : a ∈ l) (link : next a = some b) : b ∈ l := by
  induction l generalizing p with
  | nil => exact nomatch member
  | cons c l ih =>
      rcases List.mem_cons.mp member with rfl | rest
      · exact List.mem_cons_of_mem _ (Segment.start_mem chain.2 link)
      · exact List.mem_cons_of_mem _ (ih chain.2 rest)

/-- A cell is linked behind the last cell of a chain. -/
theorem Segment.snoc [DecidableEq ρ] {l : List ρ} {b c : ρ} {p : Option ρ}
    (chain : Segment next p (l ++ [b]) none) (outside : c ∉ l ++ [b]) :
    Segment (Function.update (Function.update next c none) b (some c)) p (l ++ [b] ++ [c])
      none := by
  have distinct := chain.nodup
  have other : c ≠ b := by
    rintro rfl
    exact outside (List.mem_append_right l List.mem_cons_self)
  obtain ⟨r, left, rfl, _⟩ := segment_append.mp chain
  have before : b ∉ l := by
    intro member
    exact (List.nodup_append.mp distinct).2.2 b member b List.mem_cons_self rfl
  rw [List.append_assoc]
  refine segment_append.mpr ⟨some b, ?_, rfl, ?_, ?_⟩
  · exact (left.update fun member => outside (List.mem_append_left _ member)).update before
  · exact Function.update_self ..
  · rw [Function.update_of_ne other, Function.update_self]
    exact rfl

/-- A cell in front of another one is linked past it. -/
theorem Segment.bypass [DecidableEq ρ] {l r : List ρ} {b c : ρ} {p : Option ρ}
    (chain : Segment next p (l ++ b :: c :: r) none) :
    Segment (Function.update next b (next c)) p (l ++ b :: r) none := by
  have distinct := chain.nodup
  obtain ⟨_, left, rfl, _, right⟩ := segment_append.mp chain
  have before : b ∉ l := by
    intro member
    exact (List.nodup_append.mp distinct).2.2 b member b List.mem_cons_self rfl
  have behind : b ∉ r := by
    intro member
    exact (List.nodup_cons.mp (List.nodup_append.mp distinct).2.1).1
      (List.mem_cons_of_mem c member)
  refine segment_append.mpr ⟨some b, left.update before, rfl, ?_⟩
  rw [Function.update_self]
  exact right.update behind

/-- The link behind a cell leads to the rest of its chain. -/
theorem Segment.next_eq {l r : List ρ} {c : ρ} {p : Option ρ}
    (chain : Segment next p (l ++ c :: r) none) : next c = r.head? := by
  obtain ⟨_, _, _, right⟩ := segment_append.mp chain
  cases r with
  | nil => exact right
  | cons b r => exact right.1

/-! ## Links back -/

/-- `prev` leads from each cell to the one in front of it, and from the first
one to `q`. -/
def Back (prev : ρ → Option ρ) : Option ρ → List ρ → Prop
  | _, [] => True
  | q, a :: l => prev a = q ∧ Back prev (some a) l

variable {prev prev' : ρ → Option ρ}

theorem Back.congr {l : List ρ} {q : Option ρ} (back : Back prev q l)
    (same : ∀ a, a ∈ l → prev' a = prev a) : Back prev' q l := by
  induction l generalizing q with
  | nil => trivial
  | cons a l ih =>
      refine ⟨(same a List.mem_cons_self).trans back.1, ?_⟩
      exact ih back.2 fun b member => same b (List.mem_cons_of_mem a member)

theorem Back.update [DecidableEq ρ] {l : List ρ} {q link : Option ρ} {c : ρ}
    (back : Back prev q l) (outside : c ∉ l) : Back (Function.update prev c link) q l := by
  apply back.congr
  intro a member
  refine Function.update_of_ne ?_ ..
  rintro rfl
  exact outside member

/-- The link back of a cell leads to the one in front of it. -/
theorem Back.prev_eq {l r : List ρ} {q : Option ρ} {c : ρ} (back : Back prev q (l ++ c :: r)) :
    prev c = l.getLast?.or q := by
  induction l generalizing q with
  | nil => exact back.1
  | cons a l ih =>
      rw [ih back.2]
      cases l with
      | nil => rfl
      | cons b l =>
          rw [List.getLast?_cons_cons, List.getLast?_eq_some_getLast (List.cons_ne_nil b l)]
          rfl

/-- The first cell of a chain is linked back anew. -/
theorem Back.relink [DecidableEq ρ] {l : List ρ} {q link : Option ρ} (back : Back prev q l)
    (distinct : l.Nodup) :
    Back (l.head?.elim prev fun first => Function.update prev first link) link l := by
  cases l with
  | nil => trivial
  | cons a l =>
      refine ⟨Function.update_self .., ?_⟩
      exact back.2.update (List.nodup_cons.mp distinct).1

/-- A cell is put in front of a chain, whose first cell is linked back to it. -/
theorem Back.pushFront [DecidableEq ρ] {l : List ρ} {q : Option ρ} {c : ρ} (back : Back prev q l)
    (outside : c ∉ l) (distinct : l.Nodup) :
    Back (l.head?.elim (Function.update prev c none) fun first =>
      Function.update (Function.update prev c none) first (some c)) none (c :: l) := by
  have fresh : Back (Function.update prev c none) q l := back.update outside
  have relinked : Back _ (some c) l := fresh.relink distinct
  refine ⟨?_, relinked⟩
  cases l with
  | nil => exact Function.update_self ..
  | cons first l =>
      have other : c ≠ first := fun same => outside (same ▸ List.mem_cons_self)
      exact (Function.update_of_ne other ..).trans (Function.update_self ..)

/-- A cell leaves its chain: the one behind it is linked to the one in front. -/
theorem Back.bypass [DecidableEq ρ] {l r : List ρ} {q : Option ρ} {c : ρ}
    (back : Back prev q (l ++ c :: r)) (distinct : (l ++ c :: r).Nodup) :
    Back (r.head?.elim prev fun first => Function.update prev first (prev c)) q (l ++ r) := by
  induction l generalizing q with
  | nil =>
      rw [back.1]
      exact Back.relink back.2 (List.nodup_cons.mp distinct).2
  | cons a l ih =>
      obtain ⟨absent, rest⟩ := List.nodup_cons.mp distinct
      refine ⟨?_, ih back.2 rest⟩
      cases r with
      | nil => exact back.1
      | cons b r =>
          refine (Function.update_of_ne ?_ ..).trans back.1
          rintro rfl
          exact absent (List.mem_append_right l (List.mem_cons_of_mem c List.mem_cons_self))

/-- A cell leaves its chain: what is in front of it, a cell or the start, is
linked to the one behind it. -/
theorem Segment.leave [DecidableEq ρ] {l r : List ρ} {c : ρ} {p : Option ρ}
    (chain : Segment next p (l ++ c :: r) none) (back : Back prev none (l ++ c :: r)) :
    Segment ((prev c).elim next fun b => Function.update next b (next c))
      ((prev c).elim (next c) fun _ => p) (l ++ r) none := by
  have link : prev c = l.getLast? := back.prev_eq.trans (Option.or_none ..)
  rcases List.eq_nil_or_concat' l with rfl | ⟨l, b, rfl⟩
  · have first : prev c = none := link
    rw [first]
    exact chain.2
  · have last : prev c = some b := by rw [link, List.getLast?_concat]
    rw [last]
    rw [List.append_assoc] at chain ⊢
    exact chain.bypass

/-! ## Tables of chains -/

/-- The table starts a chain at every index, which is linked back, and no cell is in two chains. -/
structure Buckets {ι : Type*} (table : ι → Option ρ) (next prev : ρ → Option ρ)
    (bucket : ι → List ρ) : Prop where
  chain : ∀ h, Segment next (table h) (bucket h) none
  back : ∀ h, Back prev none (bucket h)
  apart : ∀ h h' a, a ∈ bucket h → a ∈ bucket h' → h = h'

section

variable {ι : Type*} [DecidableEq ι] {table : ι → Option ρ} {bucket : ι → List ρ} {h h' : ι} {a c : ρ}
  {l r : List ρ}

theorem mem_pushed :
    a ∈ Function.update bucket h (c :: bucket h) h' ↔ a = c ∧ h' = h ∨ a ∈ bucket h' := by
  rw [Function.update_apply]
  split
  case isTrue same =>
      subst same
      rw [List.mem_cons, and_iff_left rfl]
  case isFalse other => exact (or_iff_right fun both => other both.2).symm

/-- A cell of no chain becomes the first one of a chain. -/
theorem Buckets.pushFront [DecidableEq ρ] (buckets : Buckets table next prev bucket)
    (outside : ∀ h, c ∉ bucket h) (h : ι) :
    Buckets (Function.update table h (some c)) (Function.update next c (table h))
      ((table h).elim (Function.update prev c none) fun first =>
        Function.update (Function.update prev c none) first (some c))
      (Function.update bucket h (c :: bucket h)) where
  chain h' := by
    by_cases same : h' = h
    · subst same
      rw [Function.update_self, Function.update_self]
      refine ⟨rfl, ?_⟩
      rw [Function.update_self]
      exact (buckets.chain h').update (outside h')
    · rw [Function.update_of_ne same, Function.update_of_ne same]
      exact (buckets.chain h').update (outside h')
  back h' := by
    rw [(buckets.chain h).start_eq]
    by_cases same : h' = h
    · subst same
      rw [Function.update_self]
      exact (buckets.back h').pushFront (outside h') (buckets.chain h').nodup
    · rw [Function.update_of_ne same]
      have kept : Back (Function.update prev c none) none (bucket h') :=
        (buckets.back h').update (outside h')
      cases start : (bucket h).head? with
      | none => exact kept
      | some first =>
          refine kept.update fun member => same ?_
          exact buckets.apart h' h first member (List.mem_of_head? start)
  apart h₁ h₂ a left right := by
    rcases mem_pushed.mp left with ⟨rfl, rfl⟩ | before
    · rcases mem_pushed.mp right with ⟨-, rfl⟩ | before'
      · rfl
      · exact absurd before' (outside h₂)
    · rcases mem_pushed.mp right with ⟨rfl, -⟩ | before'
      · exact absurd before (outside h₁)
      · exact buckets.apart h₁ h₂ a before before'

/-- What is in the chains when a cell has left its own. -/
theorem Buckets.mem_left (buckets : Buckets table next prev bucket)
    (split : bucket h = l ++ c :: r) :
    a ∈ Function.update bucket h (l ++ r) h' ↔ a ≠ c ∧ a ∈ bucket h' := by
  have distinct := (buckets.chain h).nodup
  rw [split] at distinct
  have outside : c ∉ l ++ r := (List.nodup_cons.mp (List.nodup_middle.mp distinct)).1
  by_cases same : h' = h
  · subst same
    rw [Function.update_self, split, List.mem_append, List.mem_append, List.mem_cons]
    constructor
    · intro either
      refine ⟨?_, either.imp_right .inr⟩
      rintro rfl
      exact outside (List.mem_append.mpr either)
    · rintro ⟨other, left | same | right⟩
      · exact .inl left
      · exact absurd same other
      · exact .inr right
  · rw [Function.update_of_ne same]
    refine (and_iff_right_of_imp fun again => ?_).symm
    rintro rfl
    have here : a ∈ bucket h := split ▸ List.mem_append_right l List.mem_cons_self
    exact same (buckets.apart h' h a again here)

/-- A cell leaves its chain, and the other chains are as they were. -/
theorem Buckets.unlink [DecidableEq ρ] (buckets : Buckets table next prev bucket)
    (split : bucket h = l ++ c :: r) :
    Buckets ((prev c).elim (Function.update table h (next c)) fun _ => table)
      ((prev c).elim next fun b => Function.update next b (next c))
      ((next c).elim prev fun first => Function.update prev first (prev c))
      (Function.update bucket h (l ++ r)) where
  chain h' := by
    have chain := buckets.chain h
    have back := buckets.back h
    rw [split] at chain back
    by_cases same : h' = h
    · subst same
      have start : ((prev c).elim (Function.update table h' (next c)) fun _ => table) h' =
          (prev c).elim (next c) fun _ => table h' := by
        cases prev c with
        | none => exact Function.update_self ..
        | some b => rfl
      rw [Function.update_self, start]
      exact chain.leave back
    · rw [Function.update_of_ne same]
      cases before : prev c with
      | none =>
          have start : Function.update table h (next c) h' = table h' := Function.update_of_ne same ..
          dsimp only [Option.elim_none]
          rw [start]
          exact buckets.chain h'
      | some b =>
          refine (buckets.chain h').update fun again => same ?_
          have link : l.getLast? = some b := by rw [← before, back.prev_eq, Option.or_none]
          have here : b ∈ bucket h := split ▸ List.mem_append_left _ (List.mem_of_getLast? link)
          exact buckets.apart h' h b again here
  back h' := by
    have chain := buckets.chain h
    have back := buckets.back h
    rw [split] at chain back
    rw [chain.next_eq]
    by_cases same : h' = h
    · subst same
      rw [Function.update_self]
      exact back.bypass chain.nodup
    · rw [Function.update_of_ne same]
      cases r with
      | nil => exact buckets.back h'
      | cons b r =>
          refine (buckets.back h').update fun again => same ?_
          have here : b ∈ bucket h :=
            split ▸ List.mem_append_right l (List.mem_cons_of_mem c List.mem_cons_self)
          exact buckets.apart h' h b again here
  apart h₁ h₂ a left right := by
    obtain ⟨-, left⟩ := (buckets.mem_left split).mp left
    obtain ⟨-, right⟩ := (buckets.mem_left split).mp right
    exact buckets.apart h₁ h₂ a left right

end

end Cyue.Chain
