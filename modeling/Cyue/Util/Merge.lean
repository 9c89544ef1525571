import Cyue.Lib.Chain
import Cyue.Util.Mpsc

/-!
# What the consumer pops is a merge

The chunks from the reader's to that of `m_wp` hold what was published and not
popped.  Each position that was handed out belongs to one producer until it is
published; the one with the last position is alone when `m_wp` has reached it.
-/

namespace Cyue.Mpsc

open Chain

variable {α : Type*} {N : ℕ} {s t : Mpsc α} {front frees : List ℕ} {link : Option ℕ}
  {swap : Option (ℕ × α × Swap)} {i : ℕ} {v : α}

/-! ## What the threads hold -/

/-- The chunk that `expand` has and has not linked. -/
def held : Swap → Option ℕ
  | .clear _ f => some f
  | .join _ f => some f
  | .link _ f _ => some f
  | _ => none

/-- The chunk that the consumer has left and not put into the cache. -/
def spare : Consumer → Option ℕ
  | .freeing c => some c
  | .caching c => some c
  | _ => none

/-- The position that a producer has got, but for the last one. -/
def ticket : Producer α → Option ℕ
  | .first _ k => some k
  | .second _ k _ => some k
  | .write _ k _ _ => some k
  | .publish _ k _ _ => some k
  | _ => none

def swapping : Producer α → Option (α × Swap)
  | .swap v x => some (v, x)
  | _ => none

/-- The element of a call under way, as long as it is not published. -/
def pending : Producer α → List α
  | .outside => []
  | .start v => [v]
  | .spin v => [v]
  | .first v _ => [v]
  | .second v _ _ => [v]
  | .write v _ _ _ => [v]
  | .publish v _ _ _ => [v]
  | .swap v x => if x = .reset then [] else [v]

/-- What a producer has read is the chunk `w`, and its element stands there. -/
def Fits (w : ℕ) (p : ℕ → ℕ → α) : Producer α → Prop
  | .second _ _ c => c = w
  | .write _ _ c c' => c = w ∧ c' = w
  | .publish v k c c' => c = w ∧ c' = w ∧ p w (k - 1) = v
  | _ => True

/-- What the thread knows that swaps the chunks: `w` and `j` are `m_wp`, `m` is
`m_w`, and `link` is the chunk behind `w`. -/
def SwapFits (N w j m : ℕ) (p : ℕ → ℕ → α) (next : ℕ → Option ℕ) (link : Option ℕ) (v : α) :
    Swap → Prop
  | .last => m = w ∧ link = none
  | .write c => m = w ∧ c = w ∧ link = none
  | .look c => m = w ∧ c = w ∧ link = none ∧ p w (N - 1) = v
  | .test c d => m = w ∧ c = w ∧ link = none ∧ p w (N - 1) = v ∧ d = w
  | .cache c => m = w ∧ c = w ∧ link = none ∧ p w (N - 1) = v
  | .allocate c => m = w ∧ c = w ∧ link = none ∧ p w (N - 1) = v
  | .clear c _ => m = w ∧ c = w ∧ link = none ∧ p w (N - 1) = v
  | .join c f => m = w ∧ c = w ∧ link = none ∧ p w (N - 1) = v ∧ next f = none
  | .link c f d => m = w ∧ c = w ∧ link = none ∧ p w (N - 1) = v ∧ next f = none ∧ d = w
  | .ahead c => m = w ∧ c = w ∧ (∃ e, link = some e) ∧ p w (N - 1) = v
  | .follow c d => m = w ∧ c = w ∧ (∃ e, link = some e) ∧ p w (N - 1) = v ∧ d = w
  | .wait c e => m = w ∧ c = w ∧ link = some e ∧ p w (N - 1) = v
  | .turn c e => m = w ∧ c = w ∧ link = some e ∧ p w (N - 1) = v ∧ j = N - 1
  | .next c e d => m = w ∧ c = w ∧ link = some e ∧ p w (N - 1) = v ∧ j = N - 1 ∧ d = w
  | .move c e e' => m = w ∧ c = w ∧ link = some e ∧ p w (N - 1) = v ∧ j = N - 1 ∧ e' = e
  | .publish c e => m = e ∧ c = w ∧ link = some e ∧ p w (N - 1) = v ∧ j = N - 1
  | .reset => m = w ∧ link = none ∧ j = 0

/-- Where the consumer stands in its first chunk, of `front` and the one that `m_wp`
has reached position `j` of. -/
def ReaderFits (N j : ℕ) (k : Cursor) (front : List ℕ) : Consumer → Prop
  | .outside => k.ptr = Queue.current k.c k.pos ∧ k.pos < N ∧ (front = [] → k.pos ≤ j)
  | .ready => k.ptr = Queue.current k.c k.pos ∧ k.pos < N ∧ (front = [] → k.pos < j)
  | .spent => k.pos = N ∧ front ≠ []
  | .moving => k.pos < N ∧ (front = [] → k.pos ≤ j)
  | _ => True

/-- How much of its first chunk the consumer has read. -/
def offset (pos : ℕ) : Consumer → ℕ
  | .freeing _ => 0
  | .caching _ => 0
  | _ => pos

/-- What the chunks hold up to position `j` of `w`. -/
def written (N : ℕ) (p : ℕ → ℕ → α) (front : List ℕ) (w j : ℕ) : List α :=
  (front.flatMap fun c => (List.range N).map (p c)) ++ (List.range j).map (p w)

/-- The elements of producer `i` that were published. -/
def publishedBy (published : List (ℕ × α)) (i : ℕ) : List α :=
  (published.filter fun e => e.1 = i).map Prod.snd

/-- The chunk and the position of `m_wp` -/
def wc (q : Queue α) : ℕ := q.writer.ptr.1
def wj (q : Queue α) : ℕ := q.writer.ptr.2

def apart (swap : Option (ℕ × α × Swap)) (consumer : Consumer) (frees : List ℕ) : List ℕ :=
  (swap.bind fun y => held y.2.2).toList ++ ((spare consumer).toList ++ frees)

structure Chunks (q : Queue α) (front frees : List ℕ) (link : Option ℕ) (apart : List ℕ) :
    Prop where
  chain : Segment q.next (some q.reader.c) (front ++ wc q :: link.toList) none
  cached : Segment q.next q.free frees none
  distinct : apart.Nodup
  disjoint : (front ++ wc q :: link.toList).Disjoint apart
  live : ∀ a, a ∈ front ++ wc q :: link.toList ∨ a ∈ apart → q.live a = true

/-- The positions of the writer's chunk and who has them. -/
structure Positions (N : ℕ) (q : Queue α) (producer : ℕ → Producer α) (link : Option ℕ)
    (swap : Option (ℕ × α × Swap)) : Prop where
  below : wj q < N
  reserved : wj q ≤ q.writer.pos
  swapper : ∀ i y, swapping (producer i) = some y ↔ swap = some (i, y)
  fits : ∀ i v x, swap = some (i, v, x) →
    N ≤ q.writer.pos ∧ SwapFits N (wc q) (wj q) q.writer.c q.p q.next link v x
  unlinked : swap = none → link = none ∧ q.writer.c = wc q
  ticket : ∀ i k, ticket (producer i) = some k →
    wj q < k ∧ k ≤ q.writer.pos ∧ k < N ∧ ∀ i' v, swap ≠ some (i', v, .reset)
  unique : ∀ i i' k, Mpsc.ticket (producer i) = some k → Mpsc.ticket (producer i') = some k → i = i'
  own : ∀ i, Fits (wc q) q.p (producer i)

/-- Each producer's elements were published, but for the one of the call under way. -/
def Sequences (issued : ℕ → List α) (published : List (ℕ × α)) (producer : ℕ → Producer α) : Prop :=
  ∀ i, issued i = publishedBy published i ++ pending (producer i)

/-- What was published is what was popped, and what the chunks hold unread. -/
structure Elements (N : ℕ) (q : Queue α) (consumer : Consumer) (published : List (ℕ × α))
    (popped : List α) (front : List ℕ) : Prop where
  reader : ReaderFits N (wj q) q.reader front consumer
  contents : published.map Prod.snd =
    popped ++ (written N q.p front (wc q) (wj q)).drop (offset q.reader.pos consumer)

structure Inv (N : ℕ) (s : Mpsc α) (front frees : List ℕ) (link : Option ℕ)
    (swap : Option (ℕ × α × Swap)) : Prop where
  chunks : Chunks s.q front frees link (apart swap s.consumer frees)
  positions : Positions N s.q s.producer link swap
  sequences : Sequences s.issued s.published s.producer
  elements : Elements N s.q s.consumer s.published s.popped front

theorem init_inv (positive : 0 < N) (c : ℕ) (p : ℕ → ℕ → α) : (init c p).Inv N [] [] none none where
  chunks := {
    chain := ⟨rfl, rfl⟩
    cached := rfl
    distinct := List.nodup_nil
    disjoint := List.disjoint_nil_right _
    live := fun a member => by
      rcases member with member | member
      · exact decide_eq_true (List.mem_singleton.mp member)
      · exact nomatch member }
  positions := {
    below := positive
    reserved := Nat.le_refl 0
    swapper := fun i y => ⟨nofun, nofun⟩
    fits := nofun
    unlinked := fun _ => ⟨rfl, rfl⟩
    ticket := nofun
    unique := nofun
    own := fun _ => trivial }
  sequences := fun _ => rfl
  elements := {
    reader := ⟨rfl, positive, fun _ => Nat.le_refl 0⟩
    contents := rfl }

/-! ## The producers below the last position -/

/-- What holds of the producer that goes on and of the others holds of all. -/
theorem update_all {producer : ℕ → Producer α} {P : ℕ → Producer α → Prop} {pc : Producer α}
    (own : P i pc) (others : ∀ i', i' ≠ i → P i' (producer i')) (i' : ℕ) :
    P i' (Function.update producer i pc i') := by
  by_cases same : i' = i
  · subst same
    rw [Function.update_self]
    exact own
  · rw [Function.update_of_ne same]
    exact others i' same

variable {q : Queue α} {producer : ℕ → Producer α} {pc : Producer α} {pos : ℕ}

/-- The thread that swaps the chunks depends on the last element only. -/
theorem swapFits_congr {w j m : ℕ} {p p' : ℕ → ℕ → α} {next : ℕ → Option ℕ} {x : Swap}
    (fits : SwapFits N w j m p next link v x) (same : p' w (N - 1) = p w (N - 1)) :
    SwapFits N w j m p' next link v x := by
  cases x <;> simpa only [SwapFits, same] using fits

/-- A producer goes on that does not swap the chunks. -/
theorem Positions.set {q' : Queue α} (pc : Producer α) (positions : Positions N q producer link swap)
    (quiet : swapping (producer i) = none) (quiet' : swapping pc = none)
    (tickets : ∀ k, Mpsc.ticket pc = some k → Mpsc.ticket (producer i) = some k)
    (ptr : q'.writer.ptr = q.writer.ptr) (here : q'.writer.c = q.writer.c)
    (next : q'.next = q.next) (top : q'.p (wc q) (N - 1) = q.p (wc q) (N - 1))
    (le : q.writer.pos ≤ q'.writer.pos) (fits : Fits (wc q) q'.p pc)
    (others : ∀ i', i' ≠ i → Fits (wc q) q'.p (producer i')) :
    Positions N q' (Function.update producer i pc) link swap := by
  have same : wc q' = wc q ∧ wj q' = wj q := by
    rw [wc, wj, ptr]
    exact ⟨rfl, rfl⟩
  have kept : ∀ i' k, Mpsc.ticket (Function.update producer i pc i') = some k →
      Mpsc.ticket (producer i') = some k :=
    update_all (P := fun i' pc => ∀ k, Mpsc.ticket pc = some k →
      Mpsc.ticket (producer i') = some k) tickets fun _ _ _ => id
  constructor
  · exact same.2 ▸ positions.below
  · exact same.2 ▸ Nat.le_trans positions.reserved le
  · refine update_all (P := fun i' pc => ∀ y, swapping pc = some y ↔ swap = some (i', y)) ?_ ?_
    · intro y
      rw [quiet', ← positions.swapper i y, quiet]
    · exact fun i' _ => positions.swapper i'
  · intro i' v x swaps
    obtain ⟨full, fits⟩ := positions.fits i' v x swaps
    rw [same.1, same.2, here, next]
    exact ⟨Nat.le_trans full le, swapFits_congr fits top⟩
  · intro nobody
    rw [same.1, here]
    exact positions.unlinked nobody
  · intro i' k has
    obtain ⟨free, within, below, alone⟩ := positions.ticket i' k (kept i' k has)
    exact ⟨same.2 ▸ free, Nat.le_trans within le, below, alone⟩
  · intro i₁ i₂ k has has'
    exact positions.unique i₁ i₂ k (kept i₁ k has) (kept i₂ k has')
  · rw [same.1]
    exact update_all (P := fun _ pc => Fits (wc q) q'.p pc) fits others

/-- The producer goes on with the same element. -/
theorem Sequences.set {issued : ℕ → List α} {published : List (ℕ × α)}
    (sequences : Sequences issued published producer)
    (same : pending pc = pending (producer i)) :
    Sequences issued published (Function.update producer i pc) := by
  refine update_all (P := fun i pc => issued i = publishedBy published i ++ pending pc) ?_ ?_
  · rw [same]
    exact sequences i
  · exact fun i' _ => sequences i'

/-- A producer goes on with what it has. -/
theorem Inv.set (inv : s.Inv N front frees link swap)
    (quiet : swapping (s.producer i) = none) (quiet' : swapping pc = none)
    (tickets : ∀ k, Mpsc.ticket pc = some k → Mpsc.ticket (s.producer i) = some k)
    (fits : Fits (wc s.q) s.q.p pc) (le : s.q.writer.pos ≤ pos)
    (same : pending pc = pending (s.producer i)) :
    ((s.setWriter { s.q.writer with pos := pos }).set i pc).Inv N front frees link swap where
  chunks := ⟨inv.chunks.chain, inv.chunks.cached, inv.chunks.distinct, inv.chunks.disjoint,
    inv.chunks.live⟩
  positions := inv.positions.set pc quiet quiet' tickets rfl rfl rfl rfl le fits
    fun i' _ => inv.positions.own i'
  sequences := inv.sequences.set same
  elements := ⟨inv.elements.reader, inv.elements.contents⟩

theorem call_inv (inv : s.Inv N front frees link swap) (outside : s.producer i = .outside) :
    ({ s.set i (.start v) with
      issued := Function.update s.issued i (s.issued i ++ [v]) } : Mpsc α).Inv N front frees link
        swap := by
  have quiet : swapping (s.producer i) = none := by
    rw [outside]
    rfl
  have positions := inv.positions.set (.start v) quiet rfl nofun rfl rfl rfl rfl (Nat.le_refl _)
    trivial fun i' _ => inv.positions.own i'
  refine ⟨inv.chunks, positions, ?_, inv.elements⟩
  intro i'
  by_cases same : i' = i
  · subst same
    have before := inv.sequences i'
    rw [outside] at before
    simp only [set, Function.update_self, before, pending, List.append_nil]
  · simp only [set, Function.update_of_ne same]
    exact inv.sequences i'

/-- The thread that swaps the chunks goes on, or starts. -/
theorem Positions.swaps {q' : Queue α} {link' : Option ℕ} {x : Swap}
    (positions : Positions N q producer link swap) (only : ∀ i' y, i' ≠ i → swap ≠ some (i', y))
    (ptr : q'.writer.ptr = q.writer.ptr) (le : q.writer.pos ≤ q'.writer.pos)
    (full : N ≤ q'.writer.pos)
    (fits : SwapFits N (wc q) (wj q) q'.writer.c q'.p q'.next link' v x)
    (others : ∀ i', i' ≠ i → Fits (wc q) q'.p (producer i')) (more : x ≠ .reset) :
    Positions N q' (Function.update producer i (.swap v x)) link' (some (i, v, x)) := by
  have same : wc q' = wc q ∧ wj q' = wj q := by
    rw [wc, wj, ptr]
    exact ⟨rfl, rfl⟩
  have kept : ∀ i' k, Mpsc.ticket (Function.update producer i (.swap v x) i') = some k →
      Mpsc.ticket (producer i') = some k :=
    update_all (P := fun i' pc => ∀ k, Mpsc.ticket pc = some k →
      Mpsc.ticket (producer i') = some k) nofun fun _ _ _ => id
  constructor
  · exact same.2 ▸ positions.below
  · exact same.2 ▸ Nat.le_trans positions.reserved le
  · refine update_all (P := fun i' pc => ∀ y, swapping pc = some y ↔
      some (i, v, x) = some (i', y)) ?_ ?_
    · intro y
      constructor
      · rintro ⟨rfl⟩
        rfl
      · rintro ⟨rfl⟩
        rfl
    · intro i' other y
      constructor
      · exact fun here => absurd ((positions.swapper i' y).mp here) (only i' y other)
      · rintro ⟨rfl⟩
        exact absurd rfl other
  · rintro i' v' x' ⟨rfl⟩
    rw [same.1, same.2]
    exact ⟨full, fits⟩
  · exact nofun
  · intro i' k has
    obtain ⟨free, within, below, -⟩ := positions.ticket i' k (kept i' k has)
    refine ⟨same.2 ▸ free, Nat.le_trans within le, below, ?_⟩
    rintro i' v' ⟨rfl⟩
    exact more rfl
  · intro i₁ i₂ k has has'
    exact positions.unique i₁ i₂ k (kept i₁ k has) (kept i₂ k has')
  · rw [same.1]
    exact update_all (P := fun _ pc => Fits (wc q) q'.p pc) trivial others

/-- Nobody swaps the chunks while there are positions left. -/
theorem Positions.swap_none (positions : Positions N q producer link swap)
    (more : q.writer.pos < N) : swap = none := by
  cases swap with
  | none => rfl
  | some y => exact absurd (positions.fits y.1 y.2.1 y.2.2 rfl).1 (Nat.not_le.mpr more)

/-- A producer gets the next position. -/
theorem Positions.reserve (v : α) (positions : Positions N q producer link swap)
    (quiet : swapping (producer i) = none) (more : q.writer.pos + 1 < N) :
    Positions N { q with writer := { q.writer with pos := q.writer.pos + 1 } }
      (Function.update producer i (.first v (q.writer.pos + 1))) link swap := by
  have nobody := positions.swap_none (Nat.lt_of_succ_lt more)
  -- the others have earlier positions
  have earlier : ∀ i' k, Mpsc.ticket (producer i') = some k → k ≤ q.writer.pos :=
    fun i' k has => (positions.ticket i' k has).2.1
  have tickets : ∀ i' k, Mpsc.ticket (Function.update producer i (.first v (q.writer.pos + 1)) i') =
      some k → i' = i ∧ k = q.writer.pos + 1 ∨ Mpsc.ticket (producer i') = some k := by
    refine update_all (P := fun i' pc => ∀ k, Mpsc.ticket pc = some k →
      i' = i ∧ k = q.writer.pos + 1 ∨ Mpsc.ticket (producer i') = some k) ?_ ?_
    · rintro k ⟨rfl⟩
      exact .inl ⟨rfl, rfl⟩
    · exact fun i' _ k has => .inr has
  constructor
  · exact positions.below
  · exact Nat.le_succ_of_le positions.reserved
  · refine update_all (P := fun i' pc => ∀ y, swapping pc = some y ↔ swap = some (i', y)) ?_ ?_
    · intro y
      rw [← positions.swapper i y, quiet]
      rfl
    · exact fun i' _ => positions.swapper i'
  · intro i' v' x here
    exact nomatch nobody.symm.trans here
  · exact positions.unlinked
  · intro i' k has
    rcases tickets i' k has with ⟨rfl, rfl⟩ | has
    · refine ⟨Nat.lt_succ_of_le positions.reserved, Nat.le_refl _, more, ?_⟩
      exact fun i' v' here => nomatch nobody.symm.trans here
    · obtain ⟨free, within, below, alone⟩ := positions.ticket i' k has
      exact ⟨free, Nat.le_succ_of_le within, below, alone⟩
  · intro i₁ i₂ k has has'
    rcases tickets i₁ k has with ⟨rfl, rfl⟩ | had
    · rcases tickets i₂ _ has' with ⟨rfl, -⟩ | had'
      · rfl
      · exact absurd (earlier i₂ _ had') (Nat.not_succ_le_self _)
    · rcases tickets i₂ k has' with ⟨rfl, rfl⟩ | had'
      · exact absurd (earlier i₁ _ had) (Nat.not_succ_le_self _)
      · exact positions.unique i₁ i₂ k had had'
  · exact update_all (P := fun _ pc => Fits (wc q) q.p pc) trivial fun i' _ => positions.own i'

/-- A producer gets the next position, or the last one, or waits for the next chunk. -/
theorem reserve_inv (inv : s.Inv N front frees link swap) (start : s.producer i = .start v) :
    ∃ swap', ((s.setWriter { s.q.writer with pos := s.q.writer.pos + 1 }).set i
      (if s.q.writer.pos + 1 < N then .first v (s.q.writer.pos + 1)
        else if s.q.writer.pos + 1 = N then .swap v .last
        else .spin v)).Inv N front frees link swap' := by
  have quiet : swapping (s.producer i) = none := by
    rw [start]
    rfl
  have waits : pending (s.producer i) = [v] := by
    rw [start]
    rfl
  split
  · next below =>
      exact ⟨swap, ⟨inv.chunks.chain, inv.chunks.cached, inv.chunks.distinct,
        inv.chunks.disjoint, inv.chunks.live⟩, inv.positions.reserve v quiet below,
        inv.sequences.set waits.symm, ⟨inv.elements.reader, inv.elements.contents⟩⟩
  · next full =>
      split
      · next last =>
          have none := inv.positions.swap_none (last ▸ Nat.lt_succ_self _)
          obtain ⟨unlinked, here⟩ := inv.positions.unlinked none
          subst none
          refine ⟨some (i, v, .last), ⟨inv.chunks.chain, inv.chunks.cached, inv.chunks.distinct,
            inv.chunks.disjoint, inv.chunks.live⟩, ?_, inv.sequences.set waits.symm,
            ⟨inv.elements.reader, inv.elements.contents⟩⟩
          exact inv.positions.swaps nofun rfl (Nat.le_succ _) (Nat.le_of_eq last.symm)
            ⟨here, unlinked⟩ (fun i' _ => inv.positions.own i') nofun
      · exact ⟨swap, inv.set quiet rfl nofun trivial (Nat.le_succ _) waits.symm⟩

/-! ## Writing and publishing an element -/

theorem store_other {p : ℕ → ℕ → α} {w m n : ℕ} (other : m ≠ n) :
    Function.update p w (Function.update (p w) n v) w m = p w m := by
  rw [Function.update_self, Function.update_of_ne other]

/-- A producer's element stands where nobody else writes. -/
theorem fits_store {w n : ℕ} {p : ℕ → ℕ → α} (fits : Fits w p pc)
    (other : ∀ k, ticket pc = some k → k - 1 ≠ n) :
    Fits w (Function.update p w (Function.update (p w) n v)) pc := by
  cases pc with
  | publish v' k c c' =>
      obtain ⟨same, same', stored⟩ := fits
      exact ⟨same, same', (store_other (other k rfl)).trans stored⟩
  | second v' k c => exact fits
  | write v' k c c' => exact fits
  | outside => trivial
  | start v' => trivial
  | spin v' => trivial
  | first v' k => trivial
  | swap v' x => trivial

/-- What is written behind `m_wp` is not part of the contents. -/
theorem written_outside {w j n : ℕ} {p : ℕ → ℕ → α} (outside : w ∉ front) (behind : j ≤ n) :
    written N (Function.update p w (Function.update (p w) n v)) front w j =
      written N p front w j := by
  have earlier : (front.flatMap fun c => (List.range N).map
      (Function.update p w (Function.update (p w) n v) c)) =
      front.flatMap fun c => (List.range N).map (p c) := by
    refine List.flatMap_congr fun c member => ?_
    rw [Function.update_of_ne]
    rintro rfl
    exact outside member
  have here : (List.range j).map (Function.update p w (Function.update (p w) n v) w) =
      (List.range j).map (p w) := by
    refine List.map_congr_left fun m member => store_other ?_
    exact Nat.ne_of_lt (Nat.lt_of_lt_of_le (List.mem_range.mp member) behind)
  rw [written, written, earlier, here]

/-- The writer's chunk is not in front of itself. -/
theorem Chunks.outside {apart : List ℕ} (chunks : Chunks q front frees link apart) :
    wc q ∉ front := by
  intro member
  exact (List.nodup_append.mp chunks.chain.nodup).2.2 _ member _ List.mem_cons_self rfl

/-- The element of a producer is written to its position. -/
theorem write_inv {k c c' : ℕ} (inv : s.Inv N front frees link swap)
    (write : s.producer i = .write v k c c') :
    ({ s with q := s.q.store (Queue.current c (k - 1)) v }.set i (.publish v k c c')).Inv N front
      frees link swap := by
  have has : ticket (s.producer i) = some k := by
    rw [write]
    rfl
  have fits := inv.positions.own i
  rw [write] at fits
  obtain ⟨rfl, rfl⟩ := fits
  obtain ⟨free, within, below, alone⟩ := inv.positions.ticket i k has
  have behind : wj s.q ≤ k - 1 := Nat.le_sub_one_of_lt free
  have others : ∀ i', i' ≠ i → ∀ k', ticket (s.producer i') = some k' → k' - 1 ≠ k - 1 := by
    intro i' other k' has' equal
    have free' := (inv.positions.ticket i' k' has').1
    obtain rfl : k' = k := by omega
    exact other (inv.positions.unique i' i k' has' has)
  refine ⟨⟨inv.chunks.chain, inv.chunks.cached, inv.chunks.distinct, inv.chunks.disjoint,
    inv.chunks.live⟩, ?_, inv.sequences.set ?_, ⟨inv.elements.reader, ?_⟩⟩
  · refine inv.positions.set (.publish v k (wc s.q) (wc s.q)) ?_ rfl ?_ rfl rfl rfl ?_ (Nat.le_refl _)
      ⟨rfl, rfl, ?_⟩ fun i' other => fits_store (inv.positions.own i') (others i' other)
    · rw [write]
      rfl
    · rw [write]
      exact fun k => id
    · have other : N - 1 ≠ k - 1 := by omega
      exact store_other other
    · show Function.update s.q.p (wc s.q) (Function.update (s.q.p (wc s.q)) (k - 1) v) (wc s.q)
        (k - 1) = v
      rw [Function.update_self, Function.update_self]
  · rw [write]
    rfl
  · exact inv.elements.contents.trans
      (congrArg (s.popped ++ List.drop _ ·) (written_outside inv.chunks.outside behind).symm)

theorem written_length {w j : ℕ} {p : ℕ → ℕ → α} :
    (written N p front w j).length = front.length * N + j := by
  induction front with
  | nil => simp only [written, List.flatMap_nil, List.nil_append, List.length_map, List.length_range,
      List.length_nil, Nat.zero_mul, Nat.zero_add]
  | cons c front ih =>
      simp only [written, List.flatMap_cons, List.append_assoc, List.length_append, List.length_map,
        List.length_range, List.length_cons, Nat.succ_mul] at ih ⊢
      omega

theorem written_succ {w j : ℕ} {p : ℕ → ℕ → α} :
    written N p front w (j + 1) = written N p front w j ++ [p w j] := by
  rw [written, written, List.range_succ, List.map_append, List.map_singleton, List.append_assoc]

/-- The consumer has not read more than was published. -/
theorem ReaderFits.offset_le {j w : ℕ} {k : Cursor} {consumer : Consumer} {p : ℕ → ℕ → α}
    (fits : ReaderFits N j k front consumer) :
    offset k.pos consumer ≤ (written N p front w j).length := by
  have within (le : k.pos ≤ N) (only : front = [] → k.pos ≤ j) :
      k.pos ≤ (written N p front w j).length := by
    rw [written_length]
    cases front with
    | nil => exact Nat.le_trans (only rfl) (Nat.le_add_left _ _)
    | cons c front =>
        rw [List.length_cons, Nat.succ_mul]
        omega
  cases consumer with
  | outside => exact within (Nat.le_of_lt fits.2.1) fits.2.2
  | ready => exact within (Nat.le_of_lt fits.2.1) fun none => Nat.le_of_lt (fits.2.2 none)
  | spent => exact within (Nat.le_of_eq fits.1) fun none => absurd none fits.2
  | freeing c => exact Nat.zero_le _
  | caching c => exact Nat.zero_le _
  | moving => exact within (Nat.le_of_lt fits.1) fits.2

/-- More is published for the consumer. -/
theorem ReaderFits.mono {j j' : ℕ} {k : Cursor} {consumer : Consumer}
    (fits : ReaderFits N j k front consumer) (le : j ≤ j') : ReaderFits N j' k front consumer := by
  cases consumer with
  | outside => exact ⟨fits.1, fits.2.1, fun none => Nat.le_trans (fits.2.2 none) le⟩
  | ready => exact ⟨fits.1, fits.2.1, fun none => Nat.lt_of_lt_of_le (fits.2.2 none) le⟩
  | spent => exact fits
  | freeing c => trivial
  | caching c => trivial
  | moving => exact ⟨fits.1, fun none => Nat.le_trans (fits.2 none) le⟩

/-- Before `m_wp` has reached the last position the thread that has it does not
depend on `m_wp`. -/
theorem swapFits_advance {w j j' m : ℕ} {p : ℕ → ℕ → α} {next : ℕ → Option ℕ} {x : Swap}
    (fits : SwapFits N w j m p next link v x) (early : j ≠ N - 1) (more : x ≠ .reset) :
    SwapFits N w j' m p next link v x := by
  cases x with
  | turn c e => exact absurd fits.2.2.2.2 early
  | next c e d => exact absurd fits.2.2.2.2.1 early
  | move c e e' => exact absurd fits.2.2.2.2.1 early
  | publish c e => exact absurd fits.2.2.2.2 early
  | reset => exact absurd rfl more
  | last => exact fits
  | write c => exact fits
  | look c => exact fits
  | test c d => exact fits
  | cache c => exact fits
  | allocate c => exact fits
  | clear c f => exact fits
  | join c f => exact fits
  | link c f d => exact fits
  | ahead c => exact fits
  | follow c d => exact fits
  | wait c e => exact fits

/-- `m_wp` passes the position of a producer. -/
theorem Positions.publish {k : ℕ} (positions : Positions N q producer link swap)
    (has : Mpsc.ticket (producer i) = some k) (quiet : swapping (producer i) = none)
    (passed : wj q = k - 1) :
    Positions N { q with writer := { q.writer with ptr := (wc q, k) } }
      (Function.update producer i .outside) link swap := by
  obtain ⟨free, within, below, alone⟩ := positions.ticket i k has
  have kept : ∀ i' k', Mpsc.ticket (Function.update producer i .outside i') = some k' →
      Mpsc.ticket (producer i') = some k' ∧ i' ≠ i := by
    refine update_all (P := fun i' pc => ∀ k', Mpsc.ticket pc = some k' →
      Mpsc.ticket (producer i') = some k' ∧ i' ≠ i) nofun ?_
    exact fun i' other k' has' => ⟨has', other⟩
  constructor
  · exact below
  · exact within
  · refine update_all (P := fun i' pc => ∀ y, swapping pc = some y ↔ swap = some (i', y)) ?_ ?_
    · intro y
      rw [← positions.swapper i y, quiet]
      rfl
    · exact fun i' _ => positions.swapper i'
  · intro i' v' x swaps
    obtain ⟨full, fits⟩ := positions.fits i' v' x swaps
    refine ⟨full, swapFits_advance fits ?_ ?_⟩
    · omega
    · rintro rfl
      exact alone i' v' swaps
  · exact positions.unlinked
  · intro i' k' has'
    obtain ⟨had, other⟩ := kept i' k' has'
    obtain ⟨free', within', below', alone'⟩ := positions.ticket i' k' had
    refine ⟨?_, within', below', alone'⟩
    have different : k' ≠ k := by
      rintro rfl
      exact other (positions.unique i' i k' had has)
    show k < k'
    omega
  · intro i₁ i₂ k' has₁ has₂
    exact positions.unique i₁ i₂ k' (kept i₁ k' has₁).1 (kept i₂ k' has₂).1
  · exact update_all (P := fun _ pc => Fits (wc q) q.p pc) trivial fun i' _ => positions.own i'

/-- The element of a producer is published. -/
theorem Sequences.publish {issued : ℕ → List α} {published : List (ℕ × α)}
    (sequences : Sequences issued published producer) (waits : pending (producer i) = [v])
    (done : pending pc = []) :
    Sequences issued (published ++ [(i, v)]) (Function.update producer i pc) := by
  refine update_all (P := fun i' pc => issued i' =
    publishedBy (published ++ [(i, v)]) i' ++ pending pc) ?_ ?_
  · rw [sequences i, waits, done, List.append_nil, publishedBy, publishedBy, List.filter_append,
      List.map_append]
    simp
  · intro i' other
    rw [sequences i', publishedBy, publishedBy, List.filter_append]
    simp [Ne.symm other]

theorem publish_inv {k c c' : ℕ} (inv : s.Inv N front frees link swap)
    (publish : s.producer i = .publish v k c c')
    (passed : s.q.writer.ptr = Queue.current c (k - 1)) :
    ({ (s.setWriter { s.q.writer with ptr := Queue.current c' k }).set i .outside with
        published := s.published ++ [(i, v)] } : Mpsc α).Inv N front frees link swap := by
  have has : ticket (s.producer i) = some k := by
    rw [publish]
    rfl
  have quiet : swapping (s.producer i) = none := by
    rw [publish]
    rfl
  have waits : pending (s.producer i) = [v] := by
    rw [publish]
    rfl
  have fits := inv.positions.own i
  rw [publish] at fits
  obtain ⟨rfl, rfl, stored⟩ := fits
  have reached : wj s.q = k - 1 := congrArg Prod.snd passed
  have free := (inv.positions.ticket i k has).1
  have position : wj s.q + 1 = k := by omega
  refine ⟨⟨inv.chunks.chain, inv.chunks.cached, inv.chunks.distinct, inv.chunks.disjoint,
    inv.chunks.live⟩, inv.positions.publish has quiet reached, inv.sequences.publish waits rfl,
    ⟨inv.elements.reader.mono (Nat.le_of_lt free), ?_⟩⟩
  have before := inv.elements.contents
  have more : written N s.q.p front (wc s.q) k =
      written N s.q.p front (wc s.q) (wj s.q) ++ [v] := by
    rw [← position, written_succ, reached, stored]
  show (s.published ++ [(i, v)]).map Prod.snd = s.popped ++
    (written N s.q.p front (wc s.q) k).drop (offset s.q.reader.pos s.consumer)
  rw [List.map_append, before, more, List.drop_append_of_le_length inv.elements.reader.offset_le,
    List.append_assoc]
  rfl

/-! ## Swapping the chunks -/

variable {x x' : Swap}

theorem Chunks.linked {apart : List ℕ} (chunks : Chunks q front frees link apart) :
    q.next (wc q) = link := by
  rw [chunks.chain.next_eq]
  cases link with
  | none => rfl
  | some e => rfl

/-- The thread that swaps the chunks goes on. -/
theorem Inv.goes {q' : Queue α} {frees' : List ℕ} {link' : Option ℕ}
    (inv : s.Inv N front frees link (some (i, v, x))) (now : s.producer i = .swap v x)
    (busy : x ≠ .reset) (more : x' ≠ .reset)
    (chunks : Chunks q' front frees' link' (apart (some (i, v, x')) s.consumer frees'))
    (ptr : q'.writer.ptr = s.q.writer.ptr) (pos : q'.writer.pos = s.q.writer.pos)
    (reader : q'.reader = s.q.reader)
    (fits : SwapFits N (wc s.q) (wj s.q) q'.writer.c q'.p q'.next link' v x')
    (others : ∀ i', i' ≠ i → Fits (wc s.q) q'.p (s.producer i'))
    (same : written N q'.p front (wc s.q) (wj s.q) = written N s.q.p front (wc s.q) (wj s.q)) :
    ({ s with q := q' }.set i (.swap v x')).Inv N front frees' link' (some (i, v, x')) := by
  have here : wc q' = wc s.q ∧ wj q' = wj s.q := by
    rw [wc, wj, ptr]
    exact ⟨rfl, rfl⟩
  have only : ∀ i' y, i' ≠ i → some (i, v, x) ≠ some (i', y) := by
    rintro i' y other ⟨rfl⟩
    exact other rfl
  have full := (inv.positions.fits i v x rfl).1
  refine ⟨chunks, ?_, inv.sequences.set ?_, ?_, ?_⟩
  · exact inv.positions.swaps only ptr (Nat.le_of_eq pos.symm) (pos ▸ full) fits others more
  · rw [now]
    simp only [pending, busy, more, if_false]
  · show ReaderFits N (wj q') q'.reader front s.consumer
    rw [here.2, reader]
    exact inv.elements.reader
  · show s.published.map Prod.snd = s.popped ++
      (written N q'.p front (wc q') (wj q')).drop (offset q'.reader.pos s.consumer)
    rw [here.1, here.2, reader, same]
    exact inv.elements.contents

/-- A chunk that is in the way of nobody is taken. -/
theorem Chunks.hold {f : ℕ} {old rest frees' : List ℕ} (q' : Queue α)
    (chunks : Chunks q front frees link old) (next : q'.next = q.next)
    (reader : q'.reader = q.reader) (writer : q'.writer = q.writer)
    (cached : Segment q.next q'.free frees' none)
    (distinct : (f :: rest).Nodup) (outside : f ∉ front ++ wc q :: link.toList)
    (kept : ∀ a, a ∈ rest → a ∈ old) (live : ∀ a, a = f ∨ q.live a = true → q'.live a = true) :
    Chunks q' front frees' link (f :: rest) := by
  have here : wc q' = wc q := by
    rw [wc, writer]
    rfl
  constructor
  · rw [next, reader, here]
    exact chunks.chain
  · rw [next]
    exact cached
  · exact distinct
  · rw [here]
    refine List.disjoint_cons_right.mpr ⟨outside, fun a used member => ?_⟩
    exact chunks.disjoint used (kept a member)
  · rw [here]
    rintro a (used | member)
    · exact live a (.inr (chunks.live a (.inl used)))
    · rcases List.mem_cons.mp member with same | member
      · exact live a (.inl same)
      · exact live a (.inr (chunks.live a (.inr (kept a member))))

/-- The link of a chunk that is held is written. -/
theorem Chunks.clear {f : ℕ} {rest : List ℕ} (chunks : Chunks q front frees link (f :: rest))
    (within : ∀ a, a ∈ frees → a ∈ rest) :
    Chunks { q with next := Function.update q.next f none } front frees link (f :: rest) where
  chain := chunks.chain.update fun used => chunks.disjoint used List.mem_cons_self
  cached := chunks.cached.update fun free =>
    (List.nodup_cons.mp chunks.distinct).1 (within f free)
  distinct := chunks.distinct
  disjoint := chunks.disjoint
  live := chunks.live

/-- It is linked behind the writer's chunk. -/
theorem Chunks.join {f : ℕ} {rest : List ℕ} (chunks : Chunks q front frees none (f :: rest))
    (within : ∀ a, a ∈ frees → a ∈ rest) (cleared : q.next f = none) :
    Chunks { q with next := Function.update q.next (wc q) (some f) } front frees (some f) rest := by
  have outside : f ∉ front ++ [wc q] := fun used => chunks.disjoint used List.mem_cons_self
  have chain : Segment q.next (some q.reader.c) (front ++ [wc q]) none := chunks.chain
  have unlinked : Function.update q.next f none = q.next := by
    rw [← cleared, Function.update_eq_self]
  have last : wc q ∈ front ++ [wc q] := List.mem_append_right _ List.mem_cons_self
  have whole : front ++ wc q :: (some f).toList = front ++ [wc q] ++ [f] := by
    rw [List.append_assoc]
    rfl
  constructor
  · have joined := chain.snoc outside
    rw [unlinked] at joined
    show Segment _ _ (front ++ wc q :: (some f).toList) none
    rw [whole]
    exact joined
  · refine chunks.cached.update fun free => ?_
    exact chunks.disjoint last (List.mem_cons_of_mem f (within _ free))
  · exact (List.nodup_cons.mp chunks.distinct).2
  · show (front ++ wc q :: (some f).toList).Disjoint rest
    rw [whole]
    refine List.disjoint_append_left.mpr ⟨fun a used member => ?_, ?_⟩
    · exact chunks.disjoint used (List.mem_cons_of_mem f member)
    · exact List.singleton_disjoint.mpr (List.nodup_cons.mp chunks.distinct).1
  · show ∀ a, a ∈ front ++ wc q :: (some f).toList ∨ a ∈ rest → q.live a = true
    rw [whole]
    rintro a (used | member)
    · rcases List.mem_append.mp used with used | same
      · exact chunks.live a (.inl used)
      · exact chunks.live a (.inr (List.mem_cons.mpr (.inl (List.mem_singleton.mp same))))
    · exact chunks.live a (.inr (List.mem_cons_of_mem f member))

theorem Inv.swapping_eq (inv : s.Inv N front frees link swap) (now : s.producer i = .swap v x) :
    swap = some (i, v, x) := by
  refine (inv.positions.swapper i (v, x)).mp ?_
  rw [now]
  rfl

/-- A chunk is taken from the cache. -/
theorem Chunks.uncache {f : ℕ} {spares : List ℕ}
    (chunks : Chunks q front frees link (spares ++ frees)) (free : q.free = some f) :
    ∃ frees', Chunks { q with free := q.next f } front frees' link (f :: (spares ++ frees')) := by
  have cached := chunks.cached
  rw [free] at cached
  cases frees with
  | nil => exact nomatch cached
  | cons f' frees' =>
      obtain ⟨same, rest⟩ := cached
      obtain rfl := Option.some.inj same
      have distinct : (f :: (spares ++ frees')).Nodup :=
        (List.perm_middle.nodup_iff).mp chunks.distinct
      have member : f ∈ spares ++ f :: frees' := List.mem_append_right _ List.mem_cons_self
      refine ⟨frees', chunks.hold { q with free := q.next f } rfl rfl rfl rest distinct ?_ ?_ ?_⟩
      · exact fun used => chunks.disjoint used member
      · intro a member
        rcases List.mem_append.mp member with spare | free
        · exact List.mem_append_left _ spare
        · exact List.mem_append_right _ (List.mem_cons_of_mem f free)
      · rintro a (rfl | live)
        · exact chunks.live a (.inr member)
        · exact live

/-- A chunk is allocated. -/
theorem Chunks.allocate {f : ℕ} {apart : List ℕ} (chunks : Chunks q front frees link apart)
    (fresh : q.live f = false) :
    Chunks { q with live := Function.update q.live f true } front frees link (f :: apart) := by
  have unused : ∀ a, q.live a = true → a ≠ f := by
    rintro a live rfl
    exact nomatch fresh.symm.trans live
  refine chunks.hold { q with live := Function.update q.live f true } rfl rfl rfl
    chunks.cached (List.nodup_cons.mpr ⟨?_, chunks.distinct⟩) ?_ (fun a => id) ?_
  · exact fun member => unused f (chunks.live f (.inr member)) rfl
  · exact fun used => unused f (chunks.live f (.inl used)) rfl
  · rintro a (rfl | live)
    · exact Function.update_self ..
    · exact (Function.update_of_ne (unused a live) ..).trans live

/-- The thread that swaps the chunks only reads. -/
theorem Inv.reads (inv : s.Inv N front frees link (some (i, v, x)))
    (now : s.producer i = .swap v x) (busy : x ≠ .reset) (more : x' ≠ .reset)
    (same : apart (some (i, v, x')) s.consumer frees = apart (some (i, v, x)) s.consumer frees)
    (fits : SwapFits N (wc s.q) (wj s.q) s.q.writer.c s.q.p s.q.next link v x') :
    ∃ frees' link' swap', ({ s with q := s.q }.set i (.swap v x')).Inv N front frees' link' swap' := by
  have chunks : Chunks s.q front frees link (apart (some (i, v, x')) s.consumer frees) := by
    rw [same]
    exact inv.chunks
  exact ⟨frees, link, _, inv.goes now busy more chunks rfl rfl rfl fits
    (fun i' _ => inv.positions.own i') rfl⟩

/-- It writes its element, at a position that no other thread has. -/
theorem swap_write_inv (inv : s.Inv N front frees link (some (i, v, .write c)))
    (now : s.producer i = .swap v (.write c)) :
    ({ s with q := s.q.store (Queue.current c (N - 1)) v }.set i (.swap v (.look c))).Inv N front
      frees link (some (i, v, .look c)) := by
  obtain ⟨full, here, rfl, unlinked⟩ := inv.positions.fits i v _ rfl
  have chunks := inv.chunks
  have others : ∀ i', i' ≠ i → Fits (wc s.q)
      (Function.update s.q.p (wc s.q) (Function.update (s.q.p (wc s.q)) (N - 1) v))
      (s.producer i') := by
    refine fun i' other => fits_store (inv.positions.own i') fun k has => ?_
    obtain ⟨free, -, below, -⟩ := inv.positions.ticket i' k has
    omega
  have behind : wj s.q ≤ N - 1 := Nat.le_sub_one_of_lt inv.positions.below
  refine inv.goes now nofun nofun ⟨chunks.chain, chunks.cached, chunks.distinct,
    chunks.disjoint, chunks.live⟩ rfl rfl rfl ⟨here, rfl, unlinked, ?_⟩ others
    (written_outside chunks.outside behind)
  show Function.update s.q.p (wc s.q) (Function.update (s.q.p (wc s.q)) (N - 1) v) (wc s.q)
    (N - 1) = v
  rw [Function.update_self, Function.update_self]

/-- The thread that swaps the chunks takes a step. -/
theorem swap_inv {q' : Queue α} (inv : s.Inv N front frees link swap)
    (now : s.producer i = .swap v x) (step : SwapStep N v s.q x q' x') :
    ∃ frees' link' swap', ({ s with q := q' }.set i (.swap v x')).Inv N front frees' link' swap' := by
  obtain rfl := inv.swapping_eq now
  obtain ⟨full, fits⟩ := inv.positions.fits i v x rfl
  have own : ∀ i', i' ≠ i → Fits (wc s.q) s.q.p (s.producer i') := fun i' _ => inv.positions.own i'
  have chunks := inv.chunks
  have last : s.q.next (wc s.q) = link := chunks.linked
  cases step with
  | last => exact inv.reads now nofun nofun rfl ⟨fits.1, fits.1, fits.2⟩
  | write => exact ⟨frees, link, _, swap_write_inv inv now⟩
  | look =>
      obtain ⟨here, first, unlinked, stored⟩ := fits
      exact inv.reads now nofun nofun rfl ⟨here, first, unlinked, stored, here⟩
  | grown next =>
      obtain ⟨here, first, unlinked, stored, rfl⟩ := fits
      exact nomatch next.symm.trans (last.trans unlinked)
  | short next =>
      obtain ⟨here, first, unlinked, stored, rfl⟩ := fits
      exact inv.reads now nofun nofun rfl ⟨here, first, unlinked, stored⟩
  | cached free =>
      have before : Chunks s.q front frees link ((spare s.consumer).toList ++ frees) := chunks
      obtain ⟨frees', held⟩ := before.uncache free
      exact ⟨frees', link, _, inv.goes now nofun nofun held rfl rfl rfl fits own rfl⟩
  | uncached free => exact inv.reads now nofun nofun rfl fits
  | allocate fresh =>
      have held := Chunks.allocate chunks fresh
      exact ⟨frees, link, _, inv.goes now nofun nofun held rfl rfl rfl fits own rfl⟩
  | @clear c f =>
      have held : Chunks s.q front frees link (f :: ((spare s.consumer).toList ++ frees)) := chunks
      have cleared := held.clear fun a => List.mem_append_right _
      obtain ⟨here, first, unlinked, stored⟩ := fits
      exact ⟨frees, link, _, inv.goes now nofun nofun cleared rfl rfl rfl
        ⟨here, first, unlinked, stored, Function.update_self ..⟩ own rfl⟩
  | join =>
      obtain ⟨here, first, unlinked, stored, cleared⟩ := fits
      exact inv.reads now nofun nofun rfl ⟨here, first, unlinked, stored, cleared, here⟩
  | @link c f d =>
      obtain ⟨here, first, rfl, stored, cleared, rfl⟩ := fits
      have held : Chunks s.q front frees none (f :: ((spare s.consumer).toList ++ frees)) := chunks
      have joined := held.join (fun a => List.mem_append_right _) cleared
      exact ⟨frees, some f, _, inv.goes now nofun nofun joined rfl rfl rfl
        ⟨here, first, ⟨f, rfl⟩, stored⟩ own rfl⟩
  | ahead =>
      obtain ⟨here, first, linked, stored⟩ := fits
      exact inv.reads now nofun nofun rfl ⟨here, first, linked, stored, here⟩
  | follow next =>
      obtain ⟨here, first, -, stored, rfl⟩ := fits
      exact inv.reads now nofun nofun rfl ⟨here, first, last.symm.trans next, stored⟩
  | wait passed =>
      obtain ⟨here, first, linked, stored⟩ := fits
      have reached : wj s.q = N - 1 := congrArg Prod.snd passed
      exact inv.reads now nofun nofun rfl ⟨here, first, linked, stored, reached⟩
  | turn =>
      obtain ⟨here, first, linked, stored, reached⟩ := fits
      exact inv.reads now nofun nofun rfl ⟨here, first, linked, stored, reached, here⟩
  | next next =>
      obtain ⟨here, first, linked, stored, reached, rfl⟩ := fits
      have same := Option.some.inj (next.symm.trans (last.trans linked))
      exact inv.reads now nofun nofun rfl ⟨here, first, linked, stored, reached, same⟩
  | move =>
      obtain ⟨here, first, linked, stored, reached, rfl⟩ := fits
      exact ⟨frees, link, _, inv.goes now nofun nofun ⟨chunks.chain, chunks.cached,
        chunks.distinct, chunks.disjoint, chunks.live⟩ rfl rfl rfl
        ⟨rfl, first, linked, stored, reached⟩ own rfl⟩

/-- The thread that swaps the chunks has done so, or gives up. -/
theorem Positions.stop {q' : Queue α} (positions : Positions N q producer link (some (i, v, x)))
    (ptr : q'.writer.ptr = q.writer.ptr) (stored : q'.p = q.p)
    (unlinked : link = none ∧ q'.writer.c = wc q) (reserved : wj q ≤ q'.writer.pos)
    (within : ∀ i' k, Mpsc.ticket (producer i') = some k → k ≤ q'.writer.pos) :
    Positions N q' (Function.update producer i .outside) link none := by
  have same : wc q' = wc q ∧ wj q' = wj q := by
    rw [wc, wj, ptr]
    exact ⟨rfl, rfl⟩
  have kept : ∀ i' k, Mpsc.ticket (Function.update producer i .outside i') = some k →
      Mpsc.ticket (producer i') = some k :=
    update_all (P := fun i' pc => ∀ k, Mpsc.ticket pc = some k →
      Mpsc.ticket (producer i') = some k) nofun fun _ _ _ => id
  constructor
  · exact same.2 ▸ positions.below
  · exact same.2 ▸ reserved
  · refine update_all (P := fun i' pc => ∀ y, swapping pc = some y ↔ none = some (i', y)) ?_ ?_
    · exact fun y => ⟨nofun, nofun⟩
    · intro i' other y
      constructor
      · intro here
        obtain ⟨rfl⟩ := (positions.swapper i' y).mp here
        exact absurd rfl other
      · exact nofun
  · exact nofun
  · exact fun _ => same.1 ▸ unlinked
  · intro i' k has
    obtain ⟨free, -, below, -⟩ := positions.ticket i' k (kept i' k has)
    exact ⟨same.2 ▸ free, within i' k (kept i' k has), below, nofun⟩
  · intro i₁ i₂ k has has'
    exact positions.unique i₁ i₂ k (kept i₁ k has) (kept i₂ k has')
  · rw [same.1, stored]
    exact update_all (P := fun _ pc => Fits (wc q) q.p pc) trivial fun i' _ => positions.own i'

/-- `mpush` is refused, and its element is not in the queue. -/
theorem refuse_inv {c : ℕ} (inv : s.Inv N front frees link swap)
    (now : s.producer i = .swap v (.allocate c)) :
    ({ s.set i .outside with
      issued := Function.update s.issued i (s.issued i).dropLast } : Mpsc α).Inv N front frees link
        none := by
  obtain rfl := inv.swapping_eq now
  obtain ⟨here, -, unlinked, -⟩ := (inv.positions.fits i v _ rfl).2
  refine ⟨⟨inv.chunks.chain, inv.chunks.cached, inv.chunks.distinct, inv.chunks.disjoint,
    inv.chunks.live⟩, ?_, ?_, inv.elements⟩
  · exact inv.positions.stop rfl rfl ⟨unlinked, here⟩ inv.positions.reserved
      fun i' k has => (inv.positions.ticket i' k has).2.1
  · intro i'
    by_cases same : i' = i
    · subst same
      have before := inv.sequences i'
      rw [now] at before
      have waits : pending (.swap v (.allocate c)) = [v] := rfl
      simp only [set, Function.update_self, before, waits, List.dropLast_concat]
      exact (List.append_nil _).symm
    · simp only [set, Function.update_of_ne same]
      exact inv.sequences i'

/-- The positions of the new chunk are handed out. -/
theorem reset_inv (inv : s.Inv N front frees link swap) (now : s.producer i = .swap v .reset) :
    ((s.setWriter { s.q.writer with pos := 0 }).set i .outside).Inv N front frees link none := by
  obtain rfl := inv.swapping_eq now
  obtain ⟨here, unlinked, start⟩ := (inv.positions.fits i v _ rfl).2
  refine ⟨⟨inv.chunks.chain, inv.chunks.cached, inv.chunks.distinct, inv.chunks.disjoint,
    inv.chunks.live⟩, ?_, inv.sequences.set ?_, ⟨inv.elements.reader, inv.elements.contents⟩⟩
  · refine inv.positions.stop rfl rfl ⟨unlinked, here⟩ (Nat.le_of_eq start) ?_
    intro i' k has
    exact absurd rfl ((inv.positions.ticket i' k has).2.2.2 i v)
  · rw [now]
    rfl

/-- A producer that has not got a position has not read a chunk. -/
theorem fits_of_ticket {w : ℕ} {p : ℕ → ℕ → α} (nothing : ticket pc = none) : Fits w p pc := by
  cases pc with
  | second v k c => exact nomatch nothing
  | write v k c c' => exact nomatch nothing
  | publish v k c c' => exact nomatch nothing
  | outside => trivial
  | start v => trivial
  | spin v => trivial
  | first v k => trivial
  | swap v x => trivial

/-- `m_wp` passes the last position of its chunk. -/
theorem Positions.turn {e : ℕ} (positions : Positions N q producer link (some (i, v, x)))
    (reached : wj q = N - 1) (here : q.writer.c = e) :
    Positions N { q with writer := { q.writer with ptr := (e, 0) } }
      (Function.update producer i (.swap v .reset)) none (some (i, v, .reset)) := by
  have below := positions.below
  have nothing : ∀ i', Mpsc.ticket (producer i') = none := by
    intro i'
    cases has : Mpsc.ticket (producer i') with
    | none => rfl
    | some k =>
        obtain ⟨free, -, within, -⟩ := positions.ticket i' k has
        omega
  have nothing' : ∀ i', Mpsc.ticket (Function.update producer i (.swap v .reset) i') = none :=
    update_all (P := fun _ pc => Mpsc.ticket pc = none) rfl fun i' _ => nothing i'
  constructor
  · exact Nat.zero_lt_of_lt below
  · exact Nat.zero_le _
  · refine update_all (P := fun i' pc => ∀ y, swapping pc = some y ↔
      some (i, v, .reset) = some (i', y)) ?_ ?_
    · intro y
      constructor
      · rintro ⟨rfl⟩
        rfl
      · rintro ⟨rfl⟩
        rfl
    · intro i' other y
      constructor
      · intro swaps
        obtain ⟨rfl⟩ := (positions.swapper i' y).mp swaps
        exact absurd rfl other
      · rintro ⟨rfl⟩
        exact absurd rfl other
  · rintro i' v' x' ⟨rfl⟩
    exact ⟨(positions.fits i v x rfl).1, here, rfl, rfl⟩
  · exact nofun
  · exact fun i' k has => nomatch (nothing' i').symm.trans has
  · exact fun i₁ i₂ k has => nomatch (nothing' i₁).symm.trans has
  · exact fun i' => fits_of_ticket (nothing' i')

/-- The consumer has got a whole chunk. -/
theorem ReaderFits.turn {j w : ℕ} {k : Cursor} {consumer : Consumer}
    (fits : ReaderFits N j k front consumer) : ReaderFits N 0 k (front ++ [w]) consumer := by
  have nonempty : front ++ [w] ≠ [] := List.append_ne_nil_of_right_ne_nil front (List.cons_ne_nil w [])
  cases consumer with
  | outside => exact ⟨fits.1, fits.2.1, fun none => absurd none nonempty⟩
  | ready => exact ⟨fits.1, fits.2.1, fun none => absurd none nonempty⟩
  | spent => exact ⟨fits.1, nonempty⟩
  | freeing c => trivial
  | caching c => trivial
  | moving => exact ⟨fits.1, fun none => absurd none nonempty⟩

/-- The last element of a chunk is published. -/
theorem swapped_inv {c e : ℕ} (inv : s.Inv N front frees link swap)
    (now : s.producer i = .swap v (.publish c e)) :
    ({ (s.setWriter { s.q.writer with ptr := Queue.current e 0 }).set i (.swap v .reset) with
        published := s.published ++ [(i, v)] } : Mpsc α).Inv N (front ++ [wc s.q]) frees none
      (some (i, v, .reset)) := by
  obtain rfl := inv.swapping_eq now
  obtain ⟨here, -, rfl, stored, reached⟩ := (inv.positions.fits i v _ rfl).2
  have waits : pending (s.producer i) = [v] := by
    rw [now]
    rfl
  have same : front ++ [wc s.q] ++ e :: (none : Option ℕ).toList =
      front ++ wc s.q :: (some e).toList := List.append_assoc ..
  refine ⟨⟨?_, inv.chunks.cached, inv.chunks.distinct, ?_, ?_⟩, inv.positions.turn reached here,
    inv.sequences.publish waits rfl, ⟨inv.elements.reader.turn, ?_⟩⟩
  · show Segment _ _ (front ++ [wc s.q] ++ e :: (none : Option ℕ).toList) none
    rw [same]
    exact inv.chunks.chain
  · show (front ++ [wc s.q] ++ e :: (none : Option ℕ).toList).Disjoint _
    rw [same]
    exact inv.chunks.disjoint
  · show ∀ a, a ∈ front ++ [wc s.q] ++ e :: (none : Option ℕ).toList ∨ _ → _
    rw [same]
    exact inv.chunks.live
  · have before := inv.elements.contents
    have positive := inv.positions.below
    have more : written N s.q.p (front ++ [wc s.q]) e 0 =
        written N s.q.p front (wc s.q) (wj s.q) ++ [v] := by
      have last : N - 1 + 1 = N := by omega
      rw [← stored, reached, ← written_succ, last, written, written, List.flatMap_append,
        List.flatMap_singleton, List.range_zero, List.map_nil, List.append_nil]
    show (s.published ++ [(i, v)]).map Prod.snd = s.popped ++
      (written N s.q.p (front ++ [wc s.q]) e 0).drop (offset s.q.reader.pos s.consumer)
    rw [List.map_append, before, more,
      List.drop_append_of_le_length inv.elements.reader.offset_le, List.append_assoc]
    rfl

/-! ## The consumer -/

/-- The consumer's next element, if there is one. -/
theorem written_drop {w j c n : ℕ} {p : ℕ → ℕ → α} {rest : List ℕ}
    (first : front ++ [w] = c :: rest) (below : n < N) (more : front = [] → n < j) :
    (written N p front w j).drop n = p c n :: (written N p front w j).drop (n + 1) := by
  have within : n < (written N p front w j).length := by
    rw [written_length]
    cases front with
    | nil => exact Nat.lt_of_lt_of_le (more rfl) (Nat.le_add_left _ _)
    | cons c front =>
        rw [List.length_cons, Nat.succ_mul]
        omega
  have head : (written N p front w j)[n] = p c n := by
    cases front with
    | nil =>
        obtain ⟨rfl, -⟩ := List.cons.inj first
        simp only [written, List.flatMap_nil, List.nil_append, List.getElem_map, List.getElem_range]
    | cons c' front =>
        obtain ⟨rfl, -⟩ := List.cons.inj first
        have inside : n < ((List.range N).map (p c')).length := by
          rw [List.length_map, List.length_range]
          exact below
        simp only [written, List.flatMap_cons, List.append_assoc,
          List.getElem_append_left inside, List.getElem_map, List.getElem_range]
  rw [List.drop_eq_getElem_cons within, head]

/-- What is left when the consumer leaves its first chunk. -/
theorem written_rest {w j c : ℕ} {p : ℕ → ℕ → α} :
    (written N p (c :: front) w j).drop N = written N p front w j := by
  have length : ((List.range N).map (p c)).length = N := by
    rw [List.length_map, List.length_range]
  rw [written, List.flatMap_cons, List.append_assoc]
  exact List.drop_left' length

/-- The consumer reads the first of the chunks. -/
theorem Chunks.first {apart : List ℕ} (chunks : Chunks q front frees link apart) :
    ∃ rest, front ++ [wc q] = q.reader.c :: rest := by
  have chain := chunks.chain
  cases front with
  | nil => exact ⟨[], congrArg ([·]) (Option.some.inj chain.1).symm⟩
  | cons r front => exact ⟨front ++ [wc q], congrArg (· :: _) (Option.some.inj chain.1).symm⟩

theorem readable_inv (inv : s.Inv N front frees link swap) (outside : s.consumer = .outside)
    (other : s.q.reader.ptr ≠ s.q.writer.ptr) :
    ({ s with consumer := .ready } : Mpsc α).Inv N front frees link swap := by
  have fits := inv.elements.reader
  have contents := inv.elements.contents
  have chunks := inv.chunks
  rw [outside] at fits contents chunks
  refine ⟨chunks, inv.positions, inv.sequences, ⟨fits.1, fits.2.1, ?_⟩, contents⟩
  rintro rfl
  obtain ⟨rest, first⟩ := chunks.first
  obtain ⟨here, -⟩ := List.cons.inj first
  have behind : s.q.reader.pos ≠ wj s.q := by
    intro same
    apply other
    rw [fits.1, ← here, same]
    rfl
  exact Nat.lt_of_le_of_ne (fits.2.2 rfl) behind

theorem read_inv (inv : s.Inv N front frees link swap) (ready : s.consumer = .ready) :
    ({ s.setReader { s.q.reader with pos := s.q.reader.pos + 1 } with
        popped := s.popped ++ [s.q.load s.q.reader.ptr]
        consumer := if N = s.q.reader.pos + 1 then .spent else .moving } : Mpsc α).Inv N front frees
      link swap := by
  have fits := inv.elements.reader
  have contents := inv.elements.contents
  have chunks := inv.chunks
  rw [ready] at fits contents chunks
  obtain ⟨pointer, below, more⟩ := fits
  obtain ⟨rest, first⟩ := chunks.first
  have loaded : s.q.load s.q.reader.ptr = s.q.p s.q.reader.c s.q.reader.pos := by
    rw [pointer]
    rfl
  have next : s.published.map Prod.snd = s.popped ++ [s.q.load s.q.reader.ptr] ++
      (written N s.q.p front (wc s.q) (wj s.q)).drop (s.q.reader.pos + 1) := by
    rw [contents, loaded, List.append_assoc]
    exact congrArg (s.popped ++ ·) (written_drop first below more)
  have positions : Positions N { s.q with reader := { s.q.reader with pos := s.q.reader.pos + 1 } }
      s.producer link swap := ⟨inv.positions.below, inv.positions.reserved, inv.positions.swapper,
    inv.positions.fits, inv.positions.unlinked, inv.positions.ticket, inv.positions.unique,
    inv.positions.own⟩
  split
  · next last =>
      refine ⟨⟨chunks.chain, chunks.cached, chunks.distinct, chunks.disjoint, chunks.live⟩,
        positions, inv.sequences, ⟨last.symm, ?_⟩, next⟩
      intro none
      have within := more none
      have bound := inv.positions.below
      omega
  · next inside =>
      refine ⟨⟨chunks.chain, chunks.cached, chunks.distinct, chunks.disjoint, chunks.live⟩,
        positions, inv.sequences, ⟨?_, fun none => more none⟩, next⟩
      exact Nat.lt_of_le_of_ne below (Ne.symm inside)

/-- The consumer goes on to the next chunk. -/
theorem spent_inv {c : ℕ} (inv : s.Inv N front frees link swap) (spent : s.consumer = .spent)
    (next : s.q.next s.q.reader.c = some c) :
    ∃ front', ({ s.setReader { s.q.reader with c := c } with
      consumer := .freeing s.q.reader.c } : Mpsc α).Inv N front' frees link swap := by
  have fits := inv.elements.reader
  have contents := inv.elements.contents
  have chunks := inv.chunks
  rw [spent] at fits contents chunks
  obtain ⟨full, more⟩ := fits
  cases front with
  | nil => exact absurd rfl more
  | cons r front =>
      obtain ⟨first, chain⟩ := chunks.chain
      obtain rfl : s.q.reader.c = r := Option.some.inj first
      rw [next] at chain
      have before : (s.q.reader.c :: (front ++ wc s.q :: link.toList)).Disjoint
          ((swap.bind fun y => held y.2.2).toList ++ frees) := chunks.disjoint
      have distinct : (s.q.reader.c :: (front ++ wc s.q :: link.toList)).Nodup :=
        chunks.chain.nodup
      obtain ⟨outside, disjoint⟩ := List.disjoint_cons_left.mp before
      have order : (apart swap (.freeing s.q.reader.c) frees).Perm
          (s.q.reader.c :: ((swap.bind fun y => held y.2.2).toList ++ frees)) := List.perm_middle
      refine ⟨front, ⟨chain, chunks.cached, ?_, ?_, ?_⟩, ⟨inv.positions.below,
        inv.positions.reserved, inv.positions.swapper, inv.positions.fits,
        inv.positions.unlinked, inv.positions.ticket, inv.positions.unique, inv.positions.own⟩,
        inv.sequences, ⟨trivial, ?_⟩⟩
      · exact order.nodup_iff.mpr (List.nodup_cons.mpr ⟨outside, chunks.distinct⟩)
      · intro a used member
        rcases List.mem_cons.mp (order.mem_iff.mp member) with rfl | member
        · exact (List.nodup_cons.mp distinct).1 used
        · exact disjoint used member
      · rintro a (used | member)
        · exact chunks.live a (.inl (List.mem_cons_of_mem _ used))
        · rcases List.mem_cons.mp (order.mem_iff.mp member) with rfl | member
          · exact chunks.live _ (.inl List.mem_cons_self)
          · exact chunks.live a (.inr member)
      · refine contents.trans (congrArg (s.popped ++ ·) ?_)
        show (written N s.q.p (s.q.reader.c :: front) (wc s.q) (wj s.q)).drop s.q.reader.pos = _
        rw [full, written_rest]
        rfl

theorem freeing_inv {c : ℕ} (inv : s.Inv N front frees link swap)
    (freeing : s.consumer = .freeing c) :
    ({ s with
        q := if s.q.c = some c then { s.q with c := s.q.next c } else s.q
        consumer := .caching c } : Mpsc α).Inv N front frees link swap := by
  have contents := inv.elements.contents
  have chunks := inv.chunks
  rw [freeing] at contents chunks
  split
  · exact ⟨⟨chunks.chain, chunks.cached, chunks.distinct, chunks.disjoint, chunks.live⟩,
      ⟨inv.positions.below, inv.positions.reserved, inv.positions.swapper, inv.positions.fits,
        inv.positions.unlinked, inv.positions.ticket, inv.positions.unique, inv.positions.own⟩,
      inv.sequences, ⟨trivial, contents⟩⟩
  · exact ⟨chunks, inv.positions, inv.sequences, ⟨trivial, contents⟩⟩

/-- The thread that swaps the chunks depends on the link of the one that it holds. -/
theorem swapFits_next {w j m : ℕ} {p : ℕ → ℕ → α} {next next' : ℕ → Option ℕ}
    (fits : SwapFits N w j m p next link v x) (same : ∀ f, held x = some f → next' f = next f) :
    SwapFits N w j m p next' link v x := by
  cases x with
  | join c f =>
      obtain ⟨here, first, unlinked, stored, cleared⟩ := fits
      exact ⟨here, first, unlinked, stored, (same f rfl).trans cleared⟩
  | link c f d =>
      obtain ⟨here, first, unlinked, stored, cleared, again⟩ := fits
      exact ⟨here, first, unlinked, stored, (same f rfl).trans cleared, again⟩
  | last => exact fits
  | write c => exact fits
  | look c => exact fits
  | test c d => exact fits
  | cache c => exact fits
  | allocate c => exact fits
  | clear c f => exact fits
  | ahead c => exact fits
  | follow c d => exact fits
  | wait c e => exact fits
  | turn c e => exact fits
  | next c e d => exact fits
  | move c e e' => exact fits
  | publish c e => exact fits
  | reset => exact fits

/-- The chunk that the consumer has left is for writing again. -/
theorem caching_inv {c : ℕ} (inv : s.Inv N front frees link swap)
    (caching : s.consumer = .caching c) :
    ({ s with
        q := { s.q with
          next := Function.update s.q.next c s.q.free, free := some c
          reader := { s.q.reader with pos := 0 } }
        consumer := .moving } : Mpsc α).Inv N front (c :: frees) link swap := by
  have contents := inv.elements.contents
  have chunks := inv.chunks
  rw [caching] at contents chunks
  have member : c ∈ apart swap (.caching c) frees :=
    List.mem_append_right _ List.mem_cons_self
  have distinct : ((swap.bind fun y => held y.2.2).toList ++ c :: frees).Nodup := chunks.distinct
  obtain ⟨-, free, outside⟩ := List.nodup_append.mp distinct
  refine ⟨⟨?_, ⟨rfl, ?_⟩, distinct, chunks.disjoint, chunks.live⟩, ⟨inv.positions.below,
    inv.positions.reserved, inv.positions.swapper, ?_, inv.positions.unlinked,
    inv.positions.ticket, inv.positions.unique, inv.positions.own⟩, inv.sequences,
    ⟨⟨Nat.zero_lt_of_lt inv.positions.below, fun _ => Nat.zero_le _⟩, contents⟩⟩
  · exact chunks.chain.update fun used => chunks.disjoint used member
  · show Segment (Function.update s.q.next c s.q.free) (Function.update s.q.next c s.q.free c) frees
      none
    rw [Function.update_self]
    exact chunks.cached.update (List.nodup_cons.mp free).1
  · rintro i v x rfl
    obtain ⟨full, fits⟩ := inv.positions.fits i v x rfl
    refine ⟨full, swapFits_next fits fun f has => Function.update_of_ne ?_ ..⟩
    refine outside f ?_ c List.mem_cons_self
    show f ∈ (held x).toList
    rw [has]
    exact List.mem_cons_self

theorem moving_inv (inv : s.Inv N front frees link swap) (moving : s.consumer = .moving) :
    ({ s.setReader { s.q.reader with ptr := Queue.current s.q.reader.c s.q.reader.pos } with
        consumer := .outside } : Mpsc α).Inv N front frees link swap := by
  have fits := inv.elements.reader
  have contents := inv.elements.contents
  have chunks := inv.chunks
  rw [moving] at fits contents chunks
  exact ⟨⟨chunks.chain, chunks.cached, chunks.distinct, chunks.disjoint, chunks.live⟩,
    ⟨inv.positions.below, inv.positions.reserved, inv.positions.swapper, inv.positions.fits,
      inv.positions.unlinked, inv.positions.ticket, inv.positions.unique, inv.positions.own⟩,
    inv.sequences, ⟨⟨rfl, fits.1, fits.2⟩, contents⟩⟩

/-! ## Runs -/

/-- `m_w` is the chunk of the positions that producers have. -/
theorem Positions.here {k : ℕ} (positions : Positions N q producer link swap)
    (has : Mpsc.ticket (producer i) = some k) : q.writer.c = wc q := by
  obtain ⟨free, -, below, -⟩ := positions.ticket i k has
  cases swap with
  | none => exact (positions.unlinked rfl).2
  | some y =>
      obtain ⟨i', v, x⟩ := y
      have fits := (positions.fits i' v x rfl).2
      cases x with
      | publish c e =>
          have last : wj q = N - 1 := fits.2.2.2.2
          omega
      | last => exact fits.1
      | write c => exact fits.1
      | look c => exact fits.1
      | test c d => exact fits.1
      | cache c => exact fits.1
      | allocate c => exact fits.1
      | clear c f => exact fits.1
      | join c f => exact fits.1
      | link c f d => exact fits.1
      | ahead c => exact fits.1
      | follow c d => exact fits.1
      | wait c e => exact fits.1
      | turn c e => exact fits.1
      | next c e d => exact fits.1
      | move c e e' => exact fits.1
      | reset => exact fits.1

theorem pop_inv (inv : s.Inv N front frees link swap) (step : PopStep N s t) :
    ∃ front' frees', t.Inv N front' frees' link swap := by
  cases step with
  | readable outside other => exact ⟨front, frees, readable_inv inv outside other⟩
  | read ready => exact ⟨front, frees, read_inv inv ready⟩
  | spent spent next =>
      obtain ⟨front', inv⟩ := spent_inv inv spent next
      exact ⟨front', frees, inv⟩
  | freeing freeing => exact ⟨front, frees, freeing_inv inv freeing⟩
  | @caching c caching => exact ⟨front, c :: frees, caching_inv inv caching⟩
  | moving moving => exact ⟨front, frees, moving_inv inv moving⟩

theorem step_inv (inv : s.Inv N front frees link swap) (step : Step N s t) :
    ∃ front' frees' link' swap', t.Inv N front' frees' link' swap' := by
  cases step with
  | call i v outside => exact ⟨front, frees, link, swap, call_inv inv outside⟩
  | reserve start =>
      obtain ⟨swap', inv⟩ := reserve_inv inv start
      exact ⟨front, frees, link, swap', inv⟩
  | @unspin i v spin below =>
      refine ⟨front, frees, link, swap, inv.set ?_ rfl nofun trivial (Nat.le_refl _) ?_⟩
      · rw [spin]
        rfl
      · rw [spin]
        rfl
  | @first i k v first =>
      have here := inv.positions.here (k := k) (congrArg ticket first)
      refine ⟨front, frees, link, swap, inv.set ?_ rfl ?_ here (Nat.le_refl _) ?_⟩
      · rw [first]
        rfl
      · rw [first]
        exact fun k' => id
      · rw [first]
        rfl
  | @second i k c v second =>
      have fits := inv.positions.own i
      have here := inv.positions.here (k := k) (congrArg ticket second)
      rw [second] at fits
      refine ⟨front, frees, link, swap, inv.set ?_ rfl ?_ ⟨fits, here⟩ (Nat.le_refl _) ?_⟩
      · rw [second]
        rfl
      · rw [second]
        exact fun k' => id
      · rw [second]
        rfl
  | write write => exact ⟨front, frees, link, swap, write_inv inv write⟩
  | publish publish passed => exact ⟨front, frees, link, swap, publish_inv inv publish passed⟩
  | swap now step =>
      obtain ⟨frees', link', swap', inv⟩ := swap_inv inv now step
      exact ⟨front, frees', link', swap', inv⟩
  | refuse now => exact ⟨front, frees, link, none, refuse_inv inv now⟩
  | swapped now passed => exact ⟨_, frees, none, _, swapped_inv inv now⟩
  | reset now => exact ⟨front, frees, link, none, reset_inv inv now⟩
  | pop step =>
      obtain ⟨front', frees', inv⟩ := pop_inv inv step
      exact ⟨front', frees', link, swap, inv⟩

theorem reaches_inv (inv : s.Inv N front frees link swap) (reaches : Reaches N s t) :
    ∃ front' frees' link' swap', t.Inv N front' frees' link' swap' := by
  induction reaches with
  | refl => exact ⟨front, frees, link, swap, inv⟩
  | step reaches step ih =>
      obtain ⟨front', frees', link', swap', inv⟩ := ih
      exact step_inv inv step

/-- The elements of each producer were published in the order of its calls, but for that
of a call under way; what was popped is the beginning of what was published, and all of
it where `pop` returns `false`.  No null link is followed. -/
structure Merged (s : Mpsc α) : Prop where
  sequence : ∀ i, s.issued i = publishedBy s.published i ++ pending (s.producer i)
  popped : s.popped <+: s.published.map Prod.snd
  drained : s.consumer = .outside → s.q.reader.ptr = s.q.writer.ptr →
    s.popped = s.published.map Prod.snd
  spent : s.consumer = .spent → s.q.next s.q.reader.c ≠ none
  follow : ∀ i v c d, s.producer i = .swap v (.follow c d) → s.q.next d ≠ none
  next : ∀ i v c e d, s.producer i = .swap v (.next c e d) → s.q.next d ≠ none

/-- `pop` returns `false` where it has read all. -/
theorem Inv.drained (inv : s.Inv N front frees link swap) (outside : s.consumer = .outside)
    (same : s.q.reader.ptr = s.q.writer.ptr) : s.popped = s.published.map Prod.snd := by
  have fits := inv.elements.reader
  have contents := inv.elements.contents
  rw [outside] at fits contents
  obtain ⟨pointer, -, -⟩ := fits
  obtain ⟨rest, first⟩ := inv.chunks.first
  rw [same] at pointer
  have here : wc s.q = s.q.reader.c := congrArg Prod.fst pointer
  have position : wj s.q = s.q.reader.pos := congrArg Prod.snd pointer
  cases front with
  | nil =>
      have length : (written N s.q.p [] (wc s.q) (wj s.q)).length = s.q.reader.pos := by
        rw [written_length, position, List.length_nil, Nat.zero_mul, Nat.zero_add]
      have read : (written N s.q.p [] (wc s.q) (wj s.q)).drop s.q.reader.pos = [] :=
        List.drop_eq_nil_of_le (Nat.le_of_eq length)
      exact (contents.trans ((congrArg (s.popped ++ ·) read).trans (List.append_nil _))).symm
  | cons r front =>
      obtain ⟨rfl, -⟩ := List.cons.inj first
      exact absurd (List.mem_cons.mpr (.inl here)) inv.chunks.outside

theorem Inv.merged (inv : s.Inv N front frees link swap) : s.Merged where
  sequence := inv.sequences
  popped := ⟨_, inv.elements.contents.symm⟩
  drained := inv.drained
  spent := by
    intro spent
    have fits := inv.elements.reader
    rw [spent] at fits
    cases front with
    | nil => exact absurd rfl fits.2
    | cons r front =>
        obtain ⟨first, chain⟩ := inv.chunks.chain
        obtain rfl : s.q.reader.c = r := Option.some.inj first
        intro none
        have start := chain.start_eq
        rw [none] at start
        cases front with
        | nil => exact nomatch start
        | cons r' front => exact nomatch start
  follow := by
    intro i v c d now none
    obtain rfl := inv.swapping_eq now
    obtain ⟨-, -, ⟨e, linked⟩, -, rfl⟩ := (inv.positions.fits i v _ rfl).2
    exact nomatch none.symm.trans (inv.chunks.linked.trans linked)
  next := by
    intro i v c e d now none
    obtain rfl := inv.swapping_eq now
    obtain ⟨-, -, linked, -, -, rfl⟩ := (inv.positions.fits i v _ rfl).2
    exact nomatch none.symm.trans (inv.chunks.linked.trans linked)

/-- With any number of producers and one consumer, what was popped is at every moment
the beginning of a merge of the producers' sequences. -/
theorem mpsc_merged (positive : 0 < N) (c : ℕ) (p : ℕ → ℕ → α) (reaches : Reaches N (init c p) s) :
    s.Merged := by
  obtain ⟨front, frees, link, swap, inv⟩ := reaches_inv (init_inv positive c p) reaches
  exact inv.merged

/-- Two producers share a chunk of two positions; the one with the last position links a chunk
while it waits for the other one, and the consumer follows it there. -/
theorem mpsc_merged_seven : ∃ s : Mpsc ℕ, s.popped = [7, 8] ∧ s.Merged := by
  -- both producers get their positions, the second one the last of the chunk
  obtain ⟨s, entered, writes, swaps, outside, writer, reader, linked, free, live, last, popped⟩ :
      ∃ s : Mpsc ℕ, Reaches 2 (init 0 fun _ _ => 0) s ∧ s.producer 0 = .write 7 1 0 0 ∧
        s.producer 1 = .swap 8 (.look 0) ∧ s.consumer = .outside ∧
        s.q.writer = ⟨0, 2, (0, 0)⟩ ∧ s.q.reader = ⟨0, 0, (0, 0)⟩ ∧ s.q.next 0 = none ∧
        s.q.free = none ∧ s.q.live 1 = false ∧ s.q.p 0 1 = 8 ∧ s.popped = [] :=
    ⟨_, (Reaches.refl _).step (.call 0 7 rfl)
      |>.step (.call 1 8 rfl)
      |>.step (.reserve (i := 0) (v := 7) rfl)
      |>.step (.reserve (i := 1) (v := 8) rfl)
      |>.step (.first (i := 0) (v := 7) (k := 1) rfl)
      |>.step (.swap (i := 1) (v := 8) rfl .last)
      |>.step (.swap (i := 1) (v := 8) rfl .write)
      |>.step (.second (i := 0) rfl), rfl, rfl, rfl, rfl, rfl, rfl, rfl, rfl, rfl, rfl⟩
  obtain ⟨⟨next, p, live, c, free, writer, reader⟩, producer, consumer, issued, published,
    popped⟩ := s
  dsimp only at writes swaps outside writer reader linked free live last popped
  subst outside writer reader free popped
  -- a chunk is linked, and the second one waits for the first one
  obtain ⟨s, linked, writes, waits, outside, writer, reader, next, last, popped⟩ :
      ∃ s : Mpsc ℕ, Reaches 2 (init 0 fun _ _ => 0) s ∧ s.producer 0 = .write 7 1 0 0 ∧
        s.producer 1 = .swap 8 (.wait 0 1) ∧ s.consumer = .outside ∧
        s.q.writer = ⟨0, 2, (0, 0)⟩ ∧ s.q.reader = ⟨0, 0, (0, 0)⟩ ∧ s.q.next 0 = some 1 ∧
        s.q.p 0 1 = 8 ∧ s.popped = [] :=
    ⟨_, entered.step (.swap (i := 1) (v := 8) swaps .look)
      |>.step (.swap (i := 1) (v := 8) rfl (.short linked))
      |>.step (.swap (i := 1) (v := 8) rfl (.uncached rfl))
      |>.step (.swap (i := 1) (v := 8) rfl (.allocate live))
      |>.step (.swap (i := 1) (v := 8) rfl .clear)
      |>.step (.swap (i := 1) (v := 8) rfl .join)
      |>.step (.swap (i := 1) (v := 8) rfl .link)
      |>.step (.swap (i := 1) (v := 8) rfl .ahead)
      |>.step (.swap (i := 1) (v := 8) rfl (.follow (e := 1) rfl)),
      writes, rfl, rfl, rfl, rfl, rfl, last, rfl⟩
  obtain ⟨⟨next, p, live, c, free, writer, reader⟩, producer, consumer, issued, published,
    popped⟩ := s
  dsimp only at writes waits outside writer reader next last popped
  subst outside writer reader popped
  -- the first one is popped, and the second one moves the queue to the new chunk
  obtain ⟨s, moved, resets, outside, writer, reader, next, last, popped⟩ :
      ∃ s : Mpsc ℕ, Reaches 2 (init 0 fun _ _ => 0) s ∧ s.producer 1 = .swap 8 .reset ∧
        s.consumer = .outside ∧ s.q.writer = ⟨1, 2, (1, 0)⟩ ∧ s.q.reader = ⟨0, 1, (0, 1)⟩ ∧
        s.q.next 0 = some 1 ∧ s.q.p 0 1 = 8 ∧ s.popped = [7] :=
    ⟨_, linked.step (.write (i := 0) writes)
      |>.step (.publish (i := 0) rfl rfl)
      |>.step (.pop (.readable rfl (show ((0 : ℕ), 0) ≠ (0, 1) by decide)))
      |>.step (.pop (.read rfl))
      |>.step (.swap (i := 1) (v := 8) waits (.wait rfl))
      |>.step (.pop (.moving rfl))
      |>.step (.swap (i := 1) (v := 8) rfl .turn)
      |>.step (.swap (i := 1) (v := 8) rfl (.next next))
      |>.step (.swap (i := 1) (v := 8) rfl .move)
      |>.step (.swapped (i := 1) rfl rfl),
      rfl, rfl, rfl, rfl, next, last, rfl⟩
  obtain ⟨⟨next, p, live, c, free, writer, reader⟩, producer, consumer, issued, published,
    popped⟩ := s
  dsimp only at resets outside writer reader next last popped
  subst outside writer reader popped
  -- the consumer follows it there and gives the first chunk back
  have reaches := moved.step (.pop (.readable rfl (show ((0 : ℕ), 1) ≠ (1, 0) by decide)))
    |>.step (.pop (.read rfl))
    |>.step (.pop (.spent rfl next))
    |>.step (.pop (.freeing rfl))
    |>.step (.pop (.caching rfl))
    |>.step (.reset resets)
    |>.step (.pop (.moving rfl))
  exact ⟨_, congrArg (fun x => [7, x]) last, mpsc_merged (by decide) 0 (fun _ _ => 0) reaches⟩

end Cyue.Mpsc
