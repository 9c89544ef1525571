import Cyue.Lib.Chain
import Cyue.Util.Queue

/-!
# The queue is a FIFO

The live chunks are chained from the reader's to the writer's; what was written
and not yet read stands in them in order.  With one thread both ways to move a
pointer are the same.
-/

namespace Cyue.Queue

open Chain

variable {α : Type*} {N : ℕ} {s s' : Queue α} {front frees : List ℕ} {val : α}

def written (N : ℕ) (s : Queue α) (front : List ℕ) : List α :=
  (front.flatMap fun c => (List.range N).map (s.p c)) ++
    (List.range s.writer.pos).map (s.p s.writer.c)

def contents (N : ℕ) (s : Queue α) (front : List ℕ) : List α :=
  (s.written N front).drop s.reader.pos

/-- The chunks in front of the writer's with it, and the cached ones. -/
structure Chunks (s : Queue α) (front frees : List ℕ) : Prop where
  chain : Segment s.next s.c (front ++ [s.writer.c]) none
  cached : Segment s.next s.free frees none
  disjoint : (front ++ [s.writer.c]).Disjoint frees
  live : ∀ a, a ∈ front ++ [s.writer.c] ∨ a ∈ frees → s.live a = true

/-- Both pointers stand at their positions, the reader in the first chunk. -/
structure Holds (N : ℕ) (s : Queue α) (front frees : List ℕ) : Prop
    extends Chunks s front frees where
  first : (front ++ [s.writer.c]).head? = some s.reader.c
  writerPtr : s.writer.ptr = current s.writer.c s.writer.pos
  writerPos : s.writer.pos < N
  readerPtr : s.reader.ptr = current s.reader.c s.reader.pos
  readerPos : s.reader.pos < N
  within : front = [] → s.reader.pos ≤ s.writer.pos

theorem init_holds (positive : 0 < N) (c : ℕ) (p : ℕ → ℕ → α) : Holds N (init c p) [] [] where
  chain := ⟨rfl, rfl⟩
  cached := rfl
  disjoint := List.disjoint_nil_right _
  live a member := by
    rw [or_iff_left List.not_mem_nil] at member
    exact decide_eq_true (List.mem_singleton.mp member)
  first := rfl
  writerPtr := rfl
  writerPos := positive
  readerPtr := rfl
  readerPos := positive
  within _ := Nat.le_refl _

/-! ## One thread -/

/-- A pointer that stands at its position is moved the same in both ways. -/
theorem mmovestep_eq {rval : Bool} {alloc : Option ℕ}
    (ptr : (s.cursor rval).ptr = current (s.cursor rval).c (s.cursor rval).pos)
    (pos : (s.cursor rval).pos < N) :
    s.mmovestep N rval val alloc = s.movestep N rval val alloc := by
  unfold mmovestep movestep
  generalize s.cursor rval = k at ptr pos
  obtain ⟨c, n, ptr'⟩ := k
  dsimp only at ptr pos ⊢
  subst ptr
  by_cases last : N = n + 1
  · subst last
    rw [if_pos (Nat.le_refl _), if_pos rfl, if_pos rfl, Nat.add_sub_cancel]
    cases rval with
    | true => simp only [↓reduceIte, ne_eq, not_true_eq_false]
    | false =>
        simp only [Bool.false_eq_true, ↓reduceIte, ne_eq, not_true_eq_false]
        cases (store _ (current c n) val).hasNext c alloc with
        | mk ok s =>
            cases ok with
            | false => rfl
            | true => rfl
  · rw [if_neg (by omega), if_neg last, Nat.add_sub_cancel, if_pos rfl]
    cases rval with
    | true => rfl
    | false => rfl

/-! ## Writing -/

/-- An element is written behind the others. -/
theorem written_store {p : ℕ → ℕ → α} {w n : ℕ} (outside : w ∉ front) :
    ((front.flatMap fun c => (List.range N).map
        (Function.update p w (Function.update (p w) n val) c)) ++
      (List.range (n + 1)).map (Function.update p w (Function.update (p w) n val) w)) =
      ((front.flatMap fun c => (List.range N).map (p c)) ++ (List.range n).map (p w)) ++ [val] := by
  have earlier : (front.flatMap fun c => (List.range N).map
      (Function.update p w (Function.update (p w) n val) c)) =
      front.flatMap fun c => (List.range N).map (p c) := by
    refine List.flatMap_congr fun c member => ?_
    rw [Function.update_of_ne]
    rintro rfl
    exact outside member
  have here : (List.range n).map (Function.update (p w) n val) = (List.range n).map (p w) := by
    refine List.map_congr_left fun m member => Function.update_of_ne ?_ ..
    exact Nat.ne_of_lt (List.mem_range.mp member)
  rw [earlier, Function.update_self, List.range_succ, List.map_append, here, List.map_singleton,
    Function.update_self, List.append_assoc]

/-- The reader is not ahead of the writer. -/
theorem Holds.read_le (holds : Holds N s front frees) :
    s.reader.pos ≤ (s.written N front).length := by
  rw [written, List.length_append, List.length_map, List.length_range]
  cases front with
  | nil => exact Nat.le_trans (holds.within rfl) (Nat.le_add_left ..)
  | cons h front =>
      rw [List.flatMap_cons, List.length_append, List.length_map, List.length_range, Nat.add_assoc]
      exact Nat.le_trans (Nat.le_of_lt holds.readerPos) (Nat.le_add_right ..)

theorem Chunks.writer_outside (chunks : Chunks s front frees) : s.writer.c ∉ front := by
  intro member
  exact (List.nodup_append.mp chunks.chain.nodup).2.2 _ member _ List.mem_cons_self rfl

/-- A chunk of neither list comes behind the writer's. -/
theorem Chunks.append {x : ℕ} {frees' : List ℕ} {live : ℕ → Bool} {free : Option ℕ}
    (chunks : Chunks s front frees) (outside : x ∉ front ++ [s.writer.c])
    (cached : Segment s.next free frees' none) (apart : x ∉ frees')
    (disjoint : (front ++ [s.writer.c]).Disjoint frees')
    (kept : ∀ a, a = x ∨ a ∈ front ++ [s.writer.c] ∨ a ∈ frees' → live a = true) (k : Cursor)
    (here : k.c = x) :
    Chunks { s with
      next := Function.update (Function.update s.next x none) s.writer.c (some x)
      live := live, free := free, writer := k } (front ++ [s.writer.c]) frees' := by
  subst here
  have last : s.writer.c ∉ frees' := disjoint (List.mem_append_right _ List.mem_cons_self)
  constructor
  · exact chunks.chain.snoc outside
  · exact (cached.update apart).update last
  · intro a member free
    rcases List.mem_append.mp member with earlier | same
    · exact disjoint earlier free
    · exact apart (List.mem_singleton.mp same ▸ free)
  · rintro a (member | free)
    · rcases List.mem_append.mp member with earlier | same
      · exact kept a (.inr (.inl earlier))
      · exact kept a (.inl (List.mem_singleton.mp same))
    · exact kept a (.inr (.inr free))

/-- The chunk comes from the cache or was never used. -/
theorem Chunks.expand (chunks : Chunks s front frees) {a : ℕ} (fresh : s.live a = false) :
    ∃ x frees' live free, s.expand (some a) = (true, { s with
        next := Function.update (Function.update s.next x none) s.writer.c (some x)
        live := live, free := free }) ∧
      ∀ k : Cursor, k.c = x → Chunks { s with
        next := Function.update (Function.update s.next x none) s.writer.c (some x)
        live := live, free := free, writer := k } (front ++ [s.writer.c]) frees' := by
  have start : s.free = frees.head? := chunks.cached.start_eq
  unfold Queue.expand cache
  rw [start]
  cases frees with
  | nil =>
      have new : ∀ b, b ∈ front ++ [s.writer.c] → b ≠ a := by
        rintro b member rfl
        rw [chunks.live b (.inl member)] at fresh
        cases fresh
      refine ⟨a, [], Function.update s.live a true, s.free, rfl, chunks.append ?_ chunks.cached
        List.not_mem_nil chunks.disjoint ?_⟩
      · exact fun member => new a member rfl
      · rintro b (rfl | member | free)
        · exact Function.update_self ..
        · exact (Function.update_of_ne (new b member) ..).trans (chunks.live b (.inl member))
        · cases free
  | cons x frees =>
      obtain ⟨apart, -⟩ := List.nodup_cons.mp chunks.cached.nodup
      refine ⟨x, frees, s.live, s.next x, rfl, chunks.append ?_ chunks.cached.2 apart ?_ ?_⟩
      · exact fun member => chunks.disjoint member List.mem_cons_self
      · exact fun b member free => chunks.disjoint member (List.mem_cons_of_mem x free)
      · rintro b (rfl | member | free)
        · exact chunks.live b (.inr List.mem_cons_self)
        · exact chunks.live b (.inl member)
        · exact chunks.live b (.inr (List.mem_cons_of_mem x free))

/-- A push puts its value behind the contents. -/
theorem Holds.push (holds : Holds N s front frees) (val : α) {a : ℕ} (fresh : s.live a = false) :
    ∃ front' frees' s', s.movestep N false val (some a) = some (true, val, s') ∧
      Holds N s' front' frees' ∧ s'.contents N front' = s.contents N front ++ [val] := by
  have outside := holds.writer_outside
  have appended := @written_store α N front val s.p s.writer.c s.writer.pos outside
  have read := holds.read_le
  have behind : ∀ l, l = s.written N front ++ [val] →
      l.drop s.reader.pos = s.contents N front ++ [val] := by
    rintro l rfl
    rw [List.drop_append_of_le_length read]
    rfl
  obtain ⟨t, same⟩ : ∃ t : Queue α, t = { s with
      p := Function.update s.p s.writer.c (Function.update (s.p s.writer.c) s.writer.pos val)
      writer := { s.writer with pos := s.writer.pos + 1 } } := ⟨_, rfl⟩
  have stored : (s.setCursor false { s.writer with pos := s.writer.pos + 1 }).store
      s.writer.ptr val = t := by
    rw [same, holds.writerPtr]
    rfl
  by_cases last : N = s.writer.pos + 1
  · have chunks : Chunks t front frees := by
      rw [same]
      exact ⟨holds.chain, holds.cached, holds.disjoint, holds.live⟩
    have end_ : t.next t.writer.c = none := Segment.next_eq (r := []) chunks.chain
    have fresh' : t.live a = false := by
      rw [same]
      exact fresh
    obtain ⟨x, frees', live, free, expanded, chunks'⟩ := chunks.expand fresh'
    have grown : t.hasNext s.writer.c (some a) = (true, { t with
        next := Function.update (Function.update t.next x none) t.writer.c (some x)
        live := live, free := free }) := by
      rw [hasNext, show s.writer.c = t.writer.c by rw [same], end_]
      exact expanded
    refine ⟨front ++ [s.writer.c], frees', { t with
      next := Function.update (Function.update t.next x none) t.writer.c (some x)
      live := live, free := free, writer := ⟨x, 0, current x 0⟩ }, ?_, ?_, ?_⟩
    · have next : Function.update (Function.update t.next x none) t.writer.c (some x) s.writer.c =
          some x := by
        rw [show s.writer.c = t.writer.c by rw [same], Function.update_self]
      have grown' : ((s.setCursor false { s.writer with pos := s.writer.pos + 1 }).store
          s.writer.ptr val).hasNext s.writer.c (some a) = (true, { t with
            next := Function.update (Function.update t.next x none) t.writer.c (some x)
            live := live, free := free }) := by rw [stored, grown]
      refine (if_pos last).trans ((if_neg Bool.false_ne_true).trans ?_)
      split
      · next s' failed => cases grown'.symm.trans failed
      · next s' done =>
          obtain ⟨-, rfl⟩ := Prod.mk.inj (grown'.symm.trans done)
          split
          · next none => cases none.symm.trans next
          · next c found =>
              obtain rfl := Option.some.inj (next.symm.trans found)
              rfl
    · have here : t.writer.c = s.writer.c := by rw [same]
      have reader : t.reader = s.reader := by rw [same]
      have chunks'' := chunks' ⟨x, 0, current x 0⟩ rfl
      rw [here] at chunks'' ⊢
      refine ⟨chunks'', ?_, rfl, Nat.lt_of_le_of_lt (Nat.zero_le _) holds.writerPos, ?_, ?_, ?_⟩
      · rw [List.head?_append, holds.first, reader]
        rfl
      · rw [reader]
        exact holds.readerPtr
      · rw [reader]
        exact holds.readerPos
      · exact fun none => absurd none (List.append_ne_nil_of_right_ne_nil _ (List.cons_ne_nil _ _))
    · have reader : t.reader = s.reader := by rw [same]
      have p : t.p = Function.update s.p s.writer.c
          (Function.update (s.p s.writer.c) s.writer.pos val) := by rw [same]
      rw [contents, reader]
      apply behind
      rw [written, List.flatMap_append, List.flatMap_singleton, List.range_zero, List.map_nil,
        List.append_nil, p]
      rw [← last] at appended
      exact appended
  · have moved : s.movestep N false val (some a) = some (true, val, { t with
        writer := ⟨s.writer.c, s.writer.pos + 1, current s.writer.c (s.writer.pos + 1)⟩ }) := by
      have skip : s.movestep N false val (some a) =
          some (true, val, ((s.setCursor false { s.writer with pos := s.writer.pos + 1 }).store
            s.writer.ptr val).setCursor false
              ⟨s.writer.c, s.writer.pos + 1, current s.writer.c (s.writer.pos + 1)⟩) := if_neg last
      rw [skip, stored]
      rfl
    have more : s.writer.pos + 1 < N := Nat.lt_of_le_of_ne holds.writerPos (Ne.symm last)
    refine ⟨front, frees, _, moved, ?_, ?_⟩
    · rw [same]
      exact ⟨⟨holds.chain, holds.cached, holds.disjoint, holds.live⟩, holds.first, rfl, more,
        holds.readerPtr, holds.readerPos, fun none => Nat.le_succ_of_le (holds.within none)⟩
    · rw [same]
      exact behind _ appended

/-! ## Reading -/

/-- The first chunk is the reader's. -/
theorem Holds.reader_eq (holds : Holds N s front frees) :
    (front = [] ∧ s.reader.c = s.writer.c) ∨ ∃ front', front = s.reader.c :: front' := by
  have first := holds.first
  cases front with
  | nil => exact .inl ⟨rfl, (Option.some.inj first).symm⟩
  | cons h front =>
      obtain rfl := Option.some.inj first
      exact .inr ⟨front, rfl⟩

/-- What the reader's pointer points to is the first of the contents. -/
theorem Holds.contents_eq (holds : Holds N s front frees)
    (more : s.reader.pos < (s.written N front).length) :
    s.contents N front =
      s.p s.reader.c s.reader.pos :: (s.written N front).drop (s.reader.pos + 1) := by
  rw [contents, List.drop_eq_getElem_cons more]
  congr 1
  simp only [written] at more ⊢
  rcases holds.reader_eq with ⟨rfl, same⟩ | ⟨front', rfl⟩
  · rw [same]
    simp
  · have within := holds.readerPos
    simp only [List.flatMap_cons, List.append_assoc]
    rw [List.getElem_append_left (by simpa using within)]
    simp

/-- The pointers differ as long as there is something to read. -/
theorem Holds.readable_iff (holds : Holds N s front frees) :
    s.readable = true ↔ s.reader.pos < (s.written N front).length := by
  rw [readable, decide_eq_true_iff, holds.readerPtr, holds.writerPtr, current, current, written,
    List.length_append, List.length_map, List.length_range]
  rcases holds.reader_eq with ⟨rfl, same⟩ | ⟨front', rfl⟩
  · have le := holds.within rfl
    rw [same, List.flatMap_nil, List.length_nil, Nat.zero_add]
    constructor
    · intro other
      refine Nat.lt_of_le_of_ne le fun equal => other ?_
      rw [equal]
    · intro less equal
      exact Nat.ne_of_lt less (congrArg Prod.snd equal)
  · have other : s.reader.c ≠ s.writer.c := fun same =>
      holds.writer_outside (same ▸ List.mem_cons_self)
    refine iff_of_true (fun equal => other (congrArg Prod.fst equal)) ?_
    rw [List.flatMap_cons, List.length_append, List.length_map, List.length_range, Nat.add_assoc]
    exact Nat.lt_of_lt_of_le holds.readerPos (Nat.le_add_right ..)

theorem recycle_first {c : ℕ} (start : s.c = some c) : s.recycle c =
    { s with c := s.next c, next := Function.update s.next c s.free, free := some c } := by
  simp only [recycle, if_pos start]

/-- A pop takes the first of the contents; a chunk that was read goes to the
cache. -/
theorem Holds.pop (holds : Holds N s front frees) (val : α) (readable : s.readable = true) :
    ∃ front' frees' val' s', s.movestep N true val none = some (true, val', s') ∧
      Holds N s' front' frees' ∧ s.contents N front = val' :: s'.contents N front' := by
  have more := holds.readable_iff.mp readable
  have contents := holds.contents_eq more
  have loaded : s.load s.reader.ptr = s.p s.reader.c s.reader.pos := by
    rw [load, holds.readerPtr]
    rfl
  by_cases last : N = s.reader.pos + 1
  · -- the writer is in another chunk
    obtain ⟨front', rfl⟩ : ∃ front', front = s.reader.c :: front' := by
      rcases holds.reader_eq with ⟨rfl, -⟩ | found
      · have written := holds.writerPos
        simp only [Queue.written, List.flatMap_nil, List.nil_append, List.length_map,
          List.length_range] at more
        omega
      · exact found
    have start : s.c = some s.reader.c := holds.chain.1
    have behind : Segment s.next (s.next s.reader.c) (front' ++ [s.writer.c]) none := holds.chain.2
    have distinct := (List.nodup_cons.mp holds.chain.nodup).1
    have kept : s.reader.c ∉ frees := fun cached => holds.disjoint List.mem_cons_self cached
    obtain ⟨c, next⟩ : ∃ c, s.next s.reader.c = some c := by
      rw [behind.start_eq]
      cases front' with
      | nil => exact ⟨_, rfl⟩
      | cons c front' => exact ⟨_, rfl⟩
    have moved : s.movestep N true val none = some (true, s.load s.reader.ptr,
        ((s.setCursor true { s.reader with c := c, pos := s.reader.pos + 1 }).recycle
          s.reader.c).setCursor true ⟨c, 0, current c 0⟩) := by
      refine (if_pos last).trans ((if_pos rfl).trans ?_)
      split
      · next none => cases none.symm.trans next
      · next c' found =>
          obtain rfl := Option.some.inj (next.symm.trans found)
          rfl
    have recycled : ((s.setCursor true { s.reader with c := c, pos := s.reader.pos + 1 }).recycle
        s.reader.c).setCursor true ⟨c, 0, current c 0⟩ = { s with
          c := s.next s.reader.c, next := Function.update s.next s.reader.c s.free,
          free := some s.reader.c, reader := ⟨c, 0, current c 0⟩ } := by
      rw [recycle_first (s := s.setCursor true
        { s.reader with c := c, pos := s.reader.pos + 1 }) start]
      rfl
    rw [recycled, loaded] at moved
    refine ⟨front', s.reader.c :: frees, _, _, moved, ?_, ?_⟩
    · refine ⟨⟨behind.update distinct, ⟨rfl, ?_⟩, ?_, ?_⟩, ?_, holds.writerPtr, holds.writerPos, rfl,
        Nat.lt_of_le_of_lt (Nat.zero_le _) holds.readerPos, fun _ => Nat.zero_le _⟩
      · dsimp only
        rw [Function.update_self]
        exact holds.cached.update kept
      · exact List.disjoint_cons_right.mpr
          ⟨distinct, fun a member => holds.disjoint (List.mem_cons_of_mem _ member)⟩
      · rintro a (member | cached)
        · exact holds.live a (.inl (List.mem_cons_of_mem _ member))
        · rcases List.mem_cons.mp cached with rfl | cached
          · exact holds.live _ (.inl List.mem_cons_self)
          · exact holds.live a (.inr cached)
      · rw [← next, behind.start_eq]
    · rw [contents]
      congr 1
      rw [Queue.contents, List.drop_zero, written, List.flatMap_cons, List.append_assoc, ← last]
      exact List.drop_left' (by rw [List.length_map, List.length_range])
  · have moved : s.movestep N true val none = some (true, s.p s.reader.c s.reader.pos, { s with
        reader := ⟨s.reader.c, s.reader.pos + 1, current s.reader.c (s.reader.pos + 1)⟩ }) := by
      rw [← loaded]
      exact if_neg last
    refine ⟨front, frees, _, _, moved, ?_, contents⟩
    refine ⟨⟨holds.chain, holds.cached, holds.disjoint, holds.live⟩, holds.first, holds.writerPtr,
      holds.writerPos, rfl, Nat.lt_of_le_of_ne holds.readerPos (Ne.symm last), ?_⟩
    rintro rfl
    have less : s.reader.pos < s.writer.pos := by simpa [written] using more
    exact less

/-! ## Runs -/

def fifo (l : List α) : List (Op α) → List (Result α) × List α
  | [] => ([], l)
  | .push val _ :: ops => ((.pushed true) :: (fifo (l ++ [val]) ops).1, (fifo (l ++ [val]) ops).2)
  | .mpush val _ :: ops => ((.pushed true) :: (fifo (l ++ [val]) ops).1, (fifo (l ++ [val]) ops).2)
  | .pop _ :: ops => (.popped l.head? :: (fifo l.tail ops).1, (fifo l.tail ops).2)
  | .mpop _ :: ops => (.popped l.head? :: (fifo l.tail ops).1, (fifo l.tail ops).2)

/-- `allocate` would return a chunk that it has not returned before. -/
def Supplied (s : Queue α) : Op α → Prop
  | .push _ alloc => ∃ a, alloc = some a ∧ s.live a = false
  | .mpush _ alloc => ∃ a, alloc = some a ∧ s.live a = false
  | _ => True

def AllSupplied (N : ℕ) (s : Queue α) : List (Op α) → Prop
  | [] => True
  | op :: ops => s.Supplied op ∧
      match s.step N op with
      | none => True
      | some (_, s') => AllSupplied N s' ops

/-- A pop, of either kind, takes the head of the contents if there is one. -/
theorem Holds.pops (holds : Holds N s front frees) (val : α)
    {moved : Option (Bool × α × Queue α)} (same : moved = s.movestep N true val none) :
    ∃ front' frees' s', (if s.readable then moved.map fun (ok, val, s) => (Result.popOf ok val, s)
        else some (.popped none, s)) = some (.popped (s.contents N front).head?, s') ∧
      Holds N s' front' frees' ∧ s'.contents N front' = (s.contents N front).tail := by
  subst same
  by_cases readable : s.readable = true
  · obtain ⟨front', frees', val', s', moved, holds', contents⟩ := holds.pop val readable
    rw [if_pos readable, moved, contents]
    exact ⟨front', frees', s', rfl, holds', rfl⟩
  · have empty : s.contents N front = [] := by
      rw [contents, List.drop_eq_nil_iff]
      exact Nat.le_of_not_lt fun less => readable (holds.readable_iff.mpr less)
    rw [if_neg readable, empty]
    exact ⟨front, frees, s, rfl, holds, empty⟩

/-- Any calls, one at a time, give the results that they give on a list, and
leave the live chunks and the cached ones apart. -/
theorem queue_fifo (positive : 0 < N) (c : ℕ) (p : ℕ → ℕ → α) (ops : List (Op α))
    (supplied : AllSupplied N (init c p) ops) :
    ∃ s front frees, run N (init c p) ops = some ((fifo [] ops).1, s) ∧ Holds N s front frees ∧
      s.contents N front = (fifo [] ops).2 := by
  have runs : ∀ (ops : List (Op α)) (s : Queue α) (front frees : List ℕ), Holds N s front frees →
      AllSupplied N s ops → ∃ s' front' frees',
        run N s ops = some ((fifo (s.contents N front) ops).1, s') ∧ Holds N s' front' frees' ∧
          s'.contents N front' = (fifo (s.contents N front) ops).2 := by
    intro ops
    induction ops with
    | nil => exact fun s front frees holds _ => ⟨s, front, frees, rfl, holds, rfl⟩
    | cons op ops ih =>
        intro s front frees holds supplied
        -- what is left to show once the call is known to return
        have goes : ∀ (result : Result α) (l : List α) (s' : Queue α) (front' frees' : List ℕ),
            s.step N op = some (result, s') → Holds N s' front' frees' →
            s'.contents N front' = l → fifo (s.contents N front) (op :: ops) =
              (result :: (fifo l ops).1, (fifo l ops).2) →
            ∃ s' front' frees', run N s (op :: ops) =
                some ((fifo (s.contents N front) (op :: ops)).1, s') ∧ Holds N s' front' frees' ∧
              s'.contents N front' = (fifo (s.contents N front) (op :: ops)).2 := by
          intro result l s' front' frees' stepped holds' contents list
          have left := supplied.2
          rw [stepped] at left
          obtain ⟨s'', front'', frees'', ran, holds'', contents'⟩ := ih s' front' frees' holds' left
          rw [contents] at ran contents'
          refine ⟨s'', front'', frees'', ?_, holds'', ?_⟩
          · rw [run, stepped, Option.bind_some]
            dsimp only
            rw [ran, list]
            rfl
          · rw [list]
            exact contents'
        cases op with
        | push val alloc =>
            obtain ⟨a, rfl, fresh⟩ := supplied.1
            obtain ⟨front', frees', s', moved, holds', contents⟩ := holds.push val fresh
            refine goes (.pushed true) _ s' front' frees' ?_ holds' contents rfl
            rw [step, moved]
            rfl
        | mpush val alloc =>
            obtain ⟨a, rfl, fresh⟩ := supplied.1
            obtain ⟨front', frees', s', moved, holds', contents⟩ := holds.push val fresh
            refine goes (.pushed true) _ s' front' frees' ?_ holds' contents rfl
            have same := @mmovestep_eq α N s val false (some a) holds.writerPtr holds.writerPos
            rw [step, same, moved]
            rfl
        | pop val =>
            obtain ⟨front', frees', s', popped, holds', contents⟩ := holds.pops val rfl
            exact goes _ _ s' front' frees' popped holds' contents rfl
        | mpop val =>
            obtain ⟨front', frees', s', popped, holds', contents⟩ :=
              holds.pops val (@mmovestep_eq α N s val true none holds.readerPtr holds.readerPos)
            exact goes _ _ s' front' frees' popped holds' contents rfl
  exact runs ops (init c p) [] [] (init_holds positive c p) supplied

/-- Two elements a chunk; the second chunk is allocated, and the first one is
recycled for the third. -/
theorem queue_fifo_two : ∃ s front frees, run 2 (init 0 fun _ _ => 0)
    [.push 1 (some 7), .mpush 2 (some 7), .pop 0, .mpop 0, .mpop 0, .mpush 3 (some 8),
      .push 4 (some 8), .pop 0] =
    some ([.pushed true, .pushed true, .popped (some 1), .popped (some 2), .popped none,
      .pushed true, .pushed true, .popped (some 3)], s) ∧ Holds 2 s front frees ∧
      s.contents 2 front = [4] := by
  have supplied : AllSupplied 2 (init 0 fun _ _ => 0) [.push 1 (some 7), .mpush 2 (some 7), .pop 0,
      .mpop 0, .mpop 0, .mpush 3 (some 8), .push 4 (some 8), .pop 0] :=
    ⟨⟨7, rfl, rfl⟩, ⟨7, rfl, rfl⟩, trivial, trivial, trivial, ⟨8, rfl, rfl⟩, ⟨8, rfl, rfl⟩,
      trivial, trivial⟩
  exact queue_fifo (by decide) 0 (fun _ _ => 0) _ supplied

end Cyue.Queue
