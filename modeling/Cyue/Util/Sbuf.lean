import Cyue.Lib.Chain
import Cyue.Lib.Fuel
import Cyue.Lib.Region
import Cyue.Util.Reserve
import Mathlib.Data.List.Pairwise

/-!
# `sbuf`

Memory that is given back all at once.  `malloc` hands out the next bytes of the
latest unit and gets a new unit when they do not suffice; `refer` keeps a record
of a reference to a buffer in this memory.  The units are chained through their
first eight bytes and the records through theirs.  Sizes are `size_t`, and an
address of 0 is a null pointer.
-/

namespace Cyue

open Chain Memory Shared

structure Sbuf where
  alloc : ℕ
  block : ℕ
  free : ℕ
  refs : ℕ
  deriving DecidableEq

namespace Sbuf

def allocUnitSize : ℕ := 256

/-- `sizeof(alloc_unit)` -/
def unitHead : ℕ := 8

/-- `sizeof(struct buf_reference)`; `m_ptr` is behind `m_next`. -/
def recordSize : ℕ := 16

/-- What `malloc` has handed out: a record of a reference to this buffer, or what
a caller has asked for. -/
structure Block extends Region where
  ref : Option ℕ
  deriving DecidableEq

/-- The memory with the units that are not released and the blocks that were handed
out, both with the latest one first.  The heap has the counts of the buffers. -/
structure World where
  mem : Mem
  heap : Heap Unit
  sbuf : Sbuf
  units : List Region
  blocks : List Block

def link (p : ℕ) : Option ℕ := if p = 0 then none else some p

/-- `next` of a unit, and `m_next` of a record. -/
def next (m : Mem) (addr : ℕ) : Option ℕ := link (loadLe m addr 8)

namespace World

/-- `sbuf()`, which leaves `m_block` as it is. -/
def new (mem : Mem) (heap : Heap Unit) (block : ℕ) : World := ⟨mem, heap, ⟨0, block, 0, 0⟩, [], []⟩

/-- A new unit with room for `s`; none inside is a failure of `mem::alloc`, which is
given as `alloc`. -/
def unit (fuel : ℕ) (alloc : ℕ → Option ℕ) (s : ℕ) (w : World) : Option (Option World) :=
  (Reserve.grow s fuel allocUnitSize).map fun sz =>
    (alloc (sz + unitHead)).map fun ptr =>
      { w with
        mem := storeLe w.mem ptr 8 w.sbuf.alloc
        units := ⟨ptr, sz + unitHead⟩ :: w.units
        sbuf := { w.sbuf with alloc := ptr, block := ptr + unitHead, free := sz - s } }

/-- `p = m_block`, `m_block += s` -/
def bump (s : ℕ) (w : World) : ℕ × World :=
  (w.sbuf.block, { w with sbuf := { w.sbuf with block := w.sbuf.block + s } })

/-- `malloc`; none inside is the null pointer. -/
def malloc (fuel : ℕ) (alloc : ℕ → Option ℕ) (s : ℕ) (w : World) : Option (Option (ℕ × World)) :=
  if w.sbuf.free > s then
    some (some (bump s { w with sbuf := { w.sbuf with free := w.sbuf.free - s } }))
  else (w.unit fuel alloc s).map fun result => result.map (bump s)

def keep (b : Block) (w : World) : World := { w with blocks := b :: w.blocks }

/-- A call of `malloc`: the memory belongs to the caller. -/
def give (fuel : ℕ) (alloc : ℕ → Option ℕ) (s : ℕ) (w : World) : Option World :=
  (w.malloc fuel alloc s).map fun result =>
    result.elim w fun got => got.2.keep ⟨⟨got.1, s⟩, none⟩

/-- `refer`, for the buffer of `m_ptr` at this address. -/
def refer (fuel : ℕ) (alloc : ℕ → Option ℕ) (ptr : ℕ) (w : World) : Option World :=
  (w.malloc fuel alloc recordSize).map fun result =>
    result.elim w fun got =>
      { got.2.keep ⟨⟨got.1, recordSize⟩, some ptr⟩ with
        mem := storeLe (storeLe got.2.mem got.1 8 got.2.sbuf.refs) (got.1 + 8) 8 ptr
        heap := got.2.heap.refer ptr
        sbuf := { got.2.sbuf with refs := got.1 } }

/-- The first loop of `fin`: the buffers that are unreferred, as long as the records are in
memory that is not released. -/
def unrefs (w : World) : ℕ → Option ℕ → Option (List ℕ)
  | _, none => some []
  | 0, some _ => none
  | fuel + 1, some ref =>
      if ∃ u ∈ w.units, Region.Within ⟨ref, recordSize⟩ u then
        (unrefs w fuel (next w.mem ref)).map (loadLe w.mem (ref + 8) 8 :: ·)
      else none

/-- The second loop of `fin`: the units that are left, as long as those that it reads and
releases are not released. -/
def release (m : Mem) : ℕ → List Region → Option ℕ → Option (List Region)
  | _, live, none => some live
  | 0, _, some _ => none
  | fuel + 1, live, some au =>
      if ∃ u ∈ live, u.addr = au then
        release m fuel (live.eraseP fun u => u.addr = au) (next m au)
      else none

end World

/-- What `fin` has done: the buffers it unreferred, their counts, and the units that are not
released. -/
structure Finished where
  unrefs : List ℕ
  heap : Heap Unit
  units : List Region

def World.fin (fuel : ℕ) (w : World) : Option Finished :=
  (w.unrefs fuel (link w.sbuf.refs)).bind fun ptrs =>
    (release w.mem fuel w.units (link w.sbuf.alloc)).map fun live =>
      ⟨ptrs, w.heap.unrefAll ptrs, live⟩

/-! ## Runs -/

/-- The records with the buffers they refer to, the latest first. -/
def records (blocks : List Block) : List (ℕ × ℕ) :=
  blocks.filterMap fun b => b.ref.map fun ptr => (b.addr, ptr)

/-- What `mem::alloc` may return: memory that nobody has, and none at the null pointer. -/
def Fair (alloc : ℕ → Option ℕ) (w : World) : Prop :=
  ∀ size ptr, alloc size = some ptr →
    0 < ptr ∧ ptr + size ≤ 2 ^ 64 ∧ ∀ u ∈ w.units, Region.Apart ⟨ptr, size⟩ u

/-- A call that returns, with any size and any answers of `mem::alloc`.  A buffer that is
referred to is one of those that somebody has. -/
inductive Call (held : List ℕ) (w : World) : World → Prop
  | malloc {w' : World} {fuel s : ℕ} {alloc : ℕ → Option ℕ} (fair : Fair alloc w)
      (ran : w.give fuel alloc s = some w') : Call held w w'
  | refer {w' : World} {fuel ptr : ℕ} {alloc : ℕ → Option ℕ} (fair : Fair alloc w)
      (member : ptr ∈ held) (small : ptr < 2 ^ 64) (ran : w.refer fuel alloc ptr = some w') :
      Call held w w'

/-- What others may write to: what they got from `malloc`, and anything that does not belong
to the `sbuf`. -/
def Writable (w : World) (i : ℕ) : Prop :=
  (∃ b ∈ w.blocks, b.ref = none ∧ b.toRegion.Has i) ∨ ∀ u ∈ w.units, ¬u.Has i

inductive Step (held : List ℕ) (w : World) : World → Prop
  | call {w' : World} (call : Call held w w') : Step held w w'
  | write {i : ℕ} (value : UInt8) (writable : Writable w i) :
      Step held w { w with mem := store w.mem i [value] }

/-- What a new `sbuf` comes to, with the references that others have.  They may take and give
back their own ones. -/
inductive Reached : List ℕ → World → Prop
  | new {held : List ℕ} {mem : Mem} {heap : Heap Unit} {block : ℕ}
      (accounted : heap.Accounted held) : Reached held (.new mem heap block)
  | step {held : List ℕ} {w w' : World} (reached : Reached held w) (step : Step held w w') :
      Reached held w'
  | others {held held' : List ℕ} {w : World} {heap : Heap Unit} (reached : Reached held w)
      (accounted : heap.Accounted ((records w.blocks).map Prod.snd ++ held')) :
      Reached held' { w with heap := heap }

/-! ## The invariant -/

/-- What `malloc` hands out of a unit. -/
def room (u : Region) : Region := ⟨u.addr + unitHead, u.size - unitHead⟩

/-- `n` bytes from `m_block` on are free. -/
structure Room (n : ℕ) (w : World) : Prop where
  inside : ∃ u ∈ w.units, Region.Within ⟨w.sbuf.block, n⟩ (room u)
  apart : ∀ b ∈ w.blocks, b.toRegion.Apart ⟨w.sbuf.block, n⟩

structure Sound (held : List ℕ) (w : World) : Prop where
  unitsApart : w.units.Pairwise Region.Apart
  unit : ∀ u ∈ w.units, 0 < u.addr ∧ u.addr + u.size ≤ 2 ^ 64 ∧ unitHead ≤ u.size
  blocksApart : w.blocks.Pairwise fun a b => a.toRegion.Apart b.toRegion
  inside : ∀ b ∈ w.blocks, ∃ u ∈ w.units, b.toRegion.Within (room u)
  chain : Segment (next w.mem) (link w.sbuf.alloc) (w.units.map Region.addr) none
  refs : Segment (next w.mem) (link w.sbuf.refs) ((records w.blocks).map Prod.fst) none
  record : ∀ b ∈ w.blocks, ∀ ptr, b.ref = some ptr →
    b.size = recordSize ∧ loadLe w.mem (b.addr + 8) 8 = ptr
  counts : w.heap.Accounted ((records w.blocks).map Prod.snd ++ held)

structure Inv (held : List ℕ) (w : World) : Prop extends Sound held w where
  free : w.sbuf.free = 0 ∨ Room w.sbuf.free w

/-- Everything that was handed out is still there and as it was. -/
structure Kept (w w' : World) : Prop where
  units : w.units <:+ w'.units
  blocks : w.blocks <:+ w'.blocks
  mem : ∀ b ∈ w.blocks, ∀ i, b.toRegion.Has i → w'.mem i = w.mem i

/-- What `malloc` has got, before anybody writes to it. -/
structure Got (w w' : World) (r : Region) : Prop where
  inside : ∃ u ∈ w'.units, r.Within (room u)
  apart : ∀ b ∈ w'.blocks, b.toRegion.Apart r
  free : Room w'.sbuf.free w'
  rest : r.Apart ⟨w'.sbuf.block, w'.sbuf.free⟩
  blocks : w'.blocks = w.blocks
  units : w.units <:+ w'.units
  mem : ∀ u ∈ w.units, ∀ i, u.Has i → w'.mem i = w.mem i

theorem inv_new {held : List ℕ} {mem : Mem} {heap : Heap Unit} {block : ℕ}
    (accounted : heap.Accounted held) : Inv held (.new mem heap block) where
  unitsApart := List.Pairwise.nil
  unit := fun _ member => absurd member List.not_mem_nil
  blocksApart := List.Pairwise.nil
  inside := fun _ member => absurd member List.not_mem_nil
  chain := rfl
  refs := rfl
  record := fun _ member => absurd member List.not_mem_nil
  counts := accounted
  free := Or.inl rfl

/-! ## Regions -/

theorem room_within {u : Region} (head : unitHead ≤ u.size) : (room u).Within u := by
  constructor
  · exact Nat.le_add_right _ _
  · simp only [room]
    omega

theorem head_within {u : Region} (head : unitHead ≤ u.size) :
    Region.Within ⟨u.addr, unitHead⟩ u :=
  ⟨Nat.le_refl _, Nat.add_le_add_left head _⟩

section

variable {held : List ℕ} {w : World}

/-- What was handed out belongs to a unit, and does not reach its head or that of another
one. -/
theorem Sound.head_apart (sound : Sound held w) {u v r : Region} (uMember : u ∈ w.units)
    (vMember : v ∈ w.units) (within : r.Within (room v)) :
    Region.Apart ⟨u.addr, unitHead⟩ r := by
  obtain ⟨-, -, uHead⟩ := sound.unit u uMember
  obtain ⟨-, -, vHead⟩ := sound.unit v vMember
  by_cases same : u = v
  · subst same
    exact Or.inl within.1
  · have apart := sound.unitsApart.forall uMember vMember same
    exact apart.of_within (head_within uHead) (within.trans (room_within vHead))

theorem Sound.addr_small (sound : Sound held w) : ∀ a ∈ w.units.map Region.addr, a < 2 ^ 64 := by
  intro a member
  obtain ⟨u, uMember, rfl⟩ := List.mem_map.mp member
  obtain ⟨-, top, head⟩ := sound.unit u uMember
  simp only [unitHead] at head
  omega

/-- A link that was followed fits into eight bytes. -/
theorem link_small {m : Mem} {p : ℕ} {l : List ℕ} (chain : Segment (next m) (link p) l none)
    (small : ∀ a ∈ l, a < 2 ^ 64) : p < 256 ^ 8 := by
  by_cases null : p = 0
  · rw [null]
    decide
  · exact small p (chain.start_mem (if_neg null))

theorem mem_records {blocks : List Block} {r ptr : ℕ} :
    (r, ptr) ∈ records blocks ↔ ∃ b ∈ blocks, b.ref = some ptr ∧ b.addr = r := by
  simp only [records, List.mem_filterMap, Option.map_eq_some_iff, Prod.mk.injEq]
  constructor
  · rintro ⟨b, member, ptr', ref, rfl, rfl⟩
    exact ⟨b, member, ref, rfl⟩
  · rintro ⟨b, member, ref, rfl⟩
    exact ⟨b, member, ptr, ref, rfl, rfl⟩

theorem loadLe_same {m m' : Mem} {off : ℕ}
    (same : ∀ i, Region.Has ⟨off, 8⟩ i → m' i = m i) : loadLe m' off 8 = loadLe m off 8 :=
  loadLe_congr fun i low high => same i ⟨low, high⟩

/-- The links and the records are all of the memory that the `sbuf` depends on. -/
theorem Sound.of_mem (sound : Sound held w) {m : Mem}
    (heads : ∀ u ∈ w.units, ∀ i, Region.Has ⟨u.addr, unitHead⟩ i → m i = w.mem i)
    (kept : ∀ b ∈ w.blocks, b.ref ≠ none → ∀ i, b.toRegion.Has i → m i = w.mem i) :
    Sound held { w with mem := m } := by
  have bytes : ∀ b ∈ w.blocks, ∀ ptr, b.ref = some ptr →
      loadLe m b.addr 8 = loadLe w.mem b.addr 8 ∧
        loadLe m (b.addr + 8) 8 = loadLe w.mem (b.addr + 8) 8 := by
    intro b member ptr ref
    have size : b.size = 16 := (sound.record b member ptr ref).1
    have same := kept b member (by rw [ref]; exact Option.some_ne_none ptr)
    constructor
    · refine loadLe_same fun i has => same i (has.of_within ⟨Nat.le_refl _, ?_⟩)
      simp only
      omega
    · refine loadLe_same fun i has => same i (has.of_within ⟨Nat.le_add_right _ _, ?_⟩)
      simp only
      omega
  refine { sound with chain := ?_, refs := ?_, record := ?_ }
  · refine sound.chain.congr fun addr member => ?_
    obtain ⟨u, uMember, rfl⟩ := List.mem_map.mp member
    exact congrArg link (loadLe_same fun i has => heads u uMember i has)
  · refine sound.refs.congr fun addr member => ?_
    obtain ⟨⟨r, ptr⟩, recorded, rfl⟩ := List.mem_map.mp member
    obtain ⟨b, bMember, ref, rfl⟩ := mem_records.mp recorded
    exact congrArg link (bytes b bMember ptr ref).1
  · intro b member ptr ref
    obtain ⟨size, stored⟩ := sound.record b member ptr ref
    exact ⟨size, (bytes b member ptr ref).2.trans stored⟩

/-! ## `malloc` -/

theorem bump_spec {s n : ℕ} (roomy : Room (s + n) w) :
    Region.Apart ⟨w.sbuf.block, s⟩ ⟨w.sbuf.block + s, n⟩ ∧
      (∃ u ∈ w.units, Region.Within ⟨w.sbuf.block, s⟩ (room u)) ∧
      (∀ b ∈ w.blocks, b.toRegion.Apart ⟨w.sbuf.block, s⟩) ∧ Room n (w.bump s).2 := by
  obtain ⟨⟨u, member, within⟩, apart⟩ := roomy
  have front : Region.Within ⟨w.sbuf.block, s⟩ ⟨w.sbuf.block, s + n⟩ :=
    ⟨Nat.le_refl _, Nat.add_le_add_left (Nat.le_add_right s n) _⟩
  have back : Region.Within ⟨w.sbuf.block + s, n⟩ ⟨w.sbuf.block, s + n⟩ :=
    ⟨Nat.le_add_right _ _, Nat.le_of_eq (Nat.add_assoc _ _ _)⟩
  refine ⟨Or.inl (Nat.le_refl _), ⟨u, member, front.trans within⟩, ?_, ?_⟩
  · exact fun b bMember => (apart b bMember).of_within (Region.Within.refl _) front
  · exact ⟨⟨u, member, back.trans within⟩,
      fun b bMember => (apart b bMember).of_within (Region.Within.refl _) back⟩

/-- A new unit is put in front of the chain, and all of it is free. -/
theorem unit_spec (sound : Sound held w) {fuel s : ℕ} {alloc : ℕ → Option ℕ} (fair : Fair alloc w)
    {w' : World} (ran : w.unit fuel alloc s = some (some w')) :
    Sound held w' ∧ Room (s + w'.sbuf.free) w' ∧ w'.blocks = w.blocks ∧ w.units <:+ w'.units ∧
      ∀ u ∈ w.units, ∀ i, u.Has i → w'.mem i = w.mem i := by
  obtain ⟨sz, grown, got⟩ := Option.map_eq_some_iff.mp ran
  obtain ⟨ptr, given, rfl⟩ := Option.map_eq_some_iff.mp got
  have enough := Reserve.grow_enough grown
  obtain ⟨positive, top, apart⟩ := fair _ ptr given
  have other : ∀ u ∈ w.units, ∀ i, u.Has i → storeLe w.mem ptr 8 w.sbuf.alloc i = w.mem i := by
    intro u member i has
    have outside := (apart u member).symm.not_has has
    refine store_apart ?_
    rw [Bytes.leBytes_length]
    simp only [Region.Has, unitHead] at outside
    omega
  have heads : ∀ u ∈ w.units, ∀ i, Region.Has ⟨u.addr, unitHead⟩ i →
      storeLe w.mem ptr 8 w.sbuf.alloc i = w.mem i := by
    intro u member i has
    exact other u member i (has.of_within (head_within (sound.unit u member).2.2))
  have kept : ∀ b ∈ w.blocks, b.ref ≠ none → ∀ i, b.toRegion.Has i →
      storeLe w.mem ptr 8 w.sbuf.alloc i = w.mem i := by
    intro b member _ i has
    obtain ⟨u, uMember, within⟩ := sound.inside b member
    exact other u uMember i
      ((has.of_within within).of_within (room_within (sound.unit u uMember).2.2))
  have before := sound.of_mem heads kept
  have whole : room ⟨ptr, sz + unitHead⟩ = ⟨ptr + unitHead, s + (sz - s)⟩ := by
    rw [room, Nat.add_sub_cancel, Nat.add_sub_cancel' enough]
  have behind : next (storeLe w.mem ptr 8 w.sbuf.alloc) ptr = link w.sbuf.alloc :=
    congrArg link (loadLe_storeLe (link_small sound.chain sound.addr_small))
  refine ⟨?_, ?_, rfl, List.suffix_cons _ _, other⟩
  · refine { before with unitsApart := ?_, unit := ?_, inside := ?_, chain := ?_ }
    · exact List.pairwise_cons.mpr ⟨apart, sound.unitsApart⟩
    · intro u member
      rcases List.mem_cons.mp member with rfl | older
      · exact ⟨positive, top, Nat.le_add_left _ _⟩
      · exact sound.unit u older
    · intro b member
      obtain ⟨u, uMember, within⟩ := sound.inside b member
      exact ⟨u, List.mem_cons_of_mem _ uMember, within⟩
    · refine ⟨if_neg (Nat.ne_of_gt positive), ?_⟩
      rw [behind]
      exact before.chain
  · refine ⟨⟨_, List.mem_cons_self, ?_⟩, fun b member => ?_⟩
    · rw [whole]
      exact Region.Within.refl _
    · obtain ⟨u, uMember, within⟩ := sound.inside b member
      refine (apart u uMember).symm.of_within
        (within.trans (room_within (sound.unit u uMember).2.2)) ?_
      rw [← whole]
      exact room_within (Nat.le_add_left _ _)

theorem Sound.moved (sound : Sound held w) (block free : ℕ) :
    Sound held { w with sbuf := { w.sbuf with block := block, free := free } } :=
  { sound with }

/-- What `bump` gives of a world with enough room. -/
theorem got_bump {w' : World} {s : ℕ} (roomy : Room (s + w'.sbuf.free) w')
    (blocks : w'.blocks = w.blocks) (units : w.units <:+ w'.units)
    (mem : ∀ u ∈ w.units, ∀ i, u.Has i → w'.mem i = w.mem i) :
    Got w (w'.bump s).2 ⟨(w'.bump s).1, s⟩ := by
  obtain ⟨rest, inside, apart, free⟩ := bump_spec roomy
  exact ⟨inside, apart, free, rest, blocks, units, mem⟩

theorem malloc_spec (inv : Inv held w) {fuel s : ℕ} {alloc : ℕ → Option ℕ} (fair : Fair alloc w)
    {got : ℕ × World} (ran : w.malloc fuel alloc s = some (some got)) :
    Sound held got.2 ∧ Got w got.2 ⟨got.1, s⟩ := by
  unfold World.malloc at ran
  split at ran
  case isTrue enough =>
    cases ran
    rcases inv.free with none | roomy
    · omega
    · have whole : s + (w.sbuf.free - s) = w.sbuf.free := Nat.add_sub_cancel' (Nat.le_of_lt enough)
      refine ⟨inv.toSound.moved _ _, got_bump ?_ rfl (List.suffix_refl _) fun _ _ _ _ => rfl⟩
      rw [← whole] at roomy
      exact ⟨roomy.inside, roomy.apart⟩
  case isFalse =>
    obtain ⟨result, ended, bumped⟩ := Option.map_eq_some_iff.mp ran
    obtain ⟨w', rfl, rfl⟩ := Option.map_eq_some_iff.mp bumped
    obtain ⟨sound, roomy, blocks, units, mem⟩ := unit_spec inv.toSound fair ended
    exact ⟨sound.moved _ _, got_bump roomy blocks units mem⟩

/-! ## The calls -/

/-- The memory goes to the caller. -/
theorem Got.give {w' : World} {r : Region} (got : Got w w' r) (sound : Sound held w') :
    Inv held (w'.keep ⟨r, none⟩) where
  unitsApart := sound.unitsApart
  unit := sound.unit
  blocksApart :=
    List.pairwise_cons.mpr ⟨fun b member => (got.apart b member).symm, sound.blocksApart⟩
  inside := List.forall_mem_cons.mpr ⟨got.inside, sound.inside⟩
  chain := sound.chain
  refs := sound.refs
  record := by
    refine List.forall_mem_cons.mpr ⟨fun ptr ref => ?_, sound.record⟩
    cases ref
  counts := sound.counts
  free := Or.inr ⟨got.free.inside, List.forall_mem_cons.mpr ⟨got.rest, got.free.apart⟩⟩

theorem record_bytes {m : Mem} {p a b i : ℕ} (outside : ¬Region.Has ⟨p, recordSize⟩ i) :
    storeLe (storeLe m p 8 a) (p + 8) 8 b i = m i := by
  simp only [Region.Has, recordSize] at outside
  rw [storeLe, store_apart (by rw [Bytes.leBytes_length]; omega), storeLe,
    store_apart (by rw [Bytes.leBytes_length]; omega)]

theorem record_next {m : Mem} {p a b : ℕ} (small : a < 256 ^ 8) :
    next (storeLe (storeLe m p 8 a) (p + 8) 8 b) p = link a := by
  rw [next, loadLe_storeLe_of_disjoint (Or.inl (Nat.le_refl _)), loadLe_storeLe small]

theorem Sound.record_small (sound : Sound held w) :
    ∀ a ∈ (records w.blocks).map Prod.fst, a < 2 ^ 64 := by
  intro a member
  obtain ⟨⟨r, ptr⟩, recorded, rfl⟩ := List.mem_map.mp member
  obtain ⟨b, bMember, ref, rfl⟩ := mem_records.mp recorded
  have size : b.size = 16 := (sound.record b bMember ptr ref).1
  obtain ⟨u, uMember, within⟩ := sound.inside b bMember
  obtain ⟨-, top, head⟩ := sound.unit u uMember
  have last := (within.trans (room_within head)).2
  simp only
  omega

/-- The memory becomes a record at the front of the chain of records. -/
theorem Got.record {w' : World} {p ptr : ℕ} (got : Got w w' ⟨p, recordSize⟩)
    (sound : Sound held w') (member : ptr ∈ held) (small : ptr < 2 ^ 64) :
    Inv held { w'.keep ⟨⟨p, recordSize⟩, some ptr⟩ with
      mem := storeLe (storeLe w'.mem p 8 w'.sbuf.refs) (p + 8) 8 ptr
      heap := w'.heap.refer ptr
      sbuf := { w'.sbuf with refs := p } } := by
  obtain ⟨u, uMember, within⟩ := got.inside
  have before := @Sound.of_mem held w' sound
    (storeLe (storeLe w'.mem p 8 w'.sbuf.refs) (p + 8) 8 ptr)
    (fun v vMember i has => record_bytes ((sound.head_apart vMember uMember within).not_has has))
    (fun b bMember _ i has => record_bytes ((got.apart b bMember).not_has has))
  have front : p ≠ 0 := by
    have low := within.1
    simp only [room, unitHead] at low
    omega
  refine {
    unitsApart := sound.unitsApart
    unit := sound.unit
    blocksApart :=
      List.pairwise_cons.mpr ⟨fun b bMember => (got.apart b bMember).symm, sound.blocksApart⟩
    inside := List.forall_mem_cons.mpr ⟨got.inside, sound.inside⟩
    chain := before.chain
    refs := ?_
    record := ?_
    counts := sound.counts.refer (List.mem_append_right _ member)
    free := Or.inr ⟨got.free.inside, List.forall_mem_cons.mpr ⟨got.rest, got.free.apart⟩⟩ }
  · refine ⟨if_neg front, ?_⟩
    have behind := @record_next w'.mem p _ ptr (link_small sound.refs sound.record_small)
    rw [behind]
    exact before.refs
  · refine List.forall_mem_cons.mpr ⟨fun ptr' ref => ⟨rfl, ?_⟩, before.record⟩
    obtain rfl := Option.some.inj ref
    exact loadLe_storeLe small

theorem Kept.refl (w : World) : Kept w w :=
  ⟨List.suffix_refl _, List.suffix_refl _, fun _ _ _ _ => rfl⟩

theorem Got.mem_block {w' : World} {r : Region} (got : Got w w' r) (sound : Sound held w)
    {b : Block} (member : b ∈ w.blocks) {i : ℕ} (has : b.toRegion.Has i) : w'.mem i = w.mem i := by
  obtain ⟨u, uMember, within⟩ := sound.inside b member
  exact got.mem u uMember i (has.of_within (within.trans (room_within (sound.unit u uMember).2.2)))

/-- A call keeps the invariant and leaves alone what was handed out before. -/
theorem Call.kept (inv : Inv held w) {w' : World} (call : Call held w w') :
    Inv held w' ∧ Kept w w' := by
  cases call with
  | malloc fair ran =>
      obtain ⟨result, ended, rfl⟩ := Option.map_eq_some_iff.mp ran
      cases result with
      | none => exact ⟨inv, Kept.refl w⟩
      | some got =>
          obtain ⟨sound, got'⟩ := malloc_spec inv fair ended
          refine ⟨got'.give sound, got'.units, ?_, fun b member i has => ?_⟩
          · exact got'.blocks ▸ List.suffix_cons _ _
          · exact got'.mem_block inv.toSound member has
  | refer fair member small ran =>
      obtain ⟨result, ended, rfl⟩ := Option.map_eq_some_iff.mp ran
      cases result with
      | none => exact ⟨inv, Kept.refl w⟩
      | some got =>
          obtain ⟨sound, got'⟩ := malloc_spec inv fair ended
          refine ⟨got'.record sound member small, got'.units, ?_, fun b bMember i has => ?_⟩
          · exact got'.blocks ▸ List.suffix_cons _ _
          · have apart := got'.apart b (got'.blocks ▸ bMember)
            exact (record_bytes (apart.not_has has)).trans
              (got'.mem_block inv.toSound bMember has)

theorem Room.of_outside {n : ℕ} (roomy : Room n w) (mem : Mem) (heap : Heap Unit) :
    Room n { w with mem := mem, heap := heap } :=
  ⟨roomy.inside, roomy.apart⟩

theorem store_other {m : Mem} {i j : ℕ} (value : UInt8) (other : j ≠ i) :
    store m i [value] j = m j :=
  store_apart (by rw [List.length_singleton]; omega)

/-- Writing to the memory of a caller, or outside the units, meets no link and no record. -/
theorem Inv.write (inv : Inv held w) {i : ℕ} (value : UInt8) (writable : Writable w i) :
    Inv held { w with mem := store w.mem i [value] } := by
  have heads : ∀ u ∈ w.units, ∀ j, Region.Has ⟨u.addr, unitHead⟩ j → j ≠ i := by
    rintro u member j has rfl
    rcases writable with ⟨b, bMember, -, has'⟩ | outside
    · obtain ⟨v, vMember, within⟩ := inv.inside b bMember
      exact (inv.head_apart member vMember within).not_has has has'
    · exact outside u member (has.of_within (head_within (inv.unit u member).2.2))
  have others : ∀ b ∈ w.blocks, b.ref ≠ none → ∀ j, b.toRegion.Has j → j ≠ i := by
    rintro b member ref j has rfl
    rcases writable with ⟨b', bMember, plain, has'⟩ | outside
    · have symmetric : Std.Symm fun a b : Block => a.toRegion.Apart b.toRegion :=
        ⟨fun _ _ => Region.Apart.symm⟩
      have other : b ≠ b' := fun same => ref (same ▸ plain)
      exact (inv.blocksApart.forall member bMember other).not_has has has'
    · obtain ⟨u, uMember, within⟩ := inv.inside b member
      exact outside u uMember
        (has.of_within (within.trans (room_within (inv.unit u uMember).2.2)))
  have sound := @Sound.of_mem held w inv.toSound (store w.mem i [value])
    (fun u member j has => store_other value (heads u member j has))
    (fun b member ref j has => store_other value (others b member ref j has))
  exact { sound with free := inv.free.imp_right fun roomy => roomy.of_outside _ _ }

theorem Inv.recount (inv : Inv held w) {held' : List ℕ} {heap : Heap Unit}
    (accounted : heap.Accounted ((records w.blocks).map Prod.snd ++ held')) :
    Inv held' { w with heap := heap } := by
  exact {
    inv with
    counts := accounted
    free := inv.free.imp_right fun roomy => roomy.of_outside _ _ }

theorem Reached.inv (reached : Reached held w) : Inv held w := by
  induction reached with
  | new accounted => exact inv_new accounted
  | step _ step ih =>
      cases step with
      | call call => exact (call.kept ih).1
      | write value writable => exact ih.write value writable
  | others _ accounted ih => exact ih.recount accounted

/-! ## `fin` -/

theorem unrefs_yields {recs : List (ℕ × ℕ)} {start : Option ℕ}
    (chain : Segment (next w.mem) start (recs.map Prod.fst) none)
    (owned : ∀ rec ∈ recs, ∃ u ∈ w.units, Region.Within ⟨rec.1, recordSize⟩ u)
    (stored : ∀ rec ∈ recs, loadLe w.mem (rec.1 + 8) 8 = rec.2) :
    Fuel.Yields (fun fuel => w.unrefs fuel start) (recs.map Prod.snd) := by
  induction recs generalizing start with
  | nil =>
      obtain rfl : start = none := chain
      have ends : (fun fuel => w.unrefs fuel none) = fun _ => some [] := by
        funext fuel
        rw [World.unrefs]
      rw [ends]
      exact Fuel.yields_pure _
  | cons rec recs ih =>
      obtain ⟨rfl, rest⟩ := chain
      obtain ⟨here, owned⟩ := List.forall_mem_cons.mp owned
      obtain ⟨ptr, stored⟩ := List.forall_mem_cons.mp stored
      refine Fuel.Yields.succ rfl ?_
      have turn : (fun fuel => w.unrefs (fuel + 1) (some rec.1)) = fun fuel =>
          (w.unrefs fuel (next w.mem rec.1)).map (rec.2 :: ·) := by
        funext fuel
        rw [World.unrefs, if_pos here, ptr]
      rw [turn]
      exact (ih rest owned stored).map _

theorem release_yields {m : Mem} {units : List Region} {start : Option ℕ}
    (chain : Segment (next m) start (units.map Region.addr) none) :
    Fuel.Yields (fun fuel => World.release m fuel units start) [] := by
  induction units generalizing start with
  | nil =>
      obtain rfl : start = none := chain
      have ends : (fun fuel => World.release m fuel [] none) = fun _ => some [] := by
        funext fuel
        rw [World.release]
      rw [ends]
      exact Fuel.yields_pure _
  | cons u units ih =>
      obtain ⟨rfl, rest⟩ := chain
      refine Fuel.Yields.succ rfl ?_
      have first : ((u :: units).eraseP fun v => v.addr = u.addr) = units :=
        List.eraseP_cons_of_pos (decide_eq_true rfl)
      have turn : (fun fuel => World.release m (fuel + 1) (u :: units) (some u.addr)) = fun fuel =>
          World.release m fuel units (next m u.addr) := by
        funext fuel
        rw [World.release, if_pos ⟨u, List.mem_cons_self, rfl⟩, first]
      rw [turn]
      exact ih rest

/-- `fin` ends.  It unrefers what was referred to and releases all units, each of them once. -/
theorem Inv.fin (inv : Inv held w) :
    Fuel.Yields (fun fuel => w.fin fuel)
      ⟨(records w.blocks).map Prod.snd, w.heap.unrefAll ((records w.blocks).map Prod.snd), []⟩ := by
  have owned : ∀ rec ∈ records w.blocks,
      ∃ u ∈ w.units, Region.Within ⟨rec.1, recordSize⟩ u := by
    rintro ⟨r, ptr⟩ member
    obtain ⟨b, bMember, ref, rfl⟩ := mem_records.mp member
    obtain ⟨u, uMember, within⟩ := inv.inside b bMember
    have whole := within.trans (room_within (inv.unit u uMember).2.2)
    exact ⟨u, uMember, (inv.record b bMember ptr ref).1 ▸ whole⟩
  have stored : ∀ rec ∈ records w.blocks, loadLe w.mem (rec.1 + 8) 8 = rec.2 := by
    rintro ⟨r, ptr⟩ member
    obtain ⟨b, bMember, ref, rfl⟩ := mem_records.mp member
    exact (inv.record b bMember ptr ref).2
  exact Fuel.Yields.bind (unrefs_yields inv.refs owned stored)
    ((release_yields inv.chain).map _)

/-! ## Sizes -/

theorem grow_none {s fuel : ℕ} (large : 2 ^ 63 < s) : Reserve.grow s fuel allocUnitSize = none := by
  cases grown : Reserve.grow s fuel allocUnitSize with
  | none => rfl
  | some size =>
      have power : allocUnitSize = 2 ^ 8 := rfl
      have enough := Reserve.grow_enough grown
      rw [power] at grown
      obtain ⟨j, -, top, rfl⟩ := Reserve.grow_pow (by decide) grown
      have limit : 2 ^ j ≤ 2 ^ 63 := Nat.pow_le_pow_right (by decide) top
      omega

/-- `malloc` returns unless a new unit is to have more than half of the address space. -/
theorem malloc_ends_iff (alloc : ℕ → Option ℕ) (s : ℕ) :
    (∃ fuel, w.malloc fuel alloc s ≠ none) ↔ s < w.sbuf.free ∨ s ≤ 2 ^ 63 := by
  unfold World.malloc
  by_cases enough : w.sbuf.free > s
  · refine iff_of_true ⟨0, ?_⟩ (Or.inl enough)
    rw [if_pos enough]
    exact Option.some_ne_none _
  · simp only [if_neg enough, ne_eq, Option.map_eq_none_iff, World.unit]
    constructor
    · rintro ⟨fuel, ended⟩
      refine Or.inr (Nat.le_of_not_lt fun large => ended (grow_none large))
    · rintro (less | small)
      · exact absurd less enough
      · obtain ⟨fuel, size, grown⟩ := @Reserve.grow_ends s 55 8 small (by decide)
        have power : allocUnitSize = 2 ^ 8 := rfl
        refine ⟨fuel, ?_⟩
        rw [power, grown]
        exact Option.some_ne_none _

/-! ## The result -/

/-- Whatever is asked of an `sbuf`, and whatever is written to what it handed out: no two
blocks overlap, each of them lies within a unit, no call releases a unit or touches a block
that was handed out before, and `fin` ends with all units released and the references given
back, each of them once. -/
theorem sbuf_kept (reached : Reached held w) :
    (w.blocks.Pairwise fun a b => a.toRegion.Apart b.toRegion) ∧
      (∀ b ∈ w.blocks, ∃ u ∈ w.units, b.toRegion.Within (room u)) ∧
      (∀ w', Call held w w' → Kept w w') ∧
      ∃ done : Finished, Fuel.Yields (fun fuel => w.fin fuel) done ∧ done.units = [] ∧
        done.unrefs = (records w.blocks).map Prod.snd ∧ done.heap.Accounted held := by
  have inv := reached.inv
  refine ⟨inv.blocksApart, inv.inside, fun w' call => (call.kept inv).2, _, inv.fin, rfl, rfl, ?_⟩
  exact inv.counts.unrefAll

end

def oneBuffer : Heap Unit := Heap.alloc ⟨7, fun _ => 0, fun _ => ()⟩ ()

theorem oneBuffer_accounted : oneBuffer.Accounted [7] :=
  Heap.Accounted.alloc ⟨fun _ => rfl, fun _ member => absurd member List.not_mem_nil⟩ ()

def page (size : ℕ) : Option ℕ := if size ≤ 4096 then some 4096 else none

theorem fair_page (mem : Mem) (heap : Heap Unit) (block : ℕ) :
    Fair page (.new mem heap block) := by
  intro size ptr given
  rw [page] at given
  by_cases small : size ≤ 4096
  · rw [if_pos small] at given
    cases given
    exact ⟨by decide, by omega, fun u member => absurd member List.not_mem_nil⟩
  · rw [if_neg small] at given
    cases given

/-- An `sbuf` that has handed out ten bytes and a record. -/
theorem sbuf_kept_record : ∃ w : World,
    w.blocks = [⟨⟨4114, 16⟩, some 7⟩, ⟨⟨4104, 10⟩, none⟩] ∧
      ∃ done : Finished, Fuel.Yields (fun fuel => w.fin fuel) done ∧ done.units = [] ∧
        done.unrefs = [7] ∧ done.heap.Accounted [7] := by
  have refused : ∀ w, Fair (fun _ => none) w := fun w size ptr given => by cases given
  have first : Reached [7] (.new (fun _ => 0) oneBuffer 0) := .new oneBuffer_accounted
  have second := first.step (.call (@Call.malloc [7] _ _ 1 10 page (fair_page _ _ _) rfl))
  have third := second.step (.call (@Call.refer [7] _ _ 1 7 (fun _ => none) (refused _)
    List.mem_cons_self (by decide) rfl))
  exact ⟨_, rfl, (sbuf_kept third).2.2.2⟩

end Sbuf

end Cyue
