import Cyue.Lib.Memory
import Cyue.Lib.Shared

/-!
# Room in a shared buffer

`pbuf` with its block among all blocks: other buffers and objects may refer to the same
block.  `reserve` moves what has not been read to a new block, whose size it finds by
doubling the old one, and gives its reference to the old block back.  Sizes are `size_t`.
-/

namespace Cyue.Reserve

open Memory Shared

/-! ## The buffer -/

/-- `pbuf`; `ptr` is the block that `m_ptr` points to. -/
structure Buffer where
  ptr : Option ℕ
  len : ℕ
  limit : ℕ
  ofs : ℕ
  deriving DecidableEq

structure Cells where
  heap : Heap Mem
  buf : Buffer

def initialBufferSize : ℕ := 256

def headSize : ℕ := 4

namespace Buffer

def empty : Buffer := ⟨none, 0, 0, 0⟩

/-- `available()`, a difference of sizes. -/
def available (b : Buffer) : ℕ := (b.limit + 2 ^ 64 - b.len) % 2 ^ 64

/-- What has not been read, `last() - ofs()`. -/
def copyb (b : Buffer) : ℕ := (b.len + 2 ^ 64 - b.ofs) % 2 ^ 64

end Buffer

/-- `while (sz > m_limit) { m_limit <<= 1; }`, or none when the fuel is used up. -/
def grow (sz : ℕ) : ℕ → ℕ → Option ℕ
  | 0, _ => none
  | fuel + 1, limit => if limit < sz then grow sz fuel (2 * limit % 2 ^ 64) else some limit

/-- `NBR_OK` and `NBR_EMALLOC` -/
inductive Outcome where
  | ok
  | emalloc
  deriving DecidableEq

namespace Cells

def unread (c : Cells) : List UInt8 :=
  match c.buf.ptr with
  | none => []
  | some block => load (c.heap.contents block) c.buf.ofs (c.buf.len - c.buf.ofs)

/-- `util::mem::alloc` may refuse, and does for half of the address space; `fresh` is what the
new memory holds. -/
def alloc (granted : Bool) (size : ℕ) : Bool := granted && size < 2 ^ 63

def reserve (fuel : ℕ) (granted : Bool) (fresh : Mem) (c : Cells) (sz : ℕ) :
    Option (Outcome × Cells) :=
  if sz ≤ c.buf.available then some (.ok, c)
  else
    match c.buf.ptr with
    | some block =>
        (grow ((sz + c.buf.copyb) % 2 ^ 64) fuel c.buf.limit).map fun limit =>
          if alloc granted (limit + headSize) then
            let copy := load (c.heap.contents block) c.buf.ofs c.buf.copyb
            (.ok,
              { heap := (c.heap.alloc (store fresh 0 copy)).unref block
                buf := ⟨some c.heap.next, c.buf.copyb, limit, 0⟩ })
          else (.emalloc, c)
    | none =>
        (grow sz fuel initialBufferSize).map fun limit =>
          if alloc granted (limit + headSize) then
            (.ok,
              { heap := c.heap.alloc fresh
                buf := { c.buf with ptr := some c.heap.next, limit := limit } })
          else (.emalloc, { c with buf := { c.buf with limit := 0 } })

end Cells

/-- A buffer that only its functions have changed.  All of them but `reserve`, and `copy`, which
takes everything from another buffer, leave the block and the limit as they are. -/
inductive Built : Buffer → Prop
  | init : Built .empty
  | index {b : Buffer} (built : Built b) (len ofs : ℕ) : Built { b with len := len, ofs := ofs }
  | reserve {c c' : Cells} {fuel sz : ℕ} {granted : Bool} {fresh : Mem} {outcome : Outcome}
      (built : Built c.buf) (reserved : c.reserve fuel granted fresh sz = some (outcome, c')) :
      Built c'.buf

/-- The sizes that `reserve` gives to a block, and none without a block. -/
structure Sized (b : Buffer) : Prop where
  empty : b.ptr = none → b.limit = 0
  block : b.ptr ≠ none → ∃ k, 8 ≤ k ∧ k ≤ 62 ∧ b.limit = 2 ^ k

structure Sound (b : Buffer) : Prop extends Sized b where
  read : b.ofs ≤ b.len
  written : b.len ≤ b.limit

/-- The references to the blocks: the one of the buffer and those of other owners. -/
def held (c : Cells) (others : List ℕ) : List ℕ := c.buf.ptr.toList ++ others

/-- What a reservation that succeeds has done. -/
structure Kept (c c' : Cells) (others : List ℕ) (sz : ℕ) : Prop where
  room : sz ≤ c'.buf.available
  unread : c'.unread = c.unread
  sound : Sound c'.buf
  accounted : c'.heap.Accounted (held c' others)
  others : ∀ block ∈ others, ∃ content,
    c.heap.read? block = some content ∧ c'.heap.read? block = some content

/-- `reserve` of a size, whatever the allocation answers. -/
structure Reserves (c : Cells) (others : List ℕ) (sz : ℕ) : Prop where
  ok : ∀ fuel granted fresh c', c.reserve fuel granted fresh sz = some (.ok, c') →
    Kept c c' others sz
  emalloc : ∀ fuel granted fresh c', c.reserve fuel granted fresh sz = some (.emalloc, c') →
    c' = c
  ends : sz < 2 ^ 62 → ∀ granted fresh, ∃ fuel result,
    c.reserve fuel granted fresh sz = some result

/-! ## The doubling loop -/

theorem grow_enough {sz fuel limit size : ℕ} (grown : grow sz fuel limit = some size) : sz ≤ size := by
  induction fuel generalizing limit with
  | zero => cases grown
  | succ fuel ih =>
      unfold grow at grown
      split at grown
      · exact ih grown
      · rename_i enough
        obtain rfl := Option.some.inj grown
        exact not_lt.mp enough

/-- A limit that was shifted out stays 0. -/
theorem grow_zero {sz : ℕ} (positive : 0 < sz) (fuel : ℕ) : grow sz fuel 0 = none := by
  induction fuel with
  | zero => rfl
  | succ fuel ih =>
      unfold grow
      rw [if_pos positive]
      exact ih

theorem double_pow {k : ℕ} (small : k < 63) : 2 * 2 ^ k % 2 ^ 64 = 2 ^ (k + 1) := by
  have less : 2 ^ (k + 1) < 2 ^ 64 := Nat.pow_lt_pow_right (by decide) (by omega)
  rw [← Nat.pow_succ', Nat.mod_eq_of_lt less]

/-- The loop only gives powers of two. -/
theorem grow_pow {sz fuel k size : ℕ} (small : k ≤ 63) (grown : grow sz fuel (2 ^ k) = some size) :
    ∃ j, k ≤ j ∧ j ≤ 63 ∧ size = 2 ^ j := by
  induction fuel generalizing k with
  | zero => cases grown
  | succ fuel ih =>
      unfold grow at grown
      split at grown
      · rename_i less
        rcases Nat.lt_or_eq_of_le small with lower | rfl
        · rw [double_pow lower] at grown
          obtain ⟨j, le, top, same⟩ := ih (Nat.succ_le_of_lt lower) grown
          exact ⟨j, Nat.le_of_succ_le le, top, same⟩
        · have out : 2 * 2 ^ 63 % 2 ^ 64 = 0 := by decide
          rw [out, grow_zero (by omega)] at grown
          cases grown
      · exact ⟨k, le_rfl, small, (Option.some.inj grown).symm⟩

/-- The loop ends below the highest power. -/
theorem grow_ends {sz n k : ℕ} (small : sz ≤ 2 ^ (k + n)) (top : k + n ≤ 63) :
    ∃ fuel size, grow sz fuel (2 ^ k) = some size := by
  induction n generalizing k with
  | zero => exact ⟨1, 2 ^ k, if_neg (not_lt.mpr small)⟩
  | succ n ih =>
      by_cases less : 2 ^ k < sz
      · rw [← Nat.add_assoc, Nat.add_right_comm] at small
        obtain ⟨fuel, size, grown⟩ := ih small (by omega)
        refine ⟨fuel + 1, size, ?_⟩
        unfold grow
        rw [if_pos less, double_pow (by omega)]
        exact grown
      · exact ⟨1, 2 ^ k, if_neg less⟩

/-- The size is less than twice what is needed, or the limit was enough. -/
theorem grow_le {sz fuel limit size : ℕ} (grown : grow sz fuel limit = some size) :
    size ≤ limit ∨ size < 2 * sz := by
  induction fuel generalizing limit with
  | zero => cases grown
  | succ fuel ih =>
      unfold grow at grown
      split at grown
      · rename_i less
        have double : 2 * limit % 2 ^ 64 ≤ 2 * limit := Nat.mod_le _ _
        rcases ih grown with le | lt
        · exact .inr (by omega)
        · exact .inr lt
      · exact .inl (Option.some.inj grown).ge

theorem grow_mono {sz fuel more limit size : ℕ} (le : fuel ≤ more)
    (grown : grow sz fuel limit = some size) : grow sz more limit = some size := by
  induction fuel generalizing more limit with
  | zero => cases grown
  | succ fuel ih =>
      obtain ⟨more, rfl⟩ := Nat.exists_eq_add_of_le' (Nat.le_of_add_left_le le)
      unfold grow at grown ⊢
      split at grown
      · rename_i less
        rw [if_pos less]
        exact ih (Nat.le_of_succ_le_succ le) grown
      · rename_i enough
        rw [if_neg enough]
        exact grown

/-! ## What `reserve` can do -/

namespace Cells

/-- The buffer with its unread bytes in a new block. -/
def moved (c : Cells) (fresh : Mem) (block limit : ℕ) : Cells where
  heap := (c.heap.alloc
    (store fresh 0 (load (c.heap.contents block) c.buf.ofs c.buf.copyb))).unref block
  buf := ⟨some c.heap.next, c.buf.copyb, limit, 0⟩

def begun (c : Cells) (fresh : Mem) (limit : ℕ) : Cells where
  heap := c.heap.alloc fresh
  buf := { c.buf with ptr := some c.heap.next, limit := limit }

end Cells

theorem alloc_small {granted : Bool} {size : ℕ} (given : Cells.alloc granted size = true) :
    size < 2 ^ 63 := by
  unfold Cells.alloc at given
  exact of_decide_eq_true (Bool.and_eq_true_iff.mp given).2

/-- The buffer is left as it is, or gets a block that the loop has found a size for. -/
theorem reserve_cases {fuel : ℕ} {granted : Bool} {fresh : Mem} {c : Cells} {sz : ℕ}
    {result : Outcome × Cells} (sized : Sized c.buf)
    (reserved : c.reserve fuel granted fresh sz = some result) :
    (sz ≤ c.buf.available ∧ result = (.ok, c)) ∨ result = (.emalloc, c) ∨
    (∃ block limit, c.buf.ptr = some block ∧
      grow ((sz + c.buf.copyb) % 2 ^ 64) fuel c.buf.limit = some limit ∧
      limit + headSize < 2 ^ 63 ∧ result = (.ok, c.moved fresh block limit)) ∨
    (∃ limit, c.buf.ptr = none ∧ grow sz fuel initialBufferSize = some limit ∧
      limit + headSize < 2 ^ 63 ∧ result = (.ok, c.begun fresh limit)) := by
  unfold Cells.reserve at reserved
  split at reserved
  · rename_i room
    exact .inl ⟨room, (Option.some.inj reserved).symm⟩
  · cases ptr : c.buf.ptr with
    | some block =>
        rw [ptr] at reserved
        obtain ⟨limit, grown, same⟩ := Option.map_eq_some_iff.mp reserved
        split at same
        · rename_i given
          exact .inr (.inr (.inl ⟨block, limit, rfl, grown, alloc_small given, same.symm⟩))
        · exact .inr (.inl same.symm)
    | none =>
        rw [ptr] at reserved
        obtain ⟨limit, grown, same⟩ := Option.map_eq_some_iff.mp reserved
        split at same
        · rename_i given
          exact .inr (.inr (.inr ⟨limit, rfl, grown, alloc_small given, same.symm⟩))
        · have zero : { c with buf := { c.buf with limit := 0 } } = c := by
            rw [← sized.empty ptr]
          rw [zero] at same
          exact .inr (.inl same.symm)

/-- More fuel changes nothing. -/
theorem reserve_mono {fuel more : ℕ} {granted : Bool} {fresh : Mem} {c : Cells} {sz : ℕ}
    {result : Outcome × Cells} (le : fuel ≤ more)
    (reserved : c.reserve fuel granted fresh sz = some result) :
    c.reserve more granted fresh sz = some result := by
  unfold Cells.reserve at reserved ⊢
  split at reserved
  · rename_i room
    rw [if_pos room]
    exact reserved
  · rename_i short
    rw [if_neg short]
    cases ptr : c.buf.ptr with
    | none =>
        rw [ptr] at reserved
        obtain ⟨limit, grown, same⟩ := Option.map_eq_some_iff.mp reserved
        exact Option.map_eq_some_iff.mpr ⟨limit, grow_mono le grown, same⟩
    | some block =>
        rw [ptr] at reserved
        obtain ⟨limit, grown, same⟩ := Option.map_eq_some_iff.mp reserved
        exact Option.map_eq_some_iff.mpr ⟨limit, grow_mono le grown, same⟩

theorem sized_pow {b : Buffer} {j : ℕ} (low : 8 ≤ j) (top : j ≤ 63) (given : 2 ^ j + headSize < 2 ^ 63)
    (limit : b.limit = 2 ^ j) (some : b.ptr ≠ none) : Sized b where
  empty none := absurd none some
  block _ := by
    refine ⟨j, low, ?_, limit⟩
    by_contra high
    have same : j = 63 := by omega
    rw [same] at given
    exact absurd given (by decide)

theorem Sized.moved {c : Cells} (sized : Sized c.buf) {fresh : Mem} {block limit fuel need : ℕ}
    (ptr : c.buf.ptr = some block) (grown : grow need fuel c.buf.limit = some limit)
    (given : limit + headSize < 2 ^ 63) : Sized (c.moved fresh block limit).buf := by
  obtain ⟨k, low, top, same⟩ := sized.block (ptr ▸ Option.some_ne_none block)
  rw [same] at grown
  obtain ⟨j, le, high, rfl⟩ := grow_pow (top.trans (by decide)) grown
  exact sized_pow (low.trans le) high given rfl (Option.some_ne_none _)

theorem sized_begun {c : Cells} {fresh : Mem} {limit fuel sz : ℕ}
    (grown : grow sz fuel initialBufferSize = some limit) (given : limit + headSize < 2 ^ 63) :
    Sized (c.begun fresh limit).buf := by
  obtain ⟨j, le, high, rfl⟩ := grow_pow (by decide : 8 ≤ 63) grown
  exact sized_pow le high given rfl (Option.some_ne_none _)

/-- Every buffer has the size of its block for a limit. -/
theorem Built.sized {b : Buffer} (built : Built b) : Sized b := by
  induction built with
  | init => exact ⟨fun _ => rfl, fun some => absurd rfl some⟩
  | index built len ofs ih => exact ⟨ih.empty, ih.block⟩
  | reserve built reserved ih =>
      obtain ⟨_, same⟩ | same | ⟨block, limit, ptr, grown, given, same⟩ |
        ⟨limit, ptr, grown, given, same⟩ := reserve_cases ih reserved
      · obtain rfl := (Prod.mk.inj same).2
        exact ih
      · obtain rfl := (Prod.mk.inj same).2
        exact ih
      · obtain rfl := (Prod.mk.inj same).2
        exact ih.moved ptr grown given
      · obtain rfl := (Prod.mk.inj same).2
        exact sized_begun grown given

namespace Sound

variable {b : Buffer}

theorem small (sound : Sound b) : b.limit ≤ 2 ^ 62 := by
  cases ptr : b.ptr with
  | none =>
      rw [sound.empty ptr]
      exact Nat.zero_le _
  | some block =>
      obtain ⟨k, _, top, same⟩ := sound.block (ptr ▸ Option.some_ne_none block)
      rw [same]
      exact Nat.pow_le_pow_right (by decide) top

theorem available (sound : Sound b) : b.available = b.limit - b.len := by
  have small := sound.small
  have written := sound.written
  unfold Buffer.available
  omega

theorem copyb (sound : Sound b) : b.copyb = b.len - b.ofs := by
  have small := sound.small
  have written := sound.written
  have read := sound.read
  unfold Buffer.copyb
  omega

/-- A buffer without a block is empty. -/
theorem none (sound : Sound b) (ptr : b.ptr = .none) : b.limit = 0 ∧ b.len = 0 ∧ b.ofs = 0 := by
  have limit := sound.empty ptr
  have written := sound.written
  have read := sound.read
  omega

end Sound

/-- Where memory is granted, a size that is far from the bound of the allocator is given. -/
theorem reserve_ok {fuel : ℕ} {fresh : Mem} {c : Cells} {sz : ℕ} {result : Outcome × Cells}
    (sound : Sound c.buf) (small : sz + c.buf.len < 2 ^ 61)
    (reserved : c.reserve fuel true fresh sz = some result) : result.1 = .ok := by
  have given {limit : ℕ} (lt : limit < 2 ^ 62) : Cells.alloc true (limit + headSize) = true := by
    unfold Cells.alloc headSize
    rw [Bool.true_and, decide_eq_true_eq]
    omega
  have available := sound.available
  have copyb := sound.copyb
  unfold Cells.reserve at reserved
  split at reserved
  · exact (congrArg Prod.fst (Option.some.inj reserved)).symm
  · rename_i short
    cases ptr : c.buf.ptr with
    | some block =>
        rw [ptr] at reserved
        obtain ⟨limit, grown, same⟩ := Option.map_eq_some_iff.mp reserved
        have size := grow_le grown
        rw [if_pos (given (by omega))] at same
        exact (congrArg Prod.fst same).symm
    | none =>
        rw [ptr] at reserved
        obtain ⟨limit, grown, same⟩ := Option.map_eq_some_iff.mp reserved
        have size := grow_le grown
        unfold initialBufferSize at size
        rw [if_pos (given (by omega))] at same
        exact (congrArg Prod.fst same).symm

variable {c : Cells} {others : List ℕ}

theorem others_read (accounted : c.heap.Accounted (held c others)) {block : ℕ} (member : block ∈ others) :
    c.heap.read? block = some (c.heap.contents block) :=
  accounted.read? (List.mem_append_right _ member)

/-- A block that the others refer to is not the next one. -/
theorem others_known (accounted : c.heap.Accounted (held c others)) {block : ℕ} (member : block ∈ others) :
    block < c.heap.next :=
  accounted.known block (List.mem_append_right _ member)

theorem kept_moved (sound : Sound c.buf) (accounted : c.heap.Accounted (held c others))
    {fresh : Mem} {block limit fuel sz : ℕ} (ptr : c.buf.ptr = some block)
    (grown : grow (sz + (c.buf.len - c.buf.ofs)) fuel c.buf.limit = some limit)
    (given : limit + headSize < 2 ^ 63) : Kept c (c.moved fresh block limit) others sz := by
  have enough := grow_enough grown
  have copyb := sound.copyb
  have sound' : Sound (c.moved fresh block limit).buf := by
    refine ⟨sound.toSized.moved ptr grown given, Nat.zero_le _, ?_⟩
    change c.buf.copyb ≤ limit
    omega
  have all : c.heap.Accounted (block :: others) := by
    have start := accounted
    rw [held, ptr] at start
    exact start
  have fresh_ne : block ≠ c.heap.next := (all.known block (List.mem_cons_self ..)).ne
  have accounted' : (c.moved fresh block limit).heap.Accounted (c.heap.next :: others) := by
    refine ((all.alloc _).perm (List.Perm.swap ..)).unref
  have copied : load ((c.moved fresh block limit).heap.contents c.heap.next) 0 c.buf.copyb =
      load (c.heap.contents block) c.buf.ofs c.buf.copyb := by
    have content : (c.moved fresh block limit).heap.contents c.heap.next =
        store fresh 0 (load (c.heap.contents block) c.buf.ofs c.buf.copyb) :=
      Heap.alloc_contents_next _ _
    have stored := load_store fresh 0 (load (c.heap.contents block) c.buf.ofs c.buf.copyb)
    rw [load_length] at stored
    rw [content, stored]
  refine ⟨?_, ?_, sound', accounted', ?_⟩
  · rw [sound'.available]
    change sz ≤ limit - c.buf.copyb
    omega
  · have old : c.unread = load (c.heap.contents block) c.buf.ofs c.buf.copyb := by
      unfold Cells.unread
      rw [ptr, copyb]
    rw [old, ← copied]
    change load _ 0 (c.buf.copyb - 0) = _
    rw [Nat.sub_zero]
  · intro other member
    refine ⟨c.heap.contents other, others_read accounted member, ?_⟩
    rw [accounted'.read? (List.mem_cons_of_mem _ member)]
    exact congrArg some (Heap.alloc_contents_of_lt _ _ (others_known accounted member))

theorem kept_begun (sound : Sound c.buf) (accounted : c.heap.Accounted (held c others))
    {fresh : Mem} {limit fuel sz : ℕ} (ptr : c.buf.ptr = none)
    (grown : grow sz fuel initialBufferSize = some limit) (given : limit + headSize < 2 ^ 63) :
    Kept c (c.begun fresh limit) others sz := by
  have enough := grow_enough grown
  obtain ⟨_, len, ofs⟩ := sound.none ptr
  have sound' : Sound (c.begun fresh limit).buf := by
    refine ⟨sized_begun grown given, sound.read, ?_⟩
    change c.buf.len ≤ limit
    rw [len]
    exact Nat.zero_le _
  have all : c.heap.Accounted others := by
    have start := accounted
    rw [held, ptr] at start
    exact start
  have accounted' : (c.begun fresh limit).heap.Accounted (c.heap.next :: others) := all.alloc fresh
  refine ⟨?_, ?_, sound', accounted', ?_⟩
  · rw [sound'.available]
    change sz ≤ limit - c.buf.len
    omega
  · have old : c.unread = [] := by
      unfold Cells.unread
      rw [ptr]
    rw [old]
    change load _ c.buf.ofs (c.buf.len - c.buf.ofs) = []
    rw [len, Nat.zero_sub]
    rfl
  · intro other member
    refine ⟨c.heap.contents other, others_read accounted member, ?_⟩
    rw [accounted'.read? (List.mem_cons_of_mem _ member)]
    exact congrArg some (Heap.alloc_contents_of_lt _ _ (others_known accounted member))

theorem kept_self (sound : Sound c.buf) (accounted : c.heap.Accounted (held c others)) {sz : ℕ}
    (room : sz ≤ c.buf.limit - c.buf.len) : Kept c c others sz := by
  refine ⟨?_, rfl, sound, accounted, fun block member => ?_⟩
  · rw [sound.available]
    exact room
  · have read := others_read accounted member
    exact ⟨_, read, read⟩

theorem reserve_ends (sound : Sound c.buf) {sz : ℕ} (small : sz < 2 ^ 62) (granted : Bool) (fresh : Mem) :
    ∃ fuel result, c.reserve fuel granted fresh sz = some result := by
  have available := sound.available
  have copyb := sound.copyb
  have limit := sound.small
  by_cases room : sz ≤ c.buf.available
  · exact ⟨0, _, if_pos room⟩
  · cases ptr : c.buf.ptr with
    | none =>
        have top : sz ≤ 2 ^ (8 + 55) := small.le.trans (by decide)
        obtain ⟨fuel, size, grown⟩ := grow_ends top (by decide)
        have grown : grow sz fuel initialBufferSize = some size := grown
        refine ⟨fuel, Option.isSome_iff_exists.mp ?_⟩
        unfold Cells.reserve
        rw [if_neg room, ptr]
        dsimp only
        rw [grown]
        rfl
    | some block =>
        obtain ⟨k, low, top, same⟩ := sound.block (ptr ▸ Option.some_ne_none block)
        have written := sound.written
        have whole : (sz + c.buf.copyb) % 2 ^ 64 ≤ 2 ^ (k + (63 - k)) := by
          have sum : k + (63 - k) = 63 := by omega
          rw [sum]
          omega
        obtain ⟨fuel, size, grown⟩ := grow_ends whole (by omega)
        refine ⟨fuel, Option.isSome_iff_exists.mp ?_⟩
        unfold Cells.reserve
        rw [if_neg room, ptr]
        dsimp only
        rw [same, grown]
        rfl

theorem Sound.reserves (sound : Sound c.buf) (accounted : c.heap.Accounted (held c others)) {sz : ℕ}
    (fits : sz + (c.buf.len - c.buf.ofs) < 2 ^ 64) : Reserves c others sz := by
  have whole : (sz + (c.buf.len - c.buf.ofs)) % 2 ^ 64 = sz + (c.buf.len - c.buf.ofs) :=
    Nat.mod_eq_of_lt fits
  refine ⟨fun fuel granted fresh c' reserved => ?_, fun fuel granted fresh c' reserved => ?_,
    fun request granted fresh => reserve_ends sound request granted fresh⟩
  · obtain ⟨room, same⟩ | same | ⟨block, limit, ptr, grown, given, same⟩ |
      ⟨limit, ptr, grown, given, same⟩ := reserve_cases sound.toSized reserved
    · obtain rfl := (Prod.mk.inj same).2
      rw [sound.available] at room
      exact kept_self sound accounted room
    · exact absurd (Prod.mk.inj same).1 (by decide)
    · obtain rfl := (Prod.mk.inj same).2
      rw [sound.copyb, whole] at grown
      exact kept_moved sound accounted ptr grown given
    · obtain rfl := (Prod.mk.inj same).2
      exact kept_begun sound accounted ptr grown given
  · obtain ⟨_, same⟩ | same | ⟨_, _, _, _, _, same⟩ | ⟨_, _, _, _, same⟩ :=
      reserve_cases sound.toSized reserved
    · exact absurd (Prod.mk.inj same).1 (by decide)
    · exact (Prod.mk.inj same).2
    · exact absurd (Prod.mk.inj same).1 (by decide)
    · exact absurd (Prod.mk.inj same).1 (by decide)

/-- A reservation does what it should unless the size and the unread bytes together leave the range
of `size_t`.  Then a block of the old size is reported to be large enough. -/
theorem reserves_iff (built : Built c.buf) (read : c.buf.ofs ≤ c.buf.len)
    (written : c.buf.len ≤ c.buf.limit) (accounted : c.heap.Accounted (held c others)) {sz : ℕ}
    (size : sz < 2 ^ 64) :
    Reserves c others sz ↔ sz + (c.buf.len - c.buf.ofs) < 2 ^ 64 := by
  have sound : Sound c.buf := ⟨built.sized, read, written⟩
  have small := sound.small
  refine ⟨fun reserves => ?_, sound.reserves accounted⟩
  by_contra wraps
  have some : c.buf.ptr ≠ none := by
    intro none
    obtain ⟨_, len, ofs⟩ := sound.none none
    omega
  obtain ⟨block, ptr⟩ := Option.ne_none_iff_exists'.mp some
  have short : ¬ sz ≤ c.buf.available := by
    rw [sound.available]
    omega
  have enough : ¬ c.buf.limit < (sz + c.buf.copyb) % 2 ^ 64 := by
    rw [sound.copyb]
    omega
  have given : Cells.alloc true (c.buf.limit + headSize) = true := by
    unfold Cells.alloc headSize
    rw [Bool.true_and, decide_eq_true_eq]
    omega
  have reserved : c.reserve 1 true (fun _ => 0) sz =
      Option.some (.ok, c.moved (fun _ => 0) block c.buf.limit) := by
    unfold Cells.reserve
    rw [if_neg short, ptr]
    dsimp only
    rw [grow, if_neg enough, Option.map_some, if_pos given]
    rfl
  have kept := reserves.ok _ _ _ _ reserved
  have room := kept.room
  rw [kept.sound.available] at room
  change sz ≤ c.buf.limit - c.buf.copyb at room
  rw [sound.copyb] at room
  omega

def stale : Mem := fun i => UInt8.ofNat i

/-- A buffer with its first block, which an object refers to as well; six of ten bytes are unread. -/
def partlyRead : Cells where
  heap := (Heap.empty.alloc stale).refer 0
  buf := ⟨some 0, 10, 256, 4⟩

theorem partlyRead_built : Built partlyRead.buf := by
  have begun : Cells.reserve 1 true stale ⟨.empty, .empty⟩ 100 =
      some (.ok, Cells.begun ⟨.empty, .empty⟩ stale 256) := by
    have short : ¬ 100 ≤ Buffer.empty.available := by decide
    have grown : grow 100 1 initialBufferSize = some 256 := by decide
    unfold Cells.reserve
    rw [if_neg short]
    change (grow 100 1 initialBufferSize).map _ = _
    rw [grown]
    rfl
  exact (Built.init.reserve begun).index 10 4

theorem partlyRead_accounted : partlyRead.heap.Accounted (held partlyRead [0]) :=
  (Heap.Accounted.empty.alloc stale).refer (List.mem_singleton.mpr rfl)

theorem reserves_iff_partlyRead : Reserves partlyRead [0] 1000 :=
  (reserves_iff partlyRead_built (by decide : 4 ≤ 10) (by decide : 10 ≤ 256)
    partlyRead_accounted (by decide)).mpr (by decide : 1000 + (10 - 4) < 2 ^ 64)

/-- With the unread bytes the size comes down to 5, which the old size is enough for. -/
theorem partlyRead_wraps :
    (partlyRead.reserve 1 true stale (2 ^ 64 - 1)).map (fun result => (result.1, result.2.buf.available)) =
        some (.ok, 250) ∧
      ¬ Reserves partlyRead [0] (2 ^ 64 - 1) := by
  have wraps : (partlyRead.reserve 1 true stale (2 ^ 64 - 1)).map
      (fun result => (result.1, result.2.buf.available)) = some (.ok, 250) := by decide +kernel
  refine ⟨wraps, fun reserves => ?_⟩
  obtain ⟨result, reserved, same⟩ := Option.map_eq_some_iff.mp wraps
  obtain ⟨outcome, available⟩ := Prod.mk.inj same
  have succeeded : partlyRead.reserve 1 true stale (2 ^ 64 - 1) = some (.ok, result.2) := by
    rw [reserved, ← outcome]
  have room := (reserves.ok _ _ _ _ succeeded).room
  rw [available] at room
  exact absurd room (by decide)

end Cyue.Reserve
