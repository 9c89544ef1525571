import Cyue.Lib.Fuel
import Cyue.Util.Reserve
import Mathlib.Data.List.Forall2
import Mathlib.Data.List.TakeWhile

/-!
# File system notifications

The kernel gives records of different lengths, and a read may end anywhere in them.
`on_read` puts what it reads behind the bytes it has, and takes records from the front of the
buffer until there is none.  The front never moves: `parse` takes nothing from the buffer.
-/

namespace Cyue.Inotify

open Bytes Fuel Memory Shared Reserve

/-! ## Records -/

def eventSize : ℕ := 16

/-- What the kernel writes; a name ends with zeros, and a record may have no name. -/
structure Record where
  wd : UInt32
  mask : UInt32
  cookie : UInt32
  name : List UInt8
  small : name.length < 2 ^ 32
  terminated : name = [] ∨ 0 ∈ name

namespace Record

def bytes (r : Record) : List UInt8 :=
  leBytes 4 r.wd.toNat ++ leBytes 4 r.mask.toNat ++ leBytes 4 r.cookie.toNat ++
    leBytes 4 r.name.length ++ r.name

def size (r : Record) : ℕ := eventSize + r.name.length

def path (r : Record) : List UInt8 := r.name.takeWhile fun c => c ≠ 0

theorem length_bytes (r : Record) : r.bytes.length = r.size := by
  unfold bytes size eventSize
  simp only [List.length_append, leBytes_length]

/-- The last word of the head. -/
theorem drop_bytes (r : Record) (rest : List UInt8) :
    (r.bytes ++ rest).drop 12 = leBytes 4 r.name.length ++ (r.name ++ rest) := by
  have split : r.bytes ++ rest = (leBytes 4 r.wd.toNat ++ leBytes 4 r.mask.toNat ++
      leBytes 4 r.cookie.toNat) ++ (leBytes 4 r.name.length ++ (r.name ++ rest)) := by
    unfold bytes
    simp only [List.append_assoc]
  rw [split, List.drop_left']
  simp only [List.length_append, leBytes_length]

end Record

/-- The records that are complete in the first `n` bytes. -/
def completed : List Record → ℕ → List Record
  | [], _ => []
  | r :: records, n => if r.size ≤ n then r :: completed records (n - r.size) else []

/-! ## The watcher -/

/-- `watcher`; a notification that was emitted is the block that it points to and refers to. -/
structure Watcher where
  cells : Cells
  emitted : List ℕ

def start : Watcher := ⟨⟨.empty, .empty⟩, []⟩

/-- What `::read` gives: some bytes, an error for which it is called again, or another error. -/
inductive Read where
  | bytes (b : List UInt8)
  | again
  | failed

/-- One call of `on_read`: whether `reserve` gets memory, what is read, and whether there is memory
for the notifications. -/
structure Call where
  granted : Bool
  read : Read
  units : ℕ → Bool

inductive Result where
  | keep
  | readAgain
  | destroy
  deriving DecidableEq

inductive Parse where
  | success
  | extraByte
  | continue
  | parseError
  deriving DecidableEq

namespace Watcher

/-- `parse`; the record is looked for at the front of the buffer. -/
def parse (w : Watcher) (unit : Bool) : Parse :=
  match w.cells.buf.ptr with
  | none => .continue
  | some block =>
      let size := eventSize + loadLe (w.cells.heap.contents block) 12 4
      if w.cells.buf.len < eventSize then .continue
      else if w.cells.buf.len < size then .continue
      else if unit = false then .parseError
      else if size < w.cells.buf.len then .extraByte
      else .success

/-- `emit` of the notification that `parse` has made: it refers to the block of the buffer. -/
def emit (w : Watcher) : Watcher :=
  match w.cells.buf.ptr with
  | none => w
  | some block =>
      { cells := { w.cells with heap := w.cells.heap.refer block }
        emitted := w.emitted ++ [block] }

/-- The loop `retry`; none when the fuel is used up. -/
def retry : ℕ → (ℕ → Bool) → Watcher → Option (Watcher × Result)
  | 0, _, _ => none
  | fuel + 1, units, w =>
      match w.parse (units 0) with
      | .success => some (w.emit, .keep)
      | .extraByte => retry fuel (fun i => units (i + 1)) w.emit
      | .continue => some (w, .keep)
      | .parseError => some (w, .destroy)

/-- The bytes that were read are behind the others, and `commit` counts them. -/
def commit (w : Watcher) (b : List UInt8) : Watcher :=
  match w.cells.buf.ptr with
  | none => w
  | some block =>
      { w with cells :=
        { heap := w.cells.heap.store block
            (store (w.cells.heap.contents block) w.cells.buf.len b)
          buf := { w.cells.buf with len := w.cells.buf.len + b.length } } }

def minimumFree : ℕ := 1024

def reserve (fresh : ℕ → Mem) (fuel : ℕ) (w : Watcher) (granted : Bool) : Option (Outcome × Cells) :=
  w.cells.reserve fuel granted (fresh w.cells.heap.next) minimumFree

/-- `on_read` behind `reserve`. -/
def readInto (fuel : ℕ) (w : Watcher) (call : Call) : Option (Watcher × Result) :=
  match call.read with
  | .again => some (w, .readAgain)
  | .failed => some (w, .destroy)
  | .bytes b => retry fuel call.units (w.commit b)

/-- `on_read`; the block with the number `n` holds `fresh n` when it is allocated. -/
def onRead (fresh : ℕ → Mem) (fuel : ℕ) (w : Watcher) (call : Call) : Option (Watcher × Result) :=
  (w.reserve fresh fuel call.granted).bind fun reserved =>
    if reserved.1 = .emalloc then some ({ w with cells := reserved.2 }, .destroy)
    else readInto fuel { w with cells := reserved.2 } call

/-- Calls of `on_read`, until one destroys the watcher. -/
def run (fresh : ℕ → Mem) (fuel : ℕ) : Watcher → List Call → Option Watcher
  | w, [] => some w
  | w, call :: calls =>
      (w.onRead fresh fuel call).bind fun result =>
        if result.2 = .destroy then some result.1 else run fresh fuel result.1 calls

end Watcher

/-! ## What is asked of it -/

def received : List Call → List UInt8
  | [] => []
  | call :: calls =>
      match call.read with
      | .bytes b => b ++ received calls
      | .again => received calls
      | .failed => []

def Call.Given (call : Call) : Prop := call.granted = true ∧ ∀ i, call.units i = true

def Fits (fresh : ℕ → Mem) : Watcher → List Call → Prop
  | _, [] => True
  | w, call :: calls =>
      (∀ fuel cells b, w.reserve fresh fuel call.granted = some (.ok, cells) →
        call.read = .bytes b → b.length ≤ cells.buf.available) ∧
      ∀ fuel result, w.onRead fresh fuel call = some result → Fits fresh result.1 calls

def StringAt (m : Mem) (off : ℕ) (s : List UInt8) : Prop :=
  load m off s.length = s ∧ m (off + s.length) = 0

/-- `flags()` and `path()` of a notification are those of the record. -/
def Shows (w : Watcher) (block : ℕ) (r : Record) : Prop :=
  ∃ m, w.cells.heap.read? block = some m ∧ loadLe m 4 4 = r.mask.toNat ∧ StringAt m eventSize r.path

/-- Every call returns, and each complete record is emitted once, in order, as it is. -/
def Faithful (fresh : ℕ → Mem) (records : List Record) (calls : List Call) : Prop :=
  ∃ fuel w, start.run fresh fuel calls = some w ∧
    List.Forall₂ (Shows w) w.emitted (completed records (received calls).length)

/-- With `n` bytes received: no call reads behind the first record, which has `size` bytes, and none
reads anything at all, be it nothing, when it is complete. -/
def Single (size : ℕ) : ℕ → List Call → Prop
  | _, [] => True
  | n, call :: calls =>
      match call.read with
      | .bytes b => n < size ∧ n + b.length ≤ size ∧ Single size (n + b.length) calls
      | .again => Single size n calls
      | .failed => True

/-! ## The buffer -/

theorem load_part {m : Mem} {all : List UInt8} {n k : ℕ} (loaded : load m 0 all.length = all)
    (inside : n + k ≤ all.length) : load m n k = (all.drop n).take k := by
  obtain ⟨rest, length⟩ := Nat.exists_eq_add_of_le inside
  rw [length, Nat.add_assoc, load_add, load_add, Nat.zero_add] at loaded
  rw [← loaded, List.drop_left' (load_length _ _ _), List.take_left' (load_length _ _ _)]

/-- The bytes from the start of the buffer are the ones that were received. -/
structure Waiting (w : Watcher) (data : List UInt8) : Prop where
  sound : Sound w.cells.buf
  accounted : w.cells.heap.Accounted (held w.cells w.emitted)
  ofs : w.cells.buf.ofs = 0
  len : w.cells.buf.len = data.length
  stored : w.cells.unread = data

/-- Behind these bytes a block is as it was when it was allocated. -/
def Behind (fresh : ℕ → Mem) (w : Watcher) : Prop :=
  ∀ block, w.cells.buf.ptr = some block → ∀ i, w.cells.buf.len ≤ i →
    ∃ n, w.cells.heap.contents block i = fresh n i

theorem waiting_start : Waiting start [] where
  sound := ⟨⟨fun _ => rfl, fun some => absurd rfl some⟩, le_rfl, le_rfl⟩
  accounted := Heap.Accounted.empty
  ofs := rfl
  len := rfl
  stored := rfl

namespace Waiting

variable {w : Watcher} {data : List UInt8}

theorem unread_eq (waiting : Waiting w data) {block : ℕ} (ptr : w.cells.buf.ptr = some block) :
    load (w.cells.heap.contents block) 0 data.length = data := by
  have stored := waiting.stored
  unfold Cells.unread at stored
  rw [ptr] at stored
  change load _ w.cells.buf.ofs (w.cells.buf.len - w.cells.buf.ofs) = data at stored
  rw [waiting.ofs, Nat.sub_zero, waiting.len] at stored
  exact stored

theorem fits (waiting : Waiting w data) :
    Watcher.minimumFree + (w.cells.buf.len - w.cells.buf.ofs) < 2 ^ 64 := by
  have small := waiting.sound.small
  have written := waiting.sound.written
  unfold Watcher.minimumFree
  omega

/-- `reserve` changes nothing but the place. -/
theorem reserve {fresh : ℕ → Mem} {fuel : ℕ} {granted : Bool} {cells : Cells} (waiting : Waiting w data)
    (reserved : w.reserve fresh fuel granted = some (.ok, cells)) :
    Waiting { w with cells := cells } data ∧ Watcher.minimumFree ≤ cells.buf.available ∧
      (∀ block ∈ w.emitted, ∃ content, w.cells.heap.read? block = some content ∧
        cells.heap.read? block = some content) ∧
      (Behind fresh w → Behind fresh { w with cells := cells }) := by
  have kept := (waiting.sound.reserves waiting.accounted waiting.fits).ok _ _ _ _ reserved
  have copyb := waiting.sound.copyb
  rw [waiting.ofs, Nat.sub_zero] at copyb
  have places : cells.buf.ofs = 0 ∧ cells.buf.len = w.cells.buf.len ∧
      (Behind fresh w → Behind fresh { w with cells := cells }) := by
    obtain ⟨_, same⟩ | same | ⟨block, limit, ptr, _, _, same⟩ | ⟨limit, ptr, _, _, same⟩ :=
      reserve_cases waiting.sound.toSized reserved
    · obtain rfl := (Prod.mk.inj same).2
      exact ⟨waiting.ofs, rfl, id⟩
    · exact absurd (Prod.mk.inj same).1 (by decide)
    · obtain rfl := (Prod.mk.inj same).2
      refine ⟨rfl, copyb, fun _ block' ptr' i above => ?_⟩
      obtain rfl := Option.some.inj ptr'
      change w.cells.buf.copyb ≤ i at above
      refine ⟨w.cells.heap.next, ?_⟩
      have content : (w.cells.moved (fresh w.cells.heap.next) block limit).heap.contents
          w.cells.heap.next = store (fresh w.cells.heap.next) 0
            (load (w.cells.heap.contents block) w.cells.buf.ofs w.cells.buf.copyb) :=
        Heap.alloc_contents_next _ _
      have outside : ¬ (0 ≤ i ∧ i < 0 + (load (w.cells.heap.contents block) w.cells.buf.ofs
          w.cells.buf.copyb).length) := by
        rw [load_length]
        omega
      change (w.cells.moved (fresh w.cells.heap.next) block limit).heap.contents _ i = _
      rw [content, store, if_neg outside]
    · obtain rfl := (Prod.mk.inj same).2
      refine ⟨waiting.ofs, rfl, fun _ block' ptr' i _ => ?_⟩
      obtain rfl := Option.some.inj ptr'
      refine ⟨w.cells.heap.next, ?_⟩
      exact congrFun (Heap.alloc_contents_next w.cells.heap (fresh w.cells.heap.next)) i
  refine ⟨⟨kept.sound, kept.accounted, places.1, places.2.1.trans waiting.len, ?_⟩, kept.room,
    kept.others, places.2.2⟩
  exact kept.unread.trans waiting.stored

theorem some_ptr (waiting : Waiting w data) (room : Watcher.minimumFree ≤ w.cells.buf.available) :
    ∃ block, w.cells.buf.ptr = some block := by
  apply Option.ne_none_iff_exists'.mp
  intro none
  rw [waiting.sound.available, (waiting.sound.none none).1, Nat.zero_sub] at room
  exact absurd room (by decide)

/-- What was read is behind the other bytes. -/
theorem commit {block : ℕ} (waiting : Waiting w data) (ptr : w.cells.buf.ptr = some block)
    {b : List UInt8} (room : b.length ≤ w.cells.buf.available) :
    Waiting (w.commit b) (data ++ b) ∧ (w.commit b).cells.buf.ptr = some block ∧
      (w.commit b).emitted = w.emitted ∧
      ∀ fresh, Behind fresh w → Behind fresh (w.commit b) := by
  have run : w.commit b = { w with cells :=
      { heap := w.cells.heap.store block (store (w.cells.heap.contents block) w.cells.buf.len b)
        buf := { w.cells.buf with len := w.cells.buf.len + b.length } } } := by
    unfold Watcher.commit
    rw [ptr]
  have written := waiting.sound.written
  rw [waiting.sound.available] at room
  rw [run]
  refine ⟨⟨⟨⟨waiting.sound.empty, waiting.sound.block⟩, ?_, ?_⟩, ?_, waiting.ofs, ?_, ?_⟩, ptr, rfl, ?_⟩
  · change w.cells.buf.ofs ≤ w.cells.buf.len + b.length
    exact waiting.sound.read.trans (Nat.le_add_right _ _)
  · change w.cells.buf.len + b.length ≤ w.cells.buf.limit
    omega
  · exact waiting.accounted.store block _
  · change w.cells.buf.len + b.length = _
    rw [List.length_append, waiting.len]
  · unfold Cells.unread
    rw [ptr]
    change load ((w.cells.heap.store block _).contents block) w.cells.buf.ofs
      (w.cells.buf.len + b.length - w.cells.buf.ofs) = _
    rw [Heap.store_contents_self, waiting.ofs, waiting.len, Nat.sub_zero, load_add, Nat.zero_add,
      load_store, load_store_of_disjoint (.inl (Nat.zero_add _).le), waiting.unread_eq ptr]
  · intro fresh behind block' ptr' i above
    change w.cells.buf.ptr = some block' at ptr'
    obtain rfl := Option.some.inj (ptr.symm.trans ptr')
    change w.cells.buf.len + b.length ≤ i at above
    obtain ⟨n, old⟩ := behind block ptr i (by omega)
    refine ⟨n, ?_⟩
    have outside : ¬ (w.cells.buf.len ≤ i ∧ i < w.cells.buf.len + b.length) := by omega
    change (w.cells.heap.store block _).contents block i = _
    rw [Heap.store_contents_self, store, if_neg outside]
    exact old

/-- A notification holds a reference, and the buffer is as before. -/
theorem emit {block : ℕ} (waiting : Waiting w data) (ptr : w.cells.buf.ptr = some block) :
    Waiting w.emit data ∧ w.emit.cells.buf = w.cells.buf ∧
      w.emit.cells.heap.contents = w.cells.heap.contents ∧ w.emit.emitted = w.emitted ++ [block] := by
  have run : w.emit = { cells := { w.cells with heap := w.cells.heap.refer block }
                        emitted := w.emitted ++ [block] } := by
    unfold Watcher.emit
    rw [ptr]
  rw [run]
  refine ⟨⟨waiting.sound, ?_, waiting.ofs, waiting.len, waiting.stored⟩, rfl, rfl, rfl⟩
  have accounted := waiting.accounted
  unfold held at accounted ⊢
  change (w.cells.heap.refer block).Accounted (w.cells.buf.ptr.toList ++ (w.emitted ++ [block]))
  rw [ptr] at accounted ⊢
  refine (accounted.refer (List.mem_cons_self ..)).perm ?_
  exact List.Perm.cons block List.perm_append_comm

/-! ## One record at the front -/

theorem take_drop_append {more : List UInt8} {n k : ℕ} (inside : n + k ≤ data.length) :
    ((data ++ more).drop n).take k = (data.drop n).take k := by
  rw [List.drop_append_of_le_length (by omega), List.take_append_of_le_length]
  rw [List.length_drop]
  omega

/-- The length stands in the last word of the record's head. -/
theorem length_eq (waiting : Waiting w data) {block : ℕ} (ptr : w.cells.buf.ptr = some block)
    {r : Record} {rest : List UInt8} (stream : data <+: r.bytes ++ rest) (whole : eventSize ≤ data.length) :
    loadLe (w.cells.heap.contents block) 12 4 = r.name.length := by
  obtain ⟨more, joined⟩ := stream
  have word := load_part (waiting.unread_eq ptr) (show 12 + 4 ≤ data.length from whole)
  rw [← @take_drop_append data more 12 4 whole, joined, r.drop_bytes,
    List.take_left' (leBytes_length _ _)] at word
  rw [loadLe, word, leNat_leBytes]
  exact r.small

/-- What `parse` finds when there is memory. -/
theorem parse_eq (waiting : Waiting w data) {r : Record} {rest : List UInt8}
    (stream : data <+: r.bytes ++ rest) (some : w.cells.buf.ptr ≠ none) :
    w.parse true = if data.length < r.size then .continue
      else if r.size < data.length then .extraByte else .success := by
  obtain ⟨block, ptr⟩ := Option.ne_none_iff_exists'.mp some
  unfold Watcher.parse
  rw [ptr]
  dsimp only
  rw [waiting.len]
  by_cases short : data.length < eventSize
  · have part : data.length < r.size := short.trans_le (Nat.le_add_right _ _)
    rw [if_pos short, if_pos part]
  · rw [waiting.length_eq ptr stream (not_lt.mp short), if_neg short,
      if_neg (by decide : ¬ (true = false))]
    rfl

/-- The record at the front is emitted again and again when something is behind it. -/
theorem retry_extra (waiting : Waiting w data) {r : Record} {rest : List UInt8}
    (stream : data <+: r.bytes ++ rest) (some : w.cells.buf.ptr ≠ none) (extra : r.size < data.length)
    (fuel : ℕ) {units : ℕ → Bool} (given : ∀ i, units i = true) : w.retry fuel units = none := by
  induction fuel generalizing w units with
  | zero => rfl
  | succ fuel ih =>
      obtain ⟨block, ptr⟩ := Option.ne_none_iff_exists'.mp some
      obtain ⟨waiting', buf, _, _⟩ := waiting.emit ptr
      unfold Watcher.retry
      rw [given 0, waiting.parse_eq stream some, if_neg (not_lt.mpr extra.le), if_pos extra]
      exact ih waiting' (buf ▸ some) fun i => given (i + 1)

/-! ## One call -/

theorem yields_reserve (waiting : Waiting w data) (fresh : ℕ → Mem) (small : data.length < 2 ^ 60) :
    ∃ cells, Yields (fun fuel => w.reserve fresh fuel true) (.ok, cells) := by
  obtain ⟨fuel, result, reserved⟩ := (waiting.sound.reserves waiting.accounted waiting.fits).ends
    (by decide) true (fresh w.cells.heap.next)
  have ok : result.1 = .ok := by
    refine reserve_ok waiting.sound ?_ reserved
    rw [waiting.len]
    unfold Watcher.minimumFree
    omega
  refine ⟨result.2, yields_of_mono (n := fuel) ?_ reserve_mono⟩
  rw [← ok]
  exact reserved

/-- With the bytes of a read the record at the front is still not complete, or it is complete and
emitted, or the call does not return. -/
theorem yields_read (waiting : Waiting w data) (room : Watcher.minimumFree ≤ w.cells.buf.available)
    {call : Call} {b : List UInt8} (given : ∀ i, call.units i = true) (read : call.read = .bytes b)
    (fits : b.length ≤ w.cells.buf.available) {r : Record} {rest : List UInt8}
    (stream : data ++ b <+: r.bytes ++ rest) :
    Waiting (w.commit b) (data ++ b) ∧ (w.commit b).emitted = w.emitted ∧
      (∀ fresh, Behind fresh w → Behind fresh (w.commit b)) ∧
      ∃ block, (w.commit b).cells.buf.ptr = some block ∧
        ((data ++ b).length < r.size →
          Yields (fun fuel => Watcher.readInto fuel w call) (w.commit b, .keep)) ∧
        ((data ++ b).length = r.size →
          Yields (fun fuel => Watcher.readInto fuel w call) ((w.commit b).emit, .keep)) ∧
        (r.size < (data ++ b).length → ∀ fuel, Watcher.readInto fuel w call = none) := by
  obtain ⟨block, ptr⟩ := waiting.some_ptr room
  obtain ⟨waiting', ptr', emitted, behind⟩ := waiting.commit ptr fits
  have some : (w.commit b).cells.buf.ptr ≠ none := ptr' ▸ Option.some_ne_none block
  have parse := waiting'.parse_eq stream some
  have into : (fun fuel => Watcher.readInto fuel w call) =
      fun fuel => Watcher.retry fuel call.units (w.commit b) := by
    unfold Watcher.readInto
    rw [read]
  have turn (fuel : ℕ) : Watcher.retry (fuel + 1) call.units (w.commit b) =
      match (w.commit b).parse true with
      | .success => Option.some ((w.commit b).emit, .keep)
      | .extraByte => Watcher.retry fuel (fun i => call.units (i + 1)) (w.commit b).emit
      | .continue => Option.some (w.commit b, .keep)
      | .parseError => Option.some (w.commit b, .destroy) := by
    rw [Watcher.retry, given 0]
  refine ⟨waiting', emitted, behind, block, ptr', fun short => ?_, fun whole => ?_,
    fun extra fuel => ?_⟩
  · rw [into]
    refine Yields.succ rfl ?_
    rw [if_pos short] at parse
    simp only [turn, parse]
    exact yields_pure _
  · rw [into]
    refine Yields.succ rfl ?_
    rw [if_neg (by omega), if_neg (by omega)] at parse
    simp only [turn, parse]
    exact yields_pure _
  · exact (congrFun into fuel).trans (waiting'.retry_extra stream some extra fuel given)

end Waiting

variable {fresh : ℕ → Mem} {w : Watcher} {data : List UInt8}

/-- A call is what it does behind `reserve`. -/
theorem yields_onRead {cells : Cells} {call : Call} {result : Watcher × Result}
    (given : call.granted = true) (reserved : Yields (fun fuel => w.reserve fresh fuel true) (.ok, cells))
    (ends : Yields (fun fuel => Watcher.readInto fuel { w with cells := cells } call) result) :
    Yields (fun fuel => w.onRead fresh fuel call) result := by
  unfold Watcher.onRead
  rw [given]
  let behind (reserved : Outcome × Cells) (fuel : ℕ) : Option (Watcher × Result) :=
    if reserved.1 = .emalloc then some ({ w with cells := reserved.2 }, .destroy)
    else Watcher.readInto fuel { w with cells := reserved.2 } call
  have ends : Yields (behind (.ok, cells)) result := ends
  exact reserved.bind ends

theorem yields_again {cells : Cells} {call : Call} (given : call.granted = true)
    (reserved : Yields (fun fuel => w.reserve fresh fuel true) (.ok, cells)) (read : call.read = .again) :
    Yields (fun fuel => w.onRead fresh fuel call) ({ w with cells := cells }, .readAgain) := by
  refine yields_onRead given reserved ?_
  unfold Watcher.readInto
  rw [read]
  exact yields_pure _

theorem yields_failed {cells : Cells} {call : Call} (given : call.granted = true)
    (reserved : Yields (fun fuel => w.reserve fresh fuel true) (.ok, cells)) (read : call.read = .failed) :
    Yields (fun fuel => w.onRead fresh fuel call) ({ w with cells := cells }, .destroy) := by
  refine yields_onRead given reserved ?_
  unfold Watcher.readInto
  rw [read]
  exact yields_pure _

/-- A run goes on behind a call that keeps the watcher. -/
theorem yields_run {call : Call} {calls : List Call} {w₁ w' : Watcher} {result : Result}
    (first : Yields (fun fuel => w.onRead fresh fuel call) (w₁, result)) (keeps : result ≠ .destroy)
    (rest : Yields (fun fuel => w₁.run fresh fuel calls) w') :
    Yields (fun fuel => w.run fresh fuel (call :: calls)) w' := by
  unfold Watcher.run
  let behind (result : Watcher × Result) (fuel : ℕ) : Option Watcher :=
    if result.2 = .destroy then some result.1 else result.1.run fresh fuel calls
  have rest : Yields (behind (w₁, result)) w' := by
    have goes : behind (w₁, result) = fun fuel => w₁.run fresh fuel calls :=
      funext fun fuel => if_neg keeps
    rw [goes]
    exact rest
  exact first.bind rest

theorem yields_destroy {call : Call} {w₁ : Watcher} (calls : List Call)
    (first : Yields (fun fuel => w.onRead fresh fuel call) (w₁, .destroy)) :
    Yields (fun fuel => w.run fresh fuel (call :: calls)) w₁ := by
  unfold Watcher.run
  let behind (result : Watcher × Result) (fuel : ℕ) : Option Watcher :=
    if result.2 = .destroy then some result.1 else result.1.run fresh fuel calls
  have rest : Yields (behind (w₁, .destroy)) w₁ := yields_pure w₁
  exact first.bind rest

/-! ## The notification -/

/-- The block of a notification has the record at its front, and behind it what it was allocated
with. -/
def Holds (fresh : ℕ → Mem) (w : Watcher) (block : ℕ) (r : Record) : Prop :=
  ∃ m, w.cells.heap.read? block = some m ∧ load m 0 r.size = r.bytes ∧
    ∀ i, r.size ≤ i → ∃ n, m i = fresh n i

theorem Record.size_small (r : Record) : r.size < 2 ^ 60 := by
  have small := r.small
  unfold Record.size eventSize
  omega

theorem Record.drop_flags (r : Record) :
    (r.bytes.drop 4).take 4 = leBytes 4 r.mask.toNat := by
  unfold Record.bytes
  rw [List.append_assoc, List.append_assoc, List.append_assoc,
    List.drop_left' (leBytes_length 4 _), List.take_left' (leBytes_length 4 _)]

theorem Record.drop_name (r : Record) : r.bytes.drop eventSize = r.name := by
  have length : (leBytes 4 r.wd.toNat ++ leBytes 4 r.mask.toNat ++ leBytes 4 r.cookie.toNat ++
      leBytes 4 r.name.length).length = eventSize := by
    simp only [List.length_append, leBytes_length]
    rfl
  exact List.drop_left' length

theorem fields_eq {r : Record} {m : Mem} (loaded : load m 0 r.size = r.bytes) :
    loadLe m 4 4 = r.mask.toNat ∧ load m eventSize r.name.length = r.name := by
  rw [← r.length_bytes] at loaded
  have length := r.length_bytes
  unfold Record.size eventSize at length
  constructor
  · rw [loadLe, load_part loaded (by omega), r.drop_flags, leNat_leBytes]
    exact r.mask.toNat_lt
  · rw [load_part loaded (by unfold eventSize; omega), r.drop_name, List.take_length]

/-- A list with a zero ends its string in itself. -/
theorem exists_terminator {s : List UInt8} (zero : 0 ∈ s) :
    ∃ tail, s = (s.takeWhile fun c => c ≠ 0) ++ 0 :: tail := by
  induction s with
  | nil => exact absurd zero List.not_mem_nil
  | cons c s ih =>
      by_cases here : c = 0
      · subst here
        exact ⟨s, rfl⟩
      · obtain ⟨tail, split⟩ := ih ((List.mem_cons.mp zero).resolve_left (Ne.symm here))
        have more : ((c :: s).takeWhile fun c => c ≠ 0) = c :: s.takeWhile fun c => c ≠ 0 :=
          List.takeWhile_cons_of_pos (decide_eq_true here)
        refine ⟨tail, ?_⟩
        rw [more, List.cons_append, ← split]

/-- A name that ends with a zero is read as it is. -/
theorem Holds.shows {block : ℕ} {r : Record} (holds : Holds fresh w block r) (name : r.name ≠ []) :
    Shows w block r := by
  obtain ⟨m, read, loaded, _⟩ := holds
  obtain ⟨flags, whole⟩ := fields_eq loaded
  obtain ⟨tail, split⟩ := exists_terminator (r.terminated.resolve_left name)
  refine ⟨m, read, flags, ?_⟩
  change r.name = r.path ++ 0 :: tail at split
  have length : r.name.length = r.path.length + (tail.length + 1) := by
    rw [congrArg List.length split, List.length_append, List.length_cons]
  rw [length, load_add, split] at whole
  obtain ⟨front, behind⟩ := List.append_inj whole (load_length _ _ _)
  refine ⟨front, ?_⟩
  rw [load] at behind
  exact (List.cons.inj behind).1

/-- Without a name the string begins behind the record. -/
theorem Holds.nameless {block : ℕ} {r : Record} (holds : Holds fresh w block r) (name : r.name = [])
    (shows : Shows w block r) : ∃ n, fresh n eventSize = 0 := by
  obtain ⟨m, read, _, behind⟩ := holds
  obtain ⟨m', read', _, _, ends⟩ := shows
  obtain rfl := Option.some.inj (read.symm.trans read')
  have path : r.path = [] := by rw [Record.path, name]; rfl
  have size : r.size = eventSize := by rw [Record.size, name]; rfl
  rw [path] at ends
  obtain ⟨n, same⟩ := behind eventSize size.le
  exact ⟨n, same ▸ ends⟩

/-! ## Runs -/

/-- Behind the first record there are only calls that read nothing. -/
theorem run_behind {block : ℕ} {r : Record} {calls : List Call} (waiting : Waiting w data)
    (length : data.length = r.size) (emitted : w.emitted = [block]) (holds : Holds fresh w block r)
    (given : ∀ call ∈ calls, call.Given) (single : Single r.size r.size calls) :
    received calls = [] ∧ ∃ w', Yields (fun fuel => w.run fresh fuel calls) w' ∧
      w'.emitted = [block] ∧ Holds fresh w' block r := by
  induction calls generalizing w with
  | nil => exact ⟨rfl, w, yields_pure w, emitted, holds⟩
  | cons call calls ih =>
      obtain ⟨granted, _⟩ := given call (List.mem_cons_self ..)
      obtain ⟨cells, reserved⟩ := waiting.yields_reserve fresh (length ▸ r.size_small)
      obtain ⟨fuel, enough⟩ := reserved.enough
      obtain ⟨waiting', _, others, _⟩ := waiting.reserve (enough fuel le_rfl)
      have holds' : Holds fresh { w with cells := cells } block r := by
        obtain ⟨m, read, stored⟩ := holds
        obtain ⟨m', before, after⟩ := others block (emitted ▸ List.mem_singleton.mpr rfl)
        obtain rfl := Option.some.inj (read.symm.trans before)
        exact ⟨m, after, stored⟩
      unfold Single at single
      unfold received
      cases read : call.read with
      | bytes b =>
          rw [read] at single
          exact absurd single.1 (Nat.lt_irrefl _)
      | again =>
          rw [read] at single
          obtain ⟨none, w', rest, result⟩ :=
            ih waiting' emitted holds' (fun call mem => given call (List.mem_cons_of_mem _ mem)) single
          exact ⟨none, w', yields_run (yields_again granted reserved read) (by decide) rest, result⟩
      | failed =>
          exact ⟨rfl, _, yields_destroy calls (yields_failed granted reserved read), emitted, holds'⟩

/-- The notification that is emitted when the record is complete. -/
theorem Waiting.holds_emit {block : ℕ} {r : Record} {rest : List UInt8} (waiting : Waiting w data)
    (ptr : w.cells.buf.ptr = some block) (length : data.length = r.size)
    (stream : data <+: r.bytes ++ rest) (behind : Behind fresh w) : Holds fresh w.emit block r := by
  obtain ⟨waiting', buf, contents, emitted⟩ := waiting.emit ptr
  have whole : data = r.bytes := by
    rw [← r.length_bytes] at length
    have same := (List.prefix_iff_eq_take.mp stream)
    rw [length, List.take_left] at same
    exact same
  refine ⟨w.emit.cells.heap.contents block, ?_, ?_, fun i above => ?_⟩
  · refine waiting'.accounted.read? (List.mem_append_right _ ?_)
    rw [emitted]
    exact List.mem_append_right _ (List.mem_singleton.mpr rfl)
  · have loaded := waiting.unread_eq ptr
    rw [contents, ← length, loaded, whole]
  · rw [contents]
    exact behind block ptr i (by rw [waiting.len, length]; exact above)

/-- As long as nothing was emitted: the calls return, and the first record is emitted when it is
complete. -/
theorem run_single {r : Record} {rest : List UInt8} {calls : List Call} (waiting : Waiting w data)
    (short : data.length < r.size) (emitted : w.emitted = []) (behind : Behind fresh w)
    (given : ∀ call ∈ calls, call.Given) (fits : Fits fresh w calls)
    (stream : data ++ received calls <+: r.bytes ++ rest) (single : Single r.size data.length calls) :
    ∃ w', Yields (fun fuel => w.run fresh fuel calls) w' ∧
      ((data ++ received calls).length < r.size ∧ w'.emitted = [] ∨
        (data ++ received calls).length = r.size ∧
          ∃ block, w'.emitted = [block] ∧ Holds fresh w' block r) := by
  induction calls generalizing w data with
  | nil =>
      refine ⟨w, yields_pure w, .inl ⟨?_, emitted⟩⟩
      unfold received
      rw [List.append_nil]
      exact short
  | cons call calls ih =>
      obtain ⟨granted, units⟩ := given call (List.mem_cons_self ..)
      have given' : ∀ call ∈ calls, call.Given := fun call mem => given call (List.mem_cons_of_mem _ mem)
      obtain ⟨cells, reserved⟩ := waiting.yields_reserve fresh (short.trans r.size_small)
      obtain ⟨fuel, enough⟩ := reserved.enough
      obtain ⟨waiting', room, _, kept⟩ := waiting.reserve (enough fuel le_rfl)
      have behind' := kept behind
      unfold Single at single
      unfold received at stream ⊢
      cases read : call.read with
      | again =>
          rw [read] at single stream
          have first := yields_again granted reserved read
          obtain ⟨n, returns⟩ := first.enough
          obtain ⟨w', run, result⟩ :=
            ih waiting' short emitted behind' given' (fits.2 n _ (returns n le_rfl)) stream single
          exact ⟨w', yields_run first (by decide) run, result⟩
      | failed =>
          refine ⟨_, yields_destroy calls (yields_failed granted reserved read), .inl ⟨?_, emitted⟩⟩
          rw [List.append_nil]
          exact short
      | bytes b =>
          rw [read] at single stream
          obtain ⟨_, le, single⟩ := single
          change data ++ (b ++ received calls) <+: _ at stream
          rw [← List.append_assoc] at stream
          have part : data ++ b <+: r.bytes ++ rest := (List.prefix_append _ _).trans stream
          have length : (data ++ b).length = data.length + b.length := List.length_append
          have space : b.length ≤ cells.buf.available :=
            fits.1 fuel cells b (granted ▸ enough fuel le_rfl) read
          obtain ⟨committed, same, kept, block, ptr, more, whole, _⟩ :=
            waiting'.yields_read room units read space part
          change ∃ w', _ ∧ ((data ++ (b ++ received calls)).length < _ ∧ _ ∨
            (data ++ (b ++ received calls)).length = _ ∧ _)
          rw [← List.append_assoc]
          rw [← length] at le single
          rcases Nat.lt_or_eq_of_le le with less | complete
          · have first := yields_onRead granted reserved (more less)
            obtain ⟨n, returns⟩ := first.enough
            obtain ⟨w', run, result⟩ := ih committed less (same.trans emitted) (kept fresh behind') given'
              (fits.2 n _ (returns n le_rfl)) stream single
            exact ⟨w', yields_run first (by decide) run, result⟩
          · have first := yields_onRead granted reserved (whole complete)
            obtain ⟨waiting'', _, _, added⟩ := committed.emit ptr
            have notified : ({ w with cells := cells }.commit b).emit.emitted = [block] := by
              have none : ({ w with cells := cells }.commit b).emitted = [] := same.trans emitted
              rw [added, none, List.nil_append]
            rw [complete] at single
            have holds := committed.holds_emit ptr complete part (kept fresh behind')
            obtain ⟨none, w', run, result⟩ :=
              run_behind waiting'' complete notified holds given' single
            refine ⟨w', yields_run first (by decide) run, .inr ⟨?_, block, result⟩⟩
            rw [none, List.append_nil]
            exact complete

/-! ## Runs that return -/

theorem emit_emitted (w : Watcher) : w.emitted.length ≤ w.emit.emitted.length := by
  unfold Watcher.emit
  split
  · exact le_rfl
  · rw [List.length_append]
    exact Nat.le_add_right _ _

theorem commit_emitted (w : Watcher) (b : List UInt8) : (w.commit b).emitted = w.emitted := by
  unfold Watcher.commit
  split <;> rfl

theorem retry_emitted {fuel : ℕ} {units : ℕ → Bool} {result : Watcher × Result}
    (ran : w.retry fuel units = some result) : w.emitted.length ≤ result.1.emitted.length := by
  induction fuel generalizing w units with
  | zero => cases ran
  | succ fuel ih =>
      unfold Watcher.retry at ran
      split at ran
      · obtain rfl := Option.some.inj ran
        exact emit_emitted w
      · exact (emit_emitted w).trans (ih ran)
      · obtain rfl := Option.some.inj ran
        exact le_rfl
      · obtain rfl := Option.some.inj ran
        exact le_rfl

theorem onRead_emitted {fuel : ℕ} {call : Call} {result : Watcher × Result}
    (ran : w.onRead fresh fuel call = some result) : w.emitted.length ≤ result.1.emitted.length := by
  obtain ⟨reserved, _, ran⟩ := Option.bind_eq_some_iff.mp ran
  split at ran
  · obtain rfl := Option.some.inj ran
    exact le_rfl
  · unfold Watcher.readInto at ran
    split at ran
    · obtain rfl := Option.some.inj ran
      exact le_rfl
    · obtain rfl := Option.some.inj ran
      exact le_rfl
    · have grown := retry_emitted ran
      rw [commit_emitted] at grown
      exact grown

/-- What was emitted stays emitted. -/
theorem run_emitted {fuel : ℕ} {calls : List Call} {w' : Watcher}
    (ran : w.run fresh fuel calls = some w') : w.emitted.length ≤ w'.emitted.length := by
  induction calls generalizing w with
  | nil =>
      obtain rfl := Option.some.inj ran
      exact le_rfl
  | cons call calls ih =>
      obtain ⟨result, first, ran⟩ := Option.bind_eq_some_iff.mp ran
      split at ran
      · obtain rfl := Option.some.inj ran
        exact onRead_emitted first
      · exact (onRead_emitted first).trans (ih ran)

/-- The rest of a run behind a call whose result is known. -/
theorem run_rest {fuel : ℕ} {call : Call} {calls : List Call} {w₁ w' : Watcher} {result : Result}
    (first : Yields (fun fuel => w.onRead fresh fuel call) (w₁, result)) (keeps : result ≠ .destroy)
    (ran : w.run fresh fuel (call :: calls) = some w') : w₁.run fresh fuel calls = some w' := by
  obtain ⟨given, onread, ran⟩ := Option.bind_eq_some_iff.mp ran
  obtain rfl := first.only fuel given onread
  rw [if_neg keeps] at ran
  exact ran

/-- A run that returns has not gone behind the first record, and has come to it only once unless it has
emitted it twice. -/
theorem single_of_run {r : Record} {rest : List UInt8} {calls : List Call} {fuel : ℕ} {w' : Watcher}
    (waiting : Waiting w data) (le : data.length ≤ r.size) (done : data.length = r.size → w.emitted ≠ [])
    (given : ∀ call ∈ calls, call.Given) (fits : Fits fresh w calls)
    (stream : data ++ received calls <+: r.bytes ++ rest) (ran : w.run fresh fuel calls = some w') :
    (data ++ received calls).length ≤ r.size ∧
      (w'.emitted.length ≤ 1 → Single r.size data.length calls) := by
  induction calls generalizing w data with
  | nil =>
      refine ⟨?_, fun _ => trivial⟩
      unfold received
      rw [List.append_nil]
      exact le
  | cons call calls ih =>
      obtain ⟨granted, units⟩ := given call (List.mem_cons_self ..)
      have given' : ∀ call ∈ calls, call.Given := fun call mem => given call (List.mem_cons_of_mem _ mem)
      obtain ⟨cells, reserved⟩ := waiting.yields_reserve fresh (le.trans_lt r.size_small)
      obtain ⟨m, enough⟩ := reserved.enough
      obtain ⟨waiting', room, _, _⟩ := waiting.reserve (enough m le_rfl)
      unfold Single
      unfold received at stream ⊢
      cases read : call.read with
      | again =>
          rw [read] at stream
          have first := yields_again granted reserved read
          obtain ⟨n, returns⟩ := first.enough
          exact ih waiting' le done given' (fits.2 n _ (returns n le_rfl)) stream
            (run_rest first (by decide) ran)
      | failed =>
          refine ⟨?_, fun _ => trivial⟩
          rw [List.append_nil]
          exact le
      | bytes b =>
          rw [read] at stream
          change data ++ (b ++ received calls) <+: _ at stream
          rw [← List.append_assoc] at stream
          have part : data ++ b <+: r.bytes ++ rest := (List.prefix_append _ _).trans stream
          have length : (data ++ b).length = data.length + b.length := List.length_append
          have space : b.length ≤ cells.buf.available :=
            fits.1 m cells b (granted ▸ enough m le_rfl) read
          obtain ⟨committed, same, _, block, ptr, more, whole, extra⟩ :=
            waiting'.yields_read room units read space part
          change (data ++ (b ++ received calls)).length ≤ _ ∧ (_ →
            data.length < _ ∧ data.length + b.length ≤ _ ∧ Single _ (data.length + b.length) calls)
          rw [← List.append_assoc, ← length]
          rcases Nat.lt_trichotomy (data ++ b).length r.size with less | complete | beyond
          · have first := yields_onRead granted reserved (more less)
            obtain ⟨n, returns⟩ := first.enough
            obtain ⟨total, single⟩ := ih committed less.le (fun same => absurd same less.ne) given'
              (fits.2 n _ (returns n le_rfl)) stream (run_rest first (by decide) ran)
            exact ⟨total, fun once => ⟨by omega, less.le, single once⟩⟩
          · have first := yields_onRead granted reserved (whole complete)
            obtain ⟨n, returns⟩ := first.enough
            obtain ⟨waiting'', _, _, added⟩ := committed.emit ptr
            have added : ({ w with cells := cells }.commit b).emit.emitted = w.emitted ++ [block] := by
              rw [added, same]
            have ran := run_rest first (by decide) ran
            have notified : ({ w with cells := cells }.commit b).emit.emitted ≠ [] := by
              rw [added]
              exact List.append_ne_nil_of_right_ne_nil _ (List.cons_ne_nil _ _)
            obtain ⟨total, single⟩ := ih waiting'' complete.le (fun _ => notified) given'
              (fits.2 n _ (returns n le_rfl)) stream ran
            refine ⟨total, fun once => ⟨?_, complete.le, single once⟩⟩
            refine lt_of_le_of_ne le fun full => ?_
            have twice := run_emitted ran
            have some := List.length_pos_iff.mpr (done full)
            rw [added, List.length_append, List.length_singleton] at twice
            omega
          · obtain ⟨result, onread, _⟩ := Option.bind_eq_some_iff.mp ran
            obtain ⟨given, reserve, into⟩ := Option.bind_eq_some_iff.mp onread
            rw [granted] at reserve
            obtain rfl := reserved.only fuel given reserve
            have goes : ¬ ((Outcome.ok, cells) : Outcome × Cells).1 = .emalloc :=
              fun same => by cases same
            rw [if_neg goes, extra beyond fuel] at into
            cases into

/-! ## All records -/

theorem completed_lt {records : List Record} {n : ℕ} (short : n < eventSize) : completed records n = [] := by
  cases records with
  | nil => rfl
  | cons r records =>
      have less : ¬ r.size ≤ n := by
        unfold Record.size
        omega
      exact if_neg less

theorem completed_first (r : Record) (records : List Record) : completed (r :: records) r.size = [r] := by
  unfold completed
  rw [if_pos le_rfl, Nat.sub_self, completed_lt (by decide)]

theorem completed_short {r : Record} {records : List Record} {n : ℕ} (short : n < r.size) :
    completed (r :: records) n = [] := if_neg (not_le.mpr short)

def unnamed : Record := ⟨0, 0, 0, [], by decide, .inl rfl⟩

theorem single_idle {size n : ℕ} {calls : List Call} (less : n < size) (none : received calls = []) :
    Single size n calls := by
  induction calls with
  | nil => trivial
  | cons call calls ih =>
      unfold Single
      unfold received at none
      cases read : call.read with
      | bytes b =>
          rw [read] at none
          obtain ⟨rfl, rest⟩ := List.append_eq_nil_iff.mp none
          exact ⟨less, less.le, ih rest⟩
      | again =>
          rw [read] at none
          exact ih none
      | failed => trivial

theorem behind_start (fresh : ℕ → Mem) : Behind fresh start := by
  intro block ptr
  cases ptr

/-- The first record alone. -/
theorem faithful_iff_first {r : Record} {records : List Record} {calls : List Call}
    (given : ∀ call ∈ calls, call.Given) (fits : ∀ fresh, Fits fresh start calls)
    (stream : received calls <+: (r :: records).flatMap Record.bytes) :
    (∀ fresh, Faithful fresh (r :: records) calls) ↔
      Single r.size 0 calls ∧ (r.size ≤ (received calls).length → r.name ≠ []) := by
  have positive : 0 < r.size := Nat.add_pos_left (by decide) _
  rw [List.flatMap_cons] at stream
  constructor
  · intro faithful
    obtain ⟨fuel, w, ran, shown⟩ := faithful fun _ _ => 1
    obtain ⟨total, once⟩ := single_of_run waiting_start positive.le (fun same => absurd same positive.ne)
      given (fits _) stream ran
    rw [List.nil_append] at total
    have single : Single r.size 0 calls := by
      apply once
      rw [shown.length_eq]
      rcases Nat.lt_or_eq_of_le total with less | same
      · rw [completed_short less]
        exact Nat.zero_le _
      · rw [same, completed_first]
        exact le_rfl
    refine ⟨single, fun complete name => ?_⟩
    obtain ⟨w', run, ⟨less, _⟩ | ⟨same, block, emitted, holds⟩⟩ :=
      run_single waiting_start positive rfl (behind_start _) given (fits fun _ _ => 1) stream single
    · exact absurd complete (not_le.mpr less)
    · obtain rfl := run.only fuel w ran
      rw [List.nil_append] at same
      rw [emitted, same, completed_first] at shown
      obtain ⟨n, zero⟩ := holds.nameless name (List.forall₂_cons.mp shown).1
      exact absurd zero (by decide)
  · rintro ⟨single, name⟩ fresh
    obtain ⟨w', run, either⟩ :=
      run_single waiting_start positive rfl (behind_start _) given (fits fresh) stream single
    obtain ⟨n, returns⟩ := run.enough
    refine ⟨n, w', returns n le_rfl, ?_⟩
    rw [List.nil_append] at either
    obtain ⟨less, none⟩ | ⟨same, block, emitted, holds⟩ := either
    · rw [none, completed_short less]
      exact List.Forall₂.nil
    · rw [emitted, same, completed_first]
      exact List.Forall₂.cons (holds.shows (name same.ge)) List.Forall₂.nil

/-- Whatever the memory holds, every call returns and emits the complete records once and as they
are, if and only if nothing is read behind the first record of all, and it has a name when it
is complete. -/
theorem faithful_iff {records : List Record} {calls : List Call} (given : ∀ call ∈ calls, call.Given)
    (fits : ∀ fresh, Fits fresh start calls)
    (stream : received calls <+: records.flatMap Record.bytes) :
    (∀ fresh, Faithful fresh records calls) ↔
      ∀ r, records.head? = some r →
        Single r.size 0 calls ∧ (r.size ≤ (received calls).length → r.name ≠ []) := by
  cases records with
  | cons r records =>
      rw [faithful_iff_first given fits stream]
      constructor
      · intro first r' same
        obtain rfl := Option.some.inj same
        exact first
      · exact fun all => all r rfl
  | nil =>
      have none : received calls = [] := List.prefix_nil.mp stream
      refine ⟨fun _ r same => absurd same.symm (Option.some_ne_none r), fun _ fresh => ?_⟩
      have stream' : received calls <+: unnamed.bytes ++ [] := none ▸ List.nil_prefix
      obtain ⟨w', run, either⟩ := run_single waiting_start (by decide : 0 < unnamed.size) rfl
        (behind_start fresh) given (fits fresh) stream' (single_idle (by decide) none)
      obtain ⟨n, returns⟩ := run.enough
      refine ⟨n, w', returns n le_rfl, ?_⟩
      rw [List.nil_append, none] at either
      have emitted : w'.emitted = [] := by
        rcases either with ⟨_, emitted⟩ | ⟨same, _⟩
        · exact emitted
        · exact absurd same (by decide)
      rw [emitted]
      exact List.Forall₂.nil

/-! ## Two records in one read -/

/-- `IN_CREATE` of a file `a`. -/
def created : Record :=
  ⟨1, 256, 0, [97, 0, 0, 0], by decide, .inr (by decide)⟩

def readOf (bytes : List UInt8) : Call := ⟨true, .bytes bytes, fun _ => true⟩

theorem readOf_given (bytes : List UInt8) : (readOf bytes).Given := ⟨rfl, fun _ => rfl⟩

/-- `reserve` gives at least 1024 bytes. -/
theorem readOf_fits {w : Watcher} {data bytes : List UInt8} (waiting : Waiting w data)
    (small : bytes.length ≤ 1024) (fresh : ℕ → Mem) : Fits fresh w [readOf bytes] := by
  refine ⟨fun fuel cells b reserved read => ?_, fun _ _ _ => trivial⟩
  obtain rfl := Read.bytes.inj read
  exact small.trans (waiting.reserve reserved).2.1

/-- A part of a record stays in the buffer. -/
theorem readOf_waiting {w : Watcher} {data bytes rest : List UInt8} {fresh : ℕ → Mem} {fuel : ℕ}
    {r : Record} {result : Watcher × Result} (waiting : Waiting w data) (short : data.length < 2 ^ 60)
    (small : bytes.length ≤ 1024) (stream : data ++ bytes <+: r.bytes ++ rest)
    (part : (data ++ bytes).length < r.size)
    (ran : w.onRead fresh fuel (readOf bytes) = some result) : Waiting result.1 (data ++ bytes) := by
  obtain ⟨cells, reserved⟩ := waiting.yields_reserve fresh short
  obtain ⟨n, enough⟩ := reserved.enough
  obtain ⟨waiting', room, -, -⟩ := waiting.reserve (enough n le_rfl)
  obtain ⟨committed, -, -, block, -, more, -⟩ :=
    waiting'.yields_read room (readOf_given bytes).2 rfl (small.trans room) stream
  obtain rfl := (yields_onRead rfl reserved (more part)).only fuel result ran
  exact committed

/-- A record comes in two reads, the first of which ends in its head. -/
theorem faithful_iff_created :
    Faithful (fun _ _ => 0) [created]
      [readOf (created.bytes.take 10), readOf (created.bytes.drop 10)] := by
  have fits : ∀ fresh, Fits fresh start
      [readOf (created.bytes.take 10), readOf (created.bytes.drop 10)] := by
    intro fresh
    refine ⟨(readOf_fits waiting_start (by decide) fresh).1, fun fuel result ran => ?_⟩
    have stream : [] ++ created.bytes.take 10 <+: created.bytes ++ [] := by decide
    have waiting : Waiting result.1 (created.bytes.take 10) :=
      readOf_waiting waiting_start (by decide) (by decide) stream (by decide) ran
    exact readOf_fits waiting (by decide) fresh
  have given : ∀ call ∈ [readOf (created.bytes.take 10), readOf (created.bytes.drop 10)],
      call.Given :=
    List.forall_mem_cons.mpr ⟨readOf_given _, List.forall_mem_singleton.mpr (readOf_given _)⟩
  refine (faithful_iff given fits (by decide)).mpr (fun r same => ?_) fun _ _ => 0
  obtain rfl := Option.some.inj same
  exact ⟨⟨by decide, by decide, by decide, by decide, trivial⟩, fun _ => by decide⟩

/-- The first of two records is emitted without end. -/
theorem created_endless :
    (∀ fresh fuel, start.run fresh fuel [readOf (created.bytes ++ created.bytes)] = none) ∧
      ¬ ∀ fresh, Faithful fresh [created, created] [readOf (created.bytes ++ created.bytes)] := by
  have endless (fresh : ℕ → Mem) (fuel : ℕ) :
      start.run fresh fuel [readOf (created.bytes ++ created.bytes)] = none := by
    apply Option.eq_none_iff_forall_ne_some.mpr
    intro w ran
    have stream : [] ++ received [readOf (created.bytes ++ created.bytes)] <+:
        created.bytes ++ created.bytes := by decide
    have total := (single_of_run waiting_start (Nat.zero_le created.size)
      (fun same => absurd same (by decide)) (List.forall_mem_singleton.mpr (readOf_given _))
      (readOf_fits waiting_start (by decide) fresh) stream ran).1
    exact absurd total (by decide)
  refine ⟨endless, fun faithful => ?_⟩
  obtain ⟨fuel, w, ran, _⟩ := faithful fun _ _ => 0
  rw [endless] at ran
  cases ran

end Cyue.Inotify
