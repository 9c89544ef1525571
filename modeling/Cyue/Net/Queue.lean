import Cyue.Lib.Row
import Cyue.Net.Chunk
import Cyue.Net.Vectored

/-!
# Chunks in a row

A buffer holds chunks of all four kinds one behind another, each with its command byte in
front.  What a chunk still has to hand over depends on its kind: bytes of the buffer, bytes of
the caller's memory, bytes of a file, or one datagram as a whole.
-/

namespace Cyue.Net

open Bytes Memory

/-! ## What is handed over -/

/-- An entry of `file::fds`. -/
structure FileArg where
  inFd : ℕ
  ofs : ℕ
  cnt : ℕ
  deriving DecidableEq, Repr

inductive Atom where
  | byte (value : UInt8)
  /-- a byte in the memory of the caller of `writev` -/
  | cell (address : ℕ)
  | inFile (inFd ofs : ℕ)
  | datagram (addr p : List UInt8)
  deriving DecidableEq, Repr

def FileArg.atoms (f : FileArg) : List Atom := (List.range' f.ofs f.cnt).map (.inFile f.inFd)

def Handed.atoms : Handed → List Atom
  | .bytes p => p.map .byte
  | .gathered parts => (addresses parts).map .cell
  | .fromFile inFd ofs n => FileArg.atoms ⟨inFd, ofs, n⟩
  | .datagram addr p => [.datagram addr p]

/-- What a send asks to be handed over; the bytes of an object are its packer's. -/
def Request.atoms : Request → List Atom
  | .raw p => p.map .byte
  | .iov vec => (addresses vec).map .cell
  | .file inFd ofs sz => FileArg.atoms ⟨inFd, ofs, sz⟩
  | .dgram p addr => [.datagram addr.image p]
  | .obj _ | .objDgram .. => []

/-! ## Chunks -/

inductive Chunk where
  | raw (p : List UInt8) (pos : ℕ)
  | iov (c : Iov)
  | file (fds : List FileArg) (pos : ℕ)
  | dgram (addr p : List UInt8) (pos : ℕ)

/-- The vectors of `iov`. -/
def IoVec.format : Format IoVec where
  size _ := 16
  At m off v := loadLe m off 8 = v.base ∧ loadLe m (off + 8) 8 = v.len
  moved same := by
    rintro ⟨base, len⟩
    refine ⟨(loadLe_shift fun i inside => same i (by omega)).trans base, ?_⟩
    refine (loadLe_shift fun i inside => ?_).trans len
    rw [Nat.add_assoc, Nat.add_assoc]
    exact same _ (by omega)

def FileArg.format : Format FileArg where
  size _ := 24
  At m off f := loadLe m off 4 = f.inFd ∧ loadLe m (off + 8) 8 = f.ofs ∧ loadLe m (off + 16) 8 = f.cnt
  moved same := by
    rintro ⟨inFd, ofs, cnt⟩
    refine ⟨(loadLe_shift fun i inside => same i (by omega)).trans inFd, ?_, ?_⟩
    · refine (loadLe_shift fun i inside => ?_).trans ofs
      rw [Nat.add_assoc, Nat.add_assoc]
      exact same _ (by omega)
    · refine (loadLe_shift fun i inside => ?_).trans cnt
      rw [Nat.add_assoc, Nat.add_assoc]
      exact same _ (by omega)

namespace Chunk

def cmd : Chunk → Wcmd
  | .raw .. => .raw
  | .iov _ => .iovec
  | .file .. => .file
  | .dgram .. => .dgram

def sz : Chunk → ℕ
  | .raw p _ | .dgram _ p _ => p.length
  | .iov c => c.sz
  | .file fds _ => fds.length

def pos : Chunk → ℕ
  | .raw _ pos | .dgram _ _ pos | .file _ pos => pos
  | .iov c => c.pos

/-- The command byte and `chunk_size()`. -/
def size (c : Chunk) : ℕ := 1 + (c.cmd.layout.header + c.cmd.layout.unit * c.sz)

/-- The elements of the writer at `off`, and the address of a datagram. -/
def Elements (m : Mem) (off : ℕ) : Chunk → Prop
  | .raw p _ => load m (off + 16) p.length = p
  | .iov c => IoVec.format.Row m (off + 16) c.vec
  | .file fds _ => FileArg.format.Row m (off + 8) fds
  | .dgram addr p _ => load m off 24 = addr ∧ load m (off + 40) p.length = p

/-- Vectors and files end within 64 bits, and a datagram has been sent as a whole or not at
all. -/
def Bounded : Chunk → Prop
  | .raw .. => True
  | .iov c => ∀ v ∈ c.vec, v.base + v.len < 2 ^ 64
  | .file fds pos => ∀ f ∈ fds.drop pos, f.ofs + f.cnt < 2 ^ 64
  | .dgram _ p pos => p ≠ [] ∧ (pos = 0 ∨ pos = p.length)

/-- The chunk lies in memory with its command byte at `off`. -/
structure Lies (c : Chunk) (m : Mem) (off : ℕ) : Prop where
  code : m off = c.cmd.code
  sz : c.cmd.layout.getSz m (off + 1) = c.sz
  pos : c.cmd.layout.getPos m (off + 1) = c.pos
  elements : c.Elements m (off + 1)

structure At (c : Chunk) (m : Mem) (off : ℕ) : Prop extends Lies c m off where
  few : c.sz < 256 ^ c.cmd.layout.width
  within : c.pos ≤ c.sz
  bounded : c.Bounded

def pending : Chunk → List Atom
  | .raw p pos => (p.drop pos).map .byte
  | .iov c => c.remaining.map .cell
  | .file fds pos => (fds.drop pos).flatMap FileArg.atoms
  | .dgram addr p pos => if pos = 0 then [.datagram addr p] else []

variable {c : Chunk} {m m' : Mem} {off off' : ℕ}

/-- The fields of the writer do not matter for the elements. -/
theorem Elements.moved (elements : c.Elements m off)
    (same : ∀ i, c.cmd.layout.header ≤ i ∨ i < c.cmd.layout.sz → i + 1 < c.size →
      m' (off' + i) = m (off + i)) : c.Elements m' off' := by
  unfold size at same
  cases c with
  | raw p pos =>
      refine (load_shift fun i inside => ?_).trans elements
      rw [Nat.add_assoc, Nat.add_assoc]
      refine same _ (.inl (Nat.le_add_right _ _)) ?_
      change 16 + i + 1 < 1 + (16 + 1 * p.length)
      omega
  | iov c =>
      refine Format.Row.moved elements fun i inside => ?_
      rw [Format.total_const (fun _ => rfl)] at inside
      rw [Nat.add_assoc, Nat.add_assoc]
      refine same _ (.inl (Nat.le_add_right _ _)) ?_
      change 16 + i + 1 < 1 + (16 + 16 * c.vec.length)
      change i < 16 * c.vec.length at inside
      omega
  | file fds pos =>
      refine Format.Row.moved elements fun i inside => ?_
      rw [Format.total_const (fun _ => rfl)] at inside
      rw [Nat.add_assoc, Nat.add_assoc]
      refine same _ (.inl (Nat.le_add_right _ _)) ?_
      change 8 + i + 1 < 1 + (8 + 24 * fds.length)
      change i < 24 * fds.length at inside
      omega
  | dgram addr p pos =>
      obtain ⟨address, payload⟩ := elements
      have inside : ∀ i, 40 ≤ i ∨ i < 24 → i + 1 < 1 + (40 + 1 * p.length) →
          m' (off' + i) = m (off + i) := same
      refine ⟨(load_shift fun i lower => inside i (.inr lower) (by omega)).trans address, ?_⟩
      refine (load_shift fun i lower => ?_).trans payload
      rw [Nat.add_assoc, Nat.add_assoc]
      exact inside _ (.inl (Nat.le_add_right _ _)) (by omega)

theorem cmd_ne_num (c : Chunk) : c.cmd ≠ .num := by
  cases c with
  | _ => exact nofun

theorem At.moved (here : c.At m off) (same : ∀ i, i < c.size → m' (off' + i) = m (off + i)) :
    c.At m' off' := by
  have header : ∀ i, i < c.cmd.layout.header → m' (off' + 1 + i) = m (off + 1 + i) := by
    intro i inside
    rw [Nat.add_assoc, Nat.add_assoc]
    refine same _ ?_
    unfold size
    omega
  have fits_sz := c.cmd.layout_sz
  have fits_pos := c.cmd.layout_pos
  exact {
    code := (same 0 (by unfold size; omega)).trans here.code
    sz := by
      refine (loadLe_shift fun i inside => ?_).trans here.sz
      rw [Nat.add_assoc _ _ i, Nat.add_assoc _ _ i]
      exact header _ (by omega)
    pos := by
      refine (loadLe_shift fun i inside => ?_).trans here.pos
      rw [Nat.add_assoc _ _ i, Nat.add_assoc _ _ i]
      exact header _ (by omega)
    elements := here.elements.moved fun i _ inside => by
      rw [Nat.add_assoc, Nat.add_assoc]
      exact same _ (by omega)
    few := here.few
    within := here.within
    bounded := here.bounded }

def format : Format Chunk := ⟨size, fun m off c => c.At m off, fun same here => here.moved same⟩

theorem pending_of_finished (here : c.At m off) (finished : c.sz ≤ c.pos) : c.pending = [] := by
  have bounded := here.bounded
  cases c with
  | raw p pos => exact congrArg (List.map Atom.byte) (List.drop_eq_nil_of_le finished)
  | iov c =>
      have none : c.write = [] := List.drop_eq_nil_of_le finished
      rw [pending, Iov.remaining, none]
      rfl
  | file fds pos => exact congrArg (List.flatMap FileArg.atoms) (List.drop_eq_nil_of_le finished)
  | dgram addr p pos =>
      have some := List.length_pos_iff.mpr bounded.1
      change p.length ≤ pos at finished
      exact if_neg (by omega)

theorem At.finish_iff (here : c.At m off) : c.cmd.layout.finish m (off + 1) ↔ c.sz ≤ c.pos := by
  rw [Layout.finish, here.sz, here.pos]

end Chunk

/-! ## What a send writes -/

/-- What the types of the arguments and the assertions on them promise: a datagram is not empty,
vectors lie in the address space.  The requests of objects are left out. -/
def Request.Formed : Request → Prop
  | .raw _ => True
  | .iov vec => ∀ v ∈ vec, v.base + v.len < 2 ^ 64
  | .file inFd ofs sz => inFd < 2 ^ 32 ∧ ofs < 2 ^ 32 ∧ sz < 2 ^ 32
  | .dgram p _ => p ≠ []
  | .obj _ | .objDgram .. => False

theorem Request.Formed.plain {r : Request} (formed : r.Formed) : r.packing? = none := by
  cases r with
  | obj packing => exact formed.elim
  | objDgram packing addr => exact formed.elim
  | _ => rfl

def Request.chunk : Request → Chunk
  | .raw p => .raw p 0
  | .iov vec => .iov (Iov.new vec)
  | .file inFd ofs sz => .file [⟨inFd, ofs, sz⟩] 0
  | .dgram p addr => .dgram addr.image p 0
  | .obj _ => .raw [] 0
  | .objDgram _ addr => .dgram addr.image [] 0

@[simp]
theorem Request.chunk_cmd (r : Request) : r.chunk.cmd = r.cmd := by
  cases r with
  | _ => rfl

@[simp]
theorem Request.chunk_sz (r : Request) : r.chunk.sz = r.count := by
  cases r with
  | _ => rfl

@[simp]
theorem Request.chunk_pos (r : Request) : r.chunk.pos = 0 := by
  cases r with
  | _ => rfl

theorem Request.chunk_bounded {r : Request} (formed : r.Formed) : r.chunk.Bounded := by
  cases r with
  | raw p => exact trivial
  | iov vec => exact formed
  | file inFd ofs sz =>
      intro f member
      obtain rfl := List.mem_singleton.mp member
      have small := formed
      unfold Formed at small
      dsimp only
      omega
  | dgram p addr => exact ⟨formed, .inl rfl⟩
  | obj packing => exact formed.elim
  | objDgram packing addr => exact formed.elim

def Chunk.append : Chunk → Request → Chunk
  | .raw p pos, .raw q => .raw (p ++ q) pos
  | .iov c, .iov vec => .iov (c.append vec)
  | .file fds pos, .file inFd ofs sz => .file (fds ++ [⟨inFd, ofs, sz⟩]) pos
  | c, _ => c

/-- A send continues a chunk of its own kind. -/
theorem Request.Formed.continues {r : Request} {c : Chunk} (formed : r.Formed) (same : c.cmd = r.cmd)
    (stream : r.isStream = true) :
    (∃ p pos q, c = .raw p pos ∧ r = .raw q) ∨ (∃ c' vec, c = .iov c' ∧ r = .iov vec) ∨
      ∃ fds pos inFd ofs sz, c = .file fds pos ∧ r = .file inFd ofs sz := by
  cases r with
  | raw q =>
      cases c with
      | raw p pos => exact .inl ⟨p, pos, q, rfl, rfl⟩
      | _ => cases same
  | iov vec =>
      cases c with
      | iov c => exact .inr (.inl ⟨c, vec, rfl, rfl⟩)
      | _ => cases same
  | file inFd ofs sz =>
      cases c with
      | file fds pos => exact .inr (.inr ⟨fds, pos, inFd, ofs, sz, rfl, rfl⟩)
      | _ => cases same
  | dgram p addr => cases stream
  | obj packing => exact formed.elim
  | objDgram packing addr => exact formed.elim

@[simp]
theorem Chunk.append_cmd (c : Chunk) (r : Request) : (c.append r).cmd = c.cmd := by
  unfold append
  split <;> rfl

@[simp]
theorem Chunk.append_pos (c : Chunk) (r : Request) : (c.append r).pos = c.pos := by
  unfold append
  split <;> rfl

section append

variable {c : Chunk} {r : Request} (formed : r.Formed) (same : c.cmd = r.cmd)
  (stream : r.isStream = true)

include formed same stream

theorem Chunk.append_sz : (c.append r).sz = c.sz + r.count := by
  obtain ⟨p, pos, q, rfl, rfl⟩ | ⟨c, vec, rfl, rfl⟩ | ⟨fds, pos, inFd, ofs, sz, rfl, rfl⟩ :=
    formed.continues same stream
  · exact List.length_append
  · exact List.length_append
  · exact List.length_append

theorem Chunk.append_bounded (bounded : c.Bounded) : (c.append r).Bounded := by
  obtain ⟨p, pos, q, rfl, rfl⟩ | ⟨c, vec, rfl, rfl⟩ | ⟨fds, pos, inFd, ofs, sz, rfl, rfl⟩ :=
    formed.continues same stream
  · exact trivial
  · intro v member
    rcases List.mem_append.mp member with old | new
    · exact bounded v old
    · exact formed v new
  · intro f member
    rw [List.drop_append] at member
    rcases List.mem_append.mp member with old | new
    · exact bounded f old
    · obtain rfl := List.mem_singleton.mp (List.mem_of_mem_drop new)
      obtain ⟨-, ofs_small, sz_small⟩ := formed
      dsimp only
      omega

/-- What is to be handed over grows by what the send asks for. -/
theorem Chunk.append_pending (within : c.pos ≤ c.sz) :
    (c.append r).pending = c.pending ++ r.atoms := by
  obtain ⟨p, pos, q, rfl, rfl⟩ | ⟨c, vec, rfl, rfl⟩ | ⟨fds, pos, inFd, ofs, sz, rfl, rfl⟩ :=
    formed.continues same stream
  · change pos ≤ p.length at within
    change ((p ++ q).drop pos).map _ = _
    rw [List.drop_append_of_le_length within, List.map_append]
    rfl
  · change c.pos ≤ c.vec.length at within
    change (addresses ((c.vec ++ vec).drop c.pos)).map _ = _
    rw [List.drop_append_of_le_length within, addresses, List.flatMap_append, List.map_append]
    rfl
  · change pos ≤ fds.length at within
    change ((fds ++ [_]).drop pos).flatMap _ = _
    rw [List.drop_append_of_le_length within, List.flatMap_append, List.flatMap_singleton]
    rfl

end append

section images

variable {m : Mem} {off : ℕ}

theorem loadLe_of_load {width n : ℕ} (bytes : load m off width = leBytes width n)
    (fits : n < 256 ^ width) : loadLe m off width = n := by
  rw [loadLe, bytes, leNat_leBytes fits]

theorem IoVec.row_of_image {vec : List IoVec} (bounded : ∀ v ∈ vec, v.base + v.len < 2 ^ 64)
    (image : load m off (Request.iov vec).image.length = (Request.iov vec).image) :
    IoVec.format.Row m off vec := by
  have length : (Request.iov vec).image.length = IoVec.format.total vec :=
    (Request.image_length rfl).trans (Format.total_const (fun _ => rfl) vec).symm
  rw [length] at image
  refine Format.row_of_load (fun v => ?_) (fun off v member bytes => ?_) image
  · rw [List.length_append, leBytes_length, leBytes_length]
    rfl
  · have small := bounded v member
    obtain ⟨base, len⟩ := List.append_inj ((load_add m off 8 8).symm.trans bytes)
      (by rw [load_length, leBytes_length])
    exact ⟨loadLe_of_load base (by omega), loadLe_of_load len (by omega)⟩

theorem FileArg.row_of_image {inFd ofs sz : ℕ} (formed : (Request.file inFd ofs sz).Formed)
    (image : load m off 24 = (Request.file inFd ofs sz).image) :
    FileArg.format.Row m off [⟨inFd, ofs, sz⟩] := by
  obtain ⟨small, ofs_small, sz_small⟩ := formed
  obtain ⟨first, second⟩ := List.append_inj ((load_add m off 8 16).symm.trans image)
    (by rw [load_length, List.length_append, leBytes_length, leBytes_length])
  obtain ⟨descriptor, -⟩ := List.append_inj ((load_add m off 4 4).symm.trans first)
    (by rw [load_length, leBytes_length])
  obtain ⟨offset, count⟩ := List.append_inj ((load_add m (off + 8) 8 8).symm.trans second)
    (by rw [load_length, leBytes_length])
  have ofs_fits : ofs < 256 ^ 8 := by omega
  have sz_fits : sz < 256 ^ 8 := by omega
  exact ⟨⟨loadLe_of_load descriptor (by omega), loadLe_of_load offset ofs_fits,
    loadLe_of_load count sz_fits⟩, trivial⟩

/-- The elements of a chunk are those of its request. -/
theorem Request.chunk_elements {r : Request} (formed : r.Formed)
    (image : load m (off + r.cmd.layout.header) r.image.length = r.image)
    (address : ∀ addr, r.address? = some addr → load m off 24 = addr.image) :
    r.chunk.Elements m off := by
  cases r with
  | raw p => exact image
  | iov vec => exact IoVec.row_of_image formed image
  | file inFd ofs sz => exact FileArg.row_of_image formed image
  | dgram p addr => exact ⟨address addr rfl, image⟩
  | obj packing => exact formed.elim
  | objDgram packing addr => exact formed.elim

theorem Chunk.append_elements {c : Chunk} {r : Request} (formed : r.Formed)
    (elements : c.Elements m off) (same : c.cmd = r.cmd) (stream : r.isStream = true)
    (image : load m (off + c.cmd.layout.header + c.cmd.layout.unit * c.sz) r.image.length = r.image) :
    (c.append r).Elements m off := by
  obtain ⟨p, pos, q, rfl, rfl⟩ | ⟨c, vec, rfl, rfl⟩ | ⟨fds, pos, inFd, ofs, sz, rfl, rfl⟩ :=
    formed.continues same stream
  · have behind : load m (off + 16 + p.length) q.length = q := by
      have moved := image
      change load m (off + 16 + 1 * p.length) q.length = q at moved
      rwa [Nat.one_mul] at moved
    change load m (off + 16) (p ++ q).length = p ++ q
    rw [List.length_append, load_add, behind]
    exact congrArg (· ++ q) elements
  · refine Format.row_append.mpr ⟨elements, ?_⟩
    rw [Format.total_const (fun _ => rfl)]
    exact IoVec.row_of_image formed image
  · refine Format.row_append.mpr ⟨elements, ?_⟩
    rw [Format.total_const (fun _ => rfl)]
    exact FileArg.row_of_image formed image

end images

namespace Wbuf

variable {heap : Heap} {w w' : Wbuf} {r : Request} {p : Ptr} {off : ℕ}

/-! ## The writers in memory -/

theorem setAddr_mem (here : p.block = w.next.block)
    (room : p.off + r.cmd.layout.header ≤ w.next.limit) :
    w.setAddr p r.address? = w.stored p.off ((r.address?.map Address.image).getD []) := by
  cases equal : r.address? with
  | none =>
      rw [setAddr, stored, Option.map_none, Option.getD_none, store_nil]
  | some addr =>
      have fits := Request.address_header equal
      exact put_inside here (by omega)

/-- The bytes behind a plain writer of a new chunk. -/
theorem writePlain_new_mem (here : p.block = w.next.block)
    (room : p.off + r.cmd.layout.header + r.image.length ≤ w.next.limit) :
    (w.writePlain r p false).1.next.mem =
      store (store (storeLe (storeLe w.next.mem (p.off + r.cmd.layout.pos) r.cmd.layout.width 0)
          (p.off + r.cmd.layout.sz) r.cmd.layout.width r.count) p.off
          ((r.address?.map Address.image).getD []))
        (p.off + r.cmd.layout.header) r.image := by
  have fits_sz := r.cmd.layout_sz
  have fits_pos := r.cmd.layout_pos
  have sent : w.setPos r.cmd.layout p 0 =
      w.stored (p.off + r.cmd.layout.pos) (leBytes r.cmd.layout.width 0) :=
    put_inside here (by rw [leBytes_length]; dsimp only; omega)
  let w₁ := w.stored (p.off + r.cmd.layout.pos) (leBytes r.cmd.layout.width 0)
  have size : w₁.setSz r.cmd.layout p r.count =
      w₁.stored (p.off + r.cmd.layout.sz) (leBytes r.cmd.layout.width r.count) :=
    put_inside here (by rw [leBytes_length]; change _ ≤ w.next.limit; dsimp only; omega)
  let w₂ := w₁.stored (p.off + r.cmd.layout.sz) (leBytes r.cmd.layout.width r.count)
  have address : w₂.setAddr p r.address? =
      w₂.stored p.off ((r.address?.map Address.image).getD []) :=
    setAddr_mem here (by change _ ≤ w.next.limit; omega)
  have image : (w₂.stored p.off ((r.address?.map Address.image).getD [])).put
      ⟨p.block, p.off + r.cmd.layout.header⟩ r.image = _ := put_inside here room
  unfold writePlain
  rw [if_neg Bool.false_ne_true]
  dsimp only
  rw [sent, size, address, image]
  rfl

theorem address_front {r : Request} :
    ((r.address?.map Address.image).getD []).length ≤ r.cmd.layout.sz := by
  cases r with
  | dgram p addr => exact Nat.le_of_eq addr.size
  | objDgram packing addr => exact Nat.le_of_eq addr.size
  | _ => exact Nat.zero_le _

/-- A plain writer leaves its chunk behind the command byte. -/
theorem writePlain_new_at (formed : r.Formed) (few : r.count < 256 ^ r.cmd.layout.width)
    (code : w.next.mem off = r.cmd.code) (here : p = ⟨w.next.block, off + 1⟩)
    (room : off + 1 + r.cmd.layout.header + r.image.length ≤ w.next.limit) :
    r.chunk.At (w.writePlain r p false).1.next.mem off := by
  have fits_sz := r.cmd.layout_sz
  have fits_pos := r.cmd.layout_pos
  have apart := r.cmd.layout_apart
  have front := address_front (r := r)
  subst here
  rw [writePlain_new_mem rfl room]
  dsimp only
  generalize address_eq : (r.address?.map Address.image).getD [] = address at front ⊢
  exact {
    code := by
      rw [store_of_lt (by omega), store_of_lt (by omega), storeLe, store_of_lt (by omega), storeLe,
        store_of_lt (by omega), code, r.chunk_cmd]
    sz := by
      rw [r.chunk_cmd, r.chunk_sz, Layout.getSz, loadLe, load_store_of_disjoint (.inl (by omega)),
        load_store_of_disjoint (.inr (by omega))]
      exact loadLe_storeLe few
    pos := by
      rw [r.chunk_cmd, r.chunk_pos, Layout.getPos, loadLe, load_store_of_disjoint (.inl (by omega)),
        load_store_of_disjoint (.inr (by omega)), storeLe,
        load_store_of_disjoint (.inr (by rw [leBytes_length]; omega))]
      exact loadLe_storeLe (Nat.pow_pos (by decide))
    elements := by
      refine Request.chunk_elements formed (load_store _ _ _) fun addr some => ?_
      have same : address = addr.image := by rw [← address_eq, some]; rfl
      have length := addr.size
      have header := Request.address_header some
      rw [load_store_of_disjoint (.inl (by omega)), same, ← addr.size]
      exact load_store _ _ _
    few := by rwa [r.chunk_cmd, r.chunk_sz]
    within := by rw [r.chunk_pos]; exact Nat.zero_le _
    bounded := Request.chunk_bounded formed }

/-- The chunk behind a plain writer that appends. -/
theorem writePlain_append_at {c : Chunk} (formed : r.Formed) (stream : r.isStream = true)
    (at' : c.At w.next.mem off) (same : c.cmd = r.cmd)
    (few : c.sz + r.count < 256 ^ r.cmd.layout.width) (here : p = ⟨w.next.block, off + 1⟩)
    (ends : off + c.size ≤ w.next.len) (room : w.next.len + r.image.length ≤ w.next.limit) :
    (c.append r).At (w.writePlain r p true).1.next.mem off := by
  have fits_sz := r.cmd.layout_sz
  have fits_pos := r.cmd.layout_pos
  have apart := r.cmd.layout_apart
  have sz : r.cmd.layout.getSz w.next.mem (off + 1) = c.sz := same ▸ at'.sz
  have pos : r.cmd.layout.getPos w.next.mem (off + 1) = c.pos := same ▸ at'.pos
  have size : c.size = 1 + (r.cmd.layout.header + r.cmd.layout.unit * c.sz) := by
    rw [← same]
    rfl
  have behind : r.cmd.layout.chunkSize w.next.mem (off + 1) =
      r.cmd.layout.header + r.cmd.layout.unit * c.sz := by rw [Layout.chunkSize, sz]
  subst here
  rw [writePlain_append_mem ⟨rfl, by dsimp only; rw [behind]; omega⟩ room]
  dsimp only
  rw [behind, sz]
  exact {
    code := by
      rw [storeLe, store_of_lt (by omega), store_of_lt (by omega), c.append_cmd]
      exact at'.code
    sz := by
      rw [c.append_cmd, same, Chunk.append_sz formed same stream]
      exact loadLe_storeLe few
    pos := by
      rw [c.append_cmd, same, c.append_pos, ← pos, Layout.getPos, loadLe, storeLe,
        load_store_of_disjoint (.inr (by rw [leBytes_length]; omega)),
        load_store_of_disjoint (.inl (by omega))]
      rfl
    elements := by
      refine Chunk.append_elements formed ?_ same stream ?_
      · refine at'.elements.moved fun i outside inside => ?_
        rw [same] at outside
        rw [storeLe, store_apart (by rw [leBytes_length]; omega), store_of_lt (by omega)]
      · rw [same, storeLe, load_store_of_disjoint (.inr (by rw [leBytes_length]; omega)),
          Nat.add_assoc (off + 1)]
        exact load_store _ _ _
    few := by rwa [c.append_cmd, same, Chunk.append_sz formed same stream]
    within := by
      rw [c.append_pos, Chunk.append_sz formed same stream]
      exact Nat.le_add_right_of_le at'.within
    bounded := Chunk.append_bounded formed same stream at'.bounded }

end Wbuf

/-! ## What a buffer holds -/

theorem Wcmd.code_inj {k k' : Wcmd} (same : k.code = k'.code) : k = k' := by
  cases k with
  | _ =>
      cases k' with
      | _ => first | rfl | cases same

/-- The bytes in use are these chunks, one behind another. -/
structure Buf.Holds (b : Buf) (cs : List Chunk) : Prop where
  within : b.Within
  row : Chunk.format.Row b.mem 0 cs
  len : b.len = Chunk.format.total cs

def Wbuf.Tail (w : Wbuf) (cs : List Chunk) : Prop :=
  ∃ front c, cs = front ++ [c] ∧
    w.lastWriter = ⟨w.next.block, Chunk.format.total front + 1⟩

/-- What waits in the `next` buffer. -/
structure Wbuf.Queues (w : Wbuf) (cs : List Chunk) : Prop where
  holds : w.next.Holds cs
  tail : w.lastWcmd ≠ .num → w.Tail cs

def Chunk.pendings (cs : List Chunk) : List Atom := cs.flatMap pending

/-- A chunk at the end of what the buffer holds. -/
theorem Buf.Holds.last {b : Buf} {front : List Chunk} {c : Chunk} (holds : b.Holds (front ++ [c])) :
    Chunk.format.Row b.mem 0 front ∧ c.At b.mem (Chunk.format.total front) ∧
      b.len = Chunk.format.total front + c.size := by
  obtain ⟨before, last, -⟩ := Format.row_append.mp holds.row
  rw [Nat.zero_add] at last
  refine ⟨before, last, holds.len.trans ?_⟩
  rw [Format.total_append, Format.total_cons, Format.total_nil]
  rfl

theorem Buf.Holds.of_last {b : Buf} {front : List Chunk} {c : Chunk} (within : b.Within)
    (before : Chunk.format.Row b.mem 0 front) (last : c.At b.mem (Chunk.format.total front))
    (len : b.len = Chunk.format.total front + c.size) : b.Holds (front ++ [c]) where
  within := within
  row := Format.row_append.mpr ⟨before, by rw [Nat.zero_add]; exact ⟨last, trivial⟩⟩
  len := by
    rw [len, Format.total_append, Format.total_cons, Format.total_nil]
    rfl

namespace Wbuf

variable {heap : Heap} {w w' : Wbuf} {r : Request} {cs : List Chunk} {attached : Bool}

/-! ## Sends -/

/-- The send is taken on: its arguments are in order, the reserve leaves room for the command
byte too, the poller takes the buffer on, and the result is no negative `int`.  A send that
appends finds the last writer to be of its own kind, with a size that can be counted on. -/
structure Takes (heap : Heap) (w : Wbuf) (r : Request) (attached : Bool) : Prop where
  formed : r.Formed
  room : w.reserve heap (r.requiredSize (w.appends r)) ≠ none →
    r.Suits (w.appends r) (w.next.roomFor (r.requiredSize (w.appends r)))
  attaches : w.attached = true ∨ attached = true
  int : 0 ≤ intOfSize (r.requiredSize (w.appends r) : ℕ)
  own : w.appends r = true → w.next.mem (w.lastWriter.off - 1) = r.cmd.code
  few : w.appends r = true →
    r.cmd.layout.getSz w.next.mem w.lastWriter.off + r.count < 256 ^ r.cmd.layout.width

/-- A new chunk goes behind the others. -/
theorem writePlain_new_holds (org : ℕ) (holds : w.next.Holds cs) (formed : r.Formed)
    (room : r.requiredSize false < w.next.limit - w.next.len) :
    let placed := w.placeWriter org r false
    let out := (placed.writePlain r placed.lastWriter false).1
    out.next.Holds (cs ++ [r.chunk]) ∧ out.Tail (cs ++ [r.chunk]) := by
  obtain ⟨within, row, len⟩ := holds
  have plain := formed.plain
  have small := within.small
  have image := Request.image_length plain
  rw [Request.requiredSize_plain plain, if_neg Bool.false_ne_true] at room
  have pushed := push_grows (w := w) w.next.len r.cmd.code (by omega) (Nat.le_refl _)
  have code : (w.push r.cmd.code).next.mem w.next.len = r.cmd.code := by
    have stored : w.put w.lastP [r.cmd.code] = _ := put_inside rfl (by
      change w.next.len + 1 ≤ w.next.limit
      omega)
    unfold push
    rw [stored]
    exact store_get w.next.mem w.next.len (i := 0) (Nat.zero_lt_one)
  generalize placed_eq : w.placeWriter org r false = placed
  have next : placed.next = (w.push r.cmd.code).next := by
    rw [← placed_eq, placeWriter, if_neg Bool.false_ne_true]
  have writer : placed.lastWriter = ⟨placed.next.block, w.next.len + 1⟩ := by
    rw [next, ← pushed.len, ← placed_eq, placeWriter, if_neg Bool.false_ne_true]
    rfl
  rw [← next] at code
  have limit : placed.next.limit = w.next.limit := next ▸ pushed.limit
  have fits : w.next.len + 1 + r.cmd.layout.header + r.image.length ≤ placed.next.limit := by omega
  have behind : placed.lastWriter.off = placed.next.len := by
    rw [writer, next, pushed.len]
  have last := writePlain_new_at formed (Request.count_lt plain (by omega)) code writer fits
  obtain ⟨n, grows, bound⟩ := writePlain_new (w := placed) (p := placed.lastWriter) (r := r)
    (by rw [writer]) behind (by rw [writer]; exact fits)
  have adds := (writePlain_adds placed r placed.lastWriter false).len
  rw [if_neg Bool.false_ne_true, next, pushed.len, image] at adds
  have size : r.chunk.size = 1 + (r.cmd.layout.header + r.cmd.layout.unit * r.count) := by
    rw [Chunk.size, r.chunk_cmd, r.chunk_sz]
  rw [len] at last
  refine ⟨.of_last ?_ ?_ last ?_, cs, r.chunk, rfl, ?_⟩
  · refine grows.within ?_ bound
    exact next ▸ pushed.within within (by omega)
  · refine row.kept fun i _ inside => ?_
    rw [Nat.zero_add, ← len] at inside
    rw [grows.kept i (by rw [writer]; dsimp only; omega), next]
    exact pushed.kept i inside
  · rw [adds, size, len]
    omega
  · rw [grows.lastWriter, grows.block, writer, len]

/-- The last chunk grows. -/
theorem writePlain_append_holds {front : List Chunk} {c : Chunk} (holds : w.next.Holds (front ++ [c]))
    (writer : w.lastWriter = ⟨w.next.block, Chunk.format.total front + 1⟩) (formed : r.Formed)
    (stream : r.isStream = true) (same : c.cmd = r.cmd)
    (few : c.sz + r.count < 256 ^ r.cmd.layout.width)
    (room : r.requiredSize true ≤ w.next.limit - w.next.len) :
    let out := (w.writePlain r w.lastWriter true).1
    out.next.Holds (front ++ [c.append r]) ∧ out.Tail (front ++ [c.append r]) := by
  have within := holds.within
  have limit := within.len
  obtain ⟨before, last, len⟩ := holds.last
  have plain := formed.plain
  have image := Request.image_length plain
  rw [Request.requiredSize_plain plain, if_pos rfl, Nat.add_zero] at room
  have grown := writePlain_append_at formed stream last same few writer (by omega) (by omega)
  have ends : w.Ends r.cmd w.lastWriter := by
    rw [writer]
    refine ⟨rfl, ?_⟩
    rw [Layout.chunkSize, ← same, last.sz, len]
    unfold Chunk.size
    dsimp only
    omega
  obtain ⟨n, grows, bound⟩ := writePlain_append (r := r) ends (by omega)
  have adds := (writePlain_adds w r w.lastWriter true).len
  rw [if_pos rfl, Nat.zero_add, image, len] at adds
  have size : (c.append r).size = c.size + r.cmd.layout.unit * r.count := by
    rw [Chunk.size, Chunk.append_cmd, Chunk.append_sz formed same stream, Chunk.size, same,
      Nat.mul_add]
    omega
  refine ⟨.of_last (grows.within within bound) ?_ grown ?_, front, c.append r, rfl, ?_⟩
  · refine before.kept fun i _ inside => grows.kept i ?_
    rw [writer]
    dsimp only
    omega
  · rw [adds, size]
    omega
  · rw [grows.lastWriter, grows.block, writer]

theorem pendings_snoc (cs : List Chunk) (c : Chunk) :
    Chunk.pendings (cs ++ [c]) = Chunk.pendings cs ++ c.pending := by
  rw [Chunk.pendings, List.flatMap_append, List.flatMap_singleton]
  rfl

theorem Request.chunk_pending {r : Request} (formed : r.Formed) : r.chunk.pending = r.atoms := by
  cases r with
  | file inFd ofs sz => exact List.append_nil _
  | obj packing => exact formed.elim
  | objDgram packing addr => exact formed.elim
  | _ => rfl

/-- The chunks go where the reserve puts the bytes in use. -/
theorem holds_reserved {b b' : Buf} {fresh sz : ℕ} (holds : b.Holds cs)
    (reserved : Buf.Reserved fresh b b' sz) : b'.Holds cs where
  within := reserved.within
  row := holds.row.kept fun i _ inside => reserved.kept i (by
    rw [holds.len]
    omega)
  len := reserved.len.trans holds.len

/-- What the writer of a send leaves in the buffer. -/
theorem written_queues (queues : w.Queues cs) (takes : w.Takes heap r attached)
    (done : w.reserve heap (r.requiredSize (w.appends r)) = some w') :
    let placed := w'.placeWriter w.next.block r (w.appends r)
    let out := (placed.writePlain r placed.lastWriter (w.appends r)).1
    ∃ cs', out.next.Holds cs' ∧ out.Tail cs' ∧ Chunk.pendings cs' = Chunk.pendings cs ++ r.atoms := by
  have plain := takes.formed.plain
  obtain ⟨kept, reserved⟩ := reserve_some done queues.holds.within
  have holds := holds_reserved queues.holds reserved
  cases appends : w.appends r with
  | false =>
      have suits := takes.room (by rw [done]; exact Option.some_ne_none _)
      rw [appends] at suits
      unfold Request.Suits at suits
      rw [plain] at suits
      have room := suits.resolve_left Bool.false_ne_true
      rw [appends] at reserved
      rw [← reserved.room] at room
      obtain ⟨grown, tail⟩ := writePlain_new_holds w.next.block holds takes.formed room
      refine ⟨_, grown, tail, ?_⟩
      rw [pendings_snoc, Request.chunk_pending takes.formed]
  | true =>
      obtain ⟨stream, last⟩ := Bool.and_eq_true_iff.mp appends
      have some : w.lastWcmd ≠ .num := of_decide_eq_true last ▸ Request.cmd_ne_num r
      obtain ⟨front, c, rfl, writer⟩ := queues.tail some
      obtain ⟨-, here, -⟩ := queues.holds.last
      have same : c.cmd = r.cmd := by
        have own := takes.own appends
        rw [writer] at own
        exact Wcmd.code_inj (here.code.symm.trans own)
      have few := takes.few appends
      rw [writer, ← same, here.sz] at few
      have enough := Buf.roomFor_enough queues.holds.within (r.requiredSize (w.appends r))
      rw [← reserved.room, appends] at enough
      rw [placeWriter_append kept (by rw [writer]), writer]
      obtain ⟨grown, tail⟩ := writePlain_append_holds
        (w := { w' with lastWriter := ⟨w'.next.block, Chunk.format.total front + 1⟩ }) holds rfl
        takes.formed stream same (same ▸ few) enough
      refine ⟨_, grown, tail, ?_⟩
      rw [pendings_snoc, pendings_snoc, Chunk.append_pending takes.formed same stream here.within,
        List.append_assoc]

theorem sendraw_plain {out : Wbuf × ℤ} (plain : r.packing? = none) (attached : Bool)
    (done : w.reserve heap (r.requiredSize (w.appends r)) = some w')
    (written : (w'.placeWriter w.next.block r (w.appends r)).writePlain r
      (w'.placeWriter w.next.block r (w.appends r)).lastWriter (w.appends r) = out) :
    w.sendraw heap r attached =
      (if r.isStream then { out.1 with lastWcmd := r.cmd } else out.1).attach attached out.2 := by
  rw [sendraw_reserved attached done]
  dsimp only
  unfold writeChunk
  rw [plain]
  dsimp only
  rw [written]

/-- A send adds what it asks for to what waits, or it fails and adds nothing. -/
theorem sendraw_queues (queues : w.Queues cs) (takes : w.Takes heap r attached) :
    (w.sendraw heap r attached).1.curr = w.curr ∧
      ∃ cs', (w.sendraw heap r attached).1.Queues cs' ∧ Chunk.pendings cs' =
        Chunk.pendings cs ++ if 0 ≤ (w.sendraw heap r attached).2 then r.atoms else [] := by
  cases done : w.reserve heap (r.requiredSize (w.appends r)) with
  | none =>
      have failed : w.sendraw heap r attached = ({ w with blocks := w.blocks + 1 }, -1) := by
        unfold sendraw
        simp only [done]
      rw [failed]
      exact ⟨rfl, cs, ⟨queues.holds, queues.tail⟩, (List.append_nil _).symm⟩
  | some w' =>
      have plain := takes.formed.plain
      obtain ⟨cs', holds, tail, pendings⟩ := written_queues queues takes done
      have curr := (sendraw_moves heap w r attached).curr
      generalize out_eq : writePlain _ r _ _ = out at holds tail
      rw [sendraw_plain plain attached done out_eq] at curr ⊢
      have result : out.2 = intOfSize (r.requiredSize (w.appends r) : ℕ) := by
        rw [← out_eq]
        exact writePlain_size plain _ _ _
      have flag : out.1.attached = w.attached := by
        rw [← out_eq, (writePlain_adds _ _ _ _).attached, placeWriter_attached,
          (reserve_some done queues.holds.within).1]
      have after : ∀ w₁ : Wbuf, w₁.next = out.1.next → w₁.lastWriter = out.1.lastWriter →
          ∃ cs', w₁.Queues cs' ∧ Chunk.pendings cs' =
            Chunk.pendings cs ++ if 0 ≤ out.2 then r.atoms else [] := by
        intro w₁ next writer
        obtain ⟨front, c, rfl, here⟩ := tail
        refine ⟨_, ⟨next ▸ holds, fun _ => ⟨front, c, rfl, ?_⟩⟩, ?_⟩
        · rw [writer, here, next]
        · rw [result, if_pos takes.int]
          exact pendings
      cases stream : r.isStream with
      | true =>
          rw [stream, if_pos rfl] at curr
          obtain ⟨flag', same⟩ := attach_done { out.1 with lastWcmd := r.cmd } out.2
            (by rw [flag]; exact takes.attaches)
          rw [if_pos rfl]
          rw [same] at curr ⊢
          exact ⟨curr, after _ rfl rfl⟩
      | false =>
          rw [stream, if_neg Bool.false_ne_true] at curr
          obtain ⟨flag', same⟩ := attach_done out.1 out.2 (by rw [flag]; exact takes.attaches)
          rw [if_neg Bool.false_ne_true]
          rw [same] at curr ⊢
          exact ⟨curr, after _ rfl rfl⟩

end Wbuf

end Cyue.Net
