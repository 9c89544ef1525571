import Cyue.Net.Room

/-!
# The writers within their room

A writer that has its header inside of the block and room for its elements
behind it grows the buffer and stays within it.  A packer has to find room for
all that it asks for, since the writer does not follow it into a new block.
-/

namespace Cyue.Net

open Bytes Memory

/-! ## Packers -/

def PackOp.fits (room : ℕ) : PackOp → Prop
  | .push _ => True
  | .expandBuffer sz => sz ≤ room
  | .fill bytes => bytes.length ≤ room

def PackOp.used (room : ℕ) : PackOp → ℕ
  | .push bytes => if bytes.length < room then bytes.length else 0
  | .expandBuffer _ => 0
  | .fill bytes => bytes.length

theorem PackOp.used_le {room : ℕ} {op : PackOp} (fits : op.fits room) : op.used room ≤ room := by
  cases op with
  | push bytes =>
      rw [used]
      split
      case isTrue room => exact Nat.le_of_lt room
      case isFalse => exact Nat.zero_le _
  | expandBuffer sz => exact Nat.zero_le _
  | fill bytes => exact fits

def PackOp.Fits : ℕ → List PackOp → Prop
  | _, [] => True
  | room, op :: ops => op.fits room ∧ Fits (room - op.used room) ops

/-! ## Layouts -/

theorem Wcmd.layout_sz (k : Wcmd) : k.layout.sz + k.layout.width ≤ k.layout.header := by
  cases k <;> decide

theorem Wcmd.layout_pos (k : Wcmd) : k.layout.pos + k.layout.width ≤ k.layout.header := by
  cases k <;> decide

theorem Wcmd.layout_header {k : Wcmd} (chunk : k ≠ .num) : 0 < k.layout.header := by
  cases k with
  | num => exact absurd rfl chunk
  | _ => decide

/-- The size field holds every positive `int`. -/
theorem Wcmd.layout_wide {k : Wcmd} (chunk : k ≠ .num) : 2147483648 ≤ 256 ^ k.layout.width := by
  cases k with
  | num => exact absurd rfl chunk
  | _ => decide

theorem Request.address_header {r : Request} {addr : Address} (some : r.address? = some addr) :
    addr.image.length ≤ r.cmd.layout.header := by
  rw [addr.size]
  cases r with
  | dgram p addr => exact (by decide : 24 ≤ Wcmd.dgram.layout.header)
  | objDgram packing addr => exact (by decide : 24 ≤ Wcmd.dgram.layout.header)
  | raw p => cases some
  | iov vec => cases some
  | file inFd ofs sz => cases some
  | obj packing => cases some

theorem Request.image_length {r : Request} (plain : r.packing? = none) :
    r.image.length = r.cmd.layout.unit * r.count := by
  cases r with
  | raw p => exact (Nat.one_mul _).symm
  | dgram p addr => exact (Nat.one_mul _).symm
  | file inFd ofs sz => rfl
  | iov vec =>
      change (vec.flatMap _).length = 16 * vec.length
      induction vec with
      | nil => rfl
      | cons v vec ih =>
          rw [List.flatMap_cons, List.length_append, ih plain, List.length_append, leBytes_length,
            leBytes_length, List.length_cons]
          omega
  | obj packing => cases plain
  | objDgram packing addr => cases plain

theorem Request.requiredSize_plain {r : Request} (plain : r.packing? = none) (append : Bool) :
    r.requiredSize append = r.image.length + if append then 0 else r.cmd.layout.header := by
  rw [image_length plain]
  cases r with
  | raw p => exact congrArg (· + _) (Nat.one_mul _).symm
  | dgram p addr => exact congrArg (· + _) (Nat.one_mul _).symm
  | file inFd ofs sz => rfl
  | iov vec => exact congrArg (· + _) (Nat.mul_comm _ _)
  | obj packing => cases plain
  | objDgram packing addr => cases plain

/-- A packer asks for more than the header that goes in front. -/
theorem Request.header_lt {r : Request} {packing : Packing} (packs : r.packing? = some packing) :
    r.cmd.layout.header < r.requiredSize false := by
  have less : Wcmd.raw.layout.header < initialBuffSize ∧
      Wcmd.dgram.layout.header < initialBuffSize := by decide
  cases r with
  | obj packing => exact less.1
  | objDgram packing addr => exact less.2
  | _ => cases packs

namespace Wbuf

variable {heap : Heap} {w : Wbuf} {p : Ptr} {low n : ℕ}

/-! ## Packing -/

theorem reserve_room (heap : Heap) (within : w.next.Within) {sz : ℕ} (room : sz ≤ w.next.limit - w.next.len) :
    w.reserve heap sz = some { w with blocks := w.blocks + 1 } := by
  rw [← within.available] at room
  rw [reserve, Buf.reserve, if_pos room]
  rfl

theorem packOp_grows (heap : Heap) (within : w.next.Within) (behind : low ≤ w.next.len) {op : PackOp}
    (fits : op.fits (w.next.limit - w.next.len)) :
    Grows low (op.used (w.next.limit - w.next.len)) w (packOp heap w op) := by
  cases op with
  | push bytes =>
      rw [packOp, PackOp.used, within.available]
      split
      case isTrue room => exact append_grows low (by omega) behind
      case isFalse => exact Grows.refl low w
  | expandBuffer sz =>
      rw [packOp, PackOp.used, reserve_room heap within fits, Option.getD_some]
      exact { Grows.refl low w with }
  | fill bytes =>
      have room : w.next.len + bytes.length ≤ w.next.limit := by
        have le : bytes.length ≤ w.next.limit - w.next.len := fits
        have := within.len
        omega
      rw [packOp, PackOp.used, reserve_room heap within fits]
      have grows : Grows low bytes.length _ (append { w with blocks := w.blocks + 1 } bytes) :=
        append_grows low room behind
      exact { grows with }

/-- The buffer after growing within its block. -/
theorem Grows.within {w' : Wbuf} (grows : Grows low n w w') (within : w.next.Within)
    (room : w.next.len + n ≤ w.next.limit) : w'.next.Within where
  ofs := grows.ofs.trans within.ofs
  len := by rw [grows.len, grows.limit]; exact room
  pos := grows.limit ▸ within.pos
  small := grows.limit ▸ within.small

theorem packOps_grows (heap : Heap) {ops : List PackOp} (within : w.next.Within) (behind : low ≤ w.next.len)
    (fits : PackOp.Fits (w.next.limit - w.next.len) ops) :
    ∃ n, Grows low n w (ops.foldl (packOp heap) w) ∧ w.next.len + n ≤ w.next.limit := by
  induction ops generalizing w with
  | nil => exact ⟨0, Grows.refl low w, within.len⟩
  | cons op ops ih =>
      obtain ⟨here, rest⟩ := fits
      have used := PackOp.used_le here
      have len := within.len
      have grows := packOp_grows heap within behind here
      have room : w.next.limit - w.next.len - op.used (w.next.limit - w.next.len) =
          (packOp heap w op).next.limit - (packOp heap w op).next.len := by
        rw [grows.limit, grows.len, Nat.sub_sub]
      rw [room] at rest
      have behind' : low ≤ (packOp heap w op).next.len := by rw [grows.len]; omega
      obtain ⟨n, more, bound⟩ := ih (grows.within within (by omega)) behind' rest
      rw [grows.len, grows.limit] at bound
      exact ⟨_, grows.trans more, by omega⟩

/-- A packer that fits grows the buffer by what it says. -/
theorem pack_grows (heap : Heap) (low : ℕ) {packing : Packing} (within : w.next.Within) (behind : low ≤ w.next.len)
    (fits : PackOp.Fits (w.next.limit - w.next.len) packing.ops) :
    ∃ n, Grows low n w (w.pack heap packing).1 ∧ w.next.len + n ≤ w.next.limit ∧
      (w.pack heap packing).2 = if packing.ok then intOfSize n else -21 := by
  obtain ⟨n, grows, bound⟩ := packOps_grows heap within behind fits
  refine ⟨n, grows, bound, ?_⟩
  unfold pack
  dsimp only
  rw [grows.len, Nat.add_sub_cancel_left]

/-! ## Fields of the writer -/

section fields

variable {k : Wcmd} (here : p.block = w.next.block)
  (inside : p.off + k.layout.header ≤ w.next.limit) (behind : low ≤ p.off)

include here inside behind

theorem setSz_grows : Grows low 0 w (w.setSz k.layout p n) := by
  have fits := k.layout_sz
  refine put_grows low _ _ here ?_ (Nat.le_add_right_of_le behind)
  rw [leBytes_length]
  dsimp only
  omega

theorem setPos_grows : Grows low 0 w (w.setPos k.layout p n) := by
  have fits := k.layout_pos
  refine put_grows low _ _ here ?_ (Nat.le_add_right_of_le behind)
  rw [leBytes_length]
  dsimp only
  omega

end fields

theorem setAddr_grows (here : p.block = w.next.block) {r : Request}
    (inside : p.off + r.cmd.layout.header ≤ w.next.limit) (behind : low ≤ p.off) :
    Grows low 0 w (w.setAddr p r.address?) := by
  generalize equal : r.address? = addr
  cases addr with
  | none => exact Grows.refl low w
  | some addr =>
      have fits := Request.address_header equal
      exact put_grows low p addr.image here (by omega) behind

/-- The size that a writer has been given, cut to the width of its field. -/
theorem getSz_setSz (k : Wcmd) (here : p.block = w.next.block)
    (inside : p.off + k.layout.header ≤ w.next.limit) :
    k.layout.getSz (w.setSz k.layout p n).next.mem p.off = n % 256 ^ k.layout.width := by
  have fits := k.layout_sz
  have room : p.off + k.layout.sz + (leBytes k.layout.width n).length ≤ w.next.limit := by
    rw [leBytes_length]
    omega
  rw [setSz, put_inside (p := ⟨p.block, p.off + k.layout.sz⟩) here room]
  exact loadLe_storeLe_mod _ _ _ _

/-! ## Writing a chunk -/

/-- The chunk of kind `k` at `p` ends within the bytes in use. -/
def Ends (w : Wbuf) (k : Wcmd) (p : Ptr) : Prop :=
  p.block = w.next.block ∧ p.off + k.layout.chunkSize w.next.mem p.off ≤ w.next.len

/-- The bytes in use of a buffer hold the size of a chunk that ends in them. -/
theorem getSz_kept {k : Wcmd} {m : Mem} (last : w.Ends k p)
    (kept : ∀ i, i < w.next.len → m i = w.next.mem i) :
    k.layout.getSz m p.off = k.layout.getSz w.next.mem p.off := by
  have fits := k.layout_sz
  have ends := last.2
  unfold Layout.chunkSize at ends
  exact loadLe_congr fun i _ upper => kept i (by omega)

/-- A writer at work: from `w` on the buffer has grown within its block and the
bytes in front of the writer are kept. -/
def Wrote (p : Ptr) (w w' : Wbuf) : Prop :=
  ∃ n, Grows p.off n w w' ∧ w.next.len + n ≤ w.next.limit

theorem writePlain_new {r : Request} (here : p.block = w.next.block) (behind : p.off = w.next.len)
    (room : p.off + r.cmd.layout.header + r.image.length ≤ w.next.limit) :
    Wrote p w (w.writePlain r p false).1 := by
  have le := Nat.le_refl p.off
  have inside : p.off + r.cmd.layout.header ≤ w.next.limit := by omega
  have pos := setPos_grows (n := 0) here inside le
  have sz := setSz_grows (n := r.count) (here.trans pos.block.symm) (by rwa [pos.limit]) le
  have head := pos.trans sz
  have addr := setAddr_grows (here.trans head.block.symm) (r := r) (by rwa [head.limit]) le
  have all := head.trans addr
  have image := put_grows p.off ⟨p.block, p.off + r.cmd.layout.header⟩ r.image
    (here.trans all.block.symm) (by rwa [all.limit]) (Nat.le_add_right p.off _)
  have done := (all.trans image).trans
    (commit_grows p.off (r.cmd.layout.header + r.image.length) _)
  exact ⟨_, done, by omega⟩

theorem writePlain_append {r : Request} (last : w.Ends r.cmd p)
    (room : w.next.len + r.image.length ≤ w.next.limit) :
    Wrote p w (w.writePlain r p true).1 := by
  obtain ⟨here, ends⟩ := last
  have le := Nat.le_refl p.off
  unfold Layout.chunkSize at ends
  have image := put_grows p.off ⟨p.block, p.off + r.cmd.layout.header + r.cmd.layout.unit *
    r.cmd.layout.getSz w.next.mem p.off⟩ r.image here (by dsimp only; omega) (by dsimp only; omega)
  have sz := setSz_grows (n := r.cmd.layout.getSz w.next.mem p.off + r.count)
    (here.trans image.block.symm) (k := r.cmd) (by rw [image.limit]; omega) le
  have done := (image.trans sz).trans (commit_grows p.off r.image.length _)
  exact ⟨_, done, by omega⟩

theorem writeObj_new {r : Request} {packing : Packing} (within : w.next.Within)
    (here : p.block = w.next.block) (behind : p.off = w.next.len)
    (room : p.off + r.cmd.layout.header ≤ w.next.limit)
    (fits : PackOp.Fits (w.next.limit - (p.off + r.cmd.layout.header)) packing.ops) :
    Wrote p w (w.writeObj heap r packing p false).1 := by
  have le := Nat.le_refl p.off
  have addr := setAddr_grows here (r := r) room le
  have head := addr.trans (commit_grows p.off r.cmd.layout.header _)
  have pos := head.trans (setPos_grows (n := 0) (k := r.cmd) (here.trans head.block.symm)
    (by rwa [head.limit]) le)
  rw [Nat.zero_add, Nat.add_zero] at pos
  rw [behind, ← pos.limit, ← pos.len] at fits
  obtain ⟨n, packed, bound, -⟩ := pack_grows heap p.off
    (pos.within within (by omega)) (by rw [pos.len]; omega) fits
  have both := pos.trans packed
  rw [pos.len, pos.limit] at bound
  have sized := fun n => both.trans (setSz_grows (n := n) (here.trans both.block.symm) (k := r.cmd)
    (by rwa [both.limit]) le)
  unfold writeObj
  dsimp only
  by_cases failed : (pack heap (((w.setAddr p r.address?).commit r.cmd.layout.header).setPos
      r.cmd.layout p 0) packing).2 < 0
  · rw [if_neg Bool.false_ne_true, if_pos failed]
    exact ⟨_, both, by omega⟩
  · rw [if_neg Bool.false_ne_true, if_neg failed]
    exact ⟨_, sized _, by omega⟩

theorem writeObj_append {r : Request} {packing : Packing} (within : w.next.Within)
    (last : w.Ends r.cmd p) (fits : PackOp.Fits (w.next.limit - w.next.len) packing.ops) :
    Wrote p w (w.writeObj heap r packing p true).1 := by
  obtain ⟨here, ends⟩ := last
  have len := within.len
  have le := Nat.le_refl p.off
  unfold Layout.chunkSize at ends
  obtain ⟨n, packed, bound, -⟩ := pack_grows heap p.off within (by omega) fits
  have sized := fun n => packed.trans (setSz_grows (n := n) (here.trans packed.block.symm)
    (k := r.cmd) (by rw [packed.limit]; omega) le)
  unfold writeObj
  dsimp only
  by_cases failed : (pack heap w packing).2 < 0
  · rw [if_pos rfl, if_pos failed]
    exact ⟨_, packed, by omega⟩
  · rw [if_pos rfl, if_neg failed]
    exact ⟨_, sized _, by omega⟩

/-! ## What a call adds -/

variable {w' w₁ w₂ : Wbuf} {n' : ℕ}

/-- The `next` buffer has `n` bytes more in use, which says nothing on what they
are. -/
structure Adds (n : ℕ) (w w' : Wbuf) : Prop where
  len : w'.next.len = w.next.len + n
  curr : w'.curr = w.curr
  lastWriter : w'.lastWriter = w.lastWriter
  lastWcmd : w'.lastWcmd = w.lastWcmd
  attached : w'.attached = w.attached

theorem Adds.refl (w : Wbuf) : Adds 0 w w := ⟨rfl, rfl, rfl, rfl, rfl⟩

theorem Adds.trans (first : Adds n w w₁) (second : Adds n' w₁ w₂) : Adds (n + n') w w₂ where
  len := by rw [second.len, first.len, Nat.add_assoc]
  curr := second.curr.trans first.curr
  lastWriter := second.lastWriter.trans first.lastWriter
  lastWcmd := second.lastWcmd.trans first.lastWcmd
  attached := second.attached.trans first.attached

theorem Grows.adds {low : ℕ} (grows : Grows low n w w') : Adds n w w' :=
  ⟨grows.len, grows.curr, grows.lastWriter, grows.lastWcmd, grows.attached⟩

theorem put_adds (w : Wbuf) (p : Ptr) (bytes : List UInt8) : Adds 0 w (w.put p bytes) :=
  ⟨put_len w p bytes, put_curr w p bytes, put_lastWriter w p bytes, put_lastWcmd w p bytes,
    put_attached w p bytes⟩

theorem commit_adds (w : Wbuf) (n : ℕ) : Adds n w (w.commit n) := (commit_grows 0 n w).adds

theorem push_adds (w : Wbuf) (byte : UInt8) : Adds 1 w (w.push byte) :=
  { put_adds w w.lastP [byte] with len := congrArg (· + 1) (put_len w w.lastP [byte]) }

theorem setAddr_adds (w : Wbuf) (p : Ptr) (addr : Option Address) : Adds 0 w (w.setAddr p addr) := by
  cases addr with
  | none => exact Adds.refl w
  | some addr => exact put_adds w p addr.image

theorem setSz_adds (w : Wbuf) (l : Layout) (p : Ptr) (n : ℕ) : Adds 0 w (w.setSz l p n) :=
  put_adds w ⟨p.block, p.off + l.sz⟩ (leBytes l.width n)

theorem setPos_adds (w : Wbuf) (l : Layout) (p : Ptr) (n : ℕ) : Adds 0 w (w.setPos l p n) :=
  put_adds w ⟨p.block, p.off + l.pos⟩ (leBytes l.width n)

theorem writePlain_size {r : Request} (plain : r.packing? = none) (w : Wbuf) (p : Ptr) (append : Bool) :
    (w.writePlain r p append).2 = intOfSize (r.requiredSize append : ℕ) := by
  rw [Request.requiredSize_plain plain]
  cases append with
  | true => simp only [writePlain, if_true, Nat.add_zero]
  | false => simp only [writePlain, Bool.false_eq_true, if_false, Nat.add_comm]

theorem writePlain_adds (w : Wbuf) (r : Request) (p : Ptr) (append : Bool) :
    Adds ((if append then 0 else r.cmd.layout.header) + r.image.length) w
      (w.writePlain r p append).1 := by
  cases append with
  | true =>
      have image := put_adds w ⟨p.block, p.off + r.cmd.layout.header + r.cmd.layout.unit *
        r.cmd.layout.getSz w.next.mem p.off⟩ r.image
      have size := image.trans (setSz_adds _ r.cmd.layout p
        (r.cmd.layout.getSz w.next.mem p.off + r.count))
      exact size.trans (commit_adds _ r.image.length)
  | false =>
      have size := (setPos_adds w r.cmd.layout p 0).trans (setSz_adds _ r.cmd.layout p r.count)
      have header := size.trans (setAddr_adds _ p r.address?)
      have all := (header.trans (put_adds _ ⟨p.block, p.off + r.cmd.layout.header⟩ r.image)).trans
        (commit_adds _ (r.cmd.layout.header + r.image.length))
      rw [Nat.zero_add] at all
      exact all

end Wbuf

end Cyue.Net
