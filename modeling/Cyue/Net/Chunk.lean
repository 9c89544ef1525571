import Cyue.Net.Failure

/-!
# The header of a serialized object

The writer of an object lies in the buffer that its packer fills.  As long as
every request of the packer finds room in the block, or no memory, the writer
sees its own header at the end.  Once the buffer has moved, the size goes to the
block that was left, and `p_last_writer` stays there too.
-/

namespace Cyue.Net

open Bytes Memory

/-! ## Where a packer ends up -/

inductive Room where
  | there
  | refused
  | elsewhere
  deriving DecidableEq, Repr

def Room.of (heap : Wbuf.Heap) (limit blocks len sz : ℕ) : Room :=
  if sz ≤ limit - len then .there
  else if heap blocks ≠ none ∧ Pbuf.growLimit (sz + len) limit (sz + len) < 2 ^ 63 then .elsewhere
  else .refused

/-- Where the packed bytes end if the buffer does not move; `blocks` counts the
requests. -/
def PackOp.inPlace (heap : Wbuf.Heap) (limit : ℕ) : ℕ → ℕ → List PackOp → Option ℕ
  | _, len, [] => some len
  | blocks, len, .push bytes :: ops =>
      inPlace heap limit blocks (if bytes.length < limit - len then len + bytes.length else len) ops
  | blocks, len, .expandBuffer sz :: ops =>
      match Room.of heap limit blocks len sz with
      | .elsewhere => none
      | _ => inPlace heap limit (blocks + 1) len ops
  | blocks, len, .fill bytes :: ops =>
      match Room.of heap limit blocks len bytes.length with
      | .there => inPlace heap limit (blocks + 1) (len + bytes.length) ops
      | .refused => inPlace heap limit (blocks + 1) len ops
      | .elsewhere => none

theorem Wcmd.layout_apart (k : Wcmd) : k.layout.sz + k.layout.width ≤ k.layout.pos := by
  cases k <;> decide

namespace Wbuf

variable {heap : Heap} {w w' w₁ w₂ : Wbuf} {p : Ptr} {r : Request} {n sz low : ℕ}

theorem reserve_refused (within : w.next.Within)
    (room : Room.of heap w.next.limit w.blocks w.next.len sz = .refused) :
    w.reserve heap sz = none := by
  unfold Room.of at room
  split at room
  case isTrue => cases room
  case isFalse short =>
      split at room
      case isTrue => cases room
      case isFalse refused =>
          rw [← within.available] at short
          rw [reserve, Buf.reserve, if_neg short, within.ofs, Nat.sub_zero]
          cases got : heap w.blocks with
          | none => rfl
          | some mem =>
              have large : ¬ Pbuf.growLimit (sz + w.next.len) w.next.limit (sz + w.next.len) < 2 ^ 63 :=
                fun small => refused ⟨by rw [got]; exact Option.some_ne_none _, small⟩
              dsimp only
              rw [if_neg large]
              rfl

theorem reserve_there (within : w.next.Within)
    (room : Room.of heap w.next.limit w.blocks w.next.len sz = .there) :
    sz ≤ w.next.limit - w.next.len ∧ w.reserve heap sz = some { w with blocks := w.blocks + 1 } := by
  unfold Room.of at room
  split at room
  case isTrue enough => exact ⟨enough, reserve_room heap within enough⟩
  case isFalse => split at room <;> cases room

theorem reserve_elsewhere (within : w.next.Within)
    (room : Room.of heap w.next.limit w.blocks w.next.len sz = .elsewhere) :
    ∃ w', w.reserve heap sz = some w' ∧ w'.next.block = w.blocks ∧ w'.blocks = w.blocks + 1 := by
  unfold Room.of at room
  split at room
  case isTrue => cases room
  case isFalse short =>
      split at room
      case isFalse => cases room
      case isTrue granted =>
          obtain ⟨got, small⟩ := granted
          obtain ⟨mem, got⟩ := Option.ne_none_iff_exists'.mp got
          rw [← within.available] at short
          rw [reserve, Buf.reserve, if_neg short, within.ofs, Nat.sub_zero, got]
          dsimp only
          rw [if_pos small]
          exact ⟨_, rfl, rfl, rfl⟩

/-! ## Writing an object -/

def head (w : Wbuf) (r : Request) (p : Ptr) : Wbuf :=
  ((w.setAddr p r.address?).commit r.cmd.layout.header).setPos r.cmd.layout p 0

theorem writeObj_new_eq (heap : Heap) (w : Wbuf) (r : Request) (packing : Packing) (p : Ptr) :
    (w.writeObj heap r packing p false).1 =
      let packed := (w.head r p).pack heap packing
      if packed.2 < 0 then packed.1 else packed.1.setSz r.cmd.layout p (0 + packed.2.toNat) := by
  unfold writeObj head
  dsimp only
  rw [if_neg Bool.false_ne_true, Nat.zero_add]
  split
  · rfl
  · rfl

theorem writeObj_append_eq (heap : Heap) (w : Wbuf) (r : Request) (packing : Packing) (p : Ptr) :
    (w.writeObj heap r packing p true).1 =
      let packed := w.pack heap packing
      if packed.2 < 0 then packed.1
      else packed.1.setSz r.cmd.layout p
        (r.cmd.layout.getSz packed.1.next.mem p.off + packed.2.toNat) := by
  unfold writeObj
  dsimp only
  rw [if_pos rfl]
  split
  · rfl
  · rfl

/-! ## The names of the blocks -/

/-- No block has a name that an allocation is still to give. -/
structure Named (w : Wbuf) : Prop where
  curr : w.curr.block < w.blocks
  next : w.next.block < w.blocks

/-- The `next` buffer keeps its block or gets a new one. -/
structure Moves (w w' : Wbuf) : Prop where
  blocks : w.blocks ≤ w'.blocks
  next : w'.next.block = w.next.block ∨ w.blocks ≤ w'.next.block ∧ w'.next.block < w'.blocks
  curr : w'.curr = w.curr

theorem Moves.refl (w : Wbuf) : Moves w w := ⟨le_rfl, .inl rfl, rfl⟩

theorem Moves.trans (first : Moves w w₁) (second : Moves w₁ w₂) : Moves w w₂ where
  blocks := first.blocks.trans second.blocks
  next := by
    rcases second.next with stays | ⟨lower, upper⟩
    · rw [stays]
      refine first.next.imp_right ?_
      rintro ⟨lower, upper⟩
      exact ⟨lower, upper.trans_le second.blocks⟩
    · exact .inr ⟨first.blocks.trans lower, upper⟩
  curr := second.curr.trans first.curr

theorem Named.moved (named : w.Named) (moves : Moves w w') : w'.Named where
  curr := by
    rw [moves.curr]
    exact named.curr.trans_le moves.blocks
  next := by
    rcases moves.next with stays | ⟨-, upper⟩
    · rw [stays]
      exact named.next.trans_le moves.blocks
    · exact upper

theorem reserve_moves (done : w.reserve heap sz = some w') : Moves w w' := by
  obtain ⟨b, reserved, rfl⟩ := Option.map_eq_some_iff.mp done
  refine ⟨Nat.le_succ _, ?_, rfl⟩
  unfold Buf.reserve at reserved
  split at reserved
  case isTrue =>
      cases reserved
      exact .inl rfl
  case isFalse =>
      cases got : heap w.blocks with
      | none =>
          rw [got] at reserved
          cases reserved
      | some mem =>
          rw [got] at reserved
          dsimp only at reserved
          split at reserved
          case isTrue =>
              cases reserved
              exact .inr ⟨le_rfl, Nat.lt_succ_self _⟩
          case isFalse => cases reserved

theorem reserve_failed_moves (w : Wbuf) : Moves w { w with blocks := w.blocks + 1 } :=
  ⟨Nat.le_succ _, .inl rfl, rfl⟩

@[simp]
theorem put_blocks (w : Wbuf) (p : Ptr) (bytes : List UInt8) : (w.put p bytes).blocks = w.blocks := by
  unfold put
  split <;> rfl

theorem put_moves (w : Wbuf) (p : Ptr) (bytes : List UInt8) : Moves w (w.put p bytes) :=
  ⟨Nat.le_of_eq (put_blocks w p bytes).symm, .inl (put_block w p bytes), put_curr w p bytes⟩

theorem append_moves (w : Wbuf) (bytes : List UInt8) : Moves w (w.append bytes) :=
  have put := put_moves w w.lastP bytes
  ⟨put.blocks, put.next, put.curr⟩

theorem packOp_moves (heap : Heap) (w : Wbuf) (op : PackOp) : Moves w (packOp heap w op) := by
  cases op with
  | push bytes =>
      rw [packOp]
      split
      · exact append_moves w bytes
      · exact Moves.refl w
  | expandBuffer sz =>
      rw [packOp]
      cases done : w.reserve heap sz with
      | none => exact reserve_failed_moves w
      | some w' => exact reserve_moves done
  | fill bytes =>
      rw [packOp]
      cases done : w.reserve heap bytes.length with
      | none => exact reserve_failed_moves w
      | some w' => exact (reserve_moves done).trans (append_moves w' bytes)

theorem packOps_moves (heap : Heap) (w : Wbuf) (ops : List PackOp) :
    Moves w (ops.foldl (packOp heap) w) := by
  induction ops generalizing w with
  | nil => exact Moves.refl w
  | cons op ops ih => exact (packOp_moves heap w op).trans (ih _)

theorem setAddr_moves (w : Wbuf) (p : Ptr) (addr : Option Address) : Moves w (w.setAddr p addr) := by
  cases addr with
  | none => exact Moves.refl w
  | some addr => exact put_moves w p addr.image

theorem commit_moves (w : Wbuf) (n : ℕ) : Moves w (w.commit n) := ⟨le_rfl, .inl rfl, rfl⟩

theorem setSz_moves (w : Wbuf) (l : Layout) (p : Ptr) (n : ℕ) : Moves w (w.setSz l p n) :=
  put_moves w _ _

theorem setPos_moves (w : Wbuf) (l : Layout) (p : Ptr) (n : ℕ) : Moves w (w.setPos l p n) :=
  put_moves w _ _

theorem writePlain_moves (w : Wbuf) (r : Request) (p : Ptr) (append : Bool) :
    Moves w (w.writePlain r p append).1 := by
  cases append with
  | true =>
      exact ((put_moves w _ r.image).trans (setSz_moves _ _ _ _)).trans (commit_moves _ _)
  | false =>
      have header := ((setPos_moves w r.cmd.layout p 0).trans
        (setSz_moves _ r.cmd.layout p r.count)).trans (setAddr_moves _ p r.address?)
      exact (header.trans (put_moves _ _ r.image)).trans (commit_moves _ _)

theorem pack_moves (heap : Heap) (w : Wbuf) (packing : Packing) :
    Moves w (w.pack heap packing).1 := packOps_moves heap w packing.ops

theorem writeObj_moves (heap : Heap) (w : Wbuf) (r : Request) (packing : Packing) (p : Ptr)
    (append : Bool) : Moves w (w.writeObj heap r packing p append).1 := by
  cases append with
  | true =>
      rw [writeObj_append_eq]
      dsimp only
      split
      · exact pack_moves heap w packing
      · exact (pack_moves heap w packing).trans (setSz_moves _ _ _ _)
  | false =>
      have header := ((setAddr_moves w p r.address?).trans
        (commit_moves _ r.cmd.layout.header)).trans (setPos_moves _ r.cmd.layout p 0)
      rw [writeObj_new_eq]
      dsimp only
      split
      · exact header.trans (pack_moves heap _ packing)
      · exact (header.trans (pack_moves heap _ packing)).trans (setSz_moves _ _ _ _)

theorem placeWriter_moves (org : ℕ) (w : Wbuf) (r : Request) (append : Bool) :
    Moves w (w.placeWriter org r append) := by
  cases append with
  | true =>
      rw [placeWriter, if_pos rfl]
      split
      · exact Moves.refl w
      · split
        · exact ⟨le_rfl, .inl rfl, rfl⟩
        · exact Moves.refl w
  | false =>
      have pushed := put_moves w w.lastP [r.cmd.code]
      exact ⟨pushed.blocks, pushed.next, pushed.curr⟩

theorem writeChunk_moves (heap : Heap) (w : Wbuf) (r : Request) (p : Ptr) (append : Bool) :
    Moves w (w.writeChunk heap r p append).1 := by
  unfold writeChunk
  split
  · exact writeObj_moves heap w r _ p append
  · exact writePlain_moves w r p append

theorem attach_moves (w : Wbuf) (attached : Bool) (s : ℤ) : Moves w (w.attach attached s).1 := by
  unfold attach
  split
  · exact Moves.refl w
  · split
    · exact ⟨le_rfl, .inl rfl, rfl⟩
    · exact ⟨le_rfl, .inl rfl, rfl⟩

theorem sendraw_moves (heap : Heap) (w : Wbuf) (r : Request) (attached : Bool) :
    Moves w (w.sendraw heap r attached).1 := by
  cases done : w.reserve heap (r.requiredSize (w.appends r)) with
  | none =>
      unfold sendraw
      simp only [done]
      exact reserve_failed_moves w
  | some w' =>
      have placed := (reserve_moves done).trans
        (placeWriter_moves w.next.block w' r (w.appends r))
      have written := placed.trans (writeChunk_moves heap _ r
        (w'.placeWriter w.next.block r (w.appends r)).lastWriter (w.appends r))
      rw [sendraw_reserved attached done]
      dsimp only
      refine Moves.trans ?_ (attach_moves _ attached _)
      split
      · exact ⟨written.blocks, written.next, written.curr⟩
      · exact written

theorem init_named (m₀ m₁ : Mem) : (Wbuf.init m₀ m₁).Named :=
  ⟨Nat.zero_lt_two, Nat.one_lt_two⟩

/-! ## Packing in place -/

/-- What one request of a packer does, by the room that it finds. -/
theorem packOp_inPlace (heap : Heap) (within : w.next.Within) (behind : low ≤ w.next.len) (op : PackOp)
    (ops : List PackOp) :
    (∃ n, Grows low n w (packOp heap w op) ∧ w.next.len + n ≤ w.next.limit ∧
      PackOp.inPlace heap w.next.limit w.blocks w.next.len (op :: ops) =
        PackOp.inPlace heap w.next.limit (packOp heap w op).blocks (w.next.len + n) ops) ∨
    (PackOp.inPlace heap w.next.limit w.blocks w.next.len (op :: ops) = none ∧
      w.blocks ≤ (packOp heap w op).next.block) := by
  have len := within.len
  cases op with
  | push bytes =>
      refine .inl ?_
      rw [packOp, PackOp.inPlace, within.available]
      split
      case isTrue room =>
          refine ⟨bytes.length, append_grows low (by omega) behind, by omega, ?_⟩
          rw [append]
          exact congrArg (fun blocks => PackOp.inPlace heap w.next.limit blocks _ ops)
            (put_blocks w w.lastP bytes).symm
      case isFalse => exact ⟨0, Grows.refl low w, len, rfl⟩
  | expandBuffer sz =>
      rw [packOp, PackOp.inPlace]
      cases room : Room.of heap w.next.limit w.blocks w.next.len sz with
      | there =>
          obtain ⟨-, done⟩ := reserve_there within room
          rw [done, Option.getD_some]
          exact .inl ⟨0, { Grows.refl low w with }, len, rfl⟩
      | refused =>
          rw [reserve_refused within room, Option.getD_none]
          exact .inl ⟨0, { Grows.refl low w with }, len, rfl⟩
      | elsewhere =>
          obtain ⟨w', done, block, -⟩ := reserve_elsewhere within room
          rw [done, Option.getD_some]
          exact .inr ⟨rfl, Nat.le_of_eq block.symm⟩
  | fill bytes =>
      rw [packOp, PackOp.inPlace]
      cases room : Room.of heap w.next.limit w.blocks w.next.len bytes.length with
      | there =>
          obtain ⟨enough, done⟩ := reserve_there within room
          have grows : Grows low bytes.length _ (Wbuf.append { w with blocks := w.blocks + 1 } bytes) :=
            append_grows low (by dsimp only; omega) behind
          rw [done]
          refine .inl ⟨bytes.length, { grows with }, by omega, ?_⟩
          exact congrArg (fun blocks => PackOp.inPlace heap w.next.limit blocks _ ops)
            (put_blocks { w with blocks := w.blocks + 1 } _ bytes).symm
      | refused =>
          rw [reserve_refused within room]
          exact .inl ⟨0, { Grows.refl low w with }, len, rfl⟩
      | elsewhere =>
          obtain ⟨w', done, block, -⟩ := reserve_elsewhere within room
          rw [done]
          refine .inr ⟨rfl, ?_⟩
          have same : (w'.append bytes).next.block = w'.next.block := put_block w' w'.lastP bytes
          exact Nat.le_of_eq (block.symm.trans same.symm)

/-- A packer that stays grows the buffer by what it packs, and any other leaves
the block behind. -/
theorem packOps_inPlace (heap : Heap) (within : w.next.Within) (named : w.next.block < w.blocks)
    (behind : low ≤ w.next.len) (ops : List PackOp) :
    (∃ n, Grows low n w (ops.foldl (packOp heap) w) ∧ w.next.len + n ≤ w.next.limit ∧
      PackOp.inPlace heap w.next.limit w.blocks w.next.len ops = some (w.next.len + n)) ∨
    (PackOp.inPlace heap w.next.limit w.blocks w.next.len ops = none ∧
      (ops.foldl (packOp heap) w).next.block ≠ w.next.block) := by
  induction ops generalizing w with
  | nil => exact .inl ⟨0, Grows.refl low w, within.len, rfl⟩
  | cons op ops ih =>
      rw [List.foldl_cons]
      rcases packOp_inPlace heap within behind op ops with
        ⟨n, grows, bound, equal⟩ | ⟨moved, block⟩
      · have blocks := (packOp_moves heap w op).blocks
        have rest := ih (grows.within within bound) (by rw [grows.block]; omega)
          (by rw [grows.len]; omega)
        rw [equal]
        rw [grows.limit, grows.len, grows.block] at rest
        refine rest.imp ?_ id
        rintro ⟨n', more, bound', equal'⟩
        exact ⟨n + n', grows.trans more, by omega, by rw [equal', Nat.add_assoc]⟩
      · refine .inr ⟨moved, ?_⟩
        have later := packOps_moves heap (packOp heap w op) ops
        have first := packOp_moves heap w op
        rcases later.next with stays | ⟨lower, -⟩
        · omega
        · have := first.blocks
          omega

/-! ## The fields of a writer -/

section fields

variable {k : Wcmd} (here : p.block = w.next.block)
  (inside : p.off + k.layout.header ≤ w.next.limit)

include here inside

/-- Setting the size leaves the position. -/
theorem getPos_setSz : k.layout.getPos (w.setSz k.layout p n).next.mem p.off =
    k.layout.getPos w.next.mem p.off := by
  have fits := k.layout_sz
  have apart := k.layout_apart
  have stored := @put_inside w ⟨p.block, p.off + k.layout.sz⟩ (leBytes k.layout.width n) here
    (by rw [leBytes_length]; dsimp only; omega)
  rw [setSz, stored]
  refine loadLe_store_of_disjoint (.inr ?_)
  rw [leBytes_length]
  dsimp only
  omega

theorem getPos_setPos : k.layout.getPos (w.setPos k.layout p n).next.mem p.off =
    n % 256 ^ k.layout.width := by
  have fits := k.layout_pos
  have stored := @put_inside w ⟨p.block, p.off + k.layout.pos⟩ (leBytes k.layout.width n) here
    (by rw [leBytes_length]; dsimp only; omega)
  rw [setPos, stored]
  exact loadLe_storeLe_mod _ _ _ _

/-- Setting the position leaves the size. -/
theorem getSz_setPos : k.layout.getSz (w.setPos k.layout p n).next.mem p.off =
    k.layout.getSz w.next.mem p.off := by
  have fits := k.layout_pos
  have apart := k.layout_apart
  have stored := @put_inside w ⟨p.block, p.off + k.layout.pos⟩ (leBytes k.layout.width n) here
    (by rw [leBytes_length]; dsimp only; omega)
  rw [setPos, stored]
  exact loadLe_store_of_disjoint (.inl (by dsimp only; omega))

end fields

/-- The address of a datagram lies in front of the size. -/
theorem getSz_setAddr (here : p.block = w.next.block)
    (inside : p.off + r.cmd.layout.header ≤ w.next.limit) :
    r.cmd.layout.getSz (w.setAddr p r.address?).next.mem p.off =
      r.cmd.layout.getSz w.next.mem p.off := by
  cases equal : r.address? with
  | none => rfl
  | some addr =>
      have fits := Request.address_header equal
      have front : addr.image.length ≤ r.cmd.layout.sz := by
        rw [addr.size]
        cases r with
        | dgram p addr => exact (by decide : 24 ≤ Wcmd.dgram.layout.sz)
        | objDgram packing addr => exact (by decide : 24 ≤ Wcmd.dgram.layout.sz)
        | _ => cases equal
      have stored := @put_inside w p addr.image here (by omega)
      rw [setAddr, stored]
      exact loadLe_store_of_disjoint (.inr (by omega))

/-- A field in the bytes in front of `low` stays as it is. -/
theorem Grows.getSz {w' : Wbuf} (grows : Grows low n w w') {k : Wcmd} {off : ℕ}
    (before : off + k.layout.header ≤ low) :
    k.layout.getSz w'.next.mem off = k.layout.getSz w.next.mem off := by
  have fits := k.layout_sz
  exact loadLe_congr fun i _ upper => grows.kept i (by omega)

theorem Grows.getPos {w' : Wbuf} (grows : Grows low n w w') {k : Wcmd} {off : ℕ}
    (before : off + k.layout.header ≤ low) :
    k.layout.getPos w'.next.mem off = k.layout.getPos w.next.mem off := by
  have fits := k.layout_pos
  exact loadLe_congr fun i _ upper => grows.kept i (by omega)

/-! ## The header after a send -/

/-- The header that `write_command` will read: behind its command byte, or the
one that was appended to, with `n` bytes more. -/
structure Headed (w : Wbuf) (r : Request) (n : ℕ) (w' : Wbuf) : Prop where
  here : w'.lastWriter =
    ⟨w'.next.block, if w.appends r then w.lastWriter.off else w.next.len + 1⟩
  pos : r.cmd.layout.getPos w'.next.mem w'.lastWriter.off =
    if w.appends r then r.cmd.layout.getPos w.next.mem w.lastWriter.off else 0
  size : r.cmd.layout.getSz w'.next.mem w'.lastWriter.off =
    (if w.appends r then r.cmd.layout.getSz w.next.mem w.lastWriter.off else 0) + n

def packStart (w : Wbuf) (r : Request) : ℕ := w.next.len + r.cmd.overhead (w.appends r)

/-- A new writer whose size is never set, since the length is a negative `int`,
finds it in the bytes that lie there. -/
def Accident (heap : Heap) (w : Wbuf) (r : Request) (n : ℕ) : Prop :=
  w.appends r = false ∧ intOfSize n < 0 ∧ ∃ w', w.reserve heap (r.requiredSize false) = some w' ∧
    r.cmd.layout.getSz w'.next.mem (w.next.len + 1) = n

/-- Every request of the packer finds room in the block, or no memory, and the
length of what it packs is an `int`. -/
def PacksInPlace (heap : Heap) (w : Wbuf) (r : Request) (packing : Packing) : Prop :=
  ∃ n, PackOp.inPlace heap (w.next.len + w.next.roomFor (r.requiredSize (w.appends r)))
      (w.blocks + 1) (w.packStart r) packing.ops = some (w.packStart r + n) ∧
    (n < 2 ^ 31 ∨ w.Accident heap r n)

/-! ## When the header is right -/

theorem Headed.congr {v v' : Wbuf} (writer : v'.lastWriter = v.lastWriter)
    (block : v'.next.block = v.next.block) (mem : v'.next.mem = v.next.mem) :
    w.Headed r n v' ↔ w.Headed r n v := by
  constructor
  · rintro ⟨here, pos, size⟩
    rw [writer, mem] at pos size
    rw [writer, block] at here
    exact ⟨here, pos, size⟩
  · rintro ⟨here, pos, size⟩
    rw [← writer, ← mem] at pos size
    rw [← writer, ← block] at here
    exact ⟨here, pos, size⟩

theorem headed_attach {v : Wbuf} (attached : Bool) (s : ℤ) :
    w.Headed r n (v.attach attached s).1 ↔ w.Headed r n v := by
  have same : (v.attach attached s).1.lastWriter = v.lastWriter ∧
      (v.attach attached s).1.next.block = v.next.block := by
    unfold attach
    split
    · exact ⟨rfl, rfl⟩
    · split
      · exact ⟨rfl, rfl⟩
      · exact ⟨rfl, rfl⟩
  exact Headed.congr same.1 same.2 (attach_mem v attached s)

/-- After the writer nothing touches the header. -/
theorem headed_sendraw {attached : Bool} {out : Wbuf × ℤ} (done : w.written heap r = some out) :
    w.Headed r n (w.sendraw heap r attached).1 ↔ w.Headed r n out.1 := by
  obtain ⟨w', reserved, rfl⟩ := Option.map_eq_some_iff.mp done
  rw [sendraw_reserved attached reserved]
  dsimp only
  rw [headed_attach]
  split
  · exact Headed.congr rfl rfl rfl
  · rfl

/-- A writer of an object behind whose header its packer starts. -/
structure Starts (w : Wbuf) (k : Wcmd) (p : Ptr) : Prop where
  within : w.next.Within
  named : w.next.block < w.blocks
  here : p.block = w.next.block
  behind : p.off + k.layout.header ≤ w.next.len
  writer : w.lastWriter = p

/-- What the packer and the setting of the size leave of the header. -/
theorem Starts.packed {k : Wcmd} (heap : Heap) (starts : w.Starts k p) {packing : Packing}
    (ok : packing.ok = true) (size : ℕ) :
    let packed := w.pack heap packing
    let out := if packed.2 < 0 then packed.1 else packed.1.setSz k.layout p (size + packed.2.toNat)
    (∃ n, PackOp.inPlace heap w.next.limit w.blocks w.next.len packing.ops =
          some (w.next.len + n) ∧ w.next.len + n ≤ w.next.limit ∧
        out.next.len = w.next.len + n ∧ out.lastWriter = ⟨out.next.block, p.off⟩ ∧
        k.layout.getPos out.next.mem p.off = k.layout.getPos w.next.mem p.off ∧
        k.layout.getSz packed.1.next.mem p.off = k.layout.getSz w.next.mem p.off ∧
        k.layout.getSz out.next.mem p.off =
          if intOfSize n < 0 then k.layout.getSz w.next.mem p.off
          else (size + (intOfSize n).toNat) % 256 ^ k.layout.width) ∨
      (PackOp.inPlace heap w.next.limit w.blocks w.next.len packing.ops = none ∧
        out.lastWriter.block ≠ out.next.block) := by
  obtain ⟨within, named, here, behind, writer⟩ := starts
  intro packed out
  have writer_block : out.lastWriter = packed.1.lastWriter ∧
      out.next.block = packed.1.next.block ∧ out.next.len = packed.1.next.len := by
    dsimp only [out]
    split
    · exact ⟨rfl, rfl, rfl⟩
    · exact ⟨put_lastWriter _ _ _, put_block _ _ _, put_len _ _ _⟩
  obtain ⟨out_writer, out_block, out_len⟩ := writer_block
  obtain ⟨m, packs, -⟩ := pack_packs heap within packing
  have pack_writer : packed.1.lastWriter = p := packs.lastWriter.trans writer
  rcases packOps_inPlace heap within named behind packing.ops with
    ⟨n, grows, bound, equal⟩ | ⟨moved, block⟩
  · refine .inl ⟨n, equal, bound, ?_, ?_, ?_, ?_, ?_⟩
    · rw [out_len]
      exact grows.len
    · rw [out_writer, pack_writer, out_block]
      have same : packed.1.next.block = p.block := grows.block.trans here.symm
      rw [same]
    · have kept : k.layout.getPos packed.1.next.mem p.off = k.layout.getPos w.next.mem p.off :=
        grows.getPos le_rfl
      rw [← kept]
      dsimp only [out]
      split
      · rfl
      · exact getPos_setSz (here.trans grows.block.symm)
          ((behind.trans within.len).trans (Nat.le_of_eq grows.limit.symm))
    · exact grows.getSz le_rfl
    · have result : packed.2 = intOfSize n := by
        dsimp only [packed, pack]
        rw [ok, if_pos rfl, grows.len, Nat.add_sub_cancel_left]
      dsimp only [out]
      rw [result]
      split
      · exact grows.getSz le_rfl
      · exact getSz_setSz k (here.trans grows.block.symm)
          ((behind.trans within.len).trans (Nat.le_of_eq grows.limit.symm))
  · refine .inr ⟨moved, ?_⟩
    rw [out_writer, pack_writer, out_block, here]
    exact Ne.symm block

/-- Both ways a writer of an object starts: with the fields of its header, and
the place where it packs. -/
structure Prepared (heap : Heap) (w : Wbuf) (r : Request) (s : Wbuf) (p : Ptr) (pos size : ℕ) :
    Prop where
  starts : s.Starts r.cmd p
  len : s.next.len = w.packStart r
  limit : s.next.limit = w.next.len + w.next.roomFor (r.requiredSize (w.appends r))
  blocks : s.blocks = w.blocks + 1
  off : p.off = if w.appends r then w.lastWriter.off else w.next.len + 1
  pos : r.cmd.layout.getPos s.next.mem p.off = pos
  size : r.cmd.layout.getSz s.next.mem p.off = size

theorem prepared_new {packing : Packing} (valid : w.Valid) (named : w.Named)
    (packs : r.packing? = some packing) (appends : w.appends r = false)
    (done : w.reserve heap (r.requiredSize false) = some w') :
    Prepared heap w r ((w'.placeWriter w.next.block r false).head r ⟨w'.next.block, w'.next.len + 1⟩)
      ⟨w'.next.block, w'.next.len + 1⟩ 0 (r.cmd.layout.getSz w'.next.mem (w.next.len + 1)) := by
  obtain ⟨kept, reserved⟩ := reserve_some done valid.next
  have enough := Buf.roomFor_enough valid.next (r.requiredSize false)
  rw [← reserved.room] at enough
  have header := Request.header_lt packs
  have inside := reserved.within.len
  have named' := named.moved (reserve_moves done)
  have pushed := push_grows (w := w') w'.next.len r.cmd.code (by omega) (Nat.le_refl _)
  let p : Ptr := ⟨w'.next.block, w'.next.len + 1⟩
  let placed := w'.placeWriter w.next.block r false
  have same : placed = { w'.push r.cmd.code with lastWriter := p } := by
    have last : (w'.push r.cmd.code).lastP = p := by
      rw [lastP, pushed.block, pushed.len]
    dsimp only [placed, placeWriter]
    rw [if_neg Bool.false_ne_true, last]
  have block : placed.next.block = w'.next.block := by rw [same]; exact pushed.block
  have limit : placed.next.limit = w'.next.limit := by rw [same]; exact pushed.limit
  have len : placed.next.len = w'.next.len + 1 := by rw [same]; exact pushed.len
  have writer : placed.lastWriter = p := by rw [same]
  have blocks : placed.blocks = w'.blocks := by rw [same]; exact put_blocks _ _ _
  have before : r.cmd.layout.getSz placed.next.mem p.off = r.cmd.layout.getSz w'.next.mem p.off := by
    rw [same]
    refine loadLe_congr fun i lower _ => ?_
    have stored := @put_inside w' w'.lastP [r.cmd.code] rfl
      (by change w'.next.len + 1 ≤ _; omega)
    change (w'.put w'.lastP [r.cmd.code]).next.mem i = _
    rw [stored]
    refine if_neg ?_
    change ¬ (w'.next.len ≤ i ∧ i < w'.next.len + 1)
    have lower : w'.next.len + 1 + r.cmd.layout.sz ≤ i := lower
    omega
  have room : p.off + r.cmd.layout.header ≤ placed.next.limit := by
    change w'.next.len + 1 + _ ≤ _
    omega
  have addr := setAddr_grows (w := placed) block.symm (r := r) room (Nat.le_refl p.off)
  have addr_size := getSz_setAddr (w := placed) block.symm room
  have both := addr.trans (commit_grows p.off r.cmd.layout.header _)
  have here : p.block = ((placed.setAddr p r.address?).commit r.cmd.layout.header).next.block :=
    block.symm.trans both.block.symm
  have room' : p.off + r.cmd.layout.header ≤
      ((placed.setAddr p r.address?).commit r.cmd.layout.header).next.limit := by
    rw [both.limit]
    exact room
  have all := both.trans (setPos_grows (n := 0) (k := r.cmd) here room' (Nat.le_refl p.off))
  rw [Nat.zero_add, Nat.add_zero] at all
  have packStart : w.packStart r = placed.next.len + r.cmd.layout.header := by
    rw [Wbuf.packStart, appends, Wcmd.overhead, if_neg Bool.false_ne_true, len, reserved.len,
      Nat.add_assoc]
  have placed_within : placed.next.Within := by
    rw [same]
    exact pushed.within reserved.within (by omega)
  refine ⟨⟨all.within placed_within ?_, ?_, ?_, ?_, ?_⟩, ?_, ?_, ?_, ?_, ?_, ?_⟩
  · rw [len, limit]
    omega
  · rw [head, setPos, put_block, put_blocks]
    change (placed.setAddr p r.address?).next.block < (placed.setAddr p r.address?).blocks
    have blocks_eq : (placed.setAddr p r.address?).blocks = placed.blocks := by
      cases r.address? with
      | none => rfl
      | some addr => exact put_blocks _ _ _
    rw [addr.block, blocks_eq, block, blocks]
    exact named'.next
  · exact here.trans (put_block _ _ _).symm
  · rw [head, all.len, len]
  · exact all.lastWriter.trans writer
  · rw [head, all.len, packStart]
  · rw [head, all.limit, limit, appends]
    have := reserved.room
    have := reserved.len
    omega
  · have blocks_eq : (placed.setAddr p r.address?).blocks = placed.blocks := by
      cases r.address? with
      | none => rfl
      | some addr => exact put_blocks _ _ _
    rw [head, setPos, put_blocks]
    change (placed.setAddr p r.address?).blocks = _
    rw [blocks_eq, blocks, kept]
  · rw [appends, if_neg Bool.false_ne_true, reserved.len]
  · exact (getPos_setPos here room').trans (Nat.zero_mod _)
  · rw [head, getSz_setPos here room']
    change r.cmd.layout.getSz (placed.setAddr p r.address?).next.mem p.off = _
    rw [addr_size, before, ← reserved.len]

theorem prepared_append (valid : w.Valid) (named : w.Named) (appends : w.appends r = true)
    (done : w.reserve heap (r.requiredSize true) = some w') :
    Prepared heap w r (w'.placeWriter w.next.block r true) ⟨w'.next.block, w.lastWriter.off⟩
      (r.cmd.layout.getPos w.next.mem w.lastWriter.off)
      (r.cmd.layout.getSz w.next.mem w.lastWriter.off) := by
  obtain ⟨kept, reserved⟩ := reserve_some done valid.next
  have named' := named.moved (reserve_moves done)
  have last := valid.last appends
  have moved := last.moved reserved.len reserved.kept
  have ends := last.2
  have sz := r.cmd.layout_sz
  have pos := r.cmd.layout_pos
  unfold Layout.chunkSize at ends
  rw [placeWriter_append kept last.1]
  refine ⟨⟨reserved.within, named'.next, rfl, ?_, rfl⟩, ?_, ?_, ?_, ?_, ?_, ?_⟩
  · dsimp only
    rw [reserved.len]
    omega
  · dsimp only
    rw [Wbuf.packStart, appends, Wcmd.overhead, if_pos rfl, reserved.len, Nat.add_zero]
  · dsimp only
    rw [appends]
    have := reserved.room
    have := reserved.len
    have := reserved.within.len
    omega
  · dsimp only
    rw [kept]
  · rw [appends, if_pos rfl]
  · exact loadLe_congr fun i _ upper => reserved.kept i (by dsimp only at upper; omega)
  · exact loadLe_congr fun i _ upper => reserved.kept i (by dsimp only at upper; omega)

/-- The size that is found is the size that was meant, or it was there before. -/
theorem size_found_iff {size n : ℕ} {k : Wcmd} (stale : ℕ) (small : size + n < 2 ^ 63)
    (wide : k.layout.width = 8) :
    (if intOfSize n < 0 then stale else (size + (intOfSize n).toNat) % 256 ^ k.layout.width) =
        size + n ↔ n < 2 ^ 31 ∨ intOfSize n < 0 ∧ stale = size + n := by
  have upper := (intOfSize_bounds n).2
  by_cases negative : intOfSize n < 0
  · rw [if_pos negative]
    constructor
    · exact fun same => .inr ⟨negative, same⟩
    · rintro (less | ⟨-, same⟩)
      · rw [intOfSize_eq less] at negative
        omega
      · exact same
  · have mod : (size + (intOfSize n).toNat) % 256 ^ k.layout.width =
        size + (intOfSize n).toNat := by
      have lower := intOfSize_le n
      rw [wide]
      exact Nat.mod_eq_of_lt (by omega)
    rw [if_neg negative, mod]
    constructor
    · intro same
      refine .inl ?_
      omega
    · rintro (less | ⟨wrong, -⟩)
      · rw [intOfSize_eq less]
        rfl
      · exact absurd wrong negative

theorem Request.packing_width {packing : Packing} (packs : r.packing? = some packing) :
    r.cmd.layout.width = 8 := by
  cases r with
  | obj packing => rfl
  | objDgram packing addr => rfl
  | _ => cases packs

theorem Prepared.headed_iff {s : Wbuf} {pos stale base size : ℕ} {packing : Packing}
    (prepared : Prepared heap w r s p pos stale) (packs : r.packing? = some packing)
    (ok : packing.ok = true)
    (pos_eq : pos = if w.appends r then r.cmd.layout.getPos w.next.mem w.lastWriter.off else 0)
    (base_eq : base = if w.appends r then r.cmd.layout.getSz w.next.mem w.lastWriter.off else 0)
    (size_eq : r.cmd.layout.getSz (s.pack heap packing).1.next.mem p.off = stale → size = base)
    (base_le : base ≤ s.next.len)
    (accident : ∀ n : ℕ, intOfSize n < 0 ∧ stale = base + n ↔ w.Accident heap r n) :
    let packed := s.pack heap packing
    let out := if packed.2 < 0 then packed.1
      else packed.1.setSz r.cmd.layout p (size + packed.2.toNat)
    w.Headed r (out.next.len - w.packStart r) out ↔ w.PacksInPlace heap r packing := by
  intro packed out
  unfold PacksInPlace
  rw [← prepared.len, ← prepared.limit, ← prepared.blocks]
  rcases prepared.starts.packed heap ok size with
    ⟨n, equal, bound, len, writer, pos_out, size_packed, size_out⟩ | ⟨moved, left⟩
  · have size_base := size_eq (size_packed.trans prepared.size)
    have small : base + n < 2 ^ 63 := by
      have limit := prepared.starts.within.small
      omega
    have found := size_found_iff stale small (Request.packing_width packs)
    have len_out : out.next.len = s.next.len + n := len
    have writer_out : out.lastWriter = ⟨out.next.block, p.off⟩ := writer
    rw [len_out, Nat.add_sub_cancel_left]
    constructor
    · intro headed
      refine ⟨n, equal, ?_⟩
      have size := headed.size
      rw [writer_out, ← base_eq] at size
      have both := size_out.symm.trans size
      rw [size_base, prepared.size] at both
      exact (found.mp both).imp_right (accident n).mp
    · rintro ⟨n', equal', fine⟩
      have same : n' = n := by
        rw [equal] at equal'
        exact Nat.add_left_cancel (Option.some.inj equal').symm
      subst same
      refine ⟨?_, ?_, ?_⟩
      · rw [writer_out, prepared.off]
      · rw [writer_out, ← pos_eq, ← prepared.pos]
        exact pos_out
      · have right := found.mpr (fine.imp_right (accident n').mpr)
        rw [← prepared.size, ← size_base] at right
        rw [writer_out, ← base_eq, ← size_base]
        exact size_out.trans right
  · refine iff_of_false (fun headed => left ?_) ?_
    · have writer : out.lastWriter = ⟨out.next.block, _⟩ := headed.here
      change out.lastWriter.block = out.next.block
      rw [writer]
    · rintro ⟨n, equal, -⟩
      rw [moved] at equal
      cases equal

/-- After an object has been sent, the header in the current memory of the
buffer says how much was packed, and `p_last_writer` points to it, exactly if
the packer has never moved the buffer. -/
theorem obj_header_iff {packing : Packing} {out : Wbuf × ℤ} (valid : w.Valid)
    (named : w.Named) (packs : r.packing? = some packing) (ok : packing.ok = true)
    (done : w.written heap r = some out) (attached : Bool) :
    w.Headed r (out.1.next.len - w.packStart r) (w.sendraw heap r attached).1 ↔
      w.PacksInPlace heap r packing := by
  rw [headed_sendraw done]
  obtain ⟨w', reserved, rfl⟩ := Option.map_eq_some_iff.mp done
  obtain ⟨-, reserve⟩ := reserve_some reserved valid.next
  cases appends : w.appends r with
  | false =>
      rw [appends] at reserved
      have prepared := prepared_new valid named packs appends reserved
      have accident : ∀ n : ℕ, intOfSize n < 0 ∧
          r.cmd.layout.getSz w'.next.mem (w.next.len + 1) = 0 + n ↔ w.Accident heap r n := by
        intro n
        rw [Nat.zero_add]
        constructor
        · rintro ⟨negative, same⟩
          exact ⟨appends, negative, w', reserved, same⟩
        · rintro ⟨-, negative, w₁, reserved₁, same⟩
          obtain rfl := Option.some.inj (reserved.symm.trans reserved₁)
          exact ⟨negative, same⟩
      have base : 0 = if w.appends r then r.cmd.layout.getSz w.next.mem w.lastWriter.off else 0 := by
        rw [appends]
        rfl
      have iff := prepared.headed_iff packs ok (by rw [appends]; rfl) base (fun _ => rfl)
        (Nat.zero_le _) accident
      have writer : (w'.placeWriter w.next.block r false).lastWriter =
          ⟨w'.next.block, w'.next.len + 1⟩ := by
        dsimp only [placeWriter]
        rw [if_neg Bool.false_ne_true]
        dsimp only [lastP, push, Buf.commit]
        rw [put_block, put_len]
      dsimp only [writeChunk]
      rw [writer, packs]
      dsimp only
      rw [writeObj_new_eq]
      exact iff
  | true =>
      rw [appends] at reserved
      have last := valid.last appends
      have prepared := prepared_append valid named appends reserved
      have writer : (w'.placeWriter w.next.block r true).lastWriter =
          ⟨w'.next.block, w.lastWriter.off⟩ := prepared.starts.writer
      have unit := Request.packing_unit packs
      have le : r.cmd.layout.getSz w.next.mem w.lastWriter.off ≤
          (w'.placeWriter w.next.block r true).next.len := by
        have ends := last.2
        unfold Layout.chunkSize at ends
        rw [prepared.len, packStart, appends, Wcmd.overhead, if_pos rfl, Nat.add_zero]
        rw [unit, Nat.one_mul] at ends
        omega
      have accident : ∀ n : ℕ, intOfSize n < 0 ∧
          r.cmd.layout.getSz w.next.mem w.lastWriter.off =
            r.cmd.layout.getSz w.next.mem w.lastWriter.off + n ↔ w.Accident heap r n := by
        intro n
        constructor
        · rintro ⟨negative, same⟩
          obtain rfl : n = 0 := by omega
          exact absurd negative (by decide)
        · rintro ⟨wrong, -⟩
          rw [appends] at wrong
          cases wrong
      have iff := prepared.headed_iff packs ok (by rw [appends]; rfl) (by rw [appends]; rfl)
        (fun same => same) le accident
      dsimp only [writeChunk]
      rw [writer, packs]
      dsimp only
      rw [writeObj_append_eq]
      exact iff

/-- The condition is met in the first place. -/
theorem obj_header_iff_init :
    (Wbuf.init (fun _ => 0) fun _ => 0).Headed
        (.obj ⟨[.push [1, 2], .expandBuffer 100, .push [3]], true⟩) 3
        ((Wbuf.init (fun _ => 0) fun _ => 0).sendraw (fun _ => none)
          (.obj ⟨[.push [1, 2], .expandBuffer 100, .push [3]], true⟩) true).1 := by
  have done : (Wbuf.init (fun _ => 0) fun _ => 0).written (fun _ => none)
      (.obj ⟨[.push [1, 2], .expandBuffer 100, .push [3]], true⟩) = some _ := rfl
  have iff := obj_header_iff (init_valid _ _) (init_named _ _) rfl rfl done true
  exact iff.mpr ⟨3, by decide, .inl (by decide)⟩

/-- A packer that asks for more than the block of 16 KB has. -/
theorem obj_header_lost :
    ¬ (Wbuf.init (fun _ => 0) fun _ => 0).Headed
      (.obj ⟨[.push [1], .expandBuffer 20000, .push [2]], true⟩) 2
      ((Wbuf.init (fun _ => 0) fun _ => 0).sendraw (fun _ => some fun _ => 0)
        (.obj ⟨[.push [1], .expandBuffer 20000, .push [2]], true⟩) true).1 := by
  intro headed
  have block := congrArg Ptr.block headed.here
  exact absurd block (by decide +kernel)

end Wbuf

end Cyue.Net
