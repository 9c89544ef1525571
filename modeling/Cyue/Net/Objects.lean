import Cyue.Net.Mixed

/-!
# Objects in place

A packer that stays in its block leaves the chunk that a plain send of its bytes would
leave: a new one, or more bytes of the raw chunk at the end of the buffer.  Runs of sends
of all six kinds and of write ticks then hand over what was sent, once and in order.
-/

namespace Cyue.Net

open Bytes Memory

/-! ## Packers that stay -/

def PackOp.bytes : PackOp → List UInt8
  | .push bytes | .fill bytes => bytes
  | .expandBuffer _ => []

def Packing.bytes (packing : Packing) : List UInt8 := packing.ops.flatMap PackOp.bytes

/-- There is room for all that the packer writes and asks for. -/
def PackOp.Stays : ℕ → List PackOp → Prop
  | _, [] => True
  | room, .push bytes :: ops => bytes.length < room ∧ Stays (room - bytes.length) ops
  | room, .expandBuffer sz :: ops => sz ≤ room ∧ Stays room ops
  | room, .fill bytes :: ops => bytes.length ≤ room ∧ Stays (room - bytes.length) ops

instance PackOp.decidableStays : ∀ room ops, Decidable (Stays room ops)
  | _, [] => isTrue trivial
  | room, .push bytes :: ops =>
      @instDecidableAnd _ _ _ (decidableStays (room - bytes.length) ops)
  | room, .expandBuffer _ :: ops => @instDecidableAnd _ _ _ (decidableStays room ops)
  | room, .fill bytes :: ops =>
      @instDecidableAnd _ _ _ (decidableStays (room - bytes.length) ops)

def Request.plain : Request → Request
  | .obj packing => .raw packing.bytes
  | .objDgram packing addr => .dgram packing.bytes addr
  | r => r

/-- What a send asks to be handed over, with the bytes of its packer. -/
def Request.content (r : Request) : List Atom := r.plain.atoms

@[simp]
theorem Request.plain_cmd (r : Request) : r.plain.cmd = r.cmd := by
  cases r with
  | _ => rfl

@[simp]
theorem Request.plain_address (r : Request) : r.plain.address? = r.address? := by
  cases r with
  | _ => rfl

theorem Request.plain_of_none {r : Request} (plain : r.packing? = none) : r.plain = r := by
  cases r with
  | obj packing => cases plain
  | objDgram packing addr => cases plain
  | _ => rfl

theorem Request.plain_image {r : Request} {packing : Packing} (packs : r.packing? = some packing) :
    r.plain.image = packing.bytes ∧ r.plain.count = packing.bytes.length := by
  cases r with
  | obj packing =>
      cases packs
      exact ⟨rfl, rfl⟩
  | objDgram packing addr =>
      cases packs
      exact ⟨rfl, rfl⟩
  | _ => cases packs

namespace Wbuf

variable {heap : Heap} {w w' : Wbuf} {p : Ptr} {r : Request} {low off : ℕ} {packing : Packing}

/-- The bytes at the end of the buffer. -/
theorem append_load {bytes : List UInt8} (room : w.next.len + bytes.length ≤ w.next.limit) :
    load (w.append bytes).next.mem w.next.len bytes.length = bytes := by
  have stored : w.put w.lastP bytes = w.stored w.next.len bytes := put_inside rfl room
  unfold append
  rw [stored]
  exact load_store _ _ _

/-- A request that finds its room writes its bytes behind those in use. -/
theorem packOp_stays (heap : Heap) (within : w.next.Within) (behind : low ≤ w.next.len) {op : PackOp}
    {ops : List PackOp} (stays : PackOp.Stays (w.next.limit - w.next.len) (op :: ops)) :
    Grows low op.bytes.length w (packOp heap w op) ∧
      load (packOp heap w op).next.mem w.next.len op.bytes.length = op.bytes ∧
      w.next.len + op.bytes.length ≤ w.next.limit ∧
      PackOp.Stays (w.next.limit - (w.next.len + op.bytes.length)) ops := by
  have len := within.len
  cases op with
  | push bytes =>
      obtain ⟨room, rest⟩ := stays
      rw [← within.available] at room
      have fits : w.next.len + bytes.length ≤ w.next.limit := by
        rw [within.available] at room
        omega
      rw [packOp, if_pos room]
      rw [Nat.sub_sub] at rest
      exact ⟨append_grows low fits behind, append_load fits, fits, rest⟩
  | expandBuffer sz =>
      obtain ⟨room, rest⟩ := stays
      rw [packOp, reserve_room heap within room, Option.getD_some]
      exact ⟨{ Grows.refl low w with }, rfl, len, rest⟩
  | fill bytes =>
      obtain ⟨room, rest⟩ := stays
      have fits : w.next.len + bytes.length ≤ w.next.limit := by omega
      have grows : Grows low bytes.length _ (append { w with blocks := w.blocks + 1 } bytes) :=
        append_grows low fits behind
      rw [packOp, reserve_room heap within room]
      rw [Nat.sub_sub] at rest
      exact ⟨{ grows with }, append_load (w := { w with blocks := w.blocks + 1 }) fits, fits, rest⟩

/-- A packer that stays writes its bytes and nothing else. -/
theorem packOps_stays (heap : Heap) {ops : List PackOp} (within : w.next.Within)
    (behind : low ≤ w.next.len) (stays : PackOp.Stays (w.next.limit - w.next.len) ops) :
    Grows low (ops.flatMap PackOp.bytes).length w (ops.foldl (packOp heap) w) ∧
      load (ops.foldl (packOp heap) w).next.mem w.next.len (ops.flatMap PackOp.bytes).length =
        ops.flatMap PackOp.bytes ∧
      w.next.len + (ops.flatMap PackOp.bytes).length ≤ w.next.limit := by
  induction ops generalizing w low with
  | nil => exact ⟨Grows.refl low w, rfl, within.len⟩
  | cons op ops ih =>
      obtain ⟨first, written, fits, rest⟩ := packOp_stays heap within behind stays
      have within' := first.within within fits
      rw [← first.limit, ← first.len] at rest
      have more : Grows low (ops.flatMap PackOp.bytes).length (packOp heap w op) _ :=
        (ih within' (by rw [first.len]; omega) rest).1
      obtain ⟨others, written', fits'⟩ := ih within' le_rfl rest
      rw [first.len, first.limit] at fits'
      rw [first.len] at written'
      rw [List.flatMap_cons, List.length_append, List.foldl_cons, load_add, written']
      refine ⟨first.trans more, ?_, by omega⟩
      refine congrArg (· ++ _) ((load_congr fun i _ upper => ?_).trans written)
      rw [first.len] at others
      exact others.kept i upper

/-- A packer that stays and succeeds. -/
theorem pack_stays (heap : Heap) (within : w.next.Within) (behind : low ≤ w.next.len)
    (stays : PackOp.Stays (w.next.limit - w.next.len) packing.ops) (ok : packing.ok = true)
    (int : packing.bytes.length < 2 ^ 31) :
    Grows low packing.bytes.length w (w.pack heap packing).1 ∧
      load (w.pack heap packing).1.next.mem w.next.len packing.bytes.length = packing.bytes ∧
      w.next.len + packing.bytes.length ≤ w.next.limit ∧
      (w.pack heap packing).2 = packing.bytes.length := by
  obtain ⟨grows, written, fits⟩ := packOps_stays heap within behind stays
  refine ⟨grows, written, fits, ?_⟩
  have length : (packing.ops.foldl (packOp heap) w).next.len - w.next.len =
      packing.bytes.length := by
    rw [grows.len, Nat.add_sub_cancel_left]
    rfl
  unfold pack
  dsimp only
  rw [ok, if_pos rfl, length, intOfSize_eq int]

/-! ## The writers of objects in memory -/

/-- The head of a new chunk: the position is zero, and a datagram has its address. -/
theorem head_grows (here : p.block = w.next.block) (room : p.off + r.cmd.layout.header ≤ w.next.limit) :
    Grows p.off r.cmd.layout.header w (w.head r p) ∧
      (w.head r p).next.mem =
        storeLe (store w.next.mem p.off ((r.address?.map Address.image).getD []))
          (p.off + r.cmd.layout.pos) r.cmd.layout.width 0 := by
  have fits := r.cmd.layout_pos
  have address : w.setAddr p r.address? = _ := setAddr_mem here room
  have addr := setAddr_grows here (r := r) room le_rfl
  have committed := addr.trans (commit_grows p.off r.cmd.layout.header _)
  have all := committed.trans (setPos_grows (n := 0) (k := r.cmd) (here.trans committed.block.symm)
    (by rwa [committed.limit]) le_rfl)
  rw [Nat.zero_add, Nat.add_zero] at all
  refine ⟨all, ?_⟩
  let addressed := w.stored p.off ((r.address?.map Address.image).getD [])
  have sent : (addressed.commit r.cmd.layout.header).setPos r.cmd.layout p 0 =
      (addressed.commit r.cmd.layout.header).stored (p.off + r.cmd.layout.pos)
        (leBytes r.cmd.layout.width 0) :=
    put_inside here (by rw [leBytes_length]; change _ ≤ w.next.limit; dsimp only; omega)
  rw [head, address, sent]
  rfl

/-- The size is the last thing that a writer of an object sets. -/
theorem setSz_mem {k : Wcmd} {n : ℕ} (here : p.block = w.next.block)
    (room : p.off + k.layout.header ≤ w.next.limit) :
    (w.setSz k.layout p n).next.mem =
      storeLe w.next.mem (p.off + k.layout.sz) k.layout.width n := by
  have fits := k.layout_sz
  rw [setSz, put_inside (p := ⟨p.block, p.off + k.layout.sz⟩) here
    (by rw [leBytes_length]; dsimp only; omega)]
  rfl

section new

variable (within : w.next.Within) (packs : r.packing? = some packing) (formed : r.plain.Formed)
  (ok : packing.ok = true) (int : packing.bytes.length < 2 ^ 31) (code : w.next.mem off = r.cmd.code)
  (here : p = ⟨w.next.block, off + 1⟩) (behind : w.next.len = off + 1)
  (room : off + 1 + r.cmd.layout.header ≤ w.next.limit)
  (stays : PackOp.Stays (w.next.limit - (off + 1 + r.cmd.layout.header)) packing.ops)

include within packs formed ok int code here behind room stays

variable (heap) in
/-- The writer of an object in place leaves the chunk of the plain send. -/
theorem writeObj_new_at :
    Grows (off + 1) (r.cmd.layout.header + packing.bytes.length) w (w.writeObj heap r packing p false).1 ∧
      off + 1 + r.cmd.layout.header + packing.bytes.length ≤ w.next.limit ∧
      (w.writeObj heap r packing p false).2 = packing.bytes.length ∧
      r.plain.chunk.At (w.writeObj heap r packing p false).1.next.mem off := by
  have fits_sz := r.cmd.layout_sz
  have fits_pos := r.cmd.layout_pos
  have apart := r.cmd.layout_apart
  have front := address_front (r := r)
  have width := Request.packing_width packs
  have small := within.small
  obtain ⟨image, count⟩ := Request.plain_image packs
  subst here
  obtain ⟨headed, mem⟩ := head_grows (w := w) (p := ⟨w.next.block, off + 1⟩) rfl room
  have start : (w.head r ⟨w.next.block, off + 1⟩).next.len = off + 1 + r.cmd.layout.header := by
    rw [headed.len, behind]
  have within' := headed.within within (by rw [behind]; exact room)
  rw [← start, ← headed.limit] at stays
  obtain ⟨packed, written, fits, result⟩ := pack_stays heap within' le_rfl stays ok int
  have after : off + 1 ≤ (w.head r ⟨w.next.block, off + 1⟩).next.len := by omega
  obtain ⟨more, -, -, -⟩ := pack_stays heap within' after stays ok int
  rw [start] at packed written fits
  rw [headed.limit] at fits
  have both := headed.trans more
  have mem_out : (w.writeObj heap r packing ⟨w.next.block, off + 1⟩ false).1.next.mem =
      storeLe ((w.head r ⟨w.next.block, off + 1⟩).pack heap packing).1.next.mem
        (off + 1 + r.cmd.layout.sz) r.cmd.layout.width packing.bytes.length := by
    rw [writeObj_new_eq]
    dsimp only
    rw [result, if_neg (by omega), Int.toNat_natCast, Nat.zero_add]
    exact setSz_mem both.block.symm (by rw [both.limit]; exact room)
  have out : Grows (off + 1) (r.cmd.layout.header + packing.bytes.length) w
      (w.writeObj heap r packing ⟨w.next.block, off + 1⟩ false).1 := by
    rw [writeObj_new_eq]
    dsimp only
    rw [result, if_neg (by omega)]
    exact both.trans (setSz_grows (k := r.cmd) both.block.symm (by rw [both.limit]; exact room) le_rfl)
  refine ⟨out, fits, ?_, ?_⟩
  · rw [writeObj_result, if_neg Bool.false_ne_true]
    exact result
  generalize (w.writeObj heap r packing ⟨w.next.block, off + 1⟩ false).1.next.mem = m at mem_out ⊢
  have kept : ∀ i, i < off + 1 + r.cmd.layout.header →
      ((w.head r ⟨w.next.block, off + 1⟩).pack heap packing).1.next.mem i =
        (w.head r ⟨w.next.block, off + 1⟩).next.mem i := packed.kept
  generalize ((w.head r ⟨w.next.block, off + 1⟩).pack heap packing).1.next.mem = m₁ at mem_out kept written
  generalize (w.head r ⟨w.next.block, off + 1⟩).next.mem = m₀ at mem kept
  generalize address_eq : (r.address?.map Address.image).getD [] = address at front mem
  subst mem_out
  exact {
    code := by
      rw [storeLe, store_of_lt (by omega), kept off (by omega), mem, storeLe,
        store_of_lt (by dsimp only; omega), store_of_lt (by dsimp only; omega), code, Request.chunk_cmd,
        Request.plain_cmd]
    sz := by
      rw [Request.chunk_cmd, Request.plain_cmd, Request.chunk_sz, count]
      exact loadLe_storeLe (by rw [width]; omega)
    pos := by
      have same : loadLe m₁ (off + 1 + r.cmd.layout.pos) r.cmd.layout.width =
          loadLe m₀ (off + 1 + r.cmd.layout.pos) r.cmd.layout.width :=
        loadLe_congr fun i _ upper => kept i (by omega)
      rw [Request.chunk_cmd, Request.plain_cmd, Request.chunk_pos, Layout.getPos,
        loadLe_storeLe_of_disjoint (by omega), same, mem]
      exact loadLe_storeLe (Nat.pow_pos (by decide))
    elements := by
      refine Request.chunk_elements formed ?_ fun addr some => ?_
      · rw [Request.plain_cmd, image, storeLe,
          load_store_of_disjoint (.inr (by rw [leBytes_length]; omega))]
        exact written
      · rw [Request.plain_address] at some
        have same : address = addr.image := by rw [← address_eq, some]; rfl
        have length := addr.size
        have header := Request.address_header some
        have first : load m₁ (off + 1) 24 = load m₀ (off + 1) 24 :=
          load_congr fun i _ upper => kept i (by omega)
        rw [same] at front mem
        rw [storeLe, load_store_of_disjoint (.inl (by omega)), first, mem, storeLe,
          load_store_of_disjoint (.inl (by dsimp only; omega)), ← addr.size]
        exact load_store _ _ _
    few := by
      rw [Request.chunk_cmd, Request.plain_cmd, Request.chunk_sz, count, width]
      omega
    within := by rw [Request.chunk_pos]; exact Nat.zero_le _
    bounded := Request.chunk_bounded formed }

end new

theorem writeObj_append_done {n size : ℕ} (result : (w.pack heap packing).2 = n)
    (old : r.cmd.layout.getSz (w.pack heap packing).1.next.mem p.off = size) :
    w.writeObj heap r packing p true =
      ((w.pack heap packing).1.setSz r.cmd.layout p (size + n), (n : ℤ)) := by
  have positive : ¬ ((n : ℤ) < 0) := by omega
  unfold writeObj
  dsimp only
  rw [if_pos rfl, result, if_neg positive, old, Int.toNat_natCast]

section append

variable {bytes : List UInt8} {pos : ℕ} (within : w.next.Within) (ok : packing.ok = true)
  (int : packing.bytes.length < 2 ^ 31) (at' : (Chunk.raw bytes pos).At w.next.mem off)
  (ends : w.next.len = off + 1 + 16 + bytes.length)
  (stays : PackOp.Stays (w.next.limit - w.next.len) packing.ops)

include within ok int at' ends stays

/-- What the writer of an object that appends comes to. -/
theorem writeObj_append_raw :
    w.writeObj heap (.obj packing) packing ⟨w.next.block, off + 1⟩ true =
      ((w.pack heap packing).1.setSz Wcmd.raw.layout ⟨w.next.block, off + 1⟩
        (bytes.length + packing.bytes.length), (packing.bytes.length : ℤ)) := by
  obtain ⟨packed, -, -, result⟩ := pack_stays heap within le_rfl stays ok int
  have old : Wcmd.raw.layout.getSz (w.pack heap packing).1.next.mem (off + 1) = bytes.length := by
    refine (loadLe_congr fun i _ upper => packed.kept i ?_).trans at'.sz
    change i < off + 1 + 0 + 8 at upper
    omega
  exact writeObj_append_done result old

variable (heap) in
/-- The writer of an object that appends makes the raw chunk at the end longer. -/
theorem writeObj_append_at :
    let out := w.writeObj heap (.obj packing) packing ⟨w.next.block, off + 1⟩ true
    Grows (off + 1) packing.bytes.length w out.1 ∧
      w.next.len + packing.bytes.length ≤ w.next.limit ∧ out.2 = packing.bytes.length ∧
      (Chunk.raw (bytes ++ packing.bytes) pos).At out.1.next.mem off := by
  have small := within.small
  have after : off + 1 ≤ w.next.len := by omega
  rw [writeObj_append_raw within ok int at' ends stays]
  obtain ⟨packed, written, fits, -⟩ := pack_stays heap within le_rfl stays ok int
  obtain ⟨more, -, -, -⟩ := pack_stays heap within after stays ok int
  have room : off + 1 + Wcmd.raw.layout.header ≤ (w.pack heap packing).1.next.limit := by
    rw [more.limit]
    change off + 1 + 16 ≤ _
    omega
  have sized := setSz_grows (k := .raw) (n := bytes.length + packing.bytes.length)
    (p := ⟨w.next.block, off + 1⟩) more.block.symm room le_rfl
  refine ⟨more.trans sized, fits, rfl, ?_⟩
  dsimp only
  rw [setSz_mem (k := .raw) more.block.symm room]
  have kept : ∀ i, i < w.next.len → (w.pack heap packing).1.next.mem i = w.next.mem i := packed.kept
  generalize (w.pack heap packing).1.next.mem = m₁ at written kept
  have length : (bytes ++ packing.bytes).length = bytes.length + packing.bytes.length :=
    List.length_append
  exact {
    code := by
      have before : off < off + 1 + Wcmd.raw.layout.sz := by omega
      rw [storeLe, store_of_lt before, kept off (by omega)]
      exact at'.code
    sz := by
      refine (loadLe_storeLe ?_).trans length.symm
      change _ < 256 ^ 8
      omega
    pos := by
      have apart : off + 1 + Wcmd.raw.layout.sz + 8 ≤ off + 1 + Wcmd.raw.layout.pos := Nat.le_refl _
      refine (loadLe_storeLe_of_disjoint (.inr apart)).trans
        ((loadLe_congr fun i _ upper => kept i ?_).trans at'.pos)
      change i < off + 1 + 8 + 8 at upper
      omega
    elements := by
      have last : off + 1 + 16 + bytes.length = w.next.len := ends.symm
      have front : load m₁ (off + 1 + 16) bytes.length = bytes :=
        (load_congr fun i _ upper => kept i (by omega)).trans at'.elements
      have apart : off + 1 + Wcmd.raw.layout.sz + (leBytes 8 (bytes.length + packing.bytes.length)).length ≤
          off + 1 + 16 := by
        rw [leBytes_length]
        change off + 1 + 0 + 8 ≤ _
        omega
      refine (load_store_of_disjoint (.inr apart)).trans ?_
      rw [length, load_add, last, written, front]
    few := by
      change (bytes ++ packing.bytes).length < 256 ^ 8
      omega
    within := by
      have inside : pos ≤ bytes.length := at'.within
      change pos ≤ (bytes ++ packing.bytes).length
      omega
    bounded := trivial }

end append

/-! ## Sends of objects -/

variable {cs : List Chunk} {attached : Bool}

/-- The send of an object is taken on: its packer stays and succeeds, and the poller takes the
buffer on.  A send that appends finds the last writer to be a raw one. -/
structure TakesObject (heap : Heap) (w : Wbuf) (r : Request) (packing : Packing) (attached : Bool) :
    Prop where
  formed : r.plain.Formed
  ok : packing.ok = true
  int : packing.bytes.length < 2 ^ 31
  stays : w.reserve heap (r.requiredSize (w.appends r)) ≠ none →
    PackOp.Stays (w.next.roomFor (r.requiredSize (w.appends r)) - r.cmd.overhead (w.appends r))
      packing.ops
  attaches : w.attached = true ∨ attached = true
  own : w.appends r = true → w.next.mem (w.lastWriter.off - 1) = r.cmd.code

def TakesAny (heap : Heap) (w : Wbuf) (r : Request) (attached : Bool) : Prop :=
  match r.packing? with
  | none => w.Takes heap r attached
  | some packing => w.TakesObject heap r packing attached

variable (heap) in
/-- A new chunk of an object goes behind the others. -/
theorem writeObj_new_holds (org : ℕ) (holds : w.next.Holds cs) (packs : r.packing? = some packing)
    (formed : r.plain.Formed) (ok : packing.ok = true) (int : packing.bytes.length < 2 ^ 31)
    (room : r.requiredSize false ≤ w.next.limit - w.next.len)
    (stays : PackOp.Stays (w.next.limit - w.next.len - r.cmd.overhead false) packing.ops) :
    let placed := w.placeWriter org r false
    let out := placed.writeObj heap r packing placed.lastWriter false
    out.1.next.Holds (cs ++ [r.plain.chunk]) ∧ out.1.Tail (cs ++ [r.plain.chunk]) ∧
      out.1.attached = w.attached ∧ out.2 = packing.bytes.length := by
  obtain ⟨within, row, len⟩ := holds
  have header := Request.header_lt packs
  have limit := within.len
  have pushed := push_grows (w := w) w.next.len r.cmd.code (by omega) le_rfl
  have code : (w.push r.cmd.code).next.mem w.next.len = r.cmd.code := by
    have stored : w.put w.lastP [r.cmd.code] = _ := put_inside rfl (by
      change w.next.len + 1 ≤ w.next.limit
      omega)
    unfold push
    rw [stored]
    exact store_get w.next.mem w.next.len (i := 0) (Nat.zero_lt_one)
  have flag := placeWriter_attached org w r false
  generalize placed_eq : w.placeWriter org r false = placed at flag
  have next : placed.next = (w.push r.cmd.code).next := by
    rw [← placed_eq, placeWriter, if_neg Bool.false_ne_true]
  have writer : placed.lastWriter = ⟨placed.next.block, w.next.len + 1⟩ := by
    rw [next, ← pushed.len, ← placed_eq, placeWriter, if_neg Bool.false_ne_true]
    rfl
  have within' : placed.next.Within := next ▸ pushed.within within (by omega)
  have limit' : placed.next.limit = w.next.limit := next ▸ pushed.limit
  have overhead : r.cmd.overhead false = 1 + r.cmd.layout.header := rfl
  rw [overhead, Nat.sub_sub, ← Nat.add_assoc, ← limit'] at stays
  rw [← next] at code
  obtain ⟨grows, bound, result, last⟩ := writeObj_new_at heap within' packs formed ok int
    code writer (next ▸ pushed.len) (by rw [limit']; omega) stays
  have len' : placed.next.len = w.next.len + 1 := next ▸ pushed.len
  have size : r.plain.chunk.size = 1 + (r.cmd.layout.header + packing.bytes.length) := by
    rw [Chunk.size, Request.chunk_cmd, Request.chunk_sz, (Request.plain_image packs).2,
      Request.plain_cmd, Request.packing_unit packs, Nat.one_mul]
  rw [len] at last
  refine ⟨.of_last ?_ ?_ last ?_, ⟨cs, r.plain.chunk, rfl, ?_⟩, grows.attached.trans flag, result⟩
  · exact grows.within within' (by omega)
  · refine row.kept fun i _ inside => ?_
    rw [Nat.zero_add, ← len] at inside
    rw [grows.kept i (by omega), next]
    exact pushed.kept i inside
  · rw [grows.len, len', size, len]
    omega
  · rw [grows.lastWriter, grows.block, writer, len]

variable (heap) in
/-- The raw chunk at the end grows by the bytes of an object. -/
theorem writeObj_append_holds {front : List Chunk} {bytes : List UInt8} {pos : ℕ}
    (holds : w.next.Holds (front ++ [.raw bytes pos])) (ok : packing.ok = true)
    (writer : w.lastWriter = ⟨w.next.block, Chunk.format.total front + 1⟩)
    (int : packing.bytes.length < 2 ^ 31)
    (stays : PackOp.Stays (w.next.limit - w.next.len) packing.ops) :
    let out := w.writeObj heap (.obj packing) packing w.lastWriter true
    out.1.next.Holds (front ++ [.raw (bytes ++ packing.bytes) pos]) ∧
      out.1.Tail (front ++ [.raw (bytes ++ packing.bytes) pos]) ∧
      out.1.attached = w.attached ∧ out.2 = packing.bytes.length := by
  have within := holds.within
  obtain ⟨before, last, len⟩ := holds.last
  have size : ∀ p : List UInt8, (Chunk.raw p pos).size = 1 + (16 + p.length) := by
    intro p
    change 1 + (16 + 1 * p.length) = _
    rw [Nat.one_mul]
  rw [size] at len
  rw [writer]
  obtain ⟨grows, bound, result, grown⟩ := writeObj_append_at heap within ok int last
    (by omega) stays
  refine ⟨.of_last (grows.within within bound) ?_ grown ?_, ⟨front, _, rfl, ?_⟩, grows.attached,
    result⟩
  · exact before.kept fun i _ inside => grows.kept i (by omega)
  · rw [grows.len, size, List.length_append, len]
    omega
  · rw [grows.lastWriter, grows.block, writer]

/-- What the writer of an object leaves in the buffer. -/
theorem written_object_queues (queues : w.Queues cs) (packs : r.packing? = some packing)
    (takes : w.TakesObject heap r packing attached)
    (done : w.reserve heap (r.requiredSize (w.appends r)) = some w') :
    let placed := w'.placeWriter w.next.block r (w.appends r)
    let out := placed.writeObj heap r packing placed.lastWriter (w.appends r)
    (∃ cs', out.1.next.Holds cs' ∧ out.1.Tail cs' ∧
      Chunk.pendings cs' = Chunk.pendings cs ++ r.content) ∧ out.1.attached = w.attached ∧
      out.2 = packing.bytes.length := by
  obtain ⟨kept, reserved⟩ := reserve_some done queues.holds.within
  have holds := holds_reserved queues.holds reserved
  have flag : w'.attached = w.attached := by rw [kept]
  have stays := takes.stays (by rw [done]; exact Option.some_ne_none _)
  have enough := Buf.roomFor_enough queues.holds.within (r.requiredSize (w.appends r))
  rw [← reserved.room] at stays enough
  cases appends : w.appends r with
  | false =>
      rw [appends] at stays enough
      obtain ⟨grown, tail, kept, result⟩ := writeObj_new_holds heap w.next.block holds packs
        takes.formed takes.ok takes.int enough stays
      refine ⟨⟨_, grown, tail, ?_⟩, kept.trans flag, result⟩
      rw [pendings_snoc, Request.chunk_pending takes.formed]
      rfl
  | true =>
      obtain ⟨stream, last⟩ := Bool.and_eq_true_iff.mp appends
      have some : w.lastWcmd ≠ .num := of_decide_eq_true last ▸ Request.cmd_ne_num r
      obtain ⟨front, c, rfl, writer⟩ := queues.tail some
      obtain ⟨-, here, -⟩ := queues.holds.last
      have same : c.cmd = r.cmd := by
        have own := takes.own appends
        rw [writer] at own
        exact Wcmd.code_inj (here.code.symm.trans own)
      -- of the writers of objects only that of a stream appends
      obtain rfl : r = .obj packing := by
        cases r with
        | obj other =>
            cases packs
            rfl
        | objDgram other addr => cases stream
        | _ => cases packs
      obtain ⟨bytes, pos, rfl⟩ : ∃ bytes pos, c = .raw bytes pos := by
        cases c with
        | raw bytes pos => exact ⟨bytes, pos, rfl⟩
        | _ => cases same
      rw [appends] at stays
      change PackOp.Stays (w'.next.limit - w'.next.len - 0) packing.ops at stays
      rw [Nat.sub_zero] at stays
      rw [placeWriter_append kept (by rw [writer]), writer]
      obtain ⟨grown, tail, kept, result⟩ := writeObj_append_holds heap
        (w := { w' with lastWriter := ⟨w'.next.block, Chunk.format.total front + 1⟩ }) holds
        takes.ok rfl takes.int stays
      refine ⟨⟨_, grown, tail, ?_⟩, kept.trans flag, result⟩
      have more := Chunk.append_pending (c := .raw bytes pos) (r := .raw packing.bytes) trivial rfl rfl
        here.within
      rw [pendings_snoc, pendings_snoc, List.append_assoc]
      exact congrArg (_ ++ ·) more

theorem sendraw_object {out : Wbuf × ℤ} (packs : r.packing? = some packing) (attached : Bool)
    (done : w.reserve heap (r.requiredSize (w.appends r)) = some w')
    (written : (w'.placeWriter w.next.block r (w.appends r)).writeObj heap r packing
      (w'.placeWriter w.next.block r (w.appends r)).lastWriter (w.appends r) = out) :
    w.sendraw heap r attached =
      (if r.isStream then { out.1 with lastWcmd := r.cmd } else out.1).attach attached out.2 := by
  rw [sendraw_reserved attached done]
  dsimp only
  unfold writeChunk
  rw [packs]
  dsimp only
  rw [written]

/-- The send of an object adds the bytes of its packer to what waits, or it fails and adds
nothing. -/
theorem sendraw_object_queues (queues : w.Queues cs) (packs : r.packing? = some packing)
    (takes : w.TakesObject heap r packing attached) :
    (w.sendraw heap r attached).1.curr = w.curr ∧
      ∃ cs', (w.sendraw heap r attached).1.Queues cs' ∧ Chunk.pendings cs' =
        Chunk.pendings cs ++ if 0 ≤ (w.sendraw heap r attached).2 then r.content else [] := by
  refine ⟨(sendraw_moves heap w r attached).curr, ?_⟩
  cases done : w.reserve heap (r.requiredSize (w.appends r)) with
  | none =>
      have failed : w.sendraw heap r attached = ({ w with blocks := w.blocks + 1 }, -1) := by
        unfold sendraw
        simp only [done]
      rw [failed]
      exact ⟨cs, ⟨queues.holds, queues.tail⟩, (List.append_nil _).symm⟩
  | some w' =>
      obtain ⟨⟨cs', holds, tail, pendings⟩, flag, result⟩ :=
        written_object_queues queues packs takes done
      generalize out_eq : writeObj heap _ r packing _ _ = out at holds tail flag result
      rw [sendraw_object packs attached done out_eq]
      have after : ∀ w₁ : Wbuf, w₁.next = out.1.next → w₁.lastWriter = out.1.lastWriter →
          ∃ cs', w₁.Queues cs' ∧ Chunk.pendings cs' =
            Chunk.pendings cs ++ if 0 ≤ out.2 then r.content else [] := by
        intro w₁ next writer
        obtain ⟨front, c, rfl, here⟩ := tail
        refine ⟨_, ⟨next ▸ holds, fun _ => ⟨front, c, rfl, ?_⟩⟩, ?_⟩
        · rw [writer, here, next]
        · rw [result, if_pos (Int.natCast_nonneg _)]
          exact pendings
      have attaches := takes.attaches
      rw [← flag] at attaches
      cases stream : r.isStream with
      | true =>
          obtain ⟨flag', same⟩ := attach_done { out.1 with lastWcmd := r.cmd } out.2 attaches
          rw [if_pos rfl, same]
          exact after _ rfl rfl
      | false =>
          obtain ⟨flag', same⟩ := attach_done out.1 out.2 attaches
          rw [if_neg Bool.false_ne_true, same]
          exact after _ rfl rfl

end Wbuf

/-! ## Runs -/

namespace Sys

def plain (s : Sys) : Sys := { s with sent := s.sent.map Request.plain }

/-- The condition of an event: a send is taken on, and all calls of a write tick go right. -/
def Ships (heap : Wbuf.Heap) (s : Sys) : Event → Prop
  | .send r attached => s.wbuf.TakesAny heap r attached
  | .tick os => Passes (s.wbuf.curr.len + 1) os s.wbuf.curr 0

/-- What was handed over is a front part of what was sent, and all of it with both buffers
empty. -/
structure ShipsOnce (s : Sys) : Prop where
  front : s.handed.flatMap Handed.atoms <+: s.sent.flatMap Request.content
  whole : s.wbuf.curr.len = 0 → s.wbuf.next.len = 0 →
    s.handed.flatMap Handed.atoms = s.sent.flatMap Request.content

@[simp]
theorem plain_wbuf (s : Sys) : s.plain.wbuf = s.wbuf := rfl

theorem plain_atoms (s : Sys) : s.plain.sent.flatMap Request.atoms = s.sent.flatMap Request.content :=
  List.flatMap_map _ _ _

theorem Accounts.shipsOnce {s : Sys} (accounts : s.plain.Accounts) : s.ShipsOnce := by
  obtain ⟨front, whole⟩ := accounts.drainsOnce
  rw [plain_atoms] at front whole
  exact ⟨front, whole⟩

/-- A plain send and a write tick do the same to the run of plain sends. -/
theorem step_plain {heap : Wbuf.Heap} {s : Sys} {e : Event}
    (same : ∀ r attached, e = .send r attached → r.plain = r) :
    (s.step heap e).plain = s.plain.step heap e := by
  cases e with
  | tick os =>
      rw [step_tick, step_tick]
      rfl
  | send r attached =>
      have plain := same r attached rfl
      rw [step_send, step_send]
      unfold Sys.plain
      dsimp only
      split
      · rw [List.map_append, List.map_singleton, plain]
      · rfl

theorem send_object_accounts {heap : Wbuf.Heap} {s : Sys} {r : Request} {attached : Bool}
    {packing : Packing} (accounts : s.plain.Accounts) (packs : r.packing? = some packing)
    (takes : s.wbuf.TakesObject heap r packing attached) :
    (s.step heap (.send r attached)).plain.Accounts := by
  obtain ⟨curr, next, holds, queues, atoms⟩ := accounts
  rw [plain_wbuf] at holds queues
  obtain ⟨same, next', queues', pendings⟩ := Wbuf.sendraw_object_queues queues packs takes
  rw [step_send]
  refine ⟨curr, next', same ▸ holds, queues', ?_⟩
  rw [plain_atoms] at atoms ⊢
  rw [pendings]
  dsimp only [plain] at atoms ⊢
  split
  · rw [List.flatMap_append, List.flatMap_singleton, atoms, List.append_assoc]
  · rw [List.append_nil]
    exact atoms

theorem step_ships {heap : Wbuf.Heap} {s : Sys} {e : Event} (accounts : s.plain.Accounts)
    (ships : s.Ships heap e) : (s.step heap e).plain.Accounts := by
  cases e with
  | tick os =>
      rw [step_plain (fun _ _ other => by cases other)]
      exact tick_accounts accounts ships
  | send r attached =>
      change s.wbuf.TakesAny heap r attached at ships
      unfold Wbuf.TakesAny at ships
      cases packs : r.packing? with
      | none =>
          rw [packs] at ships
          have same := Request.plain_of_none packs
          rw [step_plain (fun r' _ other => by cases other; exact same)]
          exact send_accounts accounts ships
      | some packing =>
          rw [packs] at ships
          exact send_object_accounts accounts packs ships

end Sys

/-- Along every run of sends of all six kinds that are taken on, objects in place among them,
and of write ticks whose calls go right, what was sent is handed over once and in order. -/
theorem objects_shipped_once {heap : Wbuf.Heap} {m₀ m₁ : Mem} {events : List Event}
    (ships : Run.Along (Sys.step heap) (Sys.Ships heap) (Sys.start m₀ m₁) events) :
    ((Sys.start m₀ m₁).run heap events).ShipsOnce := by
  have start : (Sys.start m₀ m₁).plain.Accounts := start_accounts m₀ m₁
  exact (Run.holds_after (fun s : Sys => s.plain.Accounts) (Sys.Ships heap) start
    (fun _ _ => Sys.step_ships) ships).shipsOnce

/-- Two objects in one chunk with the bytes between them, and one as a datagram. -/
theorem objects_shipped_once_merged :
    ((Sys.start (fun _ => 0) fun _ => 0).run (fun _ => none)
      [.send (.obj ⟨[.push [0x92, 5], .expandBuffer 100, .push [7]], true⟩) true, .send (.raw [1]) true,
        .send (.obj ⟨[.fill [0xc0]], true⟩) true,
        .send (.objDgram ⟨[.push [9]], true⟩ ⟨List.replicate 24 5, rfl⟩) true, .tick [],
        .tick [.accepted 2], .tick [.accepted 3, .accepted 1]]).ShipsOnce := by
  refine objects_shipped_once ⟨⟨trivial, rfl, by decide, fun _ => by decide +kernel, .inr rfl,
      fun appends => absurd appends (by decide)⟩,
    ⟨trivial, fun _ => .inr (by decide +kernel), .inr rfl, by decide, fun _ => by decide +kernel,
      fun _ => by decide +kernel⟩,
    ⟨trivial, rfl, by decide, fun _ => by decide +kernel, .inr rfl, fun _ => by decide +kernel⟩,
    ⟨List.cons_ne_nil 9 [], rfl, by decide, fun _ => by decide +kernel, .inr rfl,
      fun appends => absurd appends (by decide)⟩,
    ?_, ?_, ?_, trivial⟩
  · change Passes _ _ _ _
    decide +kernel
  · change Passes _ _ _ _
    decide +kernel
  · change Passes _ _ _ _
    decide +kernel

end Cyue.Net
