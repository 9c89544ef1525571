import Cyue.Net.Orderly

/-!
# Sends that fail

What a send that reports an error leaves in the write buffer.  A reserve that
fails changes nothing.  A failed attach takes back the size that the writer has
returned, but not the command byte of a new chunk nor the size that an append
has added to its chunk; a failed packer is never taken back.
-/

namespace Cyue.Net

open Bytes Memory

namespace Wbuf

variable {heap : Heap} {w w' w₁ w₂ : Wbuf} {p : Ptr} {r : Request} {n n' : ℕ}

/-! ## Packing without any promise -/

/-- A packer that may move the buffer keeps the bytes that were in use. -/
structure Packs (n : ℕ) (w w' : Wbuf) : Prop extends Adds n w w' where
  within : w'.next.Within
  kept : ∀ i, i < w.next.len → w'.next.mem i = w.next.mem i

theorem Packs.refl (within : w.next.Within) : Packs 0 w w :=
  ⟨Adds.refl w, within, fun _ _ => rfl⟩

theorem Packs.trans (first : Packs n w w₁) (second : Packs n' w₁ w₂) : Packs (n + n') w w₂ where
  toAdds := first.toAdds.trans second.toAdds
  within := second.within
  kept i before := (second.kept i (by rw [first.len]; omega)).trans (first.kept i before)

theorem reserve_packs {sz : ℕ} (within : w.next.Within) (done : w.reserve heap sz = some w') :
    Packs 0 w w' ∧ sz ≤ w'.next.limit - w'.next.len := by
  obtain ⟨kept, reserved⟩ := reserve_some done within
  have room : sz ≤ w'.next.limit - w'.next.len :=
    reserved.room ▸ Buf.roomFor_enough within sz
  refine ⟨⟨⟨reserved.len, ?_, ?_, ?_, ?_⟩, reserved.within, reserved.kept⟩, room⟩
  · rw [kept]
  · rw [kept]
  · rw [kept]
  · rw [kept]

theorem append_packs {bytes : List UInt8} (within : w.next.Within)
    (room : bytes.length ≤ w.next.limit - w.next.len) : Packs bytes.length w (w.append bytes) := by
  have len := within.len
  have inside : w.next.len + bytes.length ≤ w.next.limit := by omega
  have grows := append_grows w.next.len inside (Nat.le_refl _)
  exact ⟨grows.adds, grows.within within (by omega), grows.kept⟩

theorem packOp_packs (heap : Heap) (within : w.next.Within) (op : PackOp) :
    ∃ n, Packs n w (packOp heap w op) := by
  cases op with
  | push bytes =>
      rw [packOp, within.available]
      split
      case isTrue room => exact ⟨_, append_packs within (Nat.le_of_lt room)⟩
      case isFalse => exact ⟨0, Packs.refl within⟩
  | expandBuffer sz =>
      rw [packOp]
      cases done : w.reserve heap sz with
      | none => exact ⟨0, ⟨{ Adds.refl w with }, within, fun _ _ => rfl⟩⟩
      | some w' => exact ⟨0, (reserve_packs within done).1⟩
  | fill bytes =>
      rw [packOp]
      cases done : w.reserve heap bytes.length with
      | none => exact ⟨0, ⟨{ Adds.refl w with }, within, fun _ _ => rfl⟩⟩
      | some w' =>
          obtain ⟨moved, room⟩ := reserve_packs within done
          exact ⟨_, moved.trans (append_packs moved.within room)⟩

theorem packOps_packs (heap : Heap) (within : w.next.Within) (ops : List PackOp) :
    ∃ n, Packs n w (ops.foldl (packOp heap) w) := by
  induction ops generalizing w with
  | nil => exact ⟨0, Packs.refl within⟩
  | cons op ops ih =>
      obtain ⟨n, first⟩ := packOp_packs heap within op
      obtain ⟨n', second⟩ := ih first.within
      exact ⟨n + n', first.trans second⟩

theorem pack_packs (heap : Heap) (within : w.next.Within) (packing : Packing) :
    ∃ n, Packs n w (w.pack heap packing).1 ∧
      (w.pack heap packing).2 = if packing.ok then intOfSize n else -21 := by
  obtain ⟨n, packs⟩ := packOps_packs heap within packing.ops
  refine ⟨n, packs, ?_⟩
  unfold pack
  dsimp only
  rw [packs.len, Nat.add_sub_cancel_left]

/-! ## The writer's part of a send -/

/-- A new chunk adds its header at least, and returns no more than it adds. -/
theorem writeChunk_new_adds (heap : Heap) (within : w.next.len ≤ w.next.limit → w.next.Within)
    (here : p.block = w.next.block) (behind : p.off = w.next.len)
    (plain_room : r.packing? = none → w.next.len + r.cmd.layout.header + r.image.length ≤ 2 ^ 63)
    (room : ∀ packing, r.packing? = some packing →
      w.next.len + r.cmd.layout.header ≤ w.next.limit) :
    ∃ n, Adds (r.cmd.layout.header + n) w (w.writeChunk heap r p false).1 ∧
      w.next.len + (r.cmd.layout.header + n) ≤ 2 ^ 63 ∧
      ((w.writeChunk heap r p false).2 = -21 ∨
        ∃ k, k ≤ r.cmd.layout.header + n ∧ (w.writeChunk heap r p false).2 = intOfSize k) := by
  unfold writeChunk
  cases plain : r.packing? with
  | none =>
      refine ⟨_, writePlain_adds w r p false, ?_, Or.inr ⟨_, Nat.le_refl _, ?_⟩⟩
      · rw [← Nat.add_assoc]
        exact plain_room plain
      · unfold writePlain
        rw [if_neg Bool.false_ne_true]
  | some packing =>
      have header := room packing plain
      have le := Nat.le_refl p.off
      have inside : p.off + r.cmd.layout.header ≤ w.next.limit := by omega
      have addr := setAddr_grows here (r := r) inside le
      have head := addr.trans (commit_grows p.off r.cmd.layout.header _)
      have pos := head.trans (setPos_grows (n := 0) (k := r.cmd) (here.trans head.block.symm)
        (by rwa [head.limit]) le)
      rw [Nat.zero_add, Nat.add_zero] at pos
      obtain ⟨n, packs, result⟩ := pack_packs heap (pos.within (within (by omega)) header) packing
      have both := pos.adds.trans packs.toAdds
      have value := writeObj_result heap w r p packing false
      rw [if_neg Bool.false_ne_true, result] at value
      refine ⟨n, ?_, ?_, ?_⟩
      · unfold writeObj
        dsimp only
        rw [if_neg Bool.false_ne_true]
        split
        · exact both
        · exact both.trans (setSz_adds _ _ _ _)
      · have end_le := packs.within.len
        have small := packs.within.small
        rw [both.len] at end_le
        exact Nat.le_of_lt (Nat.lt_of_le_of_lt end_le small)
      · dsimp only
        rw [value]
        split
        · exact Or.inr ⟨n, Nat.le_add_left _ _, rfl⟩
        · exact Or.inl rfl

/-! ## What a failed send leaves -/

/-- Both buffers, the last chunk and `m_last_wcmd` are as they were. -/
structure Untouched (w w' : Wbuf) : Prop where
  curr : w'.curr = w.curr
  len : w'.next.len = w.next.len
  kept : ∀ i, i < w.next.len → w'.next.mem i = w.next.mem i
  lastWcmd : w'.lastWcmd = w.lastWcmd
  lastWriter : w.lastWcmd ≠ .num → w'.lastWriter = ⟨w'.next.block, w.lastWriter.off⟩

/-- `sender.attach()` is not called, or it succeeds. -/
def Attaches (w : Wbuf) (attached : Bool) : Prop := w.attached = true ∨ attached = true

/-- The writer when it returns, with what it returns. -/
def written (heap : Heap) (w : Wbuf) (r : Request) : Option (Wbuf × ℤ) :=
  (w.reserve heap (r.requiredSize (w.appends r))).map fun w' =>
    let placed := w'.placeWriter w.next.block r (w.appends r)
    placed.writeChunk heap r placed.lastWriter (w.appends r)

def PacksNothing (heap : Heap) (w : Wbuf) (packing : Packing) : Prop :=
  (w.pack heap packing).1.next.len = w.next.len ∧
    (w.pack heap packing).1.next.block = w.next.block

/-- A writer that appends adds nothing: it has no elements, or its packer packs
nothing and fails, or succeeds and is taken back. -/
def AddsNothing (heap : Heap) (w : Wbuf) (r : Request) (attaches : Prop) : Prop :=
  match r.packing? with
  | none => r.count = 0
  | some packing => w.PacksNothing heap packing ∧ (attaches ∨ packing.ok = true)

/-- The failures that leave nothing behind: the reserve fails, a datagram writer
and the attach fail on an empty buffer, which is then rolled back to zero, or a
writer that appends adds nothing. -/
def Harmless (heap : Heap) (w : Wbuf) (r : Request) (attached : Bool) : Prop :=
  w.reserve heap (r.requiredSize (w.appends r)) = none ∨
  (r.isStream = false ∧ w.next.len = 0 ∧ ¬ w.Attaches attached ∧
    ∃ out, w.written heap r = some out ∧ out.2 < 0) ∨
  (w.appends r = true ∧ ∃ w', w.reserve heap (r.requiredSize true) = some w' ∧
    (w'.placeWriter w.next.block r true).AddsNothing heap r (w.Attaches attached))

/-- `rollback` with a result of the writer, which a negative one takes to zero. -/
theorem rollback_result {k : ℕ} (bound : n ≤ 2 ^ 63) {s : ℤ}
    (result : s = -21 ∨ s = intOfSize k) :
    (s < 0 ∧ n - (s % 2 ^ 64).toNat = 0) ∨ (0 ≤ s ∧ (s % 2 ^ 64).toNat = s.toNat ∧ s ≤ k) := by
  have range : -2147483648 ≤ s ∧ s < 2147483648 := by
    rcases result with equal | equal
    · rw [equal]
      decide
    · rw [equal]
      exact intOfSize_bounds k
  have le : s ≤ k := by
    rcases result with equal | equal
    · omega
    · rw [equal]
      exact intOfSize_le k
  rcases Int.lt_or_le s 0 with negative | nonneg
  · refine Or.inl ⟨negative, ?_⟩
    omega
  · refine Or.inr ⟨nonneg, ?_, le⟩
    omega

/-- What the rollback takes back of what a packer has packed. -/
theorem Packs.rollback {packing : Packing} {packed : Wbuf × ℤ} (packs : Packs n w packed.1)
    (result : packed.2 = if packing.ok then intOfSize n else -21) :
    (packed.2 < 0 ∧ packed.1.next.len - (packed.2 % 2 ^ 64).toNat = 0) ∨
      (0 ≤ packed.2 ∧ (packed.2 % 2 ^ 64).toNat = packed.2.toNat ∧ packed.2 ≤ n) := by
  have bound : packed.1.next.len ≤ 2 ^ 63 :=
    Nat.le_of_lt (Nat.lt_of_le_of_lt packs.within.len packs.within.small)
  refine rollback_result bound ?_
  rw [result]
  split
  · exact Or.inr rfl
  · exact Or.inl rfl

/-- A failed reserve changes nothing. -/
theorem untouched_of_reserve (valid : w.Valid) (attached : Bool)
    (failed : w.reserve heap (r.requiredSize (w.appends r)) = none) :
    w.Untouched (w.sendraw heap r attached).1 := by
  have done : w.sendraw heap r attached = ({ w with blocks := w.blocks + 1 }, -1) := by
    unfold sendraw
    simp only [failed]
  rw [done]
  refine ⟨rfl, rfl, fun _ _ => rfl, rfl, fun last => ?_⟩
  have here := (valid.tail last).1
  change w.lastWriter = ⟨w.next.block, w.lastWriter.off⟩
  rw [← here]

/-- What the attach makes of a new chunk. -/
theorem new_chunk_iff (valid : w.Valid) {attached : Bool} (appends : w.appends r = false)
    {out : Wbuf × ℤ} (len : out.1.next.len = w.next.len + 1 + (r.cmd.layout.header + n))
    (bound : out.1.next.len ≤ 2 ^ 63) (flag : out.1.attached = w.attached)
    (curr : out.1.curr = w.curr) (lastWcmd : out.1.lastWcmd = w.lastWcmd)
    (result : out.2 = -21 ∨ ∃ k, k ≤ r.cmd.layout.header + n ∧ out.2 = intOfSize k) :
    w.Untouched (attach (if r.isStream = true then { out.1 with lastWcmd := r.cmd } else out.1)
        attached out.2).1 ↔
      r.isStream = false ∧ w.next.len = 0 ∧ ¬ w.Attaches attached ∧ out.2 < 0 := by
  by_cases attaches : w.Attaches attached
  · refine iff_of_false (fun untouched => ?_) fun harmless => harmless.2.2.1 attaches
    have same := untouched.len
    cases stream : r.isStream with
    | true =>
        obtain ⟨_, done⟩ := @attach_done attached { out.1 with lastWcmd := r.cmd } out.2
          (flag ▸ attaches)
        rw [stream, if_pos rfl, done] at same
        dsimp only at same
        omega
    | false =>
        obtain ⟨_, done⟩ := @attach_done attached out.1 out.2 (flag ▸ attaches)
        rw [stream, if_neg Bool.false_ne_true, done] at same
        dsimp only at same
        omega
  · cases stream : r.isStream with
    | true =>
        refine iff_of_false (fun untouched => ?_) fun harmless => Bool.noConfusion harmless.1
        have same := untouched.lastWcmd
        rw [if_pos rfl, attach_failed _ _ (flag ▸ attaches)] at same
        rw [Wbuf.appends, stream, Bool.true_and] at appends
        exact of_decide_eq_false appends same
    | false =>
        rw [if_neg Bool.false_ne_true, attach_failed _ _ (flag ▸ attaches)]
        obtain ⟨k, k_le, value⟩ : ∃ k, k ≤ r.cmd.layout.header + n ∧
            (out.2 = -21 ∨ out.2 = intOfSize k) := by
          rcases result with equal | ⟨k, le, equal⟩
          · exact ⟨0, Nat.zero_le _, Or.inl equal⟩
          · exact ⟨k, le, Or.inr equal⟩
        rcases rollback_result bound value with ⟨negative, empty⟩ | ⟨nonneg, size, le⟩
        · constructor
          · intro untouched
            exact ⟨rfl, untouched.len.symm.trans empty, attaches, negative⟩
          · rintro ⟨-, none, -, -⟩
            refine ⟨curr, empty.trans none.symm, fun i inside => ?_, lastWcmd, fun last => ?_⟩
            · omega
            · have ends := (valid.tail last).2
              have header := Wcmd.layout_header last
              unfold Layout.chunkSize at ends
              omega
        · refine iff_of_false (fun untouched => ?_) fun harmless => ?_
          · have same : out.1.next.len - (out.2 % 2 ^ 64).toNat = w.next.len := untouched.len
            omega
          · exact absurd harmless.2.2.2 (Int.not_lt.mpr nonneg)

/-- A new chunk stays at least in part, unless a datagram writer has failed too. -/
theorem untouched_new_iff (valid : w.Valid) {attached : Bool} (appends : w.appends r = false)
    (done : w.reserve heap (r.requiredSize false) = some w') :
    w.Untouched (w.sendraw heap r attached).1 ↔
      r.isStream = false ∧ w.next.len = 0 ∧ ¬ w.Attaches attached ∧
        ∃ out, w.written heap r = some out ∧ out.2 < 0 := by
  obtain ⟨kept, reserved⟩ := reserve_some done valid.next
  have len := reserved.within.len
  have small := reserved.within.small
  have enough := Buf.roomFor_enough valid.next (r.requiredSize false)
  rw [← reserved.room] at enough
  have pushed := push_adds w' r.cmd.code
  let placed : Wbuf := { w'.push r.cmd.code with lastWriter := (w'.push r.cmd.code).lastP }
  have placed_len : placed.next.len = w'.next.len + 1 := pushed.len
  have placed_limit : placed.next.limit = w'.next.limit := put_limit _ _ _
  have placed_within (le : placed.next.len ≤ placed.next.limit) : placed.next.Within :=
    ⟨(put_ofs _ _ _).trans reserved.within.ofs, le, placed_limit ▸ reserved.within.pos,
      placed_limit ▸ small⟩
  have plain_room (plain : r.packing? = none) :
      placed.next.len + r.cmd.layout.header + r.image.length ≤ 2 ^ 63 := by
    rw [Request.requiredSize_plain plain, if_neg Bool.false_ne_true] at enough
    omega
  have packing_room (packing : Packing) (packs : r.packing? = some packing) :
      placed.next.len + r.cmd.layout.header ≤ placed.next.limit := by
    have header := Request.header_lt packs
    omega
  obtain ⟨n, adds, bound, result⟩ := @writeChunk_new_adds placed placed.lastWriter r heap
    placed_within rfl rfl plain_room packing_room
  have written_eq : w.written heap r = some (placed.writeChunk heap r placed.lastWriter false) := by
    rw [written, appends, done]
    rfl
  rw [← appends] at done
  rw [sendraw_reserved attached done, appends, written_eq]
  have out_len : (placed.writeChunk heap r placed.lastWriter false).1.next.len =
      w.next.len + 1 + (r.cmd.layout.header + n) := by
    rw [adds.len, placed_len, reserved.len]
  refine (new_chunk_iff valid appends out_len (adds.len ▸ bound) ?_ ?_ ?_ result).trans ?_
  · rw [adds.attached]
    exact pushed.attached.trans (by rw [kept])
  · rw [adds.curr]
    exact pushed.curr.trans (by rw [kept])
  · rw [adds.lastWcmd]
    exact pushed.lastWcmd.trans (by rw [kept])
  · simp only [Option.some.injEq, exists_eq_left']

/-! ## Appends -/

theorem Request.count_lt {r : Request} (plain : r.packing? = none) (small : r.image.length < 2 ^ 63) :
    r.count < 256 ^ r.cmd.layout.width := by
  have wide : 2 ^ 63 < 256 ^ 8 := by decide
  rw [Request.image_length plain] at small
  cases r with
  | raw p => exact Nat.lt_trans (lt_of_eq_of_lt (Nat.one_mul _).symm small) wide
  | dgram p addr => exact Nat.lt_trans (lt_of_eq_of_lt (Nat.one_mul _).symm small) wide
  | iov vec =>
      have le : vec.length ≤ 16 * vec.length := Nat.le_mul_of_pos_left _ (by decide)
      exact Nat.lt_trans (Nat.lt_of_le_of_lt le small) wide
  | file inFd ofs sz => exact (by decide : 1 < 256 ^ 4)
  | obj packing => cases plain
  | objDgram packing addr => cases plain

/-- The send as it ends for a writer that appends. -/
theorem sendraw_append {attached : Bool} (appends : w.appends r = true)
    (done : w.reserve heap (r.requiredSize true) = some w') :
    w.sendraw heap r attached =
      attach { ((w'.placeWriter w.next.block r true).writeChunk heap r
        (w'.placeWriter w.next.block r true).lastWriter true).1 with lastWcmd := r.cmd } attached
        ((w'.placeWriter w.next.block r true).writeChunk heap r
          (w'.placeWriter w.next.block r true).lastWriter true).2 := by
  have stream : r.isStream = true := (Bool.and_eq_true_iff.mp appends).1
  rw [← appends] at done
  rw [sendraw_reserved attached done, appends]
  dsimp only
  rw [if_pos stream]

/-- A writer placed for an append: its chunk as before, its buffer with room. -/
structure Placed (w placed : Wbuf) (r : Request) : Prop where
  within : placed.next.Within
  len : placed.next.len = w.next.len
  kept : ∀ i, i < w.next.len → placed.next.mem i = w.next.mem i
  ends : placed.Ends r.cmd placed.lastWriter
  off : placed.lastWriter.off = w.lastWriter.off
  curr : placed.curr = w.curr
  lastWcmd : r.cmd = w.lastWcmd
  attached : placed.attached = w.attached
  room : r.requiredSize true ≤ placed.next.limit - placed.next.len

theorem placed_append (valid : w.Valid) (appends : w.appends r = true)
    (done : w.reserve heap (r.requiredSize true) = some w') :
    Placed w (w'.placeWriter w.next.block r true) r := by
  obtain ⟨kept, reserved⟩ := reserve_some done valid.next
  have enough := Buf.roomFor_enough valid.next (r.requiredSize true)
  rw [← reserved.room] at enough
  have same : r.cmd = w.lastWcmd := of_decide_eq_true (Bool.and_eq_true_iff.mp appends).2
  have last : w.Ends r.cmd w.lastWriter := same ▸ valid.tail (same ▸ Request.cmd_ne_num r)
  rw [placeWriter_append kept last.1]
  refine ⟨reserved.within, reserved.len, reserved.kept, last.moved reserved.len reserved.kept, rfl,
    ?_, same, ?_, enough⟩
  · change w'.curr = w.curr
    rw [kept]
  · change w'.attached = w.attached
    rw [kept]

/-- Where the chunk is as it was, so is its size. -/
theorem Placed.getSz_eq {placed : Wbuf} (place : Placed w placed r) {m : Mem}
    (kept : ∀ i, i < w.next.len → m i = w.next.mem i) :
    r.cmd.layout.getSz m w.lastWriter.off =
      r.cmd.layout.getSz placed.next.mem w.lastWriter.off := by
  have ends := place.ends.2
  have fits := r.cmd.layout_sz
  unfold Layout.chunkSize at ends
  rw [place.off, place.len] at ends
  refine loadLe_congr fun i _ upper => ?_
  exact (kept i (by omega)).trans (place.kept i (by omega)).symm

theorem attach_mem (w : Wbuf) (attached : Bool) (s : ℤ) :
    (w.attach attached s).1.next.mem = w.next.mem := by
  unfold attach
  split
  · rfl
  · split <;> rfl

/-- A size that has been added to a field shows in it. -/
theorem eq_zero_of_add_mod {a c m : ℕ} (left : a < m) (right : c < m) (same : (a + c) % m = a) :
    c = 0 := by
  rcases Nat.lt_or_ge (a + c) m with below | above
  · rw [Nat.mod_eq_of_lt below] at same
    omega
  · rw [Nat.mod_eq_sub_mod above, Nat.mod_eq_of_lt (by omega)] at same
    omega

theorem Placed.size_added {placed : Wbuf} (place : Placed w placed r) {m : Mem}
    (kept : ∀ i, i < w.next.len → m i = w.next.mem i) {c : ℕ} (small : c < 256 ^ r.cmd.layout.width)
    (added : r.cmd.layout.getSz m w.lastWriter.off =
      (r.cmd.layout.getSz placed.next.mem w.lastWriter.off + c) % 256 ^ r.cmd.layout.width) :
    c = 0 := by
  have bound := leNat_lt (load placed.next.mem (w.lastWriter.off + r.cmd.layout.sz)
    r.cmd.layout.width)
  rw [load_length] at bound
  exact eq_zero_of_add_mod bound small (added.symm.trans (place.getSz_eq kept))

section append

variable {placed : Wbuf} {attached : Bool}

/-- The size that a plain writer has added is still there after the rollback. -/
theorem plain_append_iff (place : Placed w placed r) (plain : r.packing? = none)
    (failed : (attach { (placed.writePlain r placed.lastWriter true).1 with lastWcmd := r.cmd }
      attached (placed.writePlain r placed.lastWriter true).2).2 < 0) :
    w.Untouched (attach { (placed.writePlain r placed.lastWriter true).1 with lastWcmd := r.cmd }
      attached (placed.writePlain r placed.lastWriter true).2).1 ↔ r.count = 0 := by
  have len := place.within.len
  have room := place.room
  rw [Request.requiredSize_plain plain, if_pos rfl] at room
  have mem := writePlain_append_mem place.ends (by omega)
  have adds := writePlain_adds placed r placed.lastWriter true
  obtain ⟨n, grows, -⟩ := writePlain_append place.ends (by omega)
  have small := place.within.small
  have count := Request.count_lt plain (by omega)
  have result : (placed.writePlain r placed.lastWriter true).2 = intOfSize r.image.length := by
    unfold writePlain
    rw [if_pos rfl]
  rw [if_pos rfl, Nat.zero_add] at adds
  generalize placed.writePlain r placed.lastWriter true = out at *
  have flag : out.1.attached = w.attached := adds.attached.trans place.attached
  have fine : ¬ w.Attaches attached → ∀ s, attach { out.1 with lastWcmd := r.cmd } attached s =
      ({ out.1 with lastWcmd := r.cmd, next := out.1.next.rollback (s % 2 ^ 64).toNat }, -24) :=
    fun attaches s => attach_failed _ s (flag ▸ attaches)
  constructor
  · intro untouched
    have kept : ∀ i, i < w.next.len → out.1.next.mem i = w.next.mem i := fun i inside =>
      (congrFun (attach_mem { out.1 with lastWcmd := r.cmd } _ _) i).symm.trans
        (untouched.kept i inside)
    refine place.size_added kept count ?_
    rw [mem, place.off]
    exact loadLe_storeLe_mod _ _ _ _
  · intro none
    have empty : r.image.length = 0 := by rw [Request.image_length plain, none, Nat.mul_zero]
    have zero : out.2 = 0 := by rw [result, empty]; rfl
    have attaches : ¬ w.Attaches attached := by
      intro attaches
      obtain ⟨flag, done⟩ := @attach_done attached { out.1 with lastWcmd := r.cmd } out.2
        (flag ▸ attaches)
      rw [done] at failed
      dsimp only at failed
      omega
    rw [fine attaches, zero]
    rw [List.length_eq_zero_iff.mp empty, none, Nat.add_zero, store_nil] at mem
    refine ⟨adds.curr.trans place.curr, ?_, fun i inside => ?_, place.lastWcmd, fun _ => ?_⟩
    · change out.1.next.len - 0 = w.next.len
      rw [adds.len, empty, place.len]
      rfl
    · change out.1.next.mem i = _
      rw [mem]
      exact (congrFun (storeLe_loadLe _ _ _) i).trans (place.kept i inside)
    · change out.1.lastWriter = ⟨out.1.next.block, _⟩
      rw [grows.lastWriter, grows.block, ← place.off, ← place.ends.1]

/-- A packer that fails is not taken back, however little it has packed. -/
theorem pack_failed_iff {packing : Packing} {packed : Wbuf × ℤ} (place : Placed w placed r)
    (packs : Packs n placed packed.1)
    (result : packed.2 = if packing.ok then intOfSize n else -21) (negative : packed.2 < 0) :
    w.Untouched (attach { packed.1 with lastWcmd := r.cmd } attached packed.2).1 ↔
      (packed.1.next.len = placed.next.len ∧ packed.1.next.block = placed.next.block) ∧
        (w.Attaches attached ∨ packing.ok = true) := by
  have flag : packed.1.attached = w.attached := packs.attached.trans place.attached
  have last : w.lastWcmd ≠ .num := place.lastWcmd ▸ Request.cmd_ne_num r
  by_cases attaches : w.Attaches attached
  · obtain ⟨flag, done⟩ := @attach_done attached { packed.1 with lastWcmd := r.cmd } packed.2
      (flag ▸ attaches)
    rw [done]
    constructor
    · intro untouched
      refine ⟨⟨untouched.len.trans place.len.symm, ?_⟩, Or.inl attaches⟩
      have writer : packed.1.lastWriter = ⟨packed.1.next.block, _⟩ := untouched.lastWriter last
      rw [packs.lastWriter] at writer
      rw [← place.ends.1, writer]
    · rintro ⟨⟨len, block⟩, -⟩
      refine ⟨packs.curr.trans place.curr, len.trans place.len, fun i inside => ?_,
        place.lastWcmd, fun _ => ?_⟩
      · exact (packs.kept i (place.len ▸ inside)).trans (place.kept i inside)
      · change packed.1.lastWriter = ⟨packed.1.next.block, _⟩
        rw [packs.lastWriter, block, ← place.ends.1, ← place.off]
  · have ends := place.ends.2
    have header := Wcmd.layout_header (Request.cmd_ne_num r)
    unfold Layout.chunkSize at ends
    have empty : packed.1.next.len - (packed.2 % 2 ^ 64).toNat = 0 := by
      rcases packs.rollback result with ⟨-, empty⟩ | ⟨nonneg, -, -⟩
      · exact empty
      · omega
    rw [attach_failed { packed.1 with lastWcmd := r.cmd } packed.2 (flag ▸ attaches)]
    refine iff_of_false (fun untouched => ?_) ?_
    · have same : packed.1.next.len - (packed.2 % 2 ^ 64).toNat = w.next.len := untouched.len
      have len := place.len
      omega
    · rintro ⟨⟨len, -⟩, fine | ok⟩
      · exact attaches fine
      · have none : n = 0 := by
          rw [packs.len] at len
          omega
        rw [ok, if_pos rfl, none] at result
        rw [result] at negative
        exact absurd negative (by decide)

/-- What a packer has packed is taken back when the attach fails, but not the size of its chunk. -/
theorem pack_back_iff {packing : Packing} {packed : Wbuf × ℤ} (place : Placed w placed r)
    (packs : Packs n placed packed.1)
    (result : packed.2 = if packing.ok then intOfSize n else -21) (positive : ¬ packed.2 < 0)
    {sized : Wbuf} (sized_eq : sized = packed.1.setSz r.cmd.layout placed.lastWriter
      (r.cmd.layout.getSz placed.next.mem placed.lastWriter.off + packed.2.toNat))
    (failed : (attach { sized with lastWcmd := r.cmd } attached packed.2).2 < 0) :
    w.Untouched (attach { sized with lastWcmd := r.cmd } attached packed.2).1 ↔
      (packed.1.next.len = placed.next.len ∧ packed.1.next.block = placed.next.block) ∧
        (w.Attaches attached ∨ packing.ok = true) := by
  have last : w.lastWcmd ≠ .num := place.lastWcmd ▸ Request.cmd_ne_num r
  have ends := place.ends.2
  unfold Layout.chunkSize at ends
  have ok : packing.ok = true := by
    cases ok : packing.ok with
    | true => rfl
    | false =>
        rw [ok, if_neg Bool.false_ne_true] at result
        omega
  have adds : Adds 0 packed.1 sized := sized_eq ▸ setSz_adds _ _ _ _
  have block_eq : sized.next.block = packed.1.next.block := sized_eq ▸ put_block _ _ _
  have flag : sized.attached = w.attached :=
    adds.attached.trans (packs.attached.trans place.attached)
  have attaches : ¬ w.Attaches attached := by
    intro attaches
    obtain ⟨flag, done⟩ := @attach_done attached { sized with lastWcmd := r.cmd } packed.2
      (flag ▸ attaches)
    rw [done] at failed
    exact positive failed
  rw [attach_failed { sized with lastWcmd := r.cmd } packed.2 (flag ▸ attaches)]
  rcases packs.rollback result with ⟨wrong, -⟩ | ⟨nonneg, size, le⟩
  · exact absurd wrong positive
  have len_eq : sized.next.len = placed.next.len + n := adds.len.trans packs.len
  have inside : placed.lastWriter.off + r.cmd.layout.header ≤ packed.1.next.limit := by
    have within := packs.within.len
    rw [packs.len] at within
    omega
  constructor
  · intro untouched
    have len : sized.next.len - (packed.2 % 2 ^ 64).toNat = w.next.len := untouched.len
    have writer : sized.lastWriter = ⟨sized.next.block, _⟩ := untouched.lastWriter last
    rw [adds.lastWriter, packs.lastWriter, block_eq] at writer
    have block : packed.1.next.block = placed.next.block := by rw [← place.ends.1, writer]
    have kept : ∀ i, i < w.next.len → sized.next.mem i = w.next.mem i := untouched.kept
    have wide : packed.2.toNat < 256 ^ r.cmd.layout.width := by
      have upper : packed.2 < 2147483648 := by
        rw [result, ok, if_pos rfl]
        exact (intOfSize_bounds n).2
      have less : packed.2.toNat < 2147483648 := (Int.toNat_lt nonneg).mpr upper
      exact Nat.lt_of_lt_of_le less (Wcmd.layout_wide (Request.cmd_ne_num r))
    have added : r.cmd.layout.getSz sized.next.mem placed.lastWriter.off =
        (r.cmd.layout.getSz placed.next.mem placed.lastWriter.off + packed.2.toNat) %
          256 ^ r.cmd.layout.width := by
      rw [sized_eq]
      exact getSz_setSz r.cmd (place.ends.1.trans block.symm) inside
    have zero := place.size_added kept wide (place.off ▸ added)
    refine ⟨⟨?_, block⟩, Or.inr ok⟩
    have place_len := place.len
    rw [packs.len]
    omega
  · rintro ⟨⟨len, block⟩, -⟩
    have zero : packed.2.toNat = 0 := by
      rw [packs.len] at len
      omega
    have mem : sized.next.mem = packed.1.next.mem := by
      have same := place.getSz_eq fun i before =>
        (packs.kept i (place.len ▸ before)).trans (place.kept i before)
      have fits := r.cmd.layout_sz
      rw [← place.off] at same
      have stored := @put_inside packed.1 ⟨placed.lastWriter.block, placed.lastWriter.off +
        r.cmd.layout.sz⟩ (leBytes r.cmd.layout.width
          (r.cmd.layout.getSz placed.next.mem placed.lastWriter.off + packed.2.toNat))
        (place.ends.1.trans block.symm) (by rw [leBytes_length]; dsimp only; omega)
      rw [sized_eq]
      change (packed.1.put _ _).next.mem = _
      rw [stored, zero, Nat.add_zero, ← same]
      exact storeLe_loadLe _ _ _
    refine ⟨(adds.curr.trans packs.curr).trans place.curr, ?_, fun i before => ?_,
      place.lastWcmd, fun _ => ?_⟩
    · change sized.next.len - _ = _
      rw [size, zero, adds.len, len, place.len]
      rfl
    · change sized.next.mem i = _
      rw [mem]
      exact (packs.kept i (place.len ▸ before)).trans (place.kept i before)
    · change sized.lastWriter = ⟨sized.next.block, _⟩
      rw [adds.lastWriter, packs.lastWriter, block_eq, block, ← place.ends.1, ← place.off]

/-- A packer that has moved the buffer or has packed something is not taken
back. -/
theorem obj_append_iff {packing : Packing} (place : Placed w placed r)
    (failed : (attach { (placed.writeObj heap r packing placed.lastWriter true).1 with
      lastWcmd := r.cmd } attached (placed.writeObj heap r packing placed.lastWriter true).2).2 < 0) :
    w.Untouched (attach { (placed.writeObj heap r packing placed.lastWriter true).1 with
      lastWcmd := r.cmd } attached (placed.writeObj heap r packing placed.lastWriter true).2).1 ↔
      placed.PacksNothing heap packing ∧ (w.Attaches attached ∨ packing.ok = true) := by
  obtain ⟨n, packs, result⟩ := pack_packs heap place.within packing
  unfold PacksNothing
  have out_eq : placed.writeObj heap r packing placed.lastWriter true =
      if (placed.pack heap packing).2 < 0 then placed.pack heap packing
      else ((placed.pack heap packing).1.setSz r.cmd.layout placed.lastWriter
        (r.cmd.layout.getSz placed.next.mem placed.lastWriter.off +
          (placed.pack heap packing).2.toNat), (placed.pack heap packing).2) := by
    unfold writeObj
    dsimp only
    rw [if_pos rfl, getSz_kept place.ends packs.kept]
  rw [out_eq] at failed ⊢
  generalize placed.pack heap packing = packed at *
  by_cases negative : packed.2 < 0
  · rw [if_pos negative]
    exact pack_failed_iff place packs result negative
  · rw [if_neg negative] at failed ⊢
    exact pack_back_iff place packs result negative rfl failed

end append

/-- An append that fails has changed the size of its chunk, unless it adds nothing. -/
theorem untouched_append_iff (valid : w.Valid) {attached : Bool} (appends : w.appends r = true)
    (done : w.reserve heap (r.requiredSize true) = some w')
    (failed : (w.sendraw heap r attached).2 < 0) :
    w.Untouched (w.sendraw heap r attached).1 ↔
      (w'.placeWriter w.next.block r true).AddsNothing heap r (w.Attaches attached) := by
  have place := placed_append valid appends done
  rw [sendraw_append appends done] at failed ⊢
  generalize w'.placeWriter w.next.block r true = placed at *
  unfold AddsNothing
  unfold writeChunk at failed ⊢
  cases packs : r.packing? with
  | none =>
      rw [packs] at failed
      exact plain_append_iff place packs failed
  | some packing =>
      rw [packs] at failed
      exact obj_append_iff place failed

/-- Which failures of a send leave everything as it was. -/
theorem failed_send_iff {attached : Bool} (valid : w.Valid)
    (failed : (w.sendraw heap r attached).2 < 0) :
    w.Untouched (w.sendraw heap r attached).1 ↔ w.Harmless heap r attached := by
  unfold Harmless
  cases done : w.reserve heap (r.requiredSize (w.appends r)) with
  | none => exact iff_of_true (untouched_of_reserve valid attached done) (Or.inl rfl)
  | some w' =>
      have reserved : ¬ (some w' = none) := Option.some_ne_none _
      cases appends : w.appends r with
      | false =>
          rw [appends] at done
          rw [untouched_new_iff valid appends done]
          constructor
          · exact fun harmless => Or.inr (Or.inl harmless)
          · rintro (absurd_none | harmless | ⟨wrong, -⟩)
            · exact (reserved absurd_none).elim
            · exact harmless
            · cases wrong
      | true =>
          rw [appends] at done
          rw [untouched_append_iff valid appends done failed]
          constructor
          · exact fun nothing => Or.inr (Or.inr ⟨rfl, w', done, nothing⟩)
          · rintro (absurd_none | ⟨datagram, -⟩ | ⟨-, _, same, nothing⟩)
            · exact (reserved absurd_none).elim
            · rw [Wbuf.appends, datagram] at appends
              cases appends
            · rw [done] at same
              cases same
              exact nothing

/-- A payload for which the poller cannot be reached. -/
theorem failed_send_iff_raw :
    (Wbuf.init (fun _ => 0) fun _ => 0).Untouched
      ((Wbuf.init (fun _ => 0) fun _ => 0).sendraw (fun _ => none) (.raw [1]) false).1 ↔
    (Wbuf.init (fun _ => 0) fun _ => 0).Harmless (fun _ => none) (.raw [1]) false :=
  failed_send_iff (init_valid _ _) (by decide)

/-- Its command byte stays in the buffer. -/
theorem failed_send_stays :
    ((Wbuf.init (fun _ => 0) fun _ => 0).sendraw (fun _ => none) (.raw [1]) false).2 < 0 ∧
      ¬ (Wbuf.init (fun _ => 0) fun _ => 0).Untouched
        ((Wbuf.init (fun _ => 0) fun _ => 0).sendraw (fun _ => none) (.raw [1]) false).1 :=
  ⟨by decide, fun untouched => absurd untouched.len (by decide)⟩

end Wbuf

end Cyue.Net
