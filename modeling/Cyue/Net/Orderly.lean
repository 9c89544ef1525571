import Cyue.Net.Capacity

/-!
# Orderly runs

A send that succeeds within its room leaves the chunk that a later send may be
merged into: it lies in the `next` buffer and ends with the bytes in use.  With
that the sends of a run meet the condition on appends by themselves.
-/

namespace Cyue.Net

open Bytes Memory

namespace Wbuf

variable {heap : Heap} {w w' : Wbuf} {p : Ptr} {r : Request} {n : ℕ}

/-- A write buffer in order: the chunk that a stream command appends to ends
within the bytes in use. -/
structure Valid (w : Wbuf) : Prop extends Sound w where
  tail : w.lastWcmd ≠ .num → w.Ends w.lastWcmd w.lastWriter
  stream : w.lastWcmd ≠ .dgram

/-! ## Where a written chunk ends -/

/-- The bytes behind an append of a plain writer. -/
theorem writePlain_append_mem (last : w.Ends r.cmd p)
    (room : w.next.len + r.image.length ≤ w.next.limit) :
    (w.writePlain r p true).1.next.mem =
      storeLe (store w.next.mem (p.off + r.cmd.layout.chunkSize w.next.mem p.off) r.image)
        (p.off + r.cmd.layout.sz) r.cmd.layout.width
        (r.cmd.layout.getSz w.next.mem p.off + r.count) := by
  obtain ⟨here, ends⟩ := last
  have fits := r.cmd.layout_sz
  unfold Layout.chunkSize at ends ⊢
  have image := @put_inside w ⟨p.block, p.off + r.cmd.layout.header + r.cmd.layout.unit *
    r.cmd.layout.getSz w.next.mem p.off⟩ r.image here (by dsimp only; omega)
  have size := @put_inside (w.stored (p.off + r.cmd.layout.header + r.cmd.layout.unit *
    r.cmd.layout.getSz w.next.mem p.off) r.image) ⟨p.block, p.off + r.cmd.layout.sz⟩
    (leBytes r.cmd.layout.width (r.cmd.layout.getSz w.next.mem p.off + r.count)) here
    (by rw [leBytes_length]; change _ ≤ w.next.limit; dsimp only; omega)
  unfold writePlain
  rw [if_pos rfl]
  dsimp only
  rw [image, setSz, size, ← Nat.add_assoc]
  rfl

theorem Ends.of_le {k : Wcmd} (here : p.block = w.next.block)
    (le : p.off + (k.layout.header + k.layout.unit * n) ≤ w.next.len)
    (size : k.layout.getSz w.next.mem p.off ≤ n) : w.Ends k p := by
  refine ⟨here, Nat.le_trans (Nat.add_le_add_left (Nat.add_le_add_left ?_ _) _) le⟩
  exact Nat.mul_le_mul_left _ size

/-- A plain writer that appends. -/
theorem writePlain_append_ends (plain : r.packing? = none) (last : w.Ends r.cmd p)
    (room : w.next.len + r.image.length ≤ w.next.limit) :
    (w.writePlain r p true).1.Ends r.cmd p := by
  obtain ⟨k, grows, -⟩ := writePlain_append last room
  have mem := writePlain_append_mem last room
  have count := Request.image_length plain
  have len := (writePlain_adds w r p true).len
  rw [if_pos rfl, Nat.zero_add] at len
  refine .of_le (n := r.cmd.layout.getSz w.next.mem p.off + r.count)
    (last.1.trans grows.block.symm) ?_ ?_
  · have ends := last.2
    unfold Layout.chunkSize at ends
    rw [len, count, Nat.mul_add]
    omega
  · rw [mem]
    exact Nat.le_trans (Nat.le_of_eq (loadLe_storeLe_mod _ _ _ _)) (Nat.mod_le _ _)

/-- A plain writer of a new chunk of a stream command. -/
theorem writePlain_new_ends (plain : r.packing? = none) (stream : r.address? = none)
    (here : p.block = w.next.block) (behind : p.off = w.next.len)
    (room : p.off + r.cmd.layout.header + r.image.length ≤ w.next.limit) :
    (w.writePlain r p false).1.Ends r.cmd p := by
  have le := Nat.le_refl p.off
  have inside : p.off + r.cmd.layout.header ≤ w.next.limit := by omega
  have pos := setPos_grows (n := 0) here inside le
  have size := getSz_setSz (n := r.count) r.cmd (here.trans pos.block.symm) (by rwa [pos.limit])
  have sz := setSz_grows (n := r.count) (here.trans pos.block.symm) (by rwa [pos.limit]) le
  have head := pos.trans sz
  have len := (writePlain_adds w r p false).len
  rw [if_neg Bool.false_ne_true] at len
  have image := put_grows (p.off + r.cmd.layout.header) ⟨p.block, p.off + r.cmd.layout.header⟩
    r.image (here.trans head.block.symm) (by rwa [head.limit]) (Nat.le_refl _)
  have out : (w.writePlain r p false).1 = (((w.setPos r.cmd.layout p 0).setSz r.cmd.layout p
      r.count).put ⟨p.block, p.off + r.cmd.layout.header⟩ r.image).commit
        (r.cmd.layout.header + r.image.length) := by
    unfold writePlain
    rw [if_neg Bool.false_ne_true, stream]
    rfl
  have block : (w.writePlain r p false).1.next.block = w.next.block := by
    rw [out]
    exact image.block.trans head.block
  refine .of_le (n := r.count) (here.trans block.symm) ?_ ?_
  · rw [len, Request.image_length plain, behind]
  · have fits := r.cmd.layout_sz
    have kept : r.cmd.layout.getSz (w.writePlain r p false).1.next.mem p.off =
        r.cmd.layout.getSz ((w.setPos r.cmd.layout p 0).setSz r.cmd.layout p r.count).next.mem
          p.off := by
      rw [out]
      exact loadLe_congr fun i _ upper => image.kept i (by omega)
    rw [kept, size]
    exact Nat.mod_le _ _

theorem writeObj_result (heap : Heap) (w : Wbuf) (r : Request) (p : Ptr) (packing : Packing) (append : Bool) :
    (w.writeObj heap r packing p append).2 =
      ((if append then w else ((w.setAddr p r.address?).commit r.cmd.layout.header).setPos
        r.cmd.layout p 0).pack heap packing).2 := by
  cases append with
  | true =>
      unfold writeObj
      dsimp only
      rw [if_pos rfl, if_pos rfl]
      split <;> rfl
  | false =>
      unfold writeObj
      dsimp only
      rw [if_neg Bool.false_ne_true, if_neg Bool.false_ne_true]
      split <;> rfl

/-- A packer that stays within the room and succeeds behind a chunk of `size`
elements. -/
theorem packed_ends (heap : Heap) {packing : Packing} {k : Wcmd} {size : ℕ} (within : w.next.Within)
    (unit : k.layout.unit = 1) (here : p.block = w.next.block)
    (front : p.off + (k.layout.header + size) ≤ w.next.len)
    (fits : PackOp.Fits (w.next.limit - w.next.len) packing.ops) :
    ((w.pack heap packing).1.setSz k.layout p (size + (w.pack heap packing).2.toNat)).Ends k p := by
  obtain ⟨n, grows, bound, result⟩ := pack_grows heap 0 within (Nat.zero_le _) fits
  have le : (w.pack heap packing).2.toNat ≤ n := by
    have upper := intOfSize_le n
    rw [result]
    split
    · exact Int.toNat_le.mpr upper
    · exact Nat.zero_le _
  generalize w.pack heap packing = packed at *
  have inside : p.off + k.layout.header ≤ packed.1.next.limit := by
    rw [grows.limit]
    omega
  have field := getSz_setSz (n := size + packed.2.toNat) k (here.trans grows.block.symm) inside
  have sized := setSz_adds packed.1 k.layout p (size + packed.2.toNat)
  have block : (packed.1.setSz k.layout p (size + packed.2.toNat)).next.block = w.next.block :=
    (put_block _ _ _).trans grows.block
  refine .of_le (n := size + packed.2.toNat) (here.trans block.symm) ?_ ?_
  · rw [sized.len, grows.len, unit, Nat.one_mul]
    omega
  · rw [field]
    exact Nat.mod_le _ _

theorem Request.packing_unit {packing : Packing} (packs : r.packing? = some packing) :
    r.cmd.layout.unit = 1 := by
  cases r with
  | obj packing => rfl
  | objDgram packing addr => rfl
  | _ => cases packs

theorem writeObj_append_ends {packing : Packing} (packs : r.packing? = some packing)
    (within : w.next.Within) (last : w.Ends r.cmd p)
    (fits : PackOp.Fits (w.next.limit - w.next.len) packing.ops)
    (succeeds : 0 ≤ (w.writeObj heap r packing p true).2) :
    (w.writeObj heap r packing p true).1.Ends r.cmd p := by
  have unit := Request.packing_unit packs
  have front := last.2
  rw [writeObj_result, if_pos rfl] at succeeds
  unfold Layout.chunkSize at front
  rw [unit, Nat.one_mul] at front
  have done := packed_ends heap within unit last.1 front fits
  obtain ⟨_, grows, -⟩ := pack_grows heap w.next.len within (Nat.le_refl _) fits
  unfold writeObj
  dsimp only
  rw [if_pos rfl, if_neg (Int.not_lt.mpr succeeds), getSz_kept last grows.kept]
  exact done

theorem writeObj_new_ends {packing : Packing} (packs : r.packing? = some packing)
    (stream : r.address? = none) (within : w.next.Within) (here : p.block = w.next.block)
    (behind : p.off = w.next.len) (room : p.off + r.cmd.layout.header ≤ w.next.limit)
    (fits : PackOp.Fits (w.next.limit - (p.off + r.cmd.layout.header)) packing.ops)
    (succeeds : 0 ≤ (w.writeObj heap r packing p false).2) :
    (w.writeObj heap r packing p false).1.Ends r.cmd p := by
  have unit := Request.packing_unit packs
  have head := commit_grows p.off r.cmd.layout.header w
  have pos := head.trans (setPos_grows (n := 0) (k := r.cmd) (here.trans head.block.symm)
    (by rwa [head.limit]) (Nat.le_refl _))
  rw [Nat.add_zero] at pos
  rw [writeObj_result, if_neg Bool.false_ne_true, stream] at succeeds
  rw [behind, ← pos.limit, ← pos.len] at fits
  have front : p.off + (r.cmd.layout.header + 0) ≤
      ((w.commit r.cmd.layout.header).setPos r.cmd.layout p 0).next.len := by
    rw [pos.len]
    omega
  have done := packed_ends heap (pos.within within (by omega)) unit (here.trans pos.block.symm) front fits
  unfold writeObj
  dsimp only
  rw [if_neg Bool.false_ne_true, stream]
  rw [if_neg (Int.not_lt.mpr succeeds)]
  rw [Nat.zero_add] at done
  exact done

theorem Request.cmd_ne_num (r : Request) : r.cmd ≠ .num := by
  cases r <;> exact nofun

theorem Request.stream_address (stream : r.isStream = true) : r.address? = none := by
  cases r with
  | dgram p addr => cases stream
  | objDgram packing addr => cases stream
  | _ => rfl

/-! ## Orderly sends -/

/-- The send finds room, a datagram does not follow a chunk that a later send
may be merged into, and the call succeeds or its reserve fails. -/
structure Orderly (heap : Heap) (w : Wbuf) (r : Request) (attached : Bool) : Prop where
  room : w.reserve heap (r.requiredSize (w.appends r)) ≠ none →
    r.Suits (w.appends r) (w.next.roomFor (r.requiredSize (w.appends r)))
  stream : r.isStream = false → w.lastWcmd = .num
  succeeds : w.reserve heap (r.requiredSize (w.appends r)) = none ∨
    0 ≤ (w.sendraw heap r attached).2

/-- The chunk that an append finds is in order. -/
theorem Valid.last (valid : w.Valid) (appends : w.appends r = true) : w.Ends r.cmd w.lastWriter := by
  have same : r.cmd = w.lastWcmd := of_decide_eq_true (Bool.and_eq_true_iff.mp appends).2
  exact same ▸ valid.tail (same ▸ Request.cmd_ne_num r)

theorem Valid.permits {attached : Bool} (valid : w.Valid) (orderly : w.Orderly heap r attached) :
    w.Permits heap r := ⟨orderly.room, valid.last⟩

theorem writeChunk_new_ends (stream : r.isStream = true) (within : w.next.Within)
    (here : p.block = w.next.block) (behind : p.off = w.next.len)
    (suits : r.Suits false (w.next.limit - w.next.len + 1))
    (enough : r.requiredSize false ≤ w.next.limit - w.next.len + 1)
    (succeeds : 0 ≤ (w.writeChunk heap r p false).2) :
    (w.writeChunk heap r p false).1.Ends r.cmd p := by
  have len := within.len
  have plain_address := Request.stream_address stream
  unfold Request.Suits at suits
  unfold writeChunk at succeeds ⊢
  cases equal : r.packing? with
  | none =>
      rw [equal] at suits
      dsimp only at suits
      rw [Request.requiredSize_plain equal, if_neg Bool.false_ne_true] at suits
      have less := suits.resolve_left Bool.false_ne_true
      exact writePlain_new_ends equal plain_address here behind (by omega)
  | some packing =>
      rw [equal] at suits succeeds
      have header := Request.header_lt equal
      have rest : w.next.limit - w.next.len + 1 - r.cmd.overhead false =
          w.next.limit - (p.off + r.cmd.layout.header) := by
        rw [Wcmd.overhead, if_neg Bool.false_ne_true, behind]
        omega
      exact writeObj_new_ends equal plain_address within here behind (by omega) (rest ▸ suits)
        succeeds

theorem writeChunk_append_ends (within : w.next.Within) (last : w.Ends r.cmd p)
    (suits : r.Suits true (w.next.limit - w.next.len))
    (enough : r.requiredSize true ≤ w.next.limit - w.next.len)
    (succeeds : 0 ≤ (w.writeChunk heap r p true).2) :
    (w.writeChunk heap r p true).1.Ends r.cmd p := by
  have len := within.len
  unfold Request.Suits at suits
  unfold writeChunk at succeeds ⊢
  cases equal : r.packing? with
  | none =>
      rw [Request.requiredSize_plain equal, if_pos rfl] at enough
      exact writePlain_append_ends equal last (by omega)
  | some packing =>
      rw [equal] at suits succeeds
      exact writeObj_append_ends equal within last suits succeeds

/-- A writer that has been placed and succeeds: its chunk ends within the bytes in
use, and a datagram writer leaves the last stream command alone. -/
theorem written_ends (valid : w.Valid) {attached : Bool} (orderly : w.Orderly heap r attached)
    (done : w.reserve heap (r.requiredSize (w.appends r)) = some w')
    (succeeds : 0 ≤ ((w'.placeWriter w.next.block r (w.appends r)).writeChunk heap r
      (w'.placeWriter w.next.block r (w.appends r)).lastWriter (w.appends r)).2) :
    let out := ((w'.placeWriter w.next.block r (w.appends r)).writeChunk heap r
      (w'.placeWriter w.next.block r (w.appends r)).lastWriter (w.appends r)).1
    (r.isStream = true → out.Ends r.cmd out.lastWriter) ∧ out.lastWcmd = w.lastWcmd := by
  obtain ⟨kept, reserved⟩ := reserve_some done valid.next
  have suits := orderly.room (by rw [done]; exact Option.some_ne_none _)
  have enough := Buf.roomFor_enough valid.next (r.requiredSize (w.appends r))
  rw [← reserved.room] at suits enough
  have len := reserved.within.len
  have command : w'.lastWcmd = w.lastWcmd := by rw [kept]
  cases appends : w.appends r with
  | false =>
      rw [appends] at suits enough succeeds
      have some_room := Request.requiredSize_pos r
      have pushed := push_grows (w := w') w'.next.len r.cmd.code (by omega) (Nat.le_refl _)
      have within : (w'.placeWriter w.next.block r false).next.Within :=
        pushed.within reserved.within (by omega)
      have room : w'.next.limit - w'.next.len =
          (w'.push r.cmd.code).next.limit - (w'.push r.cmd.code).next.len + 1 := by
        rw [pushed.limit, pushed.len]
        omega
      rw [room] at suits enough
      let placed := w'.placeWriter w.next.block r false
      obtain ⟨n, grows, -⟩ := @writeChunk_new heap placed placed.lastWriter r within rfl rfl suits
        enough
      refine ⟨fun stream => ?_, (grows.lastWcmd.trans pushed.lastWcmd).trans command⟩
      have ends := writeChunk_new_ends stream within rfl rfl suits enough succeeds
      rw [grows.lastWriter]
      exact ends
  | true =>
      rw [appends] at suits enough succeeds
      have last := valid.last appends
      rw [placeWriter_append kept last.1] at succeeds ⊢
      have moved := last.moved reserved.len reserved.kept
      let placed : Wbuf := { w' with lastWriter := ⟨w'.next.block, w.lastWriter.off⟩ }
      have within : placed.next.Within := reserved.within
      obtain ⟨n, grows, -⟩ := @writeChunk_append heap placed placed.lastWriter r within moved suits
        enough
      refine ⟨fun _ => ?_, grows.lastWcmd.trans command⟩
      have ends := writeChunk_append_ends (w := placed) within moved suits enough succeeds
      rw [grows.lastWriter]
      exact ends

/-- An orderly send keeps the write buffer in order. -/
theorem sendraw_valid {attached : Bool} (valid : w.Valid) (orderly : w.Orderly heap r attached) :
    (w.sendraw heap r attached).1.Valid := by
  have sound := sendraw_sound valid.toSound (valid.permits orderly) attached
  cases done : w.reserve heap (r.requiredSize (w.appends r)) with
  | none =>
      have same : w.sendraw heap r attached = ({ w with blocks := w.blocks + 1 }, -1) := by
        unfold sendraw
        simp only [done]
      rw [same]
      exact ⟨{ valid.toSound with }, valid.tail, valid.stream⟩
  | some w' =>
      have succeeds := orderly.succeeds.resolve_left (by rw [done]; exact Option.some_ne_none _)
      have written := written_ends valid orderly done
      rw [sendraw_reserved attached done] at sound succeeds ⊢
      dsimp only at sound succeeds ⊢
      generalize writeChunk heap _ r _ _ = out at *
      generalize whole : (if r.isStream = true then { out.1 with lastWcmd := r.cmd } else out.1) =
        after at *
      have attaches : after.attached = true ∨ attached = true := by
        by_contra failed
        rw [attach_failed after out.2 failed] at succeeds
        exact (by decide : ¬ (0 : ℤ) ≤ -24) succeeds
      obtain ⟨flag, same⟩ := attach_done after out.2 attaches
      rw [same] at sound succeeds ⊢
      obtain ⟨ends, command⟩ := written succeeds
      cases stream : r.isStream with
      | true =>
          rw [stream, if_pos rfl] at whole
          cases whole
          refine ⟨sound, fun _ => ends stream, ?_⟩
          exact fun datagram => of_decide_eq_true stream datagram
      | false =>
          rw [stream, if_neg Bool.false_ne_true] at whole
          cases whole
          have num : out.1.lastWcmd = .num := command.trans (orderly.stream stream)
          exact ⟨sound, fun last => absurd num last, fun datagram => nomatch num.symm.trans datagram⟩

theorem init_valid (m₀ m₁ : Mem) : (Wbuf.init m₀ m₁).Valid :=
  ⟨init_sound m₀ m₁, fun last => absurd rfl last, nofun⟩

/-- A write tick keeps the write buffer in order: a swap leaves no chunk to
append to, and draining leaves the `next` buffer alone. -/
theorem writeCommand_valid (valid : w.Valid) (os : List OsResult) : (w.writeCommand os).1.Valid := by
  have sound := writeCommand_sound valid.toSound os
  unfold writeCommand at sound ⊢
  split at sound
  case isTrue empty =>
      rw [if_pos empty]
      dsimp only at sound ⊢
      split at sound
      case isTrue none =>
          rw [if_pos none]
          exact ⟨sound, fun last => absurd rfl last, nofun⟩
      case isFalse some =>
          rw [if_neg some]
          exact ⟨sound, fun last => absurd rfl last, nofun⟩
  case isFalse filled =>
      rw [if_neg filled]
      exact ⟨sound, valid.tail, valid.stream⟩

end Wbuf

/-! ## Orderly runs -/

def Sys.Orderly (heap : Wbuf.Heap) (s : Sys) : Event → Prop
  | .send r attached => s.wbuf.Orderly heap r attached
  | .tick _ => True

/-- Every orderly run keeps the write buffer in order. -/
theorem orderly_valid {heap : Wbuf.Heap} {m₀ m₁ : Mem} {events : List Event}
    (orderly : Run.Along (Sys.step heap) (Sys.Orderly heap) (Sys.start m₀ m₁) events) :
    ((Sys.start m₀ m₁).run heap events).wbuf.Valid := by
  refine Run.holds_after (fun s => s.wbuf.Valid) (Sys.Orderly heap) (Wbuf.init_valid m₀ m₁)
    (fun s e valid orderly => ?_) orderly
  cases e with
  | send r attached => exact Wbuf.sendraw_valid valid orderly
  | tick os => exact Wbuf.writeCommand_valid valid os

end Cyue.Net
