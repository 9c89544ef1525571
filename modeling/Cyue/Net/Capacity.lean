import Cyue.Net.Drain
import Cyue.Net.Writers

/-!
# The capacity of the write buffers

Every send reserves the room that its writer asks for and then uses it in
parts: a command byte, the writer, its elements.  Both buffers stay within
their blocks along a run in which a new plain chunk finds room for its command
byte too, packers stay within the room there is, and a chunk that is appended
to ends within the bytes in use.
-/

namespace Cyue.Net

open Bytes Memory

/-! ## Conditions -/

/-- What a writer of kind `k` takes of the room before its elements. -/
def Wcmd.overhead (k : Wcmd) (append : Bool) : ℕ := if append then 0 else 1 + k.layout.header

/-- With `room` available after the reserve the request is written within it: a
new plain chunk finds one byte more than it has asked for, and a packer fits
behind the writer. -/
def Request.Suits (r : Request) (append : Bool) (room : ℕ) : Prop :=
  match r.packing? with
  | none => append = true ∨ r.requiredSize append < room
  | some packing => PackOp.Fits (room - r.cmd.overhead append) packing.ops

/-- The send at hand reaches none of the defects. -/
structure Wbuf.Permits (heap : Wbuf.Heap) (w : Wbuf) (r : Request) : Prop where
  room : w.reserve heap (r.requiredSize (w.appends r)) ≠ none →
    r.Suits (w.appends r) (w.next.roomFor (r.requiredSize (w.appends r)))
  last : w.appends r = true → w.Ends r.cmd w.lastWriter

def Sys.Permits (heap : Wbuf.Heap) (s : Sys) : Event → Prop
  | .send r _ => s.wbuf.Permits heap r
  | .tick _ => True

/-- No write has left its block, and each buffer keeps `ofs <= len <= limit`. -/
structure Wbuf.Sound (w : Wbuf) : Prop where
  fault : w.fault = false
  curr : w.curr.Within
  next : w.next.Within

namespace Wbuf

variable {heap : Heap} {w w' : Wbuf} {p : Ptr} {r : Request} {sz : ℕ}

/-! ## A send -/

theorem Sound.wrote (sound : w.Sound) (wrote : Wrote p w w') : w'.Sound := by
  obtain ⟨n, grows, room⟩ := wrote
  exact ⟨grows.fault.trans sound.fault, grows.curr ▸ sound.curr, grows.within sound.next room⟩

theorem reserve_some (done : w.reserve heap sz = some w') (within : w.next.Within) :
    w' = { w with next := w'.next, blocks := w.blocks + 1 } ∧
      Buf.Reserved w.blocks w.next w'.next sz := by
  obtain ⟨b, reserved, rfl⟩ := Option.map_eq_some_iff.mp done
  exact ⟨rfl, Buf.reserve_spec within reserved⟩

theorem writeChunk_new (within : w.next.Within) (here : p.block = w.next.block)
    (behind : p.off = w.next.len)
    (suits : r.Suits false (w.next.limit - w.next.len + 1))
    (enough : r.requiredSize false ≤ w.next.limit - w.next.len + 1) :
    Wrote p w (w.writeChunk heap r p false).1 := by
  have len := within.len
  unfold Request.Suits at suits
  unfold writeChunk
  generalize equal : r.packing? = packing at suits
  cases packing with
  | none =>
      rw [Request.requiredSize_plain equal, if_neg Bool.false_ne_true] at suits
      have less := suits.resolve_left Bool.false_ne_true
      exact writePlain_new here behind (by omega)
  | some packing =>
      have room : p.off + r.cmd.layout.header ≤ w.next.limit := by
        have header := Request.header_lt equal
        omega
      have rest : w.next.limit - w.next.len + 1 - r.cmd.overhead false =
          w.next.limit - (p.off + r.cmd.layout.header) := by
        rw [Wcmd.overhead, if_neg Bool.false_ne_true, behind]
        omega
      exact writeObj_new within here behind room (rest ▸ suits)

theorem writeChunk_append (within : w.next.Within) (last : w.Ends r.cmd p)
    (suits : r.Suits true (w.next.limit - w.next.len))
    (enough : r.requiredSize true ≤ w.next.limit - w.next.len) :
    Wrote p w (w.writeChunk heap r p true).1 := by
  have len := within.len
  unfold Request.Suits at suits
  unfold writeChunk
  generalize equal : r.packing? = packing at suits
  cases packing with
  | none =>
      rw [Request.requiredSize_plain equal, if_pos rfl] at enough
      exact writePlain_append last (by omega)
  | some packing => exact writeObj_append within last suits

theorem Layout.chunkSize_congr (k : Wcmd) {m m' : Mem} {off off' : ℕ}
    (same : ∀ i, i < k.layout.header → m (off + i) = m' (off' + i)) :
    k.layout.chunkSize m off = k.layout.chunkSize m' off' := by
  have fits := k.layout_sz
  have field : k.layout.getSz m off = k.layout.getSz m' off' := by
    refine loadLe_shift fun i inside => ?_
    rw [Nat.add_assoc, Nat.add_assoc]
    exact same _ (by omega)
  rw [Layout.chunkSize, field, Layout.chunkSize]

/-- A chunk is where it was when the bytes in use are kept. -/
theorem Ends.moved {k : Wcmd} (last : w.Ends k p) (len : w'.next.len = w.next.len)
    (kept : ∀ i, i < w.next.len → w'.next.mem i = w.next.mem i) :
    w'.Ends k ⟨w'.next.block, p.off⟩ := by
  obtain ⟨-, ends⟩ := last
  have same : k.layout.chunkSize w'.next.mem p.off = k.layout.chunkSize w.next.mem p.off := by
    refine Layout.chunkSize_congr k fun i inside => kept _ ?_
    unfold Layout.chunkSize at ends
    omega
  exact ⟨rfl, by dsimp only; rwa [same, len]⟩

/-- The chunk to append to moves with the block. -/
theorem placeWriter_append (kept : w' = { w with next := w'.next, blocks := w.blocks + 1 })
    (last : w.lastWriter.block = w.next.block) :
    w'.placeWriter w.next.block r true =
      { w' with lastWriter := ⟨w'.next.block, w.lastWriter.off⟩ } := by
  have same : w'.lastWriter = w.lastWriter := by rw [kept]
  rw [placeWriter, if_pos rfl]
  split
  case isTrue stays =>
      rw [← stays, ← last, ← same]
  case isFalse => rw [if_pos (same ▸ last), same]

theorem attach_sound (sound : w.Sound) (attached : Bool) (s : ℤ) : (w.attach attached s).1.Sound := by
  unfold attach
  split
  · exact sound
  · split
    · exact { sound with }
    · exact { sound with next := { sound.next with len := Nat.le_trans (Nat.sub_le _ _) sound.next.len } }

theorem Request.requiredSize_pos (r : Request) : 0 < r.requiredSize false := by
  cases r with
  | obj packing => exact (by decide : 0 < Request.initialBuffSize)
  | objDgram packing addr => exact (by decide : 0 < Request.initialBuffSize)
  | _ => exact Nat.lt_of_lt_of_le (by decide) (Nat.le_add_left _ _)

/-- A send whose reserve succeeds, as one expression. -/
theorem sendraw_reserved (attached : Bool)
    (done : w.reserve heap (r.requiredSize (w.appends r)) = some w') :
    w.sendraw heap r attached =
      let placed := w'.placeWriter w.next.block r (w.appends r)
      let written := placed.writeChunk heap r placed.lastWriter (w.appends r)
      (if r.isStream then { written.1 with lastWcmd := r.cmd } else written.1).attach attached
        written.2 := by
  unfold sendraw
  simp only [done]

/-- Where the poller takes the buffer on, nothing but the flag changes. -/
theorem attach_done {attached : Bool} (w : Wbuf) (s : ℤ) (done : w.attached = true ∨ attached = true) :
    ∃ flag, w.attach attached s = ({ w with attached := flag }, s) := by
  unfold attach
  split
  case isTrue => exact ⟨w.attached, rfl⟩
  case isFalse detached =>
      rw [if_pos (done.resolve_left detached)]
      exact ⟨true, rfl⟩

theorem attach_failed {attached : Bool} (w : Wbuf) (s : ℤ)
    (failed : ¬ (w.attached = true ∨ attached = true)) :
    w.attach attached s = ({ w with next := w.next.rollback (s % 2 ^ 64).toNat }, -24) := by
  rw [not_or] at failed
  rw [attach, if_neg failed.1, if_neg failed.2]

theorem attach_fault (w : Wbuf) (attached : Bool) (s : ℤ) :
    (w.attach attached s).1.fault = w.fault := by
  unfold attach
  split
  · rfl
  · split <;> rfl

/-- A send that is permitted writes within its room. -/
theorem sendraw_sound (sound : w.Sound) (permits : w.Permits heap r) (attached : Bool) :
    (w.sendraw heap r attached).1.Sound := by
  unfold sendraw
  dsimp only
  cases done : w.reserve heap (r.requiredSize (w.appends r)) with
  | none => exact { sound with }
  | some w' =>
      obtain ⟨kept, reserved⟩ := reserve_some done sound.next
      have suits := permits.room (by rw [done]; exact Option.some_ne_none _)
      have enough := Buf.roomFor_enough sound.next (r.requiredSize (w.appends r))
      rw [← reserved.room] at suits enough
      have sound' : w'.Sound :=
        ⟨by rw [kept]; exact sound.fault, by rw [kept]; exact sound.curr, reserved.within⟩
      have written : Sound ((w'.placeWriter w.next.block r (w.appends r)).writeChunk heap r
          (w'.placeWriter w.next.block r (w.appends r)).lastWriter (w.appends r)).1 := by
        cases appends : w.appends r with
        | false =>
            rw [appends] at suits enough
            have some_room := Request.requiredSize_pos r
            have pushed := push_grows (w := w') w'.next.len r.cmd.code (by omega) (Nat.le_refl _)
            have placed : Sound (w'.placeWriter w.next.block r false) :=
              { sound'.wrote (p := w'.lastP) ⟨_, pushed, by omega⟩ with }
            have room : w'.next.limit - w'.next.len =
                (w'.push r.cmd.code).next.limit - (w'.push r.cmd.code).next.len + 1 := by
              rw [pushed.limit, pushed.len]
              omega
            rw [room] at suits enough
            exact placed.wrote (writeChunk_new placed.next rfl rfl suits enough)
        | true =>
            rw [appends] at suits enough
            have last := permits.last appends
            rw [placeWriter_append kept last.1]
            have moved := last.moved reserved.len reserved.kept
            have placed : Sound { w' with lastWriter := ⟨w'.next.block, w.lastWriter.off⟩ } :=
              { sound' with }
            exact placed.wrote (writeChunk_append placed.next moved suits enough)
      refine attach_sound ?_ attached _
      split
      · exact { written with }
      · exact written

end Wbuf

/-! ## A write tick -/

/-- Draining moves bytes within the block and takes some out of use. -/
structure Buf.Drained (b b' : Buf) : Prop where
  limit : b'.limit = b.limit
  ofs : b'.ofs = b.ofs
  len : b'.len ≤ b.len

theorem Buf.shrink_drained (b : Buf) (mem : Mem) (sz : ℕ) :
    b.Drained ({ b with mem := mem }.shrink sz) := by
  unfold shrink
  split
  · exact ⟨rfl, rfl, Nat.zero_le _⟩
  · exact ⟨rfl, rfl, Nat.sub_le _ _⟩

theorem drain_drained (turns : ℕ) (os : List OsResult) (b : Buf) (now : ℕ) :
    b.Drained (drain turns os b now).1 := by
  have same : b.Drained b := ⟨rfl, rfl, Nat.le_refl _⟩
  induction turns generalizing os b now with
  | zero => exact b.shrink_drained b.mem now
  | succ turns ih =>
      rw [drain]
      split
      · cases Wcmd.ofCode (b.mem now) with
        | none => exact same
        | some k =>
            match os with
            | [] => exact same
            | .again :: _ => exact same
            | .pipe :: _ => exact same
            | .connReset :: _ => exact same
            | .accepted n :: os =>
                dsimp only
                split
                · have rest := ih os { b with mem := (sendChunk k b.mem (now + 1) n).2 }
                    (now + 1 + k.layout.chunkSize (sendChunk k b.mem (now + 1) n).2 (now + 1))
                    ⟨rfl, rfl, Nat.le_refl _⟩
                  exact ⟨rest.limit, rest.ofs, rest.len⟩
                · exact b.shrink_drained _ now
      · exact b.shrink_drained b.mem now

theorem Buf.Within.drained {b b' : Buf} (within : b.Within) (drained : b.Drained b') :
    b'.Within where
  ofs := drained.ofs.trans within.ofs
  len := drained.limit ▸ Nat.le_trans drained.len within.len
  pos := drained.limit ▸ within.pos
  small := drained.limit ▸ within.small

theorem writeCommand_sound {w : Wbuf} (sound : w.Sound) (os : List OsResult) :
    (w.writeCommand os).1.Sound := by
  unfold Wbuf.writeCommand
  split
  · dsimp only
    split
    · exact ⟨sound.fault, sound.next, sound.curr⟩
    · exact ⟨sound.fault, sound.next, sound.curr⟩
  · exact { sound with curr := sound.curr.drained (drain_drained _ os w.curr 0) }

/-! ## Runs -/

variable {heap : Wbuf.Heap} {m₀ m₁ : Mem}

theorem init_sound (m₀ m₁ : Mem) : (Wbuf.init m₀ m₁).Sound := by
  have pos : 0 < initialWbufSize := by decide
  have small : initialWbufSize < 2 ^ 63 := by decide
  exact ⟨rfl, ⟨rfl, Nat.zero_le _, pos, small⟩, ⟨rfl, Nat.zero_le _, pos, small⟩⟩

theorem step_sound {s : Sys} {e : Event} (sound : s.wbuf.Sound) (permits : s.Permits heap e) :
    (s.step heap e).wbuf.Sound := by
  cases e with
  | send r attached => exact Wbuf.sendraw_sound sound permits attached
  | tick os => exact writeCommand_sound sound os

/-- Along every run of permitted sends and of write ticks no write leaves its
block and both buffers keep `ofs <= len <= limit`. -/
theorem capacity {events : List Event}
    (permitted : Run.Along (Sys.step heap) (Sys.Permits heap) (Sys.start m₀ m₁) events) :
    let w := ((Sys.start m₀ m₁).run heap events).wbuf
    w.fault = false ∧ (w.curr.ofs ≤ w.curr.len ∧ w.curr.len ≤ w.curr.limit) ∧
      (w.next.ofs ≤ w.next.len ∧ w.next.len ≤ w.next.limit) := by
  have sound := Run.holds_after (fun s => s.wbuf.Sound) (Sys.Permits heap) (init_sound m₀ m₁)
    (fun _ _ => step_sound) permitted
  exact ⟨sound.fault, ⟨sound.curr.ofs ▸ Nat.zero_le _, sound.curr.len⟩,
    ⟨sound.next.ofs ▸ Nat.zero_le _, sound.next.len⟩⟩

/-- Two raw sends, the second appended to the first, and a partial drain. -/
theorem capacity_raw :
    let w := ((Sys.start (fun _ => 0) fun _ => 0).run (fun _ => none)
      [.send (.raw [1, 2, 3]) true, .send (.raw [4]) true, .tick [], .tick [.accepted 2]]).wbuf
    w.fault = false ∧ (w.curr.ofs ≤ w.curr.len ∧ w.curr.len ≤ w.curr.limit) ∧
      (w.next.ofs ≤ w.next.len ∧ w.next.len ≤ w.next.limit) := by
  refine capacity ⟨⟨fun _ => Or.inr (by decide), fun appends => absurd appends (by decide)⟩,
    ⟨fun _ => Or.inl rfl, fun _ => ⟨by decide, by decide⟩⟩, trivial, trivial, trivial⟩

/-! ## A chunk that takes just the room there is -/

theorem put_beyond {w : Wbuf} {p : Ptr} {bytes : List UInt8}
    (beyond : w.next.limit < p.off + bytes.length) : (w.put p bytes).fault = true := by
  unfold Wbuf.put
  split
  · exact (congrArg (w.fault || ·) (decide_eq_true beyond)).trans (Bool.or_true _)
  · rfl

/-- The command byte takes the last place, and the last element goes behind the
block. -/
theorem writePlain_exceeds {w : Wbuf} {p : Ptr} {r : Request} (here : p.block = w.next.block)
    (header : p.off + r.cmd.layout.header ≤ w.next.limit)
    (tight : w.next.limit < p.off + r.cmd.layout.header + r.image.length) :
    (w.writePlain r p false).1.fault = true := by
  have le := Nat.le_refl p.off
  have pos := Wbuf.setPos_grows (n := 0) here header le
  have sz := Wbuf.setSz_grows (n := r.count) (here.trans pos.block.symm) (by rwa [pos.limit]) le
  have head := pos.trans sz
  have addr := Wbuf.setAddr_grows (here.trans head.block.symm) (r := r) (by rwa [head.limit]) le
  have all := head.trans addr
  exact put_beyond (p := ⟨p.block, p.off + r.cmd.layout.header⟩) (by rwa [all.limit])

/-- A new plain chunk that takes just the room there is leaves the block. -/
theorem sendraw_exceeds {heap : Wbuf.Heap} {w : Wbuf} {r : Request} (sound : w.Sound)
    (appends : w.appends r = false) (plain : r.packing? = none) (filled : 0 < r.image.length)
    (tight : r.requiredSize false = w.next.limit - w.next.len) (attached : Bool) :
    (w.sendraw heap r attached).1.fault = true := by
  have len := sound.next.len
  have done := Wbuf.reserve_room heap sound.next (Nat.le_of_eq tight)
  rw [← appends] at done
  have size := Request.requiredSize_plain plain false
  rw [if_neg Bool.false_ne_true] at size
  have pushed := Wbuf.push_grows (w := { w with blocks := w.blocks + 1 }) w.next.len r.cmd.code
    (by dsimp only; omega) (Nat.le_refl _)
  have written : (Wbuf.writeChunk heap
      (Wbuf.placeWriter w.next.block { w with blocks := w.blocks + 1 } r false) r
      (Wbuf.placeWriter w.next.block { w with blocks := w.blocks + 1 } r false).lastWriter
      false).1.fault = true := by
    unfold Wbuf.writeChunk
    rw [plain]
    refine writePlain_exceeds rfl ?_ ?_
    · change (Wbuf.push _ _).next.len + _ ≤ (Wbuf.push _ _).next.limit
      rw [pushed.len, pushed.limit]
      dsimp only
      omega
    · change (Wbuf.push _ _).next.limit < (Wbuf.push _ _).next.len + _ + _
      rw [pushed.len, pushed.limit]
      dsimp only
      omega
  rw [Wbuf.sendraw_reserved attached done, Wbuf.attach_fault, appends]
  dsimp only
  split
  · exact written
  · exact written

/-- The first send of a run can take just the room there is. -/
theorem capacity_exceeded :
    ((Sys.start (fun _ => 0) fun _ => 0).run (fun _ => none)
      [.send (.raw (List.replicate 16368 0)) true]).wbuf.fault = true := by
  have length : (List.replicate 16368 (0 : UInt8)).length = 16368 := List.length_replicate
  generalize List.replicate 16368 (0 : UInt8) = p at length ⊢
  have tight : (Request.raw p).requiredSize false = 16384 - 0 := by
    rw [Request.requiredSize, length]
    rfl
  exact sendraw_exceeds (init_sound _ _) rfl rfl (by rw [Request.image, length]; decide) tight true

end Cyue.Net
