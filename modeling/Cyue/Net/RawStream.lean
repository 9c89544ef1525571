import Cyue.Net.Capacity

/-!
# Raw bytes through a write buffer

In a run of raw sends each buffer is empty or holds one raw chunk at its start:
later sends are merged into it until the buffers are swapped.  The bytes that
have been handed over, the rest of the chunk in `curr` and the chunk in `next`
are together the payloads sent so far.
-/

namespace Cyue.Net

open Bytes Memory

/-! ## One raw chunk -/

/-- A raw chunk at the start of a block, with its first `pos` bytes sent. -/
structure RawChunk (m : Mem) (payload : List UInt8) (pos : ℕ) : Prop where
  code : m 0 = 0
  sz : loadLe m 1 8 = payload.length
  sent : loadLe m 9 8 = pos
  body : load m 17 payload.length = payload
  le : pos ≤ payload.length
  small : payload.length < 2 ^ 63

namespace RawChunk

variable {m : Mem} {payload bytes : List UInt8} {pos : ℕ}

/-- What the writer of a new chunk leaves behind. -/
theorem written (m : Mem) (small : payload.length < 2 ^ 63) :
    RawChunk (store (storeLe (storeLe (store m 0 [0]) 9 8 0) 1 8 payload.length) 17 payload)
      payload 0 where
  code := by
    rw [store_of_lt (by decide), storeLe, store_of_lt (by decide), storeLe,
      store_of_lt (by decide)]
    rfl
  sz := by rw [loadLe_store_of_disjoint (Or.inl (by decide)), loadLe_storeLe (by omega)]
  sent := by
    rw [loadLe_store_of_disjoint (Or.inl (by decide)), loadLe_storeLe_of_disjoint (Or.inr (by decide)),
      loadLe_storeLe (by decide)]
  body := load_store _ _ _
  le := Nat.zero_le _
  small := small

/-- More bytes are merged into the chunk. -/
theorem appended (chunk : RawChunk m payload pos) (small : (payload ++ bytes).length < 2 ^ 63) :
    RawChunk (storeLe (store m (17 + payload.length) bytes) 1 8 (payload.length + bytes.length))
      (payload ++ bytes) pos where
  code := by
    rw [storeLe, store_of_lt (by decide), store_of_lt (by omega)]
    exact chunk.code
  sz := by
    rw [List.length_append] at small ⊢
    exact loadLe_storeLe (by omega)
  sent := by
    rw [loadLe_storeLe_of_disjoint (Or.inr (by decide)), loadLe_store_of_disjoint (Or.inl (by omega))]
    exact chunk.sent
  body := by
    have old : load (store m (17 + payload.length) bytes) 17 payload.length = payload := by
      rw [load_store_of_disjoint (Or.inl (Nat.le_refl _))]
      exact chunk.body
    rw [storeLe, load_store_of_disjoint (Or.inr (by rw [leBytes_length]; decide)),
      List.length_append, load_add, old, load_store]
  le := by
    rw [List.length_append]
    exact Nat.le_add_right_of_le chunk.le
  small := small

/-- The position moves when bytes have been sent. -/
theorem moved {n : ℕ} (chunk : RawChunk m payload pos) (le : pos + n ≤ payload.length) :
    RawChunk (storeLe m 9 8 (pos + n)) payload (pos + n) where
  code := (store_of_lt (by decide)).trans chunk.code
  sz := (loadLe_storeLe_of_disjoint (Or.inl (by decide))).trans chunk.sz
  sent := loadLe_storeLe (by have := chunk.small; omega)
  body := (load_store_of_disjoint (Or.inr (by rw [leBytes_length]))).trans chunk.body
  le := le
  small := chunk.small

/-- What is left to send of the chunk. -/
theorem rest (chunk : RawChunk m payload pos) :
    load m (17 + pos) (payload.length - pos) = payload.drop pos := by
  rw [load_drop m 17 chunk.le, chunk.body]

/-- The chunk is kept with the bytes in use. -/
theorem kept {m' : Mem} (chunk : RawChunk m payload pos)
    (same : ∀ i, i < 17 + payload.length → m' i = m i) : RawChunk m' payload pos where
  code := (same 0 (by omega)).trans chunk.code
  sz := (loadLe_congr fun i _ upper => same i (by omega)).trans chunk.sz
  sent := (loadLe_congr fun i _ upper => same i (by omega)).trans chunk.sent
  body := (load_congr fun i _ upper => same i upper).trans chunk.body
  le := chunk.le
  small := chunk.small

/-- A write call for the chunk. -/
theorem sendRaw (chunk : RawChunk m payload pos) (n : ℕ) :
    sendRaw m 1 n = (.bytes ((payload.drop pos).take n),
      storeLe m 9 8 (pos + ((payload.drop pos).take n).length)) := by
  have sent : Wcmd.raw.layout.getPos m 1 = pos := chunk.sent
  have size : Wcmd.raw.layout.getSz m 1 = payload.length := chunk.sz
  have rest : load m (1 + Wcmd.raw.layout.header + pos) (payload.length - pos) = payload.drop pos :=
    chunk.rest
  unfold Net.sendRaw
  dsimp only
  rw [sent, size, rest]
  rfl

/-- Shrinking by nothing keeps the chunk. -/
theorem shrunk {b : Buf} (chunk : RawChunk b.mem payload pos) : RawChunk (b.shrink 0).mem payload pos := by
  unfold Buf.shrink
  split
  · exact chunk
  · dsimp only
    rwa [Nat.sub_zero, store_load]

end RawChunk

/-! ## The bytes that are waiting -/

inductive Buf.Pending (b : Buf) : List UInt8 → Prop where
  | empty (none : b.len = 0) : Pending b []
  | chunk {payload : List UInt8} {pos : ℕ} (chunk : RawChunk b.mem payload pos)
      (len : b.len = 17 + payload.length) : Pending b (payload.drop pos)

/-- The same for the `next` buffer, whose chunk is the one that a raw send
appends to. -/
inductive Wbuf.Waiting (w : Wbuf) : List UInt8 → Prop where
  | empty (none : w.next.len = 0) (last : w.lastWcmd = .num) : Waiting w []
  | chunk {payload : List UInt8} (chunk : RawChunk w.next.mem payload 0)
      (len : w.next.len = 17 + payload.length) (last : w.lastWcmd = .raw)
      (writer : w.lastWriter = ⟨w.next.block, 1⟩) : Waiting w payload

theorem Buf.Pending.nil {b : Buf} {pending : List UInt8} (holds : b.Pending pending)
    (none : b.len = 0) : pending = [] := by
  cases holds with
  | empty => rfl
  | chunk chunk len => omega

/-- Only the `next` buffer and its last chunk matter. -/
theorem Wbuf.Waiting.same {w w' : Wbuf} {waiting : List UInt8} (holds : w.Waiting waiting)
    (next : w'.next = w.next) (last : w'.lastWcmd = w.lastWcmd)
    (writer : w'.lastWriter = w.lastWriter) : w'.Waiting waiting := by
  cases holds with
  | empty none num => exact .empty (next ▸ none) (last.trans num)
  | chunk chunk len raw here =>
      exact .chunk (next ▸ chunk) (next ▸ len) (last.trans raw) (writer.trans (next ▸ here))

theorem Wbuf.Waiting.pending {w : Wbuf} {waiting : List UInt8} (holds : w.Waiting waiting) :
    w.next.Pending waiting := by
  cases holds with
  | empty none last => exact .empty none
  | chunk chunk len last writer => exact .chunk chunk len

theorem Wbuf.Waiting.nil {w : Wbuf} {waiting : List UInt8} (holds : w.Waiting waiting)
    (none : w.next.len = 0) : waiting = [] := by
  cases holds with
  | empty => rfl
  | chunk chunk len => omega

/-! ## A write tick -/

/-- Behind the last chunk all that is in use has been sent. -/
theorem drain_end (turns : ℕ) (os : List OsResult) (b : Buf) :
    (drain turns os b b.len).2.1 = [] ∧ (drain turns os b b.len).1.len = 0 := by
  have shrunk : (b.shrink b.len).len = 0 := by rw [Buf.shrink, if_pos (Nat.le_refl _)]
  cases turns with
  | zero => exact ⟨rfl, shrunk⟩
  | succ turns =>
      rw [drain, if_neg (Nat.lt_irrefl _)]
      exact ⟨rfl, shrunk⟩

/-- One tick hands over a front part of what `curr` holds. -/
theorem drain_pending {os : List OsResult} {b : Buf} {pending : List UInt8}
    (holds : b.Pending pending) (filled : b.len ≠ 0) :
    ∃ (parts : List (List UInt8)) (left : List UInt8),
      (drain (b.len + 1) os b 0).2.1 = parts.map Handed.bytes ∧
      (drain (b.len + 1) os b 0).1.Pending left ∧ pending = parts.flatten ++ left := by
  cases holds with
  | empty none => exact absurd none filled
  | @chunk payload pos chunk len =>
      have inside : 0 < b.len := by omega
      have same : b.Pending (payload.drop pos) := .chunk chunk len
      have code : Wcmd.ofCode (b.mem 0) = some .raw := by rw [chunk.code]; rfl
      rw [drain, if_pos inside, code]
      cases os with
      | nil => exact ⟨[], _, rfl, same, rfl⟩
      | cons result os =>
          cases result with
          | again | pipe | connReset => exact ⟨[], _, rfl, same, rfl⟩
          | accepted n =>
              generalize taken_eq : (payload.drop pos).take n = taken
              have fits : pos + taken.length ≤ payload.length := by
                have le := chunk.le
                rw [← taken_eq, List.length_take, List.length_drop]
                omega
              have moved := chunk.moved fits
              have call : sendChunk .raw b.mem (0 + 1) n =
                  (.bytes taken, storeLe b.mem 9 8 (pos + taken.length)) := taken_eq ▸ chunk.sendRaw n
              have size : Wcmd.raw.layout.getSz (storeLe b.mem 9 8 (pos + taken.length)) (0 + 1) =
                  payload.length := moved.sz
              have sent : Wcmd.raw.layout.getPos (storeLe b.mem 9 8 (pos + taken.length)) (0 + 1) =
                  pos + taken.length := moved.sent
              have finish : Wcmd.raw.layout.finish (storeLe b.mem 9 8 (pos + taken.length)) (0 + 1) ↔
                  payload.length ≤ pos + taken.length := by
                rw [Layout.finish, size, sent]
              dsimp only
              rw [call]
              by_cases finished : payload.length ≤ pos + taken.length
              · rw [if_pos (finish.mpr finished)]
                have stop : 0 + 1 + Wcmd.raw.layout.chunkSize
                    (storeLe b.mem 9 8 (pos + taken.length)) (0 + 1) = b.len := by
                  rw [Layout.chunkSize, size, len]
                  change 0 + 1 + (16 + 1 * payload.length) = _
                  omega
                dsimp only
                rw [stop]
                obtain ⟨none, done⟩ := drain_end b.len os
                  { b with mem := storeLe b.mem 9 8 (pos + taken.length) }
                refine ⟨[taken], [], congrArg (Handed.bytes taken :: ·) none, .empty done, ?_⟩
                have whole : (payload.drop pos).take n = payload.drop pos := by
                  refine List.take_of_length_le ?_
                  rw [← taken_eq, List.length_take, List.length_drop] at finished
                  rw [List.length_drop]
                  omega
                rw [List.flatten_singleton, List.append_nil, ← taken_eq, whole]
              · rw [if_neg fun done => finished (finish.mp done)]
                have again : Buf.Pending
                    (Buf.shrink { b with mem := storeLe b.mem 9 8 (pos + taken.length) } 0)
                    (payload.drop (pos + taken.length)) := by
                  refine .chunk (RawChunk.shrunk (b := { b with mem := _ }) moved) ?_
                  rw [Buf.shrink, if_neg (by dsimp only; omega)]
                  exact len
                refine ⟨[taken], _, rfl, again, ?_⟩
                have front : taken = (payload.drop pos).take taken.length := by
                  rw [← taken_eq, List.length_take, List.take_eq_take_min]
                rw [List.flatten_singleton, ← List.drop_drop]
                exact (List.take_append_drop _ _).symm.trans (congrArg (· ++ _) front.symm)

/-! ## A raw send -/

namespace Wbuf

variable {heap : Heap} {w w' : Wbuf} {p : Ptr} {bytes : List UInt8} {sz : ℕ}

theorem placeWriter_asserted (org : ℕ) (w : Wbuf) (r : Request) (append : Bool) :
    (w.placeWriter org r append).asserted = w.asserted := by
  unfold placeWriter
  split
  · split
    · rfl
    · split <;> rfl
  · exact put_asserted _ _ _

theorem placeWriter_attached (org : ℕ) (w : Wbuf) (r : Request) (append : Bool) :
    (w.placeWriter org r append).attached = w.attached := by
  unfold placeWriter
  split
  · split
    · rfl
    · split <;> rfl
  · exact put_attached _ _ _

/-- The writer of a new chunk at the start of the buffer. -/
theorem writePlain_raw_new (here : p.block = w.next.block) (start : p.off = 1)
    (room : 17 + bytes.length ≤ w.next.limit) :
    (w.writePlain (.raw bytes) p false).1 =
      { w with
        next := { w.next with
          mem := store (storeLe (storeLe w.next.mem 9 8 0) 1 8 bytes.length) 17 bytes
          len := w.next.len + (16 + bytes.length) }
        asserted := w.asserted && decide (w.next.len + (16 + bytes.length) ≤ w.next.limit) } := by
  obtain ⟨block, off⟩ := p
  cases start
  cases here
  have header : 17 ≤ w.next.limit := Nat.le_trans (Nat.le_add_right 17 _) room
  have front : 9 ≤ w.next.limit := Nat.le_trans (by decide) header
  have sent : w.setPos Wcmd.raw.layout ⟨w.next.block, 1⟩ 0 = w.stored 9 (leBytes 8 0) :=
    put_inside rfl (by rw [leBytes_length]; exact header)
  have size : (w.stored 9 (leBytes 8 0)).setSz Wcmd.raw.layout ⟨w.next.block, 1⟩ bytes.length =
      (w.stored 9 (leBytes 8 0)).stored 1 (leBytes 8 bytes.length) :=
    put_inside rfl (by rw [leBytes_length]; exact front)
  have body : ((w.stored 9 (leBytes 8 0)).stored 1 (leBytes 8 bytes.length)).put
      ⟨w.next.block, 17⟩ bytes = _ := put_inside rfl room
  change ((((w.setPos Wcmd.raw.layout ⟨w.next.block, 1⟩ 0).setSz Wcmd.raw.layout _
    bytes.length).put ⟨w.next.block, 17⟩ bytes).commit (16 + bytes.length)) = _
  rw [sent, size, body]
  rfl

/-- The writer of a chunk that is appended to. -/
theorem writePlain_raw_append {payload : List UInt8} (here : p.block = w.next.block)
    (start : p.off = 1) (chunk : RawChunk w.next.mem payload 0)
    (room : 17 + payload.length + bytes.length ≤ w.next.limit) :
    (w.writePlain (.raw bytes) p true).1 =
      { w with
        next := { w.next with
          mem := storeLe (store w.next.mem (17 + payload.length) bytes) 1 8
            (payload.length + bytes.length)
          len := w.next.len + bytes.length }
        asserted := w.asserted && decide (w.next.len + bytes.length ≤ w.next.limit) } := by
  obtain ⟨block, off⟩ := p
  cases start
  cases here
  have size : Wcmd.raw.layout.getSz w.next.mem 1 = payload.length := chunk.sz
  have behind : (1 + Wcmd.raw.layout.header + Wcmd.raw.layout.unit *
      Wcmd.raw.layout.getSz w.next.mem 1) = 17 + payload.length := by
    rw [size]
    exact congrArg (17 + ·) (Nat.one_mul _)
  have body : w.put ⟨w.next.block, 17 + payload.length⟩ bytes =
      w.stored (17 + payload.length) bytes := put_inside rfl room
  have header : 9 ≤ w.next.limit := by omega
  have grown : (w.stored (17 + payload.length) bytes).setSz Wcmd.raw.layout ⟨w.next.block, 1⟩
      (payload.length + bytes.length) = _ := put_inside rfl (by rw [leBytes_length]; exact header)
  unfold writePlain
  rw [if_pos rfl]
  dsimp only [Request.cmd, Request.image, Request.count]
  rw [size, ← size, behind, size, body, grown]
  rfl

/-- The assertion of `commit` in the writer. -/
theorem writePlain_asserted (w : Wbuf) (p : Ptr) (bytes : List UInt8) (append : Bool) :
    (w.writePlain (.raw bytes) p append).1.asserted = (w.asserted &&
      decide (w.next.len + ((if append then 0 else 16) + bytes.length) ≤ w.next.limit)) := by
  cases append with
  | true =>
      simp only [writePlain, if_true, commit, setSz, put_len, put_limit, put_asserted,
        Request.image, Nat.zero_add]
  | false =>
      simp only [writePlain, Bool.false_eq_true, if_false, commit, setSz, setPos, setAddr,
        Request.address?, put_len, put_limit, put_asserted, Request.image, Request.cmd,
        Wcmd.layout]

/-- A send that went through: the payloads that wait in the `next` buffer, with
nothing else changed. -/
structure Appended (w : Wbuf) (waiting : List UInt8) (w' : Wbuf) : Prop where
  waiting : w'.Waiting waiting
  within : w'.next.Within
  curr : w'.curr = w.curr

theorem attach_asserted (w : Wbuf) (attached : Bool) (s : ℤ) :
    (w.attach attached s).1.asserted = w.asserted := by
  unfold attach
  split
  · rfl
  · split <;> rfl

/-- An assertion that has failed stays failed. -/
theorem sendraw_asserted {attached : Bool}
    (asserted : (w.sendraw heap (.raw bytes) attached).1.asserted = true) : w.asserted = true := by
  cases reserve : w.reserve heap ((Request.raw bytes).requiredSize (w.appends (.raw bytes))) with
  | none =>
      unfold sendraw at asserted
      simp only [reserve] at asserted
      exact asserted
  | some w' =>
      obtain ⟨b, -, rfl⟩ := Option.map_eq_some_iff.mp reserve
      rw [sendraw_reserved attached reserve] at asserted
      dsimp only at asserted
      rw [attach_asserted, if_pos (by rfl)] at asserted
      have held := writePlain_asserted _ _ _ _ ▸ asserted
      have before := (Bool.and_eq_true_iff.mp held).1
      rwa [placeWriter_asserted] at before

/-- What a raw send with room for all of it does to the `next` buffer. -/
theorem writeRaw_waiting (heap : Heap) {wait : List UInt8} (reserved : Buf.Reserved w.blocks w.next w'.next sz)
    (kept : w' = { w with next := w'.next, blocks := w.blocks + 1 })
    (waiting : w.Waiting wait)
    (asserted : ((w'.placeWriter w.next.block (.raw bytes) (w.appends (.raw bytes))).writeChunk heap
      (.raw bytes) (w'.placeWriter w.next.block (.raw bytes) (w.appends (.raw bytes))).lastWriter
      (w.appends (.raw bytes))).1.asserted = true) :
    Appended w (wait ++ bytes) { ((w'.placeWriter w.next.block (.raw bytes)
      (w.appends (.raw bytes))).writeChunk heap (.raw bytes) (w'.placeWriter w.next.block
      (.raw bytes) (w.appends (.raw bytes))).lastWriter (w.appends (.raw bytes))).1 with
      lastWcmd := .raw } := by
  have small := reserved.within.small
  have curr : w'.curr = w.curr := by rw [kept]
  cases waiting with
  | empty none last =>
      have appends : w.appends (.raw bytes) = false := by
        rw [appends, last]
        rfl
      rw [appends] at asserted ⊢
      have start : w'.next.len = 0 := reserved.len.trans none
      have pushed := push_grows (w := w') 0 0 (by rw [start]; exact reserved.within.pos)
        (Nat.zero_le _)
      have length : (w'.push 0).next.len = 1 := by rw [pushed.len, start]
      let placed : Wbuf := { w'.push 0 with lastWriter := (w'.push 0).lastP }
      have room : placed.next.len + (16 + bytes.length) ≤ placed.next.limit := by
        have held := writePlain_asserted placed placed.lastWriter bytes false ▸ asserted
        exact of_decide_eq_true (Bool.and_eq_true_iff.mp held).2
      have length' : placed.next.len = 1 := length
      have fits : 17 + bytes.length ≤ placed.next.limit := by omega
      have memory : placed.next.mem = store w'.next.mem 0 [0] := by
        have first := @put_inside w' w'.lastP [0] rfl
          (by change w'.next.len + 1 ≤ w'.next.limit; rw [start]; exact reserved.within.pos)
        change (w'.put w'.lastP [0]).next.mem = _
        rw [first]
        exact congrArg (store w'.next.mem · [0]) start
      have limit : placed.next.limit = w'.next.limit := pushed.limit
      have equation := writePlain_raw_new (w := placed) (p := placed.lastWriter) rfl length
        fits
      change Appended w bytes { (placed.writePlain (.raw bytes) placed.lastWriter false).1 with
        lastWcmd := .raw }
      rw [equation]
      refine ⟨.chunk ?_ ?_ rfl ?_, ⟨?_, room, ?_, ?_⟩, ?_⟩
      · dsimp only
        rw [memory]
        exact RawChunk.written _ (by omega)
      · dsimp only
        omega
      · change (⟨placed.next.block, placed.next.len⟩ : Ptr) = ⟨placed.next.block, 1⟩
        rw [length']
      · exact pushed.ofs.trans reserved.within.ofs
      · exact limit ▸ reserved.within.pos
      · exact limit ▸ small
      · exact pushed.curr.trans curr
  | chunk chunk len last writer =>
      have appends : w.appends (.raw bytes) = true := by
        rw [appends, last]
        rfl
      rw [appends] at asserted ⊢
      rw [placeWriter_append kept (by rw [writer])] at asserted ⊢
      let placed : Wbuf := { w' with lastWriter := ⟨w'.next.block, w.lastWriter.off⟩ }
      have room : placed.next.len + (0 + bytes.length) ≤ placed.next.limit := by
        have held := writePlain_asserted placed placed.lastWriter bytes true ▸ asserted
        exact of_decide_eq_true (Bool.and_eq_true_iff.mp held).2
      have length : placed.next.len = 17 + _ := reserved.len.trans len
      have start : placed.lastWriter.off = 1 := by
        change w.lastWriter.off = 1
        rw [writer]
      have moved : RawChunk placed.next.mem wait 0 := chunk.kept fun i before =>
        reserved.kept i (len ▸ before)
      have fits : 17 + wait.length + bytes.length ≤ placed.next.limit := by omega
      have limit : placed.next.limit < 2 ^ 63 := small
      have equation := writePlain_raw_append (w := placed) (p := placed.lastWriter) rfl start moved
        fits
      change Appended w (wait ++ bytes) { (placed.writePlain (.raw bytes) placed.lastWriter true).1
        with lastWcmd := .raw }
      rw [equation]
      refine ⟨.chunk ?_ ?_ rfl ?_, ⟨reserved.within.ofs, by dsimp only; omega,
        reserved.within.pos, small⟩, curr⟩
      · exact moved.appended (by rw [List.length_append]; omega)
      · dsimp only
        rw [List.length_append]
        omega
      · change (⟨w'.next.block, w.lastWriter.off⟩ : Ptr) = ⟨w'.next.block, 1⟩
        rw [writer]

/-- The send of a payload: it fails and nothing waits in addition, or it
succeeds and the payload waits behind the others. -/
theorem sendraw_waiting {wait : List UInt8} {attached : Bool} (within : w.next.Within)
    (waiting : w.Waiting wait) (done : w.attached = true ∨ attached = true)
    (fits : 0 ≤ intOfSize ((Request.raw bytes).requiredSize (w.appends (.raw bytes)) : ℕ))
    (asserted : (w.sendraw heap (.raw bytes) attached).1.asserted = true) :
    ((w.sendraw heap (.raw bytes) attached).2 < 0 ∧
      Appended w wait (w.sendraw heap (.raw bytes) attached).1) ∨
    (0 ≤ (w.sendraw heap (.raw bytes) attached).2 ∧
      Appended w (wait ++ bytes) (w.sendraw heap (.raw bytes) attached).1) := by
  cases reserve : w.reserve heap ((Request.raw bytes).requiredSize (w.appends (.raw bytes))) with
  | none =>
      have failed : w.sendraw heap (.raw bytes) attached = ({ w with blocks := w.blocks + 1 }, -1) := by
        unfold sendraw
        simp only [reserve]
      rw [failed]
      exact Or.inl ⟨(by decide : (-1 : ℤ) < 0), waiting.same rfl rfl rfl, within, rfl⟩
  | some w' =>
      obtain ⟨kept, reserved⟩ := reserve_some reserve within
      rw [sendraw_reserved attached reserve] at asserted ⊢
      dsimp only at asserted ⊢
      rw [if_pos (by rfl)] at asserted ⊢
      generalize written_eq : writeChunk heap _ (Request.raw bytes) _ _ = written at asserted ⊢
      have result : written.2 = intOfSize ((Request.raw bytes).requiredSize
          (w.appends (.raw bytes)) : ℕ) := by
        rw [← written_eq]
        exact writePlain_size rfl _ _ _
      have flag : written.1.attached = w.attached := by
        rw [← written_eq]
        refine (writePlain_adds _ _ _ _).attached.trans ((placeWriter_attached _ _ _ _).trans ?_)
        rw [kept]
      obtain ⟨flag, taken_on⟩ := @attach_done attached { written.1 with lastWcmd := .raw } written.2
        (flag ▸ done)
      change ((Wbuf.attach { written.1 with lastWcmd := .raw } attached written.2).1).asserted = true
        at asserted
      change _ ∨ 0 ≤ (Wbuf.attach { written.1 with lastWcmd := .raw } attached written.2).2 ∧
        Appended w _ (Wbuf.attach { written.1 with lastWcmd := .raw } attached written.2).1
      rw [taken_on] at asserted ⊢
      have grown := writeRaw_waiting heap reserved kept waiting
        (by rw [written_eq]; exact asserted)
      rw [written_eq] at grown
      exact Or.inr ⟨result ▸ fits, grown.waiting.same rfl rfl rfl, grown.within, grown.curr⟩

end Wbuf

/-! ## Runs -/

/-- The send is raw and goes through: its result is no negative `int`, and where
`sender.attach()` is called it succeeds. -/
def Sys.Delivers (s : Sys) : Event → Prop
  | .send (.raw p) attached =>
      (s.wbuf.attached = true ∨ attached = true) ∧
        0 ≤ intOfSize ((Request.raw p).requiredSize (s.wbuf.appends (.raw p)) : ℕ)
  | .send _ _ => False
  | .tick _ => True

/-- What has been handed over, what the chunk in `curr` has left and what waits
in `next` are together the payloads of the successful sends. -/
structure Sys.Streams (s : Sys) : Prop where
  curr : s.wbuf.curr.Within
  next : s.wbuf.next.Within
  bytes : ∃ (parts : List (List UInt8)) (pending waiting : List UInt8),
    s.handed = parts.map Handed.bytes ∧ s.wbuf.curr.Pending pending ∧ s.wbuf.Waiting waiting ∧
      s.sent.flatMap Request.image = parts.flatten ++ pending ++ waiting

theorem step_send (heap : Wbuf.Heap) (s : Sys) (r : Request) (attached : Bool) :
    s.step heap (.send r attached) =
      { s with
        wbuf := (s.wbuf.sendraw heap r attached).1
        sent := if 0 ≤ (s.wbuf.sendraw heap r attached).2 then s.sent ++ [r] else s.sent } := rfl

theorem step_tick (heap : Wbuf.Heap) (s : Sys) (os : List OsResult) :
    s.step heap (.tick os) =
      { s with
        wbuf := (s.wbuf.writeCommand os).1
        handed := s.handed ++ (s.wbuf.writeCommand os).2.1 } := rfl

theorem start_streams (m₀ m₁ : Mem) : (Sys.start m₀ m₁).Streams := by
  have sound := init_sound m₀ m₁
  exact ⟨sound.curr, sound.next, [], [], [], rfl, .empty rfl, .empty rfl rfl, rfl⟩

theorem writeCommand_asserted (w : Wbuf) (os : List OsResult) :
    (w.writeCommand os).1.asserted = w.asserted := by
  unfold Wbuf.writeCommand
  split
  · dsimp only
    split <;> rfl
  · rfl

theorem step_asserted {heap : Wbuf.Heap} {s : Sys} {e : Event} (delivers : s.Delivers e)
    (asserted : (s.step heap e).wbuf.asserted = true) : s.wbuf.asserted = true := by
  cases e with
  | tick os => exact (writeCommand_asserted s.wbuf os).symm.trans asserted
  | send r attached =>
      cases r with
      | raw p => exact Wbuf.sendraw_asserted asserted
      | _ => exact delivers.elim

/-- One event moves bytes along: from the payloads to `next`, from `next` to
`curr`, from `curr` to the system. -/
theorem step_streams {heap : Wbuf.Heap} {s : Sys} {e : Event} (streams : s.Streams)
    (delivers : s.Delivers e) (asserted : (s.step heap e).wbuf.asserted = true) :
    (s.step heap e).Streams := by
  obtain ⟨curr, next, parts, pending, waiting, handed, holds, waits, bytes⟩ := streams
  cases e with
  | send r attached =>
      cases r with
      | raw p =>
          obtain ⟨done, fits⟩ := delivers
          rw [step_send]
          rcases Wbuf.sendraw_waiting next waits done fits asserted with ⟨failed, same⟩ | ⟨went, grown⟩
          · refine ⟨same.curr ▸ curr, same.within, parts, pending, waiting, handed,
              same.curr ▸ holds, same.waiting, ?_⟩
            dsimp only
            rw [if_neg (Int.not_le.mpr failed)]
            exact bytes
          · refine ⟨grown.curr ▸ curr, grown.within, parts, pending, waiting ++ p, handed,
              grown.curr ▸ holds, grown.waiting, ?_⟩
            dsimp only
            rw [if_pos went, List.flatMap_append, bytes, List.append_assoc, List.flatMap_singleton]
            rfl
      | _ => exact delivers.elim
  | tick os =>
      rw [step_tick]
      unfold Wbuf.writeCommand
      by_cases empty : s.wbuf.curr.len = 0
      · rw [if_pos empty]
        cases holds.nil empty
        have swapped : ({ s.wbuf with curr := s.wbuf.next, next := s.wbuf.curr, lastWcmd := .num } :
            Wbuf).Waiting [] := .empty empty rfl
        have bytes' : s.sent.flatMap Request.image = parts.flatten ++ waiting ++ [] := by
          rw [bytes, List.append_nil, List.append_nil]
        dsimp only
        split
        · exact ⟨next, curr, parts, waiting, [], by rw [List.append_nil, handed], waits.pending,
            swapped.same rfl rfl rfl, bytes'⟩
        · exact ⟨next, curr, parts, waiting, [], by rw [List.append_nil, handed], waits.pending,
            swapped, bytes'⟩
      · rw [if_neg empty]
        obtain ⟨more, left, call, holds', split⟩ := @drain_pending os _ _ holds empty
        refine ⟨curr.drained (drain_drained _ os _ 0), next, parts ++ more, left, waiting, ?_,
          holds', waits.same rfl rfl rfl, ?_⟩
        · dsimp only
          rw [handed, call, List.map_append]
        · rw [bytes, split, List.flatten_append]
          simp only [List.append_assoc]

/-- Along every run of raw sends that go through and of write ticks, the bytes
that have been handed to the system are a front part of the payloads sent, and
with both buffers empty they are all of them. -/
theorem raw_stream {heap : Wbuf.Heap} {m₀ m₁ : Mem} {events : List Event}
    (delivers : Run.Along (Sys.step heap) Sys.Delivers (Sys.start m₀ m₁) events)
    (asserted : ((Sys.start m₀ m₁).run heap events).wbuf.asserted = true) :
    let s := (Sys.start m₀ m₁).run heap events
    ∃ parts : List (List UInt8), s.handed = parts.map Handed.bytes ∧
      parts.flatten <+: s.sent.flatMap Request.image ∧
      (s.wbuf.curr.len = 0 → s.wbuf.next.len = 0 →
        parts.flatten = s.sent.flatMap Request.image) := by
  have streams := Run.holds_after (fun s => s.wbuf.asserted = true → s.Streams) Sys.Delivers
    (fun _ => start_streams m₀ m₁)
    (fun s e streams delivers asserted =>
      step_streams (streams (step_asserted delivers asserted)) delivers asserted)
    delivers asserted
  obtain ⟨-, -, parts, pending, waiting, handed, holds, waits, bytes⟩ := streams
  refine ⟨parts, handed, ⟨pending ++ waiting, ?_⟩, fun curr next => ?_⟩
  · exact (List.append_assoc _ _ _).symm.trans bytes.symm
  · have bytes' := bytes.symm
    rw [holds.nil curr, waits.nil next, List.append_nil, List.append_nil] at bytes'
    exact bytes'

/-- Two payloads merged into one chunk, sent in three calls around a swap. -/
theorem raw_stream_merged :
    let s := (Sys.start (fun _ => 0) fun _ => 0).run (fun _ => none)
      [.send (.raw [1, 2, 3]) true, .send (.raw [4]) true, .tick [], .tick [.accepted 2],
        .send (.raw [5]) true, .tick [.accepted 9], .tick [], .tick [.again]]
    ∃ parts : List (List UInt8), s.handed = parts.map Handed.bytes ∧
      parts.flatten <+: s.sent.flatMap Request.image ∧
      (s.wbuf.curr.len = 0 → s.wbuf.next.len = 0 →
        parts.flatten = s.sent.flatMap Request.image) := by
  refine raw_stream ⟨⟨Or.inr rfl, by decide⟩, ⟨Or.inr rfl, by decide⟩, trivial, trivial,
    ⟨Or.inr rfl, by decide⟩, trivial, trivial, trivial, trivial⟩ (by decide)

/-- A payload whose send has failed is handed over with the next one. -/
theorem raw_stream_mixed :
    let s := (Sys.start (fun _ => 0) fun _ => 0).run (fun _ => none)
      [.send (.raw [1]) false, .send (.raw [2]) true, .tick [], .tick [.accepted 9]]
    s.wbuf.asserted = true ∧ s.handed = [.bytes [1, 2]] ∧
      ¬ [1, 2] <+: s.sent.flatMap Request.image := by
  decide

end Cyue.Net
