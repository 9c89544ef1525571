import Cyue.Net.Queue

/-!
# Mixed chunks drained

A write tick hands over the chunks of `curr` from the front.  A pass that stops at an error
leaves the chunks it has finished in the buffer, and the next one calls their writers again:
nothing comes of it for raw bytes, but a datagram goes out a second time, empty, and a file
writer reads behind its entries.  Where no call meets such a chunk, and none takes the rest of
the vectors, all that was sent is handed over once and in order.
-/

namespace Cyue.Net

open Bytes Memory

/-! ## The calls -/

/-- The call goes right: it does not take all that is left of the vectors, a file or a datagram
is not finished yet, and the datagram is taken as a whole. -/
def Wcmd.Proceeds (k : Wcmd) (m : Mem) (off n : ℕ) : Prop :=
  match k with
  | .iovec =>
      let l := Wcmd.iovec.layout
      let left := (List.range (l.getSz m off - l.getPos m off)).map fun i =>
        iovEntry m off (l.getPos m off + i)
      (left.map IoVec.len).sum ≤ n → (left.map IoVec.len).sum = 0
  | .file => ¬ Wcmd.file.layout.finish m off
  | .dgram => ¬ Wcmd.dgram.layout.finish m off ∧
      Wcmd.dgram.layout.getSz m off - Wcmd.dgram.layout.getPos m off ≤ n
  | .raw | .num => True

instance decidableProceeds (k : Wcmd) (m : Mem) (off n : ℕ) : Decidable (k.Proceeds m off n) :=
  match k with
  | .iovec => inferInstanceAs (Decidable (_ → _))
  | .file => inferInstanceAs (Decidable (¬ _))
  | .dgram => inferInstanceAs (Decidable (_ ∧ _))
  | .raw => isTrue trivial
  | .num => isTrue trivial

theorem FileArg.atoms_split (f : FileArg) {wb : ℕ} (le : wb ≤ f.cnt) :
    f.atoms = atoms ⟨f.inFd, f.ofs, wb⟩ ++ atoms ⟨f.inFd, f.ofs + wb, f.cnt - wb⟩ := by
  unfold atoms
  dsimp only
  rw [← List.map_append, List.range'_append_1, Nat.add_sub_of_le le]

namespace Chunk

variable {m m' : Mem} {off n : ℕ} {c c' : Chunk}

/-- A call of the writer has handed over the front of what was left, and has changed the chunk
alone. -/
structure Called (c c' : Chunk) (m' : Mem) (m : Mem) (off : ℕ) (handed : Handed) : Prop where
  here : c'.At m' off
  cmd : c'.cmd = c.cmd
  sz : c'.sz = c.sz
  kept : ∀ i, i < off ∨ off + c.size ≤ i → m' i = m i
  atoms : c.pending = handed.atoms ++ c'.pending

def moveTo : Chunk → ℕ → Chunk
  | .raw p _, n => .raw p n
  | .iov c, n => .iov { c with pos := n }
  | .file fds _, n => .file fds n
  | .dgram addr p _, n => .dgram addr p n

/-- The position is set. -/
theorem At.moveTo (lies : c.Lies m off) (few : c.sz < 256 ^ c.cmd.layout.width) (le : n ≤ c.sz)
    (bounded : (c.moveTo n).Bounded) :
    (c.moveTo n).At (storeLe m (off + 1 + c.cmd.layout.pos) c.cmd.layout.width n) off := by
  have fits := c.cmd.layout_pos
  have apart := c.cmd.layout_apart
  have cmd : (c.moveTo n).cmd = c.cmd := by
    cases c with
    | _ => rfl
  have sz : (c.moveTo n).sz = c.sz := by
    cases c with
    | _ => rfl
  have pos : (c.moveTo n).pos = n := by
    cases c with
    | _ => rfl
  have elements : c.Elements (storeLe m (off + 1 + c.cmd.layout.pos) c.cmd.layout.width n) (off + 1) := by
    refine lies.elements.moved fun i outside _ => ?_
    rw [storeLe, store_apart (by rw [leBytes_length]; omega)]
  exact {
    code := by
      rw [cmd, storeLe, store_of_lt (by omega)]
      exact lies.code
    sz := by
      rw [cmd, sz, ← lies.sz, Layout.getSz, loadLe, storeLe, load_store_of_disjoint (.inl (by omega))]
      rfl
    pos := by
      rw [cmd, pos]
      exact loadLe_storeLe (le.trans_lt few)
    elements := by
      cases c with
      | _ => exact elements
    few := by rwa [cmd, sz]
    within := by rwa [pos, sz]
    bounded := bounded }

theorem setPos_kept {i : ℕ} (outside : i < off ∨ off + c.size ≤ i) :
    storeLe m (off + 1 + c.cmd.layout.pos) c.cmd.layout.width n i = m i := by
  have fits := c.cmd.layout_pos
  unfold size at outside
  rw [storeLe, store_apart (by rw [leBytes_length]; omega)]

theorem At.call_raw {p : List UInt8} {pos : ℕ} (here : (Chunk.raw p pos).At m off) (n : ℕ) :
    ∃ c', Called (.raw p pos) c' (sendRaw m (off + 1) n).2 m off (sendRaw m (off + 1) n).1 := by
  have within : pos ≤ p.length := here.within
  have sent : Wcmd.raw.layout.getPos m (off + 1) = pos := here.pos
  have size : Wcmd.raw.layout.getSz m (off + 1) = p.length := here.sz
  have body : load m (off + 1 + Wcmd.raw.layout.header) p.length = p := here.elements
  have rest := load_drop m (off + 1 + Wcmd.raw.layout.header) within
  rw [body] at rest
  unfold sendRaw
  dsimp only
  rw [sent, size, rest]
  generalize taken_eq : (p.drop pos).take n = taken
  have length : taken.length ≤ p.length - pos := by
    rw [← taken_eq, List.length_take, List.length_drop]
    exact Nat.min_le_right _ _
  refine ⟨.raw p (pos + taken.length), At.moveTo here.toLies here.few ?_ trivial, rfl, rfl,
    fun i => setPos_kept (c := .raw p pos), ?_⟩
  · change pos + taken.length ≤ p.length
    omega
  · have front : taken = (p.drop pos).take taken.length := by
      rw [← taken_eq, List.length_take, List.take_eq_take_min]
    change (p.drop pos).map Atom.byte = taken.map Atom.byte ++ (p.drop (pos + taken.length)).map Atom.byte
    rw [← List.map_append, ← List.drop_drop]
    exact congrArg _ ((List.take_append_drop _ _).symm.trans (congrArg (· ++ _) front.symm))

theorem At.call_dgram {addr p : List UInt8} {pos : ℕ} (here : (Chunk.dgram addr p pos).At m off)
    (proceeds : Wcmd.dgram.Proceeds m (off + 1) n) :
    ∃ c', Called (.dgram addr p pos) c' (sendDgram m (off + 1) n).2 m off
      (sendDgram m (off + 1) n).1 := by
  obtain ⟨going, whole⟩ := proceeds
  have unfinished : ¬ p.length ≤ pos := fun done => going (here.finish_iff.mpr done)
  obtain ⟨some, once⟩ := here.bounded
  obtain rfl : pos = 0 := by omega
  have sent : Wcmd.dgram.layout.getPos m (off + 1) = 0 := here.pos
  have size : Wcmd.dgram.layout.getSz m (off + 1) = p.length := here.sz
  obtain ⟨address, body⟩ := here.elements
  rw [size, sent, Nat.sub_zero] at whole
  have taken : (load m (off + 1 + Wcmd.dgram.layout.header + 0) (p.length - 0)).take n = p := by
    rw [Nat.add_zero, Nat.sub_zero]
    exact (congrArg (List.take n) body).trans (List.take_of_length_le whole)
  unfold sendDgram
  dsimp only
  rw [sent, size, taken, address, Nat.zero_add]
  refine ⟨.dgram addr p p.length, At.moveTo here.toLies here.few le_rfl ⟨some, .inr rfl⟩, rfl, rfl,
    fun i => setPos_kept (c := .dgram addr p 0), ?_⟩
  have done : p.length ≠ 0 := fun none => some (List.eq_nil_of_length_eq_zero none)
  change _ = [_] ++ if p.length = 0 then _ else []
  rw [if_neg done]
  rfl

theorem At.iov {c : Iov} (here : (Chunk.iov c).At m off) : c.At m (off + 1) where
  sz := here.sz
  pos := here.pos
  entries i inside := by
    obtain ⟨base, len⟩ := (Format.row_iff_get fun _ => rfl).mp here.elements i inside
    unfold iovEntry
    rw [base, len]
  few := here.few
  bounded := here.bounded

theorem At.of_iov {c : Iov} (code : m off = Wcmd.iovec.code) (here : c.At m (off + 1))
    (within : c.pos ≤ c.sz) : (Chunk.iov c).At m off where
  code := code
  sz := here.sz
  pos := here.pos
  elements := by
    refine (Format.row_iff_get fun _ => rfl).mpr fun i inside => ?_
    have entry := here.entries i inside
    exact ⟨congrArg IoVec.base entry, congrArg IoVec.len entry⟩
  few := here.few
  within := within
  bounded := here.bounded

theorem At.call_iov {c : Iov} (here : (Chunk.iov c).At m off)
    (proceeds : Wcmd.iovec.Proceeds m (off + 1) n) :
    ∃ c', Called (.iov c) c' (sendIov m (off + 1) n).2 m off (sendIov m (off + 1) n).1 := by
  have within : c.pos ≤ c.sz := here.within
  have lies := here.iov
  have short : c.remaining.length ≤ n → c.remaining.length = 0 := by
    unfold Wcmd.Proceeds at proceeds
    dsimp only at proceeds
    rw [lies.pos, lies.sz, lies.entries_write, ← Iov.length_addresses] at proceeds
    exact proceeds
  obtain ⟨handed, after⟩ := lies.sendIov within n
  have ends : c.pos + (c.sz - c.pos) = c.sz := Nat.add_sub_of_le within
  obtain ⟨sz, pos⟩ := Iov.sentFrom_within (min n c.remaining.length) within ends
  have kept : ∀ i, i < off + 1 + 8 ∨ off + 1 + 16 + 16 * c.sz ≤ i →
      (sendIov m (off + 1) n).2 i = m i := by
    intro i outside
    unfold sendIov
    dsimp only
    rw [lies.pos, lies.sz]
    exact Iov.iovSent_kept ends outside
  refine ⟨.iov (c.sent (min n c.remaining.length)), .of_iov ?_ after (sz.symm ▸ pos), rfl, sz, ?_, ?_⟩
  · rw [kept off (.inl (by omega))]
    exact here.code
  · intro i outside
    refine kept i ?_
    change i < off ∨ off + (1 + (16 + 16 * c.sz)) ≤ i at outside
    omega
  · have left : (c.sent (min n c.remaining.length)).remaining =
        c.remaining.drop (min n c.remaining.length) := by
      rcases Nat.lt_or_ge n c.remaining.length with less | whole
      · rw [Nat.min_eq_left less.le]
        exact (Iov.sent_short less).1
      · rw [short whole, Nat.min_zero, List.drop_zero]
        have none : c.sent 0 = c := c.sentFrom_whole ends (short whole).le
        rw [none]
    rw [handed]
    change c.remaining.map Atom.cell = (addresses _).map Atom.cell ++ (Iov.remaining _).map Atom.cell
    rw [Iov.addresses_takeParts, left, ← List.map_append]
    exact congrArg _ (List.take_append_drop _ _).symm

/-- One entry of a file writer is replaced where it lies. -/
theorem Lies.set_file {fds : List FileArg} {pos : ℕ} (here : (Chunk.file fds pos).Lies m off)
    {f : FileArg} (new : FileArg.format.At m' (off + 1 + 8 + 24 * pos) f)
    (same : ∀ i, i < off + 1 + 8 + 24 * pos ∨ off + 1 + 8 + 24 * pos + 24 ≤ i → m' i = m i) :
    (Chunk.file (fds.set pos f) pos).Lies m' off where
  code := (same off (.inl (by omega))).trans here.code
  sz := by
    have size : Wcmd.file.layout.getSz m' (off + 1) = Wcmd.file.layout.getSz m (off + 1) := by
      refine loadLe_congr fun i _ upper => same i (.inl ?_)
      change i < off + 1 + 0 + 4 at upper
      omega
    exact (size.trans here.sz).trans List.length_set.symm
  pos := by
    refine (loadLe_congr fun i _ upper => same i (.inl ?_)).trans here.pos
    change i < off + 1 + 4 + 4 at upper
    omega
  elements := Format.Row.set (fun _ => rfl) here.elements new fun i _ outside _ => same i outside

/-- A call of a file writer that has an entry left. -/
theorem Lies.sendFile {fds : List FileArg} {pos : ℕ} (here : (Chunk.file fds pos).Lies m off)
    (inside : pos < fds.length) (n : ℕ) :
    Net.sendFile m (off + 1) n =
      (.fromFile fds[pos].inFd fds[pos].ofs (min n fds[pos].cnt),
        let moved := storeLe m (off + 1 + 8 + 24 * pos + 8) 8 (fds[pos].ofs + min n fds[pos].cnt)
        if min n fds[pos].cnt < fds[pos].cnt then
          storeLe moved (off + 1 + 8 + 24 * pos + 16) 8 (fds[pos].cnt - min n fds[pos].cnt)
        else storeLe moved (off + 1 + 4) 4 (pos + 1)) := by
  have sent : Wcmd.file.layout.getPos m (off + 1) = pos := here.pos
  obtain ⟨inFd, ofs, cnt⟩ := (Format.row_iff_get fun _ => rfl).mp here.elements pos inside
  have inFd : loadLe m (off + 1 + Wcmd.file.layout.header + Wcmd.file.layout.unit * pos) 4 =
    fds[pos].inFd := inFd
  have ofs : loadLe m (off + 1 + Wcmd.file.layout.header + Wcmd.file.layout.unit * pos + 8) 8 =
    fds[pos].ofs := ofs
  have cnt : loadLe m (off + 1 + Wcmd.file.layout.header + Wcmd.file.layout.unit * pos + 16) 8 =
    fds[pos].cnt := cnt
  unfold Net.sendFile
  dsimp only
  rw [sent, inFd, ofs, cnt]
  rfl

theorem At.call_file {fds : List FileArg} {pos : ℕ} (here : (Chunk.file fds pos).At m off)
    (proceeds : Wcmd.file.Proceeds m (off + 1) n) :
    ∃ c', Called (.file fds pos) c' (sendFile m (off + 1) n).2 m off (sendFile m (off + 1) n).1 := by
  have inside : pos < fds.length := Nat.lt_of_not_le fun done => proceeds (here.finish_iff.mpr done)
  have split : fds.drop pos = fds[pos] :: fds.drop (pos + 1) := List.drop_eq_getElem_cons inside
  have less : 24 * pos + 24 ≤ 24 * fds.length :=
    (Nat.mul_succ 24 pos).symm.trans_le (Nat.mul_le_mul_left 24 inside)
  have lies := here.toLies
  obtain ⟨inFd, -, cnt⟩ := (Format.row_iff_get fun _ => rfl).mp lies.elements pos inside
  have bounded := here.bounded
  change ∀ f ∈ fds.drop pos, f.ofs + f.cnt < 2 ^ 64 at bounded
  rw [split] at bounded
  have first := bounded fds[pos] List.mem_cons_self
  rw [lies.sendFile inside]
  have le : min n fds[pos].cnt ≤ fds[pos].cnt := Nat.min_le_right _ _
  generalize min n fds[pos].cnt = wb at le ⊢
  have atoms := fds[pos].atoms_split le
  generalize fds[pos] = f at *
  have moved : loadLe (storeLe m (off + 1 + 8 + 24 * pos + 8) 8 (f.ofs + wb))
      (off + 1 + 8 + 24 * pos + 8) 8 = f.ofs + wb := loadLe_storeLe (by omega)
  have front : ∀ i, i < off + 1 + 8 + 24 * pos ∨ off + 1 + 8 + 24 * pos + 24 ≤ i →
      storeLe m (off + 1 + 8 + 24 * pos + 8) 8 (f.ofs + wb) i = m i := fun i outside => by
    rw [storeLe, store_apart (by rw [leBytes_length]; omega)]
  have beyond : ∀ i, i < off ∨ off + (Chunk.file fds pos).size ≤ i →
      i < off + 1 + 8 + 24 * pos ∨ off + 1 + 8 + 24 * pos + 24 ≤ i := by
    intro i outside
    change i < off ∨ off + (1 + (8 + 24 * fds.length)) ≤ i at outside
    omega
  have rest (f' : FileArg) : (fds.set pos f').drop pos = f' :: fds.drop (pos + 1) := by
    rw [List.drop_set, if_neg (Nat.lt_irrefl pos), split, Nat.sub_self, List.set_cons_zero]
  have descriptor : loadLe (storeLe m (off + 1 + 8 + 24 * pos + 8) 8 (f.ofs + wb))
      (off + 1 + 8 + 24 * pos) 4 = f.inFd := by
    rw [loadLe, storeLe, load_store_of_disjoint (.inl (by omega))]
    exact inFd
  dsimp only
  by_cases part : wb < f.cnt
  · rw [if_pos part]
    have kept : ∀ i, i < off + 1 + 8 + 24 * pos ∨ off + 1 + 8 + 24 * pos + 24 ≤ i →
        storeLe (storeLe m (off + 1 + 8 + 24 * pos + 8) 8 (f.ofs + wb)) (off + 1 + 8 + 24 * pos + 16) 8
          (f.cnt - wb) i = m i := fun i outside => by
      rw [storeLe, store_apart (by rw [leBytes_length]; omega), front i outside]
    have entry : FileArg.format.At (storeLe (storeLe m (off + 1 + 8 + 24 * pos + 8) 8 (f.ofs + wb))
        (off + 1 + 8 + 24 * pos + 16) 8 (f.cnt - wb)) (off + 1 + 8 + 24 * pos)
        ⟨f.inFd, f.ofs + wb, f.cnt - wb⟩ := by
      refine ⟨?_, ?_, loadLe_storeLe (by omega)⟩
      · rw [loadLe, storeLe, load_store_of_disjoint (.inl (by omega))]
        exact descriptor
      · rw [loadLe_storeLe_of_disjoint (by omega)]
        exact moved
    refine ⟨.file (fds.set pos ⟨f.inFd, f.ofs + wb, f.cnt - wb⟩) pos,
      ⟨lies.set_file entry kept, ?_, ?_, ?_⟩, rfl, List.length_set, fun i outside => kept i (beyond i outside), ?_⟩
    · exact List.length_set.trans_lt here.few
    · exact here.within.trans List.length_set.ge
    · intro f' member
      rw [rest] at member
      rcases List.mem_cons.mp member with rfl | later
      · dsimp only
        omega
      · exact bounded f' (List.mem_cons_of_mem _ later)
    · change (fds.drop pos).flatMap _ = _ ++ ((fds.set pos _).drop pos).flatMap _
      rw [rest, split, List.flatMap_cons, List.flatMap_cons, atoms, List.append_assoc]
      rfl
  · rw [if_neg part]
    obtain rfl : wb = f.cnt := by omega
    have entry : FileArg.format.At (storeLe m (off + 1 + 8 + 24 * pos + 8) 8 (f.ofs + f.cnt))
        (off + 1 + 8 + 24 * pos) ⟨f.inFd, f.ofs + f.cnt, f.cnt⟩ := by
      refine ⟨descriptor, moved, ?_⟩
      rw [loadLe_storeLe_of_disjoint (by omega)]
      exact cnt
    have behind : (fds.set pos ⟨f.inFd, f.ofs + f.cnt, f.cnt⟩).drop (pos + 1) = fds.drop (pos + 1) :=
      List.drop_set_of_lt (Nat.lt_succ_self pos)
    refine ⟨.file (fds.set pos ⟨f.inFd, f.ofs + f.cnt, f.cnt⟩) (pos + 1),
      At.moveTo (lies.set_file entry front) ?_ ?_ ?_, rfl, List.length_set, fun i outside => ?_, ?_⟩
    · exact List.length_set.trans_lt here.few
    · exact inside.trans_eq List.length_set.symm
    · intro f' member
      rw [behind] at member
      exact bounded f' (List.mem_cons_of_mem _ member)
    · have same := front i (beyond i outside)
      rw [← same]
      exact setPos_kept (c := .file fds pos) outside
    · change (fds.drop pos).flatMap _ = _ ++ ((fds.set pos _).drop (pos + 1)).flatMap _
      rw [behind, split, List.flatMap_cons]
      rfl

theorem At.call (here : c.At m off) (proceeds : c.cmd.Proceeds m (off + 1) n) :
    ∃ c', Called c c' (sendChunk c.cmd m (off + 1) n).2 m off (sendChunk c.cmd m (off + 1) n).1 := by
  cases c with
  | raw p pos => exact here.call_raw n
  | iov c => exact here.call_iov proceeds
  | file fds pos => exact here.call_file proceeds
  | dgram addr p pos => exact here.call_dgram proceeds

end Chunk

/-! ## A pass -/

/-- All calls of a pass go right. -/
def Passes : ℕ → List OsResult → Buf → ℕ → Prop
  | 0, _, _, _ => True
  | turns + 1, os, b, now =>
      now < b.len →
        match Wcmd.ofCode (b.mem now), os with
        | some k, .accepted n :: os =>
            k.Proceeds b.mem (now + 1) n ∧
              (k.layout.finish (sendChunk k b.mem (now + 1) n).2 (now + 1) →
                Passes turns os { b with mem := (sendChunk k b.mem (now + 1) n).2 }
                  (now + 1 + k.layout.chunkSize (sendChunk k b.mem (now + 1) n).2 (now + 1)))
        | _, _ => True

instance decidablePasses : ∀ turns os b now, Decidable (Passes turns os b now)
  | 0, _, _, _ => isTrue trivial
  | turns + 1, os, b, now =>
      have : Decidable (match Wcmd.ofCode (b.mem now), os with
          | some k, .accepted n :: os =>
              k.Proceeds b.mem (now + 1) n ∧
                (k.layout.finish (sendChunk k b.mem (now + 1) n).2 (now + 1) →
                  Passes turns os { b with mem := (sendChunk k b.mem (now + 1) n).2 }
                    (now + 1 + k.layout.chunkSize (sendChunk k b.mem (now + 1) n).2 (now + 1)))
          | _, _ => True) :=
        match Wcmd.ofCode (b.mem now), os with
        | some k, .accepted n :: os =>
            have := decidablePasses turns os { b with mem := (sendChunk k b.mem (now + 1) n).2 }
              (now + 1 + k.layout.chunkSize (sendChunk k b.mem (now + 1) n).2 (now + 1))
            inferInstanceAs (Decidable (_ ∧ (_ → _)))
        | none, _ => isTrue trivial
        | some _, [] => isTrue trivial
        | some _, .again :: _ => isTrue trivial
        | some _, .pipe :: _ => isTrue trivial
        | some _, .connReset :: _ => isTrue trivial
      inferInstanceAs (Decidable (_ → _))

theorem Chunk.eq_nil_of_total {cs : List Chunk} (none : Chunk.format.total cs = 0) : cs = [] := by
  cases cs with
  | nil => rfl
  | cons c cs =>
      have some : 0 < Chunk.format.size c := Nat.lt_of_lt_of_le Nat.zero_lt_one (Nat.le_add_right 1 _)
      rw [Format.total_cons] at none
      omega

/-- The chunks behind `now` move to the front. -/
theorem Buf.Within.shrink_holds {b : Buf} {now : ℕ} {cs : List Chunk} (within : b.Within)
    (row : Chunk.format.Row b.mem now cs) (len : b.len = now + Chunk.format.total cs) :
    (b.shrink now).Holds cs := by
  have kept := within.drained (b.shrink_drained b.mem now)
  refine ⟨kept, ?_, ?_⟩
  · unfold Buf.shrink
    split
    case isTrue none =>
        rw [Chunk.eq_nil_of_total (by omega : Chunk.format.total cs = 0)]
        exact trivial
    case isFalse some =>
        refine row.moved fun i inside => ?_
        dsimp only
        rw [store_get _ _ (by rw [load_length]; omega), load_get (by omega)]
  · unfold Buf.shrink
    split
    case isTrue none => exact (by omega : Chunk.format.total cs = 0).symm
    case isFalse some =>
        dsimp only
        omega

theorem Wcmd.ofCode_code {k : Wcmd} (chunk : k ≠ .num) : Wcmd.ofCode k.code = some k := by
  cases k with
  | num => exact absurd rfl chunk
  | _ => rfl

/-- The other chunks stay where they are. -/
theorem Chunk.Called.rows {m m' : Mem} {off : ℕ} {c c' : Chunk} {handed : Handed}
    {done cs : List Chunk} (called : Called c c' m' m off handed)
    (before : Chunk.format.Row m 0 done) (here : off = Chunk.format.total done)
    (behind : Chunk.format.Row m (off + Chunk.format.size c) cs) :
    Chunk.format.Row m' 0 done ∧ Chunk.format.Row m' off (c' :: cs) ∧
      Chunk.format.size c' = Chunk.format.size c ∧
      off + 1 + c.cmd.layout.chunkSize m' (off + 1) = off + Chunk.format.size c := by
  have size' : Chunk.format.size c' = Chunk.format.size c := by
    change 1 + (c'.cmd.layout.header + c'.cmd.layout.unit * c'.sz) = _
    rw [called.cmd, called.sz]
    rfl
  refine ⟨before.kept fun i _ upper => called.kept i (.inl (by omega)), ⟨called.here, ?_⟩, size', ?_⟩
  · rw [size']
    exact behind.kept fun i lower _ => called.kept i (.inr lower)
  · rw [Layout.chunkSize, ← called.cmd, called.here.sz, called.sz, called.cmd, Nat.add_assoc]
    rfl

/-- A pass from `now` on, behind chunks with nothing left, hands over a front part of what the
others have left. -/
theorem drain_holds {turns : ℕ} {os : List OsResult} {b : Buf} {now : ℕ} {done rest : List Chunk}
    (within : b.Within) (before : Chunk.format.Row b.mem 0 done) (here : now = Chunk.format.total done)
    (idle : Chunk.pendings done = []) (row : Chunk.format.Row b.mem now rest)
    (len : b.len = now + Chunk.format.total rest) (enough : b.len < now + turns)
    (passes : Passes turns os b now) :
    ∃ left, (drain turns os b now).1.Holds left ∧
      Chunk.pendings rest = (drain turns os b now).2.1.flatMap Handed.atoms ++ Chunk.pendings left := by
  induction turns generalizing os b now done rest with
  | zero => omega
  | succ turns ih =>
      cases rest with
      | nil =>
          have last : ¬ now < b.len := by
            rw [len, Format.total_nil]
            omega
          rw [drain, if_neg last]
          exact ⟨[], within.shrink_holds row len, rfl⟩
      | cons c cs =>
          obtain ⟨first, behind⟩ := row
          rw [Format.total_cons] at len
          have size : Chunk.format.size c = 1 + (c.cmd.layout.header + c.cmd.layout.unit * c.sz) := rfl
          have inside : now < b.len := by omega
          have code : Wcmd.ofCode (b.mem now) = some c.cmd := by
            rw [first.code]
            exact Wcmd.ofCode_code c.cmd_ne_num
          -- an error leaves the buffer as it is, with the finished chunks in front
          have stopped : b.Holds (done ++ c :: cs) ∧
              Chunk.pendings (done ++ c :: cs) = Chunk.pendings (c :: cs) := by
            refine ⟨⟨within, Format.row_append.mpr ⟨before, ?_⟩, ?_⟩, ?_⟩
            · rw [Nat.zero_add, ← here]
              exact ⟨first, behind⟩
            · rw [len, Format.total_append, Format.total_cons, here]
            · rw [Chunk.pendings, List.flatMap_append]
              exact congrArg (· ++ _) idle
          have passes' := passes inside
          rw [code] at passes'
          rw [drain, if_pos inside, code]
          cases os with
          | nil => exact ⟨_, stopped.1, stopped.2.symm⟩
          | cons result os =>
              cases result with
              | again | pipe | connReset => exact ⟨_, stopped.1, stopped.2.symm⟩
              | accepted n =>
                  obtain ⟨proceeds, onward⟩ := passes'
                  obtain ⟨c', called⟩ := first.call proceeds
                  dsimp only
                  generalize (sendChunk c.cmd b.mem (now + 1) n).2 = mem at onward called ⊢
                  generalize (sendChunk c.cmd b.mem (now + 1) n).1 = handed at called ⊢
                  obtain ⟨front, back, size', next⟩ := called.rows before here behind
                  have within' : Buf.Within { b with mem := mem } := { within with }
                  have parts : Chunk.pendings (c :: cs) =
                      handed.atoms ++ (c'.pending ++ Chunk.pendings cs) := by
                    rw [Chunk.pendings, List.flatMap_cons, called.atoms, List.append_assoc]
                    rfl
                  rw [next] at onward ⊢
                  by_cases finished : c.cmd.layout.finish mem (now + 1)
                  · rw [if_pos finished]
                    have nothing : c'.pending = [] := by
                      rw [← called.cmd, called.here.finish_iff] at finished
                      exact Chunk.pending_of_finished called.here finished
                    have front' : Chunk.format.Row mem 0 (done ++ [c']) := Format.row_append.mpr ⟨front, by
                      rw [Nat.zero_add, ← here]
                      exact ⟨back.1, trivial⟩⟩
                    have here' : now + Chunk.format.size c = Chunk.format.total (done ++ [c']) := by
                      rw [Format.total_append, Format.total_cons, Format.total_nil, size', here]
                      rfl
                    have idle' : Chunk.pendings (done ++ [c']) = [] := by
                      rw [Wbuf.pendings_snoc, idle, nothing]
                      rfl
                    obtain ⟨left, holds, pendings⟩ := ih within' front' here' idle' (size' ▸ back.2)
                      (by dsimp only; omega) (by dsimp only; omega) (onward finished)
                    refine ⟨left, holds, ?_⟩
                    dsimp only
                    rw [parts, nothing, List.nil_append, pendings, List.flatMap_cons, List.append_assoc]
                  · rw [if_neg finished]
                    refine ⟨c' :: cs, within'.shrink_holds back ?_, ?_⟩
                    · dsimp only
                      rw [len, Format.total_cons, size']
                    · rw [parts, List.flatMap_singleton]
                      rfl

/-! ## Runs -/

/-- The condition of an event: a send is taken on, and all calls of a write tick go right. -/
def Sys.Proceeds (heap : Wbuf.Heap) (s : Sys) : Event → Prop
  | .send r attached => s.wbuf.Takes heap r attached
  | .tick os => Passes (s.wbuf.curr.len + 1) os s.wbuf.curr 0

/-- What was handed over is a front part of what was sent, and all of it with both buffers
empty. -/
structure Sys.DrainsOnce (s : Sys) : Prop where
  front : s.handed.flatMap Handed.atoms <+: s.sent.flatMap Request.atoms
  whole : s.wbuf.curr.len = 0 → s.wbuf.next.len = 0 →
    s.handed.flatMap Handed.atoms = s.sent.flatMap Request.atoms

/-- What was sent has been handed over, is left in `curr` or waits in `next`. -/
def Sys.Accounts (s : Sys) : Prop :=
  ∃ curr next, s.wbuf.curr.Holds curr ∧ s.wbuf.Queues next ∧
    s.sent.flatMap Request.atoms =
      s.handed.flatMap Handed.atoms ++ Chunk.pendings curr ++ Chunk.pendings next

theorem Buf.Holds.nil {b : Buf} {cs : List Chunk} (holds : b.Holds cs) (none : b.len = 0) : cs = [] :=
  Chunk.eq_nil_of_total (holds.len.symm.trans none)

theorem start_accounts (m₀ m₁ : Mem) : (Sys.start m₀ m₁).Accounts := by
  have sound := init_sound m₀ m₁
  exact ⟨[], [], ⟨sound.curr, trivial, rfl⟩, ⟨⟨sound.next, trivial, rfl⟩, fun some => absurd rfl some⟩,
    rfl⟩

theorem send_accounts {heap : Wbuf.Heap} {s : Sys} {r : Request} {attached : Bool}
    (accounts : s.Accounts) (takes : s.wbuf.Takes heap r attached) :
    (s.step heap (.send r attached)).Accounts := by
  obtain ⟨curr, next, holds, queues, atoms⟩ := accounts
  obtain ⟨same, next', queues', pendings⟩ := Wbuf.sendraw_queues queues takes
  rw [step_send]
  refine ⟨curr, next', same ▸ holds, queues', ?_⟩
  dsimp only
  rw [pendings]
  split
  · rw [List.flatMap_append, List.flatMap_singleton, atoms, List.append_assoc]
  · rw [List.append_nil]
    exact atoms

theorem tick_accounts {heap : Wbuf.Heap} {s : Sys} {os : List OsResult} (accounts : s.Accounts)
    (passes : Passes (s.wbuf.curr.len + 1) os s.wbuf.curr 0) :
    (s.step heap (.tick os)).Accounts := by
  obtain ⟨curr, next, holds, queues, atoms⟩ := accounts
  rw [step_tick]
  unfold Wbuf.writeCommand
  by_cases empty : s.wbuf.curr.len = 0
  · rw [if_pos empty]
    obtain rfl := holds.nil empty
    have swapped : s.sent.flatMap Request.atoms =
        s.handed.flatMap Handed.atoms ++ Chunk.pendings next ++ Chunk.pendings [] := by
      rw [atoms]
      exact (congrArg (· ++ _) (List.append_nil _)).trans (List.append_nil _).symm
    dsimp only
    split
    · refine ⟨next, [], queues.holds, ⟨holds, fun some => absurd rfl some⟩, ?_⟩
      rw [List.append_nil]
      exact swapped
    · refine ⟨next, [], queues.holds, ⟨holds, fun some => absurd rfl some⟩, ?_⟩
      rw [List.append_nil]
      exact swapped
  · rw [if_neg empty]
    have nothing : Chunk.format.Row s.wbuf.curr.mem 0 [] := trivial
    obtain ⟨left, holds', pendings⟩ := drain_holds holds.within nothing rfl rfl holds.row
      (holds.len.trans (Nat.zero_add _).symm) (by omega) passes
    refine ⟨left, next, holds', ⟨queues.holds, queues.tail⟩, ?_⟩
    dsimp only
    rw [List.flatMap_append, atoms, pendings]
    simp only [List.append_assoc]
    rfl

theorem step_accounts {heap : Wbuf.Heap} {s : Sys} {e : Event} (accounts : s.Accounts)
    (proceeds : s.Proceeds heap e) : (s.step heap e).Accounts := by
  cases e with
  | send r attached => exact send_accounts accounts proceeds
  | tick os => exact tick_accounts accounts proceeds

theorem Sys.Accounts.drainsOnce {s : Sys} (accounts : s.Accounts) : s.DrainsOnce := by
  obtain ⟨curr, next, holds, queues, atoms⟩ := accounts
  refine ⟨⟨Chunk.pendings curr ++ Chunk.pendings next, ?_⟩, fun none none' => ?_⟩
  · rw [atoms, List.append_assoc]
  · rw [atoms, holds.nil none, queues.holds.nil none']
    exact ((List.append_nil _).trans (List.append_nil _)).symm

/-- Along every run of sends of all four kinds that are taken on, and of write ticks whose calls
go right, what was sent is handed over once and in order, each datagram as one. -/
theorem mixed_drained_once {heap : Wbuf.Heap} {m₀ m₁ : Mem} {events : List Event}
    (proceeds : Run.Along (Sys.step heap) (Sys.Proceeds heap) (Sys.start m₀ m₁) events) :
    ((Sys.start m₀ m₁).run heap events).DrainsOnce :=
  (Run.holds_after Sys.Accounts (Sys.Proceeds heap) (start_accounts m₀ m₁)
    (fun _ _ => step_accounts) proceeds).drainsOnce

/-- A file behind raw bytes that were finished before an error, and a datagram behind both. -/
theorem mixed_drained_once_after_again :
    ((Sys.start (fun _ => 0) fun _ => 0).run (fun _ => none)
      [.send (.raw [1, 2]) true, .send (.file 3 10 4) true,
        .send (.dgram [7] ⟨List.replicate 24 5, rfl⟩) true, .tick [], .tick [.accepted 2, .again],
        .tick [.accepted 0, .accepted 3], .tick [.accepted 1, .accepted 1]]).DrainsOnce := by
  refine mixed_drained_once ⟨⟨trivial, fun _ => .inr (by decide), .inr rfl, by decide,
      fun appends => absurd appends (by decide), fun appends => absurd appends (by decide)⟩,
    ⟨⟨by decide, by decide, by decide⟩, fun _ => .inr (by decide +kernel), .inr rfl, by decide,
      fun appends => absurd appends (by decide), fun appends => absurd appends (by decide)⟩,
    ⟨List.cons_ne_nil 7 [], fun _ => .inr (by decide +kernel), .inr rfl, by decide,
      fun appends => absurd appends (by decide), fun appends => absurd appends (by decide)⟩,
    ?_, ?_, ?_, ?_, trivial⟩
  · change Passes _ _ _ _
    decide +kernel
  · change Passes _ _ _ _
    decide +kernel
  · change Passes _ _ _ _
    decide +kernel
  · change Passes _ _ _ _
    decide +kernel

/-- Two datagrams, the first taken before an error: the next tick sends it again, empty. -/
theorem datagram_repeated :
    let s := (Sys.start (fun _ => 0) fun _ => 0).run (fun _ => none)
      [.send (.dgram [1] ⟨List.replicate 24 5, rfl⟩) true,
        .send (.dgram [2] ⟨List.replicate 24 5, rfl⟩) true, .tick [], .tick [.accepted 1, .again],
        .tick [.accepted 0, .accepted 1]]
    s.handed = [.datagram (List.replicate 24 5) [1], .datagram (List.replicate 24 5) [],
        .datagram (List.replicate 24 5) [2]] ∧ ¬ s.DrainsOnce := by
  refine ⟨by decide +kernel, fun drains => ?_⟩
  have front := drains.front
  revert front
  decide +kernel

end Cyue.Net
