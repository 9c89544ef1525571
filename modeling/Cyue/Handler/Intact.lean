import Cyue.Handler.Steady

/-!
# Payloads stay where they are

A raw value of an object points into the receive buffer.  Every block into which
a value of the message points has been referred to by the message's `sbuf`
when `unpack` was called for it; `reserve` leaves such a block behind, and
`commit` only appends to it.
-/

namespace Cyue.Handler

open Mpak Mpak.Release Shared Memory

/-- The payload lies in the data of a block that one of the references holds. -/
def Resolves (heap : Heap (List UInt8)) (refs : List Nat) (p : RawPtr) (size : ℕ) : Prop :=
  p.len = size ∧ ∃ bytes, Socket.payload heap refs p = some bytes

theorem Resolves.keep {before after : Heap (List UInt8)} {refs wider : List Nat} {p : RawPtr}
    {size : ℕ} (keeps : Keeps (Socket.payload before refs) (Socket.payload after wider))
    (resolves : Resolves before refs p size) : Resolves after wider p size := by
  obtain ⟨len, bytes, found⟩ := resolves
  exact ⟨len, bytes, keeps p bytes found⟩

/-- Every payload of the object resolves, and the object is the message it was when
it was completed. -/
structure Completed.Intact (heap : Heap (List UInt8)) (obj : Completed) : Prop where
  resolves : ∀ p size, obj.root = .raw p size ∨ .raw p size ∈ obj.cells →
    Resolves heap obj.refs p size
  root : obj.root.mapRaw (Socket.payload heap obj.refs) = obj.seen.root
  cells : obj.cells.map (Obj.mapRaw (Socket.payload heap obj.refs)) = obj.seen.cells

theorem mapRaw_congr {ρ σ : Type} {f g : ρ → σ} {obj : Obj ρ}
    (same : ∀ p size, obj = .raw p size → f p = g p) : obj.mapRaw f = obj.mapRaw g := by
  cases obj with
  | raw p size => rw [Obj.mapRaw, Obj.mapRaw, same p size rfl]
  | _ => rfl

theorem Completed.Intact.keep {before after : Heap (List UInt8)} {obj : Completed}
    (intact : obj.Intact before)
    (keeps : Keeps (Socket.payload before obj.refs) (Socket.payload after obj.refs)) :
    obj.Intact after := by
  have same : ∀ p size, obj.root = .raw p size ∨ .raw p size ∈ obj.cells →
      Socket.payload after obj.refs p = Socket.payload before obj.refs p := by
    intro p size found
    obtain ⟨-, bytes, read⟩ := intact.resolves p size found
    rw [keeps p bytes read, read]
  refine ⟨fun p size found => (intact.resolves p size found).keep keeps, ?_, ?_⟩
  · rw [mapRaw_congr fun p size here => same p size (.inl here)]
    exact intact.root
  · rw [← intact.cells]
    refine List.map_congr_left fun cell member => ?_
    exact mapRaw_congr fun p size here => same p size (.inr (here ▸ member))

namespace Receiver

/-- All references to blocks: the `pbuf`'s own, those of the parser's `sbuf` and those of
the completed objects. -/
def held (recv : Receiver) : List Nat :=
  recv.pbuf.base.toList ++ (recv.sbf.getD [] ++ recv.alive.flatMap (·.refs))

/-- The blocks, the references and the payloads in a session. -/
structure Held (recv : Receiver) : Prop where
  steady : recv.Steady
  accounted : recv.heap.Accounted recv.held
  block : ∀ block, recv.pbuf.base = some block → recv.heap.contents block = recv.pbuf.data
  referred : recv.inside = true →
    ∃ block, recv.pbuf.base = some block ∧ block ∈ recv.sbf.getD []
  payloads : recv.nested = false →
    Payloads (Resolves recv.heap (recv.sbf.getD [])) recv.ctx
  intact : ∀ obj ∈ recv.alive, obj.Intact recv.heap

theorem held_start (memory : ℕ → StackMem) : (start memory).Held where
  steady := steady_start memory
  accounted := Heap.Accounted.empty
  block block same := nomatch same
  referred inside := nomatch inside
  payloads _ p size found := by rcases found with here | there <;> contradiction
  intact obj member := nomatch member

/-- The references of the messages, but for the `pbuf`'s own. -/
def borrowed (recv : Receiver) : List Nat := recv.sbf.getD [] ++ recv.alive.flatMap (·.refs)

theorem borrowed_sbf {recv : Receiver} {block : Nat} (member : block ∈ recv.sbf.getD []) :
    block ∈ recv.borrowed := List.mem_append_left _ member

theorem borrowed_alive {recv : Receiver} {obj : Completed} (alive : obj ∈ recv.alive)
    {block : Nat} (member : block ∈ obj.refs) : block ∈ recv.borrowed :=
  List.mem_append_right _ (List.mem_flatMap.mpr ⟨obj, alive, member⟩)

theorem held_borrowed {recv : Receiver} {block : Nat} (member : block ∈ recv.borrowed) :
    block ∈ recv.held := List.mem_append_right _ member

/-- What only lets the borrowed blocks grow at their ends keeps the payloads. -/
theorem Held.grow {recv next : Receiver} (holds : recv.Held) (steady : next.Steady)
    (accounted : next.heap.Accounted next.held)
    (block : ∀ block, next.pbuf.base = some block → next.heap.contents block = next.pbuf.data)
    (referred : next.inside = true →
      ∃ block, next.pbuf.base = some block ∧ block ∈ next.sbf.getD [])
    (grown : ∀ block ∈ recv.borrowed,
      ∃ more, next.heap.contents block = recv.heap.contents block ++ more)
    (ctx : next.ctx = recv.ctx) (nested : next.nested = recv.nested)
    (wider : ∀ block ∈ recv.sbf.getD [], block ∈ next.sbf.getD [])
    (fewer : ∀ obj ∈ next.alive, obj ∈ recv.alive) : next.Held where
  steady := steady
  accounted := accounted
  block := block
  referred := referred
  payloads shallow p size found := by
    rw [ctx] at found
    refine (holds.payloads (nested ▸ shallow) p size found).keep ?_
    refine Socket.keeps_payload accounted wider ?_ fun block member =>
      grown block (borrowed_sbf member)
    exact fun block member => held_borrowed (borrowed_sbf (wider block member))
  intact obj member := by
    have alive := fewer obj member
    refine (holds.intact obj alive).keep ?_
    refine Socket.keeps_payload accounted (fun _ => id) ?_ fun block inside =>
      grown block (borrowed_alive alive inside)
    exact fun block inside => held_borrowed (borrowed_alive member inside)

/-- `reserve` leaves the old block to those who refer to it. -/
theorem reserve_held {recv : Receiver} (holds : recv.Held) (idle : recv.inside = false)
    (sz : ℕ) (granted : Bool) (outside : Mem) : (recv.reserve sz granted outside).Held := by
  have steady := reserve_steady holds.steady sz granted outside
  have accounted := holds.accounted
  have not_inside : recv.inside ≠ true := by simp [idle]
  have known : ∀ content, ∀ block ∈ recv.borrowed, ∃ more,
      (recv.heap.alloc content).contents block = recv.heap.contents block ++ more := by
    intro content block member
    refine ⟨[], ?_⟩
    rw [List.append_nil]
    exact Heap.alloc_contents_of_lt _ _ (holds.accounted.known block (held_borrowed member))
  have fresh : ∀ block, (moved recv.pbuf recv.heap.next sz outside).base = some block →
      (recv.heap.alloc (moved recv.pbuf recv.heap.next sz outside).data).contents block =
        (moved recv.pbuf recv.heap.next sz outside).data := by
    intro block same
    obtain rfl := Option.some.inj ((moved_base _ _ _ _).symm.trans same)
    exact Heap.alloc_contents_next _ _
  revert steady
  unfold reserve
  dsimp only
  split
  · exact fun _ => holds
  · split
    · intro steady
      cases base : recv.pbuf.base with
      | none =>
          rw [base] at steady
          rw [held, base] at accounted
          refine holds.grow steady ?_ fresh (fun inside => absurd inside not_inside) (known _) rfl
            rfl (fun _ => id) fun _ => id
          rw [held, moved_base]
          exact accounted.alloc _
      | some old =>
          rw [base] at steady
          rw [held, base] at accounted
          refine holds.grow steady ?_ fresh (fun inside => absurd inside not_inside) (known _) rfl
            rfl (fun _ => id) fun _ => id
          have both := (accounted.alloc (moved recv.pbuf recv.heap.next sz outside).data).perm
            (List.Perm.swap _ _ _)
          rw [held, moved_base]
          exact both.unref
    · exact fun _ => holds

/-- `commit` appends to the block of the buffer, whoever refers to it. -/
theorem commit_held {recv : Receiver} (holds : recv.Held) (idle : recv.inside = false)
    (bytes : List UInt8) : (recv.commit bytes).Held := by
  have steady := commit_steady holds.steady bytes
  have not_inside : recv.inside ≠ true := by simp [idle]
  revert steady
  unfold commit
  split
  · exact fun _ => holds
  · next block base =>
      split
      · intro steady
        refine holds.grow steady (holds.accounted.store _ _) ?_
          (fun inside => absurd inside not_inside) ?_ rfl rfl (fun _ => id) fun _ => id
        · intro other same
          obtain rfl := Option.some.inj (base.symm.trans same)
          exact Heap.store_contents_self _ _ _
        · intro other member
          by_cases same : other = block
          · subst same
            refine ⟨bytes, ?_⟩
            rw [holds.block _ base]
            exact Heap.store_contents_self _ _ _
          · refine ⟨[], ?_⟩
            rw [List.append_nil]
            exact Heap.store_contents_of_ne _ _ same
      · exact fun _ => holds

/-- The `sbuf` of the message refers to the block that `unpack` reads. -/
theorem call_held {recv : Receiver} (holds : recv.Held) (idle : recv.inside = false)
    {granted : Bool} (calm : granted = true → recv.nested = false) : (recv.call granted).Held := by
  have steady := call_steady holds.steady calm
  have not_inside : recv.inside ≠ true := by simp [idle]
  have same : ∀ block ∈ recv.borrowed,
      ∃ more, recv.heap.contents block = recv.heap.contents block ++ more :=
    fun block _ => ⟨[], (List.append_nil _).symm⟩
  revert steady
  unfold call
  split
  · exact fun _ => holds
  · next block base =>
      split
      · intro steady
        have accounted := holds.accounted
        rw [held, base] at accounted
        refine holds.grow steady ?_ holds.block ?_ same rfl rfl ?_ fun _ => id
        · have referred := accounted.refer (List.mem_cons_self : block ∈ block :: _)
          rw [held, base]
          exact referred
        · exact fun _ => ⟨block, base, List.mem_cons_self⟩
        · exact fun _ member => List.mem_cons_of_mem _ member
      · exact fun steady => holds.grow steady holds.accounted holds.block
          (fun inside => absurd inside not_inside) same rfl rfl (fun _ => id) fun _ => id

/-- The end of a completed object takes its own references only. -/
theorem fin_held {recv : Receiver} (holds : recv.Held) (index : ℕ) : (recv.fin index).Held := by
  have steady := fin_steady holds.steady index
  revert steady
  unfold fin
  cases found : recv.alive[index]? with
  | none => exact fun _ => holds
  | some obj =>
      intro steady
      obtain ⟨bound, at_index⟩ := List.getElem?_eq_some_iff.mp found
      have lent : (recv.alive.flatMap (·.refs)).Perm
          (obj.refs ++ (recv.alive.eraseIdx index).flatMap (·.refs)) := by
        have perm := (List.getElem_cons_eraseIdx_perm bound).symm
        rw [at_index] at perm
        exact perm.flatMap_right _
      have accounted : (recv.heap.unrefAll obj.refs).Accounted (recv.pbuf.base.toList ++
          (recv.sbf.getD [] ++ (recv.alive.eraseIdx index).flatMap (·.refs))) := by
        refine Heap.Accounted.unrefAll (holds.accounted.perm ?_)
        refine ((lent.append_left _).append_left _).trans ?_
        rw [← List.append_assoc, ← List.append_assoc, ← List.append_assoc]
        exact (List.perm_append_comm.append_right _).trans
          (by rw [List.append_assoc, List.append_assoc, List.append_assoc])
      refine holds.grow steady accounted ?_ holds.referred ?_ rfl rfl (fun _ => id)
        fun _ => List.mem_of_mem_eraseIdx
      · intro block base
        rw [Heap.unrefAll_contents]
        exact holds.block block base
      · exact fun block _ => ⟨[], by simp⟩

/-- A payload that the parser takes now resolves. -/
theorem Held.takes {recv : Receiver} (holds : recv.Held) (inside : recv.inside = true)
    (beyond : Mem) {len : ℕ} (fits : recv.pbuf.ofs + len ≤ (recv.input beyond).last) :
    Resolves recv.heap (recv.sbf.getD []) ((recv.input beyond).rawAt recv.pbuf.ofs len) len := by
  obtain ⟨block, base, member⟩ := holds.referred inside
  have content := holds.block block base
  have within : recv.pbuf.ofs + len ≤ (recv.heap.contents block).length := by
    rw [content]
    exact fits
  have found := Socket.payload_of holds.accounted member (held_borrowed (borrowed_sbf member))
    within
  rw [← base] at found
  exact ⟨rfl, _, found⟩

/-- A completed object takes the references of the `sbuf` with it. -/
theorem complete_held {recv : Receiver} (holds : recv.Held) {parsed : Receiver}
    {ctx : Context RawPtr} {ofs : ℕ}
    (moved : parsed = { recv with pbuf := { recv.pbuf with ofs := ofs } })
    (steady : (parsed.complete ctx).Steady)
    (payloads : Payloads (Resolves recv.heap (recv.sbf.getD [])) ctx) :
    (parsed.complete ctx).Held := by
  subst moved
  refine ⟨steady, ?_, holds.block, fun pushed => absurd pushed Bool.false_ne_true, ?_, ?_⟩
  · refine holds.accounted.perm (List.Perm.append_left _ ?_)
    simp only [complete, Option.getD_none, List.nil_append, List.flatMap_append,
      List.flatMap_singleton]
    exact List.perm_append_comm
  · intro _ p size found
    rcases found with here | there
    · cases here
    · cases there
  · intro obj member
    rcases List.mem_append.mp member with old | new
    · exact holds.intact obj old
    · rw [List.mem_singleton.mp new]
      exact ⟨payloads, rfl, rfl⟩

theorem ends_held {recv : Receiver} (holds : recv.Held) (inside : recv.inside = true)
    {beyond : Mem} {turn : Turn RawPtr}
    (does : Does (recv.input beyond) recv.ctx recv.pbuf.ofs turn) : (recv.ends turn).Held := by
  have steady := ends_steady holds.steady inside does
  have shallow := holds.steady.shallow inside
  have ordered := holds.steady.ordered shallow
  have near := holds.steady.near shallow beyond
  have adds := fun {after : Context RawPtr} (adds : Adds (recv.input beyond) recv.pbuf.ofs
      recv.ctx after) => adds (Resolves recv.heap (recv.sbf.getD [])) (holds.payloads shallow)
        fun len fits => holds.takes inside beyond fits
  have parsed : ∀ next : Receiver, next.Steady → next.heap = recv.heap →
      next.pbuf = { recv.pbuf with ofs := turn.ofs } → next.sbf = recv.sbf →
      next.alive = recv.alive → (next.inside = true → recv.inside = true) →
      (next.nested = false → Payloads (Resolves recv.heap (recv.sbf.getD [])) next.ctx) →
      next.Held := by
    intro next steady heap pbuf sbf alive still payloads
    have base : next.pbuf.base = recv.pbuf.base := by rw [pbuf]
    refine ⟨steady, ?_, ?_, ?_, ?_, ?_⟩
    · rw [held, base, heap, sbf, alive]
      exact holds.accounted
    · rw [base, heap, pbuf]
      exact holds.block
    · rw [base, sbf]
      exact fun running => holds.referred (still running)
    · rw [heap, sbf]
      exact payloads
    · rw [heap, alive]
      exact holds.intact
  revert steady
  unfold ends
  cases next : turn.next with
  | hangs => exact fun _ => holds
  | tooNested ctx => exact fun steady => parsed _ steady rfl rfl rfl rfl nofun nofun
  | go ctx =>
      obtain ⟨-, -, new⟩ := does.leaves ordered near (.inl next)
      exact fun steady => parsed _ steady rfl rfl rfl rfl id fun _ => adds new
  | ret ret ctx =>
      cases ret with
      | unpackContinue =>
          obtain ⟨-, -, new⟩ := does.leaves ordered near (.inr (.inl next))
          exact fun steady => parsed _ steady rfl rfl rfl rfl nofun fun _ => adds new
      | unpackParseError =>
          obtain ⟨-, -, new⟩ := does.leaves ordered near (.inr (.inr next))
          exact fun steady => parsed _ steady rfl rfl rfl rfl nofun fun _ => adds new
      | unpackSuccess =>
          obtain ⟨-, new⟩ := does.completes ordered (.inl next)
          exact fun steady => complete_held holds rfl steady (adds new)
      | unpackExtraBytes =>
          obtain ⟨-, new⟩ := does.completes ordered (.inr next)
          exact fun steady => complete_held holds rfl steady (adds new)

theorem act_held {recv : Receiver} {act : Act} (holds : recv.Held)
    (resumable : recv.Resumable act) : (recv.act act).Held := by
  unfold Receiver.act
  cases act with
  | reserve sz granted outside =>
      dsimp only
      split
      · exact holds
      · next idle => exact reserve_held holds (eq_false_of_ne_true idle) sz granted outside
  | commit bytes =>
      dsimp only
      split
      · exact holds
      · next idle => exact commit_held holds (eq_false_of_ne_true idle) bytes
  | call granted =>
      dsimp only
      split
      · exact holds
      · next idle => exact call_held holds (eq_false_of_ne_true idle) resumable
  | turn env beyond =>
      dsimp only
      split
      · next inside =>
          exact ends_held holds inside (holds.steady.does inside env (resumable inside))
      · exact holds
  | fin index => exact fin_held holds index

/-- Every payload of every completed object that is still there lies in a block that the
object's `sbuf` refers to, and is what it was when the object was completed. -/
def PayloadsIntact (recv : Receiver) : Prop := ∀ obj ∈ recv.alive, obj.Intact recv.heap

/-- The payloads are intact in every state of a session whose acts are resumable. -/
theorem payloads_intact (memory : ℕ → StackMem) (acts : List Act)
    (resumable : Run.Along act Resumable (start memory) acts) :
    ((start memory).run acts).PayloadsIntact :=
  (Run.holds_after Held Resumable (held_start memory) (fun _ _ => act_held) resumable).intact

def parseMore (room : ℕ) (bytes : List UInt8) (turns : ℕ) : List Act :=
  [.reserve room true fun _ => 0, .commit bytes, .call true] ++
    List.replicate turns (.turn generous fun _ => 0)

/-- An array of two raws whose second one comes when the buffer has moved; the
buffer moves again when the object is complete. -/
def spanning : List Act :=
  parseMore 256 [0x92, 0xa2, 0x68, 0x69] 5 ++ parseMore 300 [0xa1, 0x6a] 4 ++
    [.reserve 700 true fun _ => 0]

theorem payloads_intact_spanning : ((start zeros).run spanning).PayloadsIntact :=
  payloads_intact zeros spanning (by decide +kernel)

/-- Behind the stack, a frame that waits for a raw of all but one of 2^64 bytes. -/
def staleFrame : ℕ → StackMem
  | 16 => ⟨.processData, .cell 15, 2 ^ 64 - 1, 0, .blob⟩
  | _ => ⟨.initial, .work, 0, 0, .nil⟩

def nestedResumed : List Act := nestedCall ++ List.replicate 17 (.turn generous fun _ => 0)

/-- It completes an object with a payload that lies in no block. -/
theorem nestedResumed_strays : ¬ ((start staleFrame).run nestedResumed).PayloadsIntact := by
  intro intact
  have stray : ∃ obj ∈ ((start staleFrame).run nestedResumed).alive, ∃ cell ∈ obj.cells,
      cell = .raw ⟨some 0, 16, 2 ^ 32 - 1⟩ (2 ^ 32 - 1) ∧
        Socket.payload ((start staleFrame).run nestedResumed).heap obj.refs
          ⟨some 0, 16, 2 ^ 32 - 1⟩ = none := by
    decide +kernel
  obtain ⟨obj, alive, cell, member, rfl, nothing⟩ := stray
  obtain ⟨-, bytes, found⟩ := (intact obj alive).resolves _ _ (.inr member)
  exact nomatch nothing.symm.trans found

end Receiver

end Cyue.Handler
