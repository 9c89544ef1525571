import Cyue.Mpak.Release

/-!
# What a turn does to the stack

Below its top the stack of the parser is a chain of containers, each waiting
for the object that the next frame fills in.  As long as the top is the only
object that is written, the chain is kept; a turn works on the top and then
pops it, pushes one of its elements or leaves it.
-/

namespace Cyue.Mpak.Release

open Bytes Memory Context

variable {ρ : Type}

/-! ## The chain of containers -/

def age : Slot → ℕ
  | .work => 0
  | .cell index => index + 1

theorem live_of_age {ctx : Context ρ} {slot : Slot} (old : age slot ≤ ctx.cells.length) :
    ctx.Live slot := by
  cases slot with
  | work => trivial
  | cell index => exact old

/-- The frame is that of a container whose object number `index` is worked on. -/
structure Counting (ctx : Context ρ) (frame : StackMem) (shape : Shape) (size ptr index : ℕ) :
    Prop where
  waits : shape.Waits size index frame
  holds : ctx.read frame.d = shape.obj size ptr
  older : age frame.d ≤ ptr
  room : ptr + shape.count size ≤ ctx.cells.length
  inside : index < shape.count size

/-- The next frame is for the object that this one waits for. -/
def Linked (ctx : Context ρ) (level : ℕ) : Prop :=
  ∃ shape size ptr index, Counting ctx (ctx.stack level) shape size ptr index ∧
    (ctx.stack (level + 1)).d = .cell (ptr + index)

/-- A frame that has not become a container: the length fields have at most four
bytes, unless a container was refused and its size stands there instead. -/
def Header (frame : StackMem) : Prop :=
  match frame.status with
  | .initial => True
  | .processLength => frame.requireLen < 2 ^ 32 ∧
      ((∃ shape : Shape, frame.requireType = shape.kind) ∨ frame.requireLen ≤ 4)
  | .processData => frame.requireLen < 2 ^ 32
  | _ => False

structure Ordered (ctx : Context ρ) : Prop where
  height : ctx.stackHeight < unpackStackDepth
  bottom : (ctx.stack 0).d = .work
  linked : ∀ level < ctx.stackHeight, Linked ctx level
  top : Header ctx.top ∨ ∃ shape size ptr index, Counting ctx ctx.top shape size ptr index

theorem Linked.age_lt {ctx : Context ρ} {level : ℕ} (linked : Linked ctx level) :
    age (ctx.stack level).d < age (ctx.stack (level + 1)).d := by
  obtain ⟨shape, size, ptr, index, counting, next⟩ := linked
  have older := counting.older
  rw [next, age]
  omega

/-- A frame's object is older than those of all frames above it. -/
theorem age_lt_of_linked {ctx : Context ρ} {level upper : ℕ} (above : level < upper)
    (linked : ∀ level < upper, Linked ctx level) :
    age (ctx.stack level).d < age (ctx.stack upper).d := by
  induction upper, above using Nat.le_induction with
  | base => exact (linked level (Nat.lt_succ_self _)).age_lt
  | succ upper _ ih =>
      have lower := ih fun level under => linked level (Nat.lt_succ_of_lt under)
      exact lower.trans (linked upper (Nat.lt_succ_self _)).age_lt

theorem Ordered.top_older {ctx : Context ρ} (ordered : Ordered ctx) :
    age ctx.top.d ≤ ctx.cells.length := by
  unfold Context.top
  cases height : ctx.stackHeight with
  | zero =>
      rw [ordered.bottom, age]
      exact Nat.zero_le _
  | succ level =>
      obtain ⟨shape, size, ptr, index, counting, next⟩ := ordered.linked level (by omega)
      have room := counting.room
      have inside := counting.inside
      rw [next, age]
      omega

/-! ## Work on the top -/

/-- From `ctx` to `next` only the object of the top and the top itself have been
worked on. -/
structure Worked (ctx next : Context ρ) : Prop where
  height : next.stackHeight = ctx.stackHeight
  d : next.top.d = ctx.top.d
  kept : Kept ctx.stackHeight (· = ctx.top.d) ctx next

namespace Worked

variable {ctx next : Context ρ}

theorem refl (ctx : Context ρ) : Worked ctx ctx :=
  ⟨rfl, rfl, Kept.of_frames ctx ctx.stackHeight ctx.stack fun _ _ => rfl⟩

theorem setTop (worked : Worked ctx next) {frame : StackMem} (d : frame.d = ctx.top.d) :
    Worked ctx (next.setTop frame) where
  height := worked.height
  d := by rw [setTop_top, d]
  kept := worked.kept.trans (Kept.setTop next frame (Nat.le_of_eq worked.height.symm))

theorem write (worked : Worked ctx next) {d : Slot} (at_top : d = ctx.top.d) (obj : Obj ρ) :
    Worked ctx (next.write d obj) where
  height := by rw [write_stackHeight, worked.height]
  d := by rw [write_top, worked.d]
  kept := worked.kept.trans (Kept.write next obj at_top)

theorem extend (worked : Worked ctx next) (count : ℕ) : Worked ctx (next.extend count) where
  height := worked.height
  d := worked.d
  kept := worked.kept.trans (Kept.extend next count)

theorem counting (worked : Worked ctx next) {frame : StackMem} {shape : Shape}
    {size ptr index : ℕ} (counting : Counting ctx frame shape size ptr index)
    (other : frame.d ≠ ctx.top.d) : Counting next frame shape size ptr index where
  waits := counting.waits
  holds := by
    have old : age frame.d ≤ ctx.cells.length := by
      have older := counting.older
      have room := counting.room
      omega
    rw [worked.kept.others frame.d (live_of_age old) other, counting.holds]
  older := counting.older
  room := Nat.le_trans counting.room worked.kept.grows
  inside := counting.inside

/-- The chain is kept. -/
theorem linked (worked : Worked ctx next) (ordered : Ordered ctx) :
    ∀ level < ctx.stackHeight, Linked next level := by
  intro level under
  obtain ⟨shape, size, ptr, index, counting, above⟩ := ordered.linked level under
  have older := age_lt_of_linked under ordered.linked
  have other : (ctx.stack level).d ≠ ctx.top.d := by
    intro same
    rw [same] at older
    exact Nat.lt_irrefl _ older
  refine ⟨shape, size, ptr, index, ?_, ?_⟩
  · rw [worked.kept.below level under]
    exact worked.counting counting other
  · rw [← above]
    rcases Nat.lt_or_ge (level + 1) ctx.stackHeight with inner | last
    · rw [worked.kept.below _ inner]
    · have top : level + 1 = ctx.stackHeight := by omega
      have d := worked.d
      unfold Context.top at d
      rw [top, ← worked.height, d, worked.height]

theorem bottom (worked : Worked ctx next) (ordered : Ordered ctx) : (next.stack 0).d = .work := by
  rw [← ordered.bottom]
  rcases Nat.eq_zero_or_pos ctx.stackHeight with ground | raised
  · have d := worked.d
    unfold Context.top at d
    rwa [worked.height, ground] at d
  · rw [worked.kept.below 0 raised]

/-- The top is left to be gone on with. -/
theorem keeps (worked : Worked ctx next) (ordered : Ordered ctx)
    (top : Header next.top ∨ ∃ shape size ptr index, Counting next next.top shape size ptr index) :
    Ordered next where
  height := by
    rw [worked.height]
    exact ordered.height
  bottom := worked.bottom ordered
  linked := by
    rw [worked.height]
    exact worked.linked ordered
  top := top

/-- The top is popped. -/
theorem pops (worked : Worked ctx next) (ordered : Ordered ctx) (raised : ctx.stackHeight ≠ 0) :
    Ordered { next with stackHeight := next.stackHeight - 1 } := by
  have linked := worked.linked ordered
  have under : ctx.stackHeight - 1 < ctx.stackHeight := Nat.pred_lt raised
  have depth := ordered.height
  rw [worked.height]
  refine ⟨?_, worked.bottom ordered, ?_, .inr ?_⟩
  · exact Nat.lt_trans under depth
  · intro level inside
    obtain ⟨shape, size, ptr, index, counting, above⟩ := linked level (Nat.lt_trans inside under)
    exact ⟨shape, size, ptr, index,
      ⟨counting.waits, counting.holds, counting.older, counting.room, counting.inside⟩, above⟩
  · obtain ⟨shape, size, ptr, index, counting, -⟩ := linked _ under
    exact ⟨shape, size, ptr, index,
      counting.waits, counting.holds, counting.older, counting.room, counting.inside⟩

/-- An element of the top is pushed. -/
theorem pushes (worked : Worked ctx next) (ordered : Ordered ctx) {shape : Shape}
    {size ptr index : ℕ} (counting : Counting next next.top shape size ptr index)
    (room : ctx.stackHeight + 1 < unpackStackDepth) {frame : StackMem}
    (d : frame.d = .cell (ptr + index)) (initial : frame.status = .initial) :
    Ordered (({ next with stackHeight := next.stackHeight + 1 } : Context ρ).setTop frame) := by
  have linked := worked.linked ordered
  have frames : ∀ level < next.stackHeight + 1, (({ next with
      stackHeight := next.stackHeight + 1 } : Context ρ).setTop frame).stack level =
      next.stack level := by
    intro level inside
    simp only [Context.setTop, Function.update_of_ne (Nat.ne_of_lt inside)]
  have reads : ∀ slot, (({ next with stackHeight := next.stackHeight + 1 } :
      Context ρ).setTop frame).read slot = next.read slot := by
    intro slot
    cases slot <;> rfl
  have transfer : ∀ {other : StackMem} {shape : Shape} {size ptr index : ℕ},
      Counting next other shape size ptr index → Counting (({ next with
        stackHeight := next.stackHeight + 1 } : Context ρ).setTop frame) other shape size ptr
          index := fun counting =>
    ⟨counting.waits, (reads _).trans counting.holds, counting.older, counting.room,
      counting.inside⟩
  refine ⟨?_, ?_, ?_, .inl ?_⟩
  · rw [setTop_stackHeight]
    exact worked.height ▸ room
  · rw [frames 0 (Nat.succ_pos _)]
    exact worked.bottom ordered
  · intro level inside
    rw [setTop_stackHeight] at inside
    rcases Nat.lt_succ_iff_lt_or_eq.mp inside with lower | last
    · obtain ⟨shape, size, ptr, index, counting, above⟩ := linked level (worked.height ▸ lower)
      refine ⟨shape, size, ptr, index, ?_, ?_⟩
      · rw [frames level inside]
        exact transfer counting
      · rw [frames (level + 1) (Nat.succ_lt_succ lower)]
        exact above
    · rw [last]
      refine ⟨shape, size, ptr, index, ?_, ?_⟩
      · rw [frames _ (Nat.lt_succ_self _)]
        exact transfer counting
      · simpa [Context.setTop] using d
  · rw [setTop_top]
    unfold Header
    rw [initial]
    trivial

end Worked

/-! ## Payloads -/

/-- What every payload among the objects of the context meets. -/
def Payloads (meets : ρ → ℕ → Prop) (ctx : Context ρ) : Prop :=
  ∀ p size, ctx.atWork = .raw p size ∨ .raw p size ∈ ctx.cells → meets p size

theorem Payloads.setTop {meets : ρ → ℕ → Prop} {ctx : Context ρ} (payloads : Payloads meets ctx)
    (frame : StackMem) : Payloads meets (ctx.setTop frame) := payloads

theorem Payloads.write {meets : ρ → ℕ → Prop} {ctx : Context ρ} (payloads : Payloads meets ctx)
    (slot : Slot) {obj : Obj ρ} (new : ∀ p size, obj = .raw p size → meets p size) :
    Payloads meets (ctx.write slot obj) := by
  intro p size found
  cases slot with
  | work =>
      rcases found with here | there
      · exact new p size here
      · exact payloads p size (.inr there)
  | cell index =>
      rcases found with here | there
      · exact payloads p size (.inl here)
      · rcases List.mem_or_eq_of_mem_set there with old | same
        · exact payloads p size (.inr old)
        · exact new p size same.symm

theorem Payloads.extend {meets : ρ → ℕ → Prop} {ctx : Context ρ} (payloads : Payloads meets ctx)
    (count : ℕ) : Payloads meets (ctx.extend count) := by
  intro p size found
  rcases found with here | there
  · exact payloads p size (.inl here)
  · rcases List.mem_append.mp there with old | fresh
    · exact payloads p size (.inr old)
    · exact nomatch List.eq_of_mem_replicate fresh

/-- From `ctx` to `next` no payload is added but one that starts at `ofs` and ends
inside the buffer. -/
def Adds (input : Input ρ) (ofs : ℕ) (ctx next : Context ρ) : Prop :=
  ∀ meets : ρ → ℕ → Prop, Payloads meets ctx →
    (∀ len, ofs + len ≤ input.last → meets (input.rawAt ofs len) len) → Payloads meets next

theorem Adds.refl (input : Input ρ) (ofs : ℕ) (ctx : Context ρ) : Adds input ofs ctx ctx :=
  fun _ payloads _ => payloads

theorem Adds.setTop {input : Input ρ} {ofs : ℕ} {ctx next : Context ρ}
    (adds : Adds input ofs ctx next) (frame : StackMem) : Adds input ofs ctx (next.setTop frame) :=
  adds

theorem Adds.write {input : Input ρ} {ofs : ℕ} {ctx next : Context ρ}
    (adds : Adds input ofs ctx next) (slot : Slot) {obj : Obj ρ}
    (plain : ∀ p size, obj ≠ .raw p size) : Adds input ofs ctx (next.write slot obj) :=
  fun meets payloads new =>
    (adds meets payloads new).write slot fun p size same => absurd same (plain p size)

theorem Adds.extend {input : Input ρ} {ofs : ℕ} {ctx next : Context ρ}
    (adds : Adds input ofs ctx next) (count : ℕ) : Adds input ofs ctx (next.extend count) :=
  fun meets payloads new => (adds meets payloads new).extend count

/-! ## Starting a container -/

theorem Shape.obj_ne_raw (shape : Shape) (size ptr : ℕ) (p : ρ) (len : ℕ) :
    shape.obj size ptr ≠ .raw p len := by
  cases shape <;> exact fun same => nomatch same

theorem request_eq (shape : Shape) {sz : ℕ} (small : sz < 2 ^ 32) :
    request shape sz = sz * entrySize shape := by
  refine Nat.mod_eq_of_lt ?_
  have wide : entrySize shape ≤ 48 := by cases shape <;> decide
  have bound := Nat.mul_le_mul_left sz wide
  have size : sizeMax = 18446744073709551616 := rfl
  omega

theorem init_made {shape : Shape} {malloc : Malloc} {ctx next : Context ρ} {d : Slot} {sz : ℕ}
    (small : sz < 2 ^ 32) (made : init shape malloc ctx d sz = .made next) :
    if sz = 0 then next = ctx.write d (shape.obj 0 0)
    else next = (ctx.extend (shape.count sz)).write d (shape.obj sz ctx.cells.length) := by
  unfold init at made
  split_ifs at made ⊢ with empty large granted
  · cases made
    rfl
  · cases made
    have objects : sz * entrySize shape / sizeofObject = shape.count sz := by
      cases shape with
      | array => exact Nat.mul_div_cancel sz (by decide)
      | map =>
          have twice : sz * entrySize .map = 2 * sz * sizeofObject := by
            rw [entrySize, Nat.mul_left_comm, Nat.mul_assoc]
          rw [twice]
          exact Nat.mul_div_cancel (2 * sz) (by decide)
    rw [request_eq shape small, objects, Nat.mod_eq_of_lt small]
    rfl

theorem init_ends {shape : Shape} {malloc : Malloc} {ctx : Context ρ} {d : Slot} {sz : ℕ}
    (small : sz < 2 ^ 32) : init shape malloc ctx d sz ≠ .hangs := by
  unfold init
  have wide : entrySize shape ≤ 48 := by cases shape <;> decide
  have bound := Nat.mul_le_mul_left sz wide
  have modest : ¬ 2 ^ 63 < request shape sz := by
    rw [request_eq shape small]
    omega
  rw [if_neg modest]
  split_ifs <;> exact fun same => nomatch same

/-- A container that has been started waits for its first object. -/
theorem counting_started {ctx next : Context ρ} {shape : Shape} {frame : StackMem}
    (made : next = ((ctx.extend (shape.count frame.requireLen)).write frame.d
      (shape.obj frame.requireLen ctx.cells.length)).setTop (started frame shape))
    (old : age frame.d ≤ ctx.cells.length) (some_left : frame.requireLen ≠ 0) :
    Counting next next.top shape frame.requireLen ctx.cells.length 0 := by
  subst made
  have d : (started frame shape).d = frame.d := by cases shape <;> rfl
  rw [setTop_top]
  refine ⟨?_, ?_, ?_, ?_, ?_⟩
  · cases shape with
    | array => exact ⟨rfl, rfl, rfl⟩
    | map => exact ⟨rfl, rfl, rfl⟩
  · have live : (ctx.extend (shape.count frame.requireLen)).Live frame.d := by
      apply live_of_age
      rw [extend_cells_length]
      omega
    rw [setTop_read, d]
    exact read_write_same live _
  · rw [d]
    exact old
  · rw [setTop_cells, write_cells_length, extend_cells_length]
  · have positive := Nat.pos_of_ne_zero some_left
    cases shape with
    | array => exact positive
    | map =>
        simp only [Shape.count]
        omega

theorem firstNew_counting (env : Env ρ) {ctx : Context ρ} {shape : Shape} {size ptr : ℕ}
    {d : Slot} (holds : ctx.read d = shape.obj size ptr) (some_left : size ≠ 0) :
    firstNew env ctx d shape = (.cell (ptr + 0), true) := by
  have positive := Nat.pos_of_ne_zero some_left
  cases shape with
  | array => simp [firstNew, elemNew, holds, Shape.obj, positive]
  | map => simp [firstNew, keyNew, holds, Shape.obj, positive]

/-! ## What a turn can do -/

/-- A length field of eight bytes, which only the resumption of a refused
container of eight entries reads, gives a number of 32 bits. -/
def Narrow (input : Input ρ) (ctx : Context ρ) (ofs : ℕ) : Prop :=
  ctx.top.status = .processLength → ctx.top.requireLen = 8 →
    lacking input 8 ofs = false → castTo input ofs 8 < 2 ^ 32

/-- Where something that is no container is read, the position is in the buffer. -/
def Near (input : Input ρ) (ctx : Context ρ) (ofs : ℕ) : Prop :=
  ctx.top.status = .processData ∨ (ctx.top.status = .processLength ∧
    ∀ shape : Shape, ctx.top.requireType ≠ shape.kind) → ofs ≤ input.last

/-- The lengths that are consumed are those of a `float` or a `double` where one is
read, and do not wrap as an `int`. -/
structure Fits (input : Input ρ) (ctx : Context ρ) (ofs : ℕ) : Prop where
  float : ctx.top.status = .processData → ctx.top.requireType = .double →
    lacking input ctx.top.requireLen ofs = false →
      ctx.top.requireLen = 4 ∨ ctx.top.requireLen = 8
  blob : ctx.top.status = .processData → ctx.top.requireType = .blob →
    lacking input ctx.top.requireLen ofs = false → ctx.top.requireLen < 2 ^ 31
  length : ctx.top.status = .processLength →
    lacking input ctx.top.requireLen ofs = false → ctx.top.requireLen < 2 ^ 31

/-- The turn has read bytes of the buffer that are not parsed yet, ends inside of
it, and its assertions hold. -/
structure Safe (input : Input ρ) (ofs : ℕ) (turn : Turn ρ) : Prop where
  reads : ∀ read ∈ turn.reads, ofs ≤ read.1 ∧ read.1 + read.2 ≤ input.last
  ofs : turn.ofs ≤ input.last
  asserts : turn.asserts = true

instance (input : Input ρ) (ctx : Context ρ) (ofs : ℕ) : Decidable (Narrow input ctx ofs) :=
  inferInstanceAs (Decidable (_ → _ → _ → _))

instance (input : Input ρ) (ctx : Context ρ) (ofs : ℕ) : Decidable (Fits input ctx ofs) :=
  decidable_of_iff ((_ → _ → _ → _) ∧ (_ → _ → _ → _) ∧ (_ → _ → _))
    ⟨fun fits => ⟨fits.1, fits.2.1, fits.2.2⟩, fun fits => ⟨fits.float, fits.blob, fits.length⟩⟩

instance (input : Input ρ) (ofs : ℕ) (turn : Turn ρ) : Decidable (Safe input ofs turn) :=
  decidable_of_iff ((∀ read ∈ turn.reads, _ ∧ _) ∧ turn.ofs ≤ input.last ∧ turn.asserts = true)
    ⟨fun safe => ⟨safe.1, safe.2.1, safe.2.2⟩, fun safe => ⟨safe.reads, safe.ofs, safe.asserts⟩⟩

/-- What has been read, parsed and asserted is in order. -/
def Spent (input : Input ρ) (ctx : Context ρ) (ofs parsed : ℕ) (reads : List (ℕ × ℕ))
    (asserts : Bool) : Prop :=
  ofs ≤ input.last → input.last < 2 ^ 63 → Fits input ctx ofs →
    (∀ read ∈ reads, ofs ≤ read.1 ∧ read.1 + read.2 ≤ input.last) ∧ parsed ≤ input.last ∧
      asserts = true

inductive Does (input : Input ρ) (ctx : Context ρ) (ofs : ℕ) : Turn ρ → Prop where
  | waits : Does input ctx ofs (waitNextBuffer ctx ofs)
  | fails {next : Context ρ} {parsed : ℕ} {reads : List (ℕ × ℕ)} {asserts : Bool}
      (worked : Worked ctx next) (adds : Adds input ofs ctx next) (header : Header next.top)
      (near : Near input next parsed) (spent : Spent input ctx ofs parsed reads asserts) :
      Does input ctx ofs ((error next parsed).after reads asserts)
  | keeps {next : Context ρ} {parsed : ℕ} {reads : List (ℕ × ℕ)} {asserts : Bool}
      (worked : Worked ctx next) (adds : Adds input ofs ctx next) (header : Header next.top)
      (near : Near input next parsed) (spent : Spent input ctx ofs parsed reads asserts) :
      Does input ctx ofs ((keepStack next parsed).after reads asserts)
  | pops {next : Context ρ} {parsed : ℕ} {reads : List (ℕ × ℕ)} {asserts : Bool}
      (worked : Worked ctx next) (adds : Adds input ofs ctx next)
      (spent : Spent input ctx ofs parsed reads asserts) :
      Does input ctx ofs ((popStack input next parsed).after reads asserts)
  | pushes {next : Context ρ} {shape : Shape} {size ptr index parsed : ℕ}
      {reads : List (ℕ × ℕ)} {asserts : Bool} (worked : Worked ctx next)
      (adds : Adds input ofs ctx next) (counting : Counting next next.top shape size ptr index)
      (spent : Spent input ctx ofs parsed reads asserts) :
      Does input ctx ofs ((pushStack next (.cell (ptr + index), true) parsed).after reads asserts)

section

variable {env : Env ρ} {input : Input ρ} {ctx : Context ρ} {ofs : ℕ}

theorem lengthCheck_does (ordered : Ordered ctx) {frame : StackMem} (d : frame.d = ctx.top.d)
    (small : frame.requireLen < 2 ^ 32)
    (status : frame.status = .initial ∨ frame.status = .processLength) {parsed : ℕ}
    (close : (∀ shape : Shape, frame.requireType ≠ shape.kind) → parsed ≤ input.last)
    {reads : List (ℕ × ℕ)} {asserts : Bool} (spent : Spent input ctx ofs parsed reads asserts) :
    Does input ctx ofs ((lengthCheck env input (ctx.setTop frame) parsed).after reads asserts) := by
  have worked : Worked ctx (ctx.setTop frame) := (Worked.refl ctx).setTop d
  have adds : Adds input ofs ctx (ctx.setTop frame) := (Adds.refl input ofs ctx).setTop frame
  by_cases container : ∃ shape : Shape, frame.requireType = shape.kind
  · obtain ⟨shape, kind⟩ := container
    have kind' : (ctx.setTop frame).top.requireType = shape.kind := by rw [setTop_top, kind]
    rw [lengthCheck_container env input parsed kind', setTop_top]
    cases made : init shape env.malloc (ctx.setTop frame) frame.d frame.requireLen with
    | hangs => exact absurd made (init_ends small)
    | refused =>
        refine .fails worked adds ?_ ?_ spent
        · rw [setTop_top]
          unfold Header
          rcases status with initial | length
          · rw [initial]
            trivial
          · rw [length]
            exact ⟨small, .inl ⟨shape, kind⟩⟩
        · intro data
          rw [setTop_top] at data
          rcases data with data | ⟨-, other⟩
          · rcases status with initial | length
            · exact nomatch initial.symm.trans data
            · exact nomatch length.symm.trans data
          · exact absurd kind (other shape)
    | made next =>
        have next_eq := init_made small made
        dsimp only
        split at next_eq
        · next empty =>
            rw [if_pos empty, next_eq]
            exact .pops (worked.write d _) (adds.write _ (Shape.obj_ne_raw shape 0 0)) spent
        · next some_left =>
            have old : age frame.d ≤ (ctx.setTop frame).cells.length := by
              rw [d, setTop_cells]
              exact ordered.top_older
            have d' : (started frame shape).d = frame.d := by cases shape <;> rfl
            have counting := counting_started (congrArg (·.setTop (started frame shape)) next_eq)
              old some_left
            have holds := counting.holds
            rw [setTop_top, d'] at holds
            rw [if_neg some_left, firstNew_counting env holds some_left]
            refine .pushes ?_ ?_ counting spent
            · rw [next_eq]
              exact ((worked.extend _).write d _).setTop (d'.trans d)
            · rw [next_eq]
              exact ((adds.extend _).write _ (Shape.obj_ne_raw shape _ _)).setTop _
  · have other : ∀ shape : Shape, frame.requireType ≠ shape.kind :=
      fun shape kind => container ⟨shape, kind⟩
    rw [lengthCheck_other env input parsed (by rw [setTop_top]; exact other), setTop_top,
      setTop_setTop]
    refine .keeps ((Worked.refl ctx).setTop d) (Adds.refl input ofs ctx) ?_ (fun _ => close other)
      spent
    rw [setTop_top]
    exact small

/-- The byte in front of everything else that an `INITIAL` turn does. -/
theorem spent_byte (ctx : Context ρ) (readable : ofs < input.last) :
    Spent input ctx ofs (ofs + 1) [(ofs, 1)] true := by
  intro _ _ _
  refine ⟨?_, readable, rfl⟩
  intro read member
  rw [List.mem_singleton.mp member]
  exact ⟨Nat.le_refl _, readable⟩

theorem turnInitial_does (ordered : Ordered ctx) (initial : ctx.top.status = .initial)
    (readable : ofs < input.last) (b : UInt8) :
    Does input ctx ofs ((turnInitial env input ctx (ofs + 1) b).after [(ofs, 1)] true) := by
  have spent := spent_byte ctx readable
  refine turnInitial_cases (motive := fun turn => Does input ctx ofs (turn.after [(ofs, 1)] true))
    b ?stores ?tags ?counts ?fails
  case stores =>
    intro obj plain
    exact .pops ((Worked.refl ctx).write rfl obj) ((Adds.refl input ofs ctx).write _ plain) spent
  case tags =>
    intro frame d status
    refine .keeps ((Worked.refl ctx).setTop d) (Adds.refl input ofs ctx) ?_ (fun _ => readable)
      spent
    rw [setTop_top]
    rcases status with ⟨length, short⟩ | ⟨data, short⟩
    · simp only [Header, length]
      exact ⟨by omega, .inr short⟩
    · simp only [Header, data]
      omega
  case counts =>
    intro requireLen short requireType
    refine lengthCheck_does ordered ?_ ?_ ?_ (fun _ => readable) spent
    · rfl
    · dsimp only
      omega
    · exact .inl initial
  case fails =>
    refine .fails (Worked.refl ctx) (Adds.refl input ofs ctx) ?_ (fun _ => readable) spent
    unfold Header
    rw [initial]
    trivial

/-- The end of a field that the buffer holds. -/
theorem lacking_false {requireLen : ℕ} (close : ofs ≤ input.last) (wide : input.last < 2 ^ 63)
    (small : requireLen < 2 ^ 32) (there : lacking input requireLen ofs = false) :
    ofs + requireLen ≤ input.last := by
  unfold lacking at there
  rw [decide_eq_false_iff_not, Nat.not_lt] at there
  have size : sizeMax = 18446744073709551616 := rfl
  rw [Nat.mod_eq_of_lt (by omega)] at there
  omega

theorem addParsedOfs_eq {sz : ℕ} (small : sz < 2 ^ 31) (room : ofs + sz < sizeMax) :
    addParsedOfs ofs sz = ofs + sz := by
  have size : sizeMax = 18446744073709551616 := rfl
  unfold addParsedOfs
  rw [intOfSize_eq small, size]
  omega

/-- A field that fits is consumed as the source means it. -/
theorem spent_field {requireLen : ℕ} {reads : List (ℕ × ℕ)} {asserts : Bool}
    (small : requireLen < 2 ^ 32) (there : lacking input requireLen ofs = false)
    (fitting : Fits input ctx ofs → requireLen < 2 ^ 31)
    (only : Fits input ctx ofs → ∀ read ∈ reads, read = (ofs, requireLen))
    (asserted : Fits input ctx ofs →
      parsedOfsHolds input.last ofs (intOfSize requireLen) = true → asserts = true) :
    Spent input ctx ofs (addParsedOfs ofs requireLen) reads asserts := by
  intro close wide fits
  have int := fitting fits
  have inside := lacking_false close wide small there
  have size : sizeMax = 18446744073709551616 := rfl
  refine ⟨?_, ?_, asserted fits ?_⟩
  · intro read member
    rw [only fits read member]
    exact ⟨Nat.le_refl _, inside⟩
  · rw [addParsedOfs_eq int (by omega)]
    exact inside
  · rw [intOfSize_eq int, parsedOfsHolds, decide_eq_true_eq]
    omega

theorem Ordered.header (ordered : Ordered ctx)
    (status : ctx.top.status = .processLength ∨ ctx.top.status = .processData) :
    Header ctx.top := by
  rcases ordered.top with header | ⟨shape, size, ptr, index, counting⟩
  · exact header
  · have waits := counting.waits
    cases shape with
    | array =>
        have array := waits.1
        rcases status with length | data
        · exact nomatch array.symm.trans length
        · exact nomatch array.symm.trans data
    | map =>
        have map := waits.2.2
        split at map
        · rcases status with length | data
          · exact nomatch map.symm.trans length
          · exact nomatch map.symm.trans data
        · rcases status with length | data
          · exact nomatch map.symm.trans length
          · exact nomatch map.symm.trans data

theorem lengthRead_small (narrow : Narrow input ctx ofs)
    (status : ctx.top.status = .processLength) (small : ctx.top.requireLen < 2 ^ 32)
    (there : lacking input ctx.top.requireLen ofs = false) :
    lengthRead input ofs ctx.top.requireLen < 2 ^ 32 := by
  unfold lengthRead
  split
  · next known =>
      have number := beNat_lt (load input.mem ofs ctx.top.requireLen)
      rw [load_length] at number
      simp only [castable, decide_eq_true_eq] at known
      unfold castTo
      rcases known with width | width | width | width
      · rw [width] at number ⊢
        omega
      · rw [width] at number ⊢
        omega
      · rw [width] at number ⊢
        omega
      · rw [width] at there ⊢
        exact narrow status width there
  · exact small

theorem turnLength_does (ordered : Ordered ctx) (status : ctx.top.status = .processLength)
    (wide : input.last < 2 ^ 63) (near : Near input ctx ofs) (narrow : Narrow input ctx ofs) :
    Does input ctx ofs (turnLength env input ctx ofs) := by
  have header := ordered.header (.inl status)
  simp only [Header, status] at header
  obtain ⟨small, field⟩ := header
  unfold turnLength
  dsimp only
  split
  · exact .waits
  · next there =>
      rw [Bool.not_eq_true] at there
      refine lengthCheck_does ordered ?_ ?_ ?_ ?_ ?_
      · rfl
      · exact lengthRead_small narrow status small there
      · exact .inr status
      · intro other
        have close := near (.inr ⟨status, other⟩)
        have short : ctx.top.requireLen ≤ 4 := by
          rcases field with ⟨shape, kind⟩ | short
          · exact absurd kind (other shape)
          · exact short
        have inside := lacking_false close wide small there
        have size : sizeMax = 18446744073709551616 := rfl
        rw [addParsedOfs_eq (by omega) (by omega)]
        exact inside
      · refine spent_field small there (fun fits => fits.length status there) ?_ (fun _ => id)
        intro _ read member
        split at member
        · exact List.mem_singleton.mp member
        · exact nomatch member

theorem turnData_does (ordered : Ordered ctx) (status : ctx.top.status = .processData)
    (wide : input.last < 2 ^ 63) (near : Near input ctx ofs) :
    Does input ctx ofs (turnData input ctx ofs) := by
  have header := ordered.header (.inr status)
  have small := header
  simp only [Header, status] at small
  have close := near (.inl status)
  have stores : ∀ (obj : Obj ρ) (reads : List (ℕ × ℕ)) (asserts : Bool),
      Adds input ofs ctx (ctx.write ctx.top.d obj) →
      Spent input ctx ofs (addParsedOfs ofs ctx.top.requireLen) reads asserts →
      Does input ctx ofs ((popStack input (ctx.write ctx.top.d obj)
        (addParsedOfs ofs ctx.top.requireLen)).after reads asserts) :=
    fun obj reads asserts adds spent => .pops ((Worked.refl ctx).write rfl obj) adds spent
  have fails : Does input ctx ofs (error ctx ofs) := by
    rw [← Turn.after_nil (error ctx ofs)]
    refine .fails (Worked.refl ctx) (Adds.refl input ofs ctx) header near ?_
    exact fun close _ _ => ⟨nofun, close, rfl⟩
  unfold turnData
  dsimp only
  split
  · exact .waits
  · next there =>
      rw [Bool.not_eq_true] at there
      have raws : Adds input ofs ctx (ctx.write ctx.top.d (.raw
          (input.rawAt ofs (ctx.top.requireLen % 2 ^ 32)) (ctx.top.requireLen % 2 ^ 32))) := by
        intro meets payloads new
        refine payloads.write _ fun p size same => ?_
        cases same
        rw [Nat.mod_eq_of_lt small]
        exact new _ (lacking_false close wide small there)
      split
      · split
        · next known =>
            simp only [castable, decide_eq_true_eq] at known
            refine stores _ _ _ ((Adds.refl input ofs ctx).write _ fun _ _ same => nomatch same)
              (spent_field small there (fun _ => by omega) ?_ fun _ => id)
            exact fun _ read member => List.mem_singleton.mp member
        · exact fails
      · next double =>
          split
          · next eight =>
              refine stores _ _ _ ((Adds.refl input ofs ctx).write _ fun _ _ same => nomatch same)
                (spent_field small there (fun _ => by omega) ?_ fun _ => id)
              intro _ read member
              rw [eight]
              exact List.mem_singleton.mp member
          · next not_eight =>
              have four : Fits input ctx ofs → ctx.top.requireLen = 4 := by
                intro fits
                rcases fits.float status double there with four | eight
                · exact four
                · exact absurd eight not_eight
              refine stores _ _ _ ((Adds.refl input ofs ctx).write _ fun _ _ same => nomatch same)
                (spent_field small there (fun fits => by rw [four fits]; decide) ?_ ?_)
              · intro fits read member
                rw [four fits]
                exact List.mem_singleton.mp member
              · intro fits holds
                rw [four fits] at holds ⊢
                exact holds
      · next blob =>
          refine stores _ _ _ raws
            (spent_field small there (fun fits => fits.blob status blob there) ?_ fun _ => id)
          exact fun _ read member => nomatch member
      · exact fails

/-- The element that a popped one makes way for, if there is one. -/
theorem turn_counting (env : Env ρ) (input : Input ρ) (ofs : ℕ) {shape : Shape}
    {size ptr index : ℕ} (counting : Counting ctx ctx.top shape size ptr index) :
    ∃ frame, frame.d = ctx.top.d ∧
      ((shape.Waits size (index + 1) frame ∧ index + 1 < shape.count size ∧
        turn env input ctx ofs =
          pushStack (ctx.setTop frame) (.cell (ptr + (index + 1)), true) ofs) ∨
      turn env input ctx ofs = popStack input (ctx.setTop frame) ofs) := by
  have holds := counting.holds
  have bound := counting.inside
  cases shape with
  | array =>
      obtain ⟨status, len, pops⟩ := counting.waits
      simp only [Shape.count] at bound ⊢
      refine ⟨{ ctx.top with nPopObj := ctx.top.nPopObj + 1 }, rfl, ?_⟩
      by_cases more : index + 1 < size
      · refine .inl ⟨⟨status, len, by simp [pops]⟩, more, ?_⟩
        simp [turn, status, turnArray, len, pops, more, elemNew, holds, Shape.obj]
      · refine .inr ?_
        simp [turn, status, turnArray, len, pops, more]
  | map =>
      obtain ⟨len, pops, status⟩ := counting.waits
      simp only [Shape.count] at bound ⊢
      rcases Nat.mod_two_eq_zero_or_one index with even | odd
      · rw [if_pos even] at status
        have half : (index + 1) / 2 = index / 2 := by omega
        have parity : (index + 1) % 2 = 1 := by omega
        have next : ptr + 2 * (index / 2) + 1 = ptr + (index + 1) := by omega
        have room : index / 2 < size := by omega
        refine ⟨{ ctx.top with status := .processMapVal }, rfl,
          .inl ⟨⟨len, by rw [half]; exact pops, by simp [parity]⟩, by omega, ?_⟩⟩
        simp [turn, status, turnMap, pops, valNew, holds, Shape.obj, room, next]
      · rw [if_neg (by omega)] at status
        have half : (index + 1) / 2 = index / 2 + 1 := by omega
        by_cases more : index + 1 < 2 * size
        · have room : index / 2 + 1 < size := by omega
          have next : ptr + 2 * (index / 2 + 1) = ptr + (index + 1) := by omega
          have parity : (index + 1) % 2 = 0 := by omega
          refine ⟨{ ctx.top with nPopObj := ctx.top.nPopObj + 1, status := .processMap }, rfl,
            .inl ⟨⟨len, by simp [half, pops], by simp [parity]⟩, more, ?_⟩⟩
          simp [turn, status, turnMapVal, pops, len, keyNew, holds, Shape.obj, room, next]
        · have full : ¬ index / 2 + 1 < size := by omega
          refine ⟨{ ctx.top with nPopObj := ctx.top.nPopObj + 1 }, rfl, .inr ?_⟩
          simp [turn, status, turnMapVal, pops, len, full]

/-- Every turn on an ordered stack. -/
theorem turn_does (ordered : Ordered ctx) (wide : input.last < 2 ^ 63) (near : Near input ctx ofs)
    (narrow : Narrow input ctx ofs) : Does input ctx ofs (turn env input ctx ofs) := by
  have nothing : Spent input ctx ofs ofs [] true := fun close _ _ => ⟨nofun, close, rfl⟩
  rcases ordered.top with header | ⟨shape, size, ptr, index, counting⟩
  · unfold turn
    cases status : ctx.top.status with
    | initial =>
        dsimp only
        split
        · next readable => exact turnInitial_does ordered status readable _
        · exact .waits
    | processLength => exact turnLength_does ordered status wide near narrow
    | processData => exact turnData_does ordered status wide near
    | processArray | processMap | processMapVal =>
        unfold Header at header
        rw [status] at header
        exact header.elim
  · obtain ⟨frame, d, ⟨waits, inside, pushes⟩ | pops⟩ :=
      turn_counting env input ofs counting
    · have counted : Counting (ctx.setTop frame) (ctx.setTop frame).top shape size ptr
          (index + 1) := by
        rw [setTop_top]
        refine ⟨waits, ?_, ?_, counting.room, inside⟩
        · rw [setTop_read, d, counting.holds]
        · rw [d]
          exact counting.older
      rw [pushes, ← Turn.after_nil (pushStack _ _ _)]
      exact .pushes ((Worked.refl ctx).setTop d) (Adds.refl input ofs ctx) counted nothing
    · rw [pops, ← Turn.after_nil (popStack _ _ _)]
      exact .pops ((Worked.refl ctx).setTop d) (Adds.refl input ofs ctx) nothing

/-! ## What the caller sees -/

/-- The context with which the loop goes on, or with which it returns to be called
again for the same message. -/
def Next.Leaves (next : Next ρ) (after : Context ρ) : Prop :=
  next = .go after ∨ next = .ret .unpackContinue after ∨ next = .ret .unpackParseError after

def Next.Completes (next : Next ρ) (after : Context ρ) : Prop :=
  next = .ret .unpackSuccess after ∨ next = .ret .unpackExtraBytes after

theorem popStack_completes {next after : Context ρ} {parsed : ℕ}
    (completes : (popStack input next parsed).next.Completes after) :
    next.stackHeight = 0 ∧ after = next := by
  unfold popStack at completes
  split at completes
  · next ground =>
      refine ⟨ground, ?_⟩
      rcases completes with same | same
      · exact (Next.ret.inj same).2.symm
      · exact (Next.ret.inj same).2.symm
  · rcases completes with same | same <;> cases same

theorem popStack_leaves {next after : Context ρ} {parsed : ℕ}
    (leaves : (popStack input next parsed).next.Leaves after) :
    next.stackHeight ≠ 0 ∧ after = { next with stackHeight := next.stackHeight - 1 } := by
  unfold popStack at leaves
  split at leaves
  · exfalso
    split at leaves <;> rcases leaves with same | same | same <;> cases same
  · next raised =>
      refine ⟨raised, ?_⟩
      rcases leaves with same | same | same
      · exact (Next.go.inj same).symm
      · cases same
      · cases same

theorem pushStack_leaves {next after : Context ρ} {obj : Slot × Bool} {parsed : ℕ}
    (leaves : (pushStack next obj parsed).next.Leaves after) :
    next.stackHeight + 1 < unpackStackDepth ∧ ∃ frame, frame.d = obj.1 ∧
      frame.status = .initial ∧
      after = ({ next with stackHeight := next.stackHeight + 1 } : Context ρ).setTop frame := by
  unfold pushStack at leaves
  dsimp only at leaves
  split at leaves
  · rcases leaves with same | same | same <;> cases same
  · next room =>
      refine ⟨Nat.lt_of_not_le room, { next.stack (next.stackHeight + 1) with
        d := obj.1, status := .initial }, rfl, rfl, ?_⟩
      rcases leaves with same | same | same
      · exact (Next.go.inj same).symm
      · cases same
      · cases same

theorem pushStack_completes {next after : Context ρ} {obj : Slot × Bool} {parsed : ℕ} :
    ¬ (pushStack next obj parsed).next.Completes after := by
  unfold pushStack
  dsimp only
  split <;> rintro (same | same) <;> cases same

theorem near_of_status {next : Context ρ} {parsed : ℕ} (data : next.top.status ≠ .processData)
    (length : next.top.status ≠ .processLength) : Near input next parsed := by
  rintro (same | ⟨same, -⟩)
  · exact absurd same data
  · exact absurd same length

theorem Counting.status {next : Context ρ} {frame : StackMem} {shape : Shape}
    {size ptr index : ℕ} (counting : Counting next frame shape size ptr index) :
    frame.status ≠ .initial ∧ frame.status ≠ .processData ∧ frame.status ≠ .processLength := by
  have waits := counting.waits
  cases shape with
  | array => simp [waits.1]
  | map =>
      have status := waits.2.2
      split at status <;> simp [status]

/-- The frame that comes to the top when the top is popped. -/
theorem Worked.uncovers {next : Context ρ} (worked : Worked ctx next) (ordered : Ordered ctx)
    (raised : next.stackHeight ≠ 0) : (next.stack (next.stackHeight - 1)).status ≠ .initial ∧
      (next.stack (next.stackHeight - 1)).status ≠ .processData ∧
      (next.stack (next.stackHeight - 1)).status ≠ .processLength := by
  have under : next.stackHeight - 1 < ctx.stackHeight := by
    rw [← worked.height]
    exact Nat.pred_lt raised
  obtain ⟨shape, size, ptr, index, counting, -⟩ := worked.linked ordered _ under
  exact counting.status

namespace Does

variable {turn : Turn ρ}

/-- The stack stays ordered, and the position and the payloads in order. -/
theorem leaves (does : Does input ctx ofs turn) (ordered : Ordered ctx)
    (near : Near input ctx ofs) {after : Context ρ} (left : turn.next.Leaves after) :
    Ordered after ∧ Near input after turn.ofs ∧ Adds input ofs ctx after := by
  cases does with
  | waits =>
      rcases left with same | same | same <;> cases same
      exact ⟨ordered, near, Adds.refl input ofs ctx⟩
  | fails worked adds header near =>
      rcases left with same | same | same <;> cases same
      exact ⟨worked.keeps ordered (.inl header), near, adds⟩
  | keeps worked adds header near =>
      rcases left with same | same | same <;> cases same
      exact ⟨worked.keeps ordered (.inl header), near, adds⟩
  | pops worked adds =>
      obtain ⟨raised, rfl⟩ := popStack_leaves left
      obtain ⟨-, data, length⟩ := worked.uncovers ordered raised
      exact ⟨worked.pops ordered (worked.height ▸ raised), near_of_status data length, adds⟩
  | pushes worked adds counting =>
      obtain ⟨room, frame, d, initial, rfl⟩ := pushStack_leaves left
      refine ⟨worked.pushes ordered counting (worked.height ▸ room) d initial, ?_, adds⟩
      apply near_of_status
      · rw [setTop_top, initial]
        exact fun same => nomatch same
      · rw [setTop_top, initial]
        exact fun same => nomatch same

/-- A completed message lies in the bottom frame. -/
theorem completes (does : Does input ctx ofs turn) (ordered : Ordered ctx) {after : Context ρ}
    (completed : turn.next.Completes after) :
    (after.stack 0).d = .work ∧ Adds input ofs ctx after := by
  cases does with
  | waits | fails | keeps => rcases completed with same | same <;> cases same
  | pops worked adds =>
      obtain ⟨-, rfl⟩ := popStack_completes completed
      exact ⟨worked.bottom ordered, adds⟩
  | pushes => exact absurd completed pushStack_completes

/-- What has been read, where the turn has ended and what has been asserted. -/
theorem safe (does : Does input ctx ofs turn) (ordered : Ordered ctx) (close : ofs ≤ input.last)
    (wide : input.last < 2 ^ 63) (fits : Fits input ctx ofs) : Safe input ofs turn := by
  have plain : ∀ {parsed : ℕ} {reads : List (ℕ × ℕ)} {asserts : Bool} {last : Turn ρ},
      last.reads = [] → last.ofs = parsed → last.asserts = true →
      Spent input ctx ofs parsed reads asserts → Safe input ofs (last.after reads asserts) := by
    intro parsed reads asserts last no_reads ends holds spent
    obtain ⟨read, inside, asserted⟩ := spent close wide fits
    refine ⟨?_, ?_, ?_⟩
    · simp only [Turn.after, no_reads, List.append_nil]
      exact read
    · simp only [Turn.after, ends]
      exact inside
    · simp only [Turn.after, asserted, holds, Bool.and_self]
  cases does with
  | waits => exact ⟨nofun, close, rfl⟩
  | fails _ _ _ _ spent => exact plain rfl rfl rfl spent
  | keeps _ _ _ _ spent => exact plain rfl rfl rfl spent
  | @pops next parsed reads asserts worked adds spent =>
      by_cases ground : next.stackHeight = 0
      · refine plain ?_ ?_ ?_ spent <;> rw [popStack, if_pos ground]
      · refine plain ?_ ?_ ?_ spent
        · rw [popStack, if_neg ground]
        · rw [popStack, if_neg ground]
        · rw [popStack, if_neg ground, decide_eq_true_eq]
          exact (worked.uncovers ordered ground).1
  | pushes worked adds counting spent =>
      refine plain ?_ ?_ ?_ spent
      all_goals
        unfold pushStack
        dsimp only
        split <;> rfl

end Does

end

/-! ## The height of the stack -/

/-- The turn climbs one level at most, and goes on below the depth of the stack only. -/
def Next.Climbs (height : ℕ) : Next ρ → Prop
  | .go next => next.stackHeight ≤ height ∨
      (next.stackHeight = height + 1 ∧ next.stackHeight < unpackStackDepth)
  | .ret _ next => next.stackHeight ≤ height
  | .tooNested next => next.stackHeight = height + 1 ∧ unpackStackDepth ≤ next.stackHeight
  | .hangs => True

theorem popStack_climbs (input : Input ρ) {next : Context ρ} {height : ℕ} (ofs : ℕ)
    (same : next.stackHeight = height) : (popStack input next ofs).next.Climbs height := by
  unfold popStack
  split
  · exact Nat.le_of_eq same
  · exact .inl (Nat.le_trans (Nat.pred_le _) (Nat.le_of_eq same))

theorem pushStack_climbs {next : Context ρ} {height : ℕ} (obj : Slot × Bool) (ofs : ℕ)
    (same : next.stackHeight = height) : (pushStack next obj ofs).next.Climbs height := by
  unfold pushStack
  dsimp only
  rw [same]
  split
  · next deep => exact ⟨rfl, deep⟩
  · next room => exact .inr ⟨rfl, Nat.lt_of_not_le room⟩

theorem error_climbs {next : Context ρ} {height : ℕ} (ofs : ℕ)
    (same : next.stackHeight = height) : (error next ofs).next.Climbs height := Nat.le_of_eq same

theorem keepStack_climbs {next : Context ρ} {height : ℕ} (ofs : ℕ)
    (same : next.stackHeight = height) : (keepStack next ofs).next.Climbs height :=
  .inl (Nat.le_of_eq same)

theorem waitNextBuffer_climbs (ctx : Context ρ) (ofs : ℕ) :
    (waitNextBuffer ctx ofs).next.Climbs ctx.stackHeight := Nat.le_refl _

theorem lengthCheck_climbs (env : Env ρ) (input : Input ρ) {ctx : Context ρ} {height : ℕ}
    (ofs : ℕ) (same : ctx.stackHeight = height) :
    (lengthCheck env input ctx ofs).next.Climbs height := by
  by_cases container : ∃ shape : Shape, ctx.top.requireType = shape.kind
  · obtain ⟨shape, kind⟩ := container
    rw [lengthCheck_container env input ofs kind]
    cases made : init shape env.malloc ctx ctx.top.d ctx.top.requireLen with
    | hangs => trivial
    | refused => exact error_climbs ofs same
    | made next =>
        have kept := (init_stack made).1.trans same
        dsimp only
        split
        · exact popStack_climbs input ofs kept
        · exact pushStack_climbs _ ofs kept
  · rw [lengthCheck_other env input ofs fun shape kind => container ⟨shape, kind⟩]
    exact keepStack_climbs ofs same

theorem turn_climbs (env : Env ρ) (input : Input ρ) (ctx : Context ρ) (ofs : ℕ) :
    (turn env input ctx ofs).next.Climbs ctx.stackHeight := by
  unfold turn
  split
  · split
    · refine turnInitial_cases (motive := fun turn =>
        turn.next.Climbs ctx.stackHeight) _ ?_ ?_ ?_ ?_
      · exact fun obj _ => popStack_climbs input _ (write_stackHeight _ _ _)
      · exact fun frame _ _ => keepStack_climbs _ rfl
      · exact fun requireLen _ requireType => lengthCheck_climbs env input _ rfl
      · exact error_climbs _ rfl
    · exact waitNextBuffer_climbs ctx ofs
  · unfold turnLength
    dsimp only
    split
    · exact waitNextBuffer_climbs ctx ofs
    · exact lengthCheck_climbs env input _ rfl
  · refine turnData_cases (motive := fun turn => turn.next.Climbs ctx.stackHeight) ?_ ?_ ?_
    · exact waitNextBuffer_climbs ctx ofs
    · exact fun obj _ _ => popStack_climbs input _ (write_stackHeight _ _ _)
    · exact error_climbs ofs rfl
  · unfold turnArray
    dsimp only
    split
    · exact pushStack_climbs _ ofs rfl
    · exact popStack_climbs input ofs rfl
  · exact pushStack_climbs _ ofs rfl
  · unfold turnMapVal
    dsimp only
    split
    · exact pushStack_climbs _ ofs rfl
    · exact popStack_climbs input ofs rfl

end Cyue.Mpak.Release
