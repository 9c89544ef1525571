import Cyue.Lua.Room

/-!
# Packing that keeps its frames

Where a value finds its room, `pack_stack` appends its message; this goes by
induction on the value, and for a table by induction on its entries.
-/

namespace Cyue.Lua

open Mpak Packer Fuel

variable {heap : ℕ → Option ℕ} {s s' s₁ s₂ : Serializer} {sp sp' : Space} {bytes bytes' : List UInt8}
  {n sz first : ℕ}

/-- Where `__pack` is there, it packs the value. -/
theorem LuaValue.table_custom {pack : Custom} (addr : ℕ) (entries : List (LuaValue × LuaValue))
    (there : pack ≠ .absent) :
    (LuaValue.table addr pack entries).room heap sp = pack.room heap sp ∧
      (LuaValue.table addr pack entries).tree = pack.tree := by
  cases pack with
  | absent => exact absurd rfl there
  | raises => exact ⟨rfl, rfl⟩
  | fails message => exact ⟨rfl, rfl⟩
  | packs result text bytes => exact ⟨rfl, rfl⟩

theorem LuaValue.userdata_custom {pack : Custom} (addr : ℕ) (there : pack ≠ .absent) :
    (LuaValue.userdata addr pack).room heap sp = pack.room heap sp ∧
      (LuaValue.userdata addr pack).tree = pack.tree := by
  cases pack with
  | absent => exact absurd rfl there
  | raises => exact ⟨rfl, rfl⟩
  | fails message => exact ⟨rfl, rfl⟩
  | packs result text bytes => exact ⟨rfl, rfl⟩

namespace Serializer

/-! ## The buffer -/

def space (s : Serializer) : Space := ⟨s.pk.c, s.pk.pb.last, s.pk.pb.limit, s.allocs⟩

/-- The buffer is one that is written to, and the message starts in it. -/
structure Sound (s : Serializer) : Prop where
  ofs : s.pk.pb.ofs = 0
  within : s.pk.pb.last ≤ s.pk.pb.limit
  block : s.pk.pb.base = none ↔ s.pk.pb.limit = 0
  start : s.pk.c ≤ s.pk.pb.last

/-- The bytes are appended, perhaps in another block. -/
structure Adds (s : Serializer) (bytes : List UInt8) (s' : Serializer) : Prop where
  sound : s'.Sound
  data : s'.pk.pb.data = s.pk.pb.data ++ bytes
  start : s'.pk.c = s.pk.c

theorem Adds.refl (sound : s.Sound) : s.Adds [] s :=
  ⟨sound, (List.append_nil _).symm, rfl⟩

theorem Adds.trans (first : s.Adds bytes s₁) (second : s₁.Adds bytes' s₂) :
    s.Adds (bytes ++ bytes') s₂ where
  sound := second.sound
  data := by rw [second.data, first.data, List.append_assoc]
  start := second.start.trans first.start

theorem Sound.available (sound : s.Sound) : s.pk.pb.available = s.space.free :=
  Pbuf.available_eq sound.within

/-- `sr.len()` is not negative where the message is small. -/
theorem Sound.len (sound : s.Sound) (small : s.space.Small) : 0 ≤ s.len := by
  have start := sound.start
  have length : ((s.pk.pb.last : Int) - s.pk.c) = ((s.pk.pb.last - s.pk.c : ℕ) : Int) := by omega
  have short : s.pk.pb.last - s.pk.c < 2 ^ 31 := small
  rw [Serializer.len, curpos, length, intOfSize_eq short]
  exact Int.natCast_nonneg _

def append (s : Serializer) (bytes : List UInt8) : Serializer :=
  { s with pk := { s.pk with pb := s.pk.pb.append bytes } }

theorem append_adds (sound : s.Sound) (room : bytes.length < s.space.free) :
    s.Adds bytes (s.append bytes) where
  sound := {
    ofs := sound.ofs
    within := by
      have within := sound.within
      have free : bytes.length < s.pk.pb.limit - s.pk.pb.last := room
      rw [append, Pbuf.append_last, Pbuf.append_limit]
      omega
    block := sound.block
    start := by
      rw [append, Pbuf.append_last]
      exact Nat.le_add_right_of_le sound.start }
  data := rfl
  start := rfl

theorem append_space : (s.append bytes).space =
    { s.space with used := s.space.used + bytes.length } := by
  rw [append, space, Pbuf.append_last]
  rfl

/-- The serializer with the block that `reserve` has got. -/
def grow (s : Serializer) (fresh sz : ℕ) : Serializer :=
  ⟨{ s.pk with pb := s.pk.pb.reserve fresh sz }, s.allocs + 1⟩

theorem grow_empty (sound : s.Sound) (fresh : ℕ) (more : ¬ sz ≤ s.pk.pb.available)
    (empty : s.pk.pb.limit = 0) :
    s.Adds [] (s.grow fresh sz) ∧ (s.grow fresh sz).space =
      { s.space with
        limit := Pbuf.growLimit sz Pbuf.initialBufferSize sz, allocs := s.allocs + 1 } ∧
      sz ≤ (s.grow fresh sz).space.free := by
  have grown : s.pk.pb.reserve fresh sz = { s.pk.pb with
      base := some fresh, limit := Pbuf.growLimit sz Pbuf.initialBufferSize sz } := by
    rw [Pbuf.reserve, if_neg more, sound.block.mpr empty]
  have nothing : s.pk.pb.last = 0 := Nat.eq_zero_of_le_zero (empty ▸ sound.within)
  have size := Pbuf.growLimit_ge sz Pbuf.initialBufferSize sz
  have enough := Pbuf.growLimit_enough sz Pbuf.initialBufferSize sz (by decide) (by omega)
  rw [grow, grown]
  refine ⟨⟨⟨sound.ofs, ?_, ?_, sound.start⟩, (List.append_nil _).symm, rfl⟩, rfl, ?_⟩
  · show s.pk.pb.last ≤ _
    rw [nothing]
    exact Nat.zero_le _
  · show some fresh = none ↔ Pbuf.growLimit sz Pbuf.initialBufferSize sz = 0
    refine iff_of_false nofun (Nat.pos_iff_ne_zero.mp ?_)
    exact Nat.lt_of_lt_of_le (by decide) size
  · show sz ≤ Pbuf.growLimit sz Pbuf.initialBufferSize sz - s.pk.pb.last
    rw [nothing]
    exact enough

theorem grow_block (sound : s.Sound) (fresh : ℕ) (more : ¬ sz ≤ s.pk.pb.available)
    (block : s.pk.pb.limit ≠ 0) :
    s.Adds [] (s.grow fresh sz) ∧ (s.grow fresh sz).space =
      { s.space with
        limit := Pbuf.growLimit (sz + s.space.used) s.pk.pb.limit (sz + s.space.used)
        allocs := s.allocs + 1 } ∧
      sz ≤ (s.grow fresh sz).space.free := by
  obtain ⟨base, there⟩ := Option.ne_none_iff_exists'.mp (mt sound.block.mp block)
  have unread : s.pk.pb.unread = s.pk.pb.data := by
    rw [Pbuf.unread, sound.ofs, List.drop_zero]
  have grown : s.pk.pb.reserve fresh sz = ⟨some fresh, s.pk.pb.data,
      Pbuf.growLimit (sz + s.pk.pb.last) s.pk.pb.limit (sz + s.pk.pb.last), 0⟩ := by
    rw [Pbuf.reserve, if_neg more, there, sound.ofs, unread]
    rfl
  have size := Pbuf.growLimit_ge (sz + s.pk.pb.last) s.pk.pb.limit (sz + s.pk.pb.last)
  have enough := Pbuf.growLimit_enough (sz + s.pk.pb.last) s.pk.pb.limit (sz + s.pk.pb.last)
    (Nat.pos_of_ne_zero block) (by omega)
  rw [grow, grown]
  refine ⟨⟨⟨rfl, ?_, ?_, sound.start⟩, (List.append_nil _).symm, rfl⟩, rfl, ?_⟩
  · exact Nat.le_trans sound.within size
  · refine iff_of_false nofun fun zero => block ?_
    exact Nat.eq_zero_of_le_zero (zero ▸ size)
  · exact Nat.le_sub_of_add_le enough

/-- `expand_buffer` finds no memory. -/
theorem expand_none (sound : s.Sound) (none : s.space.expand heap sz = none) :
    (expandBuffer heap s sz).2 = emalloc := by
  unfold Space.expand at none
  unfold expandBuffer
  rw [sound.available]
  split at none
  · exact nomatch none
  · next more =>
      rw [if_neg more]
      split at none
      · next refused =>
          have empty : heap s.allocs = Option.none := Option.isNone_iff_eq_none.mp refused
          rw [empty]
      · split at none
        · exact nomatch none
        · exact nomatch none

/-- `expand_buffer` makes room. -/
theorem expand_some (sound : s.Sound) (some : s.space.expand heap sz = some sp) :
    ∃ s', expandBuffer heap s sz = (s', 0) ∧ s.Adds [] s' ∧ s'.space = sp ∧ sz ≤ sp.free := by
  unfold Space.expand at some
  unfold expandBuffer
  split at some
  · next enough =>
      obtain rfl := Option.some.inj some
      rw [sound.available, if_pos enough]
      exact ⟨s, rfl, Adds.refl sound, rfl, enough⟩
  · next more =>
      rw [← sound.available] at more
      rw [if_neg more]
      split at some
      · exact nomatch some
      · next granted =>
          have given : heap s.allocs ≠ none := fun none =>
            granted (Option.isNone_iff_eq_none.mpr none)
          obtain ⟨fresh, given⟩ := Option.ne_none_iff_exists'.mp given
          rw [given]
          refine ⟨s.grow fresh sz, rfl, ?_⟩
          split at some
          · next empty =>
              obtain rfl := Option.some.inj some
              obtain ⟨adds, space, enough⟩ := grow_empty sound fresh more empty
              exact ⟨adds, space, space ▸ enough⟩
          · next block =>
              obtain rfl := Option.some.inj some
              obtain ⟨adds, space, enough⟩ := grow_block sound fresh more block
              exact ⟨adds, space, space ▸ enough⟩

/-! ## Pushes -/

/-- The pushes append these bytes where there is room for all of them. -/
def Accepts (op : Packer → Packer × Int) (bytes : List UInt8) : Prop :=
  ∀ s : Serializer, s.Sound → bytes.length < s.space.free → (s.append bytes).space.Small →
    op s.pk = ((s.append bytes).pk, (s.append bytes).len)

theorem push_accepts (bytes : List UInt8) : Accepts (·.push bytes) bytes := by
  intro s sound room _
  have enough : ¬ s.pk.pb.available ≤ bytes.length := by
    rw [sound.available]
    exact Nat.not_le.mpr room
  exact if_neg enough

theorem push_refused (sound : s.Sound) (full : s.space.free ≤ bytes.length) :
    s.pk.push bytes = (s.pk, eshort) := by
  rw [← sound.available] at full
  exact if_pos full

/-- A message that is small was small before. -/
theorem Small.append (small : (s.append (bytes ++ bytes')).space.Small) :
    (s.append bytes).space.Small := by
  rw [append_space, List.length_append] at small
  rw [append_space]
  unfold Space.Small at small ⊢
  dsimp only at small ⊢
  omega

theorem append_append : (s.append bytes).append bytes' = s.append (bytes ++ bytes') := by
  rw [append, append, append, Pbuf.append_append]

theorem Accepts.andThen {op op' : Packer → Packer × Int} (first : Accepts op bytes)
    (second : Accepts op' bytes') : Accepts (fun pk => Packer.andThen (op pk) op') (bytes ++ bytes') := by
  intro s sound room small
  rw [List.length_append] at room
  have room₁ : bytes.length < s.space.free := Nat.lt_of_le_of_lt (Nat.le_add_right _ _) room
  have adds := append_adds sound room₁
  have room₂ : bytes'.length < (s.append bytes).space.free := by
    rw [append_space]
    unfold Space.free at room ⊢
    dsimp only
    omega
  have positive := adds.sound.len (Small.append small)
  have small₂ : ((s.append bytes).append bytes').space.Small := by
    rw [append_append]
    exact small
  dsimp only
  rw [Packer.andThen, first s sound room₁ (Small.append small), if_neg (Int.not_lt.mpr positive),
    second _ adds.sound room₂ small₂, append_append]

/-- `push_raw` -/
theorem pushRaw_accepts (p : List UInt8) : Accepts (·.pushRaw p) (rawHeader p.length ++ p) :=
  (push_accepts _).andThen (push_accepts p)

theorem pushArrayLen_accepts (l : ℕ) : Accepts (·.pushArrayLen l) (arrayHeader l) :=
  push_accepts _

theorem pushMapLen_accepts (l : ℕ) : Accepts (·.pushMapLen l) (mapHeader l) :=
  push_accepts _

theorem pushRaw_refused (p : List UInt8) (sound : s.Sound)
    (full : s.space.free ≤ (rawHeader p.length).length) : s.pk.pushRaw p = (s.pk, eshort) := by
  rw [pushRaw, pushRawLen, push_refused sound full]
  rfl

/-- The header of a string stays where the string is refused. -/
theorem pushRaw_cut (p : List UInt8) (sound : s.Sound)
    (fits : (rawHeader p.length).length < s.space.free)
    (full : s.space.free ≤ (rawHeader p.length ++ p).length) :
    ∃ r, s.pk.pushRaw p = ((s.append (rawHeader p.length)).pk, r) ∧ r < 0 := by
  have enough : ¬ s.pk.pb.available ≤ (rawHeader p.length).length := by
    rw [sound.available]
    exact Nat.not_le.mpr fits
  have pushed : s.pk.pushRawLen p.length =
      ((s.append (rawHeader p.length)).pk, (s.append (rawHeader p.length)).len) := if_neg enough
  rw [pushRaw, pushed, andThen]
  split
  · next negative => exact ⟨_, rfl, negative⟩
  · next positive =>
      have adds := append_adds sound fits
      have rest : (s.append (rawHeader p.length)).space.free ≤ p.length := by
        rw [append_space]
        rw [List.length_append] at full
        unfold Space.free at full ⊢
        dsimp only
        omega
      exact ⟨eshort, push_refused adds.sound rest, by decide⟩

theorem push_left (room : sp.push n = .left sp') :
    n < sp.free ∧ sp' = { sp with used := sp.used + n } ∧ sp'.Small := by
  unfold Space.push at room
  split at room
  · next both =>
      obtain rfl := Room.left.inj room
      exact ⟨both.1, rfl, both.2⟩
  · exact nomatch room

/-- The pushes find the room that they need. -/
theorem Accepts.left {op : Packer → Packer × Int} (accepts : Accepts op bytes) (sound : s.Sound)
    (room : s.space.push bytes.length = .left sp) :
    op s.pk = ((s.append bytes).pk, (s.append bytes).len) ∧ s.Adds bytes (s.append bytes) ∧
      (s.append bytes).space = sp ∧ sp.Small ∧ ¬ (s.append bytes).len < 0 := by
  obtain ⟨enough, rfl, small⟩ := push_left room
  rw [← append_space] at small ⊢
  have adds := append_adds sound enough
  exact ⟨accepts s sound enough small, adds, rfl, small, Int.not_lt.mpr (adds.sound.len small)⟩

/-! ## Calls that are repeated -/

/-- The outcome of a call by the room that it finds. -/
def Lands (s : Serializer) (bytes : Option (List UInt8)) (left : List Raw) : Room → Outcome → Prop
  | .left sp, out => ∃ b s', bytes = some b ∧ out = .returned s' s'.len left ∧ s.Adds b s' ∧
      s'.space = sp ∧ sp.Small
  | .refused, out => ∃ s' r above, out = .returned s' r above ∧ r < 0
  | .stopped, out => out = .stopped
  | .lost, _ => False

theorem retryFrom_done {op : Packer → Packer × Int} {pk : Packer} {r : Int}
    (pushed : op s.pk = (pk, r)) (positive : ¬ r < 0) :
    Yields (fun fuel => retryFrom heap op fuel sz s) ({ s with pk := pk }, r) := by
  refine Yields.succ rfl ?_
  have value : (fun fuel => retryFrom heap op (fuel + 1) sz s) =
      fun _ => some ({ s with pk := pk }, r) := by
    funext fuel
    rw [retryFrom, pushed]
    exact if_neg positive
  rw [value]
  exact yields_pure _

theorem retryFrom_refused {op : Packer → Packer × Int} {pk : Packer} {r : Int}
    (pushed : op s.pk = (pk, r)) (negative : r < 0)
    (none : (expandBuffer heap { s with pk := pk } sz).2 = emalloc) :
    Yields (fun fuel => retryFrom heap op fuel sz s)
      ((expandBuffer heap { s with pk := pk } sz).1, r) := by
  refine Yields.succ rfl ?_
  have value : (fun fuel => retryFrom heap op (fuel + 1) sz s) =
      fun _ => some ((expandBuffer heap { s with pk := pk } sz).1, r) := by
    funext fuel
    rw [retryFrom, pushed]
    dsimp only
    rw [if_pos negative, none]
    rfl
  rw [value]
  exact yields_pure _

theorem retryFrom_again {op : Packer → Packer × Int} {r : Int} {tried : Serializer × Int}
    (pushed : op s.pk = (s.pk, r)) (negative : r < 0) (grown : expandBuffer heap s sz = (s', 0))
    (again : Yields (fun fuel => retryFrom heap op fuel (2 * sz % 2 ^ 64) s') tried) :
    Yields (fun fuel => retryFrom heap op fuel sz s) tried := by
  refine Yields.succ rfl ?_
  have value : (fun fuel => retryFrom heap op (fuel + 1) sz s) =
      fun fuel => retryFrom heap op fuel (2 * sz % 2 ^ 64) s' := by
    funext fuel
    rw [retryFrom, pushed]
    dsimp only
    rw [if_pos negative, grown]
    rfl
  rw [value]
  exact again

theorem push_kept (kept : sp.push n ≠ .lost) : ∃ sp', sp.push n = .left sp' := by
  unfold Space.push at kept ⊢
  split
  · exact ⟨_, rfl⟩
  · next refused =>
      rw [if_neg refused] at kept
      exact absurd rfl kept

theorem retry_of {op : Packer → Packer × Int} {tried : Serializer × Int}
    (yields : Yields (fun fuel => retryFrom heap op fuel 1024 s) tried) :
    Yields (fun fuel => retry heap op fuel s)
      (.returned tried.1 (if tried.2 < 0 then tried.2 else tried.1.len) []) :=
  yields.bind (yields_pure _)

/-- The push that is tried finds its room. -/
theorem retry_done {op : Packer → Packer × Int} (accepts : Accepts op bytes) (before : s₁.Adds [] s)
    (tried : Yields (fun fuel => retryFrom heap op fuel 1024 s₁)
      ({ s with pk := (op s.pk).1 }, (op s.pk).2))
    (room : s.space.push bytes.length = .left sp) :
    ∃ out, Yields (fun fuel => retry heap op fuel s₁) out ∧
      Lands s₁ (some bytes) [] (.left sp) out := by
  obtain ⟨pushed, adds, space, small, positive⟩ := accepts.left before.sound room
  rw [pushed] at tried
  have returned := retry_of tried
  rw [if_neg positive] at returned
  exact ⟨_, returned, bytes, s.append bytes, rfl, rfl, before.trans adds, space, small⟩

/-- The push is refused, and there is no memory to repeat it. -/
theorem retry_fails {op : Packer → Packer × Int} {pk : Packer} {r : Int}
    (pushed : op s.pk = (pk, r)) (negative : r < 0)
    (none : (expandBuffer heap { s with pk := pk } 1024).2 = emalloc) :
    ∃ out, Yields (fun fuel => retry heap op fuel s) out ∧
      Lands s (some bytes) [] .refused out := by
  have returned := retry_of (retryFrom_refused pushed negative none)
  rw [if_pos negative] at returned
  exact ⟨_, returned, _, _, _, rfl, negative⟩

/-- A value whose push is repeated. -/
theorem retry_yields {op : Packer → Packer × Int} {front : List UInt8}
    (accepts : Accepts op bytes)
    (refused : ∀ s : Serializer, s.Sound → s.space.free ≤ front.length → op s.pk = (s.pk, eshort))
    (cut : front.length < s.space.free → s.space.free ≤ bytes.length →
      ∃ r, op s.pk = ((s.append front).pk, r) ∧ r < 0)
    (sound : s.Sound) (kept : s.space.retry heap front.length bytes.length ≠ .lost) :
    ∃ out, Yields (fun fuel => retry heap op fuel s) out ∧
      Lands s (some bytes) [] (s.space.retry heap front.length bytes.length) out := by
  unfold Space.retry at kept ⊢
  split
  · next fits =>
      rw [if_pos fits] at kept
      split
      · next short =>
          obtain ⟨full, none⟩ := short
          obtain ⟨r, pushed, negative⟩ := cut fits full
          rw [← append_space] at none
          exact retry_fails pushed negative
            (expand_none (append_adds sound fits).sound (Option.isNone_iff_eq_none.mp none))
      · next enough =>
          rw [if_neg enough] at kept
          obtain ⟨sp, room⟩ := push_kept kept
          rw [room]
          obtain ⟨pushed, -, -, -, positive⟩ := accepts.left sound room
          exact retry_done accepts (Adds.refl sound)
            (retryFrom_done rfl (by rw [pushed]; exact positive)) room
  · next full =>
      rw [if_neg full] at kept
      have shut := refused s sound (Nat.not_lt.mp full)
      cases expanded : s.space.expand heap 1024 with
      | none =>
          exact retry_fails shut (by decide) (expand_none sound expanded)
      | some sp₁ =>
          rw [expanded] at kept
          obtain ⟨s', grown, adds, space, enough⟩ := expand_some sound expanded
          obtain ⟨sp, room⟩ := push_kept kept
          dsimp only
          rw [room]
          rw [← space] at room
          obtain ⟨pushed, -, -, -, positive⟩ := accepts.left adds.sound room
          have again : Yields (fun fuel => retryFrom heap op fuel (2 * 1024 % 2 ^ 64) s')
              ({ s' with pk := (op s'.pk).1 }, (op s'.pk).2) :=
            retryFrom_done rfl (by rw [pushed]; exact positive)
          exact retry_done accepts adds (retryFrom_again shut (by decide) grown again) room

theorem push_yields (bytes : List UInt8) (sound : s.Sound)
    (kept : s.space.retry heap bytes.length bytes.length ≠ .lost) :
    ∃ out, Yields (fun fuel => retry heap (·.push bytes) fuel s) out ∧
      Lands s (some bytes) [] (s.space.retry heap bytes.length bytes.length) out :=
  retry_yields (push_accepts bytes) (fun _ => push_refused)
    (fun fits full => absurd fits (Nat.not_lt.mpr full)) sound kept

/-! ## Functions and `__pack` -/

theorem pushU8_accepts (u : UInt8) (small : u ≤ 0x7f) : Accepts (·.pushU8 u) [u] := by
  intro s sound room short
  have pushed := push_accepts [u] s sound room short
  dsimp only at pushed ⊢
  rw [pushU8, if_pos small]
  exact pushed

/-- `pack_function` -/
theorem packFunction_lands (chunk : Option (List UInt8)) (sound : s.Sound) {addr : ℕ}
    (kept : (LuaValue.function addr chunk).room heap s.space ≠ .lost) :
    Lands s ((LuaValue.function addr chunk).tree.map PackTree.encode) []
      ((LuaValue.function addr chunk).room heap s.space)
      (.returned (packFunction heap chunk s).1
        (if (packFunction heap chunk s).2 < 0 then 0 else (packFunction heap chunk s).1.len) []) := by
  cases chunk with
  | none =>
      rw [LuaValue.room] at kept
      exact absurd rfl kept
  | some chunk =>
      rw [LuaValue.room] at kept ⊢
      cases expanded : s.space.expand heap chunk.length with
      | none =>
          rw [expanded] at kept
          exact absurd rfl kept
      | some sp₁ =>
          rw [expanded] at kept
          obtain ⟨s', grown, adds, space, -⟩ := expand_some sound expanded
          obtain ⟨sp, room⟩ := push_kept kept
          have accepts := (pushArrayLen_accepts 2).andThen
            ((pushU8_accepts 6 (by decide)).andThen (pushRaw_accepts chunk))
          have length : (arrayHeader 2 ++ ([6] ++ (rawHeader chunk.length ++ chunk))).length =
              2 + (rawHeader chunk.length ++ chunk).length := by
            simp only [List.length_append, List.length_singleton]
            have two : (arrayHeader 2).length = 1 := rfl
            omega
          dsimp only
          rw [room]
          rw [← space, ← length] at room
          obtain ⟨pushed, adds', space', small, -⟩ := accepts.left adds.sound room
          have packed : packFunction heap (some chunk) s =
              (s'.append (arrayHeader 2 ++ ([6] ++ (rawHeader chunk.length ++ chunk))), 0) := by
            unfold packFunction
            dsimp only at pushed ⊢
            rw [grown]
            dsimp only
            rw [pushed]
            rfl
          rw [packed]
          refine ⟨_, _, ?_, rfl, adds.trans adds', space', small⟩
          simp only [LuaValue.tree, Option.map_some, PackTree.encode, PackTree.encodeElems,
            List.append_nil]
          rfl

/-- What `call_custom_pack` returns by the room that it finds. -/
def CustomLands (s : Serializer) (tree : Option PackTree) : Room → Outcome → Prop
  | .left sp, out => ∃ t s', tree = some t ∧ out = .returned s' 0 [] ∧ s.Adds t.encode s' ∧
      s'.space = sp ∧ sp.Small
  | .refused, out => ∃ s' r above, out = .returned s' r above ∧ r < 0 ∧ r ≠ enotfound
  | .stopped, out => out = .stopped
  | .lost, _ => False

theorem callCustomPack_lands (pack : Custom) (sound : s.Sound) (there : pack ≠ .absent)
    (kept : pack.room heap s.space ≠ .lost) :
    CustomLands s pack.tree (pack.room heap s.space) (callCustomPack heap pack s) := by
  cases pack with
  | raises => exact rfl
  | absent => exact absurd rfl there
  | fails message => exact ⟨s, esyscall, [message], rfl, by decide, by decide⟩
  | packs result text bytes =>
      rw [Custom.room] at kept ⊢
      unfold callCustomPack
      dsimp only
      cases expanded : s.space.expand heap bytes.length with
      | none =>
          rw [expand_none sound expanded]
          exact ⟨_, emalloc, [result], rfl, by decide, by decide⟩
      | some sp₁ =>
          rw [expanded] at kept
          obtain ⟨s₁, grown, adds₁, space₁, -⟩ := expand_some sound expanded
          rw [grown, ← space₁]
          rw [← space₁] at kept
          dsimp only at kept ⊢
          obtain ⟨sp₂, tag⟩ := push_kept fun lost => kept (by rw [lost]; rfl)
          rw [tag] at kept ⊢
          have room : s₁.space.push (arrayHeader 3 ++ [7]).length = .left sp₂ := tag
          obtain ⟨tagged, adds₂, space₂, -, positive⟩ :=
            ((pushArrayLen_accepts 3).andThen (pushU8_accepts 7 (by decide))).left adds₁.sound room
          rw [tagged]
          dsimp only [Room.bind] at kept ⊢
          rw [if_neg (by decide), if_neg positive]
          cases text with
          | none => exact rfl
          | some text =>
              dsimp only at kept ⊢
              rw [← space₂] at kept ⊢
              obtain ⟨sp, rest⟩ := push_kept kept
              rw [rest]
              have accepts : Accepts (pushString · text) _ := pushRaw_accepts (cstring text)
              obtain ⟨pushed, adds, space, small, whole⟩ :=
                (accepts.andThen (pushRaw_accepts bytes)).left adds₂.sound rest
              rw [pushed]
              dsimp only
              rw [if_neg whole]
              refine ⟨_, _, rfl, rfl, ?_, space, small⟩
              have encoded : (PackTree.array [.u8 7, .raw (cstring text), .raw bytes]).encode =
                  [] ++ (arrayHeader 3 ++ [7]) ++ (rawHeader (cstring text).length ++ cstring text ++
                    (rawHeader bytes.length ++ bytes)) := by
                simp only [PackTree.encode, PackTree.encodeElems, List.append_nil, List.nil_append,
                  List.append_assoc]
                rfl
              rw [encoded]
              exact (adds₁.trans adds₂).trans adds

/-- A value that has `__pack` -/
theorem custom_yields {pack : Custom} {tree : Option PackTree} {room : Room}
    {next : ℕ → Serializer → Option Outcome}
    (lands : CustomLands s tree room (callCustomPack heap pack s)) :
    ∃ out, Yields (fun fuel =>
      match callCustomPack heap pack s with
      | .stopped => some .stopped
      | .returned s r left =>
        if r < 0 then
          if r = enotfound then next fuel s else some (.returned s r left)
        else some (.returned s s.len left)) out ∧
      Lands s (tree.map PackTree.encode) [] room out := by
  cases room with
  | left sp =>
      obtain ⟨t, s', rfl, called, adds, space, small⟩ := lands
      rw [called]
      exact ⟨_, yields_pure _, t.encode, s', rfl, rfl, adds, space, small⟩
  | refused =>
      obtain ⟨s', r, above, called, negative, found⟩ := lands
      simp only [called, if_pos negative, if_neg found]
      exact ⟨_, yields_pure _, s', r, above, rfl, negative⟩
  | stopped =>
      have called : callCustomPack heap pack s = .stopped := lands
      rw [called]
      exact ⟨_, yields_pure _, rfl⟩
  | lost => exact lands.elim

/-! ## Tables -/

section
variable {entries pre rest : List (LuaValue × LuaValue)} {k v : LuaValue} {key : Raw}
  {left : List Raw} {out : Outcome} {r r' : Int}

/-- The key of an entry leads to those behind it. -/
theorem luaNext_key (distinct : ((pre ++ (k, v) :: rest).map (·.1.raw)).Nodup)
    (proper : Raw.nil ∉ (pre ++ (k, v) :: rest).map (·.1.raw)) :
    luaNext (pre ++ (k, v) :: rest) k.raw = some rest := by
  have member : k.raw ∈ (pre ++ (k, v) :: rest).map (·.1.raw) :=
    List.mem_map.mpr ⟨(k, v), List.mem_append_right _ List.mem_cons_self, rfl⟩
  have key : k.raw ≠ .nil := fun same => proper (same ▸ member)
  rw [List.map_append] at distinct
  have before : ∀ e, e ∈ pre → decide (e.1.raw ≠ k.raw) = true := by
    intro e earlier
    refine decide_eq_true fun same => ?_
    exact (List.nodup_append.mp distinct).2.2 e.1.raw (List.mem_map.mpr ⟨e, earlier, rfl⟩) k.raw
      List.mem_cons_self same
  rw [luaNext, if_neg key, List.dropWhile_append_of_pos before, List.dropWhile_cons,
    if_neg (by simp)]

theorem packEntries_done (next : luaNext entries key = some []) :
    Yields (fun fuel => packEntries heap fuel entries key left s) (.returned s s.len left) := by
  refine Yields.succ rfl ?_
  have value : (fun fuel => packEntries heap (fuel + 1) entries key left s) =
      fun _ => some (.returned s s.len left) := by
    funext fuel
    rw [packEntries, next]
  rw [value]
  exact yields_pure _

theorem packEntries_key_stopped (next : luaNext entries key = some ((k, v) :: rest))
    (first : Yields (fun fuel => packStack heap fuel k s) .stopped) :
    Yields (fun fuel => packEntries heap fuel entries key left s) .stopped := by
  refine Yields.succ rfl ?_
  simp only [packEntries, next]
  exact first.bind (yields_pure _)

theorem packEntries_value_stopped (next : luaNext entries key = some ((k, v) :: rest))
    (first : Yields (fun fuel => packStack heap fuel k s) (.returned s₁ r []))
    (second : Yields (fun fuel => packStack heap fuel v s₁) .stopped) :
    Yields (fun fuel => packEntries heap fuel entries key left s) .stopped := by
  refine Yields.succ rfl ?_
  simp only [packEntries, next]
  exact first.bind (second.bind (yields_pure _))

/-- An entry that is packed leaves its key for the next turn. -/
theorem packEntries_cons (next : luaNext entries key = some ((k, v) :: rest))
    (first : Yields (fun fuel => packStack heap fuel k s) (.returned s₁ r []))
    (second : Yields (fun fuel => packStack heap fuel v s₁) (.returned s₂ r' []))
    (third : Yields (fun fuel => packEntries heap fuel entries k.raw left s₂) out) :
    Yields (fun fuel => packEntries heap fuel entries key left s) out := by
  refine Yields.succ rfl ?_
  simp only [packEntries, next]
  exact first.bind (second.bind third)

theorem treeEntries_length {entries : List (LuaValue × LuaValue)}
    {trees : List (PackTree × PackTree)} (whole : treeEntries entries = some trees) :
    trees.length = entries.length := by
  induction entries generalizing trees with
  | nil =>
      obtain rfl := Option.some.inj whole
      rfl
  | cons e rest ih =>
      obtain ⟨k, -, whole⟩ := Option.bind_eq_some_iff.mp whole
      obtain ⟨v, -, whole⟩ := Option.bind_eq_some_iff.mp whole
      obtain ⟨trees, tail, rfl⟩ := Option.map_eq_some_iff.mp whole
      rw [List.length_cons, List.length_cons, ih tail]

/-- An entry is appended, and then the entries behind it. -/
theorem Lands.cons {room : Room} (key : k.tree.map PackTree.encode = some bytes)
    (value : v.tree.map PackTree.encode = some bytes') (first : s.Adds bytes s₁)
    (second : s₁.Adds bytes' s₂)
    (third : Lands s₂ ((treeEntries rest).map PackTree.encodeEntries) left room out) :
    Lands s ((treeEntries ((k, v) :: rest)).map PackTree.encodeEntries) left room out := by
  cases room with
  | left sp =>
      obtain ⟨b, s', tail, returned, adds, space, small⟩ := third
      obtain ⟨kt, keyTree, rfl⟩ := Option.map_eq_some_iff.mp key
      obtain ⟨vt, valueTree, rfl⟩ := Option.map_eq_some_iff.mp value
      obtain ⟨trees, tailTrees, rfl⟩ := Option.map_eq_some_iff.mp tail
      have whole := (first.trans second).trans adds
      rw [List.append_assoc] at whole
      refine ⟨_, s', ?_, returned, whole, space, small⟩
      rw [treeEntries, keyTree, valueTree, tailTrees]
      rfl
  | refused => exact third
  | stopped => exact third
  | lost => exact third

/-- The header is in front of the entries. -/
theorem Lands.table {room : Room} {addr : ℕ} {entries : List (LuaValue × LuaValue)}
    (header : s.Adds (mapHeader entries.length) s₁)
    (lands : Lands s₁ ((treeEntries entries).map PackTree.encodeEntries) left room out) :
    Lands s ((LuaValue.table addr .absent entries).tree.map PackTree.encode) left room out := by
  cases room with
  | left sp =>
      obtain ⟨b, s', packed, returned, adds, space, small⟩ := lands
      obtain ⟨trees, whole, rfl⟩ := Option.map_eq_some_iff.mp packed
      refine ⟨_, s', ?_, returned, header.trans adds, space, small⟩
      rw [LuaValue.tree, whole, Option.map_some, Option.map_some, PackTree.encode,
        treeEntries_length whole]
  | refused => exact lands
  | stopped => exact lands
  | lost => exact lands

theorem push_stays {op : Packer → Packer × Int} (accepts : Accepts op bytes) (sound : s.Sound)
    (room : s.space.push bytes.length = .left sp) :
    ({ s with pk := (op s.pk).1 } : Serializer) = s.append bytes := by
  obtain ⟨pushed, -⟩ := accepts.left sound room
  rw [pushed]
  rfl

end

mutual

/-- `pack_stack` by the room that the value finds. -/
theorem packStack_yields : (v : LuaValue) → v.Valid → ∀ s : Serializer, s.Sound →
    v.room heap s.space ≠ .lost →
    ∃ out, Yields (fun fuel => packStack heap fuel v s) out ∧
      Lands s (v.tree.map PackTree.encode) [] (v.room heap s.space) out
  | .nil, _, s, sound, kept => by
      obtain ⟨out, yields, lands⟩ := push_yields [0xc0] sound kept
      exact ⟨out, yields.succ rfl, lands⟩
  | .number bits, _, s, sound, kept => by
      have length : (0xcb :: Bytes.beBytes 8 bits.toNat).length = 9 := by
        rw [List.length_cons, Bytes.beBytes_length]
      have fits : s.space.retry heap (0xcb :: Bytes.beBytes 8 bits.toNat).length
          (0xcb :: Bytes.beBytes 8 bits.toNat).length ≠ .lost := by
        rw [length]
        exact kept
      obtain ⟨out, yields, lands⟩ := push_yields _ sound fits
      rw [length] at lands
      exact ⟨out, yields.succ rfl, lands⟩
  | .boolean b, _, s, sound, kept => by
      obtain ⟨out, yields, lands⟩ := push_yields [if b then 0xc3 else 0xc2] sound kept
      exact ⟨out, yields.succ rfl, lands⟩
  | .string str, _, s, sound, kept => by
      obtain ⟨out, yields, lands⟩ :=
        retry_yields (pushRaw_accepts str) (fun _ => pushRaw_refused str)
          (pushRaw_cut str sound) sound kept
      exact ⟨out, yields.succ rfl, lands⟩
  | .table addr pack entries, valid, s, sound, kept => by
      by_cases absent : pack = .absent
      · subst absent
        obtain ⟨⟨distinct, proper⟩, valid⟩ := valid
        obtain ⟨sp, header⟩ := push_kept fun lost => kept (by rw [LuaValue.room, lost]; rfl)
        have room : (LuaValue.table addr .absent entries).room heap s.space =
            roomEntries heap entries sp := by
          rw [LuaValue.room, header]
          rfl
        obtain ⟨-, adds, rfl, small, -⟩ := (pushMapLen_accepts _).left sound header
        rw [room] at kept ⊢
        have next : luaNext ([] ++ entries) .nil = some entries := if_pos rfl
        obtain ⟨out, yields, lands⟩ := packEntries_yields entries valid [] .nil [] _ distinct proper
          next adds.sound small kept
        have table : Yields (fun fuel => packTable heap fuel entries s) out := by
          refine Yields.succ rfl ?_
          simp only [packTable, push_stays (pushMapLen_accepts entries.length) sound header]
          exact yields
        exact ⟨out, table.succ rfl, Lands.table adds lands⟩
      · obtain ⟨room, tree⟩ := LuaValue.table_custom addr entries absent
        rw [room] at kept ⊢
        rw [tree]
        obtain ⟨out, yields, lands⟩ := custom_yields (callCustomPack_lands pack sound absent kept)
        exact ⟨out, yields.succ rfl, lands⟩
  | .cfunction addr, _, s, sound, kept => by
      obtain ⟨out, yields, lands⟩ := push_yields [0xc0] sound kept
      exact ⟨out, yields.succ rfl, lands⟩
  | .function addr chunk, _, s, sound, kept => by
      have lands := packFunction_lands chunk sound kept
      exact ⟨_, (yields_pure _).succ rfl, lands⟩
  | .userdata addr pack, _, s, sound, kept => by
      by_cases absent : pack = .absent
      · subst absent
        obtain ⟨out, yields, lands⟩ := push_yields [0xc0] sound kept
        exact ⟨out, yields.succ rfl, lands⟩
      · obtain ⟨room, tree⟩ := LuaValue.userdata_custom addr absent
        rw [room] at kept ⊢
        rw [tree]
        obtain ⟨out, yields, lands⟩ := custom_yields (callCustomPack_lands pack sound absent kept)
        exact ⟨out, yields.succ rfl, lands⟩
  | .lightuserdata addr, _, s, sound, kept =>
      ⟨_, (yields_pure _).succ rfl, s, einval, [], rfl, by decide⟩
  | .thread addr, _, s, sound, kept =>
      ⟨_, (yields_pure _).succ rfl, s, einval, [], rfl, by decide⟩

/-- Its loop over the entries of a table. -/
theorem packEntries_yields : (rest : List (LuaValue × LuaValue)) → ValidEntries rest →
    ∀ (pre : List (LuaValue × LuaValue)) (key : Raw) (left : List Raw) (s : Serializer),
    ((pre ++ rest).map (·.1.raw)).Nodup → Raw.nil ∉ (pre ++ rest).map (·.1.raw) →
    luaNext (pre ++ rest) key = some rest → s.Sound → s.space.Small →
    roomEntries heap rest s.space ≠ .lost →
    ∃ out, Yields (fun fuel => packEntries heap fuel (pre ++ rest) key left s) out ∧
      Lands s ((treeEntries rest).map PackTree.encodeEntries) left (roomEntries heap rest s.space)
        out
  | [], _, pre, key, left, s, _, _, next, sound, small, _ =>
      ⟨_, packEntries_done next, [], s, rfl, rfl, Adds.refl sound, rfl, small⟩
  | (k, v) :: rest, valid, pre, key, left, s, distinct, proper, next, sound, small, kept => by
      obtain ⟨keyValid, valueValid, restValid⟩ := valid
      have follows := luaNext_key distinct proper
      have whole : pre ++ (k, v) :: rest = (pre ++ [(k, v)]) ++ rest := by
        rw [List.append_assoc]
        rfl
      rw [roomEntries] at kept ⊢
      have keyKept : k.room heap s.space ≠ .lost := by
        intro lost
        rw [lost] at kept
        exact kept rfl
      obtain ⟨out₁, first, lands₁⟩ := packStack_yields k keyValid s sound keyKept
      cases keyRoom : k.room heap s.space with
      | left sp₁ =>
          rw [keyRoom] at kept lands₁
          obtain ⟨b, s₁, key, rfl, adds₁, rfl, -⟩ := lands₁
          have valueKept : v.room heap s₁.space ≠ .lost := by
            intro lost
            simp only [Room.inside, Room.bind, lost] at kept
            exact kept rfl
          obtain ⟨out₂, second, lands₂⟩ := packStack_yields v valueValid s₁ adds₁.sound valueKept
          simp only [Room.inside, Room.bind] at kept ⊢
          cases valueRoom : v.room heap s₁.space with
          | left sp₂ =>
              rw [valueRoom] at kept lands₂
              obtain ⟨b', s₂, value, rfl, adds₂, rfl, small₂⟩ := lands₂
              rw [whole] at distinct proper follows
              obtain ⟨out, third, lands⟩ := packEntries_yields rest restValid _ k.raw left s₂
                distinct proper follows adds₂.sound small₂ kept
              rw [← whole] at third
              exact ⟨out, packEntries_cons next first second third,
                Lands.cons key value adds₁ adds₂ lands⟩
          | refused =>
              rw [valueRoom] at kept
              exact absurd rfl kept
          | stopped =>
              rw [valueRoom] at lands₂
              obtain rfl := lands₂
              exact ⟨_, packEntries_value_stopped next first second, rfl⟩
          | lost => exact absurd valueRoom valueKept
      | refused =>
          rw [keyRoom] at kept
          exact absurd rfl kept
      | stopped =>
          rw [keyRoom] at lands₁
          obtain rfl := lands₁
          exact ⟨_, packEntries_key_stopped next first, rfl⟩
      | lost => exact absurd keyRoom keyKept

end

/-! ## Arguments and responses -/

section
variable {method : LuaValue} {args vs : List LuaValue} {room : Room} {out : Outcome}

/-- What is appended and the message behind it are the message. -/
theorem Lands.behind {message whole : Option (List UInt8)} (first : s.Adds bytes s₁)
    (joined : ∀ tail, message = some tail → whole = some (bytes ++ tail))
    (second : Lands s₁ message [] room out) : Lands s whole [] room out := by
  cases room with
  | left sp =>
      obtain ⟨b, s', tail, returned, adds, space, small⟩ := second
      exact ⟨bytes ++ b, s', joined b tail, returned, first.trans adds, space, small⟩
  | refused => exact second
  | stopped => exact second
  | lost => exact second

/-- A value is appended, and then the values behind it. -/
theorem Lands.args_cons {v : LuaValue} {rest : List LuaValue}
    (value : v.tree.map PackTree.encode = some bytes) (first : s.Adds bytes s₁)
    (second : Lands s₁ ((treeArgs rest).map PackTree.encodeElems) [] room out) :
    Lands s ((treeArgs (v :: rest)).map PackTree.encodeElems) [] room out := by
  refine second.behind first fun tail behind => ?_
  obtain ⟨t, tree, rfl⟩ := Option.map_eq_some_iff.mp value
  obtain ⟨trees, tailTrees, rfl⟩ := Option.map_eq_some_iff.mp behind
  rw [treeArgs, tree, tailTrees]
  rfl

/-- The loop over the arguments -/
theorem packArgs_yields (valid : ∀ v, v ∈ vs → v.Valid) (sound : s.Sound) (small : s.space.Small)
    (kept : roomArgs heap vs s.space ≠ .lost) :
    ∃ out, Yields (fun fuel => packArgs heap fuel vs s) out ∧
      Lands s ((treeArgs vs).map PackTree.encodeElems) [] (roomArgs heap vs s.space) out := by
  induction vs generalizing s with
  | nil =>
      simp only [packArgs]
      exact ⟨_, yields_pure _, [], s, rfl, rfl, Adds.refl sound, rfl, small⟩
  | cons v rest ih =>
      rw [roomArgs] at kept ⊢
      have valueKept : v.room heap s.space ≠ .lost := by
        intro lost
        rw [lost] at kept
        exact kept rfl
      obtain ⟨out, first, lands⟩ := packStack_yields v (valid v List.mem_cons_self) s sound valueKept
      simp only [packArgs]
      cases valueRoom : v.room heap s.space with
      | left sp =>
          rw [valueRoom] at kept lands
          obtain ⟨b, s₁, value, rfl, adds, rfl, small₁⟩ := lands
          obtain ⟨out, second, lands⟩ :=
            ih (fun u member => valid u (List.mem_cons_of_mem v member)) adds.sound small₁ kept
          have positive : ¬ s₁.len < 0 := Int.not_lt.mpr (adds.sound.len small₁)
          refine ⟨out, first.bind ?_, Lands.args_cons value adds lands⟩
          simp only [if_neg positive]
          exact second
      | refused =>
          rw [valueRoom] at lands
          obtain ⟨s', r, above, rfl, negative⟩ := lands
          refine ⟨.returned s' r above, first.bind ?_, s', r, above, rfl, negative⟩
          simp only [if_pos negative]
          exact yields_pure _
      | stopped =>
          rw [valueRoom] at lands
          obtain rfl := lands
          exact ⟨_, first.bind (yields_pure _), rfl⟩
      | lost => exact absurd valueRoom valueKept

theorem treeArgs_length {trees : List PackTree} (whole : treeArgs vs = some trees) :
    trees.length = vs.length := by
  induction vs generalizing trees with
  | nil =>
      obtain rfl := Option.some.inj whole
      rfl
  | cons v rest ih =>
      obtain ⟨t, -, whole⟩ := Option.bind_eq_some_iff.mp whole
      obtain ⟨trees, tail, rfl⟩ := Option.map_eq_some_iff.mp whole
      rw [List.length_cons, List.length_cons, ih tail]

/-- An array of values with its header -/
theorem packArray_yields (valid : ∀ v, v ∈ vs → v.Valid) (sound : s.Sound)
    (kept : ((s.space.push (arrayHeader vs.length).length).bind fun sp => roomArgs heap vs sp) ≠
      .lost) :
    ∃ out, Yields (fun fuel => packArgs heap fuel vs
        { s with pk := (s.pk.pushArrayLen vs.length).1 }) out ∧
      Lands s ((treeArgs vs).map fun ts => (PackTree.array ts).encode) []
        ((s.space.push (arrayHeader vs.length).length).bind fun sp => roomArgs heap vs sp) out := by
  obtain ⟨sp, header⟩ := push_kept fun lost => kept (by rw [lost]; rfl)
  rw [push_stays (pushArrayLen_accepts vs.length) sound header]
  obtain ⟨-, adds, rfl, small, -⟩ := (pushArrayLen_accepts _).left sound header
  rw [header] at kept ⊢
  obtain ⟨out, yields, lands⟩ := packArgs_yields valid adds.sound small kept
  refine ⟨out, yields, ?_⟩
  simp only [Room.bind]
  cases room : roomArgs heap vs (s.append (arrayHeader vs.length)).space with
  | left sp =>
      rw [room] at lands
      obtain ⟨b, s', packed, returned, adds', space, small⟩ := lands
      obtain ⟨trees, whole, rfl⟩ := Option.map_eq_some_iff.mp packed
      refine ⟨_, s', ?_, returned, adds.trans adds', space, small⟩
      rw [whole, Option.map_some, PackTree.encode, treeArgs_length whole]
  | refused =>
      rw [room] at lands
      exact lands
  | stopped =>
      rw [room] at lands
      exact lands
  | lost => exact absurd room kept

/-- The method name, and the array of the arguments -/
theorem Lands.rpcArgs (value : method.tree.map PackTree.encode = some bytes)
    (first : s.Adds bytes s₁)
    (second : Lands s₁ ((treeArgs args).map fun ts => (PackTree.array ts).encode) [] room out) :
    Lands s (Input.rpcArgs (method :: args)).message [] room out := by
  refine second.behind first fun tail behind => ?_
  obtain ⟨t, tree, rfl⟩ := Option.map_eq_some_iff.mp value
  obtain ⟨trees, tailTrees, rfl⟩ := Option.map_eq_some_iff.mp behind
  rw [Input.message, tree, tailTrees]
  rfl

end

/-- Every input lands as its room tells. -/
theorem pack_yields {input : Input} (valid : input.Valid) (sound : s.Sound)
    (kept : input.room heap s.space ≠ .lost) :
    ∃ out, Yields (fun fuel => input.pack heap fuel s) out ∧
      Lands s input.message [] (input.room heap s.space) out := by
  cases input with
  | stack v => exact packStack_yields v valid s sound kept
  | response vs => exact packArray_yields valid sound kept
  | rpcArgs vs =>
      cases vs with
      | nil =>
          obtain ⟨sp, header⟩ := push_kept kept
          have array := @packArray_yields heap s [] valid sound (by
            rw [List.length_nil, header]
            exact nofun)
          rw [List.length_nil, header] at array
          rw [Input.room, header]
          exact array
      | cons method args =>
          rw [Input.room] at kept ⊢
          have methodKept : method.room heap s.space ≠ .lost := by
            intro lost
            rw [lost] at kept
            exact kept rfl
          obtain ⟨out, first, lands⟩ :=
            packStack_yields method (valid method List.mem_cons_self) s sound methodKept
          simp only [Input.pack, packStackAsRpcArgs]
          cases methodRoom : method.room heap s.space with
          | left sp =>
              rw [methodRoom] at kept lands
              obtain ⟨b, s₁, value, rfl, adds, rfl, small⟩ := lands
              obtain ⟨out, second, lands⟩ := packArray_yields
                (fun u member => valid u (List.mem_cons_of_mem method member)) adds.sound kept
              have positive : ¬ s₁.len < 0 := Int.not_lt.mpr (adds.sound.len small)
              refine ⟨out, first.bind ?_, Lands.rpcArgs value adds lands⟩
              simp only [if_neg positive]
              exact second
          | refused =>
              rw [methodRoom] at lands
              obtain ⟨s', r, above, rfl, negative⟩ := lands
              refine ⟨.returned s' r above, first.bind ?_, s', r, above, rfl, negative⟩
              simp only [if_pos negative]
              exact yields_pure _
          | stopped =>
              rw [methodRoom] at lands
              obtain rfl := lands
              exact ⟨_, first.bind (yields_pure _), rfl⟩
          | lost => exact absurd methodRoom methodKept

end Serializer

/-- What is packed without an error is the complete message, whatever buffer it is packed
into. -/
def Input.Framed (heap : ℕ → Option ℕ) (input : Input) (s : Serializer) : Prop :=
  ∀ fuel s' r left, input.pack heap fuel s = some (.returned s' r left) → 0 ≤ r →
    ∃ bytes, input.message = some bytes ∧ s'.pk.pb.data = s.pk.pb.data ++ bytes

/-- With enough fuel packing returns, and not with an error. -/
def Input.Returns (heap : ℕ → Option ℕ) (input : Input) (s : Serializer) : Prop :=
  ∃ n s' r, 0 ≤ r ∧ ∀ fuel, n ≤ fuel → input.pack heap fuel s = some (.returned s' r [])

/-- Where nothing is left out for want of room or for want of a message, packing is framed. -/
theorem packing_framed {input : Input} (valid : input.Valid) (sound : s.Sound)
    (kept : input.room heap s.space ≠ .lost) :
    input.Framed heap s ∧ (∀ sp, input.room heap s.space = .left sp → input.Returns heap s) := by
  obtain ⟨out, yields, lands⟩ := Serializer.pack_yields valid sound kept
  constructor
  · intro fuel s' r left run positive
    have same := yields.only fuel _ run
    cases room : input.room heap s.space with
    | left sp =>
        rw [room] at lands
        obtain ⟨b, s₁, message, rfl, adds, -, -⟩ := lands
        obtain ⟨rfl, rfl, rfl⟩ := Outcome.returned.inj same
        exact ⟨b, message, adds.data⟩
    | refused =>
        rw [room] at lands
        obtain ⟨s₁, r₁, above, rfl, negative⟩ := lands
        obtain ⟨rfl, rfl, rfl⟩ := Outcome.returned.inj same
        exact absurd positive (Int.not_le.mpr negative)
    | stopped =>
        rw [room] at lands
        exact nomatch same.trans lands
    | lost => exact absurd room kept
  · intro sp room
    rw [room] at lands
    obtain ⟨b, s', -, rfl, adds, rfl, small⟩ := lands
    obtain ⟨n, enough⟩ := yields.enough
    exact ⟨n, s', s'.len, adds.sound.len small, enough⟩

/-- A buffer of 256 bytes with `n` bytes free, and memory enough. -/
def almostFull (n : ℕ) : Serializer := ⟨⟨⟨some 0, List.replicate (256 - n) 0, 256, 0⟩, 256 - n⟩, 1⟩

theorem almostFull_sound {n : ℕ} : (almostFull n).Sound where
  ofs := rfl
  within := by
    show (List.replicate (256 - n) (0 : UInt8)).length ≤ 256
    rw [List.length_replicate]
    exact Nat.sub_le ..
  block := iff_of_false nofun nofun
  start := by
    show 256 - n ≤ (List.replicate (256 - n) (0 : UInt8)).length
    rw [List.length_replicate]

set_option maxRecDepth 2000 in
/-- A table with one string of two bytes, in 20 free bytes. -/
theorem packing_framed_small :
    (Input.stack (.table 1 .absent [(.number 0, .string [97, 98])])).Framed some (almostFull 20) ∧
    (Input.stack (.table 1 .absent [(.number 0, .string [97, 98])])).Returns some
      (almostFull 20) := by
  have valid : (Input.stack (.table 1 .absent [(.number 0, .string [97, 98])])).Valid :=
    ⟨⟨by decide, by decide⟩, trivial, trivial, trivial⟩
  have room : (Input.stack (.table 1 .absent [(.number 0, .string [97, 98])])).room some
      (almostFull 20).space = .left ⟨236, 249, 256, 1⟩ := by decide
  obtain ⟨framed, returns⟩ := packing_framed valid almostFull_sound (by rw [room]; nofun)
  exact ⟨framed, returns _ room⟩

set_option maxRecDepth 4000 in
/-- With two bytes free the header of the string is written twice. -/
theorem packing_unframed : ¬ (Input.stack (.string [97, 98])).Framed some (almostFull 2) := by
  intro framed
  obtain ⟨bytes, message, data⟩ := framed 3 _ _ _ rfl (by decide)
  obtain rfl := Option.some.inj message
  have lengths := congrArg List.length data
  exact absurd lengths (by decide)

end Cyue.Lua
