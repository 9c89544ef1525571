import Cyue.Lua.Framed
import Cyue.Lua.Unpack
import Cyue.Mpak.RoundTrip

/-!
# Lua values that come back

A value of nil, booleans, numbers, strings and tables is packed whole where the buffer
has room for it, its message is parsed as the tree of the value, and what
`unpack_stack` makes of the tree is equal to the value.
-/

namespace Cyue.Lua

open Mpak Packer Fuel

/-! ## Plain values -/

/-- A boolean, a number or a string that a table can have as a key. -/
def LuaValue.Key : LuaValue → Prop
  | .boolean _ => True
  | .number bits => (LuaValue.number bits).badKey = false
  | .string _ => True
  | _ => False

mutual

/-- A value of nil, booleans, numbers, strings and tables without `__pack`.  The keys of a
table are different, and its values are not nil. -/
def LuaValue.Plain : LuaValue → Prop
  | .nil => True
  | .number _ => True
  | .boolean _ => True
  | .string _ => True
  | .table _ pack entries =>
      pack = .absent ∧ (entries.map (·.1.raw)).Nodup ∧ PlainEntries entries
  | _ => False

def PlainEntries : List (LuaValue × LuaValue) → Prop
  | [] => True
  | (k, v) :: rest => (k.Key ∧ v.raw ≠ .nil ∧ v.Plain) ∧ PlainEntries rest

end

mutual

def LuaValue.nesting : LuaValue → ℕ
  | .table _ _ entries => nestingEntries entries
  | _ => 0

def nestingEntries : List (LuaValue × LuaValue) → ℕ
  | [] => 0
  | (_, v) :: rest => max (v.nesting + 1) (nestingEntries rest)

end

theorem LuaValue.Key.plain {k : LuaValue} (key : k.Key) : k.Plain := by
  cases k with
  | boolean b => trivial
  | number bits => trivial
  | string str => trivial
  | _ => exact key.elim

theorem LuaValue.Key.raw_ne {k : LuaValue} (key : k.Key) : k.raw ≠ .nil := by
  cases k with
  | boolean b => exact nofun
  | number bits => exact nofun
  | string str => exact nofun
  | _ => exact key.elim

theorem LuaValue.Key.good {k : LuaValue} (key : k.Key) : k.badKey = false := by
  cases k with
  | boolean b => rfl
  | number bits => exact key
  | string str => rfl
  | _ => exact key.elim

mutual

theorem LuaValue.Plain.valid : (v : LuaValue) → v.Plain → v.Valid
  | .nil, _ => trivial
  | .number _, _ => trivial
  | .boolean _, _ => trivial
  | .string _, _ => trivial
  | .table _ _ entries, plain => by
      obtain ⟨-, distinct, plain⟩ := plain
      refine ⟨⟨distinct, ?_⟩, PlainEntries.valid entries plain⟩
      exact PlainEntries.proper entries plain

theorem PlainEntries.valid : (entries : List (LuaValue × LuaValue)) → PlainEntries entries →
    ValidEntries entries
  | [], _ => trivial
  | (k, v) :: rest, plain => by
      obtain ⟨⟨key, -, value⟩, plain⟩ := plain
      refine ⟨?_, LuaValue.Plain.valid v value, PlainEntries.valid rest plain⟩
      cases k with
      | table addr pack entries => exact key.elim
      | _ => trivial

theorem PlainEntries.proper : (entries : List (LuaValue × LuaValue)) → PlainEntries entries →
    Raw.nil ∉ entries.map (·.1.raw)
  | [], _ => List.not_mem_nil
  | (k, v) :: rest, plain => by
      obtain ⟨⟨key, -, -⟩, plain⟩ := plain
      rw [List.map_cons, List.mem_cons, not_or]
      exact ⟨fun same => key.raw_ne same.symm, PlainEntries.proper rest plain⟩

end

mutual

/-- The message of a plain value nests like the value. -/
theorem LuaValue.Plain.tree_depth : (v : LuaValue) → v.Plain → ∀ t, v.tree = some t →
    t.depth = v.nesting
  | .nil, _, t, tree => by
      obtain rfl := Option.some.inj tree
      rfl
  | .number _, _, t, tree => by
      obtain rfl := Option.some.inj tree
      rfl
  | .boolean _, _, t, tree => by
      obtain rfl := Option.some.inj tree
      rfl
  | .string _, _, t, tree => by
      obtain rfl := Option.some.inj tree
      rfl
  | .table _ _ entries, plain, t, tree => by
      obtain ⟨rfl, -, plain⟩ := plain
      obtain ⟨trees, whole, rfl⟩ := Option.map_eq_some_iff.mp tree
      exact PlainEntries.tree_depth entries plain trees whole

theorem PlainEntries.tree_depth : (entries : List (LuaValue × LuaValue)) → PlainEntries entries →
    ∀ trees, treeEntries entries = some trees →
      PackTree.depthEntries trees = nestingEntries entries
  | [], _, trees, whole => by
      obtain rfl := Option.some.inj whole
      rfl
  | (k, v) :: rest, plain, trees, whole => by
      obtain ⟨⟨key, -, value⟩, plain⟩ := plain
      obtain ⟨kt, keyTree, whole⟩ := Option.bind_eq_some_iff.mp whole
      obtain ⟨vt, valueTree, whole⟩ := Option.bind_eq_some_iff.mp whole
      obtain ⟨trees, tail, rfl⟩ := Option.map_eq_some_iff.mp whole
      have flat : kt.depth = 0 := by
        cases k with
        | boolean b =>
            obtain rfl := Option.some.inj keyTree
            rfl
        | number bits =>
            obtain rfl := Option.some.inj keyTree
            rfl
        | string str =>
            obtain rfl := Option.some.inj keyTree
            rfl
        | _ => exact key.elim
      have inner := LuaValue.Plain.tree_depth v value vt valueTree
      have outer := PlainEntries.tree_depth rest plain trees tail
      rw [PackTree.depthEntries, nestingEntries, flat, inner, outer]
      omega

end

/-! ## Room for the whole value -/

section
variable {heap : ℕ → Option ℕ}

structure Space.Roomy (sp : Space) (n : ℕ) : Prop where
  free : sp.used + n < sp.limit
  small : sp.used + n - sp.start < 2 ^ 31

def Space.add (sp : Space) (n : ℕ) : Space := { sp with used := sp.used + n }

theorem Space.add_add (sp : Space) (n m : ℕ) : (sp.add n).add m = sp.add (n + m) :=
  congrArg (fun used => { sp with used := used }) (Nat.add_assoc sp.used n m)

theorem Space.Roomy.front {sp : Space} {n m : ℕ} (roomy : sp.Roomy (n + m)) : sp.Roomy n := by
  obtain ⟨free, small⟩ := roomy
  constructor <;> omega

theorem Space.Roomy.back {sp : Space} {n m : ℕ} (roomy : sp.Roomy (n + m)) :
    (sp.add n).Roomy m := by
  obtain ⟨free, small⟩ := roomy
  have used : (sp.add n).used + m = sp.used + (n + m) := Nat.add_assoc ..
  constructor
  · rw [used]
    exact free
  · rw [used]
    exact small

theorem Space.Roomy.push {sp : Space} {n : ℕ} (roomy : sp.Roomy n) :
    sp.push n = .left (sp.add n) := by
  obtain ⟨free, small⟩ := roomy
  refine if_pos ⟨?_, small⟩
  exact Nat.lt_sub_of_add_lt (by omega)

theorem Space.Roomy.retry {sp : Space} {first n : ℕ} (roomy : sp.Roomy n) (le : first ≤ n) :
    sp.retry heap first n = .left (sp.add n) := by
  have fits : first < sp.free := by
    obtain ⟨free, -⟩ := roomy
    exact Nat.lt_sub_of_add_lt (by omega)
  have whole : ¬ sp.free ≤ n := by
    obtain ⟨free, -⟩ := roomy
    exact Nat.not_le.mpr (Nat.lt_sub_of_add_lt (by omega))
  rw [Space.retry, if_pos fits, if_neg fun short => whole short.1]
  exact roomy.push

mutual

/-- A plain value finds room where its message does. -/
theorem LuaValue.Plain.room : (v : LuaValue) → v.Plain → ∀ t, v.tree = some t → ∀ sp : Space,
    sp.Roomy t.encode.length → v.room heap sp = .left (sp.add t.encode.length)
  | .nil, _, t, tree, sp, roomy => by
      obtain rfl := Option.some.inj tree
      exact roomy.retry (Nat.le_refl 1)
  | .number bits, _, t, tree, sp, roomy => by
      obtain rfl := Option.some.inj tree
      have length : (PackTree.double bits).encode.length = 9 := by
        rw [PackTree.encode, List.length_cons, Bytes.beBytes_length]
      rw [length] at roomy ⊢
      exact roomy.retry (Nat.le_refl 9)
  | .boolean b, _, t, tree, sp, roomy => by
      obtain rfl := Option.some.inj tree
      exact roomy.retry (Nat.le_refl 1)
  | .string str, _, t, tree, sp, roomy => by
      obtain rfl := Option.some.inj tree
      refine roomy.retry ?_
      rw [PackTree.encode, List.length_append]
      exact Nat.le_add_right ..
  | .table _ _ entries, plain, t, tree, sp, roomy => by
      obtain ⟨rfl, -, plain⟩ := plain
      obtain ⟨trees, whole, rfl⟩ := Option.map_eq_some_iff.mp tree
      have length : (PackTree.map trees).encode.length =
          (mapHeader entries.length).length + (PackTree.encodeEntries trees).length := by
        rw [PackTree.encode, List.length_append, Serializer.treeEntries_length whole]
      rw [length] at roomy ⊢
      rw [LuaValue.room, roomy.front.push, Room.bind, ← Space.add_add]
      exact PlainEntries.room entries plain trees whole _ roomy.back

theorem PlainEntries.room : (entries : List (LuaValue × LuaValue)) → PlainEntries entries →
    ∀ trees, treeEntries entries = some trees → ∀ sp : Space,
      sp.Roomy (PackTree.encodeEntries trees).length →
      roomEntries heap entries sp = .left (sp.add (PackTree.encodeEntries trees).length)
  | [], _, trees, whole, sp, _ => by
      obtain rfl := Option.some.inj whole
      rfl
  | (k, v) :: rest, plain, trees, whole, sp, roomy => by
      obtain ⟨⟨key, -, value⟩, plain⟩ := plain
      obtain ⟨kt, keyTree, whole⟩ := Option.bind_eq_some_iff.mp whole
      obtain ⟨vt, valueTree, whole⟩ := Option.bind_eq_some_iff.mp whole
      obtain ⟨trees, tail, rfl⟩ := Option.map_eq_some_iff.mp whole
      rw [PackTree.encodeEntries, List.length_append, List.length_append] at roomy ⊢
      rw [roomEntries, LuaValue.Plain.room k key.plain kt keyTree sp roomy.front, Room.inside,
        Room.bind, LuaValue.Plain.room v value vt valueTree _ roomy.back.front, Room.inside,
        Room.bind, PlainEntries.room rest plain trees tail _ roomy.back.back, Space.add_add,
        Space.add_add]
      all_goals exact nofun

end

end

/-! ## Tables that are filled -/

theorem entryOf_append (left right : List (LuaValue × LuaValue)) {key : Raw}
    (absent : key ∉ left.map (·.1.raw)) : entryOf (left ++ right) key = entryOf right key := by
  have none_left : left.find? (·.1.raw = key) = none := by
    refine List.find?_eq_none.mpr fun e member same => absent ?_
    exact List.mem_map.mpr ⟨e, member, of_decide_eq_true same⟩
  rw [entryOf, entryOf, List.find?_append, none_left, Option.none_or]

theorem entryOf_absent {entries : List (LuaValue × LuaValue)} {key : Raw}
    (absent : key ∉ entries.map (·.1.raw)) : entryOf entries key = none := by
  have := entryOf_append entries [] absent
  rwa [List.append_nil] at this

/-- A new key is put behind the others. -/
theorem setEntry_new {entries : List (LuaValue × LuaValue)} {k v : LuaValue}
    (absent : k.raw ∉ entries.map (·.1.raw)) (there : v.raw ≠ .nil) :
    setEntry entries k v = entries ++ [(k, v)] := by
  rw [setEntry, if_neg there, entryOf_absent absent]
  rfl

/-- The entries in the order in which they are unpacked. -/
inductive Copied : List (LuaValue × LuaValue) → List (LuaValue × LuaValue) → Prop where
  | nil : Copied [] []
  | cons {k v k' v' : LuaValue} {rest rest' : List (LuaValue × LuaValue)} (key : k'.raw = k.raw)
      (value : v.Same v') (tail : Copied rest rest') : Copied ((k, v) :: rest) ((k', v') :: rest')

theorem Copied.length {entries entries' : List (LuaValue × LuaValue)}
    (copied : Copied entries entries') : entries.length = entries'.length := by
  induction copied with
  | nil => rfl
  | cons _ _ _ ih => rw [List.length_cons, List.length_cons, ih]

theorem Copied.keys {entries entries' : List (LuaValue × LuaValue)}
    (copied : Copied entries entries') : entries'.map (·.1.raw) = entries.map (·.1.raw) := by
  induction copied with
  | nil => rfl
  | cons key _ _ ih => rw [List.map_cons, List.map_cons, key, ih]

/-- Under different keys the copies are found again. -/
theorem Copied.same {entries entries' : List (LuaValue × LuaValue)}
    (copied : Copied entries entries') (before : List (LuaValue × LuaValue))
    (distinct : (before.map (·.1.raw) ++ entries.map (·.1.raw)).Nodup) :
    SameEntries entries (before ++ entries') := by
  induction copied generalizing before with
  | nil => trivial
  | @cons k v k' v' rest rest' key value tail ih =>
      constructor
      · refine ⟨v', ?_, value⟩
        rw [entryOf_append]
        · rw [entryOf, List.find?_cons_of_pos (by simpa using key)]
          rfl
        · intro member
          exact (List.nodup_append.mp distinct).2.2 _ member _ List.mem_cons_self rfl
      · have moved : before ++ (k', v') :: rest' = (before ++ [(k', v')]) ++ rest' := by
          rw [List.append_assoc]
          rfl
        rw [moved]
        apply ih
        rw [List.map_append, List.map_singleton, key, List.append_assoc]
        exact distinct

/-- The value comes back as an equal one that is no nil if the value is none. -/
theorem LuaValue.Same.raw_ne {v v' : LuaValue} (same : v.Same v') (there : v.raw ≠ .nil) :
    v'.raw ≠ .nil := by
  cases v' with
  | nil =>
      cases v with
      | nil => exact there
      | _ => exact same.elim
  | _ => exact nofun

/-- What comes back for a key is the same key. -/
theorem LuaValue.Key.same {k k' : LuaValue} (key : k.Key) (same : k.Same k') :
    k'.raw = k.raw ∧ k'.badKey = false := by
  cases k with
  | boolean b =>
      cases k' with
      | boolean b' => exact ⟨congrArg Raw.boolean (Eq.symm same), rfl⟩
      | _ => exact same.elim
  | number bits =>
      cases k' with
      | number bits' =>
          obtain rfl : bits = bits' := same
          exact ⟨rfl, key⟩
      | _ => exact same.elim
  | string str =>
      cases k' with
      | string str' => exact ⟨congrArg Raw.string (Eq.symm same), rfl⟩
      | _ => exact same.elim
  | _ => exact key.elim

/-! ## unpack_stack of the parsed tree -/

namespace Host

section
variable {ρ : Type} {host : Host ρ} {payload : ρ → List UInt8} {cells : List (Obj ρ)} {lo : ℕ}

mutual

/-- The object of a plain value is unpacked as an equal value. -/
theorem unpackStack_yields : (v : LuaValue) → v.Plain → ∀ (o : Obj ρ) t, v.tree = some t →
    Denotes payload cells lo o t → ∀ vm : Vm, ∃ v' tables,
      Yields (fun fuel => host.unpackStack payload cells fuel (some o) vm)
        (.returned ⟨v' :: vm.stack, tables⟩ 0) ∧ v.Same v'
  | .nil, _, o, t, tree, denotes, vm => by
      obtain rfl := Option.some.inj tree
      cases denotes
      exact ⟨.nil, vm.tables, (yields_pure _).succ rfl, trivial⟩
  | .number bits, _, o, t, tree, denotes, vm => by
      obtain rfl := Option.some.inj tree
      cases denotes
      exact ⟨.number bits, vm.tables, (yields_pure _).succ rfl, rfl⟩
  | .boolean b, _, o, t, tree, denotes, vm => by
      obtain rfl := Option.some.inj tree
      cases denotes
      exact ⟨.boolean b, vm.tables, (yields_pure _).succ rfl, rfl⟩
  | .string str, _, o, t, tree, denotes, vm => by
      obtain rfl := Option.some.inj tree
      generalize same : PackTree.raw str = t at denotes
      cases denotes with
      | raw ptr =>
          obtain rfl := PackTree.raw.inj same
          refine ⟨.string (payload ptr), vm.tables, ?_, rfl⟩
          refine Yields.succ rfl ?_
          have whole : (payload ptr).take (payload ptr).length = payload ptr := List.take_length
          simp only [unpackStack, whole]
          exact yields_pure _
      | _ => exact nomatch same
  | .table _ _ entries, plain, o, t, tree, denotes, vm => by
      obtain ⟨rfl, distinct, plain⟩ := plain
      obtain ⟨trees, whole, rfl⟩ := Option.map_eq_some_iff.mp tree
      generalize same : PackTree.map trees = t at denotes
      cases denotes with
      | map trees' ptr owned inside each =>
          obtain rfl := PackTree.map.inj same
          have empty : (vm.createtable).stack = .table vm.tables .absent [] :: vm.stack := rfl
          obtain ⟨entries', tables, yields, copied⟩ := unpackEntries_yields entries plain trees whole
            ptr inside each vm.createtable [] vm.tables vm.stack empty distinct
          refine ⟨.table vm.tables .absent entries', tables, ?_, copied.length,
            copied.same [] distinct⟩
          rw [Serializer.treeEntries_length whole]
          exact Yields.succ rfl yields
      | _ => exact nomatch same

/-- The entries are put behind those that are there. -/
theorem unpackEntries_yields : (rest : List (LuaValue × LuaValue)) → PlainEntries rest →
    ∀ trees, treeEntries rest = some trees → ∀ ptr, ptr + 2 * trees.length ≤ cells.length →
    (∀ i (bound : i < (PackTree.flatten trees).length),
      Denotes payload cells lo (cells.getD (ptr + i) .uninit) (PackTree.flatten trees)[i]) →
    ∀ (vm : Vm) (before : List (LuaValue × LuaValue)) addr below,
      vm.stack = .table addr .absent before :: below →
      (before.map (·.1.raw) ++ rest.map (·.1.raw)).Nodup →
      ∃ rest' tables,
        Yields (fun fuel => host.unpackEntries payload cells fuel rest.length ptr vm)
          (.returned ⟨.table addr .absent (before ++ rest') :: below, tables⟩ 0) ∧
        Copied rest rest'
  | [], _, trees, whole, ptr, _, _, vm, before, addr, below, stack, _ => by
      refine ⟨[], vm.tables, ?_, .nil⟩
      rw [List.append_nil, ← stack]
      exact (yields_pure _).succ rfl
  | (k, v) :: rest, plain, trees, whole, ptr, inside, each, vm, before, addr, below, stack,
      distinct => by
      obtain ⟨⟨key, there, value⟩, plain⟩ := plain
      obtain ⟨kt, keyTree, whole⟩ := Option.bind_eq_some_iff.mp whole
      obtain ⟨vt, valueTree, whole⟩ := Option.bind_eq_some_iff.mp whole
      obtain ⟨trees, tail, rfl⟩ := Option.map_eq_some_iff.mp whole
      rw [List.length_cons] at inside
      have keyDenotes := each 0 (by simp)
      have valueDenotes := each 1 (by simp)
      have tailDenotes : ∀ i (bound : i < (PackTree.flatten trees).length),
          Denotes payload cells lo (cells.getD (ptr + 2 + i) .uninit) (PackTree.flatten trees)[i] := by
        intro i bound
        have next := each (i + 2) (by simpa using bound)
        have place : ptr + (i + 2) = ptr + 2 + i := by omega
        rw [place] at next
        exact next
      obtain ⟨k', tables₁, first, sameKey⟩ :=
        unpackStack_yields k key.plain _ kt keyTree keyDenotes vm
      obtain ⟨v', tables₂, second, sameValue⟩ :=
        unpackStack_yields v value _ vt valueTree valueDenotes ⟨k' :: vm.stack, tables₁⟩
      obtain ⟨sameRaw, good⟩ := key.same sameKey
      have absent : k'.raw ∉ before.map (·.1.raw) := by
        rw [sameRaw]
        intro member
        exact (List.nodup_append.mp distinct).2.2 _ member _ List.mem_cons_self rfl
      have set : Vm.settable ⟨v' :: k' :: vm.stack, tables₂⟩ =
          some ⟨.table addr .absent (before ++ [(k', v')]) :: below, tables₂⟩ := by
        rw [stack, Vm.settable]
        dsimp only
        rw [if_neg (Bool.eq_false_iff.mp good), setEntry_new absent (sameValue.raw_ne there)]
      have distinct' : ((before ++ [(k', v')]).map (·.1.raw) ++ rest.map (·.1.raw)).Nodup := by
        rw [List.map_append, List.map_singleton, sameRaw, List.append_assoc]
        exact distinct
      obtain ⟨rest', tables, third, copied⟩ := unpackEntries_yields rest plain trees tail (ptr + 2)
        (by omega) tailDenotes ⟨.table addr .absent (before ++ [(k', v')]) :: below, tables₂⟩ _ addr
        below rfl distinct'
      rw [List.append_assoc] at third
      refine ⟨(k', v') :: rest', tables, ?_, .cons sameRaw sameValue copied⟩
      refine Yields.succ rfl ?_
      simp only [List.length_cons, unpackEntries, cell_there (show ptr < cells.length by omega),
        cell_there (show ptr + 1 < cells.length by omega)]
      refine first.bind (second.bind ?_)
      simp only [set]
      exact third

end

end

end Host

/-! ## There and back -/

mutual

/-- A plain value has a message. -/
theorem LuaValue.Plain.tree_some : (v : LuaValue) → v.Plain → ∃ t, v.tree = some t
  | .nil, _ => ⟨_, rfl⟩
  | .number _, _ => ⟨_, rfl⟩
  | .boolean _, _ => ⟨_, rfl⟩
  | .string _, _ => ⟨_, rfl⟩
  | .table _ _ entries, plain => by
      obtain ⟨rfl, -, plain⟩ := plain
      obtain ⟨trees, whole⟩ := PlainEntries.trees_some entries plain
      exact ⟨.map trees, Option.map_eq_some_iff.mpr ⟨trees, whole, rfl⟩⟩

theorem PlainEntries.trees_some : (entries : List (LuaValue × LuaValue)) → PlainEntries entries →
    ∃ trees, treeEntries entries = some trees
  | [], _ => ⟨[], rfl⟩
  | (k, v) :: rest, plain => by
      obtain ⟨⟨key, -, value⟩, plain⟩ := plain
      obtain ⟨kt, keyTree⟩ := LuaValue.Plain.tree_some k key.plain
      obtain ⟨vt, valueTree⟩ := LuaValue.Plain.tree_some v value
      obtain ⟨trees, tail⟩ := PlainEntries.trees_some rest plain
      refine ⟨(kt, vt) :: trees, ?_⟩
      rw [treeEntries, keyTree, valueTree, tail]
      rfl

end

/-- A plain value that is packed into a buffer with room for it is unpacked from the bytes
as an equal value. -/
theorem values_round_trip {v : LuaValue} (plain : v.Plain) (nested : v.nesting ≤ 15) :
    ∃ bytes, (Input.stack v).message = some bytes ∧
      ∀ (heap : ℕ → Option ℕ) (s : Serializer), s.Sound → bytes.length < s.pk.pb.available →
        s.pk.pb.last + bytes.length - s.pk.c < 2 ^ 31 →
        ∃ s', Yields (fun fuel => s.packStack heap fuel v) (.returned s' s'.len []) ∧ 0 ≤ s'.len ∧
          s'.pk.pb.data = s.pk.pb.data ++ bytes ∧
          ∀ (pb : Pbuf) (malloc : Malloc) (ctx : Context RawPtr), pb.unread = bytes → ctx.Idle →
            (∀ sz, sz ≤ sizeofObject * bytes.length → malloc sz = true) →
            (unpackLoop malloc ctx (cursorOf pb)).ret = .success ∧
            ∀ (host : Host RawPtr) (vm : Vm), ∃ v' tables,
              Yields (fun fuel => host.unpackStack (payloadOf pb)
                (unpackLoop malloc ctx (cursorOf pb)).ctx.cells fuel
                (some (unpackLoop malloc ctx (cursorOf pb)).ctx.atWork) vm)
                (.returned ⟨v' :: vm.stack, tables⟩ 0) ∧ v.Same v' := by
  obtain ⟨t, tree⟩ := LuaValue.Plain.tree_some v plain
  refine ⟨t.encode, Option.map_eq_some_iff.mpr ⟨t, tree, rfl⟩, ?_⟩
  intro heap s sound free short
  have roomy : s.space.Roomy t.encode.length := by
    rw [sound.available] at free
    exact ⟨Nat.add_lt_of_lt_sub' free, short⟩
  have room : v.room heap s.space = .left (s.space.add t.encode.length) :=
    LuaValue.Plain.room v plain t tree s.space roomy
  have kept : v.room heap s.space ≠ .lost := by
    rw [room]
    exact nofun
  obtain ⟨out, yields, lands⟩ :=
    Serializer.packStack_yields v (LuaValue.Plain.valid v plain) s sound kept
  rw [room, tree] at lands
  obtain ⟨bytes, s', message, rfl, adds, space, small⟩ := lands
  obtain rfl : t.encode = bytes := Option.some.inj message
  refine ⟨s', yields, adds.sound.len (space ▸ small), adds.data, ?_⟩
  intro pb malloc ctx unread idle grants
  have message_short : t.encode.length < 2 ^ 31 := by
    have start := sound.start
    omega
  have unread' : (cursorOf pb).unread = t.encode ++ [] := by
    rw [List.append_nil]
    exact unread
  obtain ⟨fits, -⟩ := unpackLoop_tree idle (cursorOf_reads pb) unread' message_short grants
  obtain ⟨after, -, denotes, finish⟩ := fits (LuaValue.Plain.tree_depth v plain t tree ▸ nested)
  rw [finish]
  refine ⟨rfl, fun host vm => ?_⟩
  exact Host.unpackStack_yields v plain _ t tree denotes vm

/-- `{ [1] = "a", x = { [true] = 2 } }` -/
def sample : LuaValue :=
  .table 0 .absent
    [(.number 0x3ff0000000000000, .string [97]),
      (.string [120], .table 1 .absent [(.boolean true, .number 0x4000000000000000)])]

theorem sample_plain : sample.Plain :=
  ⟨rfl, by decide, ⟨rfl, nofun, trivial⟩,
    ⟨trivial, nofun, rfl, by decide, ⟨trivial, nofun, trivial⟩, trivial⟩, trivial⟩

def bare : Host RawPtr := ⟨fun _ => (0, .nil), fun _ => .absent, fun _ => 0, fun _ => 0⟩

/-- The sample is packed into an empty buffer of 256 bytes, and comes back from another one. -/
theorem values_round_trip_sample : ∃ bytes s' v' tables,
    Yields (fun fuel => (almostFull 256).packStack (fun _ => some 1) fuel sample)
      (.returned s' s'.len []) ∧ s'.pk.pb.data = bytes ∧
    Yields (fun fuel => bare.unpackStack (payloadOf ⟨some 0, bytes, 256, 0⟩)
      (unpackLoop (fun _ => true) Context.fresh (cursorOf ⟨some 0, bytes, 256, 0⟩)).ctx.cells fuel
      (some (unpackLoop (fun _ => true) Context.fresh
        (cursorOf ⟨some 0, bytes, 256, 0⟩)).ctx.atWork) ⟨[], 0⟩)
      (.returned ⟨[v'], tables⟩ 0) ∧ sample.Same v' := by
  obtain ⟨bytes, message, packs⟩ := values_round_trip sample_plain (by decide)
  have length : bytes.length = 25 := by
    obtain rfl := Option.some.inj message
    decide
  obtain ⟨s', yields, -, data, unpacks⟩ := packs (fun _ => some 1) (almostFull 256) almostFull_sound
    (by rw [length]; decide) (by rw [length]; decide)
  obtain ⟨-, values⟩ :=
    unpacks ⟨some 0, bytes, 256, 0⟩ (fun _ => true) Context.fresh rfl fresh_idle fun _ _ => rfl
  obtain ⟨v', tables, unpacked, same⟩ := values bare ⟨[], 0⟩
  exact ⟨bytes, s', v', tables, yields, data, unpacked, same⟩

end Cyue.Lua
