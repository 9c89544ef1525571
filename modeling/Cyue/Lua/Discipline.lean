import Cyue.Lua.Unpack
import Cyue.Rpc.Repack

/-!
# The stack of unpack_stack

A call of `unpack_stack` is to put one value on the stack, or to return a negative value
and to leave the stack.  The loops over the elements of an error object and over the
entries of a map do not look at what the calls for the parts return, and `lua_settable`
takes the two topmost values in any case.
-/

namespace Cyue.Lua

open Mpak Rpc Fuel

variable {ρ : Type}

namespace Host

variable (host : Host ρ) (payload : ρ → List UInt8) (cells : List (Obj ρ))

/-- `(int)(o.elem(0))` of an array -/
def tag (size ptr : ℕ) : Option Int :=
  match elem cells size ptr 0 with
  | some (.integer i64) => some (intOfSize i64.toNat)
  | _ => none

/-- The value that is made of a packed object; `nil` where there is no such module. -/
def made (name : List UInt8) (packed : Option (Obj ρ)) : LuaValue :=
  match host.custom name, packed with
  | .unpacks unpack, some packed => unpack packed
  | _, _ => .nil

/-- The module can be looked at, and there is an object for its function. -/
def Ready (name : List UInt8) (packed : Option (Obj ρ)) : Prop :=
  match host.custom name with
  | .raises => False
  | .absent => True
  | .unpacks _ => packed.isSome = true

/-- What is made of the object is no key of a table. -/
def badKey : Obj ρ → Bool
  | .nil => true
  | .double dec => (LuaValue.number (host.bits dec)).badKey
  | .array size ptr =>
      match tag cells size ptr, elem cells size ptr 1 with
      | some 6, some (.raw p n) => (host.load ((payload p).take n)).2.badKey
      | some 7, some (.raw p n) =>
          (host.made ((payload p).take n) (elem cells size ptr 2)).badKey
      | _, _ => false
  | _ => false

/-- An object that `unpack_stack` can make a value of: in every container that it goes
into all parts are there and can be made values of. -/
inductive Convertible : Obj ρ → Prop where
  | nil : Convertible .nil
  | boolean (f : Bool) : Convertible (.boolean f)
  | integer (i64 : UInt64) : Convertible (.integer i64)
  | double (dec : DoubleValue) : Convertible (.double dec)
  | raw (ptr : ρ) (size : ℕ) : Convertible (.raw ptr size)
  | function {size ptr : ℕ} {p : ρ} {n : ℕ} (tagged : tag cells size ptr = some 6)
      (code : elem cells size ptr 1 = some (.raw p n)) : Convertible (.array size ptr)
  | custom {size ptr : ℕ} {p : ρ} {n : ℕ} (tagged : tag cells size ptr = some 7)
      (name : elem cells size ptr 1 = some (.raw p n))
      (ready : host.Ready ((payload p).take n) (elem cells size ptr 2)) :
      Convertible (.array size ptr)
  | error {size ptr : ℕ} {kind : Int} (tagged : tag cells size ptr = some kind)
      (negative : kind < 0)
      (each : ∀ i, i < size → Convertible (cells.getD (ptr + i) .uninit)) :
      Convertible (.array size ptr)
  | map {size ptr : ℕ}
      (keys : ∀ i, i < size → Convertible (cells.getD (ptr + 2 * i) .uninit))
      (good : ∀ i, i < size → host.badKey payload cells (cells.getD (ptr + 2 * i) .uninit) = false)
      (vals : ∀ i, i < size → Convertible (cells.getD (ptr + 2 * i + 1) .uninit)) :
      Convertible (.map size ptr)

/-- An array of a type that `unpack_stack` does not know and refuses. -/
def Refused (o : Obj ρ) : Prop :=
  ∃ size ptr kind, o = .array size ptr ∧ tag cells size ptr = some kind ∧ 0 ≤ kind ∧
    kind ≠ 6 ∧ kind ≠ 7

/-- `lua_load` returns zero or the number of an error, and a number made of an integer
is no NaN. -/
structure Lawful : Prop where
  load : ∀ code, 0 ≤ (host.load code).1
  ofInt : ∀ n, (LuaValue.number (host.ofInt n)).badKey = false

end Host

/-- The promise about a call: one value more, or a negative result and the same stack. -/
inductive Disciplined (vm : Vm) : Unpacked → Prop where
  | pushed (v : LuaValue) (tables : ℕ) (r : Int) (success : 0 ≤ r) :
      Disciplined vm (.returned ⟨v :: vm.stack, tables⟩ r)
  | failed (tables : ℕ) (r : Int) (negative : r < 0) :
      Disciplined vm (.returned ⟨vm.stack, tables⟩ r)

namespace Host

variable {host : Host ρ} {payload : ρ → List UInt8} {cells : List (Obj ρ)}
  {o : Obj ρ} {size ptr : ℕ} {vm vm' : Vm} {res : Unpacked}

/-! ## lua_settable -/

theorem settable_length (set : vm.settable = some vm') :
    vm'.stack.length + 2 = vm.stack.length := by
  unfold Vm.settable at set
  split at set
  · next stack =>
      split at set
      · exact nomatch set
      · obtain rfl := Option.some.inj set
        rw [stack]
        rfl
  · exact nomatch set

/-- What the loop that fills a table leaves, where `good` says that all its parts can
be put into it. -/
structure Filled (good : Prop) (vm : Vm) (res : Unpacked) : Prop where
  fewer : ∀ vm' r, res = .returned vm' r → r = 0 ∧ vm'.stack.length ≤ vm.stack.length
  lost : ¬ good → ∀ vm' r, res = .returned vm' r → vm'.stack.length < vm.stack.length
  whole : good → ∀ addr pack entries below, vm.stack = .table addr pack entries :: below →
    ∃ entries' tables, res = .returned ⟨.table addr pack entries' :: below, tables⟩ 0

theorem Filled.stopped {good : Prop} (bad : ¬ good) : Filled good vm .stopped where
  fewer _ _ returned := nomatch returned
  lost _ _ _ returned := nomatch returned
  whole good := absurd good bad

theorem Filled.done {good : Prop} (all : good) : Filled good vm (.returned vm 0) where
  fewer vm' r returned := by
    cases returned
    exact ⟨rfl, le_rfl⟩
  lost bad := absurd all bad
  whole _ addr pack entries below stack := by
    obtain ⟨_, tables⟩ := vm
    obtain rfl := stack
    exact ⟨entries, tables, rfl⟩

theorem Filled.iff {good good' : Prop} (filled : Filled good vm res) (same : good ↔ good') :
    Filled good' vm res :=
  propext same ▸ filled

/-- A key and its value are put into the table. -/
theorem assign (vm : Vm) (k v : LuaValue) (tables : ℕ) {rest : Prop} :
    (Vm.settable ⟨v :: k :: vm.stack, tables⟩ = none ∧
      Filled (k.badKey = false ∧ rest) vm .stopped) ∨
    ∃ vm', Vm.settable ⟨v :: k :: vm.stack, tables⟩ = some vm' ∧
      ∀ res, Filled rest vm' res → Filled (k.badKey = false ∧ rest) vm res := by
  by_cases table : ∃ addr pack entries below, vm.stack = .table addr pack entries :: below
  · obtain ⟨addr, pack, entries, below, stack⟩ := table
    have result : Vm.settable ⟨v :: k :: vm.stack, tables⟩ =
        if k.badKey then none
        else some ⟨.table addr pack (setEntry entries k v) :: below, tables⟩ := by
      rw [stack]
      rfl
    cases bad : k.badKey with
    | true =>
        refine .inl ⟨result.trans (if_pos bad), Filled.stopped ?_⟩
        exact fun good => nomatch good.1
    | false =>
        refine .inr ⟨_, result.trans (if_neg (Bool.eq_false_iff.mp bad)), fun res filled => ?_⟩
        have length : vm.stack.length = (LuaValue.table addr pack (setEntry entries k v) ::
            below).length := by
          rw [stack]
          rfl
        constructor
        · rw [length]
          exact filled.fewer
        · rw [length]
          exact fun bad => filled.lost fun rest => bad ⟨rfl, rest⟩
        · rintro ⟨-, rest⟩ addr' pack' entries' below' stack'
          obtain ⟨same, rfl⟩ := List.cons.inj (stack.symm.trans stack')
          obtain ⟨rfl, rfl, rfl⟩ := LuaValue.table.inj same
          exact filled.whole rest _ _ _ _ rfl
  · left
    constructor
    · unfold Vm.settable
      split
      · next same =>
          obtain ⟨-, same⟩ := List.cons.inj same
          obtain ⟨-, same⟩ := List.cons.inj same
          exact absurd ⟨_, _, _, _, same⟩ table
      · rfl
    · constructor
      · exact fun _ _ returned => nomatch returned
      · exact fun _ _ _ returned => nomatch returned
      · exact fun _ addr pack entries below stack => absurd ⟨addr, pack, entries, below, stack⟩ table

/-- With a key or a value missing the assignment takes what is below. -/
theorem misassign (vm : Vm) {vm₂ : Vm} {rest : Prop} (short : vm₂.stack.length ≤ vm.stack.length + 1) :
    vm₂.settable = none ∨
    ∃ vm', vm₂.settable = some vm' ∧ ∀ res, Filled rest vm' res → Filled False vm res := by
  cases set : vm₂.settable with
  | none => exact .inl rfl
  | some vm' =>
      refine .inr ⟨vm', rfl, fun res filled => ?_⟩
      have two := settable_length set
      constructor
      · intro u r returned
        obtain ⟨zero, fewer⟩ := filled.fewer u r returned
        exact ⟨zero, by omega⟩
      · intro _ u r returned
        obtain ⟨-, fewer⟩ := filled.fewer u r returned
        omega
      · exact fun impossible => impossible.elim

/-- One key and its value, with the parts behind them. -/
theorem filled_pair {vm₂ : Vm} {good rest : Prop} {whole : Unpacked → Prop}
    (pair : (∃ k v tables, vm₂ = ⟨v :: k :: vm.stack, tables⟩ ∧ (k.badKey = false ↔ good)) ∨
      ¬ good ∧ vm₂.stack.length ≤ vm.stack.length + 1)
    (stops : vm₂.settable = none → whole .stopped)
    (onward : ∀ vm', vm₂.settable = some vm' → ∃ res, whole res ∧ Filled rest vm' res) :
    ∃ res, whole res ∧ Filled (good ∧ rest) vm res := by
  rcases pair with ⟨k, v, tables, rfl, key⟩ | ⟨bad, fewer⟩
  · have same : k.badKey = false ∧ rest ↔ good ∧ rest := and_congr_left' key
    rcases assign vm k v tables with ⟨none, filled⟩ | ⟨vm', set, next⟩
    · exact ⟨.stopped, stops none, filled.iff same⟩
    · obtain ⟨res, run, filled⟩ := onward vm' set
      exact ⟨res, run, (next res filled).iff same⟩
  · have lost : False ↔ good ∧ rest := iff_of_false id fun both => bad both.1
    rcases misassign vm fewer with none | ⟨vm', set, next⟩
    · exact ⟨.stopped, stops none, (Filled.stopped id).iff lost⟩
    · obtain ⟨res, run, filled⟩ := onward vm' set
      exact ⟨res, run, (next res filled).iff lost⟩

/-! ## The parts of a container -/

/-- What a call does: it puts a value on the stack, or refuses the object, or it returns
with less than that on the stack, or does not return. -/
inductive Outcome (host : Host ρ) (payload : ρ → List UInt8) (cells : List (Obj ρ)) (o : Obj ρ)
    (vm : Vm) : Unpacked → Prop where
  | pushed (convertible : host.Convertible payload cells o) (v : LuaValue) (tables : ℕ)
      (key : v.badKey = host.badKey payload cells o) :
      Outcome host payload cells o vm (.returned ⟨v :: vm.stack, tables⟩ 0)
  | refused (unable : ¬ host.Convertible payload cells o) (refused : Refused cells o) :
      Outcome host payload cells o vm (.returned vm einval)
  | short (unable : ¬ host.Convertible payload cells o) (known : ¬ Refused cells o) (vm' : Vm)
      (fewer : vm'.stack.length ≤ vm.stack.length) :
      Outcome host payload cells o vm (.returned vm' 0)
  | stopped (unable : ¬ host.Convertible payload cells o) (known : ¬ Refused cells o) :
      Outcome host payload cells o vm .stopped

def Settles (host : Host ρ) (payload : ρ → List UInt8) (cells : List (Obj ρ)) (o : Obj ρ) : Prop :=
  ∀ vm, ∃ res, Yields (fun fuel => host.unpackStack payload cells fuel (some o) vm) res ∧
    Outcome host payload cells o vm res

/-- A call that does not stop puts a value on the stack, or leaves too little. -/
theorem Outcome.returned {r : Int}
    (outcome : Outcome host payload cells o vm (.returned vm' r)) :
    (host.Convertible payload cells o ∧ ∃ v tables, vm' = ⟨v :: vm.stack, tables⟩ ∧
      v.badKey = host.badKey payload cells o) ∨
    ¬ host.Convertible payload cells o ∧ vm'.stack.length ≤ vm.stack.length := by
  cases outcome with
  | pushed convertible v tables key => exact .inl ⟨convertible, v, tables, rfl, key⟩
  | refused unable => exact .inr ⟨unable, le_rfl⟩
  | short unable known _ fewer => exact .inr ⟨unable, fewer⟩

theorem Outcome.stopped_unable (outcome : Outcome host payload cells o vm .stopped) :
    ¬ host.Convertible payload cells o := by
  cases outcome with
  | stopped unable => exact unable

/-- The elements of an error object, from the index `i` on. -/
theorem unpackElems_filled (lawful : host.Lawful) {i : ℕ} (inside : ptr + size ≤ cells.length)
    (each : ∀ j, j < size → Settles host payload cells (cells.getD (ptr + j) .uninit)) :
    ∃ res, Yields (fun fuel => host.unpackElems payload cells fuel size i ptr vm) res ∧
      Filled (∀ j, j < size → host.Convertible payload cells (cells.getD (ptr + j) .uninit))
        vm res := by
  induction size generalizing i ptr vm with
  | zero => exact ⟨_, (yields_pure _).succ rfl, Filled.done fun _ none => absurd none (Nat.not_lt_zero _)⟩
  | succ size ih =>
      have there : cells[ptr]? = some (cells.getD ptr .uninit) := cell_there (by omega)
      have tail : ∀ j, j < size →
          Settles host payload cells (cells.getD (ptr + 1 + j) .uninit) := by
        intro j bound
        rw [Nat.add_right_comm]
        exact each (j + 1) (Nat.succ_lt_succ bound)
      have split : (∀ j, j < size + 1 →
            host.Convertible payload cells (cells.getD (ptr + j) .uninit)) ↔
          host.Convertible payload cells (cells.getD ptr .uninit) ∧
            ∀ j, j < size →
              host.Convertible payload cells (cells.getD (ptr + 1 + j) .uninit) := by
        rw [Nat.forall_lt_succ_left]
        simp only [Nat.add_right_comm ptr 1, Nat.add_assoc, Nat.add_zero]
      have key : (LuaValue.number (host.ofInt (i + 1))).badKey = false := lawful.ofInt _
      obtain ⟨first, run, outcome⟩ := each 0 (Nat.succ_pos _) (vm.push (.number (host.ofInt (i + 1))))
      rw [Nat.add_zero] at run outcome
      cases first with
      | stopped =>
          refine ⟨.stopped, Yields.succ rfl ?_, Filled.stopped fun all => ?_⟩
          · simp only [unpackElems, there]
            exact run.bind (yields_pure _)
          · exact outcome.stopped_unable (split.mp all).1
      | returned vm₁ r =>
          have settle : ∀ {set : Option Vm} {res : Unpacked}, vm₁.settable = set →
              Yields (fun fuel => set.elim (some .stopped) fun vm =>
                host.unpackElems payload cells fuel size (i + 1) (ptr + 1) vm) res →
              Yields (fun fuel => host.unpackElems payload cells fuel (size + 1) i ptr vm) res := by
            intro set res same rest
            refine Yields.succ rfl ?_
            simp only [unpackElems, there]
            refine run.bind ?_
            simp only [same]
            cases set with
            | none => exact rest
            | some vm' => exact rest
          rw [propext split]
          refine filled_pair ?_ (fun none => settle none (yields_pure _)) fun vm' set => ?_
          · rcases outcome.returned with ⟨convertible, v, tables, rfl, -⟩ | ⟨unable, fewer⟩
            · exact .inl ⟨_, v, tables, rfl, iff_of_true key convertible⟩
            · exact .inr ⟨unable, fewer⟩
          · have onward : ∃ res, Yields (fun fuel =>
                host.unpackElems payload cells fuel size (i + 1) (ptr + 1) vm') res ∧
                Filled _ vm' res := ih (show ptr + 1 + size ≤ cells.length by omega) tail
            obtain ⟨res, rest, filled⟩ := onward
            exact ⟨res, settle set rest, filled⟩

def GoodEntry (host : Host ρ) (payload : ρ → List UInt8) (cells : List (Obj ρ)) (ptr : ℕ) : Prop :=
  host.badKey payload cells (cells.getD ptr .uninit) = false ∧
    host.Convertible payload cells (cells.getD ptr .uninit) ∧
    host.Convertible payload cells (cells.getD (ptr + 1) .uninit)

/-- The entries of a map. -/
theorem unpackEntries_filled (inside : ptr + 2 * size ≤ cells.length)
    (keys : ∀ j, j < size → Settles host payload cells (cells.getD (ptr + 2 * j) .uninit))
    (vals : ∀ j, j < size → Settles host payload cells (cells.getD (ptr + 2 * j + 1) .uninit)) :
    ∃ res, Yields (fun fuel => host.unpackEntries payload cells fuel size ptr vm) res ∧
      Filled (∀ j, j < size → GoodEntry host payload cells (ptr + 2 * j)) vm res := by
  induction size generalizing ptr vm with
  | zero => exact ⟨_, (yields_pure _).succ rfl, Filled.done fun _ none => absurd none (Nat.not_lt_zero _)⟩
  | succ size ih =>
      have there : cells[ptr]? = some (cells.getD ptr .uninit) := cell_there (by omega)
      have there' : cells[ptr + 1]? = some (cells.getD (ptr + 1) .uninit) := cell_there (by omega)
      have place : ∀ j, ptr + 2 * (j + 1) = ptr + 2 + 2 * j := fun j => by omega
      have split : (∀ j, j < size + 1 → GoodEntry host payload cells (ptr + 2 * j)) ↔
          GoodEntry host payload cells ptr ∧
            ∀ j, j < size → GoodEntry host payload cells (ptr + 2 + 2 * j) := by
        rw [Nat.forall_lt_succ_left]
        simp only [place, Nat.mul_zero, Nat.add_zero]
      obtain ⟨first, run, outcome⟩ := keys 0 (Nat.succ_pos _) vm
      rw [Nat.mul_zero, Nat.add_zero] at run outcome
      cases first with
      | stopped =>
          refine ⟨.stopped, Yields.succ rfl ?_, Filled.stopped fun all => ?_⟩
          · simp only [unpackEntries, there]
            exact run.bind (yields_pure _)
          · exact outcome.stopped_unable (split.mp all).1.2.1
      | returned vm₁ r =>
          obtain ⟨second, run', outcome'⟩ := vals 0 (Nat.succ_pos _) vm₁
          rw [Nat.mul_zero, Nat.add_zero] at run' outcome'
          cases second with
          | stopped =>
              refine ⟨.stopped, Yields.succ rfl ?_, Filled.stopped fun all => ?_⟩
              · simp only [unpackEntries, there, there']
                exact run.bind (run'.bind (yields_pure _))
              · exact outcome'.stopped_unable (split.mp all).1.2.2
          | returned vm₂ r' =>
              have settle : ∀ {set : Option Vm} {res : Unpacked}, vm₂.settable = set →
                  Yields (fun fuel => set.elim (some .stopped) fun vm =>
                    host.unpackEntries payload cells fuel size (ptr + 2) vm) res →
                  Yields (fun fuel =>
                    host.unpackEntries payload cells fuel (size + 1) ptr vm) res := by
                intro set res same rest
                refine Yields.succ rfl ?_
                simp only [unpackEntries, there, there']
                refine run.bind (run'.bind ?_)
                simp only [same]
                cases set with
                | none => exact rest
                | some vm' => exact rest
              rw [propext split]
              refine filled_pair ?_ (fun none => settle none (yields_pure _)) fun vm' set => ?_
              · rcases outcome.returned with ⟨convertible, k, tables, rfl, key⟩ | ⟨unable, fewer⟩
                · rcases outcome'.returned with
                    ⟨convertible', v, tables', rfl, -⟩ | ⟨unable', fewer'⟩
                  · have both := And.intro convertible convertible'
                    exact .inl ⟨k, v, tables', rfl, by rw [GoodEntry, ← key, and_iff_left both]⟩
                  · exact .inr ⟨fun good => unable' good.2.2, fewer'⟩
                · refine .inr ⟨fun good => unable good.2.1, ?_⟩
                  rcases outcome'.returned with ⟨-, v, tables', rfl, -⟩ | ⟨-, fewer'⟩
                  · exact Nat.succ_le_succ fewer
                  · exact fewer'.trans (fewer.trans (Nat.le_succ _))
              · have onward : ∃ res, Yields (fun fuel =>
                    host.unpackEntries payload cells fuel size (ptr + 2) vm') res ∧
                    Filled (∀ j, j < size → GoodEntry host payload cells (ptr + 2 + 2 * j)) vm' res := by
                  refine ih (by omega) (fun j bound => ?_) fun j bound => ?_
                  · exact place j ▸ keys (j + 1) (Nat.succ_lt_succ bound)
                  · exact place j ▸ vals (j + 1) (Nat.succ_lt_succ bound)
                obtain ⟨res, rest, filled⟩ := onward
                exact ⟨res, settle set rest, filled⟩

/-! ## Arrays and maps -/

theorem unpackStack_untagged (untagged : tag cells size ptr = none) (fuel : ℕ) :
    host.unpackStack payload cells (fuel + 1) (some (.array size ptr)) vm = some .stopped := by
  have other : ∀ i64, elem cells size ptr 0 ≠ some (.integer i64) := by
    intro i64 first
    rw [tag, first] at untagged
    exact nomatch untagged
  rw [unpackStack]
  split
  · next first => exact absurd first (other _)
  · rfl

theorem tag_eq_some {kind : Int} (tagged : tag cells size ptr = some kind) :
    ∃ i64, elem cells size ptr 0 = some (.integer i64) ∧ intOfSize i64.toNat = kind := by
  unfold tag at tagged
  split at tagged
  · next i64 first => exact ⟨i64, first, Option.some.inj tagged⟩
  · cases tagged

theorem unpackStack_tagged {kind : Int} (tagged : tag cells size ptr = some kind) (fuel : ℕ) :
    host.unpackStack payload cells (fuel + 1) (some (.array size ptr)) vm =
      if kind = 6 then some (host.unpackFunction payload (elem cells size ptr 1) vm)
      else if kind = 7 then
        some (host.callCustomUnpack payload (elem cells size ptr 1) (elem cells size ptr 2) vm)
      else if kind < 0 then host.unpackElems payload cells fuel size 0 ptr vm.createtable
      else some (.returned vm einval) := by
  obtain ⟨i64, first, rfl⟩ := tag_eq_some tagged
  rw [unpackStack]
  split
  · next i64' first' =>
      obtain rfl : i64 = i64' := Obj.integer.inj (Option.some.inj (first.symm.trans first'))
      rfl
  · next other => exact absurd first (other _)

theorem not_convertible_untagged (untagged : tag cells size ptr = none) :
    ¬ host.Convertible payload cells (.array size ptr) := by
  intro convertible
  cases convertible with
  | function tagged => exact nomatch untagged.symm.trans tagged
  | custom tagged => exact nomatch untagged.symm.trans tagged
  | error tagged => exact nomatch untagged.symm.trans tagged

theorem convertible_tagged {kind : Int} (tagged : tag cells size ptr = some kind) :
    host.Convertible payload cells (.array size ptr) ↔
      (kind = 6 ∧ ∃ p n, elem cells size ptr 1 = some (.raw p n)) ∨
      (kind = 7 ∧ ∃ p n, elem cells size ptr 1 = some (.raw p n) ∧
        host.Ready ((payload p).take n) (elem cells size ptr 2)) ∨
      kind < 0 ∧ ∀ i, i < size → host.Convertible payload cells (cells.getD (ptr + i) .uninit) := by
  constructor
  · intro convertible
    cases convertible with
    | function six code => exact .inl ⟨Option.some.inj (tagged.symm.trans six), _, _, code⟩
    | custom seven name ready =>
        exact .inr (.inl ⟨Option.some.inj (tagged.symm.trans seven), _, _, name, ready⟩)
    | error tagged' negative each =>
        obtain rfl := Option.some.inj (tagged.symm.trans tagged')
        exact .inr (.inr ⟨negative, each⟩)
  · rintro (⟨rfl, p, n, code⟩ | ⟨rfl, p, n, name, ready⟩ | ⟨negative, each⟩)
    · exact .function tagged code
    · exact .custom tagged name ready
    · exact .error tagged negative each

theorem refused_tagged {kind : Int} (tagged : tag cells size ptr = some kind) :
    Refused cells (.array size ptr) ↔ 0 ≤ kind ∧ kind ≠ 6 ∧ kind ≠ 7 := by
  constructor
  · rintro ⟨size', ptr', kind', same, tagged', known⟩
    obtain ⟨rfl, rfl⟩ := Obj.array.inj same
    obtain rfl := Option.some.inj (tagged.symm.trans tagged')
    exact known
  · exact fun known => ⟨size, ptr, kind, rfl, tagged, known⟩

theorem refused_array (refused : Refused cells o) : ∃ size ptr, o = .array size ptr := by
  obtain ⟨size, ptr, -, same, -⟩ := refused
  exact ⟨size, ptr, same⟩

/-- An object that is refused is none that a value can be made of. -/
theorem Refused.unable (refused : Refused cells o) : ¬ host.Convertible payload cells o := by
  obtain ⟨size, ptr, kind, rfl, tagged, positive, six, seven⟩ := refused
  rw [convertible_tagged tagged]
  rintro (⟨is, -⟩ | ⟨is, -⟩ | ⟨negative, -⟩)
  · exact six is
  · exact seven is
  · exact positive.not_gt negative

/-- `unpack_function` pushes a value whenever there is a chunk. -/
theorem function_outcome (lawful : host.Lawful) (tagged : tag cells size ptr = some 6) :
    Outcome host payload cells (.array size ptr) vm
      (host.unpackFunction payload (elem cells size ptr 1) vm) := by
  have known : ¬ Refused cells (.array size ptr) := fun refused =>
    ((refused_tagged tagged).mp refused).2.1 rfl
  by_cases chunk : ∃ p n, elem cells size ptr 1 = some (.raw p n)
  · obtain ⟨p, n, code⟩ := chunk
    rw [code, unpackFunction]
    rw [if_neg (lawful.load _).not_gt]
    refine .pushed (.function tagged code) _ _ ?_
    simp only [badKey, tagged, code]
  · have stops : host.unpackFunction payload (elem cells size ptr 1) vm = .stopped := by
      unfold unpackFunction
      split
      · next code => exact absurd ⟨_, _, code⟩ chunk
      · rfl
    rw [stops]
    refine .stopped (fun convertible => ?_) known
    rcases (convertible_tagged tagged).mp convertible with ⟨-, code⟩ | ⟨seven, -⟩ | ⟨negative, -⟩
    · exact chunk code
    · exact absurd seven (by decide)
    · exact absurd negative (by decide)

/-- `call_custom_unpack` pushes a value whenever the module can be asked. -/
theorem custom_outcome (tagged : tag cells size ptr = some 7) :
    Outcome host payload cells (.array size ptr) vm (host.callCustomUnpack payload
      (elem cells size ptr 1) (elem cells size ptr 2) vm) := by
  have known : ¬ Refused cells (.array size ptr) := fun refused =>
    ((refused_tagged tagged).mp refused).2.2 rfl
  have unable : (∀ p n, elem cells size ptr 1 = some (.raw p n) →
      ¬ host.Ready ((payload p).take n) (elem cells size ptr 2)) →
      ¬ host.Convertible payload cells (.array size ptr) := by
    intro unready convertible
    rcases (convertible_tagged tagged).mp convertible with
      ⟨six, -⟩ | ⟨-, p, n, name, ready⟩ | ⟨negative, -⟩
    · exact absurd six (by decide)
    · exact unready p n name ready
    · exact absurd negative (by decide)
  by_cases named : ∃ p n, elem cells size ptr 1 = some (.raw p n)
  · obtain ⟨p, n, name⟩ := named
    have only : ¬ host.Ready ((payload p).take n) (elem cells size ptr 2) →
        ¬ host.Convertible payload cells (.array size ptr) := by
      intro unready
      refine unable fun p' n' name' => ?_
      obtain ⟨rfl, rfl⟩ := Obj.raw.inj (Option.some.inj (name.symm.trans name'))
      exact unready
    rw [name, callCustomUnpack]
    cases module : host.custom ((payload p).take n) with
    | raises =>
        refine .stopped (only ?_) known
        rw [Ready, module]
        exact id
    | absent =>
        refine .pushed (.custom tagged name ?_) _ _ ?_
        · rw [Ready, module]
          trivial
        · simp only [badKey, tagged, name, made, module]
    | unpacks unpack =>
        cases packed : elem cells size ptr 2 with
        | none =>
            refine .stopped (only ?_) known
            rw [Ready, module, packed]
            exact nofun
        | some object =>
            refine .pushed (.custom tagged name ?_) _ _ ?_
            · rw [Ready, module, packed]
              rfl
            · simp only [badKey, tagged, name, made, module, packed]
  · have stops : host.callCustomUnpack payload (elem cells size ptr 1) (elem cells size ptr 2) vm =
        .stopped := by
      unfold callCustomUnpack
      split
      · next name => exact absurd ⟨_, _, name⟩ named
      · rfl
    rw [stops]
    exact .stopped (unable fun p n name => absurd ⟨p, n, name⟩ named) known

theorem createtable_stack : vm.createtable.stack = .table vm.tables .absent [] :: vm.stack := rfl

/-- What a call does for a container, by what its loop leaves. -/
theorem Filled.outcome {good : Prop} (filled : Filled good vm.createtable res)
    (converts : good → host.Convertible payload cells o)
    (parts : host.Convertible payload cells o → good) (known : ¬ Refused cells o)
    (key : false = host.badKey payload cells o) : Outcome host payload cells o vm res := by
  by_cases whole : good
  · obtain ⟨entries, tables, rfl⟩ := filled.whole whole _ _ _ _ createtable_stack
    exact .pushed (converts whole) _ _ key
  · have unable := mt parts whole
    cases res with
    | stopped => exact .stopped unable known
    | returned vm' r =>
        obtain ⟨rfl, -⟩ := filled.fewer vm' r rfl
        have lost := filled.lost whole vm' 0 rfl
        exact .short unable known vm' (Nat.le_of_lt_succ lost)

/-- An array, where its elements settle. -/
theorem array_settles (lawful : host.Lawful) (inside : ptr + size ≤ cells.length)
    (each : ∀ j, j < size → Settles host payload cells (cells.getD (ptr + j) .uninit)) :
    Settles host payload cells (.array size ptr) := by
  intro vm
  cases tagged : tag cells size ptr with
  | none =>
      refine ⟨.stopped, Yields.succ rfl ?_, .stopped (not_convertible_untagged tagged) ?_⟩
      · simp only [unpackStack_untagged tagged]
        exact yields_pure _
      · rintro ⟨size', ptr', kind, same, tagged', -⟩
        obtain ⟨rfl, rfl⟩ := Obj.array.inj same
        exact nomatch tagged.symm.trans tagged'
  | some kind =>
      by_cases six : kind = 6
      · subst six
        refine ⟨_, Yields.succ rfl ?_, function_outcome lawful tagged⟩
        simp only [unpackStack_tagged tagged, if_true]
        exact yields_pure _
      · by_cases seven : kind = 7
        · subst seven
          refine ⟨_, Yields.succ rfl ?_, custom_outcome tagged⟩
          simp only [unpackStack_tagged tagged, if_neg six, if_true]
          exact yields_pure _
        · by_cases negative : kind < 0
          · obtain ⟨res, run, filled⟩ := @unpackElems_filled _ host payload cells size ptr
              vm.createtable lawful 0 inside each
            refine ⟨res, Yields.succ rfl ?_, ?_⟩
            · simp only [unpackStack_tagged tagged, if_neg six, if_neg seven, if_pos negative]
              exact run
            · refine filled.outcome (fun good => .error tagged negative good) ?_ ?_ ?_
              · intro convertible
                rcases (convertible_tagged tagged).mp convertible with ⟨is, -⟩ | ⟨is, -⟩ | ⟨-, good⟩
                · exact absurd is six
                · exact absurd is seven
                · exact good
              · exact fun refused => ((refused_tagged tagged).mp refused).1.not_gt negative
              · simp only [badKey, tagged]
                split
                · next is _ => exact absurd (Option.some.inj is) six
                · next is _ => exact absurd (Option.some.inj is) seven
                · rfl
          · have unable : ¬ host.Convertible payload cells (.array size ptr) := by
              rw [convertible_tagged tagged]
              rintro (⟨is, -⟩ | ⟨is, -⟩ | ⟨is, -⟩)
              · exact six is
              · exact seven is
              · exact negative is
            refine ⟨_, Yields.succ rfl ?_, .refused unable ?_⟩
            · simp only [unpackStack_tagged tagged, if_neg six, if_neg seven, if_neg negative]
              exact yields_pure _
            · exact (refused_tagged tagged).mpr ⟨Int.not_lt.mp negative, six, seven⟩

/-- A map, where its keys and values settle. -/
theorem map_settles (inside : ptr + 2 * size ≤ cells.length)
    (keys : ∀ j, j < size → Settles host payload cells (cells.getD (ptr + 2 * j) .uninit))
    (vals : ∀ j, j < size → Settles host payload cells (cells.getD (ptr + 2 * j + 1) .uninit)) :
    Settles host payload cells (.map size ptr) := by
  intro vm
  obtain ⟨res, run, filled⟩ := @unpackEntries_filled _ host payload cells size ptr vm.createtable
    inside keys vals
  refine ⟨res, Yields.succ rfl run, filled.outcome (fun good => ?_) (fun convertible => ?_) ?_ rfl⟩
  · exact .map (fun i bound => (good i bound).2.1) (fun i bound => (good i bound).1)
      fun i bound => (good i bound).2.2
  · cases convertible with
    | map keys good vals => exact fun i bound => ⟨good i bound, keys i bound, vals i bound⟩
  · intro refused
    obtain ⟨_, _, same⟩ := refused_array refused
    exact nomatch same

/-- Every decoded object settles. -/
theorem shown_settles {d : Data} (lawful : host.Lawful) (shows : Shows payload cells o d) :
    Settles host payload cells o := by
  have scalar : ∀ {o : Obj ρ} {v : LuaValue}, host.Convertible payload cells o →
      v.badKey = host.badKey payload cells o →
      (∀ vm fuel, host.unpackStack payload cells (fuel + 1) (some o) vm =
        some (.returned (vm.push v) 0)) → Settles host payload cells o := by
    intro o v convertible key calls vm
    refine ⟨_, Yields.succ rfl ?_, .pushed convertible v vm.tables key⟩
    simp only [calls]
    exact yields_pure _
  induction shows with
  | nil => exact scalar .nil rfl fun _ _ => rfl
  | boolean f => exact scalar (.boolean f) rfl fun _ _ => rfl
  | integer i64 => exact scalar (.integer i64) (lawful.ofInt _) fun _ _ => rfl
  | double held dec same => exact scalar (.double held) rfl fun _ _ => rfl
  | raw ptr => exact scalar (.raw ptr _) rfl fun _ _ => rfl
  | array elems ptr inside each ih => exact array_settles lawful inside ih
  | map entries ptr inside keys vals keysSettle valsSettle =>
      exact map_settles inside keysSettle valsSettle

/-- A call keeps its promise for the objects that can be made values of and for those
that are refused. -/
theorem Outcome.disciplined_iff (outcome : Outcome host payload cells o vm res) :
    Disciplined vm res ↔ host.Convertible payload cells o ∨ Refused cells o := by
  cases outcome with
  | pushed convertible v tables => exact iff_of_true (.pushed v tables 0 le_rfl) (.inl convertible)
  | refused unable refused =>
      exact iff_of_true (.failed vm.tables einval (by decide)) (.inr refused)
  | short unable known vm' fewer =>
      refine iff_of_false (fun disciplined => ?_) (not_or.mpr ⟨unable, known⟩)
      cases disciplined with
      | pushed v tables => exact absurd fewer (Nat.not_succ_le_self _)
      | failed tables _ negative => exact absurd negative (by decide)
  | stopped unable known => exact iff_of_false nofun (not_or.mpr ⟨unable, known⟩)

end Host

end Cyue.Lua
