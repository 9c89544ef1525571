import Cyue.Lua.Discipline
import Cyue.Rpc.Validate

/-!
# The values of a response

`unpack_response_to_stack` puts a boolean on the stack, and then the error of the
response or its values.  It takes all of them back where a call of `unpack_stack` fails.
-/

namespace Cyue.Lua

open Mpak Rpc Fuel

variable {ρ : Type}

def Vm.settop (vm : Vm) (top : ℕ) : Vm :=
  { vm with
    stack := List.replicate (top - vm.stack.length) .nil ++ vm.stack.drop (vm.stack.length - top) }

namespace Host

section
variable (host : Host ρ) (payload : ρ → List UInt8) (cells : List (Obj ρ))

def unpackValues (fuel : ℕ) : ℕ → ℕ → Vm → Option Unpacked
  | 0, _, vm => some (.returned vm 0)
  | size + 1, ptr, vm =>
    (host.unpackStack payload cells fuel cells[ptr]? vm).bind fun
      | .stopped => some .stopped
      | .returned vm r =>
        if r < 0 then some (.returned vm r) else unpackValues fuel size (ptr + 1) vm

/-- The end of `unpack_response_to_stack`, for so many values. -/
def finish (top : ℕ) (al : Int) : Unpacked → Unpacked
  | .stopped => .stopped
  | .returned vm r => if r < 0 then .returned (vm.settop top) r else .returned vm (al + 1)

def unpackResponseToStack (fuel : ℕ) (o : Option (Obj ρ)) (vm : Vm) : Option Unpacked :=
  match o with
  | some (.array size ptr) =>
    match elem cells size ptr 0, elem cells size ptr 2 with
    | some (.integer t), some error =>
      if t.toUInt32.toUInt8 = 1 then
        match error with
        | .nil =>
          match elem cells size ptr 3 with
          | some (.array al first) =>
            (host.unpackValues payload cells fuel (intOfSize al).toNat first
              (vm.push (.boolean true))).map (finish vm.stack.length (intOfSize al))
          | some (.map al _) =>
            -- `elem` is for arrays only, but there may be no element
            if 0 < intOfSize al then some .stopped
            else some (.returned (vm.push (.boolean true)) (intOfSize al + 1))
          | _ => some .stopped
        | error =>
          (host.unpackStack payload cells fuel (some error) (vm.push (.boolean false))).map
            (finish vm.stack.length 1)
      else some .stopped
    | _, _ => some .stopped
  | _ => some .stopped

/-- All values up to the first one that is refused can be made. -/
def Values : ℕ → ℕ → Prop
  | 0, _ => True
  | size + 1, ptr =>
    Refused cells (cells.getD ptr .uninit) ∨
      host.Convertible payload cells (cells.getD ptr .uninit) ∧ Values size (ptr + 1)

/-- The calls of `unpack_stack` in the loop keep their promise. -/
def ValuesKept : ℕ → ℕ → Vm → Prop
  | 0, _, _ => True
  | size + 1, ptr, vm =>
    ∀ res, Yields (fun fuel => host.unpackStack payload cells fuel cells[ptr]? vm) res →
      Disciplined vm res ∧
        ∀ vm' r, res = .returned vm' r → 0 ≤ r → ValuesKept size (ptr + 1) vm'

end

variable {host : Host ρ} {payload : ρ → List UInt8} {cells : List (Obj ρ)}
  {o : Obj ρ} {size ptr : ℕ} {vm : Vm} {res : Unpacked}

def Valued (vm : Vm) (size : ℕ) (res : Unpacked) : Prop :=
  ∃ vs tables r, res = .returned ⟨vs ++ vm.stack, tables⟩ r ∧ (r < 0 ∨ vs.length = size)

/-- The values of a response. -/
theorem unpackValues_kept (inside : ptr + size ≤ cells.length)
    (each : ∀ j, j < size → Settles host payload cells (cells.getD (ptr + j) .uninit)) :
    (ValuesKept host payload cells size ptr vm ↔ Values host payload cells size ptr) ∧
    ∃ res, Yields (fun fuel => host.unpackValues payload cells fuel size ptr vm) res ∧
      (Values host payload cells size ptr → Valued vm size res) := by
  induction size generalizing ptr vm with
  | zero => exact ⟨Iff.rfl, _, yields_pure _, fun _ => ⟨[], vm.tables, 0, rfl, .inr rfl⟩⟩
  | succ size ih =>
      have there : cells[ptr]? = some (cells.getD ptr .uninit) := cell_there (by omega)
      have rest : ∀ vm', (ValuesKept host payload cells size (ptr + 1) vm' ↔
            Values host payload cells size (ptr + 1)) ∧
          ∃ res, Yields (fun fuel => host.unpackValues payload cells fuel size (ptr + 1) vm') res ∧
            (Values host payload cells size (ptr + 1) → Valued vm' size res) := by
        intro vm'
        refine ih (by omega) fun j bound => ?_
        rw [Nat.add_right_comm]
        exact each (j + 1) (Nat.succ_lt_succ bound)
      obtain ⟨first, run, outcome⟩ := each 0 (Nat.succ_pos _) vm
      rw [Nat.add_zero] at run outcome
      have kept : ValuesKept host payload cells (size + 1) ptr vm ↔ Disciplined vm first ∧
          ∀ vm' r, first = .returned vm' r → 0 ≤ r →
            ValuesKept host payload cells size (ptr + 1) vm' := by
        rw [ValuesKept, there]
        constructor
        · exact fun all => all first run
        · intro here res other
          obtain rfl := run.unique other
          exact here
      have step : ∀ {res : Unpacked}, Yields (fun fuel => match first with
            | .stopped => some .stopped
            | .returned vm r =>
              if r < 0 then some (.returned vm r)
              else host.unpackValues payload cells fuel size (ptr + 1) vm) res →
          Yields (fun fuel => host.unpackValues payload cells fuel (size + 1) ptr vm) res := by
        intro res rest
        simp only [unpackValues, there]
        exact run.bind rest
      have disciplined := outcome.disciplined_iff
      rw [kept, Values, disciplined]
      cases outcome with
      | pushed convertible v tables =>
          obtain ⟨same, res, third, valued⟩ := rest ⟨v :: vm.stack, tables⟩
          have known : ¬ Refused cells (cells.getD ptr .uninit) := fun refused =>
            refused.unable convertible
          constructor
          · rw [or_iff_left known, or_iff_right known, ← same]
            refine and_congr_right fun _ => ⟨fun all => all _ 0 rfl le_rfl, fun here vm' r is _ => ?_⟩
            cases is
            exact here
          · refine ⟨res, step third, fun values => ?_⟩
            obtain ⟨vs, tables', r, rfl, ends⟩ := valued (values.resolve_left known).2
            refine ⟨vs ++ [v], tables', r, by simp, ends.imp_right fun whole => ?_⟩
            simp [whole]
      | refused unable refused =>
          constructor
          · refine iff_of_true ⟨.inr refused, fun vm' r is success => ?_⟩ (.inl refused)
            cases is
            exact absurd success (by decide)
          · exact ⟨.returned vm einval, step (yields_pure _), fun _ =>
              ⟨[], vm.tables, einval, rfl, .inl (by decide)⟩⟩
      | short unable known vm' =>
          obtain ⟨-, res, third, -⟩ := rest vm'
          constructor
          · exact iff_of_false (fun both => both.1.elim unable known) fun either =>
              either.elim known fun both => unable both.1
          · exact ⟨res, step third, fun either =>
              (either.elim known fun both => unable both.1).elim⟩
      | stopped unable known =>
          constructor
          · exact iff_of_false (fun both => both.1.elim unable known) fun either =>
              either.elim known fun both => unable both.1
          · exact ⟨.stopped, step (yields_pure _), fun either =>
              (either.elim known fun both => unable both.1).elim⟩

/-! ## The whole call -/

section
variable (host : Host ρ) (payload : ρ → List UInt8) (cells : List (Obj ρ))

def IsResponse (size ptr : ℕ) : Prop :=
  ∃ t, elem cells size ptr 0 = some (.integer t) ∧ t.toUInt32.toUInt8 = 1

/-- The error of a response is one, or there is none and all values up to the first one
that is refused can be made. -/
def Sendable (size ptr : ℕ) (error : Obj ρ) : Prop :=
  error ≠ .nil ∧ (host.Convertible payload cells error ∨ Refused cells error) ∨
    error = .nil ∧
      ((∃ al first, ∃ n : ℕ, elem cells size ptr 3 = some (.array al first) ∧
          intOfSize al = n ∧ Values host payload cells n first) ∨
        ∃ al first, elem cells size ptr 3 = some (.map al first) ∧ intOfSize al = 0)

/-- A response message whose error, or the values up to the first one that is refused,
`unpack_stack` can make values of. -/
def Answerable (o : Obj ρ) : Prop :=
  ∃ size ptr error, o = .array size ptr ∧ IsResponse cells size ptr ∧
    elem cells size ptr 2 = some error ∧ Sendable host payload cells size ptr error

/-- The calls of `unpack_stack` for a response keep their promise. -/
def CallsKept (o : Obj ρ) (vm : Vm) : Prop :=
  ∀ size ptr error, o = .array size ptr → elem cells size ptr 2 = some error →
    (error ≠ .nil → ∀ res, Yields (fun fuel =>
        host.unpackStack payload cells fuel (some error) (vm.push (.boolean false))) res →
      Disciplined (vm.push (.boolean false)) res) ∧
    (error = .nil → ∀ al first, ∀ n : ℕ, elem cells size ptr 3 = some (.array al first) →
      intOfSize al = n → ValuesKept host payload cells n first (vm.push (.boolean true)))

end

end Host

/-- The promise about `unpack_response_to_stack`: as many values as it returns, or a
negative result and the same stack. -/
inductive Answered (vm : Vm) : Unpacked → Prop where
  | pushed (vs : List LuaValue) (tables : ℕ) :
      Answered vm (.returned ⟨vs ++ vm.stack, tables⟩ vs.length)
  | failed (tables : ℕ) (r : Int) (negative : r < 0) :
      Answered vm (.returned ⟨vm.stack, tables⟩ r)

namespace Host

variable {host : Host ρ} {payload : ρ → List UInt8} {cells : List (Obj ρ)}
  {o : Obj ρ} {size ptr : ℕ} {vm : Vm} {res : Unpacked}

/-- An element that is there. -/
theorem elem_some {n : ℕ} {e : Obj ρ} (there : elem cells size ptr n = some e) :
    n < size ∧ cells.getD (ptr + n) .uninit = e := by
  unfold elem at there
  split at there
  · next bound =>
      rw [List.getD_eq_getElem?_getD, there]
      exact ⟨bound, rfl⟩
  · exact nomatch there

/-- Everything above the given values is taken back. -/
theorem settop_append (vs stack : List LuaValue) (tables : ℕ) :
    (⟨vs ++ stack, tables⟩ : Vm).settop stack.length = ⟨stack, tables⟩ := by
  rw [Vm.settop, List.length_append, Nat.sub_eq_zero_of_le (Nat.le_add_left _ _),
    Nat.add_sub_cancel, List.drop_left]
  rfl

/-- The boolean alone is the answer with no values only. -/
theorem answered_boolean {al : Int} (negative : ¬ 0 ≤ al) :
    ¬ Answered vm (finish vm.stack.length al (.returned (vm.push (.boolean true)) 0)) := by
  have ends : finish vm.stack.length al (.returned (vm.push (.boolean true)) 0) =
      .returned (vm.push (.boolean true)) (al + 1) := rfl
  rw [ends]
  generalize returned : Unpacked.returned (vm.push (.boolean true)) (al + 1) = res
  intro answered
  cases answered with
  | pushed vs tables =>
      obtain ⟨same, count⟩ := Unpacked.returned.inj returned
      have lengths := congrArg (fun vm => vm.stack.length) same
      simp only [Vm.push, List.length_cons, List.length_append] at lengths
      omega
  | failed tables r =>
      obtain ⟨same, -⟩ := Unpacked.returned.inj returned
      have lengths := congrArg (fun vm => vm.stack.length) same
      exact absurd lengths (Nat.succ_ne_self _)

/-- The end of the call, for the boolean and so many values. -/
theorem finish_answered {b : LuaValue} (al : ℕ) (valued : Valued (vm.push b) al res) :
    Answered vm (finish vm.stack.length al res) := by
  obtain ⟨vs, tables, r, rfl, ends⟩ := valued
  have stack : vs ++ (vm.push b).stack = (vs ++ [b]) ++ vm.stack := by
    rw [List.append_assoc]
    rfl
  rw [stack, finish]
  split
  · next negative =>
      rw [settop_append]
      exact .failed tables r negative
  · next success =>
      obtain rfl := ends.resolve_left success
      have count : ((vs.length : Int) + 1) = ((vs ++ [b]).length : ℕ) := by simp
      rw [count]
      exact .pushed (vs ++ [b]) tables

section

variable {fuel : ℕ}

theorem response_error {error : Obj ρ} (response : IsResponse cells size ptr)
    (there : elem cells size ptr 2 = some error) (failed : error ≠ .nil) :
    host.unpackResponseToStack payload cells fuel (some (.array size ptr)) vm =
      (host.unpackStack payload cells fuel (some error) (vm.push (.boolean false))).map
        (finish vm.stack.length 1) := by
  obtain ⟨t, first, type⟩ := response
  simp only [unpackResponseToStack, first, there, if_pos type]

theorem response_values {al first : ℕ} (response : IsResponse cells size ptr)
    (there : elem cells size ptr 2 = some .nil)
    (values : elem cells size ptr 3 = some (.array al first)) :
    host.unpackResponseToStack payload cells fuel (some (.array size ptr)) vm =
      (host.unpackValues payload cells fuel (intOfSize al).toNat first
        (vm.push (.boolean true))).map (finish vm.stack.length (intOfSize al)) := by
  obtain ⟨t, first, type⟩ := response
  simp only [unpackResponseToStack, first, there, if_pos type, values]

theorem response_map {al first : ℕ} (response : IsResponse cells size ptr)
    (there : elem cells size ptr 2 = some .nil)
    (values : elem cells size ptr 3 = some (.map al first)) :
    host.unpackResponseToStack payload cells fuel (some (.array size ptr)) vm =
      if 0 < intOfSize al then some .stopped
      else some (.returned (vm.push (.boolean true)) (intOfSize al + 1)) := by
  obtain ⟨t, first, type⟩ := response
  simp only [unpackResponseToStack, first, there, if_pos type, values]

theorem response_stops (bad : ∀ error, IsResponse cells size ptr →
      elem cells size ptr 2 = some error → error = .nil ∧
        (∀ al first, elem cells size ptr 3 ≠ some (.array al first)) ∧
        ∀ al first, elem cells size ptr 3 ≠ some (.map al first)) :
    host.unpackResponseToStack payload cells fuel (some (.array size ptr)) vm = some .stopped := by
  rw [unpackResponseToStack]
  split
  · next t error first there =>
      split
      · next type =>
          obtain ⟨rfl, array, map⟩ := bad error ⟨t, first, type⟩ there
          dsimp only
          split
          · next values => exact absurd values (array _ _)
          · next values => exact absurd values (map _ _)
          · rfl
      · rfl
  · rfl

/-- What the switch on the answer comes to, where there is none to read. -/
theorem unread_response (none : ¬ ∃ error, IsResponse cells size ptr ∧
      elem cells size ptr 2 = some error ∧ (error = .nil →
        (∃ al first, elem cells size ptr 3 = some (.array al first)) ∨
          ∃ al first, elem cells size ptr 3 = some (.map al first))) {error : Obj ρ}
    (response : IsResponse cells size ptr) (there : elem cells size ptr 2 = some error) :
    error = .nil ∧ (∀ al first, elem cells size ptr 3 ≠ some (.array al first)) ∧
      ∀ al first, elem cells size ptr 3 ≠ some (.map al first) := by
  have none := fun values => none ⟨error, response, there, values⟩
  obtain ⟨nil, neither⟩ := Classical.not_imp.mp none
  obtain ⟨array, map⟩ := not_or.mp neither
  exact ⟨nil, fun al first is => array ⟨al, first, is⟩, fun al first is => map ⟨al, first, is⟩⟩

end

theorem answerable_array : host.Answerable payload cells (.array size ptr) ↔
    IsResponse cells size ptr ∧ ∃ error, elem cells size ptr 2 = some error ∧
      Sendable host payload cells size ptr error := by
  constructor
  · rintro ⟨size', ptr', error, same, response, there, sendable⟩
    obtain ⟨rfl, rfl⟩ := Obj.array.inj same
    exact ⟨response, error, there, sendable⟩
  · rintro ⟨response, error, there, sendable⟩
    exact ⟨size, ptr, error, rfl, response, there, sendable⟩

/-- The error of a response. -/
theorem error_kept {error : Obj ρ} (response : IsResponse cells size ptr)
    (there : elem cells size ptr 2 = some error) (failed : error ≠ .nil)
    (settles : Settles host payload cells error) :
    ∃ res, Yields (fun fuel => host.unpackResponseToStack payload cells fuel
        (some (.array size ptr)) vm) res ∧
      (Answered vm res ∧ host.CallsKept payload cells (.array size ptr) vm ↔
        Sendable host payload cells size ptr error) := by
  obtain ⟨inner, run, outcome⟩ := settles (vm.push (.boolean false))
  refine ⟨finish vm.stack.length 1 inner, ?_, ?_⟩
  · simp only [response_error response there failed]
    exact run.map _
  · have sendable : Sendable host payload cells size ptr error ↔
        host.Convertible payload cells error ∨ Refused cells error := by
      rw [Sendable, or_iff_left fun no => failed no.1, and_iff_right failed]
    rw [sendable, ← outcome.disciplined_iff]
    constructor
    · rintro ⟨-, kept⟩
      exact (kept size ptr error rfl there).1 failed inner run
    · intro disciplined
      constructor
      · have valued : Valued (vm.push (.boolean false)) 1 inner := by
          cases disciplined with
          | pushed v tables r => exact ⟨[v], tables, r, rfl, .inr rfl⟩
          | failed tables r negative => exact ⟨[], tables, r, rfl, .inl negative⟩
        exact finish_answered 1 valued
      · intro size' ptr' error' same there'
        obtain ⟨rfl, rfl⟩ := Obj.array.inj same
        obtain rfl := Option.some.inj (there.symm.trans there')
        refine ⟨fun _ res other => ?_, fun none => absurd none failed⟩
        rw [run.unique other]
        exact disciplined

/-- The values of a response without an error. -/
theorem values_kept {al first : ℕ} (response : IsResponse cells size ptr)
    (there : elem cells size ptr 2 = some .nil)
    (values : elem cells size ptr 3 = some (.array al first)) (inside : first + al ≤ cells.length)
    (each : ∀ j, j < al → Settles host payload cells (cells.getD (first + j) .uninit)) :
    ∃ res, Yields (fun fuel => host.unpackResponseToStack payload cells fuel
        (some (.array size ptr)) vm) res ∧
      (Answered vm res ∧ host.CallsKept payload cells (.array size ptr) vm ↔
        Sendable host payload cells size ptr .nil) := by
  have few := intOfSize_le al
  have reads : ∀ fuel, host.unpackResponseToStack payload cells fuel (some (.array size ptr)) vm =
      (host.unpackValues payload cells fuel (intOfSize al).toNat first
        (vm.push (.boolean true))).map (finish vm.stack.length (intOfSize al)) :=
    fun fuel => response_values response there values
  have sendable : ∀ count, intOfSize al = count →
      (Sendable host payload cells size ptr .nil ↔
        ∃ n : ℕ, count = n ∧ Values host payload cells n first) := by
    rintro count rfl
    constructor
    · rintro (⟨failed, -⟩ | ⟨-, ⟨al', first', n, values', here⟩ | ⟨al', first', map, -⟩⟩)
      · exact absurd rfl failed
      · obtain ⟨rfl, rfl⟩ := Obj.array.inj (Option.some.inj (values.symm.trans values'))
        exact ⟨n, here⟩
      · exact nomatch values.symm.trans map
    · exact fun ⟨n, here⟩ => .inr ⟨rfl, .inl ⟨al, first, n, values, here⟩⟩
  have calls : ∀ count, intOfSize al = count →
      (host.CallsKept payload cells (.array size ptr) vm ↔ ∀ n : ℕ, count = n →
        ValuesKept host payload cells n first (vm.push (.boolean true))) := by
    rintro count rfl
    constructor
    · exact fun kept n is => (kept size ptr .nil rfl there).2 rfl al first n values is
    · intro kept size' ptr' error' equal there'
      obtain ⟨rfl, rfl⟩ := Obj.array.inj equal
      obtain rfl := Option.some.inj (there.symm.trans there')
      refine ⟨fun failed => absurd rfl failed, fun _ al' first' n values' is => ?_⟩
      obtain ⟨rfl, rfl⟩ := Obj.array.inj (Option.some.inj (values.symm.trans values'))
      exact kept n is
  generalize intOfSize al = count at few reads sendable calls
  have sendable := sendable count rfl
  have calls := calls count rfl
  rcases lt_or_ge count 0 with negative | positive
  · have none : count.toNat = 0 := Int.toNat_eq_zero.mpr negative.le
    refine ⟨finish vm.stack.length count (.returned (vm.push (.boolean true)) 0), ?_, ?_⟩
    · simp only [reads, none, unpackValues]
      exact (yields_pure _).map _
    · refine iff_of_false (fun both => answered_boolean negative.not_ge both.1) ?_
      rw [sendable]
      rintro ⟨n, rfl, -⟩
      exact absurd (Int.natCast_nonneg n) negative.not_ge
  · obtain ⟨n, rfl⟩ := Int.eq_ofNat_of_zero_le positive
    obtain ⟨same, inner, run, valued⟩ := @unpackValues_kept _ host payload cells n first
      (vm.push (.boolean true)) (by omega) fun j bound => each j (by omega)
    refine ⟨finish vm.stack.length n inner, ?_, ?_⟩
    · simp only [reads]
      exact run.map _
    · rw [sendable, calls]
      constructor
      · exact fun both => ⟨n, rfl, same.mp (both.2 n rfl)⟩
      · rintro ⟨m, is, made⟩
        obtain rfl := Int.ofNat.inj is
        refine ⟨finish_answered n (valued made), fun m is => ?_⟩
        obtain rfl := Int.ofNat.inj is
        exact same.mpr made

/-- A map in the place of the values, which may be empty only. -/
theorem map_kept {al first : ℕ} (response : IsResponse cells size ptr)
    (there : elem cells size ptr 2 = some .nil)
    (values : elem cells size ptr 3 = some (.map al first)) :
    ∃ res, Yields (fun fuel => host.unpackResponseToStack payload cells fuel
        (some (.array size ptr)) vm) res ∧
      (Answered vm res ∧ host.CallsKept payload cells (.array size ptr) vm ↔
        Sendable host payload cells size ptr .nil) := by
  have reads : ∀ fuel, host.unpackResponseToStack payload cells fuel (some (.array size ptr)) vm =
      if 0 < intOfSize al then some .stopped
      else some (.returned (vm.push (.boolean true)) (intOfSize al + 1)) :=
    fun fuel => response_map response there values
  have sendable : Sendable host payload cells size ptr .nil ↔ intOfSize al = 0 := by
    constructor
    · rintro (⟨failed, -⟩ | ⟨-, ⟨al', first', n, array, -⟩ | ⟨al', first', map, none⟩⟩)
      · exact absurd rfl failed
      · exact nomatch values.symm.trans array
      · obtain ⟨rfl, rfl⟩ := Obj.map.inj (Option.some.inj (values.symm.trans map))
        exact none
    · exact fun none => .inr ⟨rfl, .inr ⟨al, first, values, none⟩⟩
  have calls : host.CallsKept payload cells (.array size ptr) vm := by
    intro size' ptr' error equal there'
    obtain ⟨rfl, rfl⟩ := Obj.array.inj equal
    obtain rfl := Option.some.inj (there.symm.trans there')
    refine ⟨fun failed => absurd rfl failed, fun _ al' first' n array _ => ?_⟩
    exact nomatch values.symm.trans array
  rw [sendable]
  simp only [and_iff_left calls]
  generalize intOfSize al = count at reads
  by_cases positive : 0 < count
  · refine ⟨.stopped, ?_, iff_of_false nofun positive.ne'⟩
    simp only [reads, if_pos positive]
    exact yields_pure _
  · refine ⟨.returned (vm.push (.boolean true)) (count + 1), ?_, ?_⟩
    · simp only [reads, if_neg positive]
      exact yields_pure _
    · constructor
      · intro answered
        by_contra other
        exact answered_boolean (show ¬ 0 ≤ count by omega) answered
      · rintro rfl
        exact .pushed [.boolean true] vm.tables

/-- A message that is no response to be unpacked. -/
theorem stops_kept (stops : ∀ fuel,
      host.unpackResponseToStack payload cells fuel (some o) vm = some .stopped)
    (bad : ¬ host.Answerable payload cells o) :
    ∃ res, Yields (fun fuel => host.unpackResponseToStack payload cells fuel (some o) vm) res ∧
      (Answered vm res ∧ host.CallsKept payload cells o vm ↔ host.Answerable payload cells o) := by
  refine ⟨.stopped, ?_, iff_of_false (fun both => nomatch both.1) bad⟩
  simp only [stops]
  exact yields_pure _

/-- A decoded object as a response. -/
theorem response_kept {d : Data} (lawful : host.Lawful) (shows : Shows payload cells o d) :
    ∃ res, Yields (fun fuel => host.unpackResponseToStack payload cells fuel (some o) vm) res ∧
      (Answered vm res ∧ host.CallsKept payload cells o vm ↔ host.Answerable payload cells o) := by
  cases shows with
  | array elems ptr inside each =>
      have shown : ∀ {n : ℕ} {e : Obj ρ}, elem cells elems.length ptr n = some e →
          ∃ d, Shows payload cells e d := by
        intro n e there
        obtain ⟨bound, rfl⟩ := elem_some there
        exact ⟨_, each n bound⟩
      by_cases answer : ∃ error, IsResponse cells elems.length ptr ∧
          elem cells elems.length ptr 2 = some error ∧ (error = .nil →
            (∃ al first, elem cells elems.length ptr 3 = some (.array al first)) ∨
              ∃ al first, elem cells elems.length ptr 3 = some (.map al first))
      · obtain ⟨error, response, there, values⟩ := answer
        have answerable : host.Answerable payload cells (.array elems.length ptr) ↔
            Sendable host payload cells elems.length ptr error := by
          rw [answerable_array, and_iff_right response]
          constructor
          · rintro ⟨error', there', sendable⟩
            obtain rfl := Option.some.inj (there.symm.trans there')
            exact sendable
          · exact fun sendable => ⟨error, there, sendable⟩
        rw [answerable]
        by_cases failed : error = .nil
        · subst failed
          rcases values rfl with ⟨al, first, values⟩ | ⟨al, first, values⟩
          · obtain ⟨d, shows⟩ := shown values
            cases shows with
            | array elems' first inside' each' =>
                exact values_kept response there values inside' fun j bound =>
                  shown_settles lawful (each' j bound)
          · exact map_kept response there values
        · obtain ⟨d, shows⟩ := shown there
          exact error_kept response there failed (shown_settles lawful shows)
      · refine stops_kept (fun fuel => response_stops fun _ => unread_response answer)
          fun answerable => ?_
        obtain ⟨response, error, there, sendable⟩ := answerable_array.mp answerable
        obtain ⟨rfl, array, map⟩ := unread_response answer response there
        rcases sendable with ⟨failed, -⟩ | ⟨-, ⟨al, first, n, is, -⟩ | ⟨al, first, is, -⟩⟩
        · exact failed rfl
        · exact array al first is
        · exact map al first is
  | _ =>
      refine stops_kept (fun _ => rfl) ?_
      rintro ⟨_, _, _, same, -⟩
      exact nomatch same

/-- For every decoded object `unpack_stack` keeps its promise about the stack if and only
if it can make a value of the object or refuses it, and `unpack_response_to_stack` and the
calls in it keep theirs if and only if it can make values of the error, or of the values up
to the first one that it refuses. -/
theorem stack_discipline_iff {d : Data} (lawful : host.Lawful) (shows : Shows payload cells o d)
    (vm : Vm) :
    (∃ res, Yields (fun fuel => host.unpackStack payload cells fuel (some o) vm) res ∧
      (Disciplined vm res ↔ host.Convertible payload cells o ∨ Refused cells o)) ∧
    ∃ res, Yields (fun fuel => host.unpackResponseToStack payload cells fuel (some o) vm) res ∧
      (Answered vm res ∧ host.CallsKept payload cells o vm ↔ host.Answerable payload cells o) := by
  obtain ⟨res, run, outcome⟩ := shown_settles lawful shows vm
  exact ⟨⟨res, run, outcome.disciplined_iff⟩, response_kept lawful shows⟩

/-! ## Without the stack

The consumers of an accepted message call the same functions for what they read and return.
A call that ends here ends there, with the same result.
-/

/-- What the functions without the stack know of the host. -/
def lua (host : Host ρ) : Lua Unit where
  load code s := ((host.load code).1, s)
  custom name s :=
    (match host.custom name with
      | .unpacks _ => true
      | _ => false, s)

/-- The arrays from `ptr` on show these objects. -/
def ShowsAll (payload : ρ → List UInt8) (cells : List (Obj ρ)) (ptr : ℕ) (ds : List Data) : Prop :=
  ptr + ds.length ≤ cells.length ∧
    ∀ i (bound : i < ds.length), Shows payload cells (cells.getD (ptr + i) .uninit) ds[i]

theorem ShowsAll.head {d : Data} {ds : List Data} (all : ShowsAll payload cells ptr (d :: ds)) :
    ∃ e, cells[ptr]? = some e ∧ Shows payload cells e d := by
  obtain ⟨inside, each⟩ := all
  rw [List.length_cons] at inside
  exact ⟨_, cell_there (by omega), each 0 (Nat.succ_pos _)⟩

theorem ShowsAll.tail {d : Data} {ds : List Data} (all : ShowsAll payload cells ptr (d :: ds)) :
    ShowsAll payload cells (ptr + 1) ds := by
  obtain ⟨inside, each⟩ := all
  rw [List.length_cons] at inside
  refine ⟨by omega, fun i bound => ?_⟩
  have shows := each (i + 1) (Nat.succ_lt_succ bound)
  have next : ptr + (i + 1) = ptr + 1 + i := by omega
  rwa [next] at shows

theorem ShowsAll.elem {ds : List Data} {n : ℕ} {e : Obj ρ} (all : ShowsAll payload cells ptr ds)
    (there : elem cells ds.length ptr n = some e) :
    ∃ d, ((Data.array ds).elem n : Fallible.Prog Unit Data) () = some (d, ()) ∧
      Shows payload cells e d := by
  obtain ⟨bound, rfl⟩ := elem_some there
  refine ⟨ds[n], ?_, all.2 n bound⟩
  change ds[n]?.map (·, ()) = some (ds[n], ())
  rw [List.getElem?_eq_getElem bound]
  rfl

/-- The entries of a map show these keys and values. -/
def ShowsEntries (payload : ρ → List UInt8) (cells : List (Obj ρ)) (ptr : ℕ)
    (entries : List (Data × Data)) : Prop :=
  ptr + 2 * entries.length ≤ cells.length ∧
    ∀ i (bound : i < entries.length),
      Shows payload cells (cells.getD (ptr + 2 * i) .uninit) entries[i].1 ∧
        Shows payload cells (cells.getD (ptr + 2 * i + 1) .uninit) entries[i].2

theorem ShowsEntries.head {key val : Data} {entries : List (Data × Data)}
    (all : ShowsEntries payload cells ptr ((key, val) :: entries)) :
    (∃ e, cells[ptr]? = some e ∧ Shows payload cells e key) ∧
      ∃ e, cells[ptr + 1]? = some e ∧ Shows payload cells e val := by
  obtain ⟨inside, each⟩ := all
  rw [List.length_cons] at inside
  obtain ⟨first, second⟩ := each 0 (Nat.succ_pos _)
  exact ⟨⟨_, cell_there (by omega), first⟩, _, cell_there (by omega), second⟩

theorem ShowsEntries.tail {entry : Data × Data} {entries : List (Data × Data)}
    (all : ShowsEntries payload cells ptr (entry :: entries)) :
    ShowsEntries payload cells (ptr + 2) entries := by
  obtain ⟨inside, each⟩ := all
  rw [List.length_cons] at inside
  refine ⟨by omega, fun i bound => ?_⟩
  have shows := each (i + 1) (Nat.succ_lt_succ bound)
  have next : ptr + 2 * (i + 1) = ptr + 2 + 2 * i := by omega
  rwa [next] at shows

section
open Fallible

variable {fuel : ℕ} {vm' : Vm} {r : Int}

theorem unpackFunction_agrees {e : Obj ρ} {d : Data} (shows : Shows payload cells e d)
    (run : host.unpackFunction payload (some e) vm = .returned vm' r) :
    Rpc.unpackFunction host.lua d () = some (r, ()) := by
  cases shows with
  | raw at' =>
      unfold unpackFunction at run
      dsimp only at run
      rw [List.take_length] at run
      obtain ⟨-, rfl⟩ := Unpacked.returned.inj run
      rfl
  | _ => exact nomatch run

theorem callCustomUnpack_agrees {ds : List Data} (all : ShowsAll payload cells ptr ds)
    (run : host.callCustomUnpack payload (elem cells ds.length ptr 1)
      (elem cells ds.length ptr 2) vm = .returned vm' r) :
    Rpc.callCustomUnpack host.lua (.array ds) () = some (r, ()) := by
  cases there : elem cells ds.length ptr 1 with
  | none =>
      rw [there] at run
      exact nomatch run
  | some name =>
      obtain ⟨d, reads, shows⟩ := all.elem there
      refine bind_eq_some.mpr ⟨d, (), reads, ?_⟩
      rw [there] at run
      cases shows with
      | raw at' =>
          refine bind_eq_some.mpr ⟨payload at', (), rfl, ?_⟩
          unfold callCustomUnpack at run
          dsimp only at run
          rw [List.take_length] at run
          cases module : host.custom (payload at') with
          | raises =>
              rw [module] at run
              exact nomatch run
          | absent =>
              rw [module] at run
              obtain ⟨-, rfl⟩ := Unpacked.returned.inj run
              refine bind_eq_some.mpr ⟨false, (), ?_, rfl⟩
              simp only [ask, lua, module]
          | unpacks unpack =>
              rw [module] at run
              refine bind_eq_some.mpr ⟨true, (), ?_, ?_⟩
              · simp only [ask, lua, module]
              · cases packed : elem cells ds.length ptr 2 with
                | none =>
                    rw [packed] at run
                    exact nomatch run
                | some packed' =>
                    rw [packed] at run
                    obtain ⟨-, rfl⟩ := Unpacked.returned.inj run
                    obtain ⟨d', reads', -⟩ := all.elem packed
                    exact bind_eq_some.mpr ⟨d', (), reads', rfl⟩
      | _ => exact nomatch run

/-- An array that a coroutine has packed, where `each` is about the elements of an error object. -/
theorem unpackArray_agrees {ds : List Data} (all : ShowsAll payload cells ptr ds)
    (each : host.unpackElems payload cells fuel ds.length 0 ptr vm.createtable =
      some (.returned vm' r) → Rpc.unpackEach host.lua ds () = some ((), ()) ∧ r = 0)
    (run : host.unpackStack payload cells (fuel + 1) (some (.array ds.length ptr)) vm =
      some (.returned vm' r)) :
    Rpc.unpackStack host.lua (.array ds) () = some (r, ()) := by
  rw [unpackStack] at run
  cases first : elem cells ds.length ptr 0 with
  | none =>
      rw [first] at run
      cases run
  | some o =>
      obtain ⟨d, reads, shows⟩ := all.elem first
      rw [first] at run
      rw [Rpc.unpackStack]
      refine bind_eq_some.mpr ⟨d, (), reads, ?_⟩
      cases shows with
      | integer i64 =>
          refine bind_eq_some.mpr ⟨intOfSize i64.toNat, (), rfl, ?_⟩
          dsimp only at run ⊢
          unfold luaTFunction luaTUserdata
          generalize intOfSize i64.toNat = kind at run ⊢
          by_cases six : kind = 6
          · rw [if_pos six] at run ⊢
            cases there : elem cells ds.length ptr 1 with
            | none =>
                rw [there] at run
                cases run
            | some code =>
                obtain ⟨d', reads', shows'⟩ := all.elem there
                rw [there] at run
                exact bind_eq_some.mpr
                  ⟨d', (), reads', unpackFunction_agrees shows' (Option.some.inj run)⟩
          rw [if_neg six] at run ⊢
          by_cases seven : kind = 7
          · rw [if_pos seven] at run ⊢
            exact callCustomUnpack_agrees all (Option.some.inj run)
          rw [if_neg seven] at run ⊢
          by_cases negative : kind < 0
          · rw [if_pos negative] at run ⊢
            obtain ⟨done, rfl⟩ := each run
            exact bind_eq_some.mpr ⟨(), (), done, rfl⟩
          · rw [if_neg negative] at run ⊢
            obtain ⟨-, rfl⟩ := Unpacked.returned.inj (Option.some.inj run)
            rfl
      | _ => cases run

mutual

theorem unpackStack_agrees : ∀ (fuel : ℕ) {o : Obj ρ} {d : Data} {vm vm' : Vm} {r : Int},
    Shows payload cells o d →
    host.unpackStack payload cells fuel (some o) vm = some (.returned vm' r) →
    Rpc.unpackStack host.lua d () = some (r, ())
  | 0, _, _, _, _, _, _, run => nomatch run
  | fuel + 1, _, _, vm, vm', r, shows, run => by
      cases shows with
      | array elems ptr inside each =>
          have all : ShowsAll payload cells ptr elems := ⟨inside, each⟩
          exact unpackArray_agrees all (unpackElems_agrees fuel all) run
      | map entries ptr inside keys vals =>
          rw [unpackStack] at run
          rw [Rpc.unpackStack]
          obtain ⟨each, rfl⟩ := unpackEntries_agrees fuel
            ⟨inside, fun i bound => ⟨keys i bound, vals i bound⟩⟩ run
          exact bind_eq_some.mpr ⟨(), (), each, rfl⟩
      | _ =>
          obtain ⟨-, rfl⟩ := Unpacked.returned.inj (Option.some.inj run)
          rfl

theorem unpackElems_agrees : ∀ (fuel : ℕ) {ds : List Data} {i ptr : ℕ} {vm vm' : Vm} {r : Int},
    ShowsAll payload cells ptr ds →
    host.unpackElems payload cells fuel ds.length i ptr vm = some (.returned vm' r) →
    Rpc.unpackEach host.lua ds () = some ((), ()) ∧ r = 0
  | 0, _, _, _, _, _, _, _, run => nomatch run
  | fuel + 1, [], _, _, _, _, _, _, run => by
      obtain ⟨-, rfl⟩ := Unpacked.returned.inj (Option.some.inj run)
      exact ⟨rfl, rfl⟩
  | fuel + 1, d :: ds, i, ptr, vm, vm', r, all, run => by
      obtain ⟨e, there, shows⟩ := all.head
      rw [List.length_cons, unpackElems, there] at run
      obtain ⟨res, first, rest⟩ := Option.bind_eq_some_iff.mp run
      cases res with
      | stopped => exact nomatch rest
      | returned vm₁ r₁ =>
          dsimp only at rest
          have call := unpackStack_agrees fuel shows first
          cases set : vm₁.settable with
          | none =>
              rw [set] at rest
              exact nomatch rest
          | some vm₂ =>
              rw [set] at rest
              obtain ⟨each, rfl⟩ := unpackElems_agrees fuel all.tail rest
              exact ⟨bind_eq_some.mpr ⟨r₁, (), call, each⟩, rfl⟩

theorem unpackEntries_agrees : ∀ (fuel : ℕ) {entries : List (Data × Data)} {ptr : ℕ}
    {vm vm' : Vm} {r : Int}, ShowsEntries payload cells ptr entries →
    host.unpackEntries payload cells fuel entries.length ptr vm = some (.returned vm' r) →
    Rpc.unpackEntries host.lua entries () = some ((), ()) ∧ r = 0
  | 0, _, _, _, _, _, _, run => nomatch run
  | fuel + 1, [], _, _, _, _, _, run => by
      obtain ⟨-, rfl⟩ := Unpacked.returned.inj (Option.some.inj run)
      exact ⟨rfl, rfl⟩
  | fuel + 1, (key, val) :: entries, ptr, vm, vm', r, all, run => by
      obtain ⟨⟨e, there, shows⟩, e', there', shows'⟩ := all.head
      rw [List.length_cons, unpackEntries, there] at run
      obtain ⟨res, first, rest⟩ := Option.bind_eq_some_iff.mp run
      cases res with
      | stopped => exact nomatch rest
      | returned vm₁ r₁ =>
          dsimp only at rest
          rw [there'] at rest
          obtain ⟨res, second, rest⟩ := Option.bind_eq_some_iff.mp rest
          cases res with
          | stopped => exact nomatch rest
          | returned vm₂ r₂ =>
              dsimp only at rest
              have call := unpackStack_agrees fuel shows first
              have call' := unpackStack_agrees fuel shows' second
              cases set : vm₂.settable with
              | none =>
                  rw [set] at rest
                  exact nomatch rest
              | some vm₃ =>
                  rw [set] at rest
                  obtain ⟨each, rfl⟩ := unpackEntries_agrees fuel all.tail rest
                  exact ⟨bind_eq_some.mpr ⟨r₁, (), call,
                    bind_eq_some.mpr ⟨r₂, (), call', each⟩⟩, rfl⟩

end

theorem unpackValues_agrees {ds : List Data} {n k : ℕ} {arg : ℕ → Prog Unit Data}
    (all : ShowsAll payload cells ptr ds) (within : n ≤ ds.length)
    (args : ∀ i (bound : i < ds.length), arg (k + i) () = some (ds[i], ()))
    (run : host.unpackValues payload cells fuel n ptr vm = some (.returned vm' r)) :
    unpackArgs host.lua arg (List.range' k n) () = some (r, ()) := by
  induction n generalizing ds ptr k vm with
  | zero =>
      obtain ⟨-, rfl⟩ := Unpacked.returned.inj (Option.some.inj run)
      rfl
  | succ n ih =>
      cases ds with
      | nil => exact absurd within (Nat.not_succ_le_zero n)
      | cons d ds =>
          obtain ⟨e, there, shows⟩ := all.head
          rw [unpackValues, there] at run
          obtain ⟨res, first, rest⟩ := Option.bind_eq_some_iff.mp run
          rw [List.range'_succ, unpackArgs]
          refine bind_eq_some.mpr ⟨d, (), args 0 (Nat.succ_pos _), ?_⟩
          cases res with
          | stopped => cases rest
          | returned vm₁ r₁ =>
              refine bind_eq_some.mpr ⟨r₁, (), unpackStack_agrees fuel shows first, ?_⟩
              dsimp only at rest
              by_cases negative : r₁ < 0
              · rw [if_pos negative] at rest ⊢
                obtain ⟨-, rfl⟩ := Unpacked.returned.inj (Option.some.inj rest)
                rfl
              · rw [if_neg negative] at rest ⊢
                refine ih all.tail (Nat.le_of_succ_le_succ within) (fun i bound => ?_) rest
                have arg := args (i + 1) (Nat.succ_lt_succ bound)
                have next : k + (i + 1) = k + 1 + i := by omega
                rwa [next] at arg

theorem unpackResp_agrees {ds vs : List Data} (all : ShowsAll payload cells ptr vs)
    (reads : ((Data.array ds).resp : Prog Unit Data) () = some (.array vs, ()))
    (run : host.unpackValues payload cells fuel (intOfSize vs.length).toNat ptr vm =
      some (.returned vm' r)) :
    unpackArgs host.lua (fun i => do let d ← (Data.array ds).resp; d.elem i)
      (List.range (intOfSize vs.length).toNat) () = some (r, ()) := by
  rw [List.range_eq_range']
  refine unpackValues_agrees all (Int.toNat_le.mpr (intOfSize_le vs.length)) ?_ run
  intro i bound
  rw [Nat.zero_add]
  refine bind_eq_some.mpr ⟨.array vs, (), reads, ?_⟩
  change vs[i]?.map (·, ()) = some (vs[i], ())
  rw [List.getElem?_eq_getElem bound]
  rfl

/-- The result of `unpack_response_to_stack` by that of the calls. -/
theorem finish_agrees {top : ℕ} {al : Int} {res : Unpacked}
    (run : finish top al res = .returned vm' r) :
    ∃ vm₁ r₁, res = .returned vm₁ r₁ ∧ r = if r₁ < 0 then r₁ else al + 1 := by
  cases res with
  | stopped => exact nomatch run
  | returned vm₁ r₁ =>
      refine ⟨vm₁, r₁, rfl, ?_⟩
      change (if r₁ < 0 then Unpacked.returned _ r₁ else .returned vm₁ (al + 1)) = _ at run
      split at run
      · next negative =>
          rw [if_pos negative]
          exact (Unpacked.returned.inj run).2.symm
      · next positive =>
          rw [if_neg positive]
          exact (Unpacked.returned.inj run).2.symm

/-- A response is known by its type, and an error by its kind. -/
theorem isError_agrees {ds : List Data} {error : Obj ρ} (all : ShowsAll payload cells ptr ds)
    (response : IsResponse cells ds.length ptr)
    (there : elem cells ds.length ptr 2 = some error) :
    ∃ d, Shows payload cells error d ∧
      ((Data.array ds).error : Prog Unit Data) () = some (d, ()) ∧
      ((Data.array ds).isError : Prog Unit Bool) () = some (decide (d.kind ≠ .nil), ()) := by
  obtain ⟨t, first, type⟩ := response
  obtain ⟨d₀, reads₀, shows₀⟩ := all.elem first
  obtain ⟨d, reads, shows⟩ := all.elem there
  cases shows₀
  refine ⟨d, shows, reads, bind_eq_some.mpr ⟨true, (), ?_, bind_eq_some.mpr ⟨d, (), reads, rfl⟩⟩⟩
  refine bind_eq_some.mpr ⟨t.toUInt32.toUInt8, (), ?_, ?_⟩
  · exact bind_eq_some.mpr ⟨.integer t, (), reads₀, rfl⟩
  · rw [type]
    rfl

/-- A response that was read has an error, and values if that is nil. -/
theorem response_read (run : host.unpackResponseToStack payload cells fuel
      (some (.array size ptr)) vm = some (.returned vm' r)) :
    ∃ error, IsResponse cells size ptr ∧ elem cells size ptr 2 = some error ∧ (error = .nil →
      (∃ al first, elem cells size ptr 3 = some (.array al first)) ∨
        ∃ al first, elem cells size ptr 3 = some (.map al first)) := by
  by_contra unread
  rw [response_stops fun _ => unread_response unread] at run
  exact nomatch run

/-- Values that are a map are none. -/
theorem mapResponse_agrees (lua : Lua Unit) {ds : List Data} (all : ShowsAll payload cells ptr ds)
    {al first : ℕ} (response : IsResponse cells ds.length ptr)
    (there : elem cells ds.length ptr 2 = some .nil)
    (values : elem cells ds.length ptr 3 = some (.map al first))
    (run : host.unpackResponseToStack payload cells fuel (some (.array ds.length ptr)) vm =
      some (.returned vm' r)) : ∃ entries : List (Data × Data),
      ((Data.array ds).resp : Prog Unit Data) () = some (.map entries, ()) ∧
        r = intOfSize entries.length + 1 ∧
        unpackArgs lua (fun i => do let d ← (Data.array ds).resp; d.elem i)
          (List.range (intOfSize entries.length).toNat) () = some (0, ()) := by
  rw [response_map response there values] at run
  split at run
  · exact nomatch run
  · next none =>
      obtain ⟨-, rfl⟩ := Unpacked.returned.inj (Option.some.inj run)
      obtain ⟨d, reads, shows⟩ := all.elem values
      cases shows with
      | map entries first inside keys vals =>
          refine ⟨entries, reads, rfl, ?_⟩
          have nothing : (intOfSize entries.length).toNat = 0 :=
            Int.toNat_of_nonpos (Int.not_lt.mp none)
          rw [nothing]
          rfl

/-- An accepted message is read alike by the coroutine with the stack and by the one without. -/
theorem unpackResponseToStack_agrees {d : Data} {env : Env Unit} (same : env.lua = host.lua)
    (shows : Shows payload cells o d)
    (run : host.unpackResponseToStack payload cells fuel (some o) vm = some (.returned vm' r)) :
    Rpc.unpackResponseToStack env d () = some (r, ()) := by
  cases shows with
  | array elems ptr inside each =>
      have all : ShowsAll payload cells ptr elems := ⟨inside, each⟩
      obtain ⟨error, response, there, values⟩ := response_read run
      obtain ⟨e, shown, reads, isError⟩ := isError_agrees all response there
      by_cases failed : error = .nil
      · subst failed
        cases shown
        obtain ⟨al, first, values⟩ | ⟨al, first, values⟩ := values rfl
        · rw [response_values response there values] at run
          obtain ⟨res, call, ends⟩ := Option.map_eq_some_iff.mp run
          obtain ⟨vm₁, r₁, rfl, rfl⟩ := finish_agrees ends
          obtain ⟨d, reads', shows'⟩ := all.elem values
          cases shows' with
          | array elems' first inside' each' =>
              obtain ⟨n, size, count⟩ := Data.size_array elems' ()
              exact unpackResponse_values isError reads' size count
                (same ▸ unpackResp_agrees ⟨inside', each'⟩ reads' call)
        · obtain ⟨entries, reads', result, loop⟩ :=
            mapResponse_agrees env.lua all response there values run
          obtain ⟨n, size, count⟩ := Data.size_map entries ()
          have answer := unpackResponse_values isError reads' size count loop
          rwa [if_neg (Int.lt_irrefl 0), ← result] at answer
      · have kind : e.kind ≠ .nil := by
          cases shown with
          | nil => exact absurd rfl failed
          | _ => exact nofun
        rw [decide_eq_true kind] at isError
        rw [response_error response there failed] at run
        obtain ⟨res, call, ends⟩ := Option.map_eq_some_iff.mp run
        obtain ⟨vm₁, r₁, rfl, rfl⟩ := finish_agrees ends
        exact unpackResponse_error isError reads (same ▸ unpackStack_agrees fuel shown call)
  | _ => exact nomatch run

end

end Host

/-! ## Two messages -/

/-- A host without modules, for the integer 1. -/
def plain : Host Unit where
  load _ := (3, .string [])
  custom _ := .absent
  ofSingle _ := 0
  ofInt n := if n = 1 then 0x3ff0000000000000 else 0

theorem plain_lawful : plain.Lawful where
  load _ := show (0 : Int) ≤ 3 by decide
  ofInt n := by
    unfold plain
    dsimp only
    split <;> decide

/-- The response to request 7 with the values `true` and `{ [false] = 1 }`. -/
def answer : List (Obj Unit) :=
  [.integer 1, .integer 7, .nil, .array 2 4, .boolean true, .map 1 6, .boolean false, .integer 1]

theorem answer_shows : Shows (fun _ => []) answer (.array 4 0)
    (.array [.integer 1, .integer 7, .nil,
      .array [.boolean true, .map [(.boolean false, .integer 1)]]]) := by
  have map : Shows (fun _ => []) answer (.map 1 6) (.map [(.boolean false, .integer 1)]) := by
    refine .map [(.boolean false, .integer 1)] 6 (by decide) ?_ ?_
    · intro i bound
      obtain rfl := Nat.lt_one_iff.mp bound
      exact .boolean false
    · intro i bound
      obtain rfl := Nat.lt_one_iff.mp bound
      exact .integer 1
  have values : Shows (fun _ => []) answer (.array 2 4)
      (.array [.boolean true, .map [(.boolean false, .integer 1)]]) := by
    refine .array [_, _] 4 (by decide) ?_
    rintro (_ | _ | i) bound
    · exact .boolean true
    · exact map
    · exact absurd bound (by simp)
  refine .array [_, _, _, _] 0 (by decide) ?_
  rintro (_ | _ | _ | _ | i) bound
  · exact .integer 1
  · exact .integer 7
  · exact .nil
  · exact values
  · exact absurd bound (by simp)

theorem stack_discipline_iff_answer : ∃ res,
    Yields (fun fuel => plain.unpackResponseToStack (fun _ => []) answer fuel
      (some (.array 4 0)) ⟨[], 0⟩) res ∧ Answered ⟨[], 0⟩ res := by
  obtain ⟨-, res, run, kept⟩ := Host.stack_discipline_iff plain_lawful answer_shows ⟨[], 0⟩
  refine ⟨res, run, (kept.mpr ?_).1⟩
  have map : plain.Convertible (fun _ => []) answer (.map 1 6) := by
    refine .map ?_ ?_ ?_
    all_goals
      intro i bound
      obtain rfl := Nat.lt_one_iff.mp bound
    · exact .boolean false
    · rfl
    · exact .integer 1
  have values : Host.Values plain (fun _ => []) answer 2 4 :=
    .inr ⟨.boolean true, .inr ⟨map, trivial⟩⟩
  have count : intOfSize 2 = (2 : ℕ) := intOfSize_eq (by decide)
  exact ⟨4, 0, .nil, rfl, ⟨1, rfl, rfl⟩, rfl, .inr ⟨rfl, .inl ⟨2, 4, 2, rfl, count, values⟩⟩⟩

/-- The object `{ [1] = [5] }`, whose value is refused. -/
def refusing : List (Obj Unit) := [.integer 1, .array 1 2, .integer 5]

/-- The call for the value leaves the stack, and `lua_settable` looks for its table below
the one that is filled. -/
theorem refused_inside :
    Shows (fun _ => []) refusing (.map 1 0) (.map [(.integer 1, .array [.integer 5])]) ∧
      Yields (fun fuel => plain.unpackStack (fun _ => []) refusing fuel (some (.map 1 0)) ⟨[], 0⟩)
        .stopped ∧ ¬ Disciplined ⟨[], 0⟩ .stopped := by
  have shows : Shows (fun _ => []) refusing (.map 1 0)
      (.map [(.integer 1, .array [.integer 5])]) := by
    refine .map [(.integer 1, .array [.integer 5])] 0 (by decide) ?_ ?_
    · intro i bound
      obtain rfl := Nat.lt_one_iff.mp bound
      exact .integer 1
    · intro i bound
      obtain rfl := Nat.lt_one_iff.mp bound
      refine .array [.integer 5] 2 (by decide) fun i bound => ?_
      obtain rfl := Nat.lt_one_iff.mp bound
      exact .integer 5
  obtain ⟨res, run, -⟩ := Host.shown_settles plain_lawful shows ⟨[], 0⟩
  have stops : (plain.unpackStack (fun _ => []) refusing 4 (some (.map 1 0)) ⟨[], 0⟩).any
      (fun | .stopped => true | .returned .. => false) = true := by decide +kernel
  obtain ⟨res', here, stopped⟩ := (Option.any_eq_true _ _).mp stops
  obtain rfl := run.only 4 res' here
  cases res' with
  | stopped => exact ⟨shows, run, nofun⟩
  | returned vm r => exact nomatch stopped

end Cyue.Lua
