import Mathlib.Data.List.Infix
import Mathlib.Data.List.Perm.Basic
import Mathlib.Logic.Function.Basic
import Mathlib.Tactic.Common
import Mathlib.Data.UInt
import Cyue.Lib.Fuel

/-!
# Names of procedures

The name under which a procedure is called may begin with `async_`, `timed_` and `mcast_`.
`parse` takes each of them out of the name with a pattern that is not anchored, so that it finds
the first place of the prefix in the name, wherever that is.  Strings are byte strings.
-/

namespace Cyue.Procs

open Cyue.Fuel

inductive Prefix where
  | async
  | timed
  | mcast
  deriving DecidableEq

namespace Prefix

/-- `async_`, `timed_` and `mcast_` -/
def text : Prefix → List UInt8
  | async => [97, 115, 121, 110, 99, 95]
  | timed => [116, 105, 109, 101, 100, 95]
  | mcast => [109, 99, 97, 115, 116, 95]

/-- `constant.flags` -/
def flag : Prefix → ℕ
  | async => 1
  | timed => 2
  | mcast => 4

end Prefix

def prefixes : List Prefix := [.async, .timed, .mcast]

def protectedFlag : ℕ := 8

/-! ## The code -/

/-- `string.gsub(name, "(.-)"..k.."(.*)", "%1%2", 1)`: what is in front of the first `k` and what is
behind it. -/
def gsub (k : List UInt8) : List UInt8 → List UInt8
  | [] => []
  | c :: name => if k.isPrefixOf (c :: name) then (c :: name).drop k.length else c :: gsub k name

/-- `name`, `flag` and `match` -/
structure Scan where
  name : List UInt8
  flag : ℕ
  matched : Bool
  deriving DecidableEq

def visit (s : Scan) (k : Prefix) : Scan :=
  if s.flag &&& k.flag = 0 then
    let tmp := gsub k.text s.name
    if tmp.length ≠ s.name.length then ⟨tmp, s.flag ||| k.flag, true⟩ else s
  else s

def round (order : List Prefix) (s : Scan) : Scan :=
  order.foldl visit { s with matched := false }

/-- The loop until nothing matched; none when the fuel is used up. -/
def rounds (order : List Prefix) : ℕ → Scan → Option Scan
  | 0, _ => none
  | fuel + 1, s =>
      let s := round order s
      if s.matched then rounds order fuel s else some s

def find (name : List UInt8) : Option ℕ := (name.findIdx? fun c => c = 95).map (· + 1)

/-- `parse`; the table is visited in this order. -/
def parse (fuel : ℕ) (order : List Prefix) (name : List UInt8) : Option (List UInt8 × ℕ) :=
  (rounds order fuel ⟨name, 0, false⟩).map fun s =>
    (s.name, if find s.name = some 1 then s.flag ||| protectedFlag else s.flag)

/-- `method_index` in an emitter, or in the method of this name. -/
def methodIndex (fuel : ℕ) (order : List Prefix) (method : Option (List UInt8)) (k : List UInt8) :
    Option (List UInt8 × ℕ) :=
  (parse fuel order k).map fun r => (method.elim r.1 fun name => name ++ 46 :: r.1, r.2)

/-! ## What the names mean -/

def bits (used : Prefix → Bool) : ℕ :=
  (if used .async then Prefix.flag .async else 0) ||| (if used .timed then Prefix.flag .timed else 0) |||
    (if used .mcast then Prefix.flag .mcast else 0)

def use (used : Prefix → Bool) (k : Prefix) : Prefix → Bool := Function.update used k true

/-- The prefixes at the beginning of a name, each at most once, and the rest of the name. -/
def strip : ℕ → (Prefix → Bool) → List UInt8 → (Prefix → Bool) × List UInt8
  | 0, used, name => (used, name)
  | n + 1, used, name =>
      match prefixes.find? fun k => !used k && k.text.isPrefixOf name with
      | none => (used, name)
      | some k => strip n (use used k) (name.drop k.text.length)

def stripped (name : List UInt8) : (Prefix → Bool) × List UInt8 := strip 3 (fun _ => false) name

def expected (name : List UInt8) : List UInt8 × ℕ :=
  let s := stripped name
  (s.2, if s.2.head? = some 95 then bits s.1 ||| protectedFlag else bits s.1)

/-- A prefix that the name does not begin with is not in the rest of it either. -/
def Clean (name : List UInt8) : Prop :=
  ∀ k, (stripped name).1 k = false → ¬ k.text <:+: (stripped name).2

/-! ## Flags -/

theorem bits_free (used : Prefix → Bool) (k : Prefix) : bits used &&& k.flag = 0 ↔ used k = false := by
  unfold bits
  cases k <;> cases used .async <;> cases used .timed <;> cases used .mcast <;> decide

theorem bits_use (used : Prefix → Bool) (k : Prefix) : bits (use used k) = bits used ||| k.flag := by
  unfold bits use
  simp only [Function.update_apply]
  cases k <;> cases used .async <;> cases used .timed <;> cases used .mcast <;> decide

theorem use_self (used : Prefix → Bool) (k : Prefix) : use used k k = true := Function.update_self ..

theorem use_other (used : Prefix → Bool) {k q : Prefix} (other : q ≠ k) : use used k q = used q :=
  Function.update_of_ne other ..

def left (used : Prefix → Bool) : ℕ := (prefixes.filter fun k => !used k).length

theorem left_use {used : Prefix → Bool} {k : Prefix} (free : used k = false) :
    left (use used k) < left used := by
  revert free
  unfold left use prefixes
  simp only [List.filter_cons, List.filter_nil, Function.update_apply]
  cases k <;> cases used .async <;> cases used .timed <;> cases used .mcast <;> decide

/-! ## The first place of a prefix -/

theorem gsub_self (k : Prefix) (rest : List UInt8) : gsub k.text (k.text ++ rest) = rest := by
  cases k <;> rfl

/-- A prefix does not begin inside another one. -/
theorem gsub_other {k q : Prefix} (other : k ≠ q) (rest : List UInt8) :
    gsub k.text (q.text ++ rest) = q.text ++ gsub k.text rest := by
  cases k <;> cases q <;> first | exact absurd rfl other | rfl

theorem gsub_none {k name : List UInt8} (none : ¬ k <:+: name) : gsub k name = name := by
  induction name with
  | nil => rfl
  | cons c name ih =>
      unfold gsub
      split
      · rename_i begins
        exact absurd (List.isPrefixOf_iff_prefix.mp begins).isInfix none
      · rw [ih fun inside => none (inside.trans (List.suffix_cons c name).isInfix)]

/-- A text that is found makes the name shorter. -/
theorem gsub_length {k name : List UInt8} (nonempty : k ≠ []) (some : k <:+: name) :
    (gsub k name).length + k.length = name.length := by
  induction name with
  | nil => exact absurd (List.infix_nil.mp some) nonempty
  | cons c name ih =>
      unfold gsub
      split
      · rename_i begins
        have le := (List.isPrefixOf_iff_prefix.mp begins).length_le
        rw [List.length_drop]
        omega
      · rename_i other
        rcases List.infix_cons_iff.mp some with begins | inside
        · exact absurd (List.isPrefixOf_iff_prefix.mpr begins) other
        · rw [List.length_cons, List.length_cons, Nat.add_right_comm, ih inside]

theorem text_ne_nil (k : Prefix) : k.text ≠ [] := by
  cases k <;> decide

theorem text_length (k : Prefix) : k.text.length = 6 := by
  cases k <;> rfl

/-- What is found is what has an effect. -/
theorem gsub_length_iff (k : Prefix) (name : List UInt8) :
    (gsub k.text name).length ≠ name.length ↔ k.text <:+: name := by
  constructor
  · intro shorter
    by_contra none
    rw [gsub_none none] at shorter
    exact shorter rfl
  · intro some same
    have length := gsub_length (text_ne_nil k) some
    rw [text_length] at length
    omega

/-! ## Names that begin with prefixes -/

def row (qs : List Prefix) : List UInt8 := qs.flatMap Prefix.text

theorem gsub_row {k : Prefix} {qs : List Prefix} (other : k ∉ qs) (rest : List UInt8) :
    gsub k.text (row qs ++ rest) = row qs ++ gsub k.text rest := by
  induction qs with
  | nil => rfl
  | cons q qs ih =>
      have ne : k ≠ q := List.ne_of_not_mem_cons other
      unfold row at ih ⊢
      rw [List.flatMap_cons, List.append_assoc, gsub_other ne,
        ih (List.not_mem_of_not_mem_cons other), List.append_assoc]

/-- Other prefixes do not hide a prefix, and do not make one. -/
theorem infix_row_iff {k : Prefix} {qs : List Prefix} (other : k ∉ qs) (rest : List UInt8) :
    k.text <:+: row qs ++ rest ↔ k.text <:+: rest := by
  rw [← gsub_length_iff, ← gsub_length_iff, gsub_row other, List.length_append, List.length_append]
  omega

theorem gsub_mem {k : Prefix} {before after : List Prefix} (other : k ∉ before) (rest : List UInt8) :
    gsub k.text (row (before ++ k :: after) ++ rest) = row (before ++ after) ++ rest := by
  unfold row
  rw [List.flatMap_append, List.flatMap_cons, List.append_assoc, List.append_assoc]
  have found := gsub_row other (k.text ++ (row after ++ rest))
  unfold row at found
  rw [found, gsub_self, List.flatMap_append, List.append_assoc]

/-- The name that is left: these prefixes, none of which has been used, in front of the rest. -/
structure Leads (used : Prefix → Bool) (name : List UInt8) (qs : List Prefix)
    (all : Prefix → Bool) (rest : List UInt8) : Prop where
  name : name = row qs ++ rest
  nodup : qs.Nodup
  free : ∀ q ∈ qs, used q = false
  all : ∀ k, all k = true ↔ used k = true ∨ k ∈ qs

theorem leads_nil (used : Prefix → Bool) (name : List UInt8) : Leads used name [] used name where
  name := rfl
  nodup := List.nodup_nil
  free _ mem := absurd mem List.not_mem_nil
  all _ := ⟨.inl, fun either => either.resolve_right List.not_mem_nil⟩

/-- One more prefix in front. -/
theorem Leads.cons {used all : Prefix → Bool} {name rest : List UInt8} {qs : List Prefix} {k : Prefix}
    (leads : Leads (use used k) name qs all rest) (free : used k = false) :
    Leads used (k.text ++ name) (k :: qs) all rest := by
  have other : k ∉ qs := by
    intro mem
    have taken := leads.free k mem
    rw [use_self] at taken
    cases taken
  refine ⟨?_, List.nodup_cons.mpr ⟨other, leads.nodup⟩, fun q mem => ?_, fun q => ?_⟩
  · rw [leads.name]
    unfold row
    rw [List.flatMap_cons, List.append_assoc]
  · rcases List.mem_cons.mp mem with rfl | inside
    · exact free
    · rw [← leads.free q inside, use_other]
      rintro rfl
      exact other inside
  · rw [leads.all, List.mem_cons]
    by_cases same : q = k
    · subst same
      rw [use_self]
      exact iff_of_true (.inl rfl) (.inr (.inl rfl))
    · rw [use_other used same]
      exact or_congr_right (or_iff_right same).symm

theorem found_spec {used : Prefix → Bool} {name : List UInt8} {k : Prefix}
    (found : (prefixes.find? fun k => !used k && k.text.isPrefixOf name) = some k) :
    used k = false ∧ k.text <+: name := by
  have holds := List.find?_some (p := fun k => !used k && k.text.isPrefixOf name) found
  obtain ⟨free, begins⟩ := Bool.and_eq_true_iff.mp holds
  exact ⟨by simpa using free, List.isPrefixOf_iff_prefix.mp begins⟩

theorem strip_leads (n : ℕ) (used : Prefix → Bool) (name : List UInt8) :
    ∃ qs, Leads used name qs (strip n used name).1 (strip n used name).2 := by
  induction n generalizing used name with
  | zero => exact ⟨[], leads_nil used name⟩
  | succ n ih =>
      unfold strip
      split
      · exact ⟨[], leads_nil used name⟩
      · rename_i k found
        obtain ⟨free, begins⟩ := found_spec found
        obtain ⟨tail, rfl⟩ := begins
        rw [List.drop_left]
        obtain ⟨qs, leads⟩ := ih (use used k) tail
        exact ⟨k :: qs, leads.cons free⟩

theorem mem_prefixes (k : Prefix) : k ∈ prefixes := by
  cases k <;> decide

theorem strip_done {n : ℕ} {used : Prefix → Bool} (name : List UInt8) (enough : left used ≤ n) :
    ∀ k, (strip n used name).1 k = false → ¬ k.text <+: (strip n used name).2 := by
  induction n generalizing used name with
  | zero =>
      intro k free
      have less := left_use free
      exact absurd (less.trans_le enough) (Nat.not_lt_zero _)
  | succ n ih =>
      unfold strip
      split
      · rename_i none
        intro k free begins
        dsimp only at free begins
        apply List.find?_eq_none.mp none k (mem_prefixes k)
        rw [free, List.isPrefixOf_iff_prefix.mpr begins]
        rfl
      · rename_i k found
        have less := left_use (found_spec found).1
        exact ih _ (by omega)

/-- A name is its prefixes, each at most once, and a rest that begins with no other one. -/
theorem stripped_spec (name : List UInt8) :
    (∃ qs, Leads (fun _ => false) name qs (stripped name).1 (stripped name).2) ∧
      ∀ k, (stripped name).1 k = false → ¬ k.text <+: (stripped name).2 :=
  ⟨strip_leads 3 _ name, strip_done name (by decide)⟩

/-! ## The loops -/

theorem visit_cases {used : Prefix → Bool} {s : Scan} (taken : s.flag = bits used) (k : Prefix) :
    ((used k = true ∨ ¬ k.text <:+: s.name) ∧ visit s k = s) ∨
    (used k = false ∧ k.text <:+: s.name ∧
      visit s k = ⟨gsub k.text s.name, bits (use used k), true⟩) := by
  unfold visit
  dsimp only
  rw [taken]
  split
  · rename_i free
    have free := (bits_free used k).mp free
    split
    · rename_i shorter
      exact .inr ⟨free, (gsub_length_iff k s.name).mp shorter, by rw [bits_use]⟩
    · rename_i same
      exact .inl ⟨.inr fun some => same ((gsub_length_iff k s.name).mpr some), rfl⟩
  · rename_i busy
    refine .inl ⟨.inl ?_, rfl⟩
    by_contra free
    exact busy ((bits_free used k).mpr (Bool.eq_false_of_not_eq_true free))

/-- A walk over the table leaves everything as it was, and then none of the prefixes is in the name, or
takes a prefix out. -/
theorem walk_cases {used : Prefix → Bool} {s : Scan} (taken : s.flag = bits used) (ks : List Prefix) :
    (ks.foldl visit s = s ∧ ∀ k ∈ ks, used k = true ∨ ¬ k.text <:+: s.name) ∨
    (∃ used', (ks.foldl visit s).flag = bits used' ∧ (ks.foldl visit s).matched = true ∧
      left used' < left used) := by
  induction ks generalizing used s with
  | nil => exact .inl ⟨rfl, fun k mem => absurd mem List.not_mem_nil⟩
  | cons k ks ih =>
      rw [List.foldl_cons]
      obtain ⟨nothing, same⟩ | ⟨free, -, next⟩ := visit_cases taken k
      · rw [same]
        obtain ⟨same, rest⟩ | found := ih taken
        · refine .inl ⟨same, fun q mem => ?_⟩
          rcases List.mem_cons.mp mem with rfl | mem
          · exact nothing
          · exact rest q mem
        · exact .inr found
      · have less := left_use free
        rw [next]
        obtain ⟨same, -⟩ | ⟨used', flag, matched, less'⟩ :=
          ih (s := ⟨gsub k.text s.name, bits (use used k), true⟩) rfl
        · exact .inr ⟨use used k, by rw [same], by rw [same], less⟩
        · exact .inr ⟨used', flag, matched, less'.trans less⟩

theorem rounds_spec {order : List Prefix} {fuel : ℕ} {used : Prefix → Bool} {s : Scan}
    (taken : s.flag = bits used) (enough : left used < fuel) :
    ∃ used' s', rounds order fuel s = some s' ∧ s'.flag = bits used' ∧
      ∀ k ∈ order, used' k = true ∨ ¬ k.text <:+: s'.name := by
  induction fuel generalizing used s with
  | zero => exact absurd enough (Nat.not_lt_zero _)
  | succ fuel ih =>
      unfold rounds
      dsimp only
      obtain ⟨same, nothing⟩ | ⟨used', flag, matched, less⟩ :=
        walk_cases (s := { s with matched := false }) taken order
      · have ended : round order s = { s with matched := false } := same
        rw [ended]
        exact ⟨used, { s with matched := false }, rfl, taken, nothing⟩
      · have again : (round order s).matched = true := matched
        rw [again]
        exact ih flag (by omega)

/-! ## Clean names -/

theorem bits_inj {used used' : Prefix → Bool} (same : bits used = bits used') : used = used' := by
  funext k
  have free : used k = false ↔ used' k = false := by
    rw [← bits_free used, same, bits_free]
  cases left : used k with
  | false => rw [free.mp left]
  | true =>
      cases right : used' k with
      | false => rw [free.mpr right] at left; cases left
      | true => rfl

/-- A prefix in front of the rest is taken, wherever it stands among them. -/
theorem Leads.take {used all : Prefix → Bool} {name rest : List UInt8} {qs : List Prefix} {k : Prefix}
    (leads : Leads used name qs all rest) (mem : k ∈ qs) :
    ∃ qs', Leads (use used k) (gsub k.text name) qs' all rest := by
  obtain ⟨before, after, rfl⟩ := List.append_of_mem mem
  have nodup := List.nodup_middle.mp leads.nodup
  obtain ⟨other, nodup⟩ := List.nodup_cons.mp nodup
  refine ⟨before ++ after, ?_, nodup, fun q inside => ?_, fun q => ?_⟩
  · rw [leads.name, gsub_mem fun inside => other (List.mem_append_left after inside)]
  · have ne : q ≠ k := fun same => other (same ▸ inside)
    rw [use_other used ne]
    apply leads.free
    rw [List.mem_append, List.mem_cons]
    exact (List.mem_append.mp inside).imp_right .inr
  · rw [leads.all, List.mem_append, List.mem_cons, List.mem_append]
    by_cases same : q = k
    · subst same
      rw [use_self]
      exact iff_of_true (.inr (.inr (.inl rfl))) (.inl rfl)
    · rw [use_other used same, or_iff_right same]

def Ahead (name : List UInt8) (s : Scan) : Prop :=
  ∃ used qs, s.flag = bits used ∧ Leads used s.name qs (stripped name).1 (stripped name).2

theorem Ahead.visit {name : List UInt8} {s : Scan} (ahead : Ahead name s) (clean : Clean name)
    (k : Prefix) : Ahead name (visit s k) := by
  have before := ahead
  obtain ⟨used, qs, taken, leads⟩ := ahead
  obtain ⟨-, same⟩ | ⟨free, some, next⟩ := visit_cases taken k
  · rw [same]
    exact before
  · rw [next]
    by_cases mem : k ∈ qs
    · obtain ⟨qs', leads⟩ := leads.take mem
      exact ⟨use used k, qs', rfl, leads⟩
    · rw [leads.name, infix_row_iff mem] at some
      have unstripped : (stripped name).1 k = false := by
        apply Bool.eq_false_of_not_eq_true
        rw [leads.all, free]
        exact fun either => either.elim Bool.false_ne_true mem
      exact absurd some (clean k unstripped)

theorem Ahead.rounds {name : List UInt8} {order : List Prefix} {fuel : ℕ} {s s' : Scan}
    (ahead : Ahead name s) (clean : Clean name) (ran : rounds order fuel s = some s') :
    Ahead name s' := by
  induction fuel generalizing s with
  | zero => cases ran
  | succ fuel ih =>
      have start : Ahead name { s with matched := false } := ahead
      have walked : Ahead name (round order s) :=
        List.foldlRecOn order Procs.visit start fun _ inside k _ => inside.visit clean k
      unfold Procs.rounds at ran
      dsimp only at ran
      split at ran
      · exact ih walked ran
      · rwa [← Option.some.inj ran]

/-- Nothing is left to do where no prefix is found. -/
theorem Ahead.done {name : List UInt8} {order : List Prefix} {used : Prefix → Bool} {s : Scan}
    (ahead : Ahead name s) (perm : order.Perm prefixes) (taken : s.flag = bits used)
    (nothing : ∀ k ∈ order, used k = true ∨ ¬ k.text <:+: s.name) :
    used = (stripped name).1 ∧ s.name = (stripped name).2 := by
  obtain ⟨used', qs, taken', leads⟩ := ahead
  obtain rfl : used' = used := bits_inj (taken'.symm.trans taken)
  have none : qs = [] := by
    apply List.eq_nil_iff_forall_not_mem.mpr
    intro k mem
    rcases nothing k (perm.mem_iff.mpr (mem_prefixes k)) with busy | absent
    · rw [leads.free k mem] at busy
      cases busy
    · apply absent
      obtain ⟨before, after, rfl⟩ := List.append_of_mem mem
      rw [leads.name]
      unfold row
      rw [List.flatMap_append, List.flatMap_cons]
      exact ⟨before.flatMap Prefix.text, after.flatMap Prefix.text ++ (stripped name).2, by simp⟩
  subst none
  refine ⟨?_, leads.name⟩
  funext k
  have same := leads.all k
  rw [or_iff_left List.not_mem_nil] at same
  cases left : used' k with
  | true => rw [same.mpr left]
  | false =>
      rw [left] at same
      rw [Bool.eq_false_of_not_eq_true fun holds => Bool.false_ne_true (same.mp holds)]

/-! ## The law -/

theorem head_find (name : List UInt8) : find name = some 1 ↔ name.head? = some 95 := by
  unfold find
  cases name with
  | nil => exact iff_of_false (by simp) (by simp)
  | cons c name =>
      rw [List.findIdx?_cons, List.head?_cons, Option.some_inj]
      by_cases same : c = 95
      · subst same
        exact iff_of_true rfl rfl
      · rw [decide_eq_false same]
        refine iff_of_false ?_ same
        simp

theorem rounds_mono {order : List Prefix} {fuel more : ℕ} {s s' : Scan} (le : fuel ≤ more)
    (ran : rounds order fuel s = some s') : rounds order more s = some s' := by
  induction fuel generalizing more s with
  | zero => cases ran
  | succ fuel ih =>
      obtain ⟨more, rfl⟩ := Nat.exists_eq_add_of_le' (Nat.le_of_add_left_le le)
      unfold rounds at ran ⊢
      dsimp only at ran ⊢
      split at ran
      · rename_i again
        rw [if_pos again]
        exact ih (Nat.le_of_succ_le_succ le) ran
      · rename_i ended
        rwa [if_neg ended]

/-- Four rounds are enough for every name. -/
theorem parse_ends (order : List Prefix) (name : List UInt8) :
    ∃ used s, rounds order 4 ⟨name, 0, false⟩ = some s ∧ s.flag = bits used ∧
      ∀ k ∈ order, used k = true ∨ ¬ k.text <:+: s.name := by
  have taken : (⟨name, 0, false⟩ : Scan).flag = bits fun _ => false := rfl
  exact rounds_spec taken (by decide)

theorem parse_yields {order : List Prefix} {name : List UInt8} {s : Scan}
    (ran : rounds order 4 ⟨name, 0, false⟩ = some s) :
    Yields (fun fuel => parse fuel order name)
      (s.name, if s.name.head? = some 95 then s.flag ||| protectedFlag else s.flag) := by
  have yields := (yields_of_mono ran fun le ran => rounds_mono le ran).map fun s : Scan =>
    (s.name, if find s.name = some 1 then s.flag ||| protectedFlag else s.flag)
  simp only [head_find] at yields
  unfold parse
  simp only [head_find]
  exact yields

theorem guarded_inj {used used' : Prefix → Bool} {name : List UInt8}
    (same : (if name.head? = some 95 then bits used ||| protectedFlag else bits used) =
      if name.head? = some 95 then bits used' ||| protectedFlag else bits used') : used = used' := by
  apply bits_inj
  split at same
  · revert same
    unfold bits
    cases used .async <;> cases used .timed <;> cases used .mcast <;>
      cases used' .async <;> cases used' .timed <;> cases used' .mcast <;> decide
  · exact same

theorem parse_clean {order : List Prefix} (perm : order.Perm prefixes) {name : List UInt8}
    (clean : Clean name) : Yields (fun fuel => parse fuel order name) (expected name) := by
  obtain ⟨used, s, ran, taken, nothing⟩ := parse_ends order name
  have yields := parse_yields ran
  obtain ⟨qs, leads⟩ := (stripped_spec name).1
  have start : Ahead name ⟨name, 0, false⟩ := ⟨fun _ => false, qs, rfl, leads⟩
  obtain ⟨same, text⟩ := (start.rounds clean ran).done perm taken nothing
  rw [taken, same, text] at yields
  exact yields

theorem clean_of_parse {order : List Prefix} (perm : order.Perm prefixes) {name : List UInt8}
    (exact : Yields (fun fuel => parse fuel order name) (expected name)) : Clean name := by
  obtain ⟨used, s, ran, taken, nothing⟩ := parse_ends order name
  have yields := parse_yields ran
  rw [taken] at yields
  intro k unstripped
  obtain ⟨text, flags⟩ := Prod.ext_iff.mp (yields.unique exact)
  have text : (stripped name).2 = s.name := text
  have flags : (if (stripped name).2.head? = some 95 then bits (stripped name).1 ||| protectedFlag
      else bits (stripped name).1) =
      if s.name.head? = some 95 then bits used ||| protectedFlag else bits used := flags
  rw [text] at flags ⊢
  rw [guarded_inj flags] at unstripped
  have found := nothing k (perm.mem_iff.mpr (mem_prefixes k))
  rw [unstripped] at found
  exact found.resolve_left Bool.false_ne_true

/-- A method is called under the name and with the flags that its key stands for. -/
theorem methodIndex_clean {order : List Prefix} (perm : order.Perm prefixes) (method : Option (List UInt8))
    {k : List UInt8} (clean : Clean k) :
    Yields (fun fuel => methodIndex fuel order method k)
      (method.elim (expected k).1 fun name => name ++ 46 :: (expected k).1, (expected k).2) := by
  have yields := (parse_clean perm clean).map fun r =>
    (method.elim r.1 fun name => name ++ 46 :: r.1, r.2)
  exact yields

/-- Whatever the order of the table, `parse` returns, and it takes out the prefixes at the beginning of
the name and nothing else exactly if the others are nowhere in the rest of it. -/
theorem parse_exact_iff {order : List Prefix} (perm : order.Perm prefixes) (name : List UInt8) :
    Yields (fun fuel => parse fuel order name) (expected name) ↔ Clean name :=
  ⟨clean_of_parse perm, parse_clean perm⟩

/-- `timed_async__kick` -/
theorem parse_exact_iff_timed :
    Yields (fun fuel => parse fuel [.mcast, .async, .timed]
      [116, 105, 109, 101, 100, 95, 97, 115, 121, 110, 99, 95, 95, 107, 105, 99, 107])
      ([95, 107, 105, 99, 107], 11) :=
  (parse_exact_iff (by decide) _).mpr (by
    intro k unstripped
    rw [← gsub_length_iff]
    cases k
    · exact absurd unstripped (by decide)
    · exact absurd unstripped (by decide)
    · decide)

/-- `foo_async_bar` becomes `foo_bar`, and of `asytimed_nc_.async_` the order decides what is left. -/
theorem inner_prefix_taken :
    parse 4 prefixes [102, 111, 111, 95, 97, 115, 121, 110, 99, 95, 98, 97, 114] =
      some ([102, 111, 111, 95, 98, 97, 114], 1) ∧
    expected [102, 111, 111, 95, 97, 115, 121, 110, 99, 95, 98, 97, 114] =
      ([102, 111, 111, 95, 97, 115, 121, 110, 99, 95, 98, 97, 114], 0) ∧
    parse 4 [.async, .timed, .mcast]
      [97, 115, 121, 116, 105, 109, 101, 100, 95, 110, 99, 95, 46, 97, 115, 121, 110, 99, 95] =
      some ([97, 115, 121, 110, 99, 95, 46], 3) ∧
    parse 4 [.timed, .async, .mcast]
      [97, 115, 121, 116, 105, 109, 101, 100, 95, 110, 99, 95, 46, 97, 115, 121, 110, 99, 95] =
      some ([46, 97, 115, 121, 110, 99, 95], 3) := by
  decide +kernel

end Cyue.Procs
