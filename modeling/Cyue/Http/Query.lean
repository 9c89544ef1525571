import Mathlib.Data.List.TakeWhile
import Mathlib.Data.UInt
import Mathlib.Tactic.Common
import Cyue.Lib.Fuel

/-!
# Parameters of a request

`parse_http_req_str` looks for a parameter in a query string, in one pass over the bytes.  Where the
parameter in front of a separator has no equals sign it goes on without going further.
-/

namespace Cyue.Http.Query

open Cyue.Fuel

def nbrEnotfound : ℤ := -9

/-- What a call returned and what it wrote to `buf`. -/
structure Out where
  ret : ℤ
  buf : List UInt8
  deriving DecidableEq

def notFound : Out := ⟨nbrEnotfound, []⟩

/-! ## The code -/

/-- `w` behind `pos` bytes; the bytes from `prev` to `mark`, or to `w` where `mark` is `NULL`, and the
bytes behind `mark`. -/
structure Scan where
  pos : ℕ
  name : List UInt8
  value : Option (List UInt8)

/-- The comparison of the name with as many bytes at the tag; no name has the 0 that is behind them. -/
def cmp (tag name : List UInt8) : Bool := name.isPrefixOf tag

def give (buflen : ℤ) (value : List UInt8) : Out :=
  if 1 < value.length + 1 ∧ (value.length + 1 : ℕ) ≤ buflen then ⟨value.length, value ++ [0]⟩
  else notFound

def Scan.push (s : Scan) (c : UInt8) : Scan :=
  match s.value with
  | some v => ⟨s.pos + 1, s.name, some (v ++ [c])⟩
  | none => if c = 61 then ⟨s.pos + 1, s.name, some []⟩ else ⟨s.pos + 1, s.name ++ [c], none⟩

/-- The loop, and what follows it; none when the fuel is used up. -/
def scan (tag : List UInt8) (buflen : ℤ) : ℕ → List UInt8 → Scan → Option Out
  | 0, _, _ => none
  | _ + 1, [], s =>
      match s.value with
      | none => some notFound
      | some v =>
          -- `mark` is `req` where all the bytes are the sign and what is behind it
          if s.pos = v.length + 1 then some notFound
          else if cmp tag s.name then some (give buflen v)
          else some notFound
  | fuel + 1, c :: w, s =>
      if c = 38 then
        match s.value with
        | none => scan tag buflen fuel (c :: w) s
        | some v =>
            if cmp tag s.name then some (give buflen v)
            else if 65536 < s.pos + 1 then some notFound
            else scan tag buflen fuel w ⟨s.pos + 1, [], none⟩
      else if 65536 < s.pos + 1 then some notFound
      else scan tag buflen fuel w (s.push c)

def parseHttpReqStr (fuel : ℕ) (req tag : List UInt8) (buflen : ℤ) : Option Out :=
  scan tag buflen fuel req ⟨0, [], none⟩

/-! ## Parameters -/

def nameOf (s : List UInt8) : List UInt8 := s.takeWhile fun c => c ≠ 61

/-- The value, which a parameter without an equals sign does not have. -/
def valueOf (s : List UInt8) : Option (List UInt8) := (s.dropWhile fun c => c ≠ 61).tail?

def parameters (req : List UInt8) : List (List UInt8) := req.splitOn 38

def first (named : List UInt8 → Bool) (ps : List (List UInt8)) : Option (List UInt8) :=
  ps.findSome? fun s => if named (nameOf s) then valueOf s else none

/-- A value that is not empty and fits the buffer with its end. -/
def usable (buflen : ℤ) (value : List UInt8) : Bool := value ≠ [] ∧ (value.length : ℤ) < buflen

def answer (value : Option (List UInt8)) : Out :=
  value.elim notFound fun v => ⟨v.length, v ++ [0]⟩

/-- The value of the first parameter of this name, if it is usable. -/
def expected (req tag : List UInt8) (buflen : ℤ) : Out :=
  answer ((first (fun name => name = tag) (parameters req)).filter (usable buflen))

/-! ## What the code looks at -/

/-- The parameters behind `pos` bytes that end within the first 65536 bytes. -/
def within : ℕ → List (List UInt8) → List (List UInt8)
  | _, [] => []
  | pos, s :: ps => if pos + s.length ≤ 65536 then s :: within (pos + s.length + 1) ps else []

/-- The first parameter in front of a separator that has no equals sign or whose name begins the tag has
an equals sign. -/
def Passes (tag : List UInt8) (pos : ℕ) (ps : List (List UInt8)) : Prop :=
  ∀ s ∈ (within pos ps.dropLast).find? fun s => (valueOf s).isNone || cmp tag (nameOf s),
    valueOf s ≠ none

/-- The first parameter within reach whose name begins the tag; one with an empty name is not seen where
it is the only one. -/
def seen (req tag : List UInt8) : Option (List UInt8) :=
  if req.head? = some 61 ∧ 38 ∉ req then none else first (cmp tag) (within 0 (parameters req))

/-- The search passes every separator in front of what it finds, and it finds what it should, or the same
value elsewhere, or nothing usable where it should find nothing usable. -/
def Handled (req tag : List UInt8) (buflen : ℤ) : Prop :=
  Passes tag 0 (parameters req) ∧
    (seen req tag).filter (usable buflen) =
      (first (fun name => name = tag) (parameters req)).filter (usable buflen)

/-! ## One parameter -/

theorem foldl_value (s : List UInt8) (pos : ℕ) (name v : List UInt8) :
    s.foldl Scan.push ⟨pos, name, some v⟩ = ⟨pos + s.length, name, some (v ++ s)⟩ := by
  induction s generalizing pos v with
  | nil =>
      rw [List.append_nil]
      rfl
  | cons c s ih =>
      rw [List.foldl_cons]
      refine (ih (pos + 1) (v ++ [c])).trans ?_
      rw [List.append_assoc, List.length_cons, Nat.add_assoc, Nat.add_comm 1]
      rfl

/-- The bytes of a parameter, taken apart at its first equals sign. -/
theorem foldl_name (s : List UInt8) (pos : ℕ) (name : List UInt8) :
    s.foldl Scan.push ⟨pos, name, none⟩ = ⟨pos + s.length, name ++ nameOf s, valueOf s⟩ := by
  induction s generalizing pos name with
  | nil =>
      unfold nameOf valueOf
      rw [List.takeWhile_nil, List.append_nil]
      rfl
  | cons c s ih =>
      rw [List.foldl_cons, List.length_cons]
      unfold nameOf valueOf
      by_cases sign : c = 61
      · subst sign
        have first : Scan.push ⟨pos, name, none⟩ 61 = ⟨pos + 1, name, some []⟩ := rfl
        rw [first, foldl_value, List.takeWhile_cons_of_neg (by simp),
          List.dropWhile_cons_of_neg (by simp), List.append_nil, Nat.add_assoc, Nat.add_comm 1]
        rfl
      · have more : Scan.push ⟨pos, name, none⟩ c = ⟨pos + 1, name ++ [c], none⟩ := if_neg sign
        rw [more, ih, List.takeWhile_cons_of_pos (by simpa using sign),
          List.dropWhile_cons_of_pos (by simpa using sign), List.append_assoc, Nat.add_assoc,
          Nat.add_comm 1]
        rfl

theorem push_pos (s : Scan) (c : UInt8) : (s.push c).pos = s.pos + 1 := by
  unfold Scan.push
  split
  · rfl
  · split <;> rfl

theorem scan_word (tag : List UInt8) (buflen : ℤ) {s : List UInt8} (plain : 38 ∉ s) (fuel : ℕ) (w : List UInt8)
    (st : Scan) (start : st.pos ≤ 65536) :
    scan tag buflen (fuel + s.length) (s ++ w) st =
      if st.pos + s.length ≤ 65536 then scan tag buflen fuel w (s.foldl Scan.push st)
      else some notFound := by
  induction s generalizing st with
  | nil => exact (if_pos start).symm
  | cons c s ih =>
      have other : c ≠ 38 := (List.ne_of_not_mem_cons plain).symm
      rw [List.cons_append, List.length_cons, ← Nat.add_assoc, scan, if_neg other, List.foldl_cons]
      by_cases far : 65536 < st.pos + 1
      · rw [if_pos far, if_neg (by omega)]
      · rw [if_neg far, ih (List.not_mem_of_not_mem_cons plain) _ (by rw [push_pos]; omega), push_pos,
          Nat.add_assoc, Nat.add_comm 1]

theorem scan_mono {tag w : List UInt8} {buflen : ℤ} {fuel more : ℕ} {st : Scan} {r : Out}
    (le : fuel ≤ more) (ran : scan tag buflen fuel w st = some r) :
    scan tag buflen more w st = some r := by
  induction fuel generalizing more w st with
  | zero => cases ran
  | succ fuel ih =>
      obtain ⟨more, rfl⟩ := Nat.exists_eq_add_of_le' (Nat.le_of_add_left_le le)
      have le := Nat.le_of_succ_le_succ le
      cases w with
      | nil => exact ran
      | cons c w =>
          rw [scan] at ran ⊢
          split at ran
          · rename_i separator
            rw [if_pos separator]
            cases value : st.value with
            | none =>
                rw [value] at ran
                exact ih le ran
            | some v =>
                rw [value] at ran
                dsimp only at ran ⊢
                split at ran
                · rename_i named
                  rw [if_pos named]
                  exact ran
                · rename_i unnamed
                  rw [if_neg unnamed]
                  split at ran
                  · rename_i far
                    rw [if_pos far]
                    exact ran
                  · rename_i near
                    rw [if_neg near]
                    exact ih le ran
          · rename_i other
            rw [if_neg other]
            split at ran
            · rename_i far
              rw [if_pos far]
              exact ran
            · rename_i near
              rw [if_neg near]
              exact ih le ran

/-- In front of a separator without an equals sign the loop stays where it is. -/
theorem scan_stuck (tag w name : List UInt8) (buflen : ℤ) (fuel pos : ℕ) :
    scan tag buflen fuel (38 :: w) ⟨pos, name, none⟩ = none := by
  induction fuel with
  | zero => rfl
  | succ fuel ih =>
      rw [scan, if_pos rfl]
      exact ih

theorem give_eq (buflen : ℤ) (v : List UInt8) :
    give buflen v = answer ((some v).filter (usable buflen)) := by
  unfold give answer usable
  cases v with
  | nil =>
      rw [if_neg (by simp), Option.filter_some_neg (by simp)]
      rfl
  | cons c v =>
      by_cases fits : (((c :: v).length + 1 : ℕ) : ℤ) ≤ buflen
      · rw [if_pos ⟨by simp, fits⟩, Option.filter_some_pos (by simp at fits ⊢; omega)]
        rfl
      · rw [if_neg fun both => fits both.2, Option.filter_some_neg (by simp at fits ⊢; omega)]
        rfl

/-! ## The run -/

theorem within_far {pos : ℕ} (ps : List (List UInt8)) (far : 65536 < pos) : within pos ps = [] := by
  cases ps with
  | nil => rfl
  | cons s ps => exact if_neg (by omega)

theorem first_cons (named : List UInt8 → Bool) (s : List UInt8) (ps : List (List UInt8)) :
    first named (s :: ps) = ((if named (nameOf s) then valueOf s else none).or (first named ps)) := by
  unfold first
  rw [List.findSome?_cons]
  split <;> simp_all

theorem parameter_eq {s v : List UInt8} (value : valueOf s = some v) : s = nameOf s ++ 61 :: v := by
  have whole := List.takeWhile_append_dropWhile (p := fun c : UInt8 => c ≠ 61) (l := s)
  unfold valueOf at value
  cases behind : s.dropWhile fun c => c ≠ 61 with
  | nil =>
      rw [behind] at value
      cases value
  | cons c v' =>
      rw [behind] at value whole
      obtain rfl := Option.some.inj value
      have stop := List.head?_dropWhile_not (fun c : UInt8 => decide (c ≠ 61)) s
      rw [behind] at stop
      obtain rfl : c = 61 := not_not.mp (of_decide_eq_false stop)
      exact whole.symm

/-- What the search gives from the beginning of a parameter on. -/
structure Searches (tag : List UInt8) (buflen : ℤ) (pos : ℕ) (w : List UInt8)
    (ps : List (List UInt8)) : Prop where
  stays : ¬ Passes tag pos ps → ∀ fuel, scan tag buflen fuel w ⟨pos, [], none⟩ = none
  ends : Passes tag pos ps → ∃ fuel, scan tag buflen fuel w ⟨pos, [], none⟩ =
    some (answer ((first (cmp tag) (within pos ps)).filter (usable buflen)))

/-- The last parameter. -/
theorem searches_last {tag w : List UInt8} (buflen : ℤ) {pos : ℕ} (plain : 38 ∉ w) (start : pos ≤ 65536)
    (sees : pos = 0 → w.head? ≠ some 61) : Searches tag buflen pos w [w] := by
  have passes : Passes tag pos [w] := fun s found => by cases found
  refine ⟨fun stuck => absurd passes stuck, fun _ => ⟨1 + w.length, ?_⟩⟩
  have run := scan_word tag buflen plain 1 [] ⟨pos, [], none⟩ start
  rw [List.append_nil] at run
  rw [run, foldl_name, List.nil_append]
  unfold within
  split
  · rw [first_cons]
    cases value : valueOf w with
    | none =>
        rw [ite_self]
        rfl
    | some v =>
        have notAll : ¬ pos + w.length = v.length + 1 := by
          have whole := parameter_eq value
          have length := congrArg List.length whole
          rw [List.length_append, List.length_cons] at length
          intro all
          have empty : nameOf w = [] := List.eq_nil_of_length_eq_zero (by omega)
          apply sees (by omega)
          rw [whole, empty]
          rfl
        have last : scan tag buflen 1 [] ⟨pos + w.length, nameOf w, some v⟩ =
            if pos + w.length = v.length + 1 then some notFound
            else if cmp tag (nameOf w) then some (give buflen v) else some notFound := rfl
        rw [last, if_neg notAll]
        split
        · rw [give_eq]
          rfl
        · rfl
  · rfl

theorem passes_cons (tag : List UInt8) {s : List UInt8} {pos : ℕ} {ps : List (List UInt8)} (more : ps ≠ [])
    (near : pos + s.length ≤ 65536) :
    Passes tag pos (s :: ps) ↔
      valueOf s ≠ none ∧ (cmp tag (nameOf s) ∨ Passes tag (pos + s.length + 1) ps) := by
  unfold Passes
  rw [List.dropLast_cons_of_ne_nil more, within, if_pos near, List.find?_cons]
  cases value : valueOf s with
  | none =>
      refine iff_of_false (fun passes => ?_) fun both => both.1 rfl
      exact passes s rfl value
  | some v =>
      rw [and_iff_right (Option.some_ne_none v), Option.isNone_some, Bool.false_or]
      cases named : cmp tag (nameOf s) with
      | true =>
          refine iff_of_true (fun t found => ?_) (.inl rfl)
          obtain rfl := Option.some.inj found
          rw [value]
          exact Option.some_ne_none v
      | false => exact (or_iff_right Bool.false_ne_true).symm

/-- A parameter in front of a separator. -/
theorem searches_cons {tag s w : List UInt8} {buflen : ℤ} {pos : ℕ} {ps : List (List UInt8)}
    (plain : 38 ∉ s) (start : pos ≤ 65536) (more : ps ≠ [])
    (next : pos + s.length + 1 ≤ 65536 → Searches tag buflen (pos + s.length + 1) w ps) :
    Searches tag buflen pos (s ++ 38 :: w) (s :: ps) := by
  have split : (s :: ps).dropLast = s :: ps.dropLast := List.dropLast_cons_of_ne_nil more
  have run (fuel : ℕ) := scan_word tag buflen plain fuel (38 :: w)
    ⟨pos, [], none⟩ start
  have later {fuel : ℕ} {r : Out}
      (ran : scan tag buflen fuel (s ++ 38 :: w) ⟨pos, [], none⟩ = some r) :=
    scan_mono (Nat.le_add_right fuel s.length) ran
  by_cases near : pos + s.length ≤ 65536
  swap
  · -- the limit is behind this parameter
    have passes : Passes tag pos (s :: ps) := by
      intro t found
      rw [split, within, if_neg near] at found
      cases found
    refine ⟨fun stuck => absurd passes stuck, fun _ => ⟨0 + s.length, ?_⟩⟩
    rw [run, if_neg near, within, if_neg near]
    rfl
  simp only [if_pos near, foldl_name, List.nil_append] at run
  have passes := passes_cons tag more near
  have inside : within pos (s :: ps) = s :: within (pos + s.length + 1) ps := if_pos near
  cases value : valueOf s with
  | none =>
      rw [value] at run passes
      refine ⟨fun _ fuel => ?_, fun ends => absurd rfl (passes.mp ends).1⟩
      cases ran : scan tag buflen fuel (s ++ 38 :: w) ⟨pos, [], none⟩ with
      | none => rfl
      | some r =>
          have ran := later ran
          rw [run, scan_stuck] at ran
          cases ran
  | some v =>
      rw [value, and_iff_right (Option.some_ne_none v)] at passes
      rw [value] at run
      have separator (fuel : ℕ) : scan tag buflen (fuel + 1) (38 :: w) ⟨pos + s.length, nameOf s, some v⟩ =
          if cmp tag (nameOf s) then some (give buflen v)
          else if 65536 < pos + s.length + 1 then some notFound
          else scan tag buflen fuel w ⟨pos + s.length + 1, [], none⟩ := by
        rw [scan, if_pos rfl]
      cases named : cmp tag (nameOf s) with
      | true =>
          refine ⟨fun stuck => absurd (passes.mpr (.inl named)) stuck, fun _ => ⟨1 + s.length, ?_⟩⟩
          rw [run, separator, if_pos named, give_eq, inside, first_cons, if_pos named, value]
          rfl
      | false =>
          have unnamed : ¬ cmp tag (nameOf s) = true := Bool.eq_false_iff.mp named
          rw [or_iff_right unnamed] at passes
          have skipped : first (cmp tag) (within pos (s :: ps)) =
              first (cmp tag) (within (pos + s.length + 1) ps) := by
            rw [inside, first_cons, if_neg unnamed]
            rfl
          by_cases far : 65536 < pos + s.length + 1
          · have rest : Passes tag (pos + s.length + 1) ps := by
              intro t found
              rw [within_far _ far] at found
              cases found
            refine ⟨fun stuck => absurd (passes.mpr rest) stuck, fun _ => ⟨1 + s.length, ?_⟩⟩
            rw [run, separator, if_neg unnamed, if_pos far, skipped, within_far _ far]
            rfl
          · have next := next (Nat.le_of_not_lt far)
            constructor
            · intro stuck fuel
              cases ran : scan tag buflen fuel (s ++ 38 :: w) ⟨pos, [], none⟩ with
              | none => rfl
              | some r =>
                  have ran := scan_mono (Nat.le_succ fuel) ran
                  have ran := scan_mono (Nat.le_add_right (fuel + 1) s.length) ran
                  rw [run, separator, if_neg unnamed, if_neg far,
                    next.stays fun rest => stuck (passes.mpr rest)] at ran
                  cases ran
            · intro ends
              obtain ⟨fuel, ran⟩ := next.ends (passes.mp ends)
              refine ⟨fuel + 1 + s.length, ?_⟩
              rw [run, separator, if_neg unnamed, if_neg far, ran, skipped]

theorem parameters_last {w : List UInt8} (plain : 38 ∉ w) : parameters w = [w] :=
  List.splitOn_eq_singleton plain

theorem searches (tag : List UInt8) (buflen : ℤ) {pos : ℕ} (w : List UInt8) (start : pos ≤ 65536)
    (sees : pos = 0 → ¬ (w.head? = some 61 ∧ 38 ∉ w)) : Searches tag buflen pos w (parameters w) := by
  induction length : w.length using Nat.strong_induction_on generalizing w pos with
  | _ n ih =>
      by_cases separated : 38 ∈ w
      · obtain ⟨s, w', rfl, plain⟩ := List.eq_append_cons_of_mem separated
        have split : parameters (s ++ 38 :: w') = s :: parameters w' :=
          List.splitOn_append_cons_self_of_not_mem plain w'
        rw [split]
        refine searches_cons plain start (List.splitOn_ne_nil 38 w') fun near => ?_
        refine ih w'.length ?_ w' near (fun zero => by omega) rfl
        rw [← length, List.length_append, List.length_cons]
        omega
      · rw [parameters_last separated]
        exact searches_last buflen separated start fun zero sign => sees zero ⟨sign, separated⟩

/-- One parameter with an empty name. -/
theorem unseen {req : List UInt8} (tag : List UInt8) (buflen : ℤ)
    (bare : req.head? = some 61 ∧ 38 ∉ req) :
    Passes tag 0 (parameters req) ∧ scan tag buflen (1 + req.length) req ⟨0, [], none⟩ = some notFound := by
  obtain ⟨v, rfl⟩ := List.head?_eq_some_iff.mp bare.1
  rw [parameters_last bare.2]
  refine ⟨fun s found => (by cases found), ?_⟩
  have run := scan_word tag buflen bare.2 1 [] ⟨0, [], none⟩ (Nat.zero_le _)
  rw [List.append_nil] at run
  rw [run, foldl_name]
  split
  · have last : scan tag buflen 1 [] ⟨0 + (61 :: v).length, [] ++ nameOf (61 :: v), some v⟩ =
        if 0 + (61 :: v).length = v.length + 1 then some notFound
        else if cmp tag ([] ++ nameOf (61 :: v)) then some (give buflen v) else some notFound := rfl
    exact last.trans (if_pos (Nat.zero_add _))
  · rfl

/-- The search ends exactly if it passes the separators, with what it has seen. -/
theorem parse_cases (req tag : List UInt8) (buflen : ℤ) :
    (¬ Passes tag 0 (parameters req) ∧ ∀ fuel, parseHttpReqStr fuel req tag buflen = none) ∨
    (Passes tag 0 (parameters req) ∧ Yields (fun fuel => parseHttpReqStr fuel req tag buflen)
      (answer ((seen req tag).filter (usable buflen)))) := by
  unfold seen
  split
  · rename_i bare
    obtain ⟨passes, ran⟩ := unseen tag buflen bare
    exact .inr ⟨passes, yields_of_mono ran scan_mono⟩
  · rename_i other
    have all := searches tag buflen req (Nat.zero_le _) fun _ => other
    by_cases passes : Passes tag 0 (parameters req)
    · obtain ⟨fuel, ran⟩ := all.ends passes
      exact .inr ⟨passes, yields_of_mono ran scan_mono⟩
    · exact .inl ⟨passes, all.stays passes⟩

theorem answer_inj {v v' : Option (List UInt8)} (same : answer v = answer v') : v = v' := by
  cases v <;> cases v'
  · rfl
  · exact absurd (congrArg Out.buf same) (by simp [answer, notFound])
  · exact absurd (congrArg Out.buf same) (by simp [answer, notFound])
  · have buf := congrArg Out.buf same
    rw [List.append_cancel_right buf]

/-- The search returns, with what it should find, exactly if it passes every separator up to what it sees
and that is what it should see. -/
theorem parseHttpReqStr_right_iff (req tag : List UInt8) (buflen : ℤ) :
    Yields (fun fuel => parseHttpReqStr fuel req tag buflen) (expected req tag buflen) ↔
      Handled req tag buflen := by
  unfold Handled expected
  obtain ⟨stuck, never⟩ | ⟨passes, yields⟩ := parse_cases req tag buflen
  · refine iff_of_false (fun yields => ?_) fun handled => stuck handled.1
    obtain ⟨n, enough⟩ := yields.enough
    have ran := enough n (Nat.le_refl n)
    rw [never] at ran
    cases ran
  · rw [and_iff_right passes]
    constructor
    · intro right
      exact answer_inj (right.unique yields)
    · intro same
      rwa [← same]

/-- For `a&t=1` and the tag `t` the loop does not end, for `t=1&tag=2` and the tag `tag` it finds `1`. -/
theorem separator_stays :
    (∀ fuel, parseHttpReqStr fuel [97, 38, 116, 61, 49] [116] 16 = none) ∧
    expected [97, 38, 116, 61, 49] [116] 16 = ⟨1, [49, 0]⟩ ∧
    parseHttpReqStr 20 [116, 61, 49, 38, 116, 97, 103, 61, 50] [116, 97, 103] 16 = some ⟨1, [49, 0]⟩ ∧
    expected [116, 61, 49, 38, 116, 97, 103, 61, 50] [116, 97, 103] 16 = ⟨1, [50, 0]⟩ := by
  refine ⟨fun fuel => ?_, by decide +kernel, by decide +kernel, by decide +kernel⟩
  cases fuel with
  | zero => rfl
  | succ fuel => exact scan_stuck [116] [116, 61, 49] [97] 16 fuel 1

end Cyue.Http.Query
