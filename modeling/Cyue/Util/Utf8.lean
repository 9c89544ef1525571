import Mathlib.Data.List.Basic
import Mathlib.Data.UInt
import Mathlib.Tactic.Common
import Cyue.Lib.Fuel

/-!
# Copying UTF-8

`utf8_copy` copies characters from a string until one of its limits is reached: the size of the
destination, the size of the source, or the number of characters.  The width of a character is taken
from its first byte, and no character is taken to have four bytes.
-/

namespace Cyue.Utf8

open Cyue.Fuel

/-! ## The code -/

/-- How many bytes begin with this one; 0 where it begins none. -/
def width (ch : UInt8) : ℕ :=
  if ch ≤ 0x7F then 1 else if ch &&& 0xE0 = 0xE0 then 3 else if ch &&& 0xC0 = 0xC0 then 2 else 0

/-- What a call of `get_oneword_utf8` returned, what it wrote to `obuf`, and the two sizes. -/
structure Word where
  ibuf : Option (List UInt8)
  obuf : List UInt8
  ilen : ℤ
  olen : ℤ

/-- `get_oneword_utf8`; the bytes are those that can be read from `ibuf` on. -/
def getOnewordUtf8 (ibuf : List UInt8) (ilen olen : ℤ) : Option Word :=
  -- the sizes are left as they are
  if ilen ≤ 0 ∨ olen ≤ 0 then some ⟨none, [], ilen, olen⟩
  else
    match ibuf with
    | [] => none
    | ch :: _ =>
        if width ch = 0 ∨ ilen < width ch ∨ olen < width ch then some ⟨none, [], ilen, 0⟩
        else if ibuf.length < width ch then none
        else some ⟨ibuf.drop (width ch), ibuf.take (width ch), ilen - width ch, width ch⟩

/-- The bytes that were copied, and where the 0 behind them was written. -/
structure Out where
  bytes : List UInt8
  stop : ℤ
  deriving DecidableEq

/-- The loop; it has no result where it reads through `NULL`, or a byte that cannot be read. -/
def copyLoop : ℕ → Option (List UInt8) → ℤ → ℤ → ℤ → Out → Option Out
  | 0, _, _, _, _, _ => none
  | fuel + 1, sNow, dlen, smax, len, out =>
      match sNow with
      | none => none
      | some s =>
          match s.head? with
          | none => none
          | some ch =>
              if ch = 0 then some out
              else
                match getOnewordUtf8 s smax dlen with
                | none => none
                | some w =>
                    let out := ⟨out.bytes ++ w.obuf, out.stop + w.olen⟩
                    if len - 1 ≤ 0 ∨ dlen - w.olen ≤ 1 ∨ w.ilen ≤ 0 then some out
                    else copyLoop fuel w.ibuf (dlen - w.olen) w.ilen (len - 1) out

def utf8Copy (fuel : ℕ) (dlen : ℤ) (src : List UInt8) (smax len : ℤ) : Option Out :=
  copyLoop fuel (some src) dlen smax len ⟨[], 0⟩

/-! ## The law -/

/-- As many pieces as there is room for, with one byte left in the destination. -/
def taken : ℤ → ℤ → ℤ → List (List UInt8) → List (List UInt8)
  | _, _, _, [] => []
  | dlen, smax, len, p :: ps =>
      if 1 ≤ len ∧ (p.length : ℤ) < dlen ∧ p.length ≤ smax then
        p :: taken (dlen - p.length) (smax - p.length) (len - 1) ps
      else []

def readable (text : List UInt8) (smax : ℤ) : List UInt8 := (text ++ [0]).take smax.toNat

/-- The destination has room for all that is written, and gets whole characters of a valid text. -/
structure Right (text : List UInt8) (dlen smax len : ℤ) (o : Out) : Prop where
  room : (o.bytes.length : ℤ) ≤ dlen ∧ 0 ≤ o.stop ∧ o.stop < dlen
  whole : ∀ cs : List Char, text = cs.flatMap String.utf8EncodeChar →
    o.bytes = (taken dlen smax len (cs.map String.utf8EncodeChar)).flatten ∧
      o.stop = o.bytes.length

/-- A string cut into pieces of the widths of their first bytes, up to a byte that begins none, or more
than there are. -/
def cut : List UInt8 → List (List UInt8)
  | [] => []
  | c :: r =>
      if c = 0 then []
      else if width c = 1 then [c] :: cut r
      else
        match r with
        | [] => []
        | a :: r =>
            if width c = 2 then [c, a] :: cut r
            else
              match r with
              | [] => []
              | b :: r => if width c = 3 then [c, a, b] :: cut r else []

/-- With pieces in place of characters: the copy ends behind some of them because a limit is reached, or
at the end of the string, or where no more characters are wanted or fit and the next one is refused. -/
def Stops (dlen smax len : ℤ) (s : List UInt8) : Prop :=
  let p := taken dlen smax len (cut s)
  let n := p.flatten.length
  0 < dlen ∧ 0 < smax ∧
    ((p ≠ [] ∧ (len = p.length ∨ dlen = n + 1 ∨ smax = n)) ∨ s[n]? = some 0 ∨
      ∃ c ∈ s[n]?, c ≠ 0 ∧ (width c = 0 ∨ smax < n + width c ∨ dlen < n + width c) ∧
        (len ≤ p.length + 1 ∨ dlen ≤ n + 1))

/-- The copy stops, and of a valid text no character of four bytes is copied, and none where none is
wanted. -/
def Handled (text : List UInt8) (dlen smax len : ℤ) : Prop :=
  Stops dlen smax (max len 1) (text ++ [0]) ∧
    ((∃ cs : List Char, text = cs.flatMap String.utf8EncodeChar) →
      ∀ p ∈ taken dlen smax (max len 1) (cut (text ++ [0])), 1 ≤ len ∧ ∀ c ∈ p.head?, c < 0xF0)

/-! ## Pieces -/

theorem width_cases (c : UInt8) : width c = 0 ∨ width c = 1 ∨ width c = 2 ∨ width c = 3 := by
  unfold width
  split
  · exact .inr (.inl rfl)
  · split
    · exact .inr (.inr (.inr rfl))
    · split
      · exact .inr (.inr (.inl rfl))
      · exact .inl rfl

/-- A string begins with a piece, or there is nothing to cut. -/
theorem cut_cases (c : UInt8) (r : List UInt8) (nonzero : c ≠ 0) :
    (cut (c :: r) = [] ∧ (width c = 0 ∨ (c :: r).length < width c)) ∨
    (∃ p s, c :: r = c :: p ++ s ∧ width c = (c :: p).length ∧ cut (c :: r) = (c :: p) :: cut s) := by
  rw [cut.eq_def]
  dsimp only
  rw [if_neg nonzero]
  obtain none | one | two | three := width_cases c
  · refine .inl ⟨?_, .inl none⟩
    rw [none]
    rcases r with _ | ⟨a, _ | ⟨b, r⟩⟩ <;> rfl
  · exact .inr ⟨[], r, rfl, one, if_pos one⟩
  · rw [two]
    rcases r with _ | ⟨a, r⟩
    · exact .inl ⟨rfl, .inr (by simp)⟩
    · exact .inr ⟨[a], r, rfl, rfl, rfl⟩
  · rw [three]
    rcases r with _ | ⟨a, _ | ⟨b, r⟩⟩
    · exact .inl ⟨rfl, .inr (by simp)⟩
    · exact .inl ⟨rfl, .inr (by simp)⟩
    · exact .inr ⟨[a, b], r, rfl, rfl, rfl⟩

theorem cut_ne_nil {s p : List UInt8} (mem : p ∈ cut s) : p ≠ [] := by
  induction h : s.length using Nat.strong_induction_on generalizing s with
  | _ n ih =>
      cases s with
      | nil => cases mem
      | cons c r =>
          by_cases zero : c = 0
          · rw [cut.eq_def] at mem
            dsimp only at mem
            rw [if_pos zero] at mem
            cases mem
          · obtain ⟨none, -⟩ | ⟨q, s, same, -, pieces⟩ := cut_cases c r zero
            · rw [none] at mem
              cases mem
            · rw [pieces] at mem
              rcases List.mem_cons.mp mem with rfl | mem
              · exact List.cons_ne_nil c q
              · have shorter := congrArg List.length same
                have some : (c :: q).length = q.length + 1 := List.length_cons
                rw [List.length_append, some] at shorter
                exact ih s.length (by omega) mem rfl

/-! ## What there is room for -/

theorem taken_cons {dlen smax len : ℤ} {p : List UInt8} (ps : List (List UInt8))
    (room : 1 ≤ len ∧ (p.length : ℤ) < dlen ∧ p.length ≤ smax) :
    taken dlen smax len (p :: ps) =
      p :: taken (dlen - p.length) (smax - p.length) (len - 1) ps := if_pos room

theorem taken_full {dlen smax len : ℤ} {p : List UInt8} (ps : List (List UInt8))
    (full : ¬ (1 ≤ len ∧ (p.length : ℤ) < dlen ∧ p.length ≤ smax)) :
    taken dlen smax len (p :: ps) = [] := if_neg full

/-- Where a limit is reached nothing more is taken. -/
theorem taken_limit {dlen smax len : ℤ} {ps : List (List UInt8)} (nonempty : ∀ p ∈ ps, p ≠ [])
    (limit : len ≤ 0 ∨ dlen ≤ 1 ∨ smax ≤ 0) : taken dlen smax len ps = [] := by
  cases ps with
  | nil => rfl
  | cons p ps =>
      apply taken_full
      have long := List.length_pos_of_ne_nil (nonempty p (List.mem_cons_self ..))
      omega

theorem taken_begins (dlen smax len : ℤ) (ps : List (List UInt8)) : taken dlen smax len ps <+: ps := by
  induction ps generalizing dlen smax len with
  | nil => exact List.nil_prefix
  | cons p ps ih =>
      unfold taken
      split
      · exact List.cons_prefix_cons.mpr ⟨rfl, ih ..⟩
      · exact List.nil_prefix

/-- What is taken fits. -/
theorem taken_fits {dlen smax len : ℤ} (ps : List (List UInt8)) (dst : 0 < dlen) (src : 0 ≤ smax)
    (chars : 0 ≤ len) :
    ((taken dlen smax len ps).flatten.length : ℤ) < dlen ∧
      ((taken dlen smax len ps).flatten.length : ℤ) ≤ smax ∧
      ((taken dlen smax len ps).length : ℤ) ≤ len := by
  induction ps generalizing dlen smax len with
  | nil => exact ⟨dst, src, chars⟩
  | cons p ps ih =>
      by_cases room : 1 ≤ len ∧ (p.length : ℤ) < dlen ∧ p.length ≤ smax
      · have dst : 0 < dlen - p.length := by omega
        have src : 0 ≤ smax - p.length := by omega
        have chars : 0 ≤ len - 1 := by omega
        obtain ⟨fits, fits', few⟩ := ih dst src chars
        rw [taken_cons ps room, List.flatten_cons, List.length_append, List.length_cons]
        push_cast
        omega
      · rw [taken_full ps room]
        exact ⟨dst, src, chars⟩

/-- And every beginning that fits is taken. -/
theorem taken_longest {dlen smax len : ℤ} {q ps : List (List UInt8)} (begins : q <+: ps)
    (fits : (q.flatten.length : ℤ) < dlen) (fits' : (q.flatten.length : ℤ) ≤ smax)
    (few : (q.length : ℤ) ≤ len) : q <+: taken dlen smax len ps := by
  induction q generalizing dlen smax len ps with
  | nil => exact List.nil_prefix
  | cons p q ih =>
      obtain ⟨rest, rfl⟩ := begins
      rw [List.flatten_cons, List.length_append] at fits fits'
      rw [List.length_cons] at few
      push_cast at fits fits' few
      rw [List.cons_append, taken_cons _ ⟨by omega, by omega, by omega⟩]
      exact List.cons_prefix_cons.mpr
        ⟨rfl, ih (List.prefix_append q rest) (by omega) (by omega) (by omega)⟩

/-! ## One turn of the loop -/

theorem getOnewordUtf8_refused {c : UInt8} {r : List UInt8} {smax dlen : ℤ} (src : 0 < smax)
    (dst : 0 < dlen) (refused : width c = 0 ∨ smax < width c ∨ dlen < width c) :
    getOnewordUtf8 (c :: r) smax dlen = some ⟨none, [], smax, 0⟩ := by
  unfold getOnewordUtf8
  rw [if_neg (by omega)]
  exact if_pos refused

theorem getOnewordUtf8_taken {c : UInt8} {r : List UInt8} {smax dlen : ℤ} (src : 0 < smax)
    (dst : 0 < dlen) (wanted : ¬ (width c = 0 ∨ smax < width c ∨ dlen < width c)) :
    getOnewordUtf8 (c :: r) smax dlen =
      if (c :: r).length < width c then none
      else some ⟨(c :: r).drop (width c), (c :: r).take (width c), smax - width c, width c⟩ := by
  unfold getOnewordUtf8
  rw [if_neg (by omega)]
  exact if_neg wanted

theorem copyLoop_turn {c : UInt8} (fuel : ℕ) (r : List UInt8) (dlen smax len : ℤ) (out : Out)
    (nonzero : c ≠ 0) :
    copyLoop (fuel + 1) (some (c :: r)) dlen smax len out =
      (getOnewordUtf8 (c :: r) smax dlen).bind fun w =>
        if len - 1 ≤ 0 ∨ dlen - w.olen ≤ 1 ∨ w.ilen ≤ 0 then
          some ⟨out.bytes ++ w.obuf, out.stop + w.olen⟩
        else copyLoop fuel w.ibuf (dlen - w.olen) w.ilen (len - 1)
          ⟨out.bytes ++ w.obuf, out.stop + w.olen⟩ := by
  rw [copyLoop]
  refine (if_neg nonzero).trans ?_
  cases getOnewordUtf8 (c :: r) smax dlen with
  | none => rfl
  | some w => rfl

theorem copyLoop_null (fuel : ℕ) (dlen smax len : ℤ) (out : Out) :
    copyLoop fuel none dlen smax len out = none := by
  cases fuel <;> rfl

theorem copyLoop_nothing (fuel : ℕ) (dlen smax len : ℤ) (out : Out) :
    copyLoop fuel (some []) dlen smax len out = none := by
  cases fuel <;> rfl

theorem copyLoop_mono {fuel more : ℕ} {s : Option (List UInt8)} {dlen smax len : ℤ} {out o : Out}
    (le : fuel ≤ more) (ran : copyLoop fuel s dlen smax len out = some o) :
    copyLoop more s dlen smax len out = some o := by
  induction fuel generalizing more s dlen smax len out with
  | zero => cases ran
  | succ fuel ih =>
      obtain ⟨more, rfl⟩ := Nat.exists_eq_add_of_le' (Nat.le_of_add_left_le le)
      rcases s with _ | _ | ⟨c, r⟩
      · cases ran
      · cases ran
      · by_cases zero : c = 0
        · rw [copyLoop] at ran ⊢
          exact (if_pos zero).trans ((if_pos zero).symm.trans ran)
        · rw [copyLoop_turn _ _ _ _ _ _ zero] at ran ⊢
          obtain ⟨w, word, ran⟩ := Option.bind_eq_some_iff.mp ran
          rw [word]
          refine (Option.bind_some ..).trans ?_
          split at ran
          · rename_i ended
            rw [if_pos ended]
            exact ran
          · rename_i going
            rw [if_neg going]
            exact ih (Nat.le_of_succ_le_succ le) ran

/-! ## The run -/

/-- The copy from these bytes on: it stops with what is taken, and a copy that leaves room for the 0 has
stopped. -/
structure Copies (dlen smax len : ℤ) (s : List UInt8) (out : Out) : Prop where
  stops : Stops dlen smax len s →
    ∃ fuel, copyLoop fuel (some (s.take smax.toNat)) dlen smax len out =
      some ⟨out.bytes ++ (taken dlen smax len (cut s)).flatten,
        out.stop + (taken dlen smax len (cut s)).flatten.length⟩
  stopped : ∀ fuel o, copyLoop fuel (some (s.take smax.toNat)) dlen smax len out = some o →
    o.stop < out.stop + dlen → Stops dlen smax len s

theorem copies_unreadable {dlen smax len : ℤ} {s : List UInt8} (out : Out)
    (unreadable : s = [] ∨ smax ≤ 0) : Copies dlen smax len s out := by
  have nothing : s.take smax.toNat = [] := by
    rcases unreadable with rfl | none
    · exact List.take_nil
    · rw [Int.toNat_of_nonpos none, List.take_zero]
  constructor
  · rintro ⟨-, src, stops⟩
    obtain rfl := unreadable.resolve_right (Int.not_le.mpr src)
    rcases stops with ⟨some, -⟩ | zero | ⟨c, mem, -⟩
    · exact absurd rfl some
    · cases zero
    · cases mem
  · intro fuel o ran
    rw [nothing, copyLoop_nothing] at ran
    cases ran

theorem take_cons_pos {smax : ℤ} (c : UInt8) (r : List UInt8) (src : 0 < smax) :
    ∃ t, (c :: r).take smax.toNat = c :: t := by
  obtain ⟨n, rfl⟩ := Int.eq_succ_of_zero_lt src
  exact ⟨r.take n, rfl⟩

theorem copies_end {dlen smax len : ℤ} (r : List UInt8) (out : Out) (src : 0 < smax) :
    Copies dlen smax len (0 :: r) out := by
  obtain ⟨t, memory⟩ := take_cons_pos 0 r src
  have nothing : cut (0 :: r) = [] := by
    rw [cut.eq_def]
    exact if_pos rfl
  constructor
  · intro _
    refine ⟨1, ?_⟩
    rw [memory, nothing]
    unfold taken
    rw [List.flatten_nil, List.append_nil, List.length_nil, Nat.cast_zero, Int.add_zero]
    rfl
  · intro fuel o ran room
    cases fuel with
    | zero => cases ran
    | succ fuel =>
        rw [memory] at ran
        obtain rfl : out = o := Option.some.inj ran
        refine ⟨by omega, src, .inr (.inl ?_)⟩
        rw [nothing]
        rfl

/-- A destination of no size. -/
theorem copies_closed {dlen smax len : ℤ} {c : UInt8} (r : List UInt8) (out : Out) (src : 0 < smax)
    (nonzero : c ≠ 0) (closed : dlen ≤ 0) : Copies dlen smax len (c :: r) out := by
  obtain ⟨t, memory⟩ := take_cons_pos c r src
  refine ⟨fun stops => absurd stops.1 (Int.not_lt.mpr closed), fun fuel o ran room => ?_⟩
  cases fuel with
  | zero => cases ran
  | succ fuel =>
      have word : getOnewordUtf8 (c :: t) smax dlen = some ⟨none, [], smax, dlen⟩ := by
        unfold getOnewordUtf8
        exact if_pos (.inr closed)
      rw [memory, copyLoop_turn _ _ _ _ _ _ nonzero, word, Option.bind_some,
        if_pos (.inr (.inl (by dsimp only; omega)))] at ran
      obtain rfl := Option.some.inj ran
      exact absurd room (Int.lt_irrefl _)

/-- What is taken where the next piece is refused. -/
theorem taken_refused {dlen smax : ℤ} {c : UInt8} {r : List UInt8} (len : ℤ) (nonzero : c ≠ 0)
    (refused : width c = 0 ∨ smax < width c ∨ dlen < width c ∨ (c :: r).length < width c) :
    taken dlen smax len (cut (c :: r)) = [] := by
  obtain ⟨nothing, -⟩ | ⟨p, s, same, wide, pieces⟩ := cut_cases c r nonzero
  · rw [nothing]
    rfl
  · have long := congrArg List.length same
    rw [List.length_append] at long
    have some : (c :: p).length = p.length + 1 := List.length_cons
    rw [pieces]
    apply taken_full
    omega

/-- A piece that is refused ends the copy where no more is wanted, and otherwise the next turn reads
through `NULL`. -/
theorem copies_refused {dlen smax len : ℤ} {c : UInt8} (r : List UInt8) (out : Out) (src : 0 < smax)
    (dst : 0 < dlen) (nonzero : c ≠ 0)
    (refused : width c = 0 ∨ smax < width c ∨ dlen < width c) : Copies dlen smax len (c :: r) out := by
  obtain ⟨t, memory⟩ := take_cons_pos c r src
  have nothing : taken dlen smax len (cut (c :: r)) = [] :=
    taken_refused len nonzero (refused.imp_right (Or.imp_right .inl))
  have turn (fuel : ℕ) : copyLoop (fuel + 1) (some (c :: t)) dlen smax len out =
      if len - 1 ≤ 0 ∨ dlen ≤ 1 then some out else none := by
    rw [copyLoop_turn _ _ _ _ _ _ nonzero, getOnewordUtf8_refused src dst refused, Option.bind_some,
      copyLoop_null, List.append_nil, Int.add_zero, Int.sub_zero]
    have more : ¬ smax ≤ 0 := Int.not_le.mpr src
    simp only [more, or_false]
  have stops : Stops dlen smax len (c :: r) ↔ len - 1 ≤ 0 ∨ dlen ≤ 1 := by
    unfold Stops
    rw [nothing]
    constructor
    · rintro ⟨-, -, ⟨none, -⟩ | zero | ⟨d, -, -, -, limit⟩⟩
      · exact absurd rfl none
      · exact absurd (Option.some.inj zero) nonzero
      · dsimp only [List.flatten_nil, List.length_nil, Nat.cast_zero] at limit
        omega
    · intro limit
      refine ⟨dst, src, .inr (.inr ⟨c, rfl, nonzero, ?_, ?_⟩)⟩
      · dsimp only [List.flatten_nil, List.length_nil, Nat.cast_zero]
        omega
      · dsimp only [List.flatten_nil, List.length_nil, Nat.cast_zero]
        omega
  rw [← memory] at turn
  constructor
  · intro limit
    refine ⟨1, ?_⟩
    rw [turn, if_pos (stops.mp limit), nothing, List.flatten_nil, List.append_nil, List.length_nil,
      Nat.cast_zero, Int.add_zero]
  · intro fuel o ran _
    cases fuel with
    | zero => cases ran
    | succ fuel =>
        rw [turn] at ran
        split at ran
        · rename_i limit
          exact stops.mpr limit
        · cases ran

theorem not_stops_of_wanted {dlen smax len : ℤ} {c : UInt8} {r : List UInt8} (nonzero : c ≠ 0)
    (wanted : ¬ (width c = 0 ∨ smax < width c ∨ dlen < width c))
    (nothing : taken dlen smax len (cut (c :: r)) = []) : ¬ Stops dlen smax len (c :: r) := by
  unfold Stops
  rw [nothing]
  rintro ⟨-, -, ⟨none, -⟩ | zero | ⟨d, mem, -, refused, -⟩⟩
  · exact absurd rfl none
  · exact absurd (Option.some.inj zero) nonzero
  · obtain rfl := Option.some.inj mem
    dsimp only [List.flatten_nil, List.length_nil, Nat.cast_zero] at refused
    omega

/-- A piece that goes on behind the end of the string. -/
theorem copies_short {dlen smax len : ℤ} {c : UInt8} {r : List UInt8} (out : Out) (src : 0 < smax)
    (dst : 0 < dlen) (nonzero : c ≠ 0)
    (wanted : ¬ (width c = 0 ∨ smax < width c ∨ dlen < width c)) (short : (c :: r).length < width c) :
    Copies dlen smax len (c :: r) out := by
  obtain ⟨t, memory⟩ := take_cons_pos c r src
  have nothing : taken dlen smax len (cut (c :: r)) = [] :=
    taken_refused len nonzero (.inr (.inr (.inr short)))
  refine ⟨fun stops => absurd stops (not_stops_of_wanted nonzero wanted nothing), fun fuel o ran _ => ?_⟩
  cases fuel with
  | zero => cases ran
  | succ fuel =>
      have less : (c :: t).length ≤ (c :: r).length := memory ▸ List.length_take_le' ..
      rw [memory, copyLoop_turn _ _ _ _ _ _ nonzero, getOnewordUtf8_taken src dst wanted,
        if_pos (less.trans_lt short)] at ran
      cases ran

/-- A piece that is copied, with the loop going on behind it. -/
theorem stops_piece_iff {dlen smax len : ℤ} {p s : List UInt8}
    (pieces : cut (p ++ s) = p :: cut s) (more : 1 < len) (room : (p.length : ℤ) + 1 < dlen)
    (rest : (p.length : ℤ) < smax) :
    Stops dlen smax len (p ++ s) ↔ Stops (dlen - p.length) (smax - p.length) (len - 1) s := by
  unfold Stops
  rw [pieces, taken_cons _ ⟨by omega, by omega, by omega⟩]
  generalize taken (dlen - p.length) (smax - p.length) (len - 1) (cut s) = q
  dsimp only
  rw [List.flatten_cons, List.length_append, List.length_cons]
  have behind : (p ++ s)[p.length + q.flatten.length]? = s[q.flatten.length]? := by
    rw [List.getElem?_append_right (Nat.le_add_right ..), Nat.add_sub_cancel_left]
  rw [behind]
  push_cast
  refine and_congr (by omega) (and_congr (by omega) (or_congr ?_ (or_congr Iff.rfl ?_)))
  · refine ⟨fun ⟨_, limit⟩ => ⟨?_, by omega⟩, fun ⟨_, limit⟩ => ⟨List.cons_ne_nil _ _, by omega⟩⟩
    rintro rfl
    rw [List.flatten_nil, List.length_nil, List.length_nil] at limit
    omega
  · refine exists_congr fun c => and_congr_right fun _ => and_congr_right fun _ => ?_
    refine and_congr (or_congr_right ?_) ?_
    · omega
    · omega

theorem copies_piece {dlen smax len : ℤ} {c : UInt8} {p s : List UInt8} (out : Out) (src : 0 < smax)
    (dst : 0 < dlen) (chars : 1 ≤ len) (nonzero : c ≠ 0)
    (wanted : ¬ (width c = 0 ∨ smax < width c ∨ dlen < width c)) (wide : width c = (c :: p).length)
    (pieces : cut (c :: p ++ s) = (c :: p) :: cut s)
    (next : ∀ out, 1 < len → (width c : ℤ) + 1 < dlen → (width c : ℤ) < smax →
      Copies (dlen - width c) (smax - width c) (len - 1) s out) :
    Copies dlen smax len (c :: p ++ s) out := by
  obtain ⟨t, memory⟩ := take_cons_pos c (p ++ s) src
  have copied : (c :: t).take (width c) = c :: p := by
    rw [← memory, List.take_take, min_eq_left (by omega), wide]
    exact List.take_left
  have behind : (c :: t).drop (width c) = s.take (smax - width c).toNat := by
    rw [← memory, List.drop_take, wide, ← List.cons_append, List.drop_left]
    congr 1
    omega
  have enough : ¬ (c :: t).length < width c := by
    have length := congrArg List.length copied
    rw [List.length_take, ← wide] at length
    omega
  have turn (fuel : ℕ) : copyLoop (fuel + 1) (some ((c :: p ++ s).take smax.toNat)) dlen smax len out =
      if len - 1 ≤ 0 ∨ dlen - width c ≤ 1 ∨ smax - width c ≤ 0 then
        some ⟨out.bytes ++ c :: p, out.stop + width c⟩
      else copyLoop fuel (some (s.take (smax - width c).toNat)) (dlen - width c) (smax - width c) (len - 1)
        ⟨out.bytes ++ c :: p, out.stop + width c⟩ := by
    rw [List.cons_append, memory, copyLoop_turn _ _ _ _ _ _ nonzero,
      getOnewordUtf8_taken src dst wanted, if_neg enough, copied, behind]
    rfl
  by_cases limit : len - 1 ≤ 0 ∨ dlen - width c ≤ 1 ∨ smax - width c ≤ 0
  · -- the loop is left behind this piece, which may have filled the destination
    simp only [if_pos limit] at turn
    by_cases full : dlen = width c
    · have nothing : taken dlen smax len (cut (c :: p ++ s)) = [] := by
        rw [pieces]
        apply taken_full
        omega
      have goes : ¬ Stops dlen smax len (c :: (p ++ s)) := not_stops_of_wanted nonzero wanted nothing
      refine ⟨fun stops => absurd stops goes, fun fuel o ran room => ?_⟩
      cases fuel with
      | zero => cases ran
      | succ fuel =>
          rw [turn] at ran
          obtain rfl := Option.some.inj ran
          rw [full] at room
          exact absurd room (Int.lt_irrefl _)
    · have one : taken dlen smax len (cut (c :: p ++ s)) = [c :: p] := by
        rw [pieces, taken_cons _ ⟨chars, by omega, by omega⟩,
          taken_limit (fun q mem => cut_ne_nil mem) (by omega)]
      constructor
      · intro _
        refine ⟨1, ?_⟩
        rw [turn, one, List.flatten_cons, List.flatten_nil, List.append_nil, wide]
      · intro fuel o ran _
        unfold Stops
        rw [one]
        refine ⟨dst, src, .inl ⟨List.cons_ne_nil _ _, ?_⟩⟩
        rw [List.flatten_cons, List.flatten_nil, List.append_nil, ← wide, List.length_singleton]
        omega
  · simp only [if_neg limit] at turn
    have next := next ⟨out.bytes ++ c :: p, out.stop + width c⟩ (by omega) (by omega) (by omega)
    have same : Stops dlen smax len (c :: p ++ s) ↔ _ :=
      stops_piece_iff pieces (by omega) (by omega) (by omega)
    rw [← wide] at same
    constructor
    · intro stops
      obtain ⟨fuel, ran⟩ := next.stops (same.mp stops)
      refine ⟨fuel + 1, ?_⟩
      rw [turn, ran, pieces, taken_cons _ ⟨chars, by omega, by omega⟩, List.flatten_cons,
        List.length_append, ← wide, List.append_assoc]
      push_cast
      rw [Int.add_assoc]
    · intro fuel o ran room
      cases fuel with
      | zero => cases ran
      | succ fuel =>
          rw [turn] at ran
          exact same.mpr (next.stopped fuel o ran (by dsimp only; omega))

theorem copies {dlen smax len : ℤ} (s : List UInt8) (out : Out) (chars : 1 ≤ len) :
    Copies dlen smax len s out := by
  induction length : s.length using Nat.strong_induction_on generalizing s dlen smax len out with
  | _ n ih =>
      by_cases src : 0 < smax
      swap
      · exact copies_unreadable out (.inr (Int.not_lt.mp src))
      cases s with
      | nil => exact copies_unreadable out (.inl rfl)
      | cons c r =>
          by_cases nonzero : c = 0
          · subst nonzero
            exact copies_end r out src
          by_cases dst : 0 < dlen
          swap
          · exact copies_closed r out src nonzero (Int.not_lt.mp dst)
          by_cases wanted : width c = 0 ∨ smax < width c ∨ dlen < width c
          · exact copies_refused r out src dst nonzero wanted
          obtain ⟨-, none | short⟩ | ⟨p, s, same, wide, pieces⟩ := cut_cases c r nonzero
          · exact absurd (.inl none) wanted
          · exact copies_short out src dst nonzero wanted short
          · have shorter := congrArg List.length same
            have some : (c :: p).length = p.length + 1 := List.length_cons
            rw [List.length_append, some, length] at shorter
            rw [same] at pieces ⊢
            refine copies_piece out src dst chars nonzero wanted wide pieces fun out more _ _ => ?_
            exact ih s.length (by omega) s out (by omega) rfl

/-! ## Valid texts -/

theorem cut_piece {c : UInt8} {p : List UInt8} (s : List UInt8) (nonzero : c ≠ 0)
    (wide : width c = (c :: p).length) : cut (c :: p ++ s) = (c :: p) :: cut s := by
  obtain ⟨-, none | short⟩ | ⟨q, t, same, wide', pieces⟩ := cut_cases c (p ++ s) nonzero
  · rw [wide] at none
    cases none
  · have length : (c :: (p ++ s)).length = (c :: p).length + s.length :=
      @List.length_append _ (c :: p) s
    omega
  · have same : c :: p ++ s = c :: q ++ t := same
    obtain ⟨first, rfl⟩ := List.append_inj same (wide.symm.trans wide')
    rw [← first] at pieces
    exact pieces

/-- A character of up to three bytes is a piece; one of four bytes is a piece and a byte that begins
none. -/
theorem encode_cases (c : Char) :
    (∃ b q, String.utf8EncodeChar c = b :: q ∧ width b = (b :: q).length ∧ b < 0xF0) ∨
    (∃ b x y z, String.utf8EncodeChar c = [b, x, y, z] ∧ width b = 3 ∧ ¬ b < 0xF0 ∧ width z = 0) := by
  have one : ∀ v < 128, width (UInt8.ofNat v) = 1 ∧ UInt8.ofNat v < 0xF0 := by decide
  have two : ∀ v < 32, width (UInt8.ofNat (v + 0xC0)) = 2 ∧ UInt8.ofNat (v + 0xC0) < 0xF0 := by decide
  have three : ∀ v < 16, width (UInt8.ofNat (v + 0xE0)) = 3 ∧ UInt8.ofNat (v + 0xE0) < 0xF0 := by decide
  have four : ∀ v < 8, width (UInt8.ofNat (v + 0xF0)) = 3 ∧ ¬ UInt8.ofNat (v + 0xF0) < 0xF0 := by decide
  have behind : ∀ v < 64, width (UInt8.ofNat (v + 0x80)) = 0 := by decide
  unfold String.utf8EncodeChar
  dsimp only
  split
  · rename_i small
    obtain ⟨wide, low⟩ := one _ (Nat.lt_succ_of_le small)
    exact .inl ⟨_, [], rfl, wide, low⟩
  · split
    · obtain ⟨wide, low⟩ := two _ (Nat.mod_lt (c.val.toNat / 64) (by decide))
      exact .inl ⟨_, _, rfl, wide, low⟩
    · split
      · obtain ⟨wide, low⟩ := three _ (Nat.mod_lt (c.val.toNat / 4096) (by decide))
        exact .inl ⟨_, _, rfl, wide, low⟩
      · obtain ⟨wide, high⟩ := four _ (Nat.mod_lt (c.val.toNat / 262144) (by decide))
        exact .inr ⟨_, _, _, _, rfl, wide, high, behind _ (Nat.mod_lt _ (by decide))⟩

def Low (ps : List (List UInt8)) : Prop := ∀ p ∈ ps, ∀ c ∈ p.head?, c < 0xF0

/-- Of a valid text the pieces are the characters up to the first one of four bytes; where that is taken
there are too many or too few bytes. -/
theorem taken_valid (cs : List Char) (dlen smax len : ℤ) (rest : List UInt8)
    (plain : 0 ∉ cs.flatMap String.utf8EncodeChar) :
    (Low (taken dlen smax len (cut (cs.flatMap String.utf8EncodeChar ++ 0 :: rest))) ∧
      taken dlen smax len (cut (cs.flatMap String.utf8EncodeChar ++ 0 :: rest)) =
        taken dlen smax len (cs.map String.utf8EncodeChar)) ∨
    (¬ Low (taken dlen smax len (cut (cs.flatMap String.utf8EncodeChar ++ 0 :: rest))) ∧
      (taken dlen smax len (cut (cs.flatMap String.utf8EncodeChar ++ 0 :: rest))).flatten.length ≠
        (taken dlen smax len (cs.map String.utf8EncodeChar)).flatten.length) := by
  induction cs generalizing dlen smax len with
  | nil =>
      have nothing : cut (0 :: rest) = [] := by
        rw [cut.eq_def]
        exact if_pos rfl
      rw [List.flatMap_nil, List.nil_append, nothing]
      exact .inl ⟨fun p mem => absurd mem List.not_mem_nil, rfl⟩
  | cons c cs ih =>
      rw [List.flatMap_cons] at plain ⊢
      rw [List.map_cons]
      obtain ⟨here, later⟩ := not_or.mp (List.mem_append.not.mp plain)
      rw [List.append_assoc]
      obtain ⟨b, q, same, wide, low⟩ | ⟨b, x, y, z, same, wide, high, none⟩ := encode_cases c
      · rw [same] at here ⊢
        have nonzero : b ≠ 0 := fun zero => here (zero ▸ List.mem_cons_self ..)
        rw [cut_piece _ nonzero wide]
        by_cases room : 1 ≤ len ∧ ((b :: q).length : ℤ) < dlen ∧ (b :: q).length ≤ smax
        · rw [taken_cons _ room, taken_cons _ room]
          have first : Low [b :: q] := by
            intro p mem d head
            obtain rfl := List.mem_singleton.mp mem
            obtain rfl := Option.some.inj head
            exact low
          obtain ⟨lows, same⟩ | ⟨highs, differ⟩ := ih (dlen - (b :: q).length)
            (smax - (b :: q).length) (len - 1) later
          · refine .inl ⟨fun p mem => ?_, by rw [same]⟩
            rcases List.mem_cons.mp mem with rfl | mem
            · exact first _ (List.mem_singleton_self _)
            · exact lows p mem
          · refine .inr ⟨fun all => highs fun p mem => all p (List.mem_cons_of_mem _ mem), ?_⟩
            rw [List.flatten_cons, List.flatten_cons, List.length_append, List.length_append]
            exact fun same => differ (Nat.add_left_cancel same)
        · rw [taken_full _ room, taken_full _ room]
          exact .inl ⟨fun p mem => absurd mem List.not_mem_nil, rfl⟩
      · rw [same] at here ⊢
        have nonzero : b ≠ 0 := fun zero => here (zero ▸ List.mem_cons_self ..)
        have nonzero' : z ≠ 0 := fun zero => here (by rw [zero]; simp)
        have stop (s : List UInt8) : cut (z :: s) = [] := by
          obtain ⟨nothing, -⟩ | ⟨p, s', -, wide, -⟩ := cut_cases z s nonzero'
          · exact nothing
          · rw [none] at wide
            cases wide
        have pieces (s : List UInt8) : cut ([b, x, y, z] ++ s) = [[b, x, y]] := by
          rw [show [b, x, y, z] ++ s = b :: [x, y] ++ (z :: s) from rfl, cut_piece (p := [x, y]) _ nonzero wide, stop]
        rw [pieces]
        by_cases room : 1 ≤ len ∧ ((([b, x, y] : List UInt8).length : ℕ) : ℤ) < dlen ∧
            ((([b, x, y] : List UInt8).length : ℕ) : ℤ) ≤ smax
        · refine .inr ⟨fun all => ?_, ?_⟩
          · apply high
            exact all [b, x, y] (by rw [taken_cons _ room]; exact List.mem_cons_self ..) b rfl
          · rw [taken_cons _ room]
            unfold taken
            split
            · rw [List.flatten_cons, List.length_append]
              simp
            · simp
        · rw [taken_full _ room, taken_full]
          · exact .inl ⟨fun p mem => absurd mem List.not_mem_nil, rfl⟩
          · simp only [List.length_cons, List.length_nil] at room ⊢
            omega

/-! ## The copy -/

/-- A copy that should have no characters is like one that should have one. -/
theorem utf8Copy_limit (fuel : ℕ) (dlen : ℤ) (src : List UInt8) (smax len : ℤ) :
    utf8Copy fuel dlen src smax len = utf8Copy fuel dlen src smax (max len 1) := by
  rcases le_or_gt 1 len with some | none
  · rw [max_eq_left some]
  · rw [max_eq_right none.le]
    unfold utf8Copy
    cases fuel with
    | zero => rfl
    | succ fuel =>
        rcases src with _ | ⟨c, r⟩
        · rfl
        · by_cases zero : c = 0
          · rw [copyLoop, copyLoop]
            exact (if_pos zero).trans (if_pos zero).symm
          · rw [copyLoop_turn _ _ _ _ _ _ zero, copyLoop_turn _ _ _ _ _ _ zero]
            congr 1
            funext w
            rw [if_pos (.inl (by omega)), if_pos (.inl (by omega))]

def written (text : List UInt8) (dlen smax len : ℤ) : List (List UInt8) :=
  taken dlen smax (max len 1) (cut (text ++ [0]))

theorem utf8Copy_stops {text : List UInt8} {dlen smax len : ℤ}
    (stops : Stops dlen smax (max len 1) (text ++ [0])) :
    Yields (fun fuel => utf8Copy fuel dlen (readable text smax) smax len)
      ⟨(written text dlen smax len).flatten, (written text dlen smax len).flatten.length⟩ := by
  obtain ⟨fuel, ran⟩ := (copies (text ++ [0]) ⟨[], 0⟩ (le_max_right len 1)).stops stops
  rw [List.nil_append, Int.zero_add] at ran
  have same : (fun fuel => utf8Copy fuel dlen (readable text smax) smax len) =
      fun fuel => utf8Copy fuel dlen (readable text smax) smax (max len 1) :=
    funext fun fuel => utf8Copy_limit ..
  rw [same]
  exact yields_of_mono ran copyLoop_mono

theorem stops_of_room {text : List UInt8} {dlen smax len : ℤ} {o : Out}
    (yields : Yields (fun fuel => utf8Copy fuel dlen (readable text smax) smax len) o)
    (room : o.stop < dlen) : Stops dlen smax (max len 1) (text ++ [0]) := by
  obtain ⟨fuel, enough⟩ := yields.enough
  have ran := enough fuel (Nat.le_refl fuel)
  rw [utf8Copy_limit] at ran
  refine (copies (text ++ [0]) ⟨[], 0⟩ (le_max_right len 1)).stopped fuel o ran ?_
  rwa [Int.zero_add]

theorem written_ne_nil {text p : List UInt8} {dlen smax len : ℤ} (mem : p ∈ written text dlen smax len) :
    p ≠ [] := cut_ne_nil ((taken_begins ..).subset mem)

theorem encode_ne_nil (cs : List Char) : ∀ p ∈ cs.map String.utf8EncodeChar, p ≠ [] := by
  intro p mem
  obtain ⟨c, -, rfl⟩ := List.mem_map.mp mem
  exact String.utf8EncodeChar_ne_nil

/-- Of a valid text the characters that fit are written exactly if they are not more than are wanted and
none has four bytes. -/
theorem written_valid_iff (cs : List Char) (dlen smax len : ℤ)
    (plain : 0 ∉ cs.flatMap String.utf8EncodeChar) :
    (written (cs.flatMap String.utf8EncodeChar) dlen smax len).flatten =
        (taken dlen smax len (cs.map String.utf8EncodeChar)).flatten ↔
      ∀ p ∈ written (cs.flatMap String.utf8EncodeChar) dlen smax len,
        1 ≤ len ∧ ∀ c ∈ p.head?, c < 0xF0 := by
  rcases le_or_gt 1 len with some | none
  · unfold written
    rw [max_eq_left some]
    obtain ⟨low, same⟩ | ⟨high, differ⟩ := taken_valid cs dlen smax len [] plain
    · exact iff_of_true (by rw [same]) fun p mem => ⟨some, low p mem⟩
    · refine iff_of_false (fun same => differ (by rw [same])) fun all => high fun p mem => (all p mem).2
  · rw [taken_limit (encode_ne_nil cs) (.inl (by omega)), List.flatten_nil]
    constructor
    · intro empty p mem
      exact absurd (List.flatten_eq_nil_iff.mp empty p mem) (written_ne_nil mem)
    · intro all
      rw [List.flatten_eq_nil_iff]
      intro p mem
      exact absurd (all p mem).1 (Int.not_le.mpr none)

/-- A copy reads, writes and gives what it should exactly if it stops, and of a valid text no character of
four bytes and no unwanted one is copied. -/
theorem utf8Copy_right_iff {text : List UInt8} (plain : 0 ∉ text) (dlen smax len : ℤ) :
    (∃ o, Yields (fun fuel => utf8Copy fuel dlen (readable text smax) smax len) o ∧
      Right text dlen smax len o) ↔ Handled text dlen smax len := by
  constructor
  · rintro ⟨o, yields, right⟩
    have stops := stops_of_room yields right.room.2.2
    obtain rfl := (utf8Copy_stops stops).unique yields
    refine ⟨stops, ?_⟩
    rintro ⟨cs, rfl⟩
    exact (written_valid_iff cs dlen smax len plain).mp (right.whole cs rfl).1
  · rintro ⟨stops, low⟩
    refine ⟨_, utf8Copy_stops stops, ?_, ?_⟩
    · obtain ⟨fits, -, -⟩ := taken_fits (cut (text ++ [0])) stops.1 stops.2.1.le
        (Int.zero_le_ofNat 1 |>.trans (le_max_right len 1))
      exact ⟨fits.le, Int.natCast_nonneg _, fits⟩
    · rintro cs rfl
      exact ⟨(written_valid_iff cs dlen smax len plain).mpr (low ⟨cs, rfl⟩), rfl⟩

theorem utf8Copy_right_iff_two :
    ∃ o, Yields (fun fuel => utf8Copy fuel 8 (readable [97, 0xC3, 0xA9] 4) 4 5) o ∧
      Right [97, 0xC3, 0xA9] 8 4 5 o :=
  (utf8Copy_right_iff (by decide) 8 4 5).mpr
    ⟨⟨by decide, by decide, .inr (.inl (by decide +kernel))⟩, fun _ => by decide +kernel⟩

/-- One character is put into a destination of one byte, with the 0 behind it; at a character of four bytes
the loop reads through `NULL`. -/
theorem oneByte_overflows :
    utf8Copy 1 1 (readable [97] 2) 2 4 = some ⟨[97], 1⟩ ∧ ¬ Right [97] 1 2 4 ⟨[97], 1⟩ ∧
      [0xF0, 0x9F, 0x98, 0x80] = [Char.ofNat 0x1F600].flatMap String.utf8EncodeChar ∧
      ∀ fuel, utf8Copy fuel 16 (readable [0xF0, 0x9F, 0x98, 0x80] 5) 5 4 = none := by
  refine ⟨by decide +kernel, fun right => absurd right.room.2.2 (Int.lt_irrefl 1), by decide +kernel,
    fun fuel => ?_⟩
  rcases fuel with _ | _ | fuel
  · rfl
  · rfl
  · exact copyLoop_null fuel 13 2 2 ⟨[0xF0, 0x9F, 0x98], 3⟩

end Cyue.Utf8
