import Cyue.Http.Lookup

/-!
# Bodies with a length

Behind a header block with `Content-Length` the receiver compares the end of the body with
what it has, each time it has stored a byte.  It does not look at the length in between, so
that a body of no bytes is not seen to be complete.
-/

namespace Cyue.Http

/-! ## Header blocks -/

/-- The value of decimal digits behind others with the value `n`. -/
def decFrom : ℕ → List UInt8 → Option ℕ
  | n, [] => some n
  | n, c :: s => (decDigit c).bind fun d => decFrom (n * 10 + d) s

/-- A header block with the length `n`; no line in front of the one with the length begins
with `Content-Length`.  The digits go into the 256 bytes of `hdrint`. -/
structure LengthBlock where
  before : List Line
  line : Line
  after : List Line
  crlf : Bool
  n : ℕ
  few : (before ++ line :: after).length ≤ maxHeader
  names : line.Names (ascii "Content-Length")
  first : ∀ l ∈ before, ¬ Named (ascii "Content-Length") l.text
  nonempty : line.value ≠ []
  decimal : decFrom 0 line.value = some n
  short : line.value.length < 256

def LengthBlock.lines (h : LengthBlock) : List Line := h.before ++ h.line :: h.after

def LengthBlock.bytes (h : LengthBlock) : List UInt8 :=
  h.lines.flatMap Line.bytes ++ ending h.crlf

/-- What the receiver is when it got the header block and then some bytes. -/
def LengthBlock.received (h : LengthBlock) (f : Fsm) (chunkSize : ℕ) (bytes : List UInt8) : Fsm :=
  (f.reset chunkSize).append (h.bytes ++ bytes) (h.bytes ++ bytes).length

/-- The message ends with the `n`-th byte behind the header block, whichever bytes of `s` have come
so far. -/
structure LengthBlock.Ends (h : LengthBlock) (f : Fsm) (chunkSize : ℕ) (s : List UInt8) : Prop where
  finish : ∀ bytes, bytes <+: s →
    ((h.received f chunkSize bytes).state = .recvFinish ↔ h.n ≤ bytes.length)
  good : ∀ bytes, bytes <+: s → (h.received f chunkSize bytes).state ≠ .error
  body : ∀ bytes, bytes <+: s → h.n ≤ bytes.length →
    (h.received f chunkSize bytes).body = bytes.take h.n

/-! ## Numbers -/

theorem decDigit_ne {c : UInt8} {d : ℕ} (digit : decDigit c = some d) :
    c ≠ 0 ∧ c ≠ 45 ∧ c ≠ 58 := by
  refine ⟨?_, ?_, ?_⟩ <;> rintro rfl <;> exact absurd digit.symm (Option.some_ne_none d)

theorem decFrom_plain {n v : ℕ} {digits : List UInt8} (value : decFrom n digits = some v) :
    ∀ c ∈ digits, c ≠ 0 ∧ c ≠ 45 ∧ c ≠ 58 := by
  induction digits generalizing n with
  | nil => exact fun c mem => absurd mem List.not_mem_nil
  | cons c digits ih =>
      obtain ⟨d, digit, rest⟩ := Option.bind_eq_some_iff.mp value
      intro c' mem
      rcases List.mem_cons.mp mem with rfl | mem
      · exact decDigit_ne digit
      · exact ih rest c' mem

/-- The next digit of a number that may have left the range of an `int`. -/
theorem int32_step (n b d : ℤ) : int32 (int32 n * b + d) = int32 (n * b + d) := by
  unfold int32
  rw [← Int.bmod_add_bmod, Int.bmod_mul_bmod, Int.bmod_add_bmod]

theorem digitsFrom_dec {max n v pos : ℕ} {digits : List UInt8} (value : decFrom n digits = some v)
    (short : pos + digits.length < max) :
    digitsFrom 10 decDigit max (int32 n) pos digits = some (int32 v) := by
  induction digits generalizing n pos with
  | nil =>
      obtain rfl := Option.some.inj value
      rfl
  | cons c digits ih =>
      obtain ⟨d, digit, value⟩ := Option.bind_eq_some_iff.mp value
      rw [List.length_cons] at short
      have below : ¬ max ≤ pos + 1 := by omega
      have next : int32 (int32 n * (10 : ℕ) + d) = int32 ((n * 10 + d : ℕ) : ℤ) := by
        rw [int32_step]
        push_cast
        rfl
      rw [digitsFrom, if_neg (decDigit_ne digit).1, digit]
      refine (if_neg below).trans ?_
      rw [next]
      exact ih value (by omega)

/-- `_atoi` keeps the low bits of a number. -/
theorem atoi_dec {max v : ℕ} {digits : List UInt8} (value : decFrom 0 digits = some v)
    (short : digits.length < max) : atoi digits max = some (int32 v) := by
  have start : int32 ((0 : ℕ) : ℤ) = 0 := by decide
  have run : digitsFrom 10 decDigit max (int32 ((0 : ℕ) : ℤ)) 0 digits = some (int32 v) :=
    digitsFrom_dec value (by omega)
  rw [start] at run
  unfold atoi number
  split
  · rename_i s
    exact absurd rfl (decFrom_plain value 45 (List.mem_cons_self ..)).2.1
  · exact run

/-! ## The header block -/

theorem LengthBlock.behind (h : LengthBlock) :
    (firstNamed h.lines (ascii "Content-Length")).map (Line.behind (ascii "Content-Length")) =
      some h.line.value := by
  have named := (Line.Names.text_eq h.names).1
  have first : firstNamed h.lines (ascii "Content-Length") = some h.line := by
    unfold firstNamed LengthBlock.lines
    rw [List.find?_append, List.find?_eq_none.mpr fun l mem => ?_, Option.none_or]
    · exact List.find?_cons_of_pos (decide_eq_true named)
    · rw [decide_eq_true_eq]
      exact h.first l mem
  have plain := decFrom_plain h.decimal
  have value : h.line.behind (ascii "Content-Length") = h.line.value := by
    rw [Line.behind_eq_value_iff h.names]
    constructor
    · intro colon
      exact (plain 58 (List.mem_of_head? colon)).2.2 rfl
    · intro zero
      exact (plain 0 zero).1 rfl
  rw [first, Option.map_some, value]

namespace Fsm

/-- The body has `body` so far, and its length is `m`. -/
structure Counts (f : Fsm) (m : ℕ) (body : List UInt8) : Prop where
  state : f.state = .recvBodyNochunk
  start : f.bd ≤ f.len
  stored : f.p.drop f.bd = body
  bl : f.bl = m

theorem Holds.length {f : Fsm} {h : LengthBlock} (holds : Holds f h.lines) :
    f.hdrint (ascii "Content-Length") = some (int32 h.n) := by
  have found : f.hdrstr (ascii "Content-Length") 256 = some h.line.value := by
    rw [(holds.hdrstr_eq (by decide) (by decide)).1, h.behind, Option.filter_some,
      if_pos (decide_eq_true h.short)]
  rw [hdrint, found]
  exact atoi_dec h.decimal h.short

theorem Holds.lengthEnd {f : Fsm} {h : LengthBlock} (holds : Holds f h.lines) :
    Counts f.headerEnd (h.n % 2 ^ 32) [] ∧ f.headerEnd.len = f.len ∧ f.headerEnd.max = f.max := by
  obtain ⟨version, res, same⟩ := f.putrc_eq
  have kept : Holds f.putrc h.lines := by
    rw [same]
    exact ⟨holds.count, holds.texts⟩
  have run : f.headerEnd = { f.putrc with
      bd := f.putrc.len, bl := (int32 h.n % 2 ^ 32).toNat, state := .recvBodyNochunk } := by
    unfold Fsm.headerEnd
    dsimp only
    rw [kept.length]
  have buffer : f.putrc.p = f.p := same ▸ rfl
  have low : (int32 h.n % 2 ^ 32).toNat = h.n % 2 ^ 32 := by
    have bits : int32 h.n % 2 ^ 32 = (h.n : ℤ) % 2 ^ 32 := Int.bmod_emod
    rw [bits]
    omega
  rw [run]
  refine ⟨⟨rfl, le_rfl, List.drop_length, ?_⟩, congrArg List.length buffer, same ▸ rfl⟩
  dsimp only
  exact low

/-! ## The body -/

/-- The byte behind the ones that are there. -/
theorem Counts.accept {f : Fsm} {m : ℕ} {body : List UInt8} (counts : Counts f m body)
    (room : Room f 1) (c : UInt8) :
    f.accept c =
      (f.pushAll [c]).goto
        (if 0 < int32 ((m : ℤ) - (body.length + 1 : ℕ)) then .recvBodyNochunk
         else if int32 ((m : ℤ) - (body.length + 1 : ℕ)) < 0 then .error else .recvFinish) := by
  have going : ¬ f.state.Final := by
    rw [counts.state]
    decide
  have state : (f.pushAll [c]).state = .recvBodyNochunk := counts.state
  have length : (f.pushAll [c]).len = f.len + 1 := len_pushAll f [c]
  have size : f.len = f.bd + body.length := by
    have start := counts.start
    rw [← counts.stored, List.length_drop]
    unfold len at start ⊢
    omega
  have diff : (((f.pushAll [c]).bd + (f.pushAll [c]).bl : ℕ) : ℤ) - ((f.pushAll [c]).len : ℕ) =
      (m : ℤ) - (body.length + 1 : ℕ) := by
    have bl : (f.pushAll [c]).bl = m := counts.bl
    have bd : (f.pushAll [c]).bd = f.bd := rfl
    rw [length, bl, bd, size]
    omega
  rw [accept_eq going room]
  change (f.pushAll [c]).recv = _
  rw [recv, state]
  change (f.pushAll [c]).recvBodyNochunk = _
  unfold recvBodyNochunk
  dsimp only
  rw [diff]
  split
  · rfl
  · split
    · rfl
    · rfl

theorem Counts.more {f : Fsm} {m : ℕ} {body : List UInt8} (counts : Counts f m body)
    (room : Room f 1) (small : m ≤ 2 ^ 31) (few : body.length + 1 < m) (c : UInt8) :
    Counts (f.accept c) m (body ++ [c]) ∧ (f.accept c).len = f.len + 1 ∧ (f.accept c).max = f.max := by
  have diff : 0 < int32 ((m : ℤ) - (body.length + 1 : ℕ)) := by
    rw [int32_of_small (by omega) (by omega)]
    omega
  have run : f.accept c = (f.pushAll [c]).goto .recvBodyNochunk := by
    rw [counts.accept room, if_pos diff]
  rw [run]
  refine ⟨⟨rfl, ?_, ?_, counts.bl⟩, len_pushAll f [c], rfl⟩
  · change f.bd ≤ (f.pushAll [c]).len
    rw [len_pushAll]
    exact counts.start.trans (Nat.le_add_right _ _)
  · change (f.p ++ [c]).drop f.bd = _
    rw [List.drop_append_of_le_length counts.start, counts.stored]

theorem Counts.last {f : Fsm} {m : ℕ} {body : List UInt8} (counts : Counts f m body)
    (room : Room f 1) (last : body.length + 1 = m) (c : UInt8) :
    (f.accept c).state = .recvFinish ∧ (f.accept c).body = body ++ [c] := by
  have zero : int32 ((m : ℤ) - (body.length + 1 : ℕ)) = 0 := by
    rw [last, Int.sub_self]
    decide
  have run : f.accept c = (f.pushAll [c]).goto .recvFinish := by
    rw [counts.accept room, zero]
    rfl
  rw [run]
  refine ⟨rfl, ?_⟩
  change ((f.p ++ [c]).drop f.bd).take f.bl = _
  rw [List.drop_append_of_le_length counts.start, counts.stored, counts.bl, ← last]
  apply List.take_of_length_le
  rw [List.length_append]
  exact le_rfl

/-- The first byte behind a block whose length is no positive `int`. -/
theorem Counts.refused {f : Fsm} {m : ℕ} (counts : Counts f m []) (room : Room f 1)
    (width : m < 2 ^ 32) (large : m = 0 ∨ 2 ^ 31 < m) (c : UInt8) :
    (f.accept c).state = .error := by
  have diff : int32 ((m : ℤ) - (([] : List UInt8).length + 1 : ℕ)) < 0 := by
    change int32 ((m : ℤ) - 1) < 0
    rcases large with rfl | large
    · decide
    · unfold int32
      rw [Int.bmod_def]
      omega
  rw [counts.accept room, if_neg (Int.not_lt.mpr (Int.le_of_lt diff)), if_pos diff]
  rfl

/-- The bytes up to the length are the body. -/
theorem Counts.acceptAll {f : Fsm} {m : ℕ} {body bytes : List UInt8} (counts : Counts f m body)
    (room : Room f bytes.length) (small : m ≤ 2 ^ 31) (less : body.length < m) :
    ((f.acceptAll bytes).state =
        if m ≤ (body ++ bytes).length then .recvFinish else .recvBodyNochunk) ∧
      (m ≤ (body ++ bytes).length → (f.acceptAll bytes).body = (body ++ bytes).take m) := by
  induction bytes generalizing f body with
  | nil =>
      rw [List.append_nil, if_neg (not_le.mpr less)]
      exact ⟨counts.state, fun le => absurd le (not_le.mpr less)⟩
  | cons c bytes ih =>
      have joined : body ++ c :: bytes = (body ++ [c]) ++ bytes :=
        (List.append_assoc body [c] bytes).symm
      have length : (body ++ [c]).length = body.length + 1 := List.length_append
      have room₁ := room.less (Nat.le_add_left 1 _)
      change ((f.accept c).acceptAll bytes).state = _ ∧ (_ → ((f.accept c).acceptAll bytes).body = _)
      rw [joined]
      rcases Nat.lt_or_eq_of_le (Nat.succ_le_of_lt less) with few | last
      · obtain ⟨counts', len, max⟩ := counts.more room₁ small few c
        exact ih counts' (room.after len max (Nat.add_comm 1 _).le) (length.trans_lt few)
      · obtain ⟨state, stored⟩ := counts.last room₁ last c
        have final : (f.accept c).state.Final := by
          rw [state]
          rfl
        have whole : m ≤ ((body ++ [c]) ++ bytes).length := by
          rw [List.length_append, length]
          omega
        rw [acceptAll_final final, if_pos whole]
        refine ⟨state, fun _ => stored.trans ?_⟩
        rw [List.take_append_of_le_length (by omega), List.take_of_length_le (by omega)]

end Fsm

open Fsm

/-- The header block is read. -/
theorem LengthBlock.read (h : LengthBlock) (f : Fsm) {chunkSize n : ℕ}
    (room : Room (f.reset chunkSize) (h.bytes.length + n))
    (short : ∀ l ∈ h.lines, l.text.length < 2 ^ 16) :
    Counts ((f.reset chunkSize).acceptAll h.bytes) (h.n % 2 ^ 32) [] ∧
      Room ((f.reset chunkSize).acceptAll h.bytes) n := by
  have few : ([] ++ h.lines).length ≤ maxHeader := h.few
  have some : [] ++ h.lines ≠ [] :=
    List.append_ne_nil_of_right_ne_nil h.before (List.cons_ne_nil h.line h.after)
  rw [LengthBlock.bytes, List.length_append, Nat.add_assoc] at room
  obtain ⟨heads, room, _⟩ := (heads_reset f chunkSize).lines few room short
  rw [LengthBlock.bytes, acceptAll_append,
    heads.empty (heads.holds.p_ne_nil some) (room.less (Nat.le_add_right _ _))]
  obtain ⟨counts, length, max⟩ := (heads.holds.pushAll (gap h.crlf)).lengthEnd
  refine ⟨counts, room.after (k := (ending h.crlf).length) ?_ max le_rfl⟩
  rw [length, len_pushAll, gap, List.length_replicate]

theorem LengthBlock.line_length (h : LengthBlock) {l : Line} (mem : l ∈ h.lines) :
    l.text.length ≤ h.bytes.length := by
  have line : l.bytes.length ≤ (h.lines.flatMap Line.bytes).length := length_le_flatMap mem
  rw [Line.bytes, List.length_append] at line
  rw [LengthBlock.bytes, List.length_append]
  omega

/-- The receiver behind the block, and what it does with the bytes that come then. -/
theorem LengthBlock.received_eq (h : LengthBlock) (f : Fsm) {chunkSize : ℕ} {s : List UInt8}
    (promised : chunkSize ≤ 65536) (fits : (h.bytes ++ s).length < chunkSize) :
    ∃ g, Counts g (h.n % 2 ^ 32) [] ∧ Room g s.length ∧
      ∀ bytes, h.received f chunkSize bytes = g.acceptAll bytes := by
  have room := room_reset f fits (by omega)
  rw [List.length_append] at room fits
  obtain ⟨counts, room⟩ := h.read f room fun l mem => by
    have length := h.line_length mem
    omega
  refine ⟨_, counts, room, fun bytes => ?_⟩
  unfold LengthBlock.received
  rw [append_eq, acceptAll_append]

/-- The body ends with its last byte if and only if there is one, and the length is an `int`, or one
too many.  A longer length is taken modulo 2 ^ 32; it is right as long as nothing came, or
less than what is left of it. -/
theorem LengthBlock.ends_iff (h : LengthBlock) (f : Fsm) {chunkSize : ℕ} {s : List UInt8}
    (promised : chunkSize ≤ 65536) (fits : (h.bytes ++ s).length < chunkSize) :
    h.Ends f chunkSize s ↔
      0 < h.n ∧
        (h.n ≤ 2 ^ 31 ∨ s = [] ∨ s.length < h.n % 2 ^ 32 ∧ h.n % 2 ^ 32 ≤ 2 ^ 31) := by
  obtain ⟨g, counts, room, received⟩ := h.received_eq f promised fits
  have part {bytes : List UInt8} (begins : bytes <+: s) : Room g bytes.length :=
    room.less begins.length_le
  have start : (h.received f chunkSize []).state = .recvBodyNochunk := by
    rw [received]
    exact counts.state
  have width : h.n % 2 ^ 32 < 2 ^ 32 := Nat.mod_lt _ (by decide)
  have less : h.n % 2 ^ 32 ≤ h.n := Nat.mod_le _ _
  constructor
  · intro ends
    have positive : 0 < h.n := by
      by_contra zero
      have done := (ends.finish [] List.nil_prefix).mpr (Nat.eq_zero_of_not_pos zero).le
      exact absurd (start.symm.trans done) (by decide)
    refine ⟨positive, ?_⟩
    by_contra other
    obtain ⟨large, other⟩ := not_or.mp other
    obtain ⟨some, other⟩ := not_or.mp other
    obtain ⟨c, rest, rfl⟩ := List.exists_cons_of_ne_nil some
    have first : [c] <+: c :: rest := ⟨rest, rfl⟩
    by_cases odd : h.n % 2 ^ 32 = 0 ∨ 2 ^ 31 < h.n % 2 ^ 32
    · apply ends.good [c] first
      rw [received]
      exact counts.refused (part first) width odd c
    · have begins := List.take_prefix (h.n % 2 ^ 32) (c :: rest)
      have length : ((c :: rest).take (h.n % 2 ^ 32)).length = h.n % 2 ^ 32 := by
        rw [List.length_take]
        omega
      have done : (h.received f chunkSize ((c :: rest).take (h.n % 2 ^ 32))).state = .recvFinish := by
        have run := (counts.acceptAll (part begins) (by omega) (by omega : 0 < h.n % 2 ^ 32)).1
        rw [List.nil_append, if_pos length.ge] at run
        rw [received]
        exact run
      have early := (ends.finish _ begins).mp done
      omega
  · rintro ⟨positive, either⟩
    have state (bytes : List UInt8) (begins : bytes <+: s) :
        (h.received f chunkSize bytes).state =
            (if h.n ≤ bytes.length then .recvFinish else .recvBodyNochunk) ∧
          (h.n ≤ bytes.length → (h.received f chunkSize bytes).body = bytes.take h.n) := by
      rw [received]
      have le := begins.length_le
      rcases either with small | rfl | ⟨few, small⟩
      · have same : h.n % 2 ^ 32 = h.n := Nat.mod_eq_of_lt (by omega)
        rw [same] at counts
        exact counts.acceptAll (part begins) small positive
      · obtain rfl := List.prefix_nil.mp begins
        have none : ¬ h.n ≤ ([] : List UInt8).length := not_le.mpr positive
        rw [if_neg none]
        exact ⟨counts.state, fun le => absurd le none⟩
      · have none : ¬ h.n ≤ bytes.length := by omega
        have run := (counts.acceptAll (part begins) small (by omega : 0 < h.n % 2 ^ 32)).1
        rw [List.nil_append, if_neg (by omega)] at run
        rw [if_neg none]
        exact ⟨run, fun le => absurd le none⟩
    refine ⟨fun bytes begins => ?_, fun bytes begins => ?_, fun bytes begins => (state bytes begins).2⟩
    · rw [(state bytes begins).1]
      split
      · rename_i whole
        exact iff_of_true rfl whole
      · rename_i part
        exact iff_of_false (by decide) part
    · rw [(state bytes begins).1]
      split
      · decide
      · decide

def lengthTwo : LengthBlock where
  before := [⟨ascii "HTTP/1.0 200 OK", true, by decide, by decide, by decide⟩]
  line := ⟨ascii "Content-Length: 2", true, by decide, by decide, by decide⟩
  after := []
  crlf := true
  n := 2
  few := by decide
  names := by decide
  first := by decide
  nonempty := by decide
  decimal := by decide
  short := by decide

theorem ends_iff_two : lengthTwo.Ends cleared 512 (ascii "ok") :=
  (lengthTwo.ends_iff cleared (by decide) (by decide)).mpr ⟨by decide, .inl (by decide)⟩

def lengthZero : LengthBlock where
  before := [⟨ascii "HTTP/1.1 204 No Content", true, by decide, by decide, by decide⟩]
  line := ⟨ascii "Content-Length: 0", true, by decide, by decide, by decide⟩
  after := []
  crlf := true
  n := 0
  few := by decide
  names := by decide
  first := by decide
  nonempty := by decide
  decimal := by decide
  short := by decide

/-- The receiver waits behind the header block, and the first byte of the next message is an error. -/
theorem lengthZero_waits :
    (lengthZero.received cleared 512 []).state = .recvBodyNochunk ∧
      (lengthZero.received cleared 512 (ascii "H")).state = .error ∧
      ¬ lengthZero.Ends cleared 512 [] := by
  have waits : (lengthZero.received cleared 512 []).state = .recvBodyNochunk := by decide +kernel
  refine ⟨waits, by decide +kernel, fun ends => ?_⟩
  have done := (ends.finish [] List.nil_prefix).mpr (by decide)
  exact absurd (waits.symm.trans done) (by decide)

end Cyue.Http
