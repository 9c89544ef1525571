import Cyue.Lib.Memory
import Cyue.Util.Base64
import Mathlib.Tactic.IntervalCases

/-!
# Decoding base64

The decoder is one loop that can be left and entered again at four places.  It writes the bits
that it has of a byte before it has all of them, so that the place behind the last whole byte is
written too.  Characters outside of the alphabet are passed over.

The bound of the table is off by one: for an opening brace the decoder reads what lies behind
the table.
-/

namespace Cyue.Base64

open Memory

/-- The table of `base64_decode_value`. -/
def decoding : List Int8 :=
  [62, -1, -1, -1, 63, 52, 53, 54, 55, 56, 57, 58, 59, 60, 61, -1, -1, -1, -2, -1, -1, -1,
    0, 1, 2, 3, 4, 5, 6, 7, 8, 9, 10, 11, 12, 13, 14, 15, 16, 17, 18, 19, 20, 21, 22, 23, 24, 25,
    -1, -1, -1, -1, -1, -1, 26, 27, 28, 29, 30, 31, 32, 33, 34, 35, 36, 37, 38, 39, 40, 41, 42,
    43, 44, 45, 46, 47, 48, 49, 50, 51]

/-- `base64_decode_value`; `beyond` is the byte behind the table. -/
def decodeValue (beyond : Int8) (valueIn : UInt8) : Int8 :=
  let value := valueIn.toInt8 - 43
  if value < 0 ∨ value > 80 then -1 else (decoding ++ [beyond]).getD value.toInt.toNat 0

inductive DecodeStep where
  | a
  | b
  | c
  | d
  deriving DecidableEq

structure DecodeState where
  step : DecodeStep
  plainchar : UInt8
  deriving DecidableEq

def DecodeState.init : DecodeState := ⟨.a, 0⟩

/-- The loop: `plainchar` is the place that it writes. -/
structure Decoder where
  mem : Mem
  plainchar : ℕ
  step : DecodeStep

namespace Decoder

def put (w : Decoder) (byte : UInt8) : Decoder :=
  { w with mem := store w.mem w.plainchar [byte] }

def advance (w : Decoder) (rest : UInt8) : Decoder :=
  { w with plainchar := w.plainchar + 1 }.put rest

def feed (beyond : Int8) (w : Decoder) (codechar : UInt8) : Decoder :=
  if decodeValue beyond codechar < 0 then w
  else
    let fragment := (decodeValue beyond codechar).toUInt8
    match w.step with
    | .a => { w.put ((fragment &&& 0x3f) <<< 2) with step := .b }
    | .b =>
        let w := w.put (w.mem w.plainchar ||| (fragment &&& 0x30) >>> 4)
        { w.advance ((fragment &&& 0x0f) <<< 4) with step := .c }
    | .c =>
        let w := w.put (w.mem w.plainchar ||| (fragment &&& 0x3c) >>> 2)
        { w.advance ((fragment &&& 0x03) <<< 6) with step := .d }
    | .d =>
        let w := w.put (w.mem w.plainchar ||| (fragment &&& 0x3f))
        { w with plainchar := w.plainchar + 1, step := .a }

end Decoder

/-- `base64_decode_block` into the memory at `plaintextOut`: the memory, the number of bytes, and the
state. -/
def decodeBlock (beyond : Int8) (codeIn : List UInt8) (mem : Mem) (plaintextOut : ℕ)
    (state : DecodeState) : Mem × ℕ × DecodeState :=
  let w := codeIn.foldl (Decoder.feed beyond)
    ((⟨mem, plaintextOut, state.step⟩ : Decoder).put state.plainchar)
  (w.mem, w.plainchar - plaintextOut, ⟨w.step, w.mem w.plainchar⟩)

def decode (beyond : Int8) (codeIn : List UInt8) (mem : Mem) : ℕ × Mem :=
  let (mem, len, _) := decodeBlock beyond codeIn mem 0 .init
  (len, store mem len [0])

/-- Blocks one after the other, each behind what the one before it has given. -/
def decodeBlocks (beyond : Int8) :
    List (List UInt8) → Mem → ℕ → DecodeState → Mem × ℕ × DecodeState
  | [], mem, _, state => (mem, 0, state)
  | codeIn :: codes, mem, plaintextOut, state =>
      let (mem, n, state) := decodeBlock beyond codeIn mem plaintextOut state
      let (mem, k, state) := decodeBlocks beyond codes mem (plaintextOut + n) state
      (mem, n + k, state)

/-! ## The alphabet -/

def Taken (beyond : Int8) (c : UInt8) : Bool := ¬ decodeValue beyond c < 0

theorem table_inside : ∀ n < 256, n ≠ 123 → let value := (UInt8.ofNat n).toInt8 - 43
    (value < 0 ∨ value > 80) ∨ value.toInt.toNat < decoding.length := by
  decide +kernel

/-- The table is only left for one character. -/
theorem decodeValue_inside (beyond : Int8) {c : UInt8} (inside : c ≠ 123) :
    decodeValue beyond c = decodeValue (-1) c := by
  have other : c.toNat ≠ 123 := fun same => inside (UInt8.toNat.inj same)
  have bounds := table_inside c.toNat c.toNat_lt other
  rw [UInt8.ofNat_toNat] at bounds
  unfold decodeValue
  dsimp only at bounds ⊢
  split
  case isTrue => rfl
  case isFalse within =>
      have below := bounds.resolve_left within
      rw [List.getD_append _ _ _ _ below, List.getD_append _ _ _ _ below]

theorem encodeValue_table : ∀ n < 64, encodeValue (UInt8.ofNat n) ≠ 123 ∧
    decodeValue (-1) (encodeValue (UInt8.ofNat n)) = (UInt8.ofNat n).toInt8 ∧
      ¬ (UInt8.ofNat n).toInt8 < 0 := by
  decide +kernel

/-- The decoder reads six bits as the encoder has written them. -/
theorem decodeValue_encodeValue (beyond : Int8) {v : UInt8} (six : v.toNat < 64) :
    decodeValue beyond (encodeValue v) = v.toInt8 ∧ ¬ v.toInt8 < 0 := by
  obtain ⟨inside, value, positive⟩ := encodeValue_table v.toNat six
  rw [UInt8.ofNat_toNat] at inside value positive
  exact ⟨(decodeValue_inside beyond inside).trans value, positive⟩

/-- Neither line breaks nor padding nor a terminator are taken. -/
theorem not_taken (beyond : Int8) :
    Taken beyond 10 = false ∧ Taken beyond 61 = false ∧ Taken beyond 0 = false := by
  unfold Taken
  rw [decodeValue_inside beyond (by decide), decodeValue_inside beyond (by decide),
    decodeValue_inside beyond (by decide)]
  decide +kernel

namespace Decoder

variable {beyond : Int8} {w : Decoder} {mem : Mem}

theorem feed_taken (beyond : Int8) (w : Decoder) (code : List UInt8) :
    code.foldl (feed beyond) w = (code.filter (Taken beyond)).foldl (feed beyond) w := by
  induction code generalizing w with
  | nil => rfl
  | cons c code ih =>
      rw [List.foldl_cons, ih]
      by_cases negative : decodeValue beyond c < 0
      · have skipped : feed beyond w c = w := if_pos negative
        rw [List.filter_cons_of_neg (by simpa [Taken] using negative), skipped]
      · rw [List.filter_cons_of_pos (by simpa [Taken] using negative), List.foldl_cons]

/-- A character of six bits. -/
theorem feed_six (w : Decoder) {v : UInt8} (six : v.toNat < 64) : feed beyond w (encodeValue v) =
    match w.step with
    | .a => { w.put (v <<< 2) with step := .b }
    | .b =>
        let w := w.put (w.mem w.plainchar ||| (v &&& 0x30) >>> 4)
        { w.advance ((v &&& 0x0f) <<< 4) with step := .c }
    | .c =>
        let w := w.put (w.mem w.plainchar ||| (v &&& 0x3c) >>> 2)
        { w.advance ((v &&& 0x03) <<< 6) with step := .d }
    | .d =>
        let w := w.put (w.mem w.plainchar ||| v)
        { w with plainchar := w.plainchar + 1, step := .a } := by
  obtain ⟨value, positive⟩ := decodeValue_encodeValue beyond six
  have masked : v &&& 0x3f = v := by
    refine UInt8.toNat.inj ?_
    rw [UInt8.toNat_and]
    exact (Nat.and_two_pow_sub_one_eq_mod v.toNat 6).trans (Nat.mod_eq_of_lt six)
  unfold feed
  rw [value, if_neg positive]
  have same : v.toInt8.toUInt8 = v := rfl
  dsimp only
  rw [same, masked]

/-! ## What is written -/

/-- The decoder has written `q`, and has not touched what lies behind the next place. -/
structure Wrote (mem : Mem) (q : List UInt8) (w : Decoder) : Prop where
  out : load w.mem 0 q.length = q
  len : w.plainchar = q.length
  frame : ∀ i, q.length < i → w.mem i = mem i

theorem Wrote.put {q : List UInt8} (wrote : Wrote mem q w) (x : UInt8) :
    Wrote mem q (w.put x) ∧ (w.put x).mem q.length = x := by
  have one : ([x] : List UInt8).length = 1 := rfl
  refine ⟨⟨?_, wrote.len, fun i behind => ?_⟩, ?_⟩
  · refine Eq.trans (load_store_of_disjoint (.inl ?_)) wrote.out
    rw [wrote.len, Nat.zero_add]
  · refine Eq.trans (store_apart (.inr ?_)) (wrote.frame i behind)
    rw [wrote.len, one]
    exact behind
  · have here := store_get w.mem w.plainchar (i := 0) (one ▸ Nat.one_pos)
    rw [Nat.add_zero] at here
    rw [← wrote.len]
    exact here

/-- The byte at the next place is whole. -/
theorem Wrote.more {q : List UInt8} {x : UInt8} (wrote : Wrote mem q w) (last : w.mem q.length = x)
    (step : DecodeStep) : Wrote mem (q ++ [x]) ⟨w.mem, w.plainchar + 1, step⟩ := by
  have length : (q ++ [x]).length = q.length + 1 := List.length_append
  refine ⟨?_, ?_, fun i behind => wrote.frame i ?_⟩
  · rw [length, load_add, wrote.out, Nat.zero_add, load, last]
    rfl
  · rw [length]
    exact congrArg (· + 1) wrote.len
  · omega

theorem Wrote.advance {q : List UInt8} {x : UInt8} (wrote : Wrote mem q w) (last : w.mem q.length = x)
    (rest : UInt8) : Wrote mem (q ++ [x]) (w.advance rest) ∧
      (w.advance rest).mem (q ++ [x]).length = rest :=
  (wrote.more last w.step).put rest

variable (beyond) in
theorem feed_a {q : List UInt8} (wrote : Wrote mem q w) (step : w.step = .a) {v : UInt8}
    (six : v.toNat < 64) : let w' := feed beyond w (encodeValue v)
      Wrote mem q w' ∧ w'.step = .b ∧ w'.mem q.length = v <<< 2 := by
  obtain ⟨kept, last⟩ := wrote.put (v <<< 2)
  rw [feed_six w six, step]
  exact ⟨⟨kept.out, kept.len, kept.frame⟩, rfl, last⟩

variable (beyond) in
theorem feed_b {q : List UInt8} {x : UInt8} (wrote : Wrote mem q w) (step : w.step = .b)
    (last : w.mem q.length = x) {v : UInt8} (six : v.toNat < 64) :
    let w' := feed beyond w (encodeValue v)
    Wrote mem (q ++ [x ||| (v &&& 0x30) >>> 4]) w' ∧ w'.step = .c ∧
      w'.mem (q ++ [x ||| (v &&& 0x30) >>> 4]).length = (v &&& 0x0f) <<< 4 := by
  obtain ⟨kept, whole⟩ := wrote.put (x ||| (v &&& 0x30) >>> 4)
  obtain ⟨more, rest⟩ := kept.advance whole ((v &&& 0x0f) <<< 4)
  rw [feed_six w six, step]
  dsimp only
  rw [wrote.len, last]
  exact ⟨⟨more.out, more.len, more.frame⟩, rfl, rest⟩

variable (beyond) in
theorem feed_c {q : List UInt8} {x : UInt8} (wrote : Wrote mem q w) (step : w.step = .c)
    (last : w.mem q.length = x) {v : UInt8} (six : v.toNat < 64) :
    let w' := feed beyond w (encodeValue v)
    Wrote mem (q ++ [x ||| (v &&& 0x3c) >>> 2]) w' ∧ w'.step = .d ∧
      w'.mem (q ++ [x ||| (v &&& 0x3c) >>> 2]).length = (v &&& 0x03) <<< 6 := by
  obtain ⟨kept, whole⟩ := wrote.put (x ||| (v &&& 0x3c) >>> 2)
  obtain ⟨more, rest⟩ := kept.advance whole ((v &&& 0x03) <<< 6)
  rw [feed_six w six, step]
  dsimp only
  rw [wrote.len, last]
  exact ⟨⟨more.out, more.len, more.frame⟩, rfl, rest⟩

variable (beyond) in
theorem feed_d {q : List UInt8} {x : UInt8} (wrote : Wrote mem q w) (step : w.step = .d)
    (last : w.mem q.length = x) {v : UInt8} (six : v.toNat < 64) :
    let w' := feed beyond w (encodeValue v)
    Wrote mem (q ++ [x ||| v]) w' ∧ w'.step = .a := by
  obtain ⟨kept, whole⟩ := wrote.put (x ||| v)
  have more := kept.more whole .a
  rw [feed_six w six, step]
  dsimp only
  rw [wrote.len, last]
  exact ⟨more, rfl⟩

/-! ## Behind the encoder -/

/-- The decoder has read all that the encoder has written, and has `p` but for the bits that the
encoder has kept. -/
inductive Behind (mem : Mem) : List UInt8 → State → Decoder → Prop where
  | a {p : List UInt8} {enc : State} {w : Decoder} (wrote : Wrote mem p w) (enc_step : enc.step = .a)
      (step : w.step = .a) : Behind mem p enc w
  | b {p : List UInt8} {x : UInt8} {enc : State} {w : Decoder} (wrote : Wrote mem p w)
      (enc_step : enc.step = .b) (step : w.step = .b) (result : enc.result = (x &&& 0x03) <<< 4)
      (last : w.mem p.length = x &&& 0xfc) : Behind mem (p ++ [x]) enc w
  | c {p : List UInt8} {x : UInt8} {enc : State} {w : Decoder} (wrote : Wrote mem p w)
      (enc_step : enc.step = .c) (step : w.step = .c) (result : enc.result = (x &&& 0x0f) <<< 2)
      (last : w.mem p.length = x &&& 0xf0) : Behind mem (p ++ [x]) enc w

end Decoder

/-! ## Bits -/

/-- Equal bits are equal bytes. -/
theorem byte_ext {x y : UInt8} (bits : ∀ i < 8, x.toBitVec.getLsbD i = y.toBitVec.getLsbD i) : x = y :=
  UInt8.toBitVec_inj.mp (BitVec.eq_of_getLsbD_eq bits)

theorem six_bits {v : UInt8} (masked : v &&& 0x3f = v) : v.toNat < 64 := by
  have bound : v.toNat &&& 0x3f ≤ 0x3f := Nat.and_le_right
  have same := congrArg UInt8.toNat masked
  rw [UInt8.toNat_and] at same
  exact Nat.lt_succ_of_le (same ▸ bound)

/-- What the encoder writes of a first byte, and what the decoder makes of it. -/
theorem bits_a (x : UInt8) : ((x &&& 0xfc) >>> 2).toNat < 64 ∧ ((x &&& 0xfc) >>> 2) <<< 2 = x &&& 0xfc := by
  refine ⟨six_bits ?_, ?_⟩ <;>
  · refine byte_ext fun i inside => ?_
    interval_cases i <;> simp

theorem bits_b (x y : UInt8) :
    let v : UInt8 := (x &&& 0x03) <<< 4 ||| (y &&& 0xf0) >>> 4
    v.toNat < 64 ∧ (x &&& (0xfc : UInt8)) ||| ((v &&& 0x30) >>> 4 : UInt8) = x ∧ (v &&& 0x0f) <<< 4 = y &&& 0xf0 := by
  refine ⟨six_bits ?_, ?_, ?_⟩ <;>
  · refine byte_ext fun i inside => ?_
    interval_cases i <;> simp

theorem bits_c (x y : UInt8) :
    let v : UInt8 := (x &&& 0x0f) <<< 2 ||| (y &&& 0xc0) >>> 6
    v.toNat < 64 ∧ (x &&& (0xf0 : UInt8)) ||| ((v &&& 0x3c) >>> 2 : UInt8) = x ∧ (v &&& 0x03) <<< 6 = y &&& 0xc0 := by
  refine ⟨six_bits ?_, ?_, ?_⟩ <;>
  · refine byte_ext fun i inside => ?_
    interval_cases i <;> simp

theorem bits_d (x : UInt8) : (x &&& 0x3f).toNat < 64 ∧ (x &&& (0xc0 : UInt8)) ||| (x &&& 0x3f) = x := by
  refine ⟨six_bits ?_, ?_⟩ <;>
  · refine byte_ext fun i inside => ?_
    interval_cases i <;> simp

/-- The bits that are left in the end. -/
theorem bits_end (x : UInt8) :
    let v : UInt8 := (x &&& 0x03) <<< 4
    let v' : UInt8 := (x &&& 0x0f) <<< 2
    (v.toNat < 64 ∧ (x &&& (0xfc : UInt8)) ||| ((v &&& 0x30) >>> 4 : UInt8) = x) ∧
      v'.toNat < 64 ∧ (x &&& (0xf0 : UInt8)) ||| ((v' &&& 0x3c) >>> 2 : UInt8) = x := by
  refine ⟨⟨six_bits ?_, ?_⟩, six_bits ?_, ?_⟩ <;>
  · refine byte_ext fun i inside => ?_
    interval_cases i <;> simp

/-! ## Round trip -/

namespace Decoder

variable {beyond : Int8} {mem : Mem} {w : Decoder} {p : List UInt8} {enc : State}

variable (beyond) in
/-- Another byte is encoded, and what is written for it is decoded. -/
theorem Behind.encodeByte (behind : Behind mem p enc w) (y : UInt8) :
    Behind mem (p ++ [y]) (encodeByte enc y).2 ((encodeByte enc y).1.foldl (feed beyond) w) := by
  cases behind with
  | a wrote enc_step step =>
      obtain ⟨six, bits⟩ := bits_a y
      obtain ⟨wrote', step', last⟩ := feed_a beyond wrote step six
      rw [bits] at last
      rw [Base64.encodeByte, enc_step]
      exact .b wrote' rfl step' rfl last
  | @b q x _ _ wrote enc_step step result last =>
      obtain ⟨six, whole, rest⟩ := bits_b x y
      obtain ⟨wrote', step', last'⟩ := feed_b beyond wrote step last six
      rw [whole] at wrote' last'
      rw [rest] at last'
      rw [Base64.encodeByte, enc_step]
      dsimp only
      rw [result]
      exact .c wrote' rfl step' rfl last'
  | @c q x _ _ wrote enc_step step result last =>
      obtain ⟨six, whole, rest⟩ := bits_c x y
      obtain ⟨wrote', step', last'⟩ := feed_c beyond wrote step last six
      rw [whole] at wrote' last'
      rw [rest] at last'
      obtain ⟨six', whole'⟩ := bits_d y
      obtain ⟨wrote'', step''⟩ := feed_d beyond wrote' step' last' six'
      rw [whole'] at wrote''
      have skipped : ∀ w, feed beyond w 10 = w := by
        intro w
        refine if_pos ?_
        exact not_not.mp (of_decide_eq_false (not_taken beyond).1)
      rw [Base64.encodeByte, enc_step]
      dsimp only
      rw [result]
      split
      · rw [List.foldl_append, List.foldl_cons, List.foldl_nil, skipped]
        exact .a wrote'' rfl step''
      · exact .a wrote'' rfl step''

variable (beyond) in
theorem Behind.encodeBlock (behind : Behind mem p enc w) (plaintext : List UInt8) :
    Behind mem (p ++ plaintext) (encodeBlock enc plaintext).2
      ((encodeBlock enc plaintext).1.foldl (feed beyond) w) := by
  induction plaintext generalizing p enc w with
  | nil =>
      rw [List.append_nil]
      exact behind
  | cons y plaintext ih =>
      have next := ih (behind.encodeByte beyond y)
      rw [List.append_assoc] at next
      rw [Base64.encodeBlock]
      dsimp only
      rw [List.foldl_append]
      exact next

variable (beyond) in
/-- The end of the code gives the last bits. -/
theorem Behind.blockend (behind : Behind mem p enc w) :
    Wrote mem p ((encodeBlockend enc).foldl (feed beyond) w) := by
  have skips : ∀ c, Taken beyond c = false → ∀ w, feed beyond w c = w := by
    intro c skipped w
    exact if_pos (not_not.mp (of_decide_eq_false skipped))
  have line := skips 10 (not_taken beyond).1
  have pad := skips 61 (not_taken beyond).2.1
  cases behind with
  | a wrote enc_step step =>
      rw [encodeBlockend, enc_step, List.foldl_cons, List.foldl_nil, line]
      exact wrote
  | @b q x _ _ wrote enc_step step result last =>
      obtain ⟨⟨six, whole⟩, -⟩ := bits_end x
      have written := (feed_b beyond wrote step last six).1
      rw [whole] at written
      rw [encodeBlockend, enc_step]
      dsimp only
      rw [result, List.foldl_cons, List.foldl_cons, List.foldl_cons, List.foldl_cons, List.foldl_nil, pad,
        pad, line]
      exact written
  | @c q x _ _ wrote enc_step step result last =>
      obtain ⟨-, six, whole⟩ := bits_end x
      have written := (feed_c beyond wrote step last six).1
      rw [whole] at written
      rw [encodeBlockend, enc_step]
      dsimp only
      rw [result, List.foldl_cons, List.foldl_cons, List.foldl_cons, List.foldl_nil, pad, line]
      exact written

end Decoder

/-- The code is taken as it is without the characters that are passed over. -/
theorem encode_taken (beyond : Int8) (plaintext : List UInt8) :
    (encode plaintext).filter (Taken beyond) =
      ((encodeBlock .init plaintext).1 ++ encodeBlockend (encodeBlock .init plaintext).2).filter
        (Taken beyond) := by
  obtain ⟨line, -, terminator⟩ := not_taken beyond
  have ends : ∀ state, ∃ front, encodeBlockend state = front ++ [10] := by
    intro state
    unfold encodeBlockend
    split
    · exact ⟨[_, _, _], rfl⟩
    · exact ⟨[_, _], rfl⟩
    · exact ⟨[], rfl⟩
  obtain ⟨front, last⟩ := ends (encodeBlock .init plaintext).2
  unfold encode
  dsimp only
  rw [last, ← List.append_assoc, List.dropLast_concat]
  have none : [(0 : UInt8)].filter (Taken beyond) = [10].filter (Taken beyond) := by
    rw [List.filter_cons_of_neg (by rw [terminator]; exact Bool.false_ne_true),
      List.filter_cons_of_neg (by rw [line]; exact Bool.false_ne_true)]
  rw [List.filter_append, none, ← List.filter_append]

/-- A block that is cut in two gives the same. -/
theorem decodeBlock_append (beyond : Int8) (first second : List UInt8) (mem : Mem) (plaintextOut : ℕ)
    (state : DecodeState) :
    let (mem', n, state') := decodeBlock beyond first mem plaintextOut state
    let (mem'', k, state'') := decodeBlock beyond second mem' (plaintextOut + n) state'
    decodeBlock beyond (first ++ second) mem plaintextOut state = (mem'', n + k, state'') := by
  have onward : ∀ (w : Decoder) (c : UInt8), w.plainchar ≤ (Decoder.feed beyond w c).plainchar := by
    intro w c
    unfold Decoder.feed
    split
    · exact le_rfl
    · dsimp only
      split
      · exact le_rfl
      · exact Nat.le_succ _
      · exact Nat.le_succ _
      · exact Nat.le_succ _
  have later : ∀ (code : List UInt8) (w : Decoder),
      w.plainchar ≤ (code.foldl (Decoder.feed beyond) w).plainchar := by
    intro code
    induction code with
    | nil => exact fun _ => le_rfl
    | cons c code ih => exact fun w => (onward w c).trans (ih _)
  unfold decodeBlock
  dsimp only
  rw [List.foldl_append]
  generalize before : first.foldl (Decoder.feed beyond)
    ((⟨mem, plaintextOut, state.step⟩ : Decoder).put state.plainchar) = w
  have place : plaintextOut ≤ w.plainchar := by
    rw [← before]
    exact later first ((⟨mem, plaintextOut, state.step⟩ : Decoder).put state.plainchar)
  -- the character that was begun is written over itself
  have again : (⟨w.mem, plaintextOut + (w.plainchar - plaintextOut), w.step⟩ : Decoder).put
      (w.mem w.plainchar) = w := by
    rw [Nat.add_sub_cancel' place]
    unfold Decoder.put
    dsimp only
    have same := store_load w.mem w.plainchar 1
    rw [load, load] at same
    rw [same]
  rw [again]
  have further := later second w
  rw [Nat.add_sub_cancel' place]
  have sum : (second.foldl (Decoder.feed beyond) w).plainchar - plaintextOut =
      w.plainchar - plaintextOut + ((second.foldl (Decoder.feed beyond) w).plainchar - w.plainchar) := by
    omega
  rw [sum]

theorem decodeBlocks_eq (beyond : Int8) (codeIn : List UInt8) (codes : List (List UInt8)) (mem : Mem)
    (plaintextOut : ℕ) (state : DecodeState) :
    decodeBlocks beyond (codeIn :: codes) mem plaintextOut state =
      decodeBlock beyond (codeIn :: codes).flatten mem plaintextOut state := by
  induction codes generalizing codeIn mem plaintextOut state with
  | nil =>
      rw [List.flatten_singleton]
      rfl
  | cons next codes ih =>
      rw [decodeBlocks]
      dsimp only
      rw [ih, List.flatten_cons]
      exact (decodeBlock_append beyond codeIn (next :: codes).flatten mem plaintextOut state).symm

/-- A code is decoded to what was encoded, whatever characters outside of the alphabet stand in it, into
however many blocks it is cut, and whatever lies behind the table; one byte behind the plaintext is
written at most. -/
theorem decodeBlocks_encode (beyond : Int8) (plaintext : List UInt8) {codeIn : List UInt8}
    {codes : List (List UInt8)} (mem : Mem)
    (same : (codeIn :: codes).flatten.filter (Taken beyond) =
      (encode plaintext).filter (Taken beyond)) :
    let (mem', n, _) := decodeBlocks beyond (codeIn :: codes) mem 0 .init
    n = plaintext.length ∧ load mem' 0 n = plaintext ∧ ∀ i, n < i → mem' i = mem i := by
  have empty : Decoder.Wrote mem [] ⟨mem, 0, .a⟩ := ⟨rfl, rfl, fun _ _ => rfl⟩
  have begins := (empty.put 0).1
  have behind : Decoder.Behind mem [] State.init ((⟨mem, 0, .a⟩ : Decoder).put 0) := .a begins rfl rfl
  have wrote := (behind.encodeBlock beyond plaintext).blockend beyond
  rw [List.nil_append, ← List.foldl_append, Decoder.feed_taken, ← encode_taken, ← same,
    ← Decoder.feed_taken] at wrote
  rw [decodeBlocks_eq]
  unfold decodeBlock
  dsimp only
  have length := wrote.len
  refine ⟨length, ?_, fun i later => wrote.frame i ?_⟩
  · have amount : (((codeIn :: codes).flatten).foldl (Decoder.feed beyond)
        ((⟨mem, 0, .a⟩ : Decoder).put 0)).plainchar - 0 = plaintext.length := length
    exact amount ▸ wrote.out
  · exact length ▸ later

/-- The code of two bytes with a blank and a line break inside, in three pieces. -/
theorem decodeBlocks_encode_noisy :
    let (mem', n, _) := decodeBlocks (-1) [[72, 32, 71], [10], [107, 61]] (fun _ => 7) 0 .init
    n = 2 ∧ load mem' 0 n = [28, 105] ∧ ∀ i, n < i → mem' i = 7 :=
  have same : ([[72, 32, 71], [10], [107, 61]] : List (List UInt8)).flatten.filter (Taken (-1)) =
      (encode [28, 105]).filter (Taken (-1)) := by
    decide +kernel
  decodeBlocks_encode (-1) [28, 105] (fun _ => 7) same

/-- `decode` of a code, as it was written or changed where it is passed over. -/
theorem decode_encode (beyond : Int8) (plaintext : List UInt8) {codeIn : List UInt8} (mem : Mem)
    (same : codeIn.filter (Taken beyond) = (encode plaintext).filter (Taken beyond)) :
    let (n, mem') := decode beyond codeIn mem
    n = plaintext.length ∧ load mem' 0 n = plaintext ∧ mem' n = 0 ∧ ∀ i, n < i → mem' i = mem i := by
  have whole : [codeIn].flatten = codeIn := List.flatten_singleton
  have decoded := decodeBlocks_encode beyond plaintext mem
    (whole.symm ▸ same : [codeIn].flatten.filter (Taken beyond) = _)
  rw [decodeBlocks_eq, whole] at decoded
  unfold decode
  dsimp only at decoded ⊢
  obtain ⟨length, bytes, frame⟩ := decoded
  refine ⟨length, ?_, ?_, fun i later => ?_⟩
  · exact Eq.trans (load_store_of_disjoint (.inl (Nat.zero_add _).le)) bytes
  · have one : 0 < ([0] : List UInt8).length := Nat.one_pos
    exact store_get (decodeBlock beyond codeIn mem 0 .init).1 _ one
  · refine Eq.trans (store_apart (.inr ?_)) (frame i later)
    exact later

end Cyue.Base64
