import Mathlib.Algebra.Ring.Nat

/-!
# Base64

The encoder takes one byte after the other and stores how far it is within a group
of three bytes and within a line of eighteen groups.  `buffsize` is what its callers
give room for.
-/

namespace Cyue.Base64

inductive Step where
  | a
  | b
  | c
  deriving DecidableEq

structure State where
  step : Step
  result : UInt8
  stepcount : ℕ
  deriving DecidableEq

def State.init : State := ⟨.a, 0, 0⟩

def charsPerLine : ℕ := 72

def encoding : List UInt8 :=
  "ABCDEFGHIJKLMNOPQRSTUVWXYZabcdefghijklmnopqrstuvwxyz0123456789+/".toList.map fun c =>
    UInt8.ofNat c.toNat

def encodeValue (value : UInt8) : UInt8 :=
  if value > 63 then 61 else encoding.getD value.toNat 0

/-- What `base64_encode_block` does with one byte: the characters that it writes,
and the state. -/
def encodeByte (state : State) (fragment : UInt8) : List UInt8 × State :=
  match state.step with
  | .a =>
      ([encodeValue ((fragment &&& 0xfc) >>> 2)],
        { state with step := .b, result := (fragment &&& 0x03) <<< 4 })
  | .b =>
      ([encodeValue (state.result ||| (fragment &&& 0xf0) >>> 4)],
        { state with step := .c, result := (fragment &&& 0x0f) <<< 2 })
  | .c =>
      let group :=
        [encodeValue (state.result ||| (fragment &&& 0xc0) >>> 6), encodeValue (fragment &&& 0x3f)]
      if state.stepcount + 1 = charsPerLine / 4 then
        (group ++ [10], ⟨.a, fragment &&& 0x3f, 0⟩)
      else (group, ⟨.a, fragment &&& 0x3f, state.stepcount + 1⟩)

def encodeBlock : State → List UInt8 → List UInt8 × State
  | state, [] => ([], state)
  | state, fragment :: plaintext =>
      let byte := encodeByte state fragment
      let rest := encodeBlock byte.2 plaintext
      (byte.1 ++ rest.1, rest.2)

def encodeBlockend (state : State) : List UInt8 :=
  match state.step with
  | .b => [encodeValue state.result, 61, 61, 10]
  | .c => [encodeValue state.result, 61, 10]
  | .a => [10]

/-- All bytes that `encode` writes; the terminator takes the place of the last one. -/
def encode (plaintext : List UInt8) : List UInt8 :=
  let block := encodeBlock .init plaintext
  (block.1 ++ encodeBlockend block.2).dropLast ++ [0]

/-- `buffsize`, in sizes of 64 bits. -/
def buffsize (inSize : ℕ) : ℕ :=
  (3 + ((2 + inSize) * 4 % 2 ^ 64 / 3 + 1 + 1)) >>> 2 <<< 2

/-! ## The length of the code -/

/-- The characters for `n` bytes of whole groups and of one that is begun, with the
line breaks. -/
def written (n : ℕ) : ℕ := n + n / 3 + n / 54

def stepAt (n : ℕ) : Step :=
  if n % 3 = 0 then .a else if n % 3 = 1 then .b else .c

/-- The state behind `n` bytes. -/
structure At (n : ℕ) (state : State) : Prop where
  step : state.step = stepAt n
  stepcount : state.stepcount = n / 3 % 18

theorem at_init : At 0 .init := ⟨rfl, rfl⟩

theorem stepAt_a {n : ℕ} (residue : n % 3 = 0) : stepAt n = .a := if_pos residue

theorem stepAt_b {n : ℕ} (residue : n % 3 = 1) : stepAt n = .b := by
  rw [stepAt, if_neg (by omega), if_pos residue]

theorem stepAt_c {n : ℕ} (residue : n % 3 = 2) : stepAt n = .c := by
  rw [stepAt, if_neg (by omega), if_neg (by omega)]

/-- The third byte of a group ends it, and every eighteenth group ends a line. -/
theorem encodeByte_c {result fragment : UInt8} {n stepcount : ℕ} (residue : n % 3 = 2)
    (groups : stepcount = n / 3 % 18) :
    written n + (encodeByte ⟨.c, result, stepcount⟩ fragment).1.length = written (n + 1) ∧
      At (n + 1) (encodeByte ⟨.c, result, stepcount⟩ fragment).2 := by
  rw [encodeByte]
  by_cases full : stepcount + 1 = charsPerLine / 4
  · have line : stepcount + 1 = 18 := full
    simp only [if_pos full]
    refine ⟨?_, (stepAt_a (by omega)).symm, ?_⟩
    · simp only [written, List.length_append, List.length_cons, List.length_nil]
      omega
    · simp only
      omega
  · have line : stepcount + 1 ≠ 18 := full
    simp only [if_neg full]
    refine ⟨?_, (stepAt_a (by omega)).symm, ?_⟩
    · simp only [written, List.length_cons, List.length_nil]
      omega
    · simp only
      omega

theorem encodeByte_spec {n : ℕ} {state : State} (at' : At n state) (fragment : UInt8) :
    written n + (encodeByte state fragment).1.length = written (n + 1) ∧
      At (n + 1) (encodeByte state fragment).2 := by
  obtain ⟨step, result, stepcount⟩ := state
  obtain ⟨reached, groups⟩ := at'
  simp only at reached groups
  have residue : n % 3 = 0 ∨ n % 3 = 1 ∨ n % 3 = 2 := by omega
  rcases residue with first | second | third
  · rw [reached, stepAt_a first, encodeByte]
    refine ⟨?_, (stepAt_b (by omega)).symm, ?_⟩
    · simp only [written, List.length_singleton]
      omega
    · simp only
      omega
  · rw [reached, stepAt_b second, encodeByte]
    refine ⟨?_, (stepAt_c (by omega)).symm, ?_⟩
    · simp only [written, List.length_singleton]
      omega
    · simp only
      omega
  · rw [reached, stepAt_c third]
    exact encodeByte_c third groups

theorem encodeBlock_spec {n : ℕ} {state : State} (at' : At n state) (plaintext : List UInt8) :
    written n + (encodeBlock state plaintext).1.length = written (n + plaintext.length) ∧
      At (n + plaintext.length) (encodeBlock state plaintext).2 := by
  induction plaintext generalizing n state with
  | nil => exact ⟨rfl, at'⟩
  | cons fragment plaintext ih =>
      obtain ⟨one, next⟩ := encodeByte_spec at' fragment
      obtain ⟨rest, last⟩ := ih next
      have length : n + (fragment :: plaintext).length = n + 1 + plaintext.length := by
        rw [List.length_cons, Nat.add_assoc, Nat.add_comm 1]
      rw [encodeBlock, length]
      simp only [List.length_append]
      exact ⟨by omega, last⟩

theorem encodeBlockend_length {n : ℕ} {state : State} (at' : At n state) :
    written n + (encodeBlockend state).length = 4 * ((n + 2) / 3) + n / 54 + 1 := by
  have residue : n % 3 = 0 ∨ n % 3 = 1 ∨ n % 3 = 2 := by omega
  rcases residue with first | second | third
  · rw [encodeBlockend, at'.step, stepAt_a first]
    simp only [written, List.length_cons, List.length_nil]
    omega
  · rw [encodeBlockend, at'.step, stepAt_b second]
    simp only [written, List.length_cons, List.length_nil]
    omega
  · rw [encodeBlockend, at'.step, stepAt_c third]
    simp only [written, List.length_cons, List.length_nil]
    omega

/-- Four characters for each group, a line break for each line and the terminator. -/
theorem encode_length (plaintext : List UInt8) :
    (encode plaintext).length =
      4 * ((plaintext.length + 2) / 3) + plaintext.length / 54 + 1 := by
  obtain ⟨block, last⟩ := encodeBlock_spec at_init plaintext
  have ends := encodeBlockend_length last
  have none : written 0 = 0 := rfl
  rw [Nat.zero_add] at block ends
  rw [none, Nat.zero_add] at block
  rw [encode]
  simp only [List.length_append, List.length_dropLast, List.length_singleton]
  omega

/-- One group more than the code has, whatever the number of lines. -/
theorem aligned_eq (n : ℕ) : (5 + (2 + n) * 4 / 3) / 4 * 4 = 4 * ((n + 2) / 3) + 4 := by
  obtain ⟨q, r, below, rfl⟩ : ∃ q r, r < 3 ∧ n = 3 * q + r :=
    ⟨n / 3, n % 3, Nat.mod_lt n (by decide), (Nat.div_add_mod n 3).symm⟩
  have residue : r = 0 ∨ r = 1 ∨ r = 2 := by omega
  rcases residue with rfl | rfl | rfl
  · omega
  · omega
  · omega

theorem buffsize_le (n : ℕ) : buffsize n ≤ 4 * ((n + 2) / 3) + 4 := by
  have wrapped : (2 + n) * 4 % 2 ^ 64 ≤ (2 + n) * 4 := Nat.mod_le _ _
  have third := Nat.div_le_div_right (c := 3) wrapped
  rw [buffsize, Nat.shiftLeft_eq, Nat.shiftRight_eq_div_pow, ← aligned_eq]
  exact Nat.mul_le_mul_right 4 (Nat.div_le_div_right (by omega))

theorem buffsize_eq {n : ℕ} (small : n < 2 ^ 61) : buffsize n = 4 * ((n + 2) / 3) + 4 := by
  have whole : (2 + n) * 4 % 2 ^ 64 = (2 + n) * 4 := Nat.mod_eq_of_lt (by omega)
  rw [buffsize, Nat.shiftLeft_eq, Nat.shiftRight_eq_div_pow, whole, ← aligned_eq]
  omega

/-- `buffsize` is enough if and only if the text has fewer than four whole lines. -/
theorem encode_fits_iff (plaintext : List UInt8) :
    (encode plaintext).length ≤ buffsize plaintext.length ↔ plaintext.length < 216 := by
  rw [encode_length]
  constructor
  · intro fits
    have room := Nat.le_trans fits (buffsize_le _)
    omega
  · intro small
    rw [buffsize_eq (by omega)]
    omega

theorem encode_overrun :
    ¬∀ plaintext : List UInt8, (encode plaintext).length ≤ buffsize plaintext.length := by
  intro claim
  have written := claim (List.replicate 216 0)
  rw [encode_length, List.length_replicate] at written
  exact absurd written (by decide)

end Cyue.Base64
