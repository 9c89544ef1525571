import Cyue.Lib.Bytes

/-!
# Websocket frames

The header of a frame as `ws_connection` reads it from `m_frame_buff`, the
masking of a payload, and the frames that arrive on the wire.  A frame buffer
is the list of its first `m_flen` bytes; nothing behind them is read once
`analyze_frame` has found the header complete.
-/

namespace Cyue.Ws

open Bytes

inductive State where
  | init
  | clientHandshake
  | clientHandshake2
  | serverHandshake
  | established
  | recvFrame
  | recvMask
  | recvMask0x7E
  | recvMask0x7F
  | recv
  | recv0x7E
  | recv0x7F
  deriving DecidableEq, Repr

/-- The states in which the header of a frame has been read. -/
def State.InFrame : State → Bool
  | .recvMask | .recvMask0x7E | .recvMask0x7F | .recv | .recv0x7E | .recv0x7F => true
  | _ => false

inductive Opcode where
  | continuationFrame
  | textFrame
  | binaryFrame
  | connectionClose
  | ping
  | pong
  /-- 3 to 7 and 11 to 15 -/
  | reserved
  deriving DecidableEq, Repr

def Opcode.ofNibble : ℕ → Opcode
  | 0 => .continuationFrame
  | 1 => .textFrame
  | 2 => .binaryFrame
  | 8 => .connectionClose
  | 9 => .ping
  | 10 => .pong
  | _ => .reserved

def Opcode.IsData : Opcode → Bool
  | .continuationFrame | .textFrame | .binaryFrame => true
  | _ => false

def Opcode.IsControl : Opcode → Bool
  | .connectionClose | .ping | .pong => true
  | _ => false

/-! ## The header of the frame at hand -/

/-- `sizeof(frame)`: the longest header. -/
def sizeofFrame : ℕ := 14

def byteAt (frame : List UInt8) (i : ℕ) : UInt8 := frame.getD i 0

/-- `data.bits & (1 << 7)` -/
def fin (frame : List UInt8) : Bool := 128 ≤ (byteAt frame 0).toNat

def getOpcode (frame : List UInt8) : ℕ := (byteAt frame 0).toNat % 16

/-- `data.bits & 0x000F` -/
def opcode (frame : List UInt8) : Opcode := .ofNibble ((byteAt frame 0).toNat % 16)

/-- `data.bits & (1 << 15)` -/
def masked (frame : List UInt8) : Bool := 128 ≤ (byteAt frame 1).toNat

/-- `(data.bits & 0x7F00) >> 8` -/
def payloadLen (frame : List UInt8) : ℕ := (byteAt frame 1).toNat % 128

/-- The variant of the header union that a frame uses, and its size. -/
def variant (mask : Bool) (payloadLen : ℕ) : State × ℕ :=
  if mask then
    if payloadLen = 0x7F then (.recvMask0x7F, 14)
    else if payloadLen = 0x7E then (.recvMask0x7E, 8)
    else (.recvMask, 6)
  else
    if payloadLen = 0x7F then (.recv0x7F, 10)
    else if payloadLen = 0x7E then (.recv0x7E, 4)
    else (.recv, 2)

/-- `analyze_frame`: the state to go on in, and how many bytes behind the
header have been read with it.  The source leaves the second component unset
while the header is incomplete. -/
def analyzeFrame (frame : List UInt8) : State × ℕ :=
  if frame.length < 2 then (.recvFrame, 0)
  else
    let (state, size) := variant (masked frame) (payloadLen frame)
    if frame.length < size then (.recvFrame, 0) else (state, frame.length - size)

abbrev Key := Fin 4 → UInt8

def getMask (state : State) (frame : List UInt8) : Key :=
  match state with
  | .recvMask => fun i => byteAt frame (2 + i)
  | .recvMask0x7E => fun i => byteAt frame (4 + i)
  | .recvMask0x7F => fun i => byteAt frame (10 + i)
  | _ => fun _ => 0

/-- `frame_size`; the default is `NBR_EINVAL` as a `size_t` -/
def frameSize (state : State) (frame : List UInt8) : ℕ :=
  match state with
  | .recvMask | .recv => payloadLen frame
  | .recvMask0x7E | .recv0x7E => beNat ((frame.drop 2).take 2)
  | .recvMask0x7F | .recv0x7F => beNat ((frame.drop 2).take 8)
  | _ => 2 ^ 64 - 6

/-! ## Masking -/

/-- Each byte xor the byte of the key at its index, the key repeating. -/
def applyMask (key : Key) : ℕ → List UInt8 → List UInt8
  | _, [] => []
  | i, byte :: rest => (byte ^^^ key (Fin.ofNat 4 i)) :: applyMask key (i + 1) rest

/-- The first loop of `mask_payload`, up to the end of the key: the bytes done,
the bytes left and the index. -/
def maskHead (key : Key) : ℕ → List UInt8 → List UInt8 × List UInt8 × ℕ
  | i, [] => ([], [], i)
  | i, byte :: rest =>
      if i < 4 then
        let (done, left, last) := maskHead key (i + 1) rest
        ((byte ^^^ key (Fin.ofNat 4 i)) :: done, left, last)
      else ([], byte :: rest, i)

/-- The second loop of `mask_payload`, a word at a time. -/
def maskWords (key : Key) : List UInt8 → List UInt8 × List UInt8
  | a :: b :: c :: d :: rest =>
      let (done, left) := maskWords key rest
      ((a ^^^ key 0) :: (b ^^^ key 1) :: (c ^^^ key 2) :: (d ^^^ key 3) :: done, left)
  | rest => ([], rest)

/-- `mask_payload`: the masked bytes and the new `mask_idx` -/
def maskPayload (key : Key) (payload : List UInt8) (maskIdx : ℕ) : List UInt8 × ℕ :=
  let (head, payload, maskIdx) :=
    if 0 < maskIdx then
      let (head, payload, maskIdx) := maskHead key maskIdx payload
      (head, payload, if 4 ≤ maskIdx then 0 else maskIdx)
    else ([], payload, maskIdx)
  let (words, payload) := maskWords key payload
  if payload = [] then (head ++ words, maskIdx)
  else (head ++ words ++ applyMask key 0 payload, payload.length)

@[simp]
theorem applyMask_length (key : Key) (i : ℕ) (p : List UInt8) :
    (applyMask key i p).length = p.length := by
  induction p generalizing i with
  | nil => rfl
  | cons byte rest ih => simp [applyMask, ih]

theorem applyMask_append (key : Key) (i : ℕ) (p q : List UInt8) :
    applyMask key i (p ++ q) = applyMask key i p ++ applyMask key (i + p.length) q := by
  induction p generalizing i with
  | nil => rfl
  | cons byte rest ih =>
      rw [List.cons_append, applyMask, ih, applyMask, List.cons_append, List.length_cons,
        Nat.add_assoc, Nat.add_comm 1]

/-- Masking twice at the same index gives the bytes back. -/
theorem applyMask_applyMask (key : Key) (i : ℕ) (p : List UInt8) :
    applyMask key i (applyMask key i p) = p := by
  induction p generalizing i with
  | nil => rfl
  | cons byte rest ih => rw [applyMask, applyMask, ih, UInt8.xor_assoc, UInt8.xor_self,
      UInt8.xor_zero]

/-- Only the index modulo the size of the key counts. -/
theorem applyMask_congr (key : Key) {i j : ℕ} (same : i % 4 = j % 4) (p : List UInt8) :
    applyMask key i p = applyMask key j p := by
  induction p generalizing i j with
  | nil => rfl
  | cons byte rest ih =>
      have digit : Fin.ofNat 4 i = Fin.ofNat 4 j := Fin.ext same
      have next : (i + 1) % 4 = (j + 1) % 4 := by
        rw [Nat.add_mod, same, ← Nat.add_mod]
      rw [applyMask, applyMask, digit, ih next]

theorem maskHead_eq (key : Key) (i : ℕ) (p : List UInt8) :
    maskHead key i p =
      (applyMask key i (p.take (4 - i)), p.drop (4 - i), i + min (4 - i) p.length) := by
  induction p generalizing i with
  | nil => simp [maskHead, applyMask]
  | cons byte rest ih =>
      by_cases inside : i < 4
      · obtain ⟨k, size⟩ : ∃ k, 4 - i = k + 1 := ⟨3 - i, by omega⟩
        have next : 4 - (i + 1) = k := by omega
        have last : i + 1 + min k rest.length = i + min (k + 1) (rest.length + 1) := by omega
        simp [maskHead, inside, ih, next, size, applyMask, last]
      · have size : 4 - i = 0 := by omega
        simp [maskHead, inside, size, applyMask]

theorem maskWords_short (key : Key) {p : List UInt8} (short : p.length < 4) :
    maskWords key p = ([], p) := by
  match p, short with
  | [], _ => rfl
  | [_], _ => rfl
  | [_, _], _ => rfl
  | [_, _, _], _ => rfl

theorem maskWords_eq (key : Key) (p : List UInt8) :
    ∃ words left, p = words ++ left ∧ words.length % 4 = 0 ∧ left.length < 4 ∧
      maskWords key p = (applyMask key 0 words, left) := by
  match p with
  | a :: b :: c :: d :: rest =>
      obtain ⟨words, left, join, whole, short, equal⟩ := maskWords_eq key rest
      refine ⟨a :: b :: c :: d :: words, left, by rw [join]; rfl, ?_, short, ?_⟩
      · simp only [List.length_cons]
        omega
      · have shift : applyMask key 4 words = applyMask key 0 words :=
          applyMask_congr key (by decide : 4 % 4 = 0 % 4) words
        simp only [maskWords, equal, applyMask, Nat.zero_add, Nat.reduceAdd, shift]
        rfl
  | [] => exact ⟨[], [], rfl, rfl, by simp, rfl⟩
  | [_] => exact ⟨[], _, rfl, rfl, by simp, maskWords_short key (by simp)⟩
  | [_, _] => exact ⟨[], _, rfl, rfl, by simp, maskWords_short key (by simp)⟩
  | [_, _, _] => exact ⟨[], _, rfl, rfl, by simp, maskWords_short key (by simp)⟩

/-- The word and tail loops together, from the start of the key. -/
theorem maskPayload_zero (key : Key) (p : List UInt8) :
    maskPayload key p 0 = (applyMask key 0 p, p.length % 4) := by
  obtain ⟨words, left, join, whole, short, equal⟩ := maskWords_eq key p
  have tail : applyMask key words.length left = applyMask key 0 left :=
    applyMask_congr key (by omega) left
  simp only [maskPayload, Nat.lt_irrefl, if_false, equal]
  rw [join, applyMask_append, Nat.zero_add, tail, List.length_append]
  by_cases empty : left = []
  · subst empty
    simp only [if_true, applyMask, List.nil_append, List.append_nil, List.length_nil,
      Nat.add_zero, whole]
  · have size : (words.length + left.length) % 4 = left.length := by omega
    simp only [empty, if_false, List.nil_append, size]

/-- `mask_payload` masks from its index on and leaves the index of the byte
after the last one. -/
theorem maskPayload_eq (key : Key) (p : List UInt8) {i : ℕ} (inside : i < 4) :
    maskPayload key p i = (applyMask key i p, (i + p.length) % 4) := by
  rcases Nat.eq_zero_or_pos i with zero | positive
  · rw [zero, maskPayload_zero, Nat.zero_add]
  · rcases Nat.lt_or_ge p.length (4 - i) with short | long
    · have all : p.take (4 - i) = p := List.take_of_length_le (by omega)
      have none : p.drop (4 - i) = [] := List.drop_of_length_le (by omega)
      have last : min (4 - i) p.length = p.length := by omega
      have small : ¬ 4 ≤ i + p.length := by omega
      have index : (i + p.length) % 4 = i + p.length := Nat.mod_eq_of_lt (by omega)
      simp only [maskPayload, positive, if_true, maskHead_eq, all, none, last, maskWords, small,
        if_false, List.append_nil, index]
    · have last : min (4 - i) p.length = 4 - i := by omega
      have full : 4 ≤ i + (4 - i) := by omega
      have rest := maskPayload_zero key (p.drop (4 - i))
      have join : applyMask key i p =
          applyMask key i (p.take (4 - i)) ++ applyMask key 0 (p.drop (4 - i)) := by
        have size : (p.take (4 - i)).length = 4 - i := List.length_take_of_le long
        conv_lhs => rw [← List.take_append_drop (4 - i) p]
        rw [applyMask_append, size]
        congr 1
        exact applyMask_congr key (by omega) _
      have index : (i + p.length) % 4 = (p.drop (4 - i)).length % 4 := by
        rw [List.length_drop]
        omega
      rw [join, index]
      simp only [maskPayload, Nat.lt_irrefl, if_false, List.nil_append] at rest
      simp only [maskPayload, positive, if_true, maskHead_eq, last, full]
      split at rest
      · rename_i empty
        have equal := Prod.mk.inj rest
        simp only [empty, if_true, equal.1, equal.2]
      · rename_i some
        have equal := Prod.mk.inj rest
        simp only [some, if_false, List.append_assoc, equal.1, equal.2]

theorem maskPayload_length (key : Key) (p : List UInt8) (i : ℕ) :
    (maskPayload key p i).1.length = p.length := by
  rcases Nat.eq_zero_or_pos i with zero | positive
  · rw [zero, maskPayload_zero, applyMask_length]
  · obtain ⟨words, left, join, _, _, equal⟩ := maskWords_eq key (p.drop (4 - i))
    have rest := congrArg List.length join
    rw [List.length_drop, List.length_append] at rest
    have front : (p.take (4 - i)).length = min (4 - i) p.length := List.length_take ..
    simp only [maskPayload, positive, if_true, maskHead_eq, equal]
    split
    · next none =>
        subst none
        rw [List.length_append, applyMask_length, applyMask_length, front]
        rw [List.length_nil] at rest
        omega
    · rw [List.length_append, List.length_append, applyMask_length, applyMask_length,
        applyMask_length, front]
      omega

/-- A payload that is masked piece by piece, each from the index the last one left. -/
def maskPieces (key : Key) : List (List UInt8) → ℕ → List UInt8 × ℕ
  | [], maskIdx => ([], maskIdx)
  | p :: pieces, maskIdx =>
      let (first, maskIdx) := maskPayload key p maskIdx
      let (rest, maskIdx) := maskPieces key pieces maskIdx
      (first ++ rest, maskIdx)

theorem applyMask_eq_mapIdx (key : Key) (i : ℕ) (p : List UInt8) :
    applyMask key i p = p.mapIdx fun j byte => byte ^^^ key (Fin.ofNat 4 (i + j)) := by
  induction p generalizing i with
  | nil => rfl
  | cons byte rest ih =>
      have shift : (fun j byte => byte ^^^ key (Fin.ofNat 4 (i + 1 + j))) =
          fun j byte => byte ^^^ key (Fin.ofNat 4 (i + (j + 1))) := by
        funext j byte
        rw [Nat.add_assoc, Nat.add_comm 1 j]
      rw [applyMask, ih, List.mapIdx_cons, shift, Nat.add_zero]

theorem maskPieces_eq (key : Key) (pieces : List (List UInt8)) {i : ℕ} (inside : i < 4) :
    maskPieces key pieces i = (applyMask key i pieces.flatten, (i + pieces.flatten.length) % 4) := by
  induction pieces generalizing i with
  | nil => exact Prod.ext rfl (Nat.mod_eq_of_lt inside).symm
  | cons p pieces ih =>
      have next : (i + p.length) % 4 < 4 := Nat.mod_lt _ (by decide)
      have index : ((i + p.length) % 4 + pieces.flatten.length) % 4 =
          (i + (p ++ pieces.flatten).length) % 4 := by
        rw [List.length_append, ← Nat.add_assoc, Nat.mod_add_mod]
      have later : applyMask key ((i + p.length) % 4) pieces.flatten =
          applyMask key (i + p.length) pieces.flatten :=
        applyMask_congr key (Nat.mod_mod _ _) _
      unfold maskPieces
      rw [maskPayload_eq key p inside]
      dsimp only
      rw [ih next, index, later, List.flatten_cons, applyMask_append]

/-- `mask_payload` changes each byte by the key's byte at its index, at once or in pieces, and
a second time gives the payload back. -/
theorem mask_payload_bytewise (key : Key) (p : List UInt8) {idx : ℕ} (inside : idx < 4) :
    maskPayload key p idx =
        (p.mapIdx fun i byte => byte ^^^ key (Fin.ofNat 4 (idx + i)), (idx + p.length) % 4) ∧
      (∀ pieces : List (List UInt8), pieces.flatten = p →
        maskPieces key pieces idx = maskPayload key p idx) ∧
      (maskPayload key (maskPayload key p idx).1 idx).1 = p := by
  have once := maskPayload_eq key p inside
  refine ⟨?_, ?_, ?_⟩
  · rw [once, applyMask_eq_mapIdx]
  · rintro pieces rfl
    rw [maskPieces_eq key pieces inside, once]
  · rw [once, maskPayload_eq key _ inside, applyMask_applyMask]

theorem mask_payload_bytewise_unaligned :
    let key : Key := fun i => UInt8.ofNat (16 * (i + 1))
    maskPayload key [1, 2, 3, 4, 5, 6, 7] 3 =
        ([1, 2, 3, 4, 5, 6, 7].mapIdx fun i byte => byte ^^^ key (Fin.ofNat 4 (3 + i)), 2) ∧
      (∀ pieces : List (List UInt8), pieces.flatten = [1, 2, 3, 4, 5, 6, 7] →
        maskPieces key pieces 3 = maskPayload key [1, 2, 3, 4, 5, 6, 7] 3) ∧
      (maskPayload key (maskPayload key [1, 2, 3, 4, 5, 6, 7] 3).1 3).1 =
        [1, 2, 3, 4, 5, 6, 7] :=
  mask_payload_bytewise _ [1, 2, 3, 4, 5, 6, 7] (by decide)

end Cyue.Ws
