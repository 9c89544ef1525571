import Cyue.Ws.Frame
import Mathlib.Data.List.GetD

/-!
# Frames on the wire

A frame as its sender means it, the bytes that carry it, and what the header
functions of the connection make of these bytes.  `write_frame` produces such
frames.
-/

namespace Cyue.Ws

open Bytes

inductive LenForm where
  | short
  | ext16
  | ext64
  deriving DecidableEq, Repr

def LenForm.bound : LenForm → ℕ
  | .short => 0x7E
  | .ext16 => 256 ^ 2
  | .ext64 => 256 ^ 8

/-- A frame: its first byte (`fin`, the reserved bits and the opcode), the
masking key if it is masked, and a payload whose length the chosen encoding can
express. -/
structure Frame where
  first : UInt8
  key : Option Key
  form : LenForm
  payload : List UInt8
  fits : payload.length < form.bound

namespace Frame

def opcode (f : Frame) : Opcode := .ofNibble (f.first.toNat % 16)

def lenField (f : Frame) : ℕ :=
  match f.form with
  | .short => f.payload.length
  | .ext16 => 0x7E
  | .ext64 => 0x7F

def second (f : Frame) : UInt8 :=
  UInt8.ofNat (f.lenField + if f.key.isSome then 128 else 0)

def extended (f : Frame) : List UInt8 :=
  match f.form with
  | .short => []
  | .ext16 => beBytes 2 f.payload.length
  | .ext64 => beBytes 8 f.payload.length

def keyBytes (f : Frame) : List UInt8 :=
  match f.key with
  | none => []
  | some key => List.ofFn key

def header (f : Frame) : List UInt8 := f.first :: f.second :: (f.extended ++ f.keyBytes)

/-- Payload bytes from index `i` on as they stand on the wire, and back. -/
def scramble (f : Frame) (i : ℕ) (p : List UInt8) : List UInt8 :=
  match f.key with
  | none => p
  | some key => applyMask key i p

def body (f : Frame) : List UInt8 := f.scramble 0 f.payload

def wire (f : Frame) : List UInt8 := f.header ++ f.body

/-- The state in which the connection receives the payload. -/
def state (f : Frame) : State :=
  match f.key.isSome, f.form with
  | true, .short => .recvMask
  | true, .ext16 => .recvMask0x7E
  | true, .ext64 => .recvMask0x7F
  | false, .short => .recv
  | false, .ext16 => .recv0x7E
  | false, .ext64 => .recv0x7F

@[simp]
theorem scramble_length (f : Frame) (i : ℕ) (p : List UInt8) :
    (f.scramble i p).length = p.length := by
  unfold scramble
  cases f.key with
  | none => rfl
  | some key => exact applyMask_length key i p

theorem scramble_append (f : Frame) (i : ℕ) (p q : List UInt8) :
    f.scramble i (p ++ q) = f.scramble i p ++ f.scramble (i + p.length) q := by
  unfold scramble
  cases f.key with
  | none => rfl
  | some key => exact applyMask_append key i p q

theorem scramble_scramble (f : Frame) (i : ℕ) (p : List UInt8) :
    f.scramble i (f.scramble i p) = p := by
  unfold scramble
  cases f.key with
  | none => rfl
  | some key => exact applyMask_applyMask key i p

@[simp]
theorem body_length (f : Frame) : f.body.length = f.payload.length := scramble_length f 0 _

/-- Any stretch of the body, unmasked at its index, is the stretch of the
payload that it carries. -/
theorem scramble_body (f : Frame) {i : ℕ} {b rest : List UInt8}
    (here : f.body.drop i = b ++ rest) :
    f.scramble i b = (f.payload.drop i).take b.length := by
  have clear : f.scramble i (f.body.drop i) = f.payload.drop i := by
    have all : f.scramble 0 f.body = f.payload := scramble_scramble f 0 _
    rcases Nat.le_total i f.body.length with inside | outside
    · have size : (f.body.take i).length = i := List.length_take_of_le inside
      rw [← List.take_append_drop i f.body, scramble_append, size, Nat.zero_add] at all
      have front : (f.scramble 0 (f.body.take i)).length = i := by rw [scramble_length, size]
      rw [← all, List.drop_left' front]
    · rw [List.drop_of_length_le outside, List.drop_of_length_le (by simpa using outside)]
      exact List.eq_nil_of_length_eq_zero (by simp)
  rw [here, scramble_append] at clear
  rw [← clear, List.take_append_of_le_length (by simp), List.take_of_length_le (by simp)]

theorem length_lt (f : Frame) : f.payload.length < 2 ^ 64 := by
  have fits := f.fits
  cases form : f.form <;> rw [form, LenForm.bound] at fits <;> omega

/-! ## The header as the connection reads it -/

theorem lenField_lt (f : Frame) : f.lenField < 128 := by
  have fits := f.fits
  unfold lenField
  cases form : f.form <;> rw [form] at fits <;> simp only [LenForm.bound] at fits ⊢ <;> omega

theorem second_toNat (f : Frame) :
    f.second.toNat = f.lenField + if f.key.isSome then 128 else 0 := by
  have small := f.lenField_lt
  rw [second, UInt8.toNat_ofNat']
  split <;> omega

theorem opcode_header (f : Frame) (t : List UInt8) :
    Ws.opcode (f.header ++ t) = f.opcode := rfl

theorem masked_header (f : Frame) (t : List UInt8) :
    masked (f.header ++ t) = f.key.isSome := by
  have small := f.lenField_lt
  have second : byteAt (f.header ++ t) 1 = f.second := rfl
  rw [masked, second, second_toNat]
  cases f.key.isSome
  · simpa using small
  · simp

theorem payloadLen_header (f : Frame) (t : List UInt8) :
    payloadLen (f.header ++ t) = f.lenField := by
  have small := f.lenField_lt
  have second : byteAt (f.header ++ t) 1 = f.second := rfl
  rw [payloadLen, second, second_toNat]
  split <;> omega

theorem variant_header (f : Frame) :
    variant f.key.isSome f.lenField = (f.state, f.header.length) := by
  obtain ⟨first, key, form, payload, fits⟩ := f
  cases form with
  | short =>
      have not7F : payload.length ≠ 0x7F := by simp only [LenForm.bound] at fits; omega
      have not7E : payload.length ≠ 0x7E := by simp only [LenForm.bound] at fits; omega
      cases key <;> simp [variant, state, header, lenField, extended, keyBytes, not7F, not7E]
  | ext16 => cases key <;> simp [variant, state, header, lenField, extended, keyBytes]
  | ext64 => cases key <;> simp [variant, state, header, lenField, extended, keyBytes]

theorem header_length_le (f : Frame) : f.header.length ≤ sizeofFrame := by
  obtain ⟨first, key, form, payload, fits⟩ := f
  cases form <;> cases key <;> simp [header, extended, keyBytes, sizeofFrame]

theorem two_le_header (f : Frame) : 2 ≤ f.header.length := by
  simp [header]

theorem state_inFrame (f : Frame) : f.state.InFrame = true := by
  unfold state
  cases f.key.isSome <;> cases f.form <;> rfl

/-- A complete header is recognised, with whatever follows it. -/
theorem analyzeFrame_header (f : Frame) (t : List UInt8) :
    analyzeFrame (f.header ++ t) = (f.state, t.length) := by
  have two := f.two_le_header
  have long : ¬ (f.header ++ t).length < 2 := by rw [List.length_append]; omega
  have complete : ¬ (f.header ++ t).length < f.header.length := by simp
  have rest : (f.header ++ t).length - f.header.length = t.length := by simp
  rw [analyzeFrame, if_neg long, masked_header, payloadLen_header, variant_header]
  simp only [complete, if_false, rest]

/-- A header that has not arrived completely is waited for. -/
theorem analyzeFrame_short (f : Frame) {h t : List UInt8} (part : f.header = h ++ t)
    (missing : t ≠ []) : analyzeFrame h = (.recvFrame, 0) := by
  have shorter : h.length < f.header.length := by
    rw [part, List.length_append]
    have := List.length_pos_iff.mpr missing
    omega
  by_cases two : h.length < 2
  · rw [analyzeFrame, if_pos two]
  · have second : byteAt h 1 = byteAt (f.header ++ []) 1 := by
      rw [List.append_nil, part]
      exact (List.getD_append h t 0 1 (by omega)).symm
    have sameMask : masked h = f.key.isSome := by rw [← f.masked_header [], masked, second, masked]
    have sameLen : payloadLen h = f.lenField := by
      rw [← f.payloadLen_header [], payloadLen, second, payloadLen]
    rw [analyzeFrame, if_neg two, sameMask, sameLen, variant_header]
    simp only [shorter, if_true]

theorem getMask_header (f : Frame) (t : List UInt8) {key : Key} (given : f.key = some key) :
    getMask f.state (f.header ++ t) = key := by
  have split : f.header ++ t = (f.first :: f.second :: f.extended) ++ (List.ofFn key ++ t) := by
    simp [header, keyBytes, given]
  have digit : ∀ i : Fin 4,
      byteAt (f.header ++ t) ((f.first :: f.second :: f.extended).length + i) = key i := by
    intro i
    rw [split, byteAt, List.getD_append_right _ _ _ _ (Nat.le_add_right _ _),
      Nat.add_sub_cancel_left, List.getD_append _ _ _ _ (by simp),
      List.getD_eq_getElem _ _ (by simp), List.getElem_ofFn]
  funext i
  rw [← digit i]
  cases form : f.form <;> simp [state, given, form, getMask, extended]

theorem frameSize_header (f : Frame) (t : List UInt8) :
    frameSize f.state (f.header ++ t) = f.payload.length := by
  have fits := f.fits
  have field := f.payloadLen_header t
  have split : (f.header ++ t).drop 2 = f.extended ++ (f.keyBytes ++ t) := by simp [header]
  rw [lenField] at field
  cases form : f.form with
  | short =>
      simp only [form] at field
      cases masked : f.key.isSome <;> simp [state, form, masked, frameSize, field]
  | ext16 =>
      have front : ((f.header ++ t).drop 2).take 2 = beBytes 2 f.payload.length := by
        rw [split, extended, form, List.take_left' (beBytes_length 2 _)]
      rw [← beNat_beBytes (by simpa [form, LenForm.bound] using fits :
        f.payload.length < 256 ^ 2), ← front]
      cases masked : f.key.isSome <;> simp [state, form, masked, frameSize]
  | ext64 =>
      have front : ((f.header ++ t).drop 2).take 8 = beBytes 8 f.payload.length := by
        rw [split, extended, form, List.take_left' (beBytes_length 8 _)]
      rw [← beNat_beBytes (by simpa [form, LenForm.bound] using fits :
        f.payload.length < 256 ^ 8), ← front]
      cases masked : f.key.isSome <;> simp [state, form, masked, frameSize]

end Frame

/-! ## Sending -/

/-- The header that `write_frame` builds. -/
def writeHeader (masked fin : Bool) (opc : ℕ) (rnd : Key) (l : ℕ) : List UInt8 :=
  let controls := UInt8.ofNat ((if fin then 128 else 0) + opc % 16)
  let lenByte (field : ℕ) := UInt8.ofNat (field + if masked then 128 else 0)
  let maskingKey := if masked then List.ofFn rnd else []
  if 0x7E ≤ l then
    if l ≤ 0xFFFF then controls :: lenByte 0x7E :: (beBytes 2 l ++ maskingKey)
    else controls :: lenByte 0x7F :: (beBytes 8 l ++ maskingKey)
  else controls :: lenByte l :: maskingKey

/-- `write_frame`: the bytes of its two writes.  A server never masks. -/
def writeFrame (server masked fin : Bool) (opc : ℕ) (rnd : Key) (p : List UInt8) : List UInt8 :=
  writeHeader (masked && !server) fin opc rnd p.length ++
    if masked && !server then (maskPayload rnd p 0).1 else p

/-- The encoding that `write_frame` chooses. -/
def LenForm.ofLength (l : ℕ) : LenForm :=
  if 0x7E ≤ l then if l ≤ 0xFFFF then .ext16 else .ext64 else .short

theorem LenForm.lt_bound_ofLength {l : ℕ} (addressable : l < 2 ^ 64) :
    l < (LenForm.ofLength l).bound := by
  unfold ofLength
  split
  · split
    · simp only [bound]
      omega
    · simp only [bound]
      omega
  · simp only [bound]
    omega

/-- The frame that `write_frame` sends. -/
def Frame.sent (masked fin : Bool) (opc : ℕ) (rnd : Key) (p : List UInt8)
    (addressable : p.length < 2 ^ 64) : Frame where
  first := UInt8.ofNat ((if fin then 128 else 0) + opc % 16)
  key := if masked then some rnd else none
  form := .ofLength p.length
  payload := p
  fits := LenForm.lt_bound_ofLength addressable

theorem writeHeader_eq (masked fin : Bool) (opc : ℕ) (rnd : Key) {p : List UInt8}
    (addressable : p.length < 2 ^ 64) :
    writeHeader masked fin opc rnd p.length =
      (Frame.sent masked fin opc rnd p addressable).header := by
  simp only [writeHeader, Frame.header, Frame.second, Frame.lenField, Frame.extended,
    Frame.keyBytes, Frame.sent, LenForm.ofLength]
  split
  · split <;> cases masked <;> rfl
  · cases masked <;> rfl

/-- `write_frame` sends a frame with the given opcode whose payload is the
bytes it is given. -/
theorem writeFrame_wire (server masked fin : Bool) (opc : ℕ) (rnd : Key) {p : List UInt8}
    (addressable : p.length < 2 ^ 64) :
    writeFrame server masked fin opc rnd p =
      (Frame.sent (masked && !server) fin opc rnd p addressable).wire := by
  rw [writeFrame, writeHeader_eq _ fin opc rnd addressable, Frame.wire]
  congr 1
  rw [maskPayload_zero]
  cases masked && !server <;> rfl

section

variable (masked fin : Bool) {opc : ℕ} (rnd : Key) {p : List UInt8} (addressable : p.length < 2 ^ 64)

theorem Frame.first_sent (known : opc ≤ 15) :
    (Frame.sent masked fin opc rnd p addressable).first.toNat =
      (if fin then 128 else 0) + opc := by
  have small : opc % 16 = opc := Nat.mod_eq_of_lt (Nat.lt_succ_of_le known)
  rw [Frame.sent, UInt8.toNat_ofNat', small]
  split <;> omega

theorem fin_sent (known : opc ≤ 15) (t : List UInt8) :
    Ws.fin ((Frame.sent masked fin opc rnd p addressable).header ++ t) = fin := by
  have first := Frame.first_sent masked fin rnd addressable known
  change decide (128 ≤ (Frame.sent masked fin opc rnd p addressable).first.toNat) = fin
  rw [first]
  cases fin
  · exact decide_eq_false (by simpa using Nat.lt_of_le_of_lt known (by decide))
  · exact decide_eq_true (Nat.le_add_right 128 opc)

theorem getOpcode_sent (known : opc ≤ 15) (t : List UInt8) :
    getOpcode ((Frame.sent masked fin opc rnd p addressable).header ++ t) = opc := by
  have first := Frame.first_sent masked fin rnd addressable known
  change (Frame.sent masked fin opc rnd p addressable).first.toNat % 16 = opc
  rw [first]
  split <;> omega

theorem Frame.key_sent :
    (Frame.sent masked fin opc rnd p addressable).key = if masked then some rnd else none := rfl

end

/-- The header that `write_frame` emits, with whatever follows it, is read back: the length, the
key that the payload is masked with, the opcode and the two bits.  A part of it is waited for. -/
theorem written_header_read (server masked fin : Bool) {opc : ℕ} (known : opc ≤ 15) (rnd : Key)
    {p : List UInt8} (fits : p.length < 2 ^ 63) :
    ∃ header, header = writeHeader (masked && !server) fin opc rnd p.length ∧
      (∀ more, ∃ state, state.InFrame = true ∧
        analyzeFrame (header ++ more) = (state, more.length) ∧
        frameSize state (header ++ more) = p.length ∧
        writeFrame server masked fin opc rnd p = header ++
          (if Ws.masked (header ++ more) then
            (maskPayload (getMask state (header ++ more)) p 0).1 else p) ∧
        getOpcode (header ++ more) = opc ∧ Ws.fin (header ++ more) = fin ∧
        Ws.masked (header ++ more) = (masked && !server)) ∧
      ∀ part missing, header = part ++ missing → missing ≠ [] →
        (analyzeFrame part).1 = .recvFrame := by
  have addressable : p.length < 2 ^ 64 := fits.trans (by decide)
  let f := Frame.sent (masked && !server) fin opc rnd p addressable
  have header : writeHeader (masked && !server) fin opc rnd p.length = f.header :=
    writeHeader_eq _ fin opc rnd addressable
  refine ⟨f.header, header.symm, ?_, ?_⟩
  · intro more
    have masks : Ws.masked (f.header ++ more) = (masked && !server) := by
      rw [Frame.masked_header, Frame.key_sent]
      cases masked && !server <;> rfl
    refine ⟨f.state, f.state_inFrame, f.analyzeFrame_header more, f.frameSize_header more, ?_,
      getOpcode_sent _ fin rnd addressable known more,
      fin_sent _ fin rnd addressable known more, masks⟩
    rw [writeFrame, header, masks]
    congr 1
    split
    · rename_i on
      rw [f.getMask_header more ((Frame.key_sent _ fin rnd addressable).trans (if_pos on))]
    · rfl
  · intro part missing split some
    exact congrArg Prod.fst (f.analyzeFrame_short split some)

theorem written_header_read_text :
    ∃ header, header = writeHeader true true 1 (fun _ => 7) 1 ∧
      (∀ more, ∃ state, state.InFrame = true ∧
        analyzeFrame (header ++ more) = (state, more.length) ∧
        frameSize state (header ++ more) = 1 ∧
        writeFrame false true true 1 (fun _ => 7) [104] = header ++
          (if Ws.masked (header ++ more) then
            (maskPayload (getMask state (header ++ more)) [104] 0).1 else [104]) ∧
        getOpcode (header ++ more) = 1 ∧ Ws.fin (header ++ more) = true ∧
        Ws.masked (header ++ more) = true) ∧
      ∀ part missing, header = part ++ missing → missing ≠ [] →
        (analyzeFrame part).1 = .recvFrame :=
  written_header_read false true true (by decide) (fun _ => 7) (p := [104]) (by decide)

end Cyue.Ws
