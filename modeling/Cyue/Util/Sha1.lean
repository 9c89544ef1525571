import Cyue.Lib.Blocks
import Cyue.Lib.Memory
import Mathlib.Logic.Function.Basic
import Mathlib.Tactic.IntervalCases

/-!
# SHA-1

`SHA1cc` hashes in place: the sixteen words of the block become the message schedule, each
written over the one that is not needed any more, and the five registers change their parts
from round to round instead of being moved.  The compiler's machine is little-endian.

`Standard` is the hash function as it is defined: eighty words for a block, five working
variables, and the padded message in blocks of sixty-four bytes.
-/

namespace Cyue.Sha1

open Bytes Memory Blocks

/-! ## The program -/

def rol (v b : UInt32) : UInt32 := v <<< b ||| v >>> (32 - b)

def bsw (v : UInt32) : UInt32 :=
  (v &&& 0x000000FF) <<< 24 ||| (v &&& 0x0000FF00) <<< 8 ||| (v &&& 0x00FF0000) >>> 8 |||
    (v &&& 0xFF000000) >>> 24

/-- `SHA1_Context`; the sixth word of its state is not used. -/
structure Context where
  block : Mem
  state : Fin 5 → UInt32
  count : UInt64

structure Work where
  r : Fin 5 → UInt32
  block : Mem

namespace Work

def b (t : Work) (i : ℕ) : UInt32 := UInt32.ofNat (loadLe t.block (4 * i) 4)

def setB (t : Work) (i : ℕ) (v : UInt32) : Work :=
  { t with block := storeLe t.block (4 * i) 4 v.toNat }

/-- `B_` -/
def word (t : Work) (i : ℕ) : UInt32 := bsw (t.b i)

/-- `BL` -/
def mixed (t : Work) (i : ℕ) : UInt32 :=
  rol (t.b ((i + 0xd) &&& 0xf) ^^^ t.b ((i + 0x8) &&& 0xf) ^^^ t.b ((i + 0x2) &&& 0xf) ^^^
    t.b (i &&& 0xf)) 1

def round (t : Work) (v w z : Fin 5) (chosen word k : UInt32) : Work :=
  let r := Function.update t.r z (t.r z + (chosen + word + k + rol (t.r v) 5))
  { t with r := Function.update r w (rol (r w) 30) }

def r_ (v w x y z : Fin 5) (i : ℕ) (t : Work) : Work :=
  (t.setB i (t.word i)).round v w z ((t.r w &&& (t.r x ^^^ t.r y)) ^^^ t.r y) (t.word i) 0x5a827999

def r0 (v w x y z : Fin 5) (i : ℕ) (t : Work) : Work :=
  (t.setB (i &&& 0xf) (t.mixed i)).round v w z ((t.r w &&& (t.r x ^^^ t.r y)) ^^^ t.r y) (t.mixed i)
    0x5a827999

def r1 (v w x y z : Fin 5) (i : ℕ) (t : Work) : Work :=
  (t.setB (i &&& 0xf) (t.mixed i)).round v w z (t.r w ^^^ t.r x ^^^ t.r y) (t.mixed i) 0x6ed9eba1

def r2 (v w x y z : Fin 5) (i : ℕ) (t : Work) : Work :=
  (t.setB (i &&& 0xf) (t.mixed i)).round v w z ((t.r w ||| t.r x) &&& t.r y ||| t.r w &&& t.r x)
    (t.mixed i) 0x8f1bbcdc

def r3 (v w x y z : Fin 5) (i : ℕ) (t : Work) : Work :=
  (t.setB (i &&& 0xf) (t.mixed i)).round v w z (t.r w ^^^ t.r x ^^^ t.r y) (t.mixed i) 0xca62c1d6

def rounds : List (Work → Work) :=
  [r_ 0 1 2 3 4 0, r_ 4 0 1 2 3 1, r_ 3 4 0 1 2 2, r_ 2 3 4 0 1 3, r_ 1 2 3 4 0 4,
    r_ 0 1 2 3 4 5, r_ 4 0 1 2 3 6, r_ 3 4 0 1 2 7, r_ 2 3 4 0 1 8, r_ 1 2 3 4 0 9,
    r_ 0 1 2 3 4 10, r_ 4 0 1 2 3 11, r_ 3 4 0 1 2 12, r_ 2 3 4 0 1 13, r_ 1 2 3 4 0 14,
    r_ 0 1 2 3 4 15, r0 4 0 1 2 3 16, r0 3 4 0 1 2 17, r0 2 3 4 0 1 18, r0 1 2 3 4 0 19,
    r1 0 1 2 3 4 20, r1 4 0 1 2 3 21, r1 3 4 0 1 2 22, r1 2 3 4 0 1 23, r1 1 2 3 4 0 24,
    r1 0 1 2 3 4 25, r1 4 0 1 2 3 26, r1 3 4 0 1 2 27, r1 2 3 4 0 1 28, r1 1 2 3 4 0 29,
    r1 0 1 2 3 4 30, r1 4 0 1 2 3 31, r1 3 4 0 1 2 32, r1 2 3 4 0 1 33, r1 1 2 3 4 0 34,
    r1 0 1 2 3 4 35, r1 4 0 1 2 3 36, r1 3 4 0 1 2 37, r1 2 3 4 0 1 38, r1 1 2 3 4 0 39,
    r2 0 1 2 3 4 40, r2 4 0 1 2 3 41, r2 3 4 0 1 2 42, r2 2 3 4 0 1 43, r2 1 2 3 4 0 44,
    r2 0 1 2 3 4 45, r2 4 0 1 2 3 46, r2 3 4 0 1 2 47, r2 2 3 4 0 1 48, r2 1 2 3 4 0 49,
    r2 0 1 2 3 4 50, r2 4 0 1 2 3 51, r2 3 4 0 1 2 52, r2 2 3 4 0 1 53, r2 1 2 3 4 0 54,
    r2 0 1 2 3 4 55, r2 4 0 1 2 3 56, r2 3 4 0 1 2 57, r2 2 3 4 0 1 58, r2 1 2 3 4 0 59,
    r3 0 1 2 3 4 60, r3 4 0 1 2 3 61, r3 3 4 0 1 2 62, r3 2 3 4 0 1 63, r3 1 2 3 4 0 64,
    r3 0 1 2 3 4 65, r3 4 0 1 2 3 66, r3 3 4 0 1 2 67, r3 2 3 4 0 1 68, r3 1 2 3 4 0 69,
    r3 0 1 2 3 4 70, r3 4 0 1 2 3 71, r3 3 4 0 1 2 72, r3 2 3 4 0 1 73, r3 1 2 3 4 0 74,
    r3 0 1 2 3 4 75, r3 4 0 1 2 3 76, r3 3 4 0 1 2 77, r3 2 3 4 0 1 78, r3 1 2 3 4 0 79]

end Work

namespace Context

def transform (t : Context) : Context :=
  let work := Work.rounds.foldl (fun work round => round work) ⟨t.state, t.block⟩
  { t with block := work.block, state := fun j => t.state j + work.r j }

def init : Context where
  block := fun _ => 0
  state
    | 0 => 0x67452301
    | 1 => 0xefcdab89
    | 2 => 0x98badcfe
    | 3 => 0x10325476
    | 4 => 0xc3d2e1f0
  count := 0

def put (t : Context) (i : ℕ) (bytes : List UInt8) : Context :=
  { t with block := store t.block i bytes, count := t.count + UInt64.ofNat bytes.length }

def updateLoop (t : Context) (ss : List UInt8) : Context :=
  if ss.length < 0x40 then t.put 0 ss
  else updateLoop (t.put 0 (ss.take 0x40)).transform (ss.drop 0x40)
termination_by ss.length
decreasing_by
  rw [List.length_drop]
  omega

def update (t : Context) (pv : List UInt8) : Context :=
  let i := (t.count.toUInt32 &&& 0x3f).toNat
  if i > 0 then
    if pv.length < 0x40 - i then t.put i pv
    else updateLoop (t.put i (pv.take (0x40 - i))).transform (pv.drop (0x40 - i))
  else updateLoop t pv

/-- The bit that ends the message, and zeros to the end of the block. -/
def close (t : Context) (i : ℕ) : Context :=
  { t with block := store (store t.block i [0x80]) (i + 1) (List.replicate (0x40 - (i + 1)) 0) }

/-- The length of the message goes to the end of the block. -/
def putLength (t : Context) (bitCount : UInt64) : Context :=
  let block := storeLe t.block 0x38 4 (bsw (bitCount >>> 32).toUInt32).toNat
  let block := storeLe block 0x3c 4 (bsw bitCount.toUInt32).toNat
  { t with block }

def finalize (t : Context) : List UInt8 :=
  let bitCount := t.count <<< 3
  let i := (t.count.toUInt32 &&& 0x3f).toNat
  let t := t.close i
  let t := if i + 1 > 0x38 then
    { t.transform with block := store t.transform.block 0 (List.replicate 0x40 0) } else t
  let t := (t.putLength bitCount).transform
  (List.finRange 5).flatMap fun j => leBytes 4 (bsw (t.state j)).toNat

end Context

def encode (data : List UInt8) : List UInt8 := (Context.init.update data).finalize

/-! ## The standard -/

namespace Standard

def ch (x y z : UInt32) : UInt32 := (x &&& y) ^^^ (~~~x &&& z)

def parity (x y z : UInt32) : UInt32 := x ^^^ y ^^^ z

def maj (x y z : UInt32) : UInt32 := (x &&& y) ^^^ (x &&& z) ^^^ (y &&& z)

def f (t : ℕ) : UInt32 → UInt32 → UInt32 → UInt32 :=
  if t < 20 then ch else if t < 40 then parity else if t < 60 then maj else parity

def k (t : ℕ) : UInt32 :=
  if t < 20 then 0x5a827999 else if t < 40 then 0x6ed9eba1
  else if t < 60 then 0x8f1bbcdc else 0xca62c1d6

/-- The words of a block, most significant byte first, and what is derived from them. -/
def schedule (block : List UInt8) (t : ℕ) : UInt32 :=
  if t < 16 then UInt32.ofNat (beNat ((block.drop (4 * t)).take 4))
  else rol (schedule block (t - 3) ^^^ schedule block (t - 8) ^^^ schedule block (t - 14) ^^^
    schedule block (t - 16)) 1

/-- The working variables after one more step. -/
def next (w : ℕ → UInt32) (v : Fin 5 → UInt32) (t : ℕ) : Fin 5 → UInt32
  | 0 => rol (v 0) 5 + f t (v 1) (v 2) (v 3) + v 4 + k t + w t
  | 1 => v 0
  | 2 => rol (v 1) 30
  | 3 => v 2
  | 4 => v 3

def compress (h : Fin 5 → UInt32) (block : List UInt8) : Fin 5 → UInt32 :=
  fun j => h j + (List.range 80).foldl (next (schedule block)) h j

/-- A one, as few zeros as fill the last block, and the length in bits. -/
def pad (message : List UInt8) : List UInt8 :=
  message ++ 0x80 :: List.replicate ((119 - message.length % 64) % 64) 0 ++
    beBytes 8 (8 * message.length)

def initial : Fin 5 → UInt32
  | 0 => 0x67452301
  | 1 => 0xefcdab89
  | 2 => 0x98badcfe
  | 3 => 0x10325476
  | 4 => 0xc3d2e1f0

def hash (message : List UInt8) : List UInt8 :=
  (List.finRange 5).flatMap fun j =>
    beBytes 4 ((swallow compress 64 initial (pad message)).1 j).toNat

theorem hash_length (message : List UInt8) : (hash message).length = 20 := by
  unfold hash
  rw [List.length_flatMap]
  simp only [beBytes_length]
  rfl

end Standard

/-! ## Words -/

theorem append_toNat {m n : ℕ} (x : BitVec m) (y : BitVec n) :
    (x ++ y).toNat = x.toNat * 2 ^ n + y.toNat := by
  rw [BitVec.toNat_append, ← Nat.shiftLeft_add_eq_or_of_lt y.isLt, Nat.shiftLeft_eq]

theorem bsw_append (v : UInt32) : (bsw v).toBitVec =
    (v.toBitVec.extractLsb' 0 8 ++ (v.toBitVec.extractLsb' 8 8 ++
      (v.toBitVec.extractLsb' 16 8 ++ v.toBitVec.extractLsb' 24 8)) : BitVec 32) := by
  refine BitVec.eq_of_getLsbD_eq fun i inside => ?_
  simp only [bsw, UInt32.toBitVec_or, UInt32.toBitVec_shiftLeft, UInt32.toBitVec_shiftRight,
    UInt32.toBitVec_and, BitVec.getLsbD_or, BitVec.getLsbD_append, BitVec.getLsbD_extractLsb']
  interval_cases i <;> simp

theorem bsw_toNat (v : UInt32) : (bsw v).toNat = leNat (beBytes 4 v.toNat) := by
  have pieces : (bsw v).toBitVec.toNat = _ := congrArg BitVec.toNat (bsw_append v)
  rw [append_toNat, append_toNat, append_toNat] at pieces
  simp only [BitVec.extractLsb'_toNat, Nat.shiftRight_eq_div_pow] at pieces
  have bytes : leNat (beBytes 4 v.toNat) = v.toNat % 256 * 256 ^ 3 + (v.toNat / 256 % 256 * 256 ^ 2 +
      (v.toNat / 256 ^ 2 % 256 * 256 + v.toNat / 256 ^ 3 % 256)) := by
    simp [leNat, beBytes, beNat]
  refine Eq.trans pieces ?_
  rw [bytes, pow_zero, Nat.div_one]
  rfl

/-- A word is stored most significant byte first. -/
theorem leBytes_bsw (v : UInt32) : leBytes 4 (bsw v).toNat = beBytes 4 v.toNat := by
  have back := leBytes_leNat (beBytes 4 v.toNat)
  rw [beBytes_length] at back
  rw [bsw_toNat, back]

/-- A word is loaded most significant byte first. -/
theorem bsw_word {bytes : List UInt8} (four : bytes.length = 4) :
    bsw (UInt32.ofNat (leNat bytes)) = UInt32.ofNat (beNat bytes) := by
  have small : leNat bytes < 2 ^ 32 := by
    have := leNat_lt bytes
    rw [four] at this
    exact this
  have value : (UInt32.ofNat (leNat bytes)).toNat = leNat bytes := UInt32.toNat_ofNat_of_lt small
  have reversed : beBytes 4 (leNat bytes) = bytes.reverse := by
    have back := beBytes_beNat bytes.reverse
    rw [List.length_reverse, four] at back
    exact back
  refine UInt32.toNat_inj.mp ?_
  have big : beNat bytes < 2 ^ 32 := by
    have := beNat_lt bytes
    rw [four] at this
    exact this
  have value' : (UInt32.ofNat (beNat bytes)).toNat = beNat bytes := UInt32.toNat_ofNat_of_lt big
  rw [bsw_toNat, value, reversed, leNat, List.reverse_reverse, value']

theorem chosen_ch (x y z : UInt32) : (x &&& (y ^^^ z)) ^^^ z = Standard.ch x y z := by
  refine UInt32.toBitVec_inj.mp (BitVec.eq_of_getLsbD_eq fun i inside => ?_)
  simp only [Standard.ch, UInt32.toBitVec_xor, UInt32.toBitVec_and, UInt32.toBitVec_not,
    BitVec.getLsbD_xor, BitVec.getLsbD_and, BitVec.getLsbD_not, inside, decide_true, Bool.true_and]
  cases x.toBitVec.getLsbD i <;> cases y.toBitVec.getLsbD i <;> cases z.toBitVec.getLsbD i <;> rfl

theorem chosen_maj (x y z : UInt32) : (x ||| y) &&& z ||| x &&& y = Standard.maj x y z := by
  refine UInt32.toBitVec_inj.mp (BitVec.eq_of_getLsbD_eq fun i _ => ?_)
  simp only [Standard.maj, UInt32.toBitVec_xor, UInt32.toBitVec_and, UInt32.toBitVec_or,
    BitVec.getLsbD_xor, BitVec.getLsbD_and, BitVec.getLsbD_or]
  cases x.toBitVec.getLsbD i <;> cases y.toBitVec.getLsbD i <;> cases z.toBitVec.getLsbD i <;> rfl

namespace Work

variable {t : Work} {i j n : ℕ}

theorem b_setB (t : Work) (i : ℕ) (v : UInt32) : (t.setB i v).b i = v := by
  unfold b setB
  rw [loadLe_storeLe v.toNat_lt, UInt32.ofNat_toNat]

theorem b_setB_other (v : UInt32) (other : i ≠ j) : (t.setB j v).b i = t.b i := by
  unfold b setB
  rw [loadLe_storeLe_of_disjoint (by omega)]

/-! ## The rounds -/

/-- Where the working variable `j` is before the round `n`. -/
def reg (n : ℕ) (j : Fin 5) : Fin 5 := ⟨(j.val + 4 * n) % 5, Nat.mod_lt _ (by decide)⟩

theorem reg_inj {j j' : Fin 5} (same : reg n j = reg n j') : j = j' := by
  have := congrArg Fin.val same
  unfold reg at this
  dsimp only at this
  omega

theorem reg_succ (n : ℕ) : reg (n + 1) 0 = reg n 4 ∧ reg (n + 1) 1 = reg n 0 ∧
    reg (n + 1) 2 = reg n 1 ∧ reg (n + 1) 3 = reg n 2 ∧ reg (n + 1) 4 = reg n 3 := by
  refine ⟨?_, ?_, ?_, ?_, ?_⟩ <;>
  · unfold reg
    ext
    dsimp only [Fin.isValue]
    omega

def kind (n : ℕ) : Fin 5 → Fin 5 → Fin 5 → Fin 5 → Fin 5 → ℕ → Work → Work :=
  if n < 16 then r_ else if n < 20 then r0 else if n < 40 then r1 else if n < 60 then r2 else r3

def roundAt (n : ℕ) : Work → Work := kind n (reg n 0) (reg n 1) (reg n 2) (reg n 3) (reg n 4) n

theorem rounds_eq : rounds = (List.range 80).map roundAt := rfl

/-- The word that a round mixes in, and leaves in the block. -/
def fed (t : Work) (n : ℕ) : UInt32 := if n < 16 then t.word n else t.mixed n

/-- All rounds are of one form. -/
theorem roundAt_eq (within : n < 80) (t : Work) : roundAt n t =
    (t.setB (n % 16) (t.fed n)).round (reg n 0) (reg n 1) (reg n 4)
      (Standard.f n (t.r (reg n 1)) (t.r (reg n 2)) (t.r (reg n 3))) (t.fed n) (Standard.k n) := by
  have mask : n &&& 0xf = n % 16 := Nat.and_two_pow_sub_one_eq_mod n 4
  unfold roundAt kind fed Standard.f Standard.k
  by_cases first : n < 16
  · rw [if_pos first, if_pos first, if_pos (by omega), if_pos (by omega), r_, chosen_ch,
      Nat.mod_eq_of_lt first]
  · rw [if_neg first, if_neg first]
    by_cases second : n < 20
    · rw [if_pos second, if_pos second, if_pos second, r0, chosen_ch, mask]
    · rw [if_neg second, if_neg second, if_neg second]
      by_cases third : n < 40
      · rw [if_pos third, if_pos third, if_pos third, r1, mask, Standard.parity]
      · rw [if_neg third, if_neg third, if_neg third]
        by_cases fourth : n < 60
        · rw [if_pos fourth, if_pos fourth, if_pos fourth, r2, chosen_maj, mask]
        · rw [if_neg fourth, if_neg fourth, if_neg fourth, r3, mask, Standard.parity]

/-- Before the round `n`: the working variables are in their registers, and the block has the
last sixteen words of the schedule, those of the message not yet swapped. -/
structure Tracks (w : ℕ → UInt32) (v : Fin 5 → UInt32) (n : ℕ) (t : Work) : Prop where
  regs : ∀ j, t.r (reg n j) = v j
  ahead : ∀ i, n ≤ i → i < 16 → bsw (t.b i) = w i
  behind : ∀ i, i < n → n ≤ i + 16 → t.b (i % 16) = w i

theorem Tracks.fed {block : List UInt8} {v : Fin 5 → UInt32}
    (tracks : Tracks (Standard.schedule block) v n t) : t.fed n = Standard.schedule block n := by
  unfold Work.fed
  split
  case isTrue first => exact tracks.ahead n (Nat.le_refl n) first
  case isFalse later =>
      have mask : ∀ i, i &&& 0xf = i % 16 := fun i => Nat.and_two_pow_sub_one_eq_mod i 4
      have back : ∀ k c, 0 < k → k + c = 16 → t.b ((n + c) % 16) = Standard.schedule block (n - k) := by
        intro k c pos whole
        have index : (n + c) % 16 = (n - k) % 16 := by omega
        rw [index]
        exact tracks.behind (n - k) (by omega) (by omega)
      have last := back 16 0 (by decide) rfl
      rw [Nat.add_zero] at last
      rw [mixed, mask, mask, mask, mask, back 3 0xd (by decide) rfl, back 8 0x8 (by decide) rfl,
        back 14 0x2 (by decide) rfl, last]
      conv_rhs => rw [Standard.schedule, if_neg later]

theorem round_regs {r : Fin 5 → UInt32} {w : ℕ → UInt32} {v : Fin 5 → UInt32} (block : Mem)
    (regs : ∀ j, r (reg n j) = v j) :
    ∀ j, ((⟨r, block⟩ : Work).round (reg n 0) (reg n 1) (reg n 4) (Standard.f n (v 1) (v 2) (v 3)) (w n)
      (Standard.k n)).r (reg (n + 1) j) = Standard.next w v n j := by
  obtain ⟨zero, one, two, three, four⟩ := reg_succ n
  have apart : ∀ j j' : Fin 5, j ≠ j' → reg n j ≠ reg n j' := fun j j' other same => other (reg_inj same)
  intro j
  unfold round
  dsimp only
  match j with
  | 0 =>
      rw [zero, Function.update_of_ne (apart 4 1 (by decide)), Function.update_self, regs, regs]
      unfold Standard.next
      dsimp only
      ac_rfl
  | 1 =>
      rw [one, Function.update_of_ne (apart 0 1 (by decide)), Function.update_of_ne (apart 0 4 (by decide)),
        regs]
      rfl
  | 2 =>
      rw [two, Function.update_self, Function.update_of_ne (apart 1 4 (by decide)), regs]
      rfl
  | 3 =>
      rw [three, Function.update_of_ne (apart 2 1 (by decide)), Function.update_of_ne (apart 2 4 (by decide)),
        regs]
      rfl
  | 4 =>
      rw [four, Function.update_of_ne (apart 3 1 (by decide)), Function.update_of_ne (apart 3 4 (by decide)),
        regs]
      rfl

theorem Tracks.roundAt {block : List UInt8} {v : Fin 5 → UInt32} (within : n < 80)
    (tracks : Tracks (Standard.schedule block) v n t) :
    Tracks (Standard.schedule block) (Standard.next (Standard.schedule block) v n) (n + 1)
      (roundAt n t) := by
  rw [roundAt_eq within, tracks.fed, tracks.regs, tracks.regs, tracks.regs]
  refine ⟨round_regs _ tracks.regs, ?_, ?_⟩
  · intro i later below
    refine Eq.trans (congrArg bsw (b_setB_other _ ?_)) (tracks.ahead i (by omega) below)
    omega
  · intro i before near
    rcases Nat.lt_or_ge i n with earlier | this
    · refine Eq.trans (b_setB_other _ ?_) (tracks.behind i earlier (by omega))
      omega
    · obtain rfl : i = n := by omega
      exact b_setB t (i % 16) _

theorem foldl_tracks {block : List UInt8} {v : Fin 5 → UInt32}
    (tracks : Tracks (Standard.schedule block) v 0 t) (within : n ≤ 80) :
    Tracks (Standard.schedule block) ((List.range n).foldl (Standard.next (Standard.schedule block)) v) n
      ((List.range n).foldl (fun t n => roundAt n t) t) := by
  induction n with
  | zero => exact tracks
  | succ n ih =>
      rw [List.range_succ, List.foldl_append, List.foldl_append]
      exact (ih (by omega)).roundAt within

end Work

/-! ## A block -/

theorem load_take (m : Mem) (off : ℕ) {n k : ℕ} (le : k ≤ n) : (load m off n).take k = load m off k := by
  obtain ⟨rest, rfl⟩ := Nat.exists_eq_add_of_le le
  rw [load_add, List.take_left' (load_length _ _ _)]

/-- The words of a block, before any is swapped. -/
theorem schedule_load (m : Mem) {i : ℕ} (below : i < 16) (r : Fin 5 → UInt32) :
    bsw ((⟨r, m⟩ : Work).b i) = Standard.schedule (load m 0 64) i := by
  have four : (load m (4 * i) 4).length = 4 := load_length _ _ _
  have bytes : ((load m 0 64).drop (4 * i)).take 4 = load m (4 * i) 4 := by
    rw [← load_drop m 0 (by omega : 4 * i ≤ 64), Nat.zero_add, load_take m _ (by omega)]
  rw [Standard.schedule, if_pos below, bytes, ← bsw_word four]
  rfl

namespace Context

/-- `SHA1cc_Transform` takes in the block. -/
theorem transform_state (t : Context) :
    t.transform.state = Standard.compress t.state (load t.block 0 64) := by
  have begins : Work.Tracks (Standard.schedule (load t.block 0 64)) t.state 0 ⟨t.state, t.block⟩ := by
    refine ⟨fun j => ?_, fun i _ below => schedule_load t.block below t.state, fun i before => ?_⟩
    · have here : Work.reg 0 j = j := by
        unfold Work.reg
        ext
        dsimp only
        omega
      rw [here]
    · omega
  have ends := (Work.foldl_tracks begins (Nat.le_refl 80)).regs
  funext j
  have here : Work.reg 80 j = j := by
    unfold Work.reg
    ext
    dsimp only
    omega
  have final := ends j
  rw [here] at final
  unfold transform Standard.compress
  dsimp only
  rw [Work.rounds_eq, List.foldl_map, final]

theorem transform_count (t : Context) : t.transform.count = t.count := rfl

/-! ## The message -/

/-- What the context has of a message: its blocks are in the state, and its rest in the block. -/
structure Holds (t : Context) (message : List UInt8) : Prop where
  state : t.state = (swallow Standard.compress 64 Standard.initial message).1
  rest : load t.block 0 (message.length % 64) = (swallow Standard.compress 64 Standard.initial message).2
  count : t.count = UInt64.ofNat message.length

theorem init_holds : init.Holds [] := by
  have none : swallow Standard.compress 64 Standard.initial [] = (Standard.initial, []) :=
    swallow_short (by decide)
  refine ⟨?_, ?_, rfl⟩ <;> rw [none]
  · have same : ∀ j, init.state j = Standard.initial j := by decide
    exact funext same
  · rfl

/-- How far the block is filled. -/
theorem filled {t : Context} {n : ℕ} (count : t.count = UInt64.ofNat n) :
    (t.count.toUInt32 &&& 0x3f).toNat = n % 64 := by
  have mask : (t.count.toUInt32 &&& 0x3f).toNat = t.count.toUInt32.toNat % 64 := by
    rw [UInt32.toNat_and]
    exact Nat.and_two_pow_sub_one_eq_mod _ 6
  rw [mask, count, UInt64.toNat_toUInt32, UInt64.toNat_ofNat']
  omega

theorem load_put (t : Context) (i : ℕ) (bytes : List UInt8) :
    load (t.put i bytes).block 0 (i + bytes.length) = load t.block 0 i ++ bytes := by
  have before : load (store t.block i bytes) 0 i = load t.block 0 i :=
    load_store_of_disjoint (.inl (by omega))
  have behind := load_store t.block i bytes
  unfold put
  dsimp only
  rw [load_add, before, Nat.zero_add, behind]

/-- The loop swallows all blocks and keeps the rest. -/
theorem updateLoop_swallows (t : Context) (ss : List UInt8) :
    let t' := t.updateLoop ss
    t'.state = (swallow Standard.compress 64 t.state ss).1 ∧
      load t'.block 0 (ss.length % 64) = (swallow Standard.compress 64 t.state ss).2 ∧
      t'.count = t.count + UInt64.ofNat ss.length := by
  induction t, ss using updateLoop.induct with
  | case1 t ss short =>
      have none : swallow Standard.compress 64 t.state ss = (t.state, ss) := swallow_short short
      have put := load_put t 0 ss
      rw [Nat.zero_add] at put
      rw [updateLoop, if_pos short, none, Nat.mod_eq_of_lt short]
      exact ⟨rfl, put, rfl⟩
  | case2 t ss long ih =>
      have whole : 64 ≤ ss.length := Nat.le_of_not_lt long
      have full : (ss.take 64).length = 64 := by
        rw [List.length_take]
        omega
      have put := load_put t 0 (ss.take 64)
      rw [full] at put
      have state : (t.put 0 (ss.take 64)).transform.state = Standard.compress t.state (ss.take 64) := by
        rw [transform_state]
        exact congrArg _ put
      obtain ⟨state', rest, count⟩ := ih
      rw [updateLoop, if_neg long]
      dsimp only at state' rest count ⊢
      rw [state] at state' rest
      rw [List.length_drop, ← Nat.mod_eq_sub_mod whole] at rest
      rw [swallow_whole (by decide) whole]
      refine ⟨state', rest, ?_⟩
      rw [count, transform_count, List.length_drop]
      change t.count + UInt64.ofNat (ss.take 64).length + _ = _
      rw [full, UInt64.add_assoc, ← UInt64.ofNat_add, Nat.add_sub_cancel' whole]

/-- A piece is taken in behind what came before. -/
theorem Holds.update {t : Context} {message : List UInt8} (holds : t.Holds message) (pv : List UInt8) :
    (t.update pv).Holds (message ++ pv) := by
  obtain ⟨state, rest, count⟩ := holds
  have index := filled count
  have below : message.length % 64 < 64 := Nat.mod_lt _ (by decide)
  have both : swallow Standard.compress 64 Standard.initial (message ++ pv) = _ :=
    swallow_append (by decide) pv
  rw [← state, ← rest] at both
  have sum : ∀ n, t.count + UInt64.ofNat n = UInt64.ofNat (message.length + n) := by
    intro n
    rw [count, UInt64.ofNat_add]
  unfold Context.update
  dsimp only
  rw [index]
  by_cases begun : message.length % 64 > 0
  · rw [if_pos begun]
    by_cases short : pv.length < 0x40 - message.length % 64
    · have length : (message ++ pv).length % 64 = message.length % 64 + pv.length := by
        rw [List.length_append]
        omega
      have none : swallow Standard.compress 64 t.state (load t.block 0 (message.length % 64) ++ pv) =
          (t.state, load t.block 0 (message.length % 64) ++ pv) := by
        refine swallow_short ?_
        rw [List.length_append, load_length]
        omega
      rw [if_pos short]
      refine ⟨?_, ?_, ?_⟩
      · rw [both, none]
        rfl
      · rw [both, none, length, load_put]
      · rw [List.length_append]
        exact sum pv.length
    · have take : (pv.take (0x40 - message.length % 64)).length = 0x40 - message.length % 64 := by
        rw [List.length_take]
        omega
      have put := load_put t (message.length % 64) (pv.take (0x40 - message.length % 64))
      rw [take, Nat.add_sub_cancel' (by omega : message.length % 64 ≤ 0x40)] at put
      have full : (load t.block 0 (message.length % 64) ++
          pv.take (0x40 - message.length % 64)).length = 64 := by
        rw [← put, load_length]
      have split : swallow Standard.compress 64 t.state (load t.block 0 (message.length % 64) ++ pv) =
          swallow Standard.compress 64 (t.put (message.length % 64)
            (pv.take (0x40 - message.length % 64))).transform.state
            (pv.drop (0x40 - message.length % 64)) := by
        conv_lhs => rw [← List.take_append_drop (0x40 - message.length % 64) pv, ← List.append_assoc]
        rw [swallow_block (by decide) full, transform_state, ← put]
        rfl
      obtain ⟨state', rest', count'⟩ := updateLoop_swallows (t.put (message.length % 64)
        (pv.take (0x40 - message.length % 64))).transform (pv.drop (0x40 - message.length % 64))
      have length : (message ++ pv).length % 64 = (pv.drop (0x40 - message.length % 64)).length % 64 := by
        rw [List.length_append, List.length_drop]
        omega
      rw [if_neg short]
      refine ⟨?_, ?_, ?_⟩
      · rw [state', both, split]
      · rw [length, rest', both, split]
      · rw [count', transform_count]
        change t.count + UInt64.ofNat (pv.take _).length + _ = _
        rw [sum, ← UInt64.ofNat_add, take, List.length_drop, List.length_append]
        congr 1
        omega
  · have none : message.length % 64 = 0 := Nat.eq_zero_of_not_pos begun
    rw [none, load, List.nil_append] at both
    obtain ⟨state', rest', count'⟩ := updateLoop_swallows t pv
    have length : (message ++ pv).length % 64 = pv.length % 64 := by
      rw [List.length_append]
      omega
    rw [if_neg begun]
    refine ⟨?_, ?_, ?_⟩
    · rw [state', both]
    · rw [length, rest', both]
    · rw [count', List.length_append]
      exact sum pv.length

theorem Holds.updates {t : Context} {message : List UInt8} (holds : t.Holds message)
    (pieces : List (List UInt8)) : (pieces.foldl Context.update t).Holds (message ++ pieces.flatten) := by
  induction pieces generalizing t message with
  | nil =>
      rw [List.flatten_nil, List.append_nil]
      exact holds
  | cons pv pieces ih =>
      rw [List.flatten_cons, ← List.append_assoc]
      exact ih (holds.update pv)

/-! ## The end of the message -/

theorem beBytes_eight (n : ℕ) : beBytes 8 n = beBytes 4 (n / 256 ^ 4) ++ beBytes 4 n := by
  simp [beBytes, Nat.div_div_eq_div_mul]

/-- The length in bits, as it is stored. -/
theorem length_bytes {t : Context} {n : ℕ} (count : t.count = UInt64.ofNat n) :
    leBytes 4 (bsw ((t.count <<< 3) >>> 32).toUInt32).toNat ++
      leBytes 4 (bsw (t.count <<< 3).toUInt32).toNat = beBytes 8 (8 * n) := by
  have bits : (t.count <<< 3).toNat = 8 * n % 2 ^ 64 := by
    rw [count, UInt64.toNat_shiftLeft, UInt64.toNat_ofNat', Nat.shiftLeft_eq]
    change n % 2 ^ 64 * 2 ^ 3 % 2 ^ 64 = _
    omega
  rw [leBytes_bsw, leBytes_bsw, beBytes_eight]
  congr 1
  · refine beBytes_congr ?_
    rw [UInt64.toNat_toUInt32, UInt64.toNat_shiftRight, bits, Nat.shiftRight_eq_div_pow]
    change 8 * n % 2 ^ 64 / 2 ^ 32 % 2 ^ 32 % 256 ^ 4 = _
    omega
  · refine beBytes_congr ?_
    rw [UInt64.toNat_toUInt32, bits]
    omega

theorem load_close (t : Context) {i : ℕ} (below : i < 64) :
    load (t.close i).block 0 64 = load t.block 0 i ++ 0x80 :: List.replicate (63 - i) 0 := by
  have one : load (t.put i [0x80]).block 0 (i + 1) = _ := load_put t i [0x80]
  have zeros := load_put (t.put i [0x80]) (i + 1) (List.replicate (0x40 - (i + 1)) 0)
  rw [List.length_replicate, Nat.add_sub_cancel' (by omega : i + 1 ≤ 0x40)] at zeros
  have rest : 0x40 - (i + 1) = 63 - i := by omega
  refine zeros.trans ?_
  rw [one, List.append_assoc, rest]
  rfl

/-- The length takes the place of the last eight bytes. -/
theorem putLength_state {t t' : Context} {n : ℕ} (count : t.count = UInt64.ofNat n) :
    (t'.putLength (t.count <<< 3)).transform.state =
      Standard.compress t'.state (load t'.block 0 56 ++ beBytes 8 (8 * n)) := by
  have first := load_put t' 56 (leBytes 4 (bsw ((t.count <<< 3) >>> 32).toUInt32).toNat)
  have second := load_put (t'.put 56 (leBytes 4 (bsw ((t.count <<< 3) >>> 32).toUInt32).toNat)) 60
    (leBytes 4 (bsw (t.count <<< 3).toUInt32).toNat)
  rw [leBytes_length] at first second
  rw [first, List.append_assoc, length_bytes count] at second
  rw [transform_state]
  exact congrArg _ second

/-- A block and nothing behind it. -/
theorem swallow_last {h : Fin 5 → UInt32} {block : List UInt8} (full : block.length = 64) :
    (swallow Standard.compress 64 h block).1 = Standard.compress h block := by
  have one : swallow Standard.compress 64 h (block ++ []) = _ := swallow_block (by decide) full
  have none : swallow Standard.compress 64 (Standard.compress h block) [] = (_, []) :=
    swallow_short (by decide)
  rw [List.append_nil, none] at one
  rw [one]

theorem Holds.finalize {t : Context} {message : List UInt8} (holds : t.Holds message) :
    t.finalize = Standard.hash message := by
  obtain ⟨state, rest, count⟩ := holds
  have index := filled count
  have below : message.length % 64 < 64 := Nat.mod_lt _ (by decide)
  have both : swallow Standard.compress 64 Standard.initial (Standard.pad message) =
      swallow Standard.compress 64 t.state (load t.block 0 (message.length % 64) ++
        (0x80 :: List.replicate ((119 - message.length % 64) % 64) 0 ++
          beBytes 8 (8 * message.length))) := by
    rw [state, rest, Standard.pad, List.append_assoc]
    exact swallow_append (by decide) _
  unfold Context.finalize Standard.hash
  dsimp only
  rw [index, both]
  generalize message.length % 64 = i at below ⊢
  have closed := load_close t below
  by_cases far : i + 1 > 0x38
  · -- the length does not fit into the block any more
    have zeros : List.replicate ((119 - i) % 64) (0 : UInt8) =
        List.replicate (63 - i) 0 ++ List.replicate 56 0 := by
      rw [List.replicate_append_replicate]
      congr 1
      omega
    have full : (load (t.close i).block 0 64).length = 64 := load_length _ _ _
    have split : load t.block 0 i ++ (0x80 :: List.replicate ((119 - i) % 64) 0 ++
        beBytes 8 (8 * message.length)) = load (t.close i).block 0 64 ++
          (List.replicate 56 0 ++ beBytes 8 (8 * message.length)) := by
      rw [closed, zeros]
      simp only [List.append_assoc, List.cons_append]
    have blank := load_take (store (t.close i).transform.block 0 (List.replicate 0x40 0)) 0
      (by decide : 56 ≤ 64)
    have whole := load_store (t.close i).transform.block 0 (List.replicate 0x40 0)
    rw [List.length_replicate] at whole
    rw [whole, List.take_replicate] at blank
    rw [if_pos far, putLength_state count, split, swallow_block (by decide) full, swallow_last, ← blank,
      transform_state]
    · simp only [leBytes_bsw]
      rfl
    · rw [List.length_append, List.length_replicate, beBytes_length]
  · have zeros : (119 - i) % 64 = 55 - i := by omega
    have front : load (t.close i).block 0 56 = load t.block 0 i ++ 0x80 :: List.replicate (55 - i) 0 := by
      rw [← load_take _ 0 (by decide : 56 ≤ 64), closed, List.take_append, load_length,
        List.take_of_length_le (by rw [load_length]; omega)]
      have one : 56 - i = (55 - i) + 1 := by omega
      have least : min (55 - i) (63 - i) = 55 - i := by omega
      rw [one, List.take_succ_cons, List.take_replicate, least]
    rw [if_neg far, putLength_state count, zeros, front, ← List.append_assoc, swallow_last]
    · simp only [leBytes_bsw]
      rfl
    · rw [← front, List.length_append, load_length, beBytes_length]

end Context

/-- Whatever pieces a message comes in, what is computed is its hash. -/
theorem finalize_updates (pieces : List (List UInt8)) :
    (pieces.foldl Context.update Context.init).finalize = Standard.hash pieces.flatten :=
  (Context.init_holds.updates pieces).finalize

theorem encode_eq (data : List UInt8) : encode data = Standard.hash data :=
  (Context.init_holds.update data).finalize

end Cyue.Sha1
