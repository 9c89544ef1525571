import Mathlib.Algebra.Ring.Int.Defs
import Mathlib.Algebra.Ring.Nat
import Mathlib.Data.Int.Init
import Mathlib.Logic.Function.Basic
import Mathlib.Tactic.Common

/-!
# The receiver of HTTP messages

`fsm` puts each byte of a message into its buffer `m_p` and looks at the buffer with
the function of its state.  Pointers into the buffer are offsets; the buffer is the list
of its first `m_len` bytes, and the terminator behind them is read as 0.  The reads of a
string stop at a terminator, which the functions put in the place of each line end.
`ASSERT` does nothing, as in a build without `_DEBUG`.
-/

namespace Cyue.Http

def ascii (text : String) : List UInt8 :=
  text.toList.map fun c => UInt8.ofNat c.toNat

def cr : UInt8 := 13

def lf : UInt8 := 10

def tolower (c : UInt8) : UInt8 :=
  if 65 ≤ c ∧ c ≤ 90 then c + 32 else c

/-! ## Numbers -/

/-- The value of an `int` expression. -/
def int32 (n : ℤ) : ℤ := n.bmod (2 ^ 32)

def decDigit (c : UInt8) : Option ℕ :=
  if 48 ≤ c ∧ c ≤ 57 then some (c.toNat - 48) else none

def hexDigit (c : UInt8) : Option ℕ :=
  if 48 ≤ c ∧ c ≤ 57 then some (c.toNat - 48)
  else if 97 ≤ c ∧ c ≤ 102 then some (c.toNat - 97 + 10)
  else if 65 ≤ c ∧ c ≤ 70 then some (c.toNat - 65 + 10)
  else none

/-- The loop of `_atoi` and `htoi`: `pos` is `_s - str`, and `none` is an error. -/
def digitsFrom (base : ℕ) (digit : UInt8 → Option ℕ) (max : ℕ) : ℤ → ℕ → List UInt8 → Option ℤ
  | i, _, [] => some i
  | i, pos, c :: s =>
      if c = 0 then some i
      else match digit c with
        | none => none
        | some num =>
            if max ≤ pos + 1 then none
            else digitsFrom base digit max (int32 (i * base + num)) (pos + 1) s

/-- `_atoi` and `htoi`; the string begins the list. -/
def number (base : ℕ) (digit : UInt8 → Option ℕ) (str : List UInt8) (max : ℕ) : Option ℤ :=
  match str with
  | 45 :: s => (digitsFrom base digit max 0 1 s).map fun i => int32 (-1 * i)
  | s => digitsFrom base digit max 0 0 s

def atoi (str : List UInt8) (max : ℕ) : Option ℤ := number 10 decDigit str max

def htoi (str : List UInt8) (max : ℕ) : Option ℤ := number 16 hexDigit str max

/-! ## The state -/

inductive State where
  | invalid
  | recvHeader
  | recvBody
  | recvBodyNochunk
  | recvBodylen
  | recvFooter
  | recvComment
  | recvFinish
  | websocketEstablish
  | error
  deriving DecidableEq, Repr

/-- The states in which `append` takes no more bytes. -/
def State.Final : State → Bool
  | .error | .recvFinish => true
  | _ => false

def maxHeader : ℕ := 64

def hrcError : ℤ := -1

def hrcOk : ℤ := 200

structure Fsm where
  version : ℕ
  nHd : ℕ
  state : State
  res : ℤ
  hd : ℕ → ℕ
  bd : ℕ
  bl : ℕ
  hl : ℕ → ℕ
  max : ℕ
  buf : ℕ
  p : List UInt8

namespace Fsm

def len (f : Fsm) : ℕ := f.p.length

def byteAt (f : Fsm) (i : ℕ) : UInt8 := f.p.getD i 0

def stringAt (f : Fsm) (i : ℕ) : List UInt8 := f.p.drop i

def reset (f : Fsm) (chunkSize : ℕ) : Fsm :=
  { f with
    buf := 0
    p := []
    max := chunkSize
    version := 11
    nHd := 0
    state := .recvHeader }

/-- The bytes that `body()` and `bodylen()` give. -/
def body (f : Fsm) : List UInt8 := (f.p.drop f.bd).take f.bl

def bodylen (f : Fsm) : ℕ := f.bl

def push (f : Fsm) (c : UInt8) : Fsm := { f with p := f.p ++ [c] }

def goto (f : Fsm) (state : State) : Fsm := { f with state := state }

def terminate (f : Fsm) (n : ℕ) : Fsm :=
  { f with p := f.p.take (f.len - n) ++ List.replicate n 0 }

def truncate (f : Fsm) (n : ℕ) : Fsm := { f with p := f.p.take n }

/-! ## Header fields -/

inductive Match where
  | differs
  | tooLong
  | found (p : List UInt8)
  deriving DecidableEq

/-- The comparison of a key with a header of the length `hl`, at the character `i`. -/
def matchKey (hl : ℕ) : ℕ → List UInt8 → List UInt8 → Match
  | _, [], p => .found p
  | i, k :: key, p =>
      if tolower k = tolower (p.headD 0) then
        if hl < i then .tooLong else matchKey hl (i + 1) key p.tail
      else .differs

/-- The value behind a key, if it is shorter than `l`; in front of it are spaces and colons. -/
def value (l : ℕ) (p : List UInt8) : Option (List UInt8) :=
  let text := (p.dropWhile fun c => c = 32 || c = 58).takeWhile fun c => c ≠ 0
  if l ≤ text.length then none else some text

/-- The loop of `hdrstr` with the headers that are still to come. -/
def hdrstrIn (f : Fsm) (key : List UInt8) (l : ℕ) : List ℕ → Option (List UInt8)
  | [] => none
  | i :: rest =>
      match matchKey (f.hl i) 0 key (f.stringAt (f.hd i)) with
      | .differs => f.hdrstrIn key l rest
      | .tooLong => none
      | .found p => value l p

def hdrstr (f : Fsm) (key : List UInt8) (l : ℕ) : Option (List UInt8) :=
  f.hdrstrIn key l (List.range f.nHd)

/-- `hdrint`; `none` is a negative result. -/
def hdrint (f : Fsm) (key : List UInt8) : Option ℤ :=
  (f.hdrstr key 256).bind fun b => atoi b 256

/-- The first loop of `putrc`, with `w - s`, which leaves `w` at the result code. -/
def skipTo (hl : ℕ) : ℕ → List UInt8 → Option (ℕ × List UInt8)
  | pos, [] => some (pos, [])
  | pos, c :: w =>
      if c = 0 then some (pos, c :: w)
      else if w.headD 0 ≠ 32 then some (pos + 1, w)
      else if hl < pos + 1 then none
      else skipTo hl (pos + 1) w

/-- The second loop of `putrc`, with the token so far. -/
def tokenFrom (hl : ℕ) : ℕ → List UInt8 → List UInt8 → Option (List UInt8)
  | _, tok, [] => some tok
  | pos, tok, c :: w =>
      if c = 0 ∨ c = 32 then some tok
      else if hl < pos + 1 ∨ 256 ≤ tok.length + 1 then none
      else tokenFrom hl (pos + 1) (tok ++ [c]) w

/-- The result code in the first header behind the version. -/
def rcFrom (f : Fsm) (w : List UInt8) : ℤ :=
  match skipTo (f.hl 0) 8 w with
  | none => hrcError
  | some (pos, w) =>
      match tokenFrom (f.hl 0) pos [] w with
      | none => hrcError
      | some tok => (atoi tok 256).getD hrcError

/-- `m_ctx.res = putrc()`; the result is kept in 16 bits. -/
def putrc (f : Fsm) : Fsm :=
  let w := f.stringAt (f.hd 0 + 5)
  if w.take 3 = ascii "1.1" then
    { f with version := 11, res := (f.rcFrom (w.drop 3)).bmod (2 ^ 16) }
  else if w.take 3 = ascii "1.0" then
    { f with version := 10, res := (f.rcFrom (w.drop 3)).bmod (2 ^ 16) }
  else { f with res := hrcError }

/-! ## The functions of the states -/

def recvLf (f : Fsm) : ℕ :=
  if 2 < f.len ∧ f.byteAt (f.len - 2) = cr ∧ f.byteAt (f.len - 1) = lf then 2
  else if 1 < f.len ∧ f.byteAt (f.len - 1) = lf then 1
  else 0

def headerEnd (f : Fsm) : Fsm :=
  let f := f.putrc
  match f.hdrint (ascii "Content-Length") with
  | some cl => { f with bd := f.len, bl := (cl % 2 ^ 32).toNat, state := .recvBodyNochunk }
  | none =>
      if (f.hdrstr (ascii "Transfer-Encoding") 256).any fun tok => tok.take 7 = ascii "chunked" then
        { f with buf := f.len, bd := f.len, bl := 0, state := .recvBodylen }
      else if (f.hdrstr (ascii "Sec-WebSocket-Key") 256).isSome ∨
          (f.hdrstr (ascii "Sec-WebSocket-Accept") 256).isSome then
        { f with buf := f.len, bd := f.len, bl := 0, state := .websocketEstablish }
      else if f.res = hrcOk then f.goto .error
      else f.goto .recvFinish

/-- A line that ends with `nlf` bytes becomes the next header. -/
def addHeader (f : Fsm) (nlf : ℕ) : Fsm :=
  { f with
    hd := Function.update f.hd f.nHd f.buf
    hl := Function.update f.hl f.nHd ((f.len - f.buf - nlf) % 2 ^ 16)
    buf := f.len
    nHd := f.nHd + 1 }

def recvHeader (f : Fsm) : Fsm :=
  let nlf := f.recvLf
  if nlf = 0 then f.goto .recvHeader
  else
    let f := f.terminate nlf
    if f.len - nlf = f.buf then f.headerEnd
    else if f.nHd < maxHeader then (f.addHeader nlf).goto .recvHeader
    else f.goto .error

/-- `recv_body`; the difference of the two pointers is an `int`. -/
def recvBody (f : Fsm) : Fsm :=
  let nlf := f.recvLf
  if nlf = 0 then f.goto .recvBody
  else
    let nDiff := int32 ((f.bd + f.bl : ℕ) - (f.len - nlf : ℕ))
    if 0 < nDiff then f.goto .recvBody
    else if nDiff < 0 then f.goto .error
    else
      let f := f.truncate (f.len - nlf)
      { f with buf := f.len, state := .recvBodylen }

def recvWsFrame (f : Fsm) : Fsm :=
  { f with bl := (f.bl + 1) % 2 ^ 32, state := .websocketEstablish }

def recvBodyNochunk (f : Fsm) : Fsm :=
  let diff := int32 ((f.bd + f.bl : ℕ) - (f.len : ℕ))
  if 0 < diff then f.goto .recvBodyNochunk
  else if diff < 0 then f.goto .error
  else f.goto .recvFinish

/-- The size of a chunk stands in front of `nlf` bytes; `state` is where its data goes. -/
def chunkSize (f : Fsm) (nlf : ℕ) (state : State) : Fsm :=
  let f := f.terminate nlf
  match htoi (f.stringAt f.buf) (f.len - f.buf) with
  | none => f.goto .error
  | some cl =>
      if cl = 0 then { f with buf := f.len, state := .recvFooter }
      else { f with bl := ((f.bl + cl) % 2 ^ 32).toNat, p := f.p.take f.buf, state := state }

/-- `recv_bodylen`; the byte that is compared with a semicolon is the terminator. -/
def recvBodylen (f : Fsm) : Fsm :=
  let nlf := f.recvLf
  if nlf ≠ 0 then f.chunkSize nlf .recvBody
  else if f.byteAt f.len = 59 then f.chunkSize 1 .recvComment
  else f.goto .recvBodylen

def recvFooter (f : Fsm) : Fsm :=
  let nlf := f.recvLf
  if nlf = 0 then f.goto .recvFooter
  else
    let f := f.terminate nlf
    if f.len - nlf = f.buf then f.goto .recvFinish
    else if f.nHd < maxHeader then (f.addHeader nlf).goto .recvFooter
    else f.goto .error

def recvComment (f : Fsm) : Fsm :=
  if f.recvLf = 0 then f.goto .recvComment
  else (f.truncate f.buf).goto .recvBody

def recv (f : Fsm) : Fsm :=
  match f.state with
  | .recvHeader => f.recvHeader
  | .recvBody => f.recvBody
  | .recvBodyNochunk => f.recvBodyNochunk
  | .recvBodylen => f.recvBodylen
  | .recvFooter => f.recvFooter
  | .recvComment => f.recvComment
  | .websocketEstablish => f.recvWsFrame
  | .invalid | .recvFinish | .error => f

/-- The buffer holds one byte less than `m_max`. -/
def limit (f : Fsm) : ℕ := (f.max + 2 ^ 32 - 1) % 2 ^ 32

/-- One round of the loop of `append`. -/
def feed (f : Fsm) (c : UInt8) : Fsm :=
  if f.limit ≤ f.len then f.goto .error else (f.push c).recv

/-- The loop of `append` behind `w - b` bytes, with the memory from `w` on. -/
def appendFrom (bl : ℤ) : Fsm → ℕ → List UInt8 → Fsm
  | f, _, [] => f
  | f, done, c :: w =>
      if f.state.Final then f
      else if bl ≤ (done + 1 : ℕ) then f.feed c
      else appendFrom bl (f.feed c) (done + 1) w

/-- `append` of the first `bl` bytes at `b`. -/
def append (f : Fsm) (b : List UInt8) (bl : ℤ) : Fsm := appendFrom bl f 0 b

end Fsm

end Cyue.Http
