import Cyue.Net.Wbuf
import Cyue.Lib.Run

/-!
# Draining a write buffer

`write_command`, which hands the chunks of the `curr` buffer to the operating
system one after another and swaps the buffers when `curr` is empty, and runs
of sends and write ticks from `init` on.  What one call of the system accepts
is given from outside.
-/

namespace Cyue.Net

open Bytes Memory

inductive OsResult where
  | accepted (n : ℕ)
  | again
  | pipe
  | connReset
  deriving DecidableEq, Repr

inductive Handed where
  | bytes (bytes : List UInt8)
  /-- from the memory of the caller of `writev` -/
  | gathered (parts : List IoVec)
  | fromFile (inFd ofs n : ℕ)
  | datagram (addr bytes : List UInt8)
  deriving DecidableEq, Repr

/-- `handler::base::result` -/
inductive Tick where
  | keep
  | nop
  | writeAgain
  | destroy
  deriving DecidableEq, Repr

def Wcmd.ofCode (code : UInt8) : Option Wcmd :=
  [Wcmd.raw, .iovec, .file, .dgram].find? fun k => k.code = code

/-! ## One write call of each kind -/

/-- `raw::write` and `raw::sent` -/
def sendRaw (m : Mem) (off n : ℕ) : Handed × Mem :=
  let l := Wcmd.raw.layout
  let pos := l.getPos m off
  let taken := (load m (off + l.header + pos) (l.getSz m off - pos)).take n
  (.bytes taken, storeLe m (off + l.pos) l.width (pos + taken.length))

/-- `dgram::write` and `dgram::sent` -/
def sendDgram (m : Mem) (off n : ℕ) : Handed × Mem :=
  let l := Wcmd.dgram.layout
  let pos := l.getPos m off
  let taken := (load m (off + l.header + pos) (l.getSz m off - pos)).take n
  (.datagram (load m off 24) taken, storeLe m (off + l.pos) l.width (pos + taken.length))

def iovEntry (m : Mem) (off i : ℕ) : IoVec :=
  ⟨loadLe m (off + 16 + 16 * i) 8, loadLe m (off + 16 + 16 * i + 8) 8⟩

/-- The first `n` bytes that the entries describe. -/
def takeParts : List IoVec → ℕ → List IoVec
  | [], _ => []
  | v :: rest, n => ⟨v.base, min v.len n⟩ :: takeParts rest (n - v.len)

/-- The loop of `iov::sent` over the entries from `i` on; `pos` moves only to an
entry that was sent in part. -/
def iovSent (m : Mem) (off : ℕ) : ℕ → ℕ → ℕ → Mem
  | 0, _, _ => m
  | left + 1, i, wb =>
      let v := iovEntry m off i
      if v.len ≤ wb then iovSent m off left (i + 1) (wb - v.len)
      else
        let m := storeLe m (off + 16 + 16 * i) 8 (v.base + wb)
        let m := storeLe m (off + 16 + 16 * i + 8) 8 (v.len - wb)
        storeLe m (off + Wcmd.iovec.layout.pos) 8 i

/-- `iov::write` and `iov::sent` -/
def sendIov (m : Mem) (off n : ℕ) : Handed × Mem :=
  let l := Wcmd.iovec.layout
  let pos := l.getPos m off
  let left := l.getSz m off - pos
  let parts := (List.range left).map fun i => iovEntry m off (pos + i)
  let wb := min n (parts.map IoVec.len).sum
  (.gathered (takeParts parts wb), iovSent m off left pos wb)

/-- `file::write` and `file::sent`; `sendfile` advances the offset itself. -/
def sendFile (m : Mem) (off n : ℕ) : Handed × Mem :=
  let l := Wcmd.file.layout
  let pos := l.getPos m off
  let entry := off + l.header + l.unit * pos
  let inFd := loadLe m entry 4
  let ofs := loadLe m (entry + 8) 8
  let cnt := loadLe m (entry + 16) 8
  let wb := min n cnt
  let m := storeLe m (entry + 8) 8 (ofs + wb)
  (.fromFile inFd ofs wb,
    if wb < cnt then storeLe m (entry + 16) 8 (cnt - wb)
    else storeLe m (off + l.pos) l.width (pos + 1))

def sendChunk : Wcmd → Mem → ℕ → ℕ → Handed × Mem
  | .raw => sendRaw
  | .iovec => sendIov
  | .file => sendFile
  | .dgram => sendDgram
  | .num => fun m _ _ => (.bytes [], m)

def Layout.finish (l : Layout) (m : Mem) (off : ℕ) : Prop := l.getSz m off ≤ l.getPos m off

instance (l : Layout) (m : Mem) (off : ℕ) : Decidable (l.finish m off) :=
  inferInstanceAs (Decidable (_ ≤ _))

/-! ## A write tick -/

/-- The loop of `write_command` from the chunk at `now` on.  Each turn passes a
chunk, so that there are no more turns than bytes. -/
def drain : ℕ → List OsResult → Buf → ℕ → Buf × List Handed × Tick
  | 0, _, b, now => (b.shrink now, [], .keep)
  | turns + 1, os, b, now =>
      if now < b.len then
        match Wcmd.ofCode (b.mem now) with
        | none => (b, [], .destroy)
        | some k =>
            match os with
            | .accepted n :: os =>
                let (handed, mem) := sendChunk k b.mem (now + 1) n
                let b := { b with mem := mem }
                if k.layout.finish mem (now + 1) then
                  let (b, more, res) :=
                    drain turns os b (now + 1 + k.layout.chunkSize mem (now + 1))
                  (b, handed :: more, res)
                else (b.shrink now, [handed], .keep)
            | .pipe :: _ => (b, [], .nop)
            | .connReset :: _ => (b, [], .destroy)
            | .again :: _ | [] => (b, [], .writeAgain)
      else (b.shrink now, [], .keep)

def Wbuf.writeCommand (w : Wbuf) (os : List OsResult) : Wbuf × List Handed × Tick :=
  if w.curr.len = 0 then
    let w := { w with curr := w.next, next := w.curr, lastWcmd := .num }
    if w.curr.len = 0 then ({ w with attached := false }, [], .nop) else (w, [], .keep)
  else
    let (b, handed, res) := drain (w.curr.len + 1) os w.curr 0
    ({ w with curr := b }, handed, res)

/-! ## Runs -/

def initialWbufSize : ℕ := 16 * 1024

/-- `init`, with the contents of the two blocks. -/
def Wbuf.init (m₀ m₁ : Mem) : Wbuf where
  curr := ⟨0, m₀, 0, initialWbufSize, 0⟩
  next := ⟨1, m₁, 0, initialWbufSize, 0⟩
  lastWriter := ⟨0, 0⟩
  lastWcmd := .num
  attached := false
  blocks := 2
  fault := false
  asserted := true

/-- A send with the outcome of `sender.attach()`, or a write tick with the
answers to its write calls. -/
inductive Event where
  | send (r : Request) (attached : Bool)
  | tick (os : List OsResult)

/-- The state of a run: the write buffer, what the system has been handed, and
the requests of the sends that have reported success. -/
structure Sys where
  wbuf : Wbuf
  handed : List Handed
  sent : List Request

def Sys.step (heap : Wbuf.Heap) (s : Sys) : Event → Sys
  | .send r attached =>
      let (w, res) := s.wbuf.sendraw heap r attached
      { s with wbuf := w, sent := if 0 ≤ res then s.sent ++ [r] else s.sent }
  | .tick os =>
      let (w, handed, _) := s.wbuf.writeCommand os
      { s with wbuf := w, handed := s.handed ++ handed }

def Sys.start (m₀ m₁ : Mem) : Sys := ⟨Wbuf.init m₀ m₁, [], []⟩

def Sys.run (heap : Wbuf.Heap) (s : Sys) (events : List Event) : Sys :=
  events.foldl (Sys.step heap) s

end Cyue.Net
