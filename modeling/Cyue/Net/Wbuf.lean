import Cyue.Lib.Memory
import Cyue.Util.Pbuf

/-!
# Sending through a write buffer

`wbuf` with its two buffers as blocks of memory, the pointer to the chunk that
was written last and the writers that put chunks into the `next` buffer.  The
outcome of every allocation is given from outside, with the contents of the new
block; so is the outcome of the attachment to the poller.

A write behind the end of a block, or through a pointer into a block that the
buffer has left, is recorded in `fault` and lost.  `m_p` is never null, since
`init` reserves both buffers; sizes stay below 2^63, where allocations fail.
-/

namespace Cyue.Net

open Bytes Memory

/-! ## The buffers -/

/-- A `pbuf` with the whole of its block; `block` stands for `m_ptr`. -/
structure Buf where
  block : ℕ
  mem : Mem
  len : ℕ
  limit : ℕ
  ofs : ℕ

namespace Buf

/-- `available()`, a `size_t` difference. -/
def available (b : Buf) : ℕ :=
  if b.len ≤ b.limit then b.limit - b.len else 2 ^ 64 - (b.len - b.limit)

/-- `reserve`.  `fresh` names the block that an allocation returns and `got` is
its outcome, with the contents of the block. -/
def reserve (fresh : ℕ) (got : Option Mem) (b : Buf) (sz : ℕ) : Option Buf :=
  if sz ≤ b.available then some b
  else
    let need := sz + (b.len - b.ofs)
    let limit := Pbuf.growLimit need b.limit need
    match got with
    | none => none
    | some mem =>
        if limit < 2 ^ 63 then
          some { block := fresh, mem := store mem 0 (load b.mem b.ofs (b.len - b.ofs)),
                 len := b.len - b.ofs, limit := limit, ofs := 0 }
        else none

def write (b : Buf) (off : ℕ) (bytes : List UInt8) : Buf :=
  { b with mem := store b.mem off (bytes.take (b.limit - off)) }

def commit (b : Buf) (sz : ℕ) : Buf := { b with len := b.len + sz }

def rollback (b : Buf) (sz : ℕ) : Buf := { b with len := b.len - sz }

/-- `shrink_used_buffer_size` -/
def shrink (b : Buf) (sz : ℕ) : Buf :=
  if b.len ≤ sz then { b with len := 0 }
  else { b with mem := store b.mem 0 (load b.mem sz (b.len - sz)), len := b.len - sz }

end Buf

/-! ## Chunks -/

/-- The write commands; `num` as the last command means that there is no chunk
to append to. -/
inductive Wcmd where
  | raw
  | iovec
  | file
  | dgram
  | num
  deriving DecidableEq, Repr

def Wcmd.code : Wcmd → UInt8
  | .raw => 0
  | .iovec => 1
  | .file => 2
  | .dgram => 3
  | .num => 4

/-- Where a writer keeps what: the size of the writer itself, which the elements
of `unit` bytes follow, and the offsets of `sz` and `pos` with their width. -/
structure Layout where
  header : ℕ
  unit : ℕ
  sz : ℕ
  pos : ℕ
  width : ℕ

def Wcmd.layout : Wcmd → Layout
  | .raw => ⟨16, 1, 0, 8, 8⟩
  | .iovec => ⟨16, 16, 0, 8, 8⟩
  | .file => ⟨8, 24, 0, 4, 4⟩
  | .dgram => ⟨40, 1, 24, 32, 8⟩
  | .num => ⟨0, 0, 0, 0, 0⟩

namespace Layout

/-- The member `sz` of the writer at `off`. -/
def getSz (l : Layout) (m : Mem) (off : ℕ) : ℕ := loadLe m (off + l.sz) l.width

def getPos (l : Layout) (m : Mem) (off : ℕ) : ℕ := loadLe m (off + l.pos) l.width

def chunkSize (l : Layout) (m : Mem) (off : ℕ) : ℕ := l.header + l.unit * l.getSz m off

end Layout

/-! ## Requests -/

structure Address where
  image : List UInt8
  size : image.length = 24

/-- An entry of `struct iovec`: where the bytes are, and how many. -/
structure IoVec where
  base : ℕ
  len : ℕ
  deriving DecidableEq, Repr

/-- What a packer does with its buffer: it writes bytes where they fit with one
byte to spare, it asks for more room, or it asks for just the room that it then
fills (`yueb_write`, the writer of `lua_dump`). -/
inductive PackOp where
  | push (bytes : List UInt8)
  | expandBuffer (sz : ℕ)
  | fill (bytes : List UInt8)

/-- A run of a packer over an object, and whether it succeeds in the end. -/
structure Packing where
  ops : List PackOp
  ok : Bool

inductive Request where
  | raw (p : List UInt8)
  | iov (vec : List IoVec)
  | file (inFd ofs sz : ℕ)
  | dgram (p : List UInt8) (addr : Address)
  /-- `obj2<O, SR, raw>` -/
  | obj (packing : Packing)
  /-- `obj2<O, SR, dgram>` -/
  | objDgram (packing : Packing) (addr : Address)

namespace Request

def cmd : Request → Wcmd
  | .raw _ | .obj _ => .raw
  | .iov _ => .iovec
  | .file .. => .file
  | .dgram .. | .objDgram .. => .dgram

/-- Whether the writer is a `stream_command`; a `dgram_command` neither appends
nor takes part in `m_last_wcmd`. -/
def isStream (r : Request) : Bool := r.cmd ≠ .dgram

/-- The elements that a plain writer copies behind its header. -/
def image : Request → List UInt8
  | .raw p | .dgram p _ => p
  | .iov vec => vec.flatMap fun v => leBytes 8 v.base ++ leBytes 8 v.len
  | .file inFd ofs sz => leBytes 4 inFd ++ leBytes 4 0 ++ (leBytes 8 ofs ++ leBytes 8 sz)
  | .obj _ | .objDgram .. => []

def count : Request → ℕ
  | .raw p | .dgram p _ => p.length
  | .iov vec => vec.length
  | .file .. => 1
  | .obj _ | .objDgram .. => 0

def initialBuffSize : ℕ := 1024

def sizeofFileArg : ℕ := 24

def requiredSize (r : Request) (append : Bool) : ℕ :=
  match r with
  | .raw p => p.length + if append then 0 else 16
  | .iov vec => vec.length * 16 + if append then 0 else 16
  | .file .. => sizeofFileArg + if append then 0 else 8
  | .dgram p _ => p.length + if append then 0 else 40
  | .obj _ | .objDgram .. => initialBuffSize

def address? : Request → Option Address
  | .dgram _ addr | .objDgram _ addr => some addr
  | _ => none

def packing? : Request → Option Packing
  | .obj packing | .objDgram packing _ => some packing
  | _ => none

end Request

/-! ## The write buffer -/

structure Ptr where
  block : ℕ
  off : ℕ
  deriving DecidableEq, Repr

/-- `wbuf`.  `attached` is `m_flag`, `blocks` the number of allocations that were
asked for; `asserted` says that the assertion of `commit` has held so far. -/
structure Wbuf where
  curr : Buf
  next : Buf
  lastWriter : Ptr
  lastWcmd : Wcmd
  attached : Bool
  blocks : ℕ
  fault : Bool
  asserted : Bool

namespace Wbuf

abbrev Heap := ℕ → Option Mem

variable (heap : Heap)

/-- `reserve` on the `next` buffer. -/
def reserve (w : Wbuf) (sz : ℕ) : Option Wbuf :=
  (w.next.reserve w.blocks (heap w.blocks) sz).map fun b =>
    { w with next := b, blocks := w.blocks + 1 }

def put (w : Wbuf) (p : Ptr) (bytes : List UInt8) : Wbuf :=
  if p.block = w.next.block then
    { w with
      next := w.next.write p.off bytes
      fault := w.fault || decide (w.next.limit < p.off + bytes.length) }
  else { w with fault := true }

def commit (w : Wbuf) (sz : ℕ) : Wbuf :=
  { w with
    next := w.next.commit sz
    asserted := w.asserted && decide (w.next.len + sz ≤ w.next.limit) }

/-- `last_p()` of the `next` buffer. -/
def lastP (w : Wbuf) : Ptr := ⟨w.next.block, w.next.len⟩

/-- `push`, which does not commit. -/
def push (w : Wbuf) (byte : UInt8) : Wbuf :=
  let w := w.put w.lastP [byte]
  { w with next := w.next.commit 1 }

/-- A copy to `last_p()` and its commit. -/
def append (w : Wbuf) (bytes : List UInt8) : Wbuf := (w.put w.lastP bytes).commit bytes.length

/-! ## Packing -/

def packOp (w : Wbuf) : PackOp → Wbuf
  | .push bytes => if bytes.length < w.next.available then w.append bytes else w
  | .expandBuffer sz => (w.reserve heap sz).getD { w with blocks := w.blocks + 1 }
  | .fill bytes =>
      match w.reserve heap bytes.length with
      | some w => w.append bytes
      | none => { w with blocks := w.blocks + 1 }

/-- `packer.pack(object, pbuf)`: the length of what was packed as an `int`, or
`NBR_ESHORT`. -/
def pack (w : Wbuf) (p : Packing) : Wbuf × ℤ :=
  let after := p.ops.foldl (packOp heap) w
  (after, if p.ok then intOfSize (after.next.len - w.next.len : ℕ) else -21)

/-! ## The writers -/

/-- The members `sz` and `pos` and the address are set through the writer. -/
def setSz (w : Wbuf) (l : Layout) (p : Ptr) (n : ℕ) : Wbuf :=
  w.put ⟨p.block, p.off + l.sz⟩ (leBytes l.width n)

def setPos (w : Wbuf) (l : Layout) (p : Ptr) (n : ℕ) : Wbuf :=
  w.put ⟨p.block, p.off + l.pos⟩ (leBytes l.width n)

def setAddr (w : Wbuf) (p : Ptr) (addr : Option Address) : Wbuf :=
  match addr with
  | none => w
  | some addr => w.put p addr.image

/-- `operator ()` of `raw`, `iov`, `file` and `dgram`, which return an `int`. -/
def writePlain (w : Wbuf) (r : Request) (p : Ptr) (append : Bool) : Wbuf × ℤ :=
  let l := r.cmd.layout
  if append then
    let sz := l.getSz w.next.mem p.off
    let w := w.put ⟨p.block, p.off + l.header + l.unit * sz⟩ r.image
    ((w.setSz l p (sz + r.count)).commit r.image.length, intOfSize r.image.length)
  else
    let w := ((w.setPos l p 0).setSz l p r.count).setAddr p r.address?
    let w := w.put ⟨p.block, p.off + l.header⟩ r.image
    (w.commit (l.header + r.image.length), intOfSize (l.header + r.image.length : ℕ))

/-- `operator ()` of `obj2`. -/
def writeObj (w : Wbuf) (r : Request) (packing : Packing) (p : Ptr) (append : Bool) : Wbuf × ℤ :=
  let l := r.cmd.layout
  if append then
    let (w, res) := w.pack heap packing
    if res < 0 then (w, res) else (w.setSz l p (l.getSz w.next.mem p.off + res.toNat), res)
  else
    let w := ((w.setAddr p r.address?).commit l.header).setPos l p 0
    let (w, res) := w.pack heap packing
    if res < 0 then (w, res) else (w.setSz l p res.toNat, res)

def writeChunk (w : Wbuf) (r : Request) (p : Ptr) (append : Bool) : Wbuf × ℤ :=
  match r.packing? with
  | some packing => w.writeObj heap r packing p append
  | none => w.writePlain r p append

/-- `WRITER::append(*this)` -/
def appends (w : Wbuf) (r : Request) : Bool := r.isStream && decide (r.cmd = w.lastWcmd)

/-- Where the writer is put: the last one again, which moves with the block, or
behind a command byte at the end of the buffer. -/
def placeWriter (org : ℕ) (w : Wbuf) (r : Request) (append : Bool) : Wbuf :=
  if append then
    if org = w.next.block then w
    else if w.lastWriter.block = org then
      { w with lastWriter := ⟨w.next.block, w.lastWriter.off⟩ }
    else w
  else
    let w := w.push r.cmd.code
    { w with lastWriter := w.lastP }

/-- The end of `sendraw`: `write_attach`, with the outcome of `sender.attach()`
where it is called.  The size is a `size_t` here. -/
def attach (w : Wbuf) (attached : Bool) (s : ℤ) : Wbuf × ℤ :=
  if w.attached then (w, s)
  else if attached then ({ w with attached := true }, s)
  else ({ w with next := w.next.rollback (s % 2 ^ 64).toNat }, -24)

/-- `sendraw`.  The result of the writer goes to a `size_t` and is never found
to be negative. -/
def sendraw (w : Wbuf) (r : Request) (attached : Bool) : Wbuf × ℤ :=
  let append := w.appends r
  let org := w.next.block
  match w.reserve heap (r.requiredSize append) with
  | none => ({ w with blocks := w.blocks + 1 }, -1)
  | some w =>
      let w := w.placeWriter org r append
      let (w, s) := w.writeChunk heap r w.lastWriter append
      let w := if r.isStream then { w with lastWcmd := r.cmd } else w
      w.attach attached s

end Wbuf

end Cyue.Net
