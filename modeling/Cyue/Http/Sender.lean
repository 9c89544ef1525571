import Cyue.Http.Fsm
import Mathlib.Data.List.Basic

/-!
# The sender of HTTP messages

`send_request_common` and `send_result_and_body` write the head of a message and choose
how its body follows: as it is, behind `Content-Length`, or as chunks, which `send_body`
writes one in each tick.  The transport answers each `tcp_send` with the number of bytes
it took.  A local array is the list of its bytes up to the terminator; a function has no
result where it would read memory that holds no such byte.  `ms_sbufs` is of unlimited
size, and memory for a sender is at hand.
-/

namespace Cyue.Http.Sender

/-! ## Formatted text -/

def crlf : List UInt8 := [cr, lf]

/-- `%u` in base 10 and `%x` in base 16 -/
def digits (base n : ℕ) : List UInt8 := (Nat.toDigits base n).map fun c => UInt8.ofNat c.toNat

/-- `%03u` -/
def digits3 (n : ℕ) : List UInt8 :=
  List.replicate (3 - (digits 10 n).length) 48 ++ digits 10 n

/-- An array after `util::str::printf` with `size`; the function returns the length of the text. -/
def printed (size : ℕ) (text : List UInt8) : List UInt8 := text.take (size - 1) ++ [0]

def unsigned (n : ℤ) : ℕ := (n % 2 ^ 32).toNat

/-! ## Sending -/

def nbrSuccess : ℤ := 1

def nbrOk : ℤ := 0

def nbrEexpire : ℤ := -2

def nbrEformat : ℤ := -15

def nbrEshort : ℤ := -21

def noLimit : ℤ := -1

def chunkSize : ℤ := 1024

structure BufferSendable where
  buff : List UInt8
  max : ℕ
  curr : ℕ
  deriving DecidableEq, Repr

/-- A connection: what the transport took so far, and the sender that waits for its ticks. -/
structure Link where
  wire : List UInt8
  calls : ℕ
  closed : Bool
  sender : Option BufferSendable
  deriving DecidableEq, Repr

def Link.fresh : Link := ⟨[], 0, false, none⟩

/-- What `tcp_send` returns in its n-th call, for a length. -/
abbrev Transport := ℕ → ℕ → ℤ

abbrev Sending := StateT Link Option

/-- `sender::send`; the length is converted to `size_t`. -/
def send (t : Transport) (p : List UInt8) (l : ℤ) : Sending ℤ := fun link =>
  let n := (l % 2 ^ 64).toNat
  if p.length < n then none
  else
    let r := t link.calls n
    some (int32 r, { link with wire := link.wire ++ p.take r.toNat, calls := link.calls + 1 })

def sendLf (t : Transport) : Sending ℤ := send t crlf 2

namespace BufferSendable

/-- `buffer_sendable(p, l)` -/
def ofBody (p : List UInt8) : BufferSendable := ⟨p, p.length % 2 ^ 32, 0⟩

/-- `m_max - m_curr` as an `int` -/
def remaining (s : BufferSendable) : ℤ := int32 ((s.max : ℤ) - s.curr)

def willSend (s : BufferSendable) (limit : ℤ) : ℤ := if limit < 0 then s.remaining else limit

def send (t : Transport) (s : BufferSendable) (willsend : ℤ) : Sending (ℤ × BufferSendable) := do
  let nWrite := if willsend < s.remaining then willsend else s.remaining
  let r ← Sender.send t (s.buff.drop s.curr) nWrite
  if r < 0 then return (r, s)
  return (r, { s with curr := (s.curr + r.toNat) % 2 ^ 32 })

def finished (s : BufferSendable) : Bool := s.max ≤ s.curr

end BufferSendable

def entry (s : BufferSendable) : Sending ℤ := fun link =>
  some (s.willSend noLimit, { link with sender := some s })

/-! ## Requests -/

inductive ParsedUrl where
  | error (r : ℤ)
  /-- an array of the caller is not written, or written past its end -/
  | undefined
  | parsed (host : List UInt8) (port : ℕ) (path : List UInt8)
  deriving DecidableEq

/-- The path at `w` behind `done` bytes. -/
def parsePath (max done : ℕ) (host : List UInt8) (port : ℕ) (w : List UInt8) : ParsedUrl :=
  if 1024 ≤ w.length then .undefined
  else if max < done + w.length then .error nbrEformat
  else .parsed host port (if w.getLast? = some lf then w.dropLast else w)

/-- `parse_url`; host and path are arrays of 1024 bytes. -/
def parseUrl (max : ℕ) (url : List UInt8) : ParsedUrl :=
  match url with
  | [] => .error nbrEformat
  | c :: rest =>
      let host := c :: rest.takeWhile fun c => c ≠ 58 ∧ c ≠ 47
      if 1024 ≤ host.length then .undefined
      else match rest.dropWhile fun c => c ≠ 58 ∧ c ≠ 47 with
        | [] => .undefined
        | [58] => .undefined
        | 58 :: w =>
            let tok := w.takeWhile fun c => c ≠ 47
            let done := host.length + 1 + tok.length
            if max < host.length + 1 then .error nbrEformat
            else if 65536 ≤ tok.length then .undefined
            else match atoi tok 256 with
              | none => .error nbrEformat
              | some port =>
                  match w.dropWhile fun c => c ≠ 47 with
                  | [] => .undefined
                  | w =>
                      if max < done then .error nbrEformat
                      else parsePath max done host (port % 2 ^ 16).toNat w
        | w =>
            if max < host.length then .error nbrEformat
            else parsePath max host.length host 80 w

/-- The request line and the line with the host, without their ends. -/
def requestLines (method host : List UInt8) (port : ℕ) (path : List UInt8) :
    List UInt8 × List UInt8 :=
  if path = [] then (method ++ ascii " / HTTP/1.1", ascii "Host: " ++ host)
  else (method ++ ascii " " ++ path ++ ascii " HTTP/1.1",
    ascii "Host: " ++ host ++ ascii ":" ++ digits 10 port)

/-- A header line; the two texts are `hd[i]` and `hv[i]`. -/
def fieldLine (field : List UInt8 × List UInt8) : List UInt8 := field.1 ++ ascii ": " ++ field.2

def chunkedLine : List UInt8 := ascii "Transfer-Encoding: chunked"

def sendFields (t : Transport) : ℤ → List (List UInt8 × List UInt8) → Sending ℤ
  | len, [] => pure len
  | len, field :: rest => do
      let text := fieldLine field ++ crlf
      let r ← send t (printed 4095 text) text.length
      if r < 0 then return r
      sendFields t (len + r) rest

def sendHeader (t : Transport) (fields : List (List UInt8 × List UInt8)) (chunked : Bool) :
    Sending ℤ := do
  if chunked then
    let chunkHeader := chunkedLine ++ crlf
    let r ← send t chunkHeader chunkHeader.length
    if r < 0 then return r
  sendFields t 0 fields

/-- What follows the empty line behind the headers. -/
def sendRequestBody (t : Transport) (len : ℤ) (body : BufferSendable) (chunked : Bool) :
    Sending ℤ := do
  if chunked ∧ chunkSize < body.willSend noLimit then
    let r ← entry body
    return if 0 ≤ r then len else nbrEexpire
  let (r, _) ← body.send t chunkSize
  if r < 0 then return r
  let len := len + r
  let r ← send t (crlf ++ crlf) 4
  if r < 0 then return r
  return len + r

/-- `send_request_common`; GET sends no body. -/
def sendRequestCommon (t : Transport) (method url : List UInt8) (body : Option BufferSendable)
    (fields : List (List UInt8 × List UInt8)) (chunked : Bool) : Sending ℤ :=
  match parseUrl 1024 url with
  | .error r => pure r
  | .undefined => fun _ => none
  | .parsed host port path => do
      let lines := requestLines method host port path
      let data := lines.1 ++ crlf ++ (lines.2 ++ crlf)
      let len ← send t (printed 1024 data) data.length
      if len < 0 then return len
      let r ← sendHeader t fields chunked
      if r < 0 then return r
      let len := len + r
      let r ← sendLf t
      if r < 0 then return r
      let len := len + r
      match body with
      | none => return len
      | some body => sendRequestBody t len body chunked

/-! ## Responses -/

/-- The status line and the line with the type of the body, without their ends. -/
def resultLines (rc v : ℕ) (mime : List UInt8) : List UInt8 × List UInt8 :=
  (ascii "HTTP/" ++ digits 10 (v / 10) ++ ascii "." ++ digits 10 (v % 10) ++ ascii " " ++ digits3 rc,
    ascii "Content-Type: " ++ mime)

/-- Both lines with their ends, as they are printed one behind the other. -/
def resultHead (rc v : ℕ) (mime : List UInt8) : List UInt8 :=
  (resultLines rc v mime).1 ++ crlf ++ ((resultLines rc v mime).2 ++ crlf)

def lengthHeader (bl : ℤ) : List UInt8 :=
  ascii "Content-Length: " ++ digits 10 (unsigned bl) ++ crlf ++ crlf

/-- The end of `send_result_and_body` for a body that is sent as a whole. -/
def sendWhole (t : Transport) (tl : ℤ) (s : BufferSendable) : Sending ℤ := do
  let text := lengthHeader (s.willSend noLimit)
  let r ← send t (printed 1023 text) text.length
  if r < 0 then return r
  let tl := tl + r
  let (r, _) ← s.send t noLimit
  if r < 0 then return r
  modify fun link => { link with closed := true }
  return tl + r

/-- The end of `send_result_and_body` for a body that is sent as chunks. -/
def sendAsChunks (t : Transport) (tl : ℤ) (s : BufferSendable) : Sending ℤ := do
  let chunkHeader := chunkedLine ++ crlf ++ crlf
  let r ← send t chunkHeader chunkHeader.length
  if r < 0 then return r
  let tl := tl + r
  let r ← entry s
  if r < 0 then return r
  return int32 (tl + r)

def sendResultAndBody (t : Transport) (rc v : ℕ) (s : BufferSendable) (mime : List UInt8) :
    Sending ℤ := do
  let head := resultHead rc v mime
  let hl : ℤ := head.length
  if chunkSize < hl then return nbrEshort
  let r ← send t (printed 1024 head) hl
  if r < 0 then return r
  let bl := s.willSend noLimit
  let hl2 : ℤ := (lengthHeader bl).length
  if int32 (hl + hl2 + bl) ≤ chunkSize then sendWhole t r s
  else sendAsChunks t r s

/-! ## Ticks -/

/-- `n_limit` of `send_body` -/
def chunkLimit : ℤ := chunkSize - 10 - 2 - 5

/-- What `send_body` sends of a chunk behind its size. -/
def sendChunk (t : Transport) (s : BufferSendable) : Sending (ℤ × BufferSendable) := do
  let (r, s) ← s.send t chunkLimit
  if r < 0 then return (r, s)
  let r ← sendLf t
  if r < 0 then return (r, s)
  if s.finished then
    let r ← send t (ascii "0" ++ crlf ++ crlf) 5
    if r < 0 then return (r, s)
    return (nbrSuccess, s)
  return (nbrOk, s)

def sendBody (t : Transport) (s : BufferSendable) : Sending (ℤ × BufferSendable) := do
  if chunkLimit ≤ 0 then return (nbrEshort, s)
  let nSend := if chunkLimit < s.willSend noLimit then chunkLimit else s.willSend noLimit
  let text := digits 16 (unsigned nSend) ++ crlf
  let r ← send t (printed 15 text) text.length
  if r < 0 then return (r, s)
  if nSend ≤ 0 then
    let r ← sendLf t
    if r < 0 then return (r, s)
    return (nbrOk, s)
  sendChunk t s

/-- `sender_task_iterater` for the sender of a connection; a sender is freed unless `send_body`
returns `NBR_OK`. -/
def senderTask (t : Transport) : Sending Unit := fun link =>
  match link.sender with
  | none => some ((), link)
  | some s =>
      (sendBody t s link).map fun ((r, s), link) =>
        ((), { link with sender := if r = nbrOk then some s else none })

def ticks (t : Transport) : ℕ → Sending Unit
  | 0 => pure ()
  | n + 1 => do
      senderTask t
      ticks t n

end Cyue.Http.Sender
