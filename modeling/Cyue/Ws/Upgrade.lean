import Cyue.Http.Sender
import Cyue.Util.Decode
import Cyue.Util.Sha1
import Cyue.Util.Str
import Cyue.Ws.Handover

/-!
# The upgrade of a connection

A client that is connected sends a request with a random key, and a server answers with a hash
of that key.  Each side reads the header block of the other in as many calls of `handshake` as it
takes, then checks its headers, and may already have bytes of frames behind the block in its
buffer.

Locals that are written before they are read are not part of the model; what lies behind the two
arrays that may be left is.
-/

namespace Cyue.Ws

open Http Http.Fsm Http.Sender Memory

namespace Upgrade

def readSize : ℕ := 512

inductive Result where
  | ok
  | again
  | send
  | system
  | right
  | invalid
  deriving DecidableEq, Repr

/-- The members of `ws_connection` that `handshake` uses; `host` is what `m_a.get` writes. -/
structure Peer where
  state : State
  sm : Fsm
  key : List UInt8
  host : List UInt8

/-- The bytes behind the table of `base64_decode_value`, and behind `work`. -/
structure Around where
  table : Int8
  work : List UInt8

/-- A call of `handshake`: whether the descriptor is readable and writable, what a read leaves in
`rbf` and returns, what a send returns, whether the error is one to try again after, and the random
numbers. -/
structure Call where
  r : Bool
  w : Bool
  rbf : List UInt8
  rsz : ℤ
  sent : ℤ
  errorAgain : Bool
  rand : List UInt8

def cstr (bytes : List UInt8) : List UInt8 := bytes.takeWhile fun c => c ≠ 0

/-! ## Keys -/

def salt : List UInt8 := ascii "258EAFA5-E914-47DA-95CA-C5AB0DC85B11"

/-- `generate_accept_key`, up to the terminator. -/
def generateAcceptKey (around : Around) (secKey : List UInt8) : List UInt8 :=
  let text := secKey ++ salt
  let work := printed 256 text ++ around.work
  cstr (Base64.encode (Sha1.encode (work.take text.length)))

def generateAcceptKeyFromValue (around : Around) (keyBuf : List UInt8) : List UInt8 :=
  generateAcceptKey around (cstr (Base64.encode keyBuf))

/-- `init_accept_key_from_header`: the accept key, and the key of the client. -/
def initAcceptKeyFromHeader (around : Around) (sm : Fsm) : Option (List UInt8 × List UInt8) :=
  (sm.hdrstr (ascii "Sec-Websocket-Key") 256).bind fun kbuf =>
    let (n, vbuf) := Base64.decode around.table kbuf fun _ => 0
    if n = 16 then some (generateAcceptKey around kbuf, load vbuf 0 16) else none

/-! ## Messages -/

/-- `send_handshake_request`, without a protocol. -/
def handshakeRequest (host key origin : List UInt8) : List UInt8 :=
  ascii "GET / HTTP/1.1" ++ crlf ++
    ascii "Host: " ++ host ++ crlf ++
    ascii "Upgrade: websocket" ++ crlf ++
    ascii "Connection: Upgrade" ++ crlf ++
    ascii "Sec-WebSocket-Key: " ++ key ++ crlf ++
    ascii "Origin: " ++ origin ++ crlf ++
    ascii "Sec-WebSocket-Version: 13" ++ crlf ++ crlf

def handshakeResponse (acceptKey : List UInt8) : List UInt8 :=
  ascii "HTTP/1.1 101 Switching Protocols" ++ crlf ++
    ascii "Upgrade: websocket" ++ crlf ++
    ascii "Connection: Upgrade" ++ crlf ++
    ascii "Sec-WebSocket-Accept: " ++ acceptKey ++ crlf ++ crlf

/-- A text is printed into an array of `CHUNK_SIZE` bytes and sent. -/
def Call.send (e : Call) (text : List UInt8) : ℤ × List UInt8 :=
  (e.sent, ((printed 1024 text).take text.length).take e.sent.toNat)

/-! ## Checks -/

/-- The loop of `cmp_nocase` behind `i` characters. -/
def cmpNocaseFrom (len : ℕ) : ℕ → List UInt8 → List UInt8 → ℤ
  | _, [], b => if b.headD 0 = 0 then 0 else -1
  | i, c :: a, b =>
      if c = 0 then if b.headD 0 = 0 then 0 else -1
      else if tolower c ≠ tolower (b.headD 0) then
        if (tolower (b.headD 0)).toInt8 < (tolower c).toInt8 then 1 else -1
      else if len < i + 1 then 0
      else cmpNocaseFrom len (i + 1) a b.tail

def cmpNocase (a b : List UInt8) (len : ℕ) : ℤ := cmpNocaseFrom len 0 a b

def Peer.verifyHandshake (around : Around) (c : Peer) : Bool :=
  (c.sm.hdrstr (ascii "Upgrade") 256).any (fun tok => cmpNocase tok (ascii "websocket") 256 = 0) &&
    (c.sm.hdrstr (ascii "Connection") 256).any (fun tok => cmpNocase tok (ascii "upgrade") 256 = 0) &&
    match c.state with
    | .clientHandshake2 =>
        c.sm.res = 101 && (c.sm.hdrstr (ascii "Sec-WebSocket-Accept") 256).any fun tok =>
          let calculated := generateAcceptKeyFromValue around c.key
          (Str.cmp (fun i => tok.getD i 0) (fun i => calculated.getD i 0) 1024).1 = 0
    | .serverHandshake =>
        (c.sm.hdrstr (ascii "Host") 256).isSome && (c.sm.hdrstr (ascii "Sec-WebSocket-Key") 256).isSome &&
          (c.sm.hdrint (ascii "Sec-WebSocket-version")).any fun v => v = 13
    | _ => false

/-! ## The handshake -/

/-- `connect` and `accept`, up to the state. -/
def Peer.reset (sm : Fsm) (host : List UInt8) (state : State) : Peer :=
  ⟨state, sm.reset readSize, [], host⟩

/-- What `handshake` does when the header block is complete. -/
def Peer.establish (around : Around) (c : Peer) (e : Call) : Peer × Result × List UInt8 :=
  if ¬ c.verifyHandshake around then (c, .right, [])
  else if c.state = .serverHandshake then
    match initAcceptKeyFromHeader around c.sm with
    | none => (c, if e.errorAgain then .send else .system, [])
    | some (acceptKey, key) =>
        let c := { c with key }
        let (r, out) := e.send (handshakeResponse acceptKey)
        if r < 0 then (c, if e.errorAgain then .send else .system, out)
        else ({ c with state := .established }, .ok, out)
  else ({ c with state := .established }, .ok, [])

def Peer.handshake (around : Around) (c : Peer) (e : Call) : Peer × Result × List UInt8 :=
  match c.state with
  | .clientHandshake =>
      if ¬ e.w then (c, .send, [])
      else
        let c := { c with key := e.rand }
        let (r, out) := e.send (handshakeRequest c.host (cstr (Base64.encode c.key))
          (cstr (printed 256 (ascii "http://" ++ c.host))))
        if r < 0 then (c, if e.errorAgain then .send else .system, out)
        else ({ c with state := .clientHandshake2 }, .again, out)
  | .clientHandshake2 | .serverHandshake =>
      if ¬ e.r then (c, .again, [])
      else if e.rsz < 0 then (c, if e.errorAgain then .again else .system, [])
      else
        let c := { c with sm := c.sm.append e.rbf e.rsz }
        match c.sm.state with
        | .recvHeader => (c, .again, [])
        | .websocketEstablish => c.establish around e
        | _ => (c, .invalid, [])
  | _ => (c, .invalid, [])

/-- `handshake` is called until it is done; the calls that are left are given back. -/
def Peer.shake (around : Around) (c : Peer) : List Call → Peer × Result × List UInt8 × List Call
  | [] => (c, .again, [], [])
  | e :: es =>
      let (c, result, out) := c.handshake around e
      if result = .again then
        let (c, result, more, es) := c.shake around es
        (c, result, out ++ more, es)
      else (c, result, out, es)

/-! ## Blocks that come in pieces -/

structure Call.Reads (e : Call) : Prop where
  r : e.r = true
  some : 0 < e.rsz
  whole : e.rsz ≤ e.rbf.length

def Call.bytes (e : Call) : List UInt8 := e.rbf.take e.rsz.toNat

theorem Call.Reads.taken {e : Call} (reads : e.Reads) : Fsm.taken (e.rbf, e.rsz) = e.bytes := by
  have amount : (if e.rsz ≤ 1 then 1 else e.rsz.toNat) = e.rsz.toNat := by
    have := reads.some
    split <;> omega
  unfold Fsm.taken Call.bytes
  dsimp only
  rw [amount]

variable {f : Fsm} {head trailing : List UInt8}

/-- Bytes of a header block: the block goes on, or another message has been read, or frames are. -/
theorem header_run (state : f.state = .recvHeader) {bytes : List UInt8} (room : Room f bytes.length) :
    Past (f.acceptAll bytes) ∨ (f.acceptAll bytes).len = f.len + bytes.length ∧
      (f.acceptAll bytes).max = f.max ∧
      ((f.acceptAll bytes).state = .recvHeader ∨ ∃ t, Waits (f.acceptAll bytes) t) := by
  induction bytes using List.reverseRec with
  | nil => exact .inr ⟨rfl, rfl, .inl state⟩
  | append_singleton bytes c ih =>
      rw [List.length_append] at room ⊢
      rw [acceptAll_append]
      rcases ih (room.less (Nat.le_add_right _ _)) with past | ⟨length, max, header | ⟨t, waits⟩⟩
      · exact .inl (past.acceptAll [c])
      · have room' : Room (f.acceptAll bytes) 1 := room.after length max le_rfl
        obtain ⟨length', max', next⟩ := accept_header header room' c
        have total : ((f.acceptAll bytes).acceptAll [c]).len = f.len + (bytes.length + 1) := by
          rw [← Nat.add_assoc, ← length]
          exact length'
        rcases next with header | past | ⟨done, bd, bl⟩
        · exact .inr ⟨total, max'.trans max, .inl header⟩
        · exact .inl past
        · have none : ((f.acceptAll bytes).accept c).p.drop ((f.acceptAll bytes).accept c).bd = [] :=
            List.drop_eq_nil_of_le (length'.trans bd.symm).le
          exact .inr ⟨total, max'.trans max, .inr ⟨[], ⟨done, (bd.trans length'.symm).le, none, bl⟩⟩⟩
      · have room' : Room (f.acceptAll bytes) 1 := room.after length max le_rfl
        obtain ⟨waits', length', max'⟩ := waits.accept room' c
        refine .inr ⟨?_, max'.trans max, .inr ⟨_, waits'⟩⟩
        rw [← Nat.add_assoc, ← length]
        exact length'

/-- Within the block of a handshake the receiver is at its headers. -/
theorem handshake_inside (state : f.state = .recvHeader) {before after : List UInt8}
    (room : Room f (before ++ after).length) (some : after ≠ []) (shake : Handshake f (before ++ after)) :
    (f.acceptAll before).state = .recvHeader ∧ (f.acceptAll before).len = f.len + before.length ∧
      (f.acceptAll before).max = f.max := by
  obtain ⟨early, c, whole, quiet, ends⟩ := shake
  rw [List.length_append] at room
  obtain ⟨middle, last, rfl⟩ := (List.eq_nil_or_concat' after).resolve_left some
  rw [← List.append_assoc] at whole ends
  obtain ⟨same, -⟩ := List.append_inj' whole rfl
  rcases header_run state (room.less (Nat.le_add_right _ _)) with past | ⟨length, max, header | ⟨t, waits⟩⟩
  · rw [List.append_assoc, acceptAll_append] at ends
    exact absurd ends (past.acceptAll _).2
  · exact ⟨header, length, max⟩
  · have room' : Room (f.acceptAll before) middle.length := by
      rw [List.length_append] at room
      exact room.after length max (by omega)
    rw [← same, acceptAll_append] at quiet
    exact absurd (waits.acceptAll room').state quiet

theorem establish_not_again (around : Around) (c : Peer) (e : Call) :
    (c.establish around e).2.1 ≠ .again := by
  unfold Peer.establish
  repeat' split
  all_goals nofun

/-- A header block comes in any pieces: the calls before the last are repeated, and the bytes behind
the block that the last one has read stay with it. -/
theorem shake_reads (around : Around) {calls : List Call} {c : Peer}
    (waiting : c.state = .clientHandshake2 ∨ c.state = .serverHandshake)
    (header : c.sm.state = .recvHeader) (room : Room c.sm (head ++ trailing).length)
    (shake : Handshake c.sm head) (reads : ∀ e ∈ calls, e.Reads)
    (bytes : calls.flatMap Call.bytes = head ++ trailing) :
    ∃ e ∈ calls, ∃ t rest, trailing = t ++ rest.flatMap Call.bytes ∧
      c.shake around calls =
        let (c', result, out) := ({ c with sm := c.sm.acceptAll (head ++ t) } : Peer).establish around e
        (c', result, out, rest) := by
  induction calls generalizing c head with
  | nil =>
      obtain ⟨before, d, rfl, -⟩ := shake
      simp at bytes
  | cons e calls ih =>
      have here := reads e List.mem_cons_self
      have fed : c.sm.append e.rbf e.rsz = c.sm.acceptAll e.bytes := by
        rw [← here.taken]
        exact append_taken c.sm (e.rbf, e.rsz)
      have called : c.handshake around e =
          match (c.sm.acceptAll e.bytes).state with
          | .recvHeader => ({ c with sm := c.sm.acceptAll e.bytes }, .again, [])
          | .websocketEstablish =>
              ({ c with sm := c.sm.acceptAll e.bytes } : Peer).establish around e
          | _ => ({ c with sm := c.sm.acceptAll e.bytes }, .invalid, []) := by
        have some : ¬ e.rsz < 0 := not_lt.mpr here.some.le
        unfold Peer.handshake
        rcases waiting with client | server
        · rw [client]
          simp only [here.r, not_true_eq_false, if_false, some, fed]
        · rw [server]
          simp only [here.r, not_true_eq_false, if_false, some, fed]
      rw [List.flatMap_cons] at bytes
      have cut : (∃ more, head = e.bytes ++ more ∧ more ≠ [] ∧ calls.flatMap Call.bytes = more ++ trailing) ∨
          ∃ t, e.bytes = head ++ t ∧ trailing = t ++ calls.flatMap Call.bytes := by
        rcases List.append_eq_append_iff.mp bytes with ⟨more, front, rest⟩ | ⟨t, front, rest⟩
        · by_cases none : more = []
          · subst none
            rw [List.append_nil] at front
            exact .inr ⟨[], by rw [List.append_nil]; exact front.symm, by rw [rest, List.nil_append, List.nil_append]⟩
          · exact .inl ⟨more, front, none, rest⟩
        · exact .inr ⟨t, front, rest⟩
      rcases cut with ⟨more, rfl, some, rest⟩ | ⟨t, whole, rest⟩
      · -- the block goes on
        have inside : Room c.sm (e.bytes ++ more).length := by
          rw [List.length_append] at room
          exact room.less (Nat.le_add_right _ _)
        obtain ⟨header', length, max⟩ := handshake_inside header inside some shake
        rw [header'] at called
        have room' : Room (c.sm.acceptAll e.bytes) (more ++ trailing).length := by
          rw [List.append_assoc, List.length_append] at room
          exact room.after length max le_rfl
        have shake' : Handshake (c.sm.acceptAll e.bytes) more := by
          obtain ⟨early, d, same, quiet, ends⟩ := shake
          obtain ⟨middle, last, rfl⟩ := (List.eq_nil_or_concat' more).resolve_left some
          rw [← List.append_assoc] at same ends
          obtain ⟨front, -⟩ := List.append_inj' same rfl
          refine ⟨middle, last, rfl, ?_, ?_⟩
          · rw [← acceptAll_append, front]
            exact quiet
          · rw [← acceptAll_append, ← List.append_assoc]
            exact ends
        obtain ⟨e', member, t, rest', behind, ends⟩ := ih (c := { c with sm := c.sm.acceptAll e.bytes })
          waiting header' room' shake' (fun e member => reads e (List.mem_cons_of_mem _ member)) rest
        refine ⟨e', List.mem_cons_of_mem _ member, t, rest', behind, ?_⟩
        rw [Peer.shake, called]
        dsimp only at ends ⊢
        rw [if_pos rfl, ends, List.append_assoc, acceptAll_append c.sm e.bytes]
        rfl
      · refine ⟨e, List.mem_cons_self, t, calls, rest, ?_⟩
        have within : Room c.sm (head ++ t).length := by
          rw [rest, ← List.append_assoc, List.length_append] at room
          exact room.less (Nat.le_add_right _ _)
        have ends := (shake.waits header within).state
        rw [whole] at called
        rw [ends] at called
        rw [Peer.shake, called]
        dsimp only
        rw [if_neg (establish_not_again around _ e)]

/-! ## What the checks see -/

/-- The value that a receiver with the lines finds for a key, in 256 bytes. -/
def lookup (lines : List Line) (key : List UInt8) : Option (List UInt8) :=
  ((firstNamed lines key).map (Line.behind key)).filter fun value => value.length < 256

/-- Frames that come behind the block leave its headers. -/
theorem holds_waiting {lines : List Line} {t more : List UInt8} (holds : Holds f lines) (waits : Waits f t)
    (room : Room f more.length) : Holds (f.acceptAll more) lines ∧ (f.acceptAll more).res = f.res := by
  induction more generalizing f t with
  | nil => exact ⟨holds, rfl⟩
  | cons c more ih =>
      rw [List.length_cons] at room
      obtain ⟨waits', length, max⟩ := waits.accept (room.less (Nat.le_add_left 1 _)) c
      have going : ¬ f.state.Final := by
        rw [waits.state]
        decide
      have state : (f.push c).state = .websocketEstablish := waits.state
      have run : f.accept c = (f.push c).recvWsFrame := by
        rw [accept_eq going (room.less (Nat.le_add_left 1 _)), Fsm.recv, state]
      have holds' : Holds (f.accept c) lines := by
        rw [run]
        have pushed := holds.pushAll [c]
        exact ⟨pushed.count, pushed.texts⟩
      obtain ⟨kept, res⟩ := ih holds' waits' (room.after length max (Nat.add_comm 1 _).le)
      refine ⟨kept, res.trans ?_⟩
      rw [run]
      rfl

/-- A header block without a length or a transfer coding, behind which a side waits for frames. -/
structure Block (lines : List Line) (crlf : Bool) (trailing : List UInt8) : Prop where
  few : lines.length ≤ maxHeader
  some : lines ≠ []
  fits : (lines.flatMap Line.bytes ++ ending crlf ++ trailing).length < readSize
  length : firstNamed lines (ascii "Content-Length") = none
  coding : firstNamed lines (ascii "Transfer-Encoding") = none
  key : (lookup lines (ascii "Sec-WebSocket-Key")).isSome ∨
    (lookup lines (ascii "Sec-WebSocket-Accept")).isSome

variable {lines : List Line} {crlf : Bool}

theorem Block.room (block : Block lines crlf trailing) (f : Fsm) :
    Room (f.reset readSize) (lines.flatMap Line.bytes ++ ending crlf ++ trailing).length :=
  room_reset f block.fits (by decide)

theorem Holds.lookup {g : Fsm} (holds : Holds g lines) {key : List UInt8} (plain : (0 : UInt8) ∉ key) :
    g.hdrstr key 256 = Upgrade.lookup lines key := (holds.hdrstr_eq plain (by decide)).1

theorem Block.heads (block : Block lines crlf trailing) (f : Fsm) :
    Heads ((f.reset readSize).acceptAll (lines.flatMap Line.bytes)) lines ∧
      Room ((f.reset readSize).acceptAll (lines.flatMap Line.bytes)) (ending crlf).length := by
  have room := block.room f
  rw [List.length_append, List.length_append, Nat.add_assoc] at room
  have short : ∀ l ∈ lines, l.text.length < 2 ^ 16 := by
    intro l mem
    have fits := block.fits
    have length : l.bytes.length ≤ (lines.flatMap Line.bytes).length := length_le_flatMap mem
    have bound : readSize = 512 := rfl
    rw [Line.bytes, List.length_append] at length
    rw [List.length_append, List.length_append] at fits
    omega
  obtain ⟨heads, room, -⟩ := (heads_reset f readSize).lines block.few room short
  rw [List.nil_append] at heads
  exact ⟨heads, room.less (Nat.le_add_right _ _)⟩

theorem Block.ended (block : Block lines crlf trailing) (f : Fsm) :
    (f.reset readSize).acceptAll (lines.flatMap Line.bytes ++ ending crlf) =
      (((f.reset readSize).acceptAll (lines.flatMap Line.bytes)).pushAll (gap crlf)).headerEnd := by
  obtain ⟨heads, room⟩ := block.heads f
  rw [acceptAll_append, heads.empty (heads.holds.p_ne_nil block.some) room]

/-- The block is a handshake, and its lines stay. -/
theorem Block.received (block : Block lines crlf trailing) (f : Fsm) :
    Handshake (f.reset readSize) (lines.flatMap Line.bytes ++ ending crlf) ∧
      Holds ((f.reset readSize).acceptAll (lines.flatMap Line.bytes ++ ending crlf)) lines := by
  obtain ⟨heads, room⟩ := block.heads f
  have ends := block.ended f
  have holds := heads.holds.pushAll (gap crlf)
  refine ⟨?_, ends ▸ holds.kept⟩
  have last : (ending crlf).dropLast ++ [lf] = ending crlf := by cases crlf <;> rfl
  refine ⟨lines.flatMap Line.bytes ++ (ending crlf).dropLast, lf, ?_, ?_, ?_⟩
  · rw [List.append_assoc, last]
  · have less : (ending crlf).dropLast.length ≤ (ending crlf).length := by
      rw [List.length_dropLast]
      exact Nat.sub_le _ _
    have quiet : lf ∉ (ending crlf).dropLast := by cases crlf <;> decide
    rw [acceptAll_append, acceptAll_quiet (.inl heads.state) (room.less less) quiet]
    change ((f.reset readSize).acceptAll (lines.flatMap Line.bytes)).state ≠ _
    rw [heads.state]
    decide
  · rw [ends]
    generalize ((f.reset readSize).acceptAll (lines.flatMap Line.bytes)).pushAll (gap crlf) = g at holds
    obtain ⟨version, res, same⟩ := g.putrc_eq
    have holds : Holds g.putrc lines := by
      rw [same]
      exact ⟨holds.count, holds.texts⟩
    have noLength : g.putrc.hdrint (ascii "Content-Length") = none := by
      rw [hdrint, Holds.lookup holds (by decide), lookup, block.length]
      rfl
    have noCoding : g.putrc.hdrstr (ascii "Transfer-Encoding") 256 = none := by
      rw [Holds.lookup holds (by decide), lookup, block.coding]
      rfl
    have found : (g.putrc.hdrstr (ascii "Sec-WebSocket-Key") 256).isSome ∨
        (g.putrc.hdrstr (ascii "Sec-WebSocket-Accept") 256).isSome := by
      rw [Holds.lookup holds (by decide), Holds.lookup holds (by decide)]
      exact block.key
    unfold Fsm.headerEnd
    dsimp only
    rw [noLength, noCoding]
    exact congrArg Fsm.state (if_pos found)

/-- In whatever pieces the block comes, the checks see its lines. -/
theorem Block.shake (block : Block lines crlf trailing) (around : Around) (f : Fsm) {c : Peer}
    (waiting : c.state = .clientHandshake2 ∨ c.state = .serverHandshake) (sm : c.sm = f.reset readSize)
    {calls : List Call} (reads : ∀ e ∈ calls, e.Reads)
    (bytes : calls.flatMap Call.bytes = lines.flatMap Line.bytes ++ ending crlf ++ trailing) :
    ∃ e ∈ calls, ∃ g t rest, trailing = t ++ rest.flatMap Call.bytes ∧ Waits g t ∧ Holds g lines ∧
      g.res = ((f.reset readSize).acceptAll (lines.flatMap Line.bytes ++ ending crlf)).res ∧
      c.shake around calls =
        let (c', result, out) := ({ c with sm := g } : Peer).establish around e
        (c', result, out, rest) := by
  obtain ⟨shake, holds⟩ := block.received f
  have room := block.room f
  rw [← sm] at shake holds room
  have header : c.sm.state = .recvHeader := by rw [sm]; rfl
  obtain ⟨e, member, t, rest, behind, ends⟩ :=
    shake_reads around waiting header room shake reads bytes
  rw [behind, ← List.append_assoc, List.length_append] at room
  have within := room.less (Nat.le_add_right _ _)
  refine ⟨e, member, _, t, rest, behind, shake.waits header within, ?_⟩
  have head := within
  rw [List.length_append] at head
  have none : Waits (c.sm.acceptAll (lines.flatMap Line.bytes ++ ending crlf)) [] := by
    have alone : Waits (c.sm.acceptAll (lines.flatMap Line.bytes ++ ending crlf ++ [])) [] :=
      shake.waits header (by rw [List.append_nil]; exact head.less (Nat.le_add_right _ _))
    rwa [List.append_nil] at alone
  have later : Room (c.sm.acceptAll (lines.flatMap Line.bytes ++ ending crlf)) t.length := by
    rcases header_run header (head.less (Nat.le_add_right _ _)) with past | ⟨length, max, -⟩
    · exact absurd none.state past.2
    · exact head.after length max le_rfl
  obtain ⟨kept, res⟩ := holds_waiting holds none later
  rw [← acceptAll_append] at kept res
  exact ⟨kept, res.trans (by rw [sm]), ends⟩

/-! ## The checks -/

theorem tolower_ne_zero {c : UInt8} (some : c ≠ 0) : tolower c ≠ 0 := by
  unfold tolower
  split
  case isTrue upper =>
      obtain ⟨-, above⟩ := upper
      intro zero
      have sum := congrArg UInt8.toNat zero
      rw [UInt8.toNat_add] at sum
      have bound : c.toNat ≤ 90 := above
      change (c.toNat + 32) % 256 = 0 at sum
      omega
  case isFalse => exact some

/-- Within its bound the comparison is exact but for the case of letters. -/
theorem cmpNocaseFrom_eq {len i : ℕ} {a b : List UInt8} (plain : (0 : UInt8) ∉ a) (plain' : (0 : UInt8) ∉ b)
    (short : i + a.length ≤ len) : cmpNocaseFrom len i a b = 0 ↔ a.map tolower = b.map tolower := by
  induction a generalizing b i with
  | nil =>
      cases b with
      | nil => exact ⟨fun _ => rfl, fun _ => rfl⟩
      | cons d b =>
          have some : d ≠ 0 := fun zero => plain' (zero ▸ List.mem_cons_self)
          rw [cmpNocaseFrom, List.headD_cons, if_neg some]
          exact ⟨nofun, nofun⟩
  | cons c a ih =>
      have some : c ≠ 0 := fun zero => plain (zero ▸ List.mem_cons_self)
      have rest : (0 : UInt8) ∉ a := fun member => plain (List.mem_cons_of_mem _ member)
      rw [List.length_cons] at short
      rw [cmpNocaseFrom, if_neg some]
      cases b with
      | nil =>
          have differs : tolower c ≠ tolower 0 := tolower_ne_zero some
          rw [List.headD_nil, if_pos differs]
          constructor
          · intro zero
            split at zero <;> cases zero
          · nofun
      | cons d b =>
          have rest' : (0 : UInt8) ∉ b := fun member => plain' (List.mem_cons_of_mem _ member)
          rw [List.headD_cons, List.tail_cons, List.map_cons, List.map_cons, List.cons.injEq]
          by_cases same : tolower c = tolower d
          · rw [if_neg (not_not.mpr same), if_neg (by omega), ih rest rest' (by omega)]
            exact (and_iff_right same).symm
          · rw [if_pos same]
            constructor
            · intro zero
              split at zero <;> cases zero
            · exact fun both => absurd both.1 same

theorem lookup_plain {key value : List UInt8} (found : lookup lines key = some value) :
    (0 : UInt8) ∉ value ∧ value.length < 256 := by
  obtain ⟨there, short⟩ := Option.filter_eq_some_iff.mp found
  obtain ⟨line, -, rfl⟩ := Option.map_eq_some_iff.mp there
  refine ⟨fun member => ?_, of_decide_eq_true short⟩
  have kept := List.mem_takeWhile_imp member
  exact of_decide_eq_true kept rfl

theorem cstr_plain (bytes : List UInt8) : (0 : UInt8) ∉ cstr bytes := by
  intro member
  have kept := List.mem_takeWhile_imp member
  exact of_decide_eq_true kept rfl

theorem cmpNocase_any {key word : List UInt8} (plain : (0 : UInt8) ∉ word) :
    ((lookup lines key).any fun tok => cmpNocase tok word 256 = 0) = true ↔
      ∃ value, lookup lines key = some value ∧ value.map tolower = word.map tolower := by
  rw [Option.any_eq_true]
  refine exists_congr fun value => and_congr_right fun found => ?_
  obtain ⟨zero, short⟩ := lookup_plain found
  rw [decide_eq_true_eq]
  exact cmpNocaseFrom_eq zero plain (by omega)

/-- A key is looked up in any case of its letters. -/
theorem lookup_case {key key' : List UInt8} (same : key.map tolower = key'.map tolower) :
    lookup lines key = lookup lines key' := by
  have length := congrArg List.length same
  rw [List.length_map, List.length_map] at length
  have named : ∀ text, Named key text ↔ Named key' text := by
    intro text
    unfold Named
    rw [same, length]
  have behind : Line.behind key = Line.behind key' := by
    funext l
    unfold Line.behind
    rw [length]
  unfold lookup firstNamed
  simp only [named, behind]

structure Upgrades (lines : List Line) : Prop where
  upgrade : ∃ value, lookup lines (ascii "Upgrade") = some value ∧ value.map tolower = ascii "websocket"
  connection : ∃ value, lookup lines (ascii "Connection") = some value ∧ value.map tolower = ascii "upgrade"

structure Serves (around : Around) (lines : List Line) (secKey : List UInt8) : Prop where
  upgrades : Upgrades lines
  host : (lookup lines (ascii "Host")).isSome
  key : lookup lines (ascii "Sec-WebSocket-Key") = some secKey
  sixteen : (Base64.decode around.table secKey fun _ => 0).1 = 16
  version : ∃ value, lookup lines (ascii "Sec-WebSocket-Version") = some value ∧ atoi value 256 = some 13

structure Answers (around : Around) (lines : List Line) (key : List UInt8) : Prop where
  upgrades : Upgrades lines
  accept : lookup lines (ascii "Sec-WebSocket-Accept") = some (generateAcceptKeyFromValue around key)

theorem upgrades_iff : (((lookup lines (ascii "Upgrade")).any
      fun tok => cmpNocase tok (ascii "websocket") 256 = 0) &&
    (lookup lines (ascii "Connection")).any fun tok => cmpNocase tok (ascii "upgrade") 256 = 0) = true ↔
      Upgrades lines := by
  have word : (ascii "websocket").map tolower = ascii "websocket" := by decide
  have word' : (ascii "upgrade").map tolower = ascii "upgrade" := by decide
  rw [Bool.and_eq_true, cmpNocase_any (by decide), cmpNocase_any (by decide), word, word']
  exact ⟨fun both => ⟨both.1, both.2⟩, fun both => ⟨both.upgrade, both.connection⟩⟩

/-- What `verify_handshake` of a server checks. -/
theorem verify_server {around : Around} {c : Peer} (server : c.state = .serverHandshake)
    (holds : Holds c.sm lines) : c.verifyHandshake around = true ↔ Upgrades lines ∧
      (lookup lines (ascii "Host")).isSome ∧ (lookup lines (ascii "Sec-WebSocket-Key")).isSome ∧
      ∃ value, lookup lines (ascii "Sec-WebSocket-Version") = some value ∧ atoi value 256 = some 13 := by
  have same : lookup lines (ascii "Sec-WebSocket-version") = lookup lines (ascii "Sec-WebSocket-Version") :=
    lookup_case (by decide)
  have version : c.sm.hdrint (ascii "Sec-WebSocket-version") =
      (lookup lines (ascii "Sec-WebSocket-Version")).bind fun s => atoi s 256 := by
    unfold Fsm.hdrint
    rw [Holds.lookup holds (by decide), same]
  unfold Peer.verifyHandshake
  rw [server, Holds.lookup holds (by decide), Holds.lookup holds (by decide)]
  dsimp only
  rw [Holds.lookup holds (by decide), Holds.lookup holds (by decide), version, Bool.and_eq_true, upgrades_iff,
    Bool.and_eq_true, Bool.and_eq_true, Option.any_eq_true, and_assoc]
  refine and_congr_right fun _ => and_congr_right fun _ => and_congr_right fun _ => ?_
  constructor
  · rintro ⟨v, found, thirteen⟩
    obtain ⟨value, there, number⟩ := Option.bind_eq_some_iff.mp found
    exact ⟨value, there, number.trans (congrArg some (of_decide_eq_true thirteen))⟩
  · rintro ⟨value, there, number⟩
    exact ⟨13, Option.bind_eq_some_iff.mpr ⟨value, there, number⟩, rfl⟩

/-- What `verify_handshake` of a client checks. -/
theorem verify_client {around : Around} {c : Peer} (client : c.state = .clientHandshake2)
    (holds : Holds c.sm lines) : c.verifyHandshake around = true ↔
      c.sm.res = 101 ∧ Answers around lines c.key := by
  unfold Peer.verifyHandshake
  rw [client, Holds.lookup holds (by decide), Holds.lookup holds (by decide), Holds.lookup holds (by decide)]
  dsimp only
  rw [Bool.and_eq_true, upgrades_iff, Bool.and_eq_true, Option.any_eq_true, decide_eq_true_eq]
  have equal : (∃ tok, lookup lines (ascii "Sec-WebSocket-Accept") = some tok ∧
      decide ((Str.cmp (fun i => tok.getD i 0)
        (fun i => (generateAcceptKeyFromValue around c.key).getD i 0) 1024).1 = 0) = true) ↔
      lookup lines (ascii "Sec-WebSocket-Accept") = some (generateAcceptKeyFromValue around c.key) := by
    have exact : ∀ tok, lookup lines (ascii "Sec-WebSocket-Accept") = some tok →
        ((Str.cmp (fun i => tok.getD i 0)
          (fun i => (generateAcceptKeyFromValue around c.key).getD i 0) 1024).1 = 0 ↔
            tok = generateAcceptKeyFromValue around c.key) := by
      intro tok found
      obtain ⟨zero, short⟩ := lookup_plain found
      have whole : Str.CString.length ⟨tok, zero⟩ ≤ 1024 := by
        change tok.length ≤ 1024
        omega
      refine (Str.cmp_spec (s := ⟨tok, zero⟩) (fun _ _ => rfl)
        ⟨generateAcceptKeyFromValue around c.key, cstr_plain _⟩ whole).1.trans ?_
      exact Subtype.mk_eq_mk
    constructor
    · rintro ⟨tok, found, same⟩
      exact found.trans (congrArg some ((exact tok found).mp (of_decide_eq_true same)))
    · intro found
      exact ⟨_, found, decide_eq_true ((exact _ found).mpr rfl)⟩
  rw [equal]
  exact ⟨fun ⟨upgrades, status, accept⟩ => ⟨status, upgrades, accept⟩,
    fun ⟨status, answers⟩ => ⟨answers.upgrades, status, answers.accept⟩⟩

end Upgrade

end Cyue.Ws
