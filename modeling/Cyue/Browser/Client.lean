import Cyue.Lib.Run
import Cyue.Lib.Throwing
import Mathlib.Logic.Function.Basic

/-!
# The browser client

`yue.js` keeps one table of pending calls for all connections; a call waits in the
queue of its connection until the server has accepted, then in its write buffer.
The functions run to their end one after another: an event of a socket, a tick of
the timer, or code of the page.  Each turns the state into the next one or throws
where the script does.  What the page does in a callback is a list of uses of the
library; the arguments and results of calls are passed through and left out.
-/

namespace Cyue.Browser

open Cyue.Throwing

/-- `readyState` of a WebSocket; `none` before it is made. -/
inductive Ready where
  | none | connecting | opened | closing | closed
  deriving DecidableEq

/-- `send` of a WebSocket throws while it is connecting; on one that closes the data is lost. -/
def Ready.takes : Ready → Bool
  | .none | .connecting => false
  | .opened | .closing | .closed => true

/-- `state` of a connection. -/
inductive Phase where
  | closed | handshake | waitAccept | established
  deriving DecidableEq

/-- What is packed into the write buffer, with its msgid. -/
inductive Packet where
  | request (m : ℕ)
  | response (m : ℕ)
  deriving DecidableEq

def Packet.call : Packet → Option ℕ
  | .request m => some m
  | .response _ => none

/-- `Connection`; its sockets are numbered, and `self.socket` is the one made last. -/
structure Connection where
  wbuf : List Packet
  sendQ : List ℕ
  lastSent : ℕ
  state : Phase
  made : ℕ
  sockets : ℕ → Ready

def Connection.socket (k : Connection) : Ready :=
  k.sockets k.made

def Connection.setSocket (k : Connection) (n : ℕ) (r : Ready) : Connection :=
  { k with sockets := Function.update k.sockets n r }

def Connection.new (now : ℕ) : Connection where
  wbuf := []
  sendQ := []
  lastSent := now
  state := .closed
  made := 0
  sockets := fun _ => .none

/-- An entry of `dispatch_table`. -/
structure Entry (κ : Type*) where
  conn : κ
  limit : ℕ

inductive Result where
  | response (failed : Bool)
  | timeout
  | connectionClosed
  deriving DecidableEq

/-- What is seen of a call: its callback is called, or it goes out over a socket. -/
inductive Event where
  | settled (m : ℕ) (r : Result)
  | sent (m : ℕ)
  deriving DecidableEq

/-- The connections with the dispatcher; `faults` counts the handlers that threw. -/
structure Client (κ : Type*) where
  now : ℕ
  seed : ℕ
  lastCheck : ℕ
  table : ℕ → Option (Entry κ)
  hosts : List κ
  conns : κ → Connection
  history : List Event
  faults : ℕ

inductive User (κ : Type*) where
  | openHost (c : κ)
  | call (c : κ)
  | close (c : κ)

/-- A message that the server may send; the method `accept__` is called with the answer
that the function `__accept` of the page gives. -/
inductive Message where
  | response (m : ℕ) (failed : Bool)
  | request (m : ℕ)
  | accept (m : ℕ) (granted : Bool)
  | other

def Message.answers : Message → Option ℕ
  | .response m _ => some m
  | _ => none

/-- The functions of the page: the callback of a call, what a message of the server calls,
and `__close`. -/
structure Page (κ : Type*) where
  callback : κ → ℕ → Result → Client κ → List (User κ)
  serve : κ → Message → Client κ → List (User κ)
  onClose : κ → Client κ → List (User κ)

def defaultTimeout : ℕ := 5000

def timeoutCheckSpan : ℕ := 1000

def packetSendCheckSpan : ℕ := 100

namespace Client

variable {κ : Type*} [DecidableEq κ]

/-- A handler that throws leaves the state behind in which it did. -/
abbrev Handler (κ : Type*) := Except (Client κ)

def init : Client κ where
  now := 0
  seed := 1
  lastCheck := 0
  table := fun _ => none
  hosts := []
  conns := fun _ => .new 0
  history := []
  faults := 0

def setConn (d : Client κ) (c : κ) (k : Connection) : Client κ :=
  { d with conns := Function.update d.conns c k }

def transmit (d : Client κ) (packets : List Packet) : Client κ :=
  { d with history := d.history ++ (packets.filterMap Packet.call).map .sent }

def rawsend (d : Client κ) (c : κ) : Handler κ (Client κ) :=
  let k := d.conns c
  if k.wbuf = [] then .ok d
  else match k.socket with
    | .none | .connecting => .error d
    | .opened => .ok ((d.transmit k.wbuf).setConn c { k with wbuf := [] })
    | .closing | .closed => .ok (d.setConn c { k with wbuf := [] })

def sendNocheck (d : Client κ) (c : κ) (p : Packet) : Handler κ (Client κ) :=
  let k := d.conns c
  let d := d.setConn c { k with wbuf := k.wbuf ++ [p] }
  if d.now ≤ k.lastSent + packetSendCheckSpan then .ok d else d.rawsend c

def connect (d : Client κ) (c : κ) : Client κ :=
  let k := d.conns c
  match k.state with
  | .closed =>
      d.setConn c (({ k with state := .handshake, made := k.made + 1 } : Connection).setSocket
        (k.made + 1) .connecting)
  | _ => d

def send (d : Client κ) (c : κ) (m : ℕ) : Handler κ (Client κ) :=
  let k := d.conns c
  match k.state with
  | .established => d.sendNocheck c (.request m)
  | _ => .ok ((d.setConn c { k with sendQ := k.sendQ ++ [m] }).connect c)

def issue (d : Client κ) (e : Entry κ) : Client κ :=
  { d with table := Function.update d.table d.seed (some e), seed := d.seed + 1 }

/-- `call` with `Dispatcher.prototype.send` -/
def call (d : Client κ) (c : κ) : Handler κ (Client κ) :=
  (d.issue { conn := c, limit := d.now + defaultTimeout }).send c d.seed

def close (d : Client κ) (c : κ) : Handler κ (Client κ) :=
  let k := d.conns c
  match k.state with
  | .closed => .ok d
  | _ =>
      match k.socket with
      | .none => .error d
      | .closed => .ok d
      | _ => .ok (d.setConn c (k.setSocket k.made .closing))

/-- `open` -/
def openHost (d : Client κ) (c : κ) : Client κ :=
  if c ∈ d.hosts then d
  else { d.setConn c (.new d.now) with hosts := d.hosts ++ [c] }

/-- A use of the library; without a connection there is nothing to call or to close. -/
def use (d : Client κ) : User κ → Handler κ (Client κ)
  | .openHost c => .ok (d.openHost c)
  | .call c => if c ∈ d.hosts then d.call c else .ok d
  | .close c => if c ∈ d.hosts then d.close c else .ok d

def useAll (d : Client κ) (uses : List (User κ)) : Handler κ (Client κ) :=
  uses.foldlM use d

/-- The entry of a call is deleted and its callback is called. -/
def settle (d : Client κ) (m : ℕ) (r : Result) : Client κ :=
  { d with table := Function.update d.table m none, history := d.history ++ [.settled m r] }

/-- A response in `recv`; without an entry, `e.cb` throws. -/
def answer (page : Page κ) (d : Client κ) (c : κ) (m : ℕ) (r : Result) : Handler κ (Client κ) :=
  match d.table m with
  | none => .error d
  | some _ => (d.settle m r).useAll (page.callback c m r (d.settle m r))

def raise (page : Page κ) (d : Client κ) (m : ℕ) (r : Result) : Handler κ (Client κ) :=
  match d.table m with
  | none => .error d
  | some e => d.answer page e.conn m r

def setState (d : Client κ) (c : κ) (state : Phase) : Client κ :=
  d.setConn c { d.conns c with state := state }

def clearQueue (d : Client κ) (c : κ) : Client κ :=
  d.setConn c { d.conns c with sendQ := [] }

/-- `establish`; what a callback queues meanwhile is not in the loop any more. -/
def establish (page : Page κ) (d : Client κ) (c : κ) (success : Bool) : Handler κ (Client κ) :=
  let queue := (d.conns c).sendQ
  if success then do
    let d ← queue.foldlM (fun d m => d.sendNocheck c (.request m)) (d.setState c .established)
    (d.clearQueue c).rawsend c
  else do
    let d ← queue.foldlM (fun d m => raise page d m .connectionClosed) (d.setState c .closed)
    .ok (d.clearQueue c)

/-- `accept__` behind the function `__accept` of the page. -/
def accept (page : Page κ) (d : Client κ) (c : κ) (granted : Bool) : Handler κ (Client κ) :=
  if granted then
    match (d.conns c).state with
    | .waitAccept => d.establish page c true
    | _ => .ok d
  else d.close c

/-- One round of the loop of `recv`. -/
def recvMessage (page : Page κ) (c : κ) (d : Client κ) (msg : Message) : Handler κ (Client κ) :=
  match msg with
  | .response m failed => d.answer page c m (.response failed)
  | .request m => do
      let d ← d.useAll (page.serve c msg d)
      d.sendNocheck c (.response m)
  | .accept m granted => do
      let d ← d.useAll (page.serve c msg d)
      let d ← d.accept page c granted
      d.sendNocheck c (.response m)
  | .other => .ok d

/-- `recv` with the messages that the unpacker gets out of the data. -/
def recv (page : Page κ) (d : Client κ) (c : κ) (messages : List Message) : Handler κ (Client κ) :=
  messages.foldlM (recvMessage page c) d

def flush (d : Client κ) : Handler κ (Client κ) :=
  d.hosts.foldlM
    (fun d c => if (d.conns c).lastSent + packetSendCheckSpan ≤ d.now then d.rawsend c else .ok d) d

def checkTimeouts (page : Page κ) (d : Client κ) : Handler κ (Client κ) :=
  if d.now < d.lastCheck + timeoutCheckSpan then .ok d
  else
    (List.range d.seed).foldlM
      (fun d m =>
        match d.table m with
        | some e => if e.limit ≤ d.now then d.raise page m .timeout else .ok d
        | none => .ok d)
      { d with lastCheck := d.now }

/-- What happens; sockets are named by their connection and number. -/
inductive Act (κ : Type*) where
  | pass (time : ℕ)
  | use (u : User κ)
  | opened (c : κ) (n : ℕ)
  | message (c : κ) (n : ℕ) (messages : List Message)
  | leaving (c : κ) (n : ℕ)
  | error (c : κ) (n : ℕ)
  | closed (c : κ) (n : ℕ)
  | timer

/-- What a socket can do next, as its `readyState` allows. -/
def Enabled (d : Client κ) : Act κ → Prop
  | .opened c n => c ∈ d.hosts ∧ (d.conns c).sockets n = .connecting
  | .message c n _ => c ∈ d.hosts ∧ (d.conns c).sockets n = .opened
  | .leaving c n => c ∈ d.hosts ∧ (d.conns c).sockets n = .opened
  | .error c n | .closed c n =>
      c ∈ d.hosts ∧ (d.conns c).sockets n ≠ .none ∧ (d.conns c).sockets n ≠ .closed
  | _ => True

instance decidableEnabled (d : Client κ) : ∀ a : Act κ, Decidable (d.Enabled a)
  | .opened _ _ | .message _ _ _ | .leaving _ _ | .error _ _ | .closed _ _ =>
      inferInstanceAs (Decidable (_ ∧ _))
  | .pass _ | .use _ | .timer => instDecidableTrue

def setReady (d : Client κ) (c : κ) (n : ℕ) (r : Ready) : Client κ :=
  d.setConn c ((d.conns c).setSocket n r)

def handle (page : Page κ) (d : Client κ) : Act κ → Handler κ (Client κ)
  | .pass time => .ok { d with now := d.now + time }
  | .use u => d.use u
  | .opened c n => .ok ((d.setReady c n .opened).setState c .waitAccept)
  | .message c _ messages => d.recv page c messages
  | .leaving c n => .ok (d.setReady c n .closing)
  | .error c n => (d.setReady c n .closing).establish page c false
  | .closed c n => do
      let d ← (d.setReady c n .closed).establish page c false
      d.useAll (page.onClose c d)
  | .timer => do
      let d ← d.flush
      d.checkTimeouts page

/-- An act with what becomes of an exception: it ends its handler. -/
def step (page : Page κ) (d : Client κ) (a : Act κ) : Client κ :=
  if d.Enabled a then
    match d.handle page a with
    | .ok d => d
    | .error d => { d with faults := d.faults + 1 }
  else d

end Client

end Cyue.Browser
