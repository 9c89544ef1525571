import Cyue.Ws.Upgrade

/-!
# Both sides of an upgrade

A side accepts a header block by its lines alone, in whatever pieces it comes.  What a client and a
server print is such a block for the other side, and the hash that the client expects is the one that
the server has computed from the key it has read.
-/

namespace Cyue.Ws.Upgrade

open Http Http.Fsm Http.Sender Memory

variable {lines : List Line} {crlf : Bool} {trailing : List UInt8}

def Call.reading (text : List UInt8) (sent : ℤ) : Call := ⟨true, false, text, text.length, sent, false, []⟩

theorem Call.reading_reads {text : List UInt8} (some : text ≠ []) (sent : ℤ) : (Call.reading text sent).Reads :=
  ⟨rfl, Int.natCast_pos.mpr (List.length_pos_iff.mpr some), le_rfl⟩

theorem Call.reading_sent (text : List UInt8) (sent : ℤ) : (Call.reading text sent).sent = sent := rfl

theorem Call.reading_bytes (text : List UInt8) (sent : ℤ) : (Call.reading text sent).bytes = text :=
  List.take_length

/-! ## The server -/

theorem initAcceptKey_eq {f : Fsm} (around : Around) (holds : Holds f lines) :
    initAcceptKeyFromHeader around f = (lookup lines (ascii "Sec-WebSocket-Key")).bind fun kbuf =>
      let (n, vbuf) := Base64.decode around.table kbuf fun _ => 0
      if n = 16 then some (generateAcceptKey around kbuf, load vbuf 0 16) else none := by
  have same : lookup lines (ascii "Sec-Websocket-Key") = lookup lines (ascii "Sec-WebSocket-Key") :=
    lookup_case (by decide)
  unfold initAcceptKeyFromHeader
  rw [Holds.lookup holds (by decide), same]

theorem Serves.init {f : Fsm} {around : Around} {secKey : List UInt8} (serves : Serves around lines secKey)
    (holds : Holds f lines) : initAcceptKeyFromHeader around f =
      some (generateAcceptKey around secKey, load (Base64.decode around.table secKey fun _ => 0).2 0 16) := by
  rw [initAcceptKey_eq around holds, serves.key]
  exact if_pos serves.sixteen

/-- A server that has checked a block has a key of sixteen bytes, or none that it can use. -/
theorem serves_iff {c : Peer} {around : Around} (server : c.state = .serverHandshake)
    (holds : Holds c.sm lines) :
    (∃ secKey, Serves around lines secKey) ↔
      c.verifyHandshake around = true ∧ (initAcceptKeyFromHeader around c.sm).isSome := by
  rw [verify_server server holds]
  constructor
  · rintro ⟨secKey, serves⟩
    rw [serves.init holds, serves.key]
    exact ⟨⟨serves.upgrades, serves.host, rfl, serves.version⟩, rfl⟩
  · rintro ⟨⟨upgrades, host, -, version⟩, init⟩
    rw [initAcceptKey_eq around holds] at init
    obtain ⟨accepted, found⟩ := Option.isSome_iff_exists.mp init
    obtain ⟨secKey, key, there⟩ := Option.bind_eq_some_iff.mp found
    refine ⟨secKey, upgrades, host, key, ?_, version⟩
    by_contra other
    exact nomatch (if_neg other).symm.trans there

/-- A server that does not accept the lines stays where it is and sends nothing. -/
theorem establish_refused {c : Peer} {around : Around} (server : c.state = .serverHandshake)
    (holds : Holds c.sm lines) (refused : ¬ ∃ secKey, Serves around lines secKey) (e : Call) :
    (c.establish around e).1 = c ∧ (c.establish around e).2.1 ≠ .ok ∧ (c.establish around e).2.2 = [] := by
  rw [serves_iff server holds, not_and] at refused
  unfold Peer.establish
  by_cases checked : c.verifyHandshake around = true
  · have none := Option.not_isSome_iff_eq_none.mp (refused checked)
    rw [if_neg (not_not.mpr checked), if_pos server, none]
    refine ⟨rfl, ?_, rfl⟩
    cases e.errorAgain <;> nofun
  · rw [if_pos checked]
    exact ⟨rfl, nofun, rfl⟩

theorem establish_served {c : Peer} {around : Around} (server : c.state = .serverHandshake)
    (holds : Holds c.sm lines) {secKey : List UInt8} (serves : Serves around lines secKey) (e : Call) :
    c.establish around e =
      let c := { c with key := load (Base64.decode around.table secKey fun _ => 0).2 0 16 }
      let out := (e.send (handshakeResponse (generateAcceptKey around secKey))).2
      if e.sent < 0 then (c, if e.errorAgain then .send else .system, out)
      else ({ c with state := .established }, .ok, out) := by
  have checked := ((serves_iff server holds).mp ⟨secKey, serves⟩).1
  unfold Peer.establish
  rw [if_neg (not_not.mpr checked), if_pos server, serves.init holds]
  rfl

/-- A server that reads a header block in any pieces is established exactly if the lines ask for an
upgrade with a key of sixteen bytes and its response is sent; bytes behind the block wait in its buffer
or are left to be read. -/
theorem server_accepts (block : Block lines crlf trailing) (around : Around) (f : Fsm)
    (host : List UInt8) {calls : List Call} (reads : ∀ e ∈ calls, e.Reads)
    (bytes : calls.flatMap Call.bytes = lines.flatMap Line.bytes ++ ending crlf ++ trailing) :
    ∃ e ∈ calls, ∃ t rest, trailing = t ++ rest.flatMap Call.bytes ∧
      let (c, result, out, left) := (Peer.reset f host .serverHandshake).shake around calls
      left = rest ∧ Waits c.sm t ∧
        (result = .ok ↔ (∃ secKey, Serves around lines secKey) ∧ 0 ≤ e.sent) ∧
        c.state = (if result = .ok then .established else .serverHandshake) ∧
        ((¬ ∃ secKey, Serves around lines secKey) → out = []) ∧
        ∀ secKey, Serves around lines secKey →
          out = (e.send (handshakeResponse (generateAcceptKey around secKey))).2 ∧
            c.key = load (Base64.decode around.table secKey fun _ => 0).2 0 16 := by
  obtain ⟨e, member, g, t, rest, behind, waits, holds, -, shaken⟩ :=
    block.shake around f (c := Peer.reset f host .serverHandshake) (.inr rfl) rfl reads bytes
  refine ⟨e, member, t, rest, behind, ?_⟩
  rw [shaken]
  generalize at' : ({ Peer.reset f host .serverHandshake with sm := g } : Peer) = c
  have server : c.state = .serverHandshake := at' ▸ rfl
  have sm : c.sm = g := at' ▸ rfl
  rw [← sm] at waits holds
  by_cases served : ∃ secKey, Serves around lines secKey
  · obtain ⟨secKey, serves⟩ := served
    have only : ∀ other, Serves around lines other → other = secKey :=
      fun other there => Option.some.inj (there.key.symm.trans serves.key)
    rw [establish_served server holds serves]
    by_cases failed : e.sent < 0
    · have result : (if e.errorAgain then Result.send else .system) ≠ .ok := by
        cases e.errorAgain <;> nofun
      dsimp only
      rw [if_pos failed]
      refine ⟨rfl, waits, ⟨fun ok => absurd ok result, fun both => absurd failed (not_lt.mpr both.2)⟩,
        server.trans (if_neg result).symm, fun none => absurd ⟨secKey, serves⟩ none, fun other there => ?_⟩
      rw [only other there]
      exact ⟨rfl, rfl⟩
    · dsimp only
      rw [if_neg failed]
      refine ⟨rfl, waits, ⟨fun _ => ⟨⟨secKey, serves⟩, not_lt.mp failed⟩, fun _ => rfl⟩, rfl,
        fun none => absurd ⟨secKey, serves⟩ none, fun other there => ?_⟩
      rw [only other there]
      exact ⟨rfl, rfl⟩
  · obtain ⟨same, refused, silent⟩ := establish_refused server holds served e
    dsimp only
    rw [same, silent]
    exact ⟨rfl, waits, ⟨fun ok => absurd ok refused, fun both => absurd both.1 served⟩,
      server.trans (if_neg refused).symm, fun _ => rfl, fun secKey serves => absurd ⟨secKey, serves⟩ served⟩

/-- A request with line feeds alone and other cases of the letters. -/
def otherLines : List Line :=
  [⟨ascii "GET /chat HTTP/1.1", false, by decide, by decide, by decide⟩,
    ⟨ascii "connection:UPGRADE", false, by decide, by decide, by decide⟩,
    ⟨ascii "upgrade: WebSocket", false, by decide, by decide, by decide⟩,
    ⟨ascii "host: a", false, by decide, by decide, by decide⟩,
    ⟨ascii "sec-websocket-key: AAAAAAAAAAAAAAAAAAAAAA==", false, by decide, by decide, by decide⟩,
    ⟨ascii "sec-websocket-version: 13", false, by decide, by decide, by decide⟩]

theorem otherLines_block : Block otherLines false [129] where
  few := by decide
  some := List.cons_ne_nil _ _
  fits := by decide +kernel
  length := List.find?_eq_none.mpr (by decide +kernel)
  coding := List.find?_eq_none.mpr (by decide +kernel)
  key := .inl (by decide +kernel)

theorem server_accepts_other :
    let text := otherLines.flatMap Line.bytes ++ ending false ++ [129]
    let calls := [Call.reading (text.take 50) 200, Call.reading (text.drop 50) 100]
    ∃ e ∈ calls, ∃ t rest, [129] = t ++ rest.flatMap Call.bytes ∧
      let (c, result, out, left) := (Peer.reset cleared [] .serverHandshake).shake ⟨0, []⟩ calls
      left = rest ∧ Waits c.sm t ∧
        (result = .ok ↔ (∃ secKey, Serves ⟨0, []⟩ otherLines secKey) ∧ 0 ≤ e.sent) ∧
        c.state = (if result = .ok then .established else .serverHandshake) ∧
        ((¬ ∃ secKey, Serves ⟨0, []⟩ otherLines secKey) → out = []) ∧
        ∀ secKey, Serves ⟨0, []⟩ otherLines secKey →
          out = (e.send (handshakeResponse (generateAcceptKey ⟨0, []⟩ secKey))).2 ∧
            c.key = load (Base64.decode 0 secKey fun _ => 0).2 0 16 := by
  refine server_accepts otherLines_block ⟨0, []⟩ cleared [] ?_ ?_
  · intro e member
    rcases List.mem_cons.mp member with rfl | member
    · exact Call.reading_reads (by decide +kernel) _
    · obtain rfl := List.mem_singleton.mp member
      exact Call.reading_reads (by decide +kernel) _
  · simp only [List.flatMap_cons, List.flatMap_nil, Call.reading_bytes, List.append_nil]
    exact List.take_append_drop 50 _

/-! ## The client -/

/-- A client that reads a header block in any pieces is established exactly if the status is 101 and the
lines give the hash of its key; it sends nothing more. -/
theorem client_accepts (block : Block lines crlf trailing) (around : Around) (f : Fsm) {c : Peer}
    (client : c.state = .clientHandshake2) (fresh : c.sm = f.reset readSize) {calls : List Call}
    (reads : ∀ e ∈ calls, e.Reads)
    (bytes : calls.flatMap Call.bytes = lines.flatMap Line.bytes ++ ending crlf ++ trailing) :
    ∃ t rest, trailing = t ++ rest.flatMap Call.bytes ∧
      let (c', result, out, left) := c.shake around calls
      left = rest ∧ Waits c'.sm t ∧ out = [] ∧ c'.key = c.key ∧
        (result = .ok ↔ c'.sm.res = 101 ∧ Answers around lines c.key) ∧
        c'.sm.res = ((f.reset readSize).acceptAll (lines.flatMap Line.bytes ++ ending crlf)).res ∧
        c'.state = (if result = .ok then .established else .clientHandshake2) := by
  obtain ⟨e, -, g, t, rest, behind, waits, holds, res, shaken⟩ :=
    block.shake around f (.inl client) fresh reads bytes
  refine ⟨t, rest, behind, ?_⟩
  rw [shaken]
  have verify : ({ c with sm := g } : Peer).verifyHandshake around = true ↔ g.res = 101 ∧ Answers around lines c.key :=
    verify_client (c := { c with sm := g }) client holds
  have other : c.state ≠ .serverHandshake := by
    rw [client]
    decide
  unfold Peer.establish
  by_cases checked : ({ c with sm := g } : Peer).verifyHandshake around = true
  · rw [if_neg (not_not.mpr checked), if_neg other]
    exact ⟨rfl, waits, rfl, rfl, ⟨fun _ => verify.mp checked, fun _ => rfl⟩, res, rfl⟩
  · rw [if_pos checked]
    exact ⟨rfl, waits, rfl, rfl, ⟨nofun, fun both => absurd (verify.mpr both) checked⟩, res, client⟩

/-- The block of another server, with a value that is not the hash of the key. -/
def wrongLines : List Line :=
  [⟨ascii "HTTP/1.1 101 OK", true, by decide, by decide, by decide⟩,
    ⟨ascii "Upgrade: WebSocket", true, by decide, by decide, by decide⟩,
    ⟨ascii "Connection: upgrade", true, by decide, by decide, by decide⟩,
    ⟨ascii "Sec-WebSocket-Accept: AAAA", true, by decide, by decide, by decide⟩]

theorem wrongLines_block : Block wrongLines true [] where
  few := by decide
  some := List.cons_ne_nil _ _
  fits := by decide +kernel
  length := List.find?_eq_none.mpr (by decide +kernel)
  coding := List.find?_eq_none.mpr (by decide +kernel)
  key := .inr (by decide +kernel)

theorem client_accepts_wrong :
    ∃ t rest, [] = t ++ rest.flatMap Call.bytes ∧
      let (c', result, out, left) :=
        (⟨.clientHandshake2, cleared.reset readSize, [7], []⟩ : Peer).shake ⟨0, []⟩
          [Call.reading (wrongLines.flatMap Line.bytes ++ ending true) 0]
      left = rest ∧ Waits c'.sm t ∧ out = [] ∧ c'.key = [7] ∧
        (result = .ok ↔ c'.sm.res = 101 ∧ Answers ⟨0, []⟩ wrongLines [7]) ∧
        c'.sm.res = ((cleared.reset readSize).acceptAll (wrongLines.flatMap Line.bytes ++ ending true)).res ∧
        c'.state = (if result = .ok then .established else .clientHandshake2) := by
  have some : wrongLines.flatMap Line.bytes ++ ending true ≠ [] := by decide +kernel
  have bytes : [Call.reading (wrongLines.flatMap Line.bytes ++ ending true) 0].flatMap Call.bytes =
      wrongLines.flatMap Line.bytes ++ ending true ++ [] := by
    rw [List.flatMap_singleton, Call.reading_bytes, List.append_nil]
  have done := client_accepts wrongLines_block ⟨0, []⟩ cleared
    (c := ⟨.clientHandshake2, cleared.reset readSize, [7], []⟩) rfl rfl
    (List.forall_mem_singleton.mpr (Call.reading_reads some 0)) bytes
  exact done

/-! ## Lines that are printed -/

/-- What is read back behind a name as it is printed. -/
structure Value where
  bytes : List UInt8
  zero : (0 : UInt8) ∉ bytes
  inside : lf ∉ bytes
  front : (bytes.dropWhile fun c => c = 32 || c = 58) = bytes

def Value.empty : Value := ⟨[], by decide, by decide, rfl⟩

def header (front : List UInt8) (nonempty : front ≠ []) (inside : lf ∉ front) (value : Value) : Line :=
  ⟨front ++ value.bytes, true, List.append_ne_nil_of_left_ne_nil nonempty _,
    fun member => (List.mem_append.mp member).elim inside value.inside, nofun⟩

variable {key front : List UInt8} {nonempty : front ≠ []} {inside : lf ∉ front} {value : Value}

theorem named_front (differs : (front.take key.length).map tolower ≠ (key.take front.length).map tolower) :
    ¬ Named key (header front nonempty inside value).text := by
  intro named
  have shorter := congrArg (List.take front.length) named
  rw [← List.map_take, ← List.map_take, List.take_take] at shorter
  change ((front ++ value.bytes).take _).map tolower = _ at shorter
  rw [List.take_append_of_le_length (Nat.min_le_left _ _), Nat.min_comm, ← List.take_take,
    List.take_length] at shorter
  exact differs shorter

theorem firstNamed_skip
    (differs : (front.take key.length).map tolower ≠ (key.take front.length).map tolower) :
    firstNamed (header front nonempty inside value :: lines) key = firstNamed lines key :=
  List.find?_cons_of_neg (by simpa using named_front differs)

theorem lookup_skip
    (differs : (front.take key.length).map tolower ≠ (key.take front.length).map tolower) :
    lookup (header front nonempty inside value :: lines) key = lookup lines key := by
  unfold lookup
  rw [firstNamed_skip differs]

/-- The line of a key gives its value. -/
theorem lookup_here (same : (front.take key.length).map tolower = key.map tolower)
    (long : key.length ≤ front.length)
    (separators : ((front.drop key.length).all fun c => c = 32 || c = 58) = true)
    (short : value.bytes.length < 256) :
    lookup (header front nonempty inside value :: lines) key = some value.bytes := by
  have named : Named key (header front nonempty inside value).text := by
    change ((front ++ value.bytes).take _).map tolower = _
    rw [List.take_append_of_le_length long]
    exact same
  have behind : (header front nonempty inside value).behind key = value.bytes := by
    change (((front ++ value.bytes).drop _).dropWhile _).takeWhile _ = _
    rw [List.drop_append_of_le_length long, List.dropWhile_append_of_pos (List.all_eq_true.mp separators),
      value.front]
    exact List.takeWhile_eq_self_iff.mpr fun c member => decide_eq_true (ne_of_mem_of_not_mem member value.zero)
  have found : firstNamed (header front nonempty inside value :: lines) key =
 some (header front nonempty inside value) := List.find?_cons_of_pos (by simpa using named)
  unfold lookup
  rw [found, Option.map_some, behind]
  exact Option.filter_some_pos (decide_eq_true short)

/-! ## Codes -/

def Letter (c : UInt8) : Prop := c ≠ 0 ∧ c ≠ lf ∧ c ≠ 32 ∧ c ≠ 58

instance (c : UInt8) : Decidable (Letter c) := inferInstanceAs (Decidable (_ ∧ _ ∧ _ ∧ _))

theorem encoding_letters : ∀ n < 64, Letter (Base64.encoding.getD n 0) := by
  decide +kernel

theorem encodeValue_letter (v : UInt8) : Letter (Base64.encodeValue v) := by
  unfold Base64.encodeValue
  split
  case isTrue => decide
  case isFalse small =>
      have bound : v.toNat ≤ 63 := not_lt.mp small
      exact encoding_letters v.toNat (Nat.lt_succ_of_le bound)

open Base64 in
theorem encodeByte_letters {n : ℕ} {state : Base64.State} (at' : At n state) (short : n + 1 < 54)
    (fragment : UInt8) : ∀ c ∈ (encodeByte state fragment).1, Letter c := by
  obtain ⟨step, result, stepcount⟩ := state
  obtain ⟨reached, groups⟩ := at'
  dsimp only at reached groups
  cases step with
  | a => exact List.forall_mem_singleton.mpr (encodeValue_letter _)
  | b => exact List.forall_mem_singleton.mpr (encodeValue_letter _)
  | c =>
      have third : n % 3 = 2 := by
        unfold stepAt at reached
        split at reached
        case isTrue => cases reached
        case isFalse =>
            split at reached
            case isTrue => cases reached
            case isFalse => omega
      have line : ¬ stepcount + 1 = charsPerLine / 4 := by
        have eighteen : charsPerLine / 4 = 18 := rfl
        rw [eighteen]
        omega
      rw [encodeByte]
      dsimp only
      rw [if_neg line]
      exact List.forall_mem_cons.mpr ⟨encodeValue_letter _, List.forall_mem_singleton.mpr (encodeValue_letter _)⟩

open Base64 in
theorem encodeBlock_letters {n : ℕ} {state : Base64.State} {plaintext : List UInt8} (at' : At n state)
    (short : n + plaintext.length < 54) : ∀ c ∈ (encodeBlock state plaintext).1, Letter c := by
  induction plaintext generalizing n state with
  | nil => exact nofun
  | cons fragment plaintext ih =>
      rw [List.length_cons] at short
      have next := (encodeByte_spec at' fragment).2
      rw [encodeBlock]
      exact List.forall_mem_append.mpr
        ⟨encodeByte_letters at' (by omega) fragment, ih next (by omega)⟩

open Base64 in
theorem encodeBlockend_letters (state : Base64.State) :
    ∃ front, encodeBlockend state = front ++ [10] ∧ ∀ c ∈ front, Letter c := by
  have padding : Letter 61 := by decide
  unfold encodeBlockend
  split
  · exact ⟨[_, 61, 61], rfl, List.forall_mem_cons.mpr ⟨encodeValue_letter _,
      List.forall_mem_cons.mpr ⟨padding, List.forall_mem_singleton.mpr padding⟩⟩⟩
  · exact ⟨[_, 61], rfl, List.forall_mem_cons.mpr ⟨encodeValue_letter _, List.forall_mem_singleton.mpr padding⟩⟩
  · exact ⟨[], rfl, nofun⟩

/-- A code without a line break is a string of such characters. -/
theorem cstr_encode {plaintext : List UInt8} (short : plaintext.length < 54) :
    Base64.encode plaintext = cstr (Base64.encode plaintext) ++ [0] ∧
      ∀ c ∈ cstr (Base64.encode plaintext), Letter c := by
  obtain ⟨front, ends, last⟩ := encodeBlockend_letters (Base64.encodeBlock .init plaintext).2
  have letters : ∀ c ∈ (Base64.encodeBlock .init plaintext).1 ++ front, Letter c :=
    List.forall_mem_append.mpr ⟨encodeBlock_letters Base64.at_init (by omega), last⟩
  have code : Base64.encode plaintext = (Base64.encodeBlock .init plaintext).1 ++ front ++ [0] := by
    unfold Base64.encode
    dsimp only
    rw [ends, ← List.append_assoc, List.dropLast_concat]
  have whole : cstr (Base64.encode plaintext) = (Base64.encodeBlock .init plaintext).1 ++ front := by
    unfold cstr
    rw [code, List.takeWhile_append_of_pos fun c member => decide_eq_true (letters c member).1,
      List.takeWhile_cons_of_neg (by decide), List.append_nil]
  rw [whole]
  exact ⟨code, letters⟩

def code (plaintext : List UInt8) (short : plaintext.length < 54) : Value where
  bytes := cstr (Base64.encode plaintext)
  zero member := ((cstr_encode short).2 0 member).1 rfl
  inside member := ((cstr_encode short).2 lf member).2.1 rfl
  front := by
    have letters := (cstr_encode short).2
    generalize cstr (Base64.encode plaintext) = bytes at letters
    cases bytes with
    | nil => rfl
    | cons c bytes =>
        obtain ⟨-, -, blank, colon⟩ := letters c List.mem_cons_self
        exact List.dropWhile_cons_of_neg (by simp [blank, colon])

theorem code_length {plaintext : List UInt8} (short : plaintext.length < 54) :
    (cstr (Base64.encode plaintext)).length = 4 * ((plaintext.length + 2) / 3) := by
  have length := Base64.encode_length plaintext
  rw [(cstr_encode short).1, List.length_append, List.length_singleton] at length
  omega

theorem printed_take {size : ℕ} {text : List UInt8} (short : text.length < size) (more : List UInt8) :
    (printed size text ++ more).take text.length = text := by
  have whole : text.take (size - 1) = text := List.take_of_length_le (by omega)
  unfold printed
  rw [whole, List.append_assoc, List.take_left]

/-- A key that leaves room for the salt in the array is hashed as it is. -/
theorem generateAcceptKey_eq (around : Around) {secKey : List UInt8} (short : secKey.length < 220) :
    generateAcceptKey around secKey = cstr (Base64.encode (Sha1.Standard.hash (secKey ++ salt))) := by
  have length : (secKey ++ salt).length = secKey.length + 36 := List.length_append
  unfold generateAcceptKey
  dsimp only
  rw [printed_take (by omega), Sha1.encode_eq]

/-! ## Messages that are blocks -/

def upgradeLine : Line :=
  header (ascii "Upgrade: ") (by decide) (by decide) ⟨ascii "websocket", by decide, by decide, rfl⟩

def connectionLine : Line :=
  header (ascii "Connection: ") (by decide) (by decide) ⟨ascii "Upgrade", by decide, by decide, rfl⟩

theorem getLine_nonempty : ascii "GET / HTTP/1.1" ≠ [] := upgradeRequest.nonempty

theorem getLine_inside : lf ∉ ascii "GET / HTTP/1.1" := upgradeRequest.inside

def requestLines (host key origin : Value) : List Line :=
  [header (ascii "GET / HTTP/1.1") getLine_nonempty getLine_inside .empty,
    header (ascii "Host: ") (by decide) (by decide) host, upgradeLine, connectionLine,
    header (ascii "Sec-WebSocket-Key: ") (by decide) (by decide) key,
    header (ascii "Origin: ") (by decide) (by decide) origin,
    header (ascii "Sec-WebSocket-Version: ") (by decide) (by decide)
      ⟨ascii "13", by decide, by decide, rfl⟩]

def responseLines (accept : Value) : List Line :=
  [header (ascii "HTTP/1.1 101 Switching Protocols") (by decide) (by decide) .empty, upgradeLine,
    connectionLine, header (ascii "Sec-WebSocket-Accept: ") (by decide) (by decide) accept]

theorem upgradeLine_eq : ascii "Upgrade: websocket" = ascii "Upgrade: " ++ ascii "websocket" := by decide

theorem connectionLine_eq : ascii "Connection: Upgrade" = ascii "Connection: " ++ ascii "Upgrade" := by decide

theorem ending_crlf : ending true = Sender.crlf := rfl

theorem handshakeRequest_eq (host key origin : Value) :
    handshakeRequest host.bytes key.bytes origin.bytes =
      (requestLines host key origin).flatMap Line.bytes ++ ending true := by
  have version : ascii "Sec-WebSocket-Version: 13" = ascii "Sec-WebSocket-Version: " ++ ascii "13" := by decide
  simp only [handshakeRequest, upgradeLine_eq, connectionLine_eq, version, requestLines, upgradeLine,
    connectionLine, header, Value.empty, Line.bytes, ending_crlf, List.flatMap_cons, List.flatMap_nil,
    List.append_assoc, List.append_nil]

theorem handshakeResponse_eq (accept : Value) :
    handshakeResponse accept.bytes = (responseLines accept).flatMap Line.bytes ++ ending true := by
  simp only [handshakeResponse, upgradeLine_eq, connectionLine_eq, responseLines, upgradeLine, connectionLine,
    header, Value.empty, Line.bytes, ending_crlf, List.flatMap_cons, List.flatMap_nil, List.append_assoc,
    List.append_nil]

theorem Call.send_whole {e : Call} {text : List UInt8} (short : text.length < 1024)
    (sent : e.sent = text.length) : e.send text = (e.sent, text) := by
  have whole := printed_take short []
  rw [List.append_nil] at whole
  unfold Call.send
  rw [whole, sent, Int.toNat_natCast, List.take_length]

/-! ## The lines of a client -/

section

variable {host key origin : Value}

theorem requestLines_upgrades : Upgrades (requestLines host key origin) where
  upgrade := ⟨ascii "websocket", by
    unfold requestLines upgradeLine
    rw [lookup_skip (by decide), lookup_skip (by decide),
      lookup_here (by decide) (by decide) (by decide) (by decide)], by decide⟩
  connection := ⟨ascii "Upgrade", by
    unfold requestLines upgradeLine connectionLine
    rw [lookup_skip (by decide), lookup_skip (by decide), lookup_skip (by decide),
      lookup_here (by decide) (by decide) (by decide) (by decide)], by decide⟩

theorem requestLines_host (short : host.bytes.length < 256) :
    lookup (requestLines host key origin) (ascii "Host") = some host.bytes := by
  unfold requestLines
  rw [lookup_skip (by decide), lookup_here (by decide) (by decide) (by decide) short]

theorem requestLines_key (short : key.bytes.length < 256) :
    lookup (requestLines host key origin) (ascii "Sec-WebSocket-Key") = some key.bytes := by
  unfold requestLines upgradeLine connectionLine
  rw [lookup_skip (by decide), lookup_skip (by decide), lookup_skip (by decide), lookup_skip (by decide),
    lookup_here (by decide) (by decide) (by decide) short]

theorem requestLines_version :
    lookup (requestLines host key origin) (ascii "Sec-WebSocket-Version") = some (ascii "13") := by
  unfold requestLines upgradeLine connectionLine
  rw [lookup_skip (by decide), lookup_skip (by decide), lookup_skip (by decide), lookup_skip (by decide),
    lookup_skip (by decide), lookup_skip (by decide),
    lookup_here (by decide) (by decide) (by decide) (by decide)]

theorem requestLines_block
    (fits : ((requestLines host key origin).flatMap Line.bytes ++ ending true).length < readSize)
    (short : key.bytes.length < 256) : Block (requestLines host key origin) true [] where
  few := (by decide : 7 ≤ maxHeader)
  some := List.cons_ne_nil _ _
  fits := by
    rw [List.append_nil]
    exact fits
  length := by
    unfold requestLines upgradeLine connectionLine
    repeat rw [firstNamed_skip (by decide)]
    rfl
  coding := by
    unfold requestLines upgradeLine connectionLine
    repeat rw [firstNamed_skip (by decide)]
    rfl
  key := .inl (by rw [requestLines_key short]; rfl)

end

/-! ## The lines of a server -/

section

variable {accept : Value}

theorem responseLines_upgrades : Upgrades (responseLines accept) where
  upgrade := ⟨ascii "websocket", by
    unfold responseLines upgradeLine
    rw [lookup_skip (by decide), lookup_here (by decide) (by decide) (by decide) (by decide)], by decide⟩
  connection := ⟨ascii "Upgrade", by
    unfold responseLines upgradeLine connectionLine
    rw [lookup_skip (by decide), lookup_skip (by decide),
      lookup_here (by decide) (by decide) (by decide) (by decide)], by decide⟩

theorem responseLines_accept (short : accept.bytes.length < 256) :
    lookup (responseLines accept) (ascii "Sec-WebSocket-Accept") = some accept.bytes := by
  unfold responseLines upgradeLine connectionLine
  rw [lookup_skip (by decide), lookup_skip (by decide), lookup_skip (by decide),
    lookup_here (by decide) (by decide) (by decide) short]

theorem responseLines_block
    (fits : ((responseLines accept).flatMap Line.bytes ++ ending true ++ trailing).length < readSize)
    (short : accept.bytes.length < 256) : Block (responseLines accept) true trailing where
  few := (by decide : 4 ≤ maxHeader)
  some := List.cons_ne_nil _ _
  fits := fits
  length := by
    unfold responseLines upgradeLine connectionLine
    repeat rw [firstNamed_skip (by decide)]
    rfl
  coding := by
    unfold responseLines upgradeLine connectionLine
    repeat rw [firstNamed_skip (by decide)]
    rfl
  key := .inr (by rw [responseLines_accept short]; rfl)

theorem headerEnd_res (f : Fsm) : f.headerEnd.res = f.putrc.res := by
  unfold Fsm.headerEnd
  dsimp only
  repeat' split
  all_goals rfl

theorem rcFrom_switching {g : Fsm} (long : 12 ≤ g.hl 0) (more : List UInt8) :
    g.rcFrom (32 :: 49 :: 48 :: 49 :: 32 :: more) = 101 := by
  have code : atoi [49, 48, 49] 256 = some 101 := by decide
  have skip : skipTo (g.hl 0) 8 (32 :: 49 :: 48 :: 49 :: 32 :: more) =
      some (9, 49 :: 48 :: 49 :: 32 :: more) := by
    rw [skipTo, if_neg (by decide), List.headD_cons, if_pos (by decide)]
  have token : tokenFrom (g.hl 0) 9 [] (49 :: 48 :: 49 :: 32 :: more) = some [49, 48, 49] := by
    rw [tokenFrom, if_neg (by decide), if_neg (by simp; omega), tokenFrom, if_neg (by decide),
      if_neg (by simp; omega), tokenFrom, if_neg (by decide), if_neg (by simp; omega), tokenFrom,
      if_pos (.inr rfl)]
    rfl
  unfold Fsm.rcFrom
  rw [skip]
  dsimp only
  rw [token]
  dsimp only
  rw [code]
  rfl

/-- The status line of the response. -/
theorem responseLines_res (block : Block (responseLines accept) true trailing) (f : Fsm) :
    ((f.reset readSize).acceptAll ((responseLines accept).flatMap Line.bytes ++ ending true)).res = 101 := by
  have holds := (block.heads f).1.holds.pushAll (gap true)
  rw [block.ended f, headerEnd_res]
  generalize ((f.reset readSize).acceptAll ((responseLines accept).flatMap Line.bytes)).pushAll (gap true) = g
    at holds
  obtain ⟨length, rest, text⟩ := holds.texts 0 _ rfl
  have hl : g.hl 0 = 32 := length
  have begins : ascii "HTTP/1.1 101 Switching Protocols" =
      ascii "HTTP/" ++ ascii "1.1" ++ 32 :: 49 :: 48 :: 49 :: 32 :: ascii "Switching Protocols" := by decide
  have behind : g.stringAt (g.hd 0 + 5) =
      ascii "1.1" ++ 32 :: 49 :: 48 :: 49 :: 32 :: (ascii "Switching Protocols" ++ 0 :: rest) := by
    unfold Fsm.stringAt
    rw [← List.drop_drop, text]
    change (ascii "HTTP/1.1 101 Switching Protocols" ++ [] ++ 0 :: rest).drop 5 = _
    rw [begins, List.append_nil, List.append_assoc, List.append_assoc]
    exact List.drop_left' (by decide)
  have version : (ascii "1.1" ++ 32 :: 49 :: 48 :: 49 :: 32 :: (ascii "Switching Protocols" ++ 0 :: rest)).take 3 =
      ascii "1.1" := List.take_left' (by decide)
  have status : (ascii "1.1" ++ 32 :: 49 :: 48 :: 49 :: 32 :: (ascii "Switching Protocols" ++ 0 :: rest)).drop 3 =
      32 :: 49 :: 48 :: 49 :: 32 :: (ascii "Switching Protocols" ++ 0 :: rest) := List.drop_left' (by decide)
  unfold Fsm.putrc
  dsimp only
  rw [behind, if_pos version, status, rcFrom_switching (by omega)]
  rfl

end

/-! ## An upgrade -/

/-- The `Origin` that a client gives is cut with its array. -/
def originOf (host : Value) : Value where
  bytes := cstr (printed 256 (ascii "http://" ++ host.bytes))
  zero := cstr_plain _
  inside member := by
    have within : lf ∈ (ascii "http://" ++ host.bytes).take 255 ++ [0] :=
      List.takeWhile_subset _ member
    rcases List.mem_append.mp within with text | terminator
    · rcases List.mem_append.mp (List.take_subset _ _ text) with front | behind
      · exact absurd front (by decide)
      · exact host.inside behind
    · exact absurd terminator (by decide)
  front := rfl

/-- What `m_key_ptr` holds. -/
abbrev Key : Type := { key : List UInt8 // key.length = 16 }

theorem Key.short (key : Key) : key.1.length < 54 := by
  rw [key.2]
  decide

def keyOf (key : Key) : Value := code key.1 key.short

theorem hash_short (message : List UInt8) : (Sha1.Standard.hash message).length < 54 := by
  rw [Sha1.Standard.hash_length]
  decide

def acceptOf (key : Key) : Value :=
  code (Sha1.Standard.hash ((keyOf key).bytes ++ salt)) (hash_short _)

def requestOf (host : Value) (key : Key) : List UInt8 :=
  handshakeRequest host.bytes (keyOf key).bytes (originOf host).bytes

def responseOf (key : Key) : List UInt8 := handshakeResponse (acceptOf key).bytes

theorem keyOf_length (key : Key) : (keyOf key).bytes.length = 24 := by
  have length : (keyOf key).bytes.length = 4 * ((key.1.length + 2) / 3) := code_length key.short
  rw [length, key.2]

theorem acceptOf_length (key : Key) : (acceptOf key).bytes.length = 28 := by
  have length : (acceptOf key).bytes.length = 4 * (((Sha1.Standard.hash _).length + 2) / 3) :=
    code_length (hash_short _)
  rw [length, Sha1.Standard.hash_length]

theorem responseOf_length (key : Key) : (responseOf key).length = 129 := by
  unfold responseOf handshakeResponse
  repeat rw [List.length_append]
  rw [acceptOf_length]
  rfl

theorem generateAcceptKey_keyOf (around : Around) (key : Key) :
    generateAcceptKey around (keyOf key).bytes = (acceptOf key).bytes :=
  generateAcceptKey_eq around (by rw [keyOf_length]; decide)

/-- The code of a key is decoded to the key. -/
theorem decode_keyOf (beyond : Int8) (key : Key) :
    (Base64.decode beyond (keyOf key).bytes fun _ => 0).1 = 16 ∧
      load (Base64.decode beyond (keyOf key).bytes fun _ => 0).2 0 16 = key.1 := by
  have same : (keyOf key).bytes.filter (Base64.Taken beyond) =
      (Base64.encode key.1).filter (Base64.Taken beyond) := by
    have terminator : [(0 : UInt8)].filter (Base64.Taken beyond) = [] := by
      rw [List.filter_cons_of_neg (by rw [(Base64.not_taken beyond).2.2]; exact Bool.false_ne_true)]
      rfl
    rw [(cstr_encode key.short).1, List.filter_append, terminator, List.append_nil]
    rfl
  have decoded := Base64.decode_encode beyond key.1 (fun _ => 0) same
  generalize Base64.decode beyond (keyOf key).bytes (fun _ => 0) = result at decoded
  obtain ⟨n, vbuf⟩ := result
  obtain ⟨length, bytes, -⟩ := decoded
  obtain rfl : n = 16 := length.trans key.2
  exact ⟨rfl, bytes⟩

theorem requestLines_serves (around : Around) {host : Value} (key : Key) (short : host.bytes.length < 256) :
    Serves around (requestLines host (keyOf key) (originOf host)) (keyOf key).bytes where
  upgrades := requestLines_upgrades
  host := by rw [requestLines_host short]; rfl
  key := requestLines_key (by rw [keyOf_length]; decide)
  sixteen := (decode_keyOf around.table key).1
  version := ⟨_, requestLines_version, by decide⟩

theorem responseLines_answers (around : Around) (key : Key) :
    Answers around (responseLines (acceptOf key)) key.1 where
  upgrades := responseLines_upgrades
  accept := by
    rw [responseLines_accept (by rw [acceptOf_length]; decide)]
    exact congrArg some (generateAcceptKey_keyOf around key).symm

/-- The request of a client. -/
theorem handshake_request (around : Around) (f : Fsm) (host : Value) {key : Key} {e : Call}
    (random : e.rand = key.1) (writable : e.w = true) (sent : e.sent = (requestOf host key).length)
    (fits : (requestOf host key).length < readSize) :
    (Peer.reset f host.bytes .clientHandshake).handshake around e =
      (⟨.clientHandshake2, f.reset readSize, key.1, host.bytes⟩, .again, requestOf host key) := by
  have some : ¬ e.sent < 0 := by omega
  have whole := Call.send_whole (fits.trans (by decide)) sent
  unfold Peer.handshake
  dsimp only [Peer.reset]
  have text : e.send (handshakeRequest host.bytes (cstr (Base64.encode key.1))
      (cstr (printed 256 (ascii "http://" ++ host.bytes)))) =
      (e.sent, requestOf host key) := whole
  rw [random, if_neg (not_not.mpr writable), text]
  exact if_neg some

/-- A server answers the request with the hash of its key. -/
theorem request_served (around : Around) (f : Fsm) (host : List UInt8) {host' : Value} {key : Key}
    (short : host'.bytes.length < 256) (fits : (requestOf host' key).length < readSize) {calls : List Call} (reads : ∀ e ∈ calls, e.Reads)
    (sent : ∀ e ∈ calls, e.sent = (responseOf key).length) (room : (responseOf key).length < 1024)
    (bytes : calls.flatMap Call.bytes = requestOf host' key) :
    let (server, result, out, left) := (Peer.reset f host .serverHandshake).shake around calls
    result = .ok ∧ server.state = .established ∧ server.key = key.1 ∧ Waits server.sm [] ∧
      out = responseOf key ∧ left.flatMap Call.bytes = [] := by
  rw [requestOf, handshakeRequest_eq] at bytes fits
  have block := requestLines_block fits (by rw [keyOf_length]; decide)
  have serves := requestLines_serves around key short
  obtain ⟨e, member, g, t, rest, behind, waits, holds, -, shaken⟩ :=
    block.shake around f (c := Peer.reset f host .serverHandshake) (.inr rfl) rfl reads (by
      rw [List.append_nil]
      exact bytes)
  obtain ⟨rfl, none⟩ := List.nil_eq_append_iff.mp behind
  have some : ¬ e.sent < 0 := by
    rw [sent e member]
    exact not_lt.mpr (Int.natCast_nonneg _)
  have established := establish_served (c := { Peer.reset f host .serverHandshake with sm := g }) rfl holds serves e
  have said : (e.send (responseOf key)).2 = responseOf key := by rw [Call.send_whole room (sent e member)]
  rw [shaken, established]
  dsimp only
  rw [if_neg some, generateAcceptKey_keyOf around key]
  exact ⟨rfl, rfl, (decode_keyOf around.table key).2, waits, said, none⟩

/-- A client takes the answer to its key, and keeps what comes behind it. -/
theorem response_taken (around : Around) (f : Fsm) {c : Peer} (client : c.state = .clientHandshake2)
    (fresh : c.sm = f.reset readSize) {key : Key} (own : c.key = key.1)
    (fits : (responseOf key ++ trailing).length < readSize) {calls : List Call}
    (reads : ∀ e ∈ calls, e.Reads) (bytes : calls.flatMap Call.bytes = responseOf key ++ trailing) :
    let (c', result, _, left) := c.shake around calls
    result = .ok ∧ c'.state = .established ∧ c'.key = key.1 ∧
      ∃ t, Waits c'.sm t ∧ trailing = t ++ left.flatMap Call.bytes := by
  rw [responseOf, handshakeResponse_eq] at bytes fits
  have block := responseLines_block fits (by rw [acceptOf_length]; decide)
  obtain ⟨e, -, g, t, rest, behind, waits, holds, res, shaken⟩ :=
    block.shake around f (.inl client) fresh reads bytes
  have checked : ({ c with sm := g } : Peer).verifyHandshake around = true :=
    (verify_client (c := { c with sm := g }) client holds).mpr
      ⟨res.trans (responseLines_res block f), own ▸ responseLines_answers around key⟩
  have other : c.state ≠ .serverHandshake := by
    rw [client]
    decide
  rw [shaken]
  unfold Peer.establish
  rw [if_neg (not_not.mpr checked), if_neg other]
  exact ⟨rfl, rfl, own, t, waits, behind⟩

/-- The server has answered with the hash of the key, both sides are established with it, and what
came behind the response waits for the client. -/
structure Agreed (key : Key) (trailing : List UInt8)
    (served taken : Peer × Result × List UInt8 × List Call) : Prop where
  server : served.2.1 = .ok ∧ served.1.state = .established ∧ served.1.key = key.1
  answer : served.2.2.1 = responseOf key
  empty : Waits served.1.sm [] ∧ served.2.2.2.flatMap Call.bytes = []
  client : taken.2.1 = .ok ∧ taken.1.state = .established ∧ taken.1.key = key.1
  frames : ∃ t, Waits taken.1.sm t ∧ trailing = t ++ taken.2.2.2.flatMap Call.bytes

/-- A client and a server agree: the server accepts what the client has printed and holds its key, the
client accepts the answer of the server, and what comes behind the answer is kept for frames.  The texts
may come in any pieces. -/
theorem upgrade_agrees (around around' : Around) (f f' : Fsm) (host : Value) (host' : List UInt8) (key : Key)
    {e : Call} (random : e.rand = key.1) (writable : e.w = true) (short : host.bytes.length < 256)
    (sent : e.sent = (requestOf host key).length) (fits : (requestOf host key).length < readSize)
    {calls calls' : List Call} (reads : ∀ e ∈ calls, e.Reads) (reads' : ∀ e ∈ calls', e.Reads)
    (sent' : ∀ e' ∈ calls, e'.sent = (responseOf key).length)
    (fits' : (responseOf key ++ trailing).length < readSize)
    (bytes : calls.flatMap Call.bytes = ((Peer.reset f host.bytes .clientHandshake).handshake around e).2.2)
    (bytes' : calls'.flatMap Call.bytes =
      ((Peer.reset f' host' .serverHandshake).shake around' calls).2.2.1 ++ trailing) :
    Agreed key trailing ((Peer.reset f' host' .serverHandshake).shake around' calls)
      (((Peer.reset f host.bytes .clientHandshake).handshake around e).1.shake around calls') := by
  rw [handshake_request around f host random writable sent fits] at bytes ⊢
  have room : (responseOf key).length < 1024 := by
    rw [responseOf_length]
    decide
  have served := request_served around' f' host' short fits reads sent' room bytes
  generalize (Peer.reset f' host' .serverHandshake).shake around' calls = run at served bytes' ⊢
  obtain ⟨server, result, out, left⟩ := run
  obtain ⟨done, state, kept, waits, rfl, none⟩ := served
  have taken := response_taken around f (c := ⟨.clientHandshake2, f.reset readSize, key.1, host.bytes⟩) rfl rfl
    rfl fits' reads' bytes'
  dsimp only
  generalize Peer.shake around _ calls' = run at taken ⊢
  obtain ⟨client, result', out', left'⟩ := run
  obtain ⟨done', state', kept', frames⟩ := taken
  exact ⟨⟨done, state, kept⟩, rfl, ⟨waits, none⟩, ⟨done', state', kept'⟩, frames⟩

def localhost : Value := ⟨ascii "127.0.0.1:80", by decide, by decide, by decide⟩

def zeros : Key := ⟨List.replicate 16 0, rfl⟩

def zerosCalls : List Call :=
  [Call.reading ((requestOf localhost zeros).take 40) (responseOf zeros).length,
    Call.reading ((requestOf localhost zeros).drop 40) (responseOf zeros).length]

theorem zerosCalls_reads : ∀ e ∈ zerosCalls, e.Reads := by
  have front : (requestOf localhost zeros).take 40 ≠ [] := by decide +kernel
  have behind : (requestOf localhost zeros).drop 40 ≠ [] := by decide +kernel
  exact List.forall_mem_cons.mpr
    ⟨Call.reading_reads front _, List.forall_mem_singleton.mpr (Call.reading_reads behind _)⟩

theorem zerosCalls_bytes : zerosCalls.flatMap Call.bytes = requestOf localhost zeros := by
  unfold zerosCalls
  rw [List.flatMap_cons, List.flatMap_singleton, Call.reading_bytes, Call.reading_bytes]
  exact List.take_append_drop 40 _

theorem zerosCalls_sent : ∀ e ∈ zerosCalls, e.sent = (responseOf zeros).length :=
  List.forall_mem_cons.mpr ⟨Call.reading_sent _ _, List.forall_mem_singleton.mpr (Call.reading_sent _ _)⟩

def zerosCall : Call := ⟨false, true, [], 0, (requestOf localhost zeros).length, false, zeros.1⟩

/-- Two bytes of a frame come with the response. -/
theorem upgrade_agrees_zeros :
    let served := (Peer.reset cleared [] .serverHandshake).shake ⟨0, []⟩ zerosCalls
    Agreed zeros [129, 0] served
      (((Peer.reset cleared localhost.bytes .clientHandshake).handshake ⟨0, []⟩ zerosCall).1.shake ⟨0, []⟩
        [Call.reading (served.2.2.1 ++ [129, 0]) 0]) := by
  have fits : (requestOf localhost zeros).length < readSize := by decide +kernel
  have fits' : (responseOf zeros ++ [129, 0]).length < readSize := by
    rw [List.length_append, responseOf_length]
    decide
  have call : zerosCall.rand = zeros.1 ∧ zerosCall.w = true ∧
      zerosCall.sent = (requestOf localhost zeros).length := by
    unfold zerosCall
    exact ⟨rfl, rfl, rfl⟩
  have printed := congrArg (fun run => run.2.2)
    (handshake_request ⟨0, []⟩ cleared localhost call.1 call.2.1 call.2.2 fits)
  refine upgrade_agrees ⟨0, []⟩ ⟨0, []⟩ cleared cleared localhost [] zeros call.1 call.2.1 (by decide)
    call.2.2 fits zerosCalls_reads (List.forall_mem_singleton.mpr ?_) zerosCalls_sent fits'
    (zerosCalls_bytes.trans printed.symm) ?_
  · exact Call.reading_reads (List.append_ne_nil_of_right_ne_nil _ (List.cons_ne_nil _ _)) _
  · rw [List.flatMap_singleton, Call.reading_bytes]

end Cyue.Ws.Upgrade
