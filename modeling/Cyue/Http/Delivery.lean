import Cyue.Http.Transfer
import Cyue.Http.Unframed
import Mathlib.Data.List.TakeDrop

/-!
# Messages between a sender and a receiver

What the receiver makes of the messages of `send_request_common` and
`send_result_and_body`.  Only a body that is sent as chunks is framed as its header block
says; in the other forms the body is cut off, has no frame, or is sent with a length that
is the conversion of `NO_LIMIT`.
-/

namespace Cyue.Http

open Fsm Sender

/-! ## Round trips -/

def receive (f : Fsm) (parts : List (List UInt8)) : Fsm :=
  parts.foldl (fun f part => f.append part part.length) f

/-- However the bytes arrive, a receiver with a buffer for all of them finishes with this body. -/
def Decodes (wire body : List UInt8) : Prop :=
  wire.length + 1 < 2 ^ 32 ∧
    ∀ (f : Fsm) (max : ℕ) (parts : List (List UInt8)), wire.length < max → max < 2 ^ 32 →
      parts.flatten = wire → (∀ part ∈ parts, 0 < part.length ∧ part.length < 2 ^ 31) →
        (receive (f.reset max) parts).state = .recvFinish ∧
          (receive (f.reset max) parts).body = body ∧
          (receive (f.reset max) parts).bodylen = body.length

/-- The call succeeds, some ticks release its sender, and the body comes back from the bytes. -/
def RoundTrip (t : Transport) (call : Sending ℤ) (body : List UInt8) : Prop :=
  ∃ r link n link', call .fresh = some (r, link) ∧ ticks t n link = some ((), link') ∧
    link'.sender = none ∧ Decodes link'.wire body

theorem receive_eq (f : Fsm) (parts : List (List UInt8)) :
    receive f parts = f.acceptAll parts.flatten := by
  induction parts generalizing f with
  | nil => rfl
  | cons part parts ih =>
      change receive (f.append part part.length) parts = _
      rw [ih, append_eq, List.flatten_cons, acceptAll_append]

theorem decodes_of {wire body : List UInt8} (large : wire.length + 1 < 2 ^ 32)
    (decodes : ∀ (f : Fsm) (max : ℕ), wire.length < max → max < 2 ^ 32 →
      ((f.reset max).acceptAll wire).state = .recvFinish ∧
        ((f.reset max).acceptAll wire).body = body ∧
        ((f.reset max).acceptAll wire).bodylen = body.length) : Decodes wire body := by
  refine ⟨large, ?_⟩
  intro f max parts fits small whole _
  rw [receive_eq, whole]
  exact decodes f max fits small

/-- Byte after byte. -/
theorem Decodes.accepts {wire body : List UInt8} (decodes : Decodes wire body) (f : Fsm) {max : ℕ}
    (fits : wire.length < max) (small : max < 2 ^ 32) :
    ((f.reset max).acceptAll wire).state = .recvFinish ∧
      ((f.reset max).acceptAll wire).body = body ∧
      ((f.reset max).acceptAll wire).bodylen = body.length := by
  have whole : (wire.map fun c => [c]).flatten = wire := by
    rw [List.flatten_eq_flatMap, List.flatMap_map]
    exact List.flatMap_singleton' wire
  have parts := decodes.2 f max (wire.map fun c => [c]) fits small whole
  rw [receive_eq, whole] at parts
  apply parts
  intro part mem
  obtain ⟨c, _, rfl⟩ := List.mem_map.mp mem
  exact ⟨Nat.one_pos, (by decide : 1 < 2 ^ 31)⟩

/-- Some buffer is large enough. -/
theorem Decodes.buffer {wire body : List UInt8} (decodes : Decodes wire body) :
    ∃ max, wire.length < max ∧ max < 2 ^ 32 :=
  ⟨_, Nat.lt_succ_self _, decodes.1⟩

theorem Decodes.unique {wire body body' : List UInt8} (first : Decodes wire body)
    (second : Decodes wire body') : body = body' := by
  obtain ⟨max, fits, small⟩ := first.buffer
  obtain ⟨_, one, _⟩ := first.accepts cleared fits small
  obtain ⟨_, other, _⟩ := second.accepts cleared fits small
  exact one.symm.trans other

theorem ticks_add (t : Transport) (n m : ℕ) {link link' : Link} (first : ticks t n link = some ((), link')) :
    ticks t (n + m) link = ticks t m link' := by
  induction n generalizing link with
  | zero =>
      obtain rfl := (Prod.mk.inj (Option.some.inj first)).2
      rw [Nat.zero_add]
  | succ n ih =>
      obtain ⟨⟨_, middle⟩, task, rest⟩ := Option.bind_eq_some_iff.mp first
      rw [Nat.add_right_comm, ticks_succ task]
      exact ih rest

/-- All ticks that release a sender leave the same bytes. -/
theorem ticks_unique {t : Transport} {n m : ℕ} {link a b : Link} (left : ticks t n link = some ((), a))
    (released : a.sender = none) (right : ticks t m link = some ((), b)) (released' : b.sender = none) :
    a = b := by
  have one : ticks t (n + m) link = some ((), a) :=
    (ticks_add t n m left).trans (ticks_none t released m)
  have other : ticks t (m + n) link = some ((), b) :=
    (ticks_add t m n right).trans (ticks_none t released' n)
  rw [Nat.add_comm] at one
  exact (Prod.mk.inj (Option.some.inj (one.symm.trans other))).2

section
variable {t : Transport} {call : Sending ℤ} {r : ℤ} {link : Link} {body : List UInt8}

theorem roundTrip_iff (run : call .fresh = some (r, link)) :
    RoundTrip t call body ↔
      ∃ n link', ticks t n link = some ((), link') ∧ link'.sender = none ∧ Decodes link'.wire body := by
  constructor
  · rintro ⟨r', link₁, n, link', run', ticked, released, decodes⟩
    obtain ⟨_, rfl⟩ := Prod.mk.inj (Option.some.inj (run.symm.trans run'))
    exact ⟨n, link', ticked, released, decodes⟩
  · rintro ⟨n, link', ticked, released, decodes⟩
    exact ⟨r, link, n, link', run, ticked, released, decodes⟩

theorem roundTrip_released (run : call .fresh = some (r, link)) {n : ℕ} {link' : Link}
    (ticked : ticks t n link = some ((), link')) (released : link'.sender = none) :
    RoundTrip t call body ↔ Decodes link'.wire body := by
  rw [roundTrip_iff run]
  constructor
  · rintro ⟨m, other, ticked', released', decodes⟩
    rw [ticks_unique ticked released ticked' released']
    exact decodes
  · exact fun decodes => ⟨n, link', ticked, released, decodes⟩

theorem roundTrip_at_once (run : call .fresh = some (r, link)) (none : link.sender = none) :
    RoundTrip t call body ↔ Decodes link.wire body :=
  roundTrip_released run (n := 0) rfl none

theorem roundTrip_overruns (overruns : Overruns call .fresh) : ¬ RoundTrip t call body := by
  intro trip
  rcases overruns with stops | ⟨r, link, run, long, sender⟩
  · obtain ⟨_, _, _, _, run, _⟩ := trip
    exact nomatch stops.symm.trans run
  · have small := ((roundTrip_at_once run sender).mp trip).1
    omega

theorem roundTrip_waits (accepts : AcceptsAll t) (run : call .fresh = some (r, link))
    {s : BufferSendable} (waits : link.sender = some s) (none : s.remaining ≤ 0) :
    ¬ RoundTrip t call body := by
  rw [roundTrip_iff run]
  rintro ⟨n, link', ticked, released, _⟩
  obtain ⟨other, ticked', still⟩ := ticks_wait accepts link waits none n
  obtain ⟨_, rfl⟩ := Prod.mk.inj (Option.some.inj (ticked.symm.trans ticked'))
  exact nomatch released.symm.trans still

/-- The sender of a body whose length is a positive `int`. -/
theorem roundTrip_frames (accepts : AcceptsAll t) (run : call .fresh = some (r, link))
    (waits : link.sender = some (.ofBody body)) (positive : 0 < body.length % 2 ^ 32)
    (small : body.length % 2 ^ 32 < 2 ^ 31) :
    ∃ f : Framing (body.take (body.length % 2 ^ 32)),
      RoundTrip t call body ↔ Decodes (link.wire ++ f.bytes) body := by
  obtain ⟨n, link', f, ticked, released, wire⟩ :=
    ticks_frame accepts link (.ofBody body) waits (Nat.mod_le _ _) small positive rfl
  exact ⟨f, wire ▸ roundTrip_released run ticked released⟩

end

/-! ## What the receiver makes of the three forms -/

structure Header.Short (h : Header) : Prop where
  lines : ∀ l ∈ h.lines, l.text.length < 2 ^ 16
  length : h.bytes.length ≤ 2 ^ 20

theorem Header.Short.decodes_iff {h : Header} (short : h.Short) {sent : List UInt8} (f : Framing sent)
    (small : sent.length < 2 ^ 31) (body : List UInt8) :
    Decodes (h.bytes ++ f.bytes) body ↔ sent = body := by
  let m : Message := ⟨h, f.chunks, ascii "0", by decide, by decide⟩
  have bytes : m.bytes = h.bytes ++ f.bytes := rfl
  have framed : f.bytes.length = (f.chunks.flatMap Chunk.bytes).length + 5 := List.length_append
  have decodes : Decodes (h.bytes ++ f.bytes) sent := by
    apply decodes_of
    · have length := f.length
      have header := short.length
      rw [List.length_append, framed]
      omega
    · intro g max fits large
      have done := m.decoded g fits large short.lines
        fun c mem => (Nat.add_le_add_right (f.short c mem) 2).trans_lt (by decide)
      have whole : m.body = sent := f.whole
      rw [bytes, whole] at done
      exact done
  constructor
  · exact fun given => decodes.unique given
  · rintro rfl
    exact decodes

/-- A body whose length is kept in 32 bits. -/
theorem Header.Short.decodes_body {h : Header} (short : h.Short) {body : List UInt8}
    (f : Framing (body.take (body.length % 2 ^ 32))) (small : body.length % 2 ^ 32 < 2 ^ 31) :
    Decodes (h.bytes ++ f.bytes) body ↔ body.length < 2 ^ 32 := by
  rw [short.decodes_iff f (by rw [List.length_take]; omega), List.take_eq_self_iff]
  omega

theorem Header.Short.decodes_empty {h : Header} (short : h.Short) :
    Decodes (h.bytes ++ (ending true ++ ending true)) [] := by
  have header := short.length
  have length : (h.bytes ++ (ending true ++ ending true)).length = h.bytes.length + 4 :=
    List.length_append
  apply decodes_of (by omega)
  intro f max fits small
  rw [length] at fits
  obtain ⟨sizes, _, room⟩ := h.read f (room_reset f fits small) short.lines
  rw [acceptAll_append]
  exact @Sizes.finish _ [] [] sizes rfl room

/-- A body that is sent without a size in front of it. -/
theorem Header.Short.not_decodes {h : Header} (short : h.Short) {sent body : List UInt8}
    (some : 0 < sent.length) (few : sent.length ≤ 1024) (cut : sent.length ≤ body.length) :
    ¬ Decodes (h.bytes ++ (sent ++ (ending true ++ ending true))) body := by
  intro decodes
  obtain ⟨max, fits, small⟩ := decodes.buffer
  obtain ⟨finish, _, bodylen⟩ := decodes.accepts cleared fits small
  have room := room_reset cleared fits small
  rw [@List.length_append _ h.bytes] at room
  obtain ⟨sizes, ends, _⟩ := h.read cleared room short.lines
  have total : (sent ++ (ending true ++ ending true)).length = sent.length + 4 := List.length_append
  rw [acceptAll_append] at finish bodylen
  rcases sizes.unframed ends (by omega) finish with zero | less
  · omega
  · omega

/-- A header block that announces no body leaves an earlier one. -/
theorem not_decodes_plain {lines : List Line} (some : lines ≠ []) (few : lines.length ≤ maxHeader)
    (short : ∀ l ∈ lines, l.text.length < 2 ^ 16)
    (others : ∀ l ∈ lines,
      ¬ Named (ascii "Content-Length") l.text ∧ ¬ Named (ascii "Transfer-Encoding") l.text)
    (rest body : List UInt8) :
    ¬ Decodes (lines.flatMap Line.bytes ++ (ending true ++ rest)) body := by
  intro decodes
  let f : Fsm := { cleared with bl := body.length + 1 }
  obtain ⟨max, fits, small⟩ := decodes.buffer
  obtain ⟨finish, _, bodylen⟩ := decodes.accepts f fits small
  have room := room_reset f fits small
  rw [@List.length_append _ (lines.flatMap Line.bytes)] at room
  obtain ⟨heads, room, same⟩ := (heads_reset f max).lines few room short
  have left := heads.bodyless (heads.holds.p_ne_nil some)
    (room.less (by rw [List.length_append]; exact Nat.le_add_right _ _)) others
  rw [acceptAll_append, acceptAll_append] at finish bodylen
  have stale : _ = body.length + 1 := ((left.acceptAll rest).bodylen finish).trans same
  exact Nat.succ_ne_self _ (stale.symm.trans bodylen)

/-! ## Requests -/

structure Plain (text : List UInt8) : Prop where
  nonempty : text ≠ []
  inside : lf ∉ text
  others : ¬ Named (ascii "Content-Length") text ∧ ¬ Named (ascii "Transfer-Encoding") text

def lineOf (text : List UInt8) (plain : Plain text) : Line :=
  ⟨text, true, plain.nonempty, plain.inside, nofun⟩

def linesOf (texts : List (List UInt8)) (plain : ∀ text ∈ texts, Plain text) : List Line :=
  texts.pmap lineOf plain

theorem linesOf_bytes (texts : List (List UInt8)) (plain : ∀ text ∈ texts, Plain text) :
    (linesOf texts plain).flatMap Line.bytes = texts.flatMap (· ++ crlf) := by
  induction texts with
  | nil => rfl
  | cons text texts ih =>
      exact congrArg (text ++ crlf ++ ·) (ih fun text mem => plain text (List.mem_cons_of_mem _ mem))

theorem mem_linesOf {texts : List (List UInt8)} {plain : ∀ text ∈ texts, Plain text} {l : Line}
    (mem : l ∈ linesOf texts plain) : l.text ∈ texts ∧ Plain l.text := by
  obtain ⟨text, inside, rfl⟩ := List.mem_pmap.mp mem
  exact ⟨inside, plain text inside⟩

theorem length_linesOf (texts : List (List UInt8)) (plain : ∀ text ∈ texts, Plain text) :
    (linesOf texts plain).length = texts.length :=
  List.length_pmap ..

/-- What a caller of `send_request_common` gives besides the body: a url with a path, and headers
that fit the arrays of the sender and announce no body themselves. -/
structure Request where
  method : List UInt8
  url : List UInt8
  fields : List (List UInt8 × List UInt8)
  host : List UInt8
  port : ℕ
  path : List UInt8
  parsed : parseUrl 1024 url = .parsed host port path
  first : Plain (requestLines method host port path).1
  second : Plain (requestLines method host port path).2
  plain : ∀ text ∈ fields.map fieldLine, Plain text
  fits : ((requestLines method host port path).1 ++ crlf ++
    ((requestLines method host port path).2 ++ crlf)).length < 1024
  fit : ∀ field ∈ fields, (fieldBytes field).length < 4095
  few : fields.length + 3 ≤ maxHeader

theorem chunkedLine_named : Named (ascii "Transfer-Encoding") chunkedLine := rfl

namespace Request

variable (r : Request)

def send (t : Transport) (body : List UInt8) (chunked : Bool) : Sending ℤ :=
  sendRequestCommon t r.method r.url (some (.ofBody body)) r.fields chunked

def bytes (chunked : Bool) : List UInt8 :=
  requestBytes r.method r.host r.port r.path r.fields chunked

def before : List Line :=
  [lineOf _ r.first, lineOf _ r.second]

def after : List Line := linesOf (r.fields.map fieldLine) r.plain

theorem plain_lines {l : Line} (mem : l ∈ r.before ++ r.after) : Plain l.text := by
  rcases List.mem_append.mp mem with mem | mem
  · rcases List.mem_cons.mp mem with rfl | mem
    · exact r.first
    · obtain rfl := List.mem_singleton.mp mem
      exact r.second
  · exact (mem_linesOf mem).2

theorem length_after : r.after.length = r.fields.length :=
  (length_linesOf ..).trans (List.length_map _)

theorem after_bytes : r.after.flatMap Line.bytes = r.fields.flatMap fieldBytes :=
  (linesOf_bytes ..).trans (List.flatMap_map ..)

def header : Header where
  before := r.before
  line := ⟨chunkedLine, true, by decide, by decide, nofun⟩
  after := r.after
  name := ascii "Transfer-Encoding"
  spaces := 1
  crlf := true
  few := by
    rw [List.length_append, List.length_cons, length_after]
    have few := r.few
    change 2 + (r.fields.length + 1) ≤ maxHeader
    omega
  named := chunkedLine_named
  chunked := rfl
  others := fun _ mem => (r.plain_lines mem).others

def firstBytes : List UInt8 :=
  (requestLines r.method r.host r.port r.path).1 ++ crlf ++
    ((requestLines r.method r.host r.port r.path).2 ++ crlf)

theorem before_bytes : r.before.flatMap Line.bytes = r.firstBytes :=
  congrArg (_ ++ crlf ++ ·) (List.append_nil _)

theorem header_bytes : r.header.bytes = r.bytes true := by
  have lines : r.header.lines.flatMap Line.bytes =
      r.firstBytes ++ (chunkedLine ++ crlf ++ r.fields.flatMap fieldBytes) := by
    rw [Header.lines, List.flatMap_append, List.flatMap_cons]
    exact congr (congrArg (· ++ ·) r.before_bytes) (congrArg (chunkedLine ++ crlf ++ ·) r.after_bytes)
  rw [Header.bytes, lines, List.append_assoc]
  rfl

theorem plain_bytes : (r.before ++ r.after).flatMap Line.bytes ++ ending true = r.bytes false := by
  rw [List.flatMap_append, r.before_bytes, r.after_bytes, List.append_assoc]
  rfl

theorem length_text {l : Line} (mem : l ∈ r.before ++ r.after) : l.text.length < 4095 := by
  have fits := r.fits
  rw [List.length_append, List.length_append, List.length_append] at fits
  rcases List.mem_append.mp mem with mem | mem
  · rcases List.mem_cons.mp mem with rfl | mem
    · change (requestLines r.method r.host r.port r.path).1.length < 4095
      omega
    · obtain rfl := List.mem_singleton.mp mem
      change (requestLines r.method r.host r.port r.path).2.length < 4095
      omega
  · obtain ⟨field, inside, same⟩ := List.mem_map.mp (mem_linesOf mem).1
    have fit := r.fit field inside
    rw [fieldBytes, same, List.length_append] at fit
    exact lt_of_le_of_lt (Nat.le_add_right _ _) fit

theorem length_fields {fields : List (List UInt8 × List UInt8)}
    (fit : ∀ field ∈ fields, (fieldBytes field).length < 4095) :
    (fields.flatMap fieldBytes).length ≤ fields.length * 4095 := by
  induction fields with
  | nil => exact le_rfl
  | cons field fields ih =>
      have first := fit field (List.mem_cons_self ..)
      have rest := ih fun field mem => fit field (List.mem_cons_of_mem _ mem)
      rw [List.flatMap_cons, List.length_append, List.length_cons]
      omega

theorem header_short : r.header.Short where
  lines := by
    intro l mem
    rcases List.mem_append.mp mem with mem | mem
    · exact (r.length_text (List.mem_append_left _ mem)).trans (by decide)
    · rcases List.mem_cons.mp mem with rfl | mem
      · exact (by decide : chunkedLine.length < 2 ^ 16)
      · exact (r.length_text (List.mem_append_right _ mem)).trans (by decide)
  length := by
    have fits := r.fits
    have fields := length_fields r.fit
    have few := r.few
    unfold maxHeader at few
    rw [header_bytes, bytes, requestBytes]
    change (r.firstBytes ++ (chunkedLine ++ crlf ++ r.fields.flatMap fieldBytes ++ crlf)).length ≤ _
    change r.firstBytes.length < 1024 at fits
    rw [List.length_append, List.length_append, List.length_append]
    change r.firstBytes.length + (28 + (r.fields.flatMap fieldBytes).length + 2) ≤ 2 ^ 20
    omega

/-- Without `chunked` no body comes back. -/
theorem not_decodes (rest body : List UInt8) : ¬ Decodes (r.bytes false ++ rest) body := by
  rw [← plain_bytes, List.append_assoc]
  apply not_decodes_plain
  · exact List.append_ne_nil_of_left_ne_nil
      (List.cons_ne_nil (lineOf _ r.first) [lineOf _ r.second]) r.after
  · have few := r.few
    rw [List.length_append, length_after]
    change 2 + r.fields.length ≤ maxHeader
    omega
  · exact fun l mem => (r.length_text mem).trans (by decide)
  · exact fun l mem => (r.plain_lines mem).others

theorem send_head {t : Transport} (accepts : AcceptsAll t) (body : List UInt8) (chunked : Bool) :
    ∃ len calls, r.send t body chunked .fresh =
      sendRequestBody t len (.ofBody body) chunked ⟨r.bytes chunked, calls, false, none⟩ := by
  obtain ⟨len, calls, _, run⟩ := sendRequestCommon_head accepts r.parsed r.fits r.fit
    (.ofBody body) chunked .fresh
  exact ⟨len, calls, run⟩

theorem remaining_ofBody {body : List UInt8} (small : body.length % 2 ^ 32 < 2 ^ 31) :
    (BufferSendable.ofBody body).remaining = (body.length % 2 ^ 32 : ℕ) :=
  BufferSendable.remaining_eq (Nat.zero_le _) small

theorem remaining_negative {body : List UInt8} (large : 2 ^ 31 ≤ body.length % 2 ^ 32) :
    (BufferSendable.ofBody body).remaining < 0 := by
  change int32 (((body.length % 2 ^ 32 : ℕ) : ℤ) - (0 : ℕ)) < 0
  have below := Nat.mod_lt body.length (by decide : 2 ^ 32 > 0)
  have wraps : (((body.length % 2 ^ 32 : ℕ) : ℤ) - (0 : ℕ)) =
      ((body.length % 2 ^ 32 : ℕ) : ℤ) - 2 ^ 32 + (2 ^ 32 : ℕ) * 1 := by omega
  unfold int32
  rw [wraps, Int.add_mul_bmod_self_left]
  change int32 _ < 0
  rw [int32_of_small (by omega) (by omega)]
  omega

/-- A body of more than `CHUNK_SIZE` bytes that may be sent as chunks. -/
theorem roundTrip_large {t : Transport} (accepts : AcceptsAll t) {body : List UInt8}
    (large : 1024 < body.length % 2 ^ 32) (small : body.length % 2 ^ 32 < 2 ^ 31) :
    RoundTrip t (r.send t body true) body ↔ body.length < 2 ^ 32 := by
  obtain ⟨len, calls, run⟩ := r.send_head accepts body true
  have above : Sender.chunkSize < (BufferSendable.ofBody body).remaining := by
    rw [remaining_ofBody small]
    exact Int.ofNat_lt.mpr large
  rw [sendRequestBody_chunks t len above] at run
  obtain ⟨f, trip⟩ := @roundTrip_frames t _ _ _ body accepts run rfl (by omega) small
  rw [trip]
  change Decodes (r.bytes true ++ f.bytes) body ↔ _
  rw [← header_bytes]
  exact r.header_short.decodes_body f small

theorem roundTrip_raw {t : Transport} (accepts : AcceptsAll t) {body : List UInt8} {chunked : Bool}
    (small : body.length % 2 ^ 32 < 2 ^ 31) (raw : ¬ (chunked ∧ 1024 < body.length % 2 ^ 32)) :
    RoundTrip t (r.send t body chunked) body ↔
      Decodes (r.bytes chunked ++ (body.take (min (body.length % 2 ^ 32) 1024) ++ (crlf ++ crlf)))
        body := by
  obtain ⟨len, calls, run⟩ := r.send_head accepts body chunked
  obtain ⟨result, sends⟩ := sendRequestBody_raw accepts len (Nat.mod_le _ _) small raw
  obtain ⟨calls', sent⟩ := sends ⟨r.bytes chunked, calls, false, none⟩
  exact roundTrip_at_once (run.trans sent) rfl

theorem roundTrip_negative {t : Transport} (accepts : AcceptsAll t) {body : List UInt8} (chunked : Bool)
    (large : 2 ^ 31 ≤ body.length % 2 ^ 32) : ¬ RoundTrip t (r.send t body chunked) body := by
  obtain ⟨len, calls, run⟩ := r.send_head accepts body chunked
  apply roundTrip_overruns
  unfold Overruns
  rw [run]
  exact sendRequestBody_overruns accepts len (remaining_negative large) chunked _

/-- A small body under `Transfer-Encoding: chunked`, without a frame. -/
theorem roundTrip_small {t : Transport} (accepts : AcceptsAll t) {body : List UInt8}
    (small : body.length % 2 ^ 32 ≤ 1024) : RoundTrip t (r.send t body true) body ↔ body = [] := by
  rw [r.roundTrip_raw accepts (small.trans_lt (by decide)) fun both => absurd both.2 (not_lt.mpr small),
    min_eq_left small, ← header_bytes]
  constructor
  · intro decodes
    have le := Nat.mod_le body.length (2 ^ 32)
    have length : (body.take (body.length % 2 ^ 32)).length = body.length % 2 ^ 32 := by
      rw [List.length_take]
      exact min_eq_left le
    by_contra some
    have positive := List.length_pos_iff.mpr some
    rcases Nat.eq_zero_or_pos (body.length % 2 ^ 32) with zero | more
    · rw [zero, List.take_zero, List.nil_append] at decodes
      exact some (decodes.unique r.header_short.decodes_empty)
    · exact r.header_short.not_decodes (by omega) (by omega) (by omega) decodes
  · rintro rfl
    exact r.header_short.decodes_empty

theorem roundTrip_iff {t : Transport} (accepts : AcceptsAll t) (body : List UInt8) (chunked : Bool) :
    RoundTrip t (r.send t body chunked) body ↔
      chunked = true ∧ (body = [] ∨ (1024 < body.length ∧ body.length < 2 ^ 31)) := by
  have empty : body = [] ↔ body.length = 0 := List.length_eq_zero_iff.symm
  cases chunked with
  | false =>
      refine iff_of_false ?_ fun both => Bool.false_ne_true both.1
      rcases Nat.lt_or_ge (body.length % 2 ^ 32) (2 ^ 31) with small | large
      · rw [r.roundTrip_raw accepts small fun both => Bool.false_ne_true both.1]
        exact r.not_decodes _ body
      · exact r.roundTrip_negative accepts false large
  | true =>
      rw [and_iff_right rfl, empty]
      rcases Nat.lt_or_ge 1024 (body.length % 2 ^ 32) with more | few
      · rcases Nat.lt_or_ge (body.length % 2 ^ 32) (2 ^ 31) with small | large
        · rw [r.roundTrip_large accepts more small]
          omega
        · refine iff_of_false (r.roundTrip_negative accepts true large) ?_
          omega
      · rw [r.roundTrip_small accepts few, empty]
        omega

end Request

/-! ## Responses -/

/-- What a caller of `send_result_and_body` gives besides the body. -/
structure Reply where
  rc : UInt32
  v : UInt8
  mime : List UInt8
  inside : lf ∉ mime

theorem not_named {k c : UInt8} {key text : List UInt8} (letters : tolower c ≠ tolower k) :
    ¬ Named (k :: key) (c :: text) :=
  fun named => letters (List.cons.inj named).1

theorem lf_not_mem_digits (n : ℕ) : lf ∉ digits 10 n := by
  intro mem
  obtain ⟨c, inside, same⟩ := List.mem_map.mp mem
  have digit : c.isDigit = true := Nat.isDigit_of_mem_toDigits (by decide) (by decide) inside
  obtain ⟨low, high⟩ := Bool.and_eq_true_iff.mp digit
  have low : 48 ≤ c.toNat := UInt32.le_iff_toNat_le.mp (of_decide_eq_true low)
  have high : c.toNat ≤ 57 := UInt32.le_iff_toNat_le.mp (of_decide_eq_true high)
  have value := congrArg UInt8.toNat same
  rw [UInt8.toNat_ofNat'] at value
  change c.toNat % 256 = 10 at value
  omega

theorem lf_not_mem_digits3 (n : ℕ) : lf ∉ digits3 n := by
  intro mem
  rcases List.mem_append.mp mem with mem | mem
  · exact absurd (List.eq_of_mem_replicate mem) (by decide)
  · exact lf_not_mem_digits n mem

namespace Reply

variable (p : Reply)

def send (t : Transport) (body : List UInt8) : Sending ℤ :=
  sendResultAndBody t p.rc.toNat p.v.toNat (.ofBody body) p.mime

def head : List UInt8 := resultHead p.rc.toNat p.v.toNat p.mime

theorem plain_first : Plain (resultLines p.rc.toNat p.v.toNat p.mime).1 where
  nonempty := List.cons_ne_nil _ _
  inside := by
    have plain := @List.mem_append UInt8
    change lf ∉ ascii "HTTP/" ++ digits 10 (p.v.toNat / 10) ++ ascii "." ++ digits 10 (p.v.toNat % 10) ++
      ascii " " ++ digits3 p.rc.toNat
    rw [plain, plain, plain, plain, plain]
    rintro (((((mem | mem) | mem) | mem) | mem) | mem)
    · exact absurd mem (by decide)
    · exact lf_not_mem_digits _ mem
    · exact absurd mem (by decide)
    · exact lf_not_mem_digits _ mem
    · exact absurd mem (by decide)
    · exact lf_not_mem_digits3 _ mem
  others := ⟨not_named (by decide), not_named (by decide)⟩

theorem plain_type {rest : List UInt8} (inside : lf ∉ rest) : Plain (ascii "Content-Type: " ++ rest) where
  nonempty := List.cons_ne_nil _ _
  inside := fun mem => (List.mem_append.mp mem).elim (by decide) inside
  others := ⟨fun named => absurd (show (ascii "Content-Type: ").map tolower =
    (ascii "Content-Length").map tolower from named) (by decide), not_named (by decide)⟩

def header : Header where
  before := [lineOf _ p.plain_first, lineOf _ (plain_type p.inside)]
  line := ⟨chunkedLine, true, by decide, by decide, nofun⟩
  after := []
  name := ascii "Transfer-Encoding"
  spaces := 1
  crlf := true
  few := (by decide : 3 ≤ maxHeader)
  named := chunkedLine_named
  chunked := rfl
  others := by
    intro l mem
    rcases List.mem_cons.mp mem with rfl | mem
    · exact p.plain_first.others
    · obtain rfl := List.mem_singleton.mp mem
      exact (plain_type p.inside).others

theorem header_bytes : p.header.bytes = p.head ++ (chunkedLine ++ crlf ++ crlf) := by
  have lines : p.header.lines.flatMap Line.bytes = p.head ++ (chunkedLine ++ crlf) :=
    (List.append_assoc ..).symm
  rw [Header.bytes, lines, List.append_assoc]
  rfl

theorem length_head :
    p.head.length = (resultLines p.rc.toNat p.v.toNat p.mime).1.length + 2 +
      ((resultLines p.rc.toNat p.v.toNat p.mime).2.length + 2) := by
  rw [head, resultHead, List.length_append, List.length_append, List.length_append]
  rfl

theorem header_short (short : p.head.length ≤ 1024) : p.header.Short where
  lines := by
    have length := p.length_head
    intro l mem
    rcases List.mem_cons.mp mem with rfl | mem
    · change (resultLines p.rc.toNat p.v.toNat p.mime).1.length < 2 ^ 16
      omega
    · rcases List.mem_cons.mp mem with rfl | mem
      · change (resultLines p.rc.toNat p.v.toNat p.mime).2.length < 2 ^ 16
        omega
      · obtain rfl := List.mem_singleton.mp mem
        exact (by decide : chunkedLine.length < 2 ^ 16)
  length := by
    rw [header_bytes, List.length_append]
    change p.head.length + 30 ≤ 2 ^ 20
    omega

/-- A head that fills its array loses the line feed of its last line, which so becomes one line
with the header behind it. -/
theorem not_decodes_cut (full : p.head.length = 1024) (rest body : List UInt8) :
    ¬ Decodes (resultSent p.rc.toNat p.v.toNat p.mime ++ (chunkedLine ++ crlf ++ crlf) ++ rest) body := by
  have inside : lf ∉ p.mime ++ ([cr, 0] ++ chunkedLine) :=
    fun mem => (List.mem_append.mp mem).elim p.inside (by decide)
  have glued := plain_type inside
  have first : p.head =
      (resultLines p.rc.toNat p.v.toNat p.mime).1 ++ crlf ++ ((resultLines p.rc.toNat p.v.toNat p.mime).2 ++ [cr]) ++ [lf] := by
    rw [head, resultHead, List.append_assoc _ _ [lf], List.append_assoc _ [cr] [lf]]
    rfl
  have cut : p.head.dropLast =
      (resultLines p.rc.toNat p.v.toNat p.mime).1 ++ crlf ++ ((resultLines p.rc.toNat p.v.toNat p.mime).2 ++ [cr]) := by
    rw [first, List.dropLast_concat]
  have bytes : resultSent p.rc.toNat p.v.toNat p.mime ++ (chunkedLine ++ crlf ++ crlf) ++ rest =
      [lineOf _ p.plain_first, lineOf _ glued].flatMap Line.bytes ++ (ending true ++ rest) := by
    have sent : resultSent p.rc.toNat p.v.toNat p.mime = p.head.dropLast ++ [0] := resultSent_cut full
    rw [sent, cut]
    change (resultLines p.rc.toNat p.v.toNat p.mime).1 ++ crlf ++ (ascii "Content-Type: " ++ p.mime ++ [cr]) ++ [0] ++
      (chunkedLine ++ crlf ++ crlf) ++ rest =
      (resultLines p.rc.toNat p.v.toNat p.mime).1 ++ crlf ++
        (ascii "Content-Type: " ++ (p.mime ++ ([cr, 0] ++ chunkedLine)) ++ crlf ++ []) ++ (crlf ++ rest)
    simp only [List.append_assoc, List.append_nil, List.cons_append, List.nil_append]
  have length := p.length_head
  have few : [lineOf _ p.plain_first, lineOf _ glued].length ≤ maxHeader := (by decide : 2 ≤ maxHeader)
  rw [bytes]
  apply not_decodes_plain (List.cons_ne_nil _ _) few
  · intro l mem
    rcases List.mem_cons.mp mem with rfl | mem
    · change (resultLines p.rc.toNat p.v.toNat p.mime).1.length < 2 ^ 16
      omega
    · obtain rfl := List.mem_singleton.mp mem
      change (ascii "Content-Type: " ++ (p.mime ++ ([cr, 0] ++ chunkedLine))).length < 2 ^ 16
      rw [← List.append_assoc, List.length_append]
      change (resultLines p.rc.toNat p.v.toNat p.mime).2.length + 28 < 2 ^ 16
      omega
  · intro l mem
    rcases List.mem_cons.mp mem with rfl | mem
    · exact p.plain_first.others
    · obtain rfl := List.mem_singleton.mp mem
      exact glued.others

/-- The size by which the form is chosen, in an `int`. -/
def size (body : List UInt8) : ℤ :=
  resultSize p.rc.toNat p.v.toNat p.mime (BufferSendable.ofBody body).remaining

theorem roundTrip_long (t : Transport) {body : List UInt8} (long : 1024 < p.head.length) :
    ¬ RoundTrip t (p.send t body) body := by
  have run : p.send t body .fresh = some (nbrEshort, .fresh) := sendResultAndBody_short t _ long _
  rw [roundTrip_at_once run rfl]
  intro decodes
  obtain ⟨max, fits, small⟩ := decodes.buffer
  exact absurd (decodes.accepts cleared fits small).1 nofun

theorem send_form {t : Transport} (accepts : AcceptsAll t) (body : List UInt8)
    (short : p.head.length ≤ 1024) :
    ∃ calls, p.send t body .fresh =
      (if p.size body ≤ 1024 then sendWhole t p.head.length (.ofBody body)
        else sendAsChunks t p.head.length (.ofBody body))
        ⟨resultSent p.rc.toNat p.v.toNat p.mime, calls, false, none⟩ :=
  sendResultAndBody_form accepts (.ofBody body) short .fresh

theorem roundTrip_whole {t : Transport} (accepts : AcceptsAll t) {body : List UInt8}
    (short : p.head.length ≤ 1024) (small : p.size body ≤ 1024) :
    ¬ RoundTrip t (p.send t body) body := by
  obtain ⟨calls, run⟩ := p.send_form accepts body short
  rw [if_pos small] at run
  apply roundTrip_overruns
  unfold Overruns
  rw [run]
  exact sendWhole_overruns accepts _ _ _

theorem send_chunks {t : Transport} (accepts : AcceptsAll t) {body : List UInt8}
    (short : p.head.length ≤ 1024) (large : 1024 < p.size body) :
    ∃ r calls, p.send t body .fresh = some (r,
      ⟨resultSent p.rc.toNat p.v.toNat p.mime ++ (chunkedLine ++ crlf ++ crlf), calls, false,
        some (.ofBody body)⟩) := by
  obtain ⟨calls, run⟩ := p.send_form accepts body short
  rw [if_neg (Int.not_le.mpr large)] at run
  obtain ⟨r, calls', entered⟩ := sendAsChunks_enters accepts p.head.length (.ofBody body)
    ⟨resultSent p.rc.toNat p.v.toNat p.mime, calls, false, none⟩
  exact ⟨r, calls', run.trans entered⟩

theorem roundTrip_chunks {t : Transport} (accepts : AcceptsAll t) {body : List UInt8}
    (short : p.head.length ≤ 1024) (large : 1024 < p.size body)
    (positive : 0 < body.length % 2 ^ 32) (small : body.length % 2 ^ 32 < 2 ^ 31) :
    RoundTrip t (p.send t body) body ↔ p.head.length < 1024 ∧ body.length < 2 ^ 32 := by
  obtain ⟨r, calls, run⟩ := p.send_chunks accepts short large
  obtain ⟨f, trip⟩ := @roundTrip_frames t _ _ _ body accepts run rfl positive small
  rw [trip]
  rcases short.lt_or_eq with less | full
  · change Decodes (resultSent p.rc.toNat p.v.toNat p.mime ++ (chunkedLine ++ crlf ++ crlf) ++ f.bytes) body ↔ _
    have sent : resultSent p.rc.toNat p.v.toNat p.mime = p.head := resultSent_eq less
    rw [sent, ← header_bytes, (p.header_short short).decodes_body f small]
    exact (and_iff_right less).symm
  · exact iff_of_false (p.not_decodes_cut full _ body) fun both => both.1.ne full

theorem size_eq (body : List UInt8) (small : body.length < 2 ^ 31) :
    p.size body = int32 (p.head.length + (lengthHeader body.length).length + body.length) := by
  have same : body.length % 2 ^ 32 = body.length := Nat.mod_eq_of_lt (by omega)
  rw [size, Request.remaining_ofBody (by omega), same]
  rfl

theorem int32_above {n : ℤ} (low : 0 ≤ n) (high : n < 2 ^ 32) : 1024 < int32 n ↔ 1024 < n ∧ n < 2 ^ 31 := by
  rcases Int.lt_or_le n (2 ^ 31) with small | large
  · rw [int32_of_small (by omega) small]
    omega
  · have wraps : n = n - 2 ^ 32 + (2 ^ 32 : ℕ) * 1 := by omega
    have value : int32 n = n - 2 ^ 32 := by
      unfold int32
      rw [wraps, Int.add_mul_bmod_self_left]
      exact (int32_of_small (by omega) (by omega)).trans (by omega)
    omega

/-- A body that is entered as empty or negative is never released. -/
theorem roundTrip_none {t : Transport} (accepts : AcceptsAll t) {body : List UInt8}
    (short : p.head.length ≤ 1024) (large : 1024 < p.size body)
    (none : (BufferSendable.ofBody body).remaining ≤ 0) : ¬ RoundTrip t (p.send t body) body := by
  obtain ⟨r, calls, run⟩ := p.send_chunks accepts short large
  exact roundTrip_waits accepts run rfl none

theorem roundTrip_iff {t : Transport} (accepts : AcceptsAll t) (body : List UInt8) :
    RoundTrip t (p.send t body) body ↔
      p.head.length < 1024 ∧ 0 < body.length ∧
        1024 < p.head.length + (lengthHeader body.length).length + body.length ∧
        p.head.length + (lengthHeader body.length).length + body.length < 2 ^ 31 := by
  have header := length_lengthHeader body.length
  rcases Nat.lt_or_ge 1024 p.head.length with long | short
  · exact iff_of_false (p.roundTrip_long t long) fun all => by omega
  rcases Int.lt_or_le 1024 (p.size body) with large | little
  · rcases Nat.lt_or_ge (body.length % 2 ^ 32) (2 ^ 31) with small | negative
    · rcases Nat.eq_zero_or_pos (body.length % 2 ^ 32) with zero | positive
      · refine iff_of_false (p.roundTrip_none accepts short large ?_) fun all => by omega
        rw [Request.remaining_ofBody small, zero]
        exact Int.le_refl 0
      · rw [p.roundTrip_chunks accepts short large positive small]
        constructor
        · rintro ⟨less, whole⟩
          have size := p.size_eq body (by omega)
          rw [size, int32_above (by omega) (by omega)] at large
          omega
        · rintro ⟨less, _, _, whole⟩
          exact ⟨less, by omega⟩
    · refine iff_of_false (p.roundTrip_none accepts short large ?_) fun all => by omega
      exact Int.le_of_lt (Request.remaining_negative negative)
  · refine iff_of_false (p.roundTrip_whole accepts short little) ?_
    rintro ⟨_, _, more, less⟩
    have size := p.size_eq body (by omega)
    rw [size, int32_of_small (by omega) (by omega)] at little
    omega

end Reply

/-! ## Both directions -/

/-- A body comes back, and its sender is released, in exactly these cases: a request that may be
chunked, with an empty body or one of more than `CHUNK_SIZE` bytes; a response with a body that does
not fit `CHUNK_SIZE` bytes together with its headers, which do not fill their array. -/
theorem body_decoded {t : Transport} (accepts : AcceptsAll t) (r : Request) (p : Reply)
    (body : List UInt8) (chunked : Bool) :
    (RoundTrip t (r.send t body chunked) body ↔
      chunked = true ∧ (body = [] ∨ (1024 < body.length ∧ body.length < 2 ^ 31))) ∧
    (RoundTrip t (p.send t body) body ↔
      p.head.length < 1024 ∧ 0 < body.length ∧
        1024 < p.head.length + (lengthHeader body.length).length + body.length ∧
        p.head.length + (lengthHeader body.length).length + body.length < 2 ^ 31) :=
  ⟨r.roundTrip_iff accepts body chunked, p.roundTrip_iff accepts body⟩

def allBytes : Transport := fun _ n => n

def rpcPost : Request where
  method := ascii "POST"
  url := ascii "localhost:8080/rpc"
  fields := [(ascii "Accept", ascii "*/*")]
  host := ascii "localhost"
  port := 8080
  path := ascii "/rpc"
  parsed := by decide +kernel
  first := ⟨by decide, by decide, by decide⟩
  second := ⟨by decide, by decide, by decide⟩
  plain := by
    intro text mem
    obtain rfl := List.mem_singleton.mp mem
    exact ⟨by decide, by decide, by decide⟩
  fits := by decide
  fit := by decide
  few := by decide

def textReply : Reply := ⟨200, 11, ascii "text/plain", by decide⟩

theorem body_decoded_chunks :
    RoundTrip allBytes (rpcPost.send allBytes (List.replicate 2000 97) true) (List.replicate 2000 97) ∧
      RoundTrip allBytes (textReply.send allBytes (List.replicate 2000 97)) (List.replicate 2000 97) := by
  have length : (List.replicate 2000 (97 : UInt8)).length = 2000 := List.length_replicate
  have both := body_decoded (t := allBytes) (fun _ _ => rfl) rpcPost textReply (List.replicate 2000 97) true
  rw [length] at both
  exact ⟨both.1.mpr ⟨rfl, .inr (by decide)⟩, both.2.mpr (by decide)⟩

/-- Neither form of a request returns a short body, and neither does a response. -/
theorem hello_not_decoded :
    ¬ RoundTrip allBytes (rpcPost.send allBytes (ascii "hello") false) (ascii "hello") ∧
      ¬ RoundTrip allBytes (rpcPost.send allBytes (ascii "hello") true) (ascii "hello") ∧
      ¬ RoundTrip allBytes (textReply.send allBytes (ascii "hello")) (ascii "hello") := by
  have accepts : AcceptsAll allBytes := fun _ _ => rfl
  rw [rpcPost.roundTrip_iff accepts, rpcPost.roundTrip_iff accepts, textReply.roundTrip_iff accepts]
  decide

end Cyue.Http
