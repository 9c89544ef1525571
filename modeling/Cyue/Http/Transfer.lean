import Cyue.Http.Chunked
import Cyue.Http.Sender

/-!
# What a sender writes

With a transport that takes all bytes, every function of the sender adds a text to the
wire.  The ticks of a sender cut the rest of its body into chunks, behind which the zero
chunk and an empty footer stand.
-/

namespace Cyue.Http.Sender

def AcceptsAll (t : Transport) : Prop := ∀ calls n, t calls n = n

/-- The function returns a value and adds bytes to the wire. -/
def Sends {α : Type} (m : Sending α) (a : α) (bytes : List UInt8) : Prop :=
  ∀ link, ∃ calls, m link = some (a, { link with wire := link.wire ++ bytes, calls := calls })

theorem sends_pure {α : Type} (a : α) : Sends (pure a) a [] := by
  intro link
  refine ⟨link.calls, ?_⟩
  rw [List.append_nil]
  rfl

theorem Sends.run {α β : Type} {m : Sending α} {a : α} {bytes : List UInt8} (sent : Sends m a bytes)
    (f : α → Sending β) (link : Link) :
    ∃ calls, (m >>= f) link = f a { link with wire := link.wire ++ bytes, calls := calls } := by
  obtain ⟨calls, run⟩ := sent link
  refine ⟨calls, ?_⟩
  change (m link).bind (fun p => f p.1 p.2) = _
  rw [run]
  rfl

theorem Sends.bind {α β : Type} {m : Sending α} {f : α → Sending β} {a : α} {b : β}
    {left right : List UInt8} (first : Sends m a left) (second : Sends (f a) b right) :
    Sends (m >>= f) b (left ++ right) := by
  intro link
  obtain ⟨calls, run⟩ := first.run f link
  obtain ⟨calls', run'⟩ := second { link with wire := link.wire ++ left, calls := calls }
  refine ⟨calls', ?_⟩
  rw [run, run', List.append_assoc]

theorem send_accepts {t : Transport} (accepts : AcceptsAll t) {p : List UInt8} {n : ℕ}
    (fits : n ≤ p.length) (small : n < 2 ^ 31) : Sends (send t p n) n (p.take n) := by
  intro link
  refine ⟨link.calls + 1, ?_⟩
  have size : ((n : ℤ) % 2 ^ 64).toNat = n := by omega
  have result : int32 (t link.calls n) = n := by
    rw [accepts]
    exact Fsm.int32_of_small (by omega) (by omega)
  unfold send
  dsimp only
  rw [size, if_neg (not_lt.mpr fits), result, accepts]
  rfl

/-- A text that is sent as a whole. -/
theorem send_text {t : Transport} (accepts : AcceptsAll t) (text : List UInt8)
    (small : text.length < 2 ^ 31) : Sends (send t text text.length) text.length text := by
  have sent := send_accepts accepts (p := text) le_rfl small
  rw [List.take_length] at sent
  exact sent

/-- A printed text that was not cut off. -/
theorem send_printed {t : Transport} (accepts : AcceptsAll t) (size : ℕ) {text : List UInt8}
    (fits : text.length < size) (small : text.length < 2 ^ 31) :
    Sends (send t (printed size text) text.length) text.length text := by
  have whole : printed size text = text ++ [0] := by
    rw [printed, List.take_of_length_le (by omega)]
  have sent := send_accepts accepts (p := printed size text) (n := text.length)
    (by rw [whole, List.length_append]; omega) small
  rw [whole, List.take_left] at sent
  rw [whole]
  exact sent

theorem sendLf_accepts {t : Transport} (accepts : AcceptsAll t) : Sends (sendLf t) 2 crlf :=
  send_text accepts crlf (by decide)

theorem unless_error {α : Type} {r : ℤ} (fine : 0 ≤ r) (err next : α) :
    (if r < 0 then err else next) = next :=
  if_neg (Int.not_lt.mpr fine)

/-- A step whose result is no error goes on. -/
theorem Sends.go {α : Type} {m : Sending ℤ} {r : ℤ} {bytes : List UInt8} (sent : Sends m r bytes)
    (fine : 0 ≤ r) (err f : ℤ → Sending α) (link : Link) :
    ∃ calls, (m >>= fun r => if r < 0 then err r else f r) link =
      f r { link with wire := link.wire ++ bytes, calls := calls } := by
  obtain ⟨calls, run⟩ := sent.run (fun r => if r < 0 then err r else f r) link
  refine ⟨calls, ?_⟩
  rw [run, unless_error fine]

theorem Sends.next {α : Type} {m : Sending ℤ} {err f : ℤ → Sending α} {r : ℤ} {b : α}
    {left right : List UInt8} (first : Sends m r left) (fine : 0 ≤ r)
    (second : Sends (f r) b right) :
    Sends (m >>= fun r => if r < 0 then err r else f r) b (left ++ right) := by
  apply first.bind
  rw [unless_error fine]
  exact second

theorem Sends.last {α : Type} {m : Sending ℤ} {r : ℤ} {bytes : List UInt8} (sent : Sends m r bytes)
    (fine : 0 ≤ r) (err : ℤ → Sending α) (g : ℤ → α) :
    Sends (m >>= fun r => if r < 0 then err r else pure (g r)) (g r) bytes := by
  have all : Sends (m >>= fun r => if r < 0 then err r else pure (g r)) _ _ :=
    sent.next fine (sends_pure (g r))
  rw [List.append_nil] at all
  exact all

/-! ## The head of a request -/

def fieldBytes (field : List UInt8 × List UInt8) : List UInt8 := fieldLine field ++ crlf

theorem sendFields_sends {t : Transport} (accepts : AcceptsAll t)
    {fields : List (List UInt8 × List UInt8)}
    (fit : ∀ field ∈ fields, (fieldBytes field).length < 4095) (len : ℤ) (fine : 0 ≤ len) :
    ∃ r, 0 ≤ r ∧ Sends (sendFields t len fields) r (fields.flatMap fieldBytes) := by
  induction fields generalizing len with
  | nil => exact ⟨len, fine, sends_pure len⟩
  | cons field rest ih =>
      have fits := fit field (List.mem_cons_self ..)
      obtain ⟨r, fine', sent⟩ := ih (fun field mem => fit field (List.mem_cons_of_mem _ mem))
        (len + (fieldBytes field).length) (by omega)
      have line : Sends (send t (printed 4095 (fieldBytes field)) (fieldBytes field).length)
          (fieldBytes field).length (fieldBytes field) :=
        send_printed accepts 4095 fits (by omega)
      exact ⟨r, fine', line.next (Int.natCast_nonneg _) sent⟩

def headerBytes (fields : List (List UInt8 × List UInt8)) (chunked : Bool) : List UInt8 :=
  (if chunked then chunkedLine ++ crlf else []) ++ fields.flatMap fieldBytes

theorem sendHeader_sends {t : Transport} (accepts : AcceptsAll t)
    {fields : List (List UInt8 × List UInt8)}
    (fit : ∀ field ∈ fields, (fieldBytes field).length < 4095) (chunked : Bool) :
    ∃ r, 0 ≤ r ∧ Sends (sendHeader t fields chunked) r (headerBytes fields chunked) := by
  obtain ⟨r, fine, sent⟩ := sendFields_sends accepts fit 0 (Int.le_refl 0)
  refine ⟨r, fine, ?_⟩
  cases chunked with
  | false => exact sent
  | true => exact (send_text accepts (chunkedLine ++ crlf) (by decide)).next (by decide) sent

/-- The lines of a request with their ends, and the empty line. -/
def requestBytes (method host : List UInt8) (port : ℕ) (path : List UInt8)
    (fields : List (List UInt8 × List UInt8)) (chunked : Bool) : List UInt8 :=
  let lines := requestLines method host port path
  lines.1 ++ crlf ++ (lines.2 ++ crlf) ++ (headerBytes fields chunked ++ crlf)

/-- A request comes to the sending of its body. -/
theorem sendRequestCommon_head {t : Transport} (accepts : AcceptsAll t)
    {method url host path : List UInt8} {port : ℕ} {fields : List (List UInt8 × List UInt8)}
    (parsed : parseUrl 1024 url = .parsed host port path)
    (fits : ((requestLines method host port path).1 ++ crlf ++
      ((requestLines method host port path).2 ++ crlf)).length < 1024)
    (fit : ∀ field ∈ fields, (fieldBytes field).length < 4095)
    (body : BufferSendable) (chunked : Bool) (link : Link) :
    ∃ len calls, 0 ≤ len ∧ sendRequestCommon t method url (some body) fields chunked link =
      sendRequestBody t len body chunked
        { link with
          wire := link.wire ++ requestBytes method host port path fields chunked
          calls := calls } := by
  obtain ⟨r, fine, header⟩ := sendHeader_sends accepts fit chunked
  let data := (requestLines method host port path).1 ++ crlf ++
    ((requestLines method host port path).2 ++ crlf)
  have first : Sends (send t (printed 1024 data) data.length) data.length data :=
    send_printed accepts 1024 fits (fits.trans (by decide))
  unfold sendRequestCommon
  rw [parsed]
  dsimp only
  have whole : link.wire ++ data ++ headerBytes fields chunked ++ crlf =
      link.wire ++ requestBytes method host port path fields chunked := by
    rw [requestBytes, List.append_assoc, List.append_assoc]
  obtain ⟨calls₁, run₁⟩ := first.go (Int.natCast_nonneg _) _ _ link
  obtain ⟨calls₂, run₂⟩ := header.go fine _ _ { link with wire := link.wire ++ data, calls := calls₁ }
  obtain ⟨calls₃, run₃⟩ := (sendLf_accepts accepts).go (by decide) _ _
    { link with wire := link.wire ++ data ++ headerBytes fields chunked, calls := calls₂ }
  refine ⟨data.length + r + 2, calls₃, by omega, ?_⟩
  rw [← whole]
  exact run₁.trans (run₂.trans run₃)

/-! ## The three forms of a body -/

theorem willSend_noLimit (s : BufferSendable) : s.willSend noLimit = s.remaining := rfl

theorem BufferSendable.remaining_ge (s : BufferSendable) : -2 ^ 31 ≤ s.remaining := by
  have low := Int.le_bmod (x := (s.max : ℤ) - s.curr) (m := 2 ^ 32) (by decide)
  unfold remaining int32
  omega

theorem BufferSendable.remaining_eq {s : BufferSendable} (le : s.curr ≤ s.max)
    (small : s.max < 2 ^ 31) : s.remaining = (s.max - s.curr : ℕ) := by
  unfold remaining
  rw [Fsm.int32_of_small (by omega) (by omega)]
  omega

/-- A negative length is a large one: the bytes behind the body are read, or there is a body of
this size. -/
theorem send_negative (t : Transport) (accepts : AcceptsAll t) (p : List UInt8) {n : ℤ} (low : -2 ^ 31 ≤ n)
    (negative : n < 0) (link : Link) :
    send t p n link = none ∨
      ∃ link', send t p n link = some (n, link') ∧ 2 ^ 63 ≤ link'.wire.length ∧
        link'.sender = link.sender := by
  have size : (n % 2 ^ 64).toNat = 2 ^ 64 - n.natAbs := by omega
  by_cases outside : p.length < (n % 2 ^ 64).toNat
  · left
    unfold send
    exact if_pos outside
  · right
    refine ⟨{ link with
      wire := link.wire ++ p.take (2 ^ 64 - n.natAbs), calls := link.calls + 1 }, ?_, ?_, rfl⟩
    · have result : int32 (t link.calls (n % 2 ^ 64).toNat) = n := by
        have wraps : ((2 ^ 64 - n.natAbs : ℕ) : ℤ) = n + (2 ^ 32 : ℕ) * 2 ^ 32 := by omega
        rw [accepts, size, wraps]
        exact (Int.add_mul_bmod_self_left ..).trans (Fsm.int32_of_small low (by omega))
      have taken : (t link.calls (n % 2 ^ 64).toNat).toNat = 2 ^ 64 - n.natAbs := by
        rw [accepts, size]
        rfl
      unfold send
      dsimp only
      rw [if_neg outside, result, taken]
    · dsimp only
      rw [List.length_append, List.length_take]
      omega

/-- A sendable writes the next bytes of its body. -/
theorem BufferSendable.send_sends {t : Transport} (accepts : AcceptsAll t) {s : BufferSendable}
    {n : ℕ} {limit : ℤ} (least : (n : ℤ) = if limit < s.remaining then limit else s.remaining)
    (inside : s.curr + n ≤ s.buff.length) (small : s.curr + n < 2 ^ 31) :
    Sends (s.send t limit) ((n : ℤ), { s with curr := s.curr + n }) ((s.buff.drop s.curr).take n) := by
  have sent : Sends (Sender.send t (s.buff.drop s.curr) n) n ((s.buff.drop s.curr).take n) := by
    apply send_accepts accepts
    · rw [List.length_drop]
      omega
    · omega
  have next : (s.curr + (n : ℤ).toNat) % 2 ^ 32 = s.curr + n := by omega
  unfold BufferSendable.send
  rw [← least]
  have last := sent.last (Int.natCast_nonneg _) (fun r => pure (r, s))
    fun r => (r, { s with curr := (s.curr + r.toNat) % 2 ^ 32 })
  rw [next] at last
  exact last

/-- A large body that may be sent as chunks waits for its ticks. -/
theorem sendRequestBody_chunks (t : Transport) (len : ℤ) {body : BufferSendable}
    (large : chunkSize < body.remaining) (link : Link) :
    sendRequestBody t len body true link = some (len, { link with sender := some body }) := by
  have positive : 0 ≤ body.remaining := by
    unfold chunkSize at large
    omega
  have result : (if 0 ≤ body.remaining then len else nbrEexpire) = len := if_pos positive
  have taken : true = true ∧ chunkSize < body.willSend noLimit := ⟨rfl, large⟩
  unfold sendRequestBody
  rw [if_pos taken]
  exact congrArg (fun r => some (r, { link with sender := some body })) result

/-- The function reads memory behind the body, or the wire is longer than any buffer. -/
def Overruns {α : Type} (m : Sending α) (link : Link) : Prop :=
  m link = none ∨
    ∃ a link', m link = some (a, link') ∧ 2 ^ 63 ≤ link'.wire.length ∧ link'.sender = link.sender

/-- A sendable with a negative length or limit. -/
theorem BufferSendable.send_negative {t : Transport} (accepts : AcceptsAll t) {s : BufferSendable}
    (limit : ℤ) (low : -2 ^ 31 ≤ limit) (negative : limit < 0 ∨ s.remaining < 0) (link : Link) :
    s.send t limit link = none ∨
      ∃ n link', s.send t limit link = some ((n, s), link') ∧ n < 0 ∧ 2 ^ 63 ≤ link'.wire.length ∧
        link'.sender = link.sender := by
  have least := s.remaining_ge
  obtain ⟨n, same⟩ : ∃ n, n = if limit < s.remaining then limit else s.remaining := ⟨_, rfl⟩
  have below : n < 0 ∧ -2 ^ 31 ≤ n := by
    rw [same]
    split <;> omega
  unfold BufferSendable.send
  rw [← same]
  rcases Sender.send_negative t accepts (s.buff.drop s.curr) below.2 below.1 link with
    stops | ⟨link', run, long, sender⟩
  · left
    change (Sender.send t (s.buff.drop s.curr) n link).bind _ = _
    rw [stops]
    rfl
  · right
    refine ⟨n, link', ?_, below.1, long, sender⟩
    change (Sender.send t (s.buff.drop s.curr) n link).bind _ = _
    rw [run]
    change (if n < 0 then pure (n, s) else _ : Sending (ℤ × BufferSendable)) link' = _
    rw [if_pos below.1]
    rfl

theorem sendRequestBody_overruns {t : Transport} (accepts : AcceptsAll t) (len : ℤ)
    {body : BufferSendable} (negative : body.remaining < 0) (chunked : Bool) (link : Link) :
    Overruns (sendRequestBody t len body chunked) link := by
  have raw : ¬ (chunked ∧ chunkSize < body.willSend noLimit) := by
    rw [willSend_noLimit]
    unfold chunkSize
    omega
  unfold Overruns sendRequestBody
  rw [if_neg raw]
  rcases body.send_negative accepts chunkSize (by decide) (.inr negative) link with
    stops | ⟨n, link', run, below, long, sender⟩
  · left
    change (body.send t chunkSize link).bind _ = _
    rw [stops]
    rfl
  · right
    refine ⟨n, link', ?_, long, sender⟩
    change (body.send t chunkSize link).bind _ = _
    rw [run]
    change (if n < 0 then pure n else _ : Sending ℤ) link' = _
    rw [if_pos below]
    rfl

/-- Other bodies are cut off behind `CHUNK_SIZE` bytes, and two line ends follow. -/
theorem sendRequestBody_raw {t : Transport} (accepts : AcceptsAll t) (len : ℤ) {buff : List UInt8}
    {max : ℕ} (inside : max ≤ buff.length) (small : max < 2 ^ 31) {chunked : Bool}
    (raw : ¬ (chunked ∧ 1024 < max)) :
    ∃ r, Sends (sendRequestBody t len ⟨buff, max, 0⟩ chunked) r
      (buff.take (min max 1024) ++ (crlf ++ crlf)) := by
  have remaining : BufferSendable.remaining ⟨buff, max, 0⟩ = max :=
    BufferSendable.remaining_eq (Nat.zero_le _) small
  have form : ¬ (chunked ∧ chunkSize < BufferSendable.willSend ⟨buff, max, 0⟩ noLimit) := by
    rw [willSend_noLimit, remaining]
    exact fun ⟨flag, large⟩ => raw ⟨flag, Int.ofNat_lt.mp large⟩
  have least : ((min max 1024 : ℕ) : ℤ) =
      if chunkSize < BufferSendable.remaining ⟨buff, max, 0⟩ then chunkSize
      else BufferSendable.remaining ⟨buff, max, 0⟩ := by
    rw [remaining]
    unfold chunkSize
    split <;> omega
  have body := BufferSendable.send_sends accepts least
    (by dsimp only; omega) (by dsimp only; omega)
  refine ⟨len + (min max 1024 : ℕ) + 4, ?_⟩
  unfold sendRequestBody
  rw [if_neg form]
  apply body.bind
  dsimp only
  rw [unless_error (Int.natCast_nonneg _)]
  exact (send_text accepts (crlf ++ crlf) (by decide)).last (by decide) pure
    fun r => len + (min max 1024 : ℕ) + r

/-! ## Responses -/

theorem length_digits_le {base n k : ℕ} (several : 1 < base) (some : 0 < k) (small : n < base ^ k) :
    (digits base n).length ≤ k := by
  rw [digits, List.length_map]
  exact (Nat.length_toDigits_le_iff several some).mpr small

theorem unsigned_lt (n : ℤ) : unsigned n < 2 ^ 32 := by
  unfold unsigned
  omega

theorem length_lengthHeader (bl : ℤ) : (lengthHeader bl).length ≤ 30 := by
  have number : (digits 10 (unsigned bl)).length ≤ 10 :=
    length_digits_le (by decide) (by decide) ((unsigned_lt bl).trans (by decide))
  unfold lengthHeader
  rw [List.length_append, List.length_append, List.length_append]
  change 16 + (digits 10 (unsigned bl)).length + 2 + 2 ≤ 30
  omega

def resultSent (rc v : ℕ) (mime : List UInt8) : List UInt8 :=
  (printed 1024 (resultHead rc v mime)).take (resultHead rc v mime).length

theorem resultSent_eq {rc v : ℕ} {mime : List UInt8} (short : (resultHead rc v mime).length < 1024) :
    resultSent rc v mime = resultHead rc v mime := by
  have whole : printed 1024 (resultHead rc v mime) = resultHead rc v mime ++ [0] := by
    rw [printed, List.take_of_length_le (Nat.le_of_lt_succ short)]
  rw [resultSent, whole, List.take_left]

/-- The last byte of a text that fills the array is lost. -/
theorem resultSent_cut {rc v : ℕ} {mime : List UInt8} (full : (resultHead rc v mime).length = 1024) :
    resultSent rc v mime = (resultHead rc v mime).dropLast ++ [0] := by
  have length : ((resultHead rc v mime).take 1023 ++ [0]).length = 1024 := by
    rw [List.length_append, List.length_take, full]
    rfl
  rw [resultSent, printed, full, List.dropLast_eq_take, full]
  exact List.take_of_length_le length.le

def resultSize (rc v : ℕ) (mime : List UInt8) (bl : ℤ) : ℤ :=
  int32 ((resultHead rc v mime).length + (lengthHeader bl).length + bl)

theorem resultSent_sends {t : Transport} (accepts : AcceptsAll t) {rc v : ℕ} {mime : List UInt8}
    (short : (resultHead rc v mime).length ≤ 1024) :
    Sends (send t (printed 1024 (resultHead rc v mime)) (resultHead rc v mime).length)
      (resultHead rc v mime).length (resultSent rc v mime) := by
  apply send_accepts accepts
  · rw [printed, List.length_append, List.length_take]
    change _ ≤ min (1024 - 1) _ + 1
    omega
  · omega

theorem sendResultAndBody_short (t : Transport) {rc v : ℕ} (s : BufferSendable) {mime : List UInt8}
    (long : 1024 < (resultHead rc v mime).length) (link : Link) :
    sendResultAndBody t rc v s mime link = some (nbrEshort, link) := by
  have above : chunkSize < ((resultHead rc v mime).length : ℤ) := Int.ofNat_lt.mpr long
  unfold sendResultAndBody
  dsimp only
  rw [if_pos above]
  rfl

theorem sendResultAndBody_form {t : Transport} (accepts : AcceptsAll t) {rc v : ℕ}
    (s : BufferSendable) {mime : List UInt8} (short : (resultHead rc v mime).length ≤ 1024)
    (link : Link) :
    ∃ calls, sendResultAndBody t rc v s mime link =
      (if resultSize rc v mime s.remaining ≤ 1024 then sendWhole t (resultHead rc v mime).length s
        else sendAsChunks t (resultHead rc v mime).length s)
        { link with wire := link.wire ++ resultSent rc v mime, calls := calls } := by
  have below : ¬ chunkSize < ((resultHead rc v mime).length : ℤ) :=
    fun long => not_lt.mpr short (Int.ofNat_lt.mp long)
  unfold sendResultAndBody
  dsimp only
  rw [if_neg below]
  exact (resultSent_sends accepts short).go (Int.natCast_nonneg _) pure _ link

/-- Behind `Content-Length` the sendable is given no limit, which is a negative number. -/
theorem sendWhole_overruns {t : Transport} (accepts : AcceptsAll t) (tl : ℤ) (s : BufferSendable)
    (link : Link) : Overruns (sendWhole t tl s) link := by
  have fits := length_lengthHeader s.remaining
  have header : Sends _ _ (lengthHeader s.remaining) :=
    send_printed accepts 1023 (by omega) (by omega)
  obtain ⟨calls, start⟩ := header.go (Int.natCast_nonneg _) pure (fun r => do
    let sent ← s.send t noLimit
    if sent.1 < 0 then return sent.1
    modify fun link => { link with closed := true }
    return tl + r + sent.1) link
  have run : sendWhole t tl s link = _ := start
  unfold Overruns
  rw [run]
  rcases s.send_negative accepts noLimit (by decide) (.inl (by decide))
    { link with wire := link.wire ++ lengthHeader s.remaining, calls := calls } with
    stops | ⟨n, link', run, negative, long, sender⟩
  · left
    change (s.send t noLimit _).bind _ = _
    rw [stops]
    rfl
  · right
    refine ⟨n, link', ?_, long, sender⟩
    change (s.send t noLimit _).bind _ = _
    rw [run]
    change (if n < 0 then pure n else _ : Sending ℤ) link' = _
    rw [if_pos negative]
    rfl

theorem sendAsChunks_enters {t : Transport} (accepts : AcceptsAll t) (tl : ℤ) (s : BufferSendable)
    (link : Link) :
    ∃ r calls, sendAsChunks t tl s link = some (r,
      { link with
        wire := link.wire ++ (chunkedLine ++ crlf ++ crlf)
        calls := calls
        sender := some s }) := by
  have header : Sends _ _ (chunkedLine ++ crlf ++ crlf) := send_text accepts _ (by decide)
  obtain ⟨calls, start⟩ := header.go (by decide) pure (fun r => do
    let r' ← entry s
    if r' < 0 then return r'
    return int32 (tl + r + r')) link
  have run : sendAsChunks t tl s link = _ := start
  rw [run]
  by_cases negative : s.remaining < 0
  · refine ⟨s.remaining, calls, ?_⟩
    change (if s.remaining < 0 then pure s.remaining else _ : Sending ℤ) _ = _
    rw [if_pos negative]
    rfl
  · refine ⟨int32 (tl + (chunkedLine ++ crlf ++ crlf).length + s.remaining), calls, ?_⟩
    change (if s.remaining < 0 then pure s.remaining else _ : Sending ℤ) _ = _
    rw [if_neg negative]
    rfl

/-! ## Sizes of chunks -/

theorem hexFrom_append (n : ℕ) (left right : List UInt8) :
    hexFrom n (left ++ right) = (hexFrom n left).bind fun m => hexFrom m right := by
  induction left generalizing n with
  | nil => rfl
  | cons c left ih =>
      rw [List.cons_append, hexFrom, hexFrom]
      cases hexDigit c with
      | none => rfl
      | some d => exact ih _

theorem hexDigit_digitChar {n : ℕ} (small : n < 16) :
    hexDigit (UInt8.ofNat (Nat.digitChar n).toNat) = some n := by
  revert n
  decide

theorem hexFrom_digits (n : ℕ) : hexFrom 0 (digits 16 n) = some n := by
  induction n using Nat.strongRecOn with
  | ind n ih =>
      unfold digits
      rw [Nat.toDigits_eq_if (by decide)]
      split
      · rename_i small
        change (hexDigit (UInt8.ofNat (Nat.digitChar n).toNat)).bind (fun d => hexFrom (0 * 16 + d) []) = _
        rw [hexDigit_digitChar small, Option.bind_some, Nat.zero_mul, Nat.zero_add]
        rfl
      · rename_i large
        have front := ih (n / 16) (by omega)
        have last := hexDigit_digitChar (Nat.mod_lt n (by decide : 16 > 0))
        rw [List.map_append, hexFrom_append]
        unfold digits at front
        rw [front, Option.bind_some]
        change (hexDigit (UInt8.ofNat (Nat.digitChar (n % 16)).toNat)).bind
          (fun d => hexFrom (n / 16 * 16 + d) []) = _
        rw [last, Option.bind_some, Nat.div_add_mod']
        rfl

/-! ## Ticks -/

/-- The chunk of `send_body` for some data. -/
def chunkOf (data : List UInt8) (nonempty : data ≠ []) : Chunk :=
  ⟨digits 16 data.length, data, nonempty, hexFrom_digits _⟩

theorem chunkOf_length {data : List UInt8} (nonempty : data ≠ []) (short : data.length ≤ 1007) :
    (chunkOf data nonempty).bytes.length ≤ data.length + 7 := by
  have size : (digits 16 data.length).length ≤ 3 :=
    length_digits_le (by decide) (by decide) (lt_of_le_of_lt short (by decide))
  rw [Chunk.length_bytes, List.length_append]
  change (digits 16 data.length).length + 2 + (data.length + 2) ≤ _
  omega

def lastChunk : List UInt8 := ascii "0" ++ crlf ++ crlf

/-- Without a body a sender is not released: `send_body` ends the message and returns `NBR_OK`. -/
theorem sendBody_waits {t : Transport} (accepts : AcceptsAll t) {s : BufferSendable}
    (none : s.remaining ≤ 0) :
    Sends (sendBody t s) (nbrOk, s) (digits 16 (unsigned s.remaining) ++ crlf ++ crlf) := by
  have low := s.remaining_ge
  have least : (if chunkLimit < s.willSend noLimit then chunkLimit else s.willSend noLimit) =
      s.remaining :=
    if_neg (Int.not_lt.mpr (Int.le_trans none (by decide : (0 : ℤ) ≤ chunkLimit)))
  have number : (digits 16 (unsigned s.remaining)).length ≤ 8 :=
    length_digits_le (by decide) (by decide) ((unsigned_lt _).trans_le (by decide))
  have length : (digits 16 (unsigned s.remaining) ++ crlf).length ≤ 10 := by
    rw [List.length_append]
    exact Nat.add_le_add_right number 2
  have size : Sends _ _ (digits 16 (unsigned s.remaining) ++ crlf) :=
    send_printed accepts 15 (by omega) (by omega)
  have ends : Sends _ _ crlf := (sendLf_accepts accepts).last (by decide) (fun r => pure (r, s))
    fun _ => (nbrOk, s)
  have choice : (if s.remaining ≤ 0 then (sendLf t >>= fun r => if r < 0 then pure (r, s) else
      pure (nbrOk, s)) else sendChunk t s : Sending (ℤ × BufferSendable)) = _ := if_pos none
  unfold sendBody
  rw [if_neg (by decide : ¬ chunkLimit ≤ 0), least]
  dsimp only
  rw [choice]
  exact size.next (Int.natCast_nonneg _) ends

theorem sendChunk_sends {t : Transport} (accepts : AcceptsAll t) {s : BufferSendable}
    (inside : s.max ≤ s.buff.length) (small : s.max < 2 ^ 31) (le : s.curr ≤ s.max) {n : ℕ}
    (least : n = min 1007 (s.max - s.curr)) :
    Sends (sendChunk t s)
      (if s.max ≤ s.curr + n then nbrSuccess else nbrOk, { s with curr := s.curr + n })
      ((s.buff.drop s.curr).take n ++ (crlf ++ if s.max ≤ s.curr + n then lastChunk else [])) := by
  let s' : BufferSendable := { s with curr := s.curr + n }
  have limit : (n : ℤ) = if chunkLimit < s.remaining then chunkLimit else s.remaining := by
    rw [BufferSendable.remaining_eq le small]
    change (n : ℤ) = if (1007 : ℤ) < _ then (1007 : ℤ) else _
    split <;> omega
  have body := BufferSendable.send_sends accepts limit (by omega) (by omega)
  have behind : Sends (if s'.finished then do
      let r ← send t lastChunk 5
      if r < 0 then return (r, s')
      return (nbrSuccess, s')
    else return (nbrOk, s'))
      (if s.max ≤ s.curr + n then nbrSuccess else nbrOk, s')
      (if s.max ≤ s.curr + n then lastChunk else []) := by
    by_cases done : s.max ≤ s.curr + n
    · have finished : s'.finished = true := decide_eq_true done
      rw [if_pos done, if_pos done, if_pos finished]
      exact (send_text accepts lastChunk (by decide)).last (by decide) (fun r => pure (r, s'))
        fun _ => (nbrSuccess, s')
    · have going : ¬ s'.finished = true := fun finished => done (of_decide_eq_true finished)
      rw [if_neg done, if_neg done, if_neg going]
      exact sends_pure _
  unfold sendChunk
  apply body.bind
  dsimp only
  rw [unless_error (Int.natCast_nonneg _)]
  exact (sendLf_accepts accepts).next (by decide) behind

/-- A chunk of at most `n_limit` bytes; behind the last one stands the zero chunk. -/
theorem sendBody_chunk {t : Transport} (accepts : AcceptsAll t) {s : BufferSendable}
    (inside : s.max ≤ s.buff.length) (small : s.max < 2 ^ 31) {n : ℕ}
    (least : n = min 1007 (s.max - s.curr)) {data : List UInt8}
    (same : data = (s.buff.drop s.curr).take n) (nonempty : data ≠ []) :
    Sends (sendBody t s)
      (if s.max ≤ s.curr + n then nbrSuccess else nbrOk, { s with curr := s.curr + n })
      ((chunkOf data nonempty).bytes ++ if s.max ≤ s.curr + n then lastChunk else []) := by
  have some := List.length_pos_iff.mpr nonempty
  have length : data.length = n := by
    rw [same, List.length_take, List.length_drop] at some ⊢
    omega
  have remaining : s.remaining = (s.max - s.curr : ℕ) := BufferSendable.remaining_eq (by omega) small
  have next : (if chunkLimit < s.willSend noLimit then chunkLimit else s.willSend noLimit) = n := by
    rw [willSend_noLimit, remaining]
    change (if (1007 : ℤ) < _ then (1007 : ℤ) else _) = _
    split <;> omega
  have number : unsigned n = n := by
    unfold unsigned
    omega
  have short : (digits 16 n ++ crlf).length ≤ 5 := by
    rw [List.length_append]
    exact Nat.add_le_add_right
      (length_digits_le (by decide) (by decide) (show n < 16 ^ 3 by omega)) 2
  have size : Sends _ _ (digits 16 n ++ crlf) :=
    send_printed accepts 15 (by omega) (by omega)
  have positive : ¬ (n : ℤ) ≤ 0 := by omega
  have chunk := sendChunk_sends accepts inside small (by omega) least
  have bytes : (chunkOf data nonempty).bytes = digits 16 n ++ crlf ++ (data ++ crlf) := by
    rw [← length]
    rfl
  rw [bytes, List.append_assoc, List.append_assoc data, same]
  unfold sendBody
  rw [if_neg (by decide : ¬ chunkLimit ≤ 0), next]
  dsimp only
  rw [number, if_neg positive]
  exact size.next (Int.natCast_nonneg _) chunk

structure Framing (body : List UInt8) where
  chunks : List Chunk
  whole : chunks.flatMap Chunk.data = body
  short : ∀ c ∈ chunks, c.data.length ≤ 1007
  length : (chunks.flatMap Chunk.bytes).length ≤ body.length + 7 * (body.length / 1007 + 1)

def Framing.bytes {body : List UInt8} (f : Framing body) : List UInt8 :=
  f.chunks.flatMap Chunk.bytes ++ lastChunk

def Framing.single {body : List UInt8} (nonempty : body ≠ []) (short : body.length ≤ 1007) :
    Framing body where
  chunks := [chunkOf body nonempty]
  whole := List.append_nil body
  short := by
    intro c mem
    rw [List.mem_singleton.mp mem]
    exact short
  length := by
    have bound := chunkOf_length nonempty short
    rw [List.flatMap_cons, List.flatMap_nil, List.append_nil]
    omega

def Framing.cons {data rest : List UInt8} (nonempty : data ≠ []) (full : data.length = 1007)
    (f : Framing rest) : Framing (data ++ rest) where
  chunks := chunkOf data nonempty :: f.chunks
  whole := congrArg (data ++ ·) f.whole
  short := by
    intro c mem
    rcases List.mem_cons.mp mem with rfl | mem
    · exact full.le
    · exact f.short c mem
  length := by
    have first := chunkOf_length nonempty full.le
    have others := f.length
    rw [List.flatMap_cons, List.length_append, List.length_append]
    omega

theorem Framing.cons_bytes {data rest : List UInt8} (nonempty : data ≠ [])
    (full : data.length = 1007) (f : Framing rest) :
    (Framing.cons nonempty full f).bytes = (chunkOf data nonempty).bytes ++ f.bytes :=
  List.append_assoc ..

theorem senderTask_sends {t : Transport} {link : Link} {s s' : BufferSendable} {r : ℤ}
    {bytes : List UInt8} (waits : link.sender = some s) (sent : Sends (sendBody t s) (r, s') bytes) :
    ∃ calls, senderTask t link = some ((),
      { link with
        wire := link.wire ++ bytes
        calls := calls
        sender := if r = nbrOk then some s' else none }) := by
  obtain ⟨calls, run⟩ := sent link
  refine ⟨calls, ?_⟩
  unfold senderTask
  rw [waits]
  dsimp only
  rw [run]
  rfl

theorem ticks_succ {t : Transport} {link link' : Link} (first : senderTask t link = some ((), link'))
    (n : ℕ) : ticks t (n + 1) link = ticks t n link' := by
  change (senderTask t link).bind _ = _
  rw [first]
  rfl

/-- The ticks of a sender frame the rest of its body and release it. -/
theorem ticks_frame {t : Transport} (accepts : AcceptsAll t) (link : Link) (s : BufferSendable)
    {body : List UInt8} (waits : link.sender = some s) (inside : s.max ≤ s.buff.length)
    (small : s.max < 2 ^ 31) (rest : s.curr < s.max) (same : body = (s.buff.take s.max).drop s.curr) :
    ∃ n link', ∃ f : Framing body,
      ticks t n link = some ((), link') ∧ link'.sender = none ∧
        link'.wire = link.wire ++ f.bytes := by
  obtain ⟨d, eq⟩ : ∃ d, d = s.max - s.curr := ⟨_, rfl⟩
  induction d using Nat.strongRecOn generalizing link s body with
  | ind d ih =>
      have behind : body = (s.buff.drop s.curr).take (s.max - s.curr) := same.trans List.drop_take
      have length : body.length = s.max - s.curr := by
        rw [behind, List.length_take, List.length_drop]
        omega
      by_cases last : s.max - s.curr ≤ 1007
      · have nonempty : body ≠ [] := List.length_pos_iff.mp (by omega)
        have finished : s.max ≤ s.curr + (s.max - s.curr) := by omega
        have sent := sendBody_chunk accepts inside small (n := s.max - s.curr) (by omega) behind nonempty
        rw [if_pos finished, if_pos finished] at sent
        obtain ⟨calls, first⟩ := senderTask_sends waits sent
        rw [if_neg (by decide : ¬ nbrSuccess = nbrOk)] at first
        refine ⟨1, _, Framing.single nonempty (length.trans_le last), ticks_succ first 0, rfl, ?_⟩
        exact congrArg (fun bytes => link.wire ++ (bytes ++ lastChunk))
            (List.append_nil (chunkOf body nonempty).bytes).symm
      · obtain ⟨data, front⟩ : ∃ data, data = (s.buff.drop s.curr).take 1007 := ⟨_, rfl⟩
        have full : data.length = 1007 := by
          rw [front, List.length_take, List.length_drop]
          omega
        have nonempty : data ≠ [] := List.length_pos_iff.mp (by omega)
        have going : ¬ s.max ≤ s.curr + 1007 := by omega
        have sent := sendBody_chunk accepts inside small (n := 1007) (by omega) front nonempty
        rw [if_neg going, if_neg going, List.append_nil] at sent
        obtain ⟨calls, first⟩ := senderTask_sends waits sent
        have split : body = data ++ (s.buff.take s.max).drop (s.curr + 1007) := by
          have cut : (body.take 1007) = data := by
            rw [behind, front, List.take_take, min_eq_left (by omega)]
          rw [← cut, ← List.drop_drop, ← same, List.take_append_drop]
        subst split
        obtain ⟨n, link', f, run, released, wire⟩ := ih (s.max - (s.curr + 1007)) (by omega)
          { link with
            wire := link.wire ++ (chunkOf data nonempty).bytes
            calls := calls
            sender := some { s with curr := s.curr + 1007 } }
          { s with curr := s.curr + 1007 } rfl inside small (not_le.mp going) rfl rfl
        refine ⟨n + 1, link', f.cons nonempty full, (ticks_succ first n).trans run, released, ?_⟩
        rw [wire, Framing.cons_bytes, List.append_assoc]

/-- A sender without a rest is never released. -/
theorem ticks_wait {t : Transport} (accepts : AcceptsAll t) (link : Link) {s : BufferSendable}
    (waits : link.sender = some s) (none : s.remaining ≤ 0) (n : ℕ) :
    ∃ link', ticks t n link = some ((), link') ∧ link'.sender = some s := by
  induction n generalizing link with
  | zero => exact ⟨link, rfl, waits⟩
  | succ n ih =>
      obtain ⟨calls, first⟩ := senderTask_sends waits (sendBody_waits accepts none)
      obtain ⟨link', run, still⟩ := ih { link with
        wire := link.wire ++ (digits 16 (unsigned s.remaining) ++ crlf ++ crlf)
        calls := calls
        sender := some s } rfl
      exact ⟨link', (ticks_succ first n).trans run, still⟩

theorem ticks_none (t : Transport) {link : Link} (none : link.sender = none) (n : ℕ) :
    ticks t n link = some ((), link) := by
  induction n with
  | zero => rfl
  | succ n ih =>
      have first : senderTask t link = some ((), link) := by
        unfold senderTask
        rw [none]
      rw [ticks_succ first, ih]

end Cyue.Http.Sender
