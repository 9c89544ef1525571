import Cyue.Http.Fsm
import Mathlib.Data.List.Basic
import Mathlib.Data.List.GetD
import Mathlib.Order.Nat

/-!
# Chunked messages

The body of a chunked message is decoded in place: the data of a chunk is put over the
line with its size, so that the buffer holds the chunks one after another behind the
header block.  A line feed in the data is no end of a chunk, because the end is where
the size says.
-/

namespace Cyue.Http

/-! ## Messages -/

/-- A line of a header block with its end, a line feed behind a carriage return or alone. -/
structure Line where
  text : List UInt8
  crlf : Bool
  nonempty : text ≠ []
  inside : lf ∉ text
  bare : crlf = false → text.getLast? ≠ some cr

def ending (crlf : Bool) : List UInt8 :=
  if crlf then [cr, lf] else [lf]

def Line.bytes (l : Line) : List UInt8 := l.text ++ ending l.crlf

/-- The line begins with the key, up to the case of the letters. -/
def Named (key text : List UInt8) : Prop :=
  (text.take key.length).map tolower = key.map tolower

instance decidableNamed (key text : List UInt8) : Decidable (Named key text) :=
  inferInstanceAs (Decidable (_ = _))

/-- A header block with one line `Transfer-Encoding: chunked`; no other line begins with
`Transfer-Encoding`, and none with `Content-Length`. -/
structure Header where
  before : List Line
  line : Line
  after : List Line
  name : List UInt8
  spaces : ℕ
  crlf : Bool
  few : (before ++ line :: after).length ≤ maxHeader
  named : name.map tolower = (ascii "Transfer-Encoding").map tolower
  chunked : line.text = name ++ 58 :: (List.replicate spaces 32 ++ ascii "chunked")
  others : ∀ l ∈ before ++ after,
    ¬ Named (ascii "Content-Length") l.text ∧ ¬ Named (ascii "Transfer-Encoding") l.text

def Header.lines (h : Header) : List Line := h.before ++ h.line :: h.after

def Header.bytes (h : Header) : List UInt8 := h.lines.flatMap Line.bytes ++ ending h.crlf

/-- The value of hexadecimal digits behind others with the value `n`. -/
def hexFrom : ℕ → List UInt8 → Option ℕ
  | n, [] => some n
  | n, c :: s => (hexDigit c).bind fun d => hexFrom (n * 16 + d) s

structure Chunk where
  size : List UInt8
  data : List UInt8
  nonempty : data ≠ []
  sized : hexFrom 0 size = some data.length

def Chunk.bytes (c : Chunk) : List UInt8 := c.size ++ ending true ++ (c.data ++ ending true)

theorem Chunk.length_bytes (c : Chunk) :
    c.bytes.length = (c.size ++ ending true).length + (c.data.length + 2) := by
  unfold Chunk.bytes
  rw [List.length_append, @List.length_append _ c.data]
  rfl

/-- A chunked message; `last` is the size of the zero chunk. -/
structure Message where
  header : Header
  chunks : List Chunk
  last : List UInt8
  nonempty : last ≠ []
  zero : hexFrom 0 last = some 0

def Message.body (m : Message) : List UInt8 := m.chunks.flatMap Chunk.data

def Message.bytes (m : Message) : List UInt8 :=
  m.header.bytes ++ (m.chunks.flatMap Chunk.bytes ++ (m.last ++ ending true ++ ending true))

/-! ## Bytes -/

namespace Fsm

def pushAll (f : Fsm) (bytes : List UInt8) : Fsm := { f with p := f.p ++ bytes }

theorem pushAll_nil (f : Fsm) : f.pushAll [] = f :=
  congrArg (fun p => { f with p := p }) (List.append_nil f.p)

theorem pushAll_append (f : Fsm) (left right : List UInt8) :
    (f.pushAll left).pushAll right = f.pushAll (left ++ right) :=
  congrArg (fun p => { f with p := p }) (List.append_assoc f.p left right)

theorem len_pushAll (f : Fsm) (bytes : List UInt8) :
    (f.pushAll bytes).len = f.len + bytes.length :=
  List.length_append

/-- A round of `append`, which comes to its end in a final state. -/
def accept (f : Fsm) (c : UInt8) : Fsm :=
  if f.state.Final then f else f.feed c

def acceptAll (f : Fsm) (bytes : List UInt8) : Fsm := bytes.foldl accept f

theorem acceptAll_append (f : Fsm) (left right : List UInt8) :
    f.acceptAll (left ++ right) = (f.acceptAll left).acceptAll right :=
  List.foldl_append

theorem acceptAll_final {f : Fsm} (final : f.state.Final) (bytes : List UInt8) :
    f.acceptAll bytes = f := by
  induction bytes with
  | nil => rfl
  | cons c bytes ih =>
      have stays : f.accept c = f := if_pos final
      change (f.accept c).acceptAll bytes = f
      rw [stays, ih]

/-- `append` compares the length only behind the first byte. -/
theorem appendFrom_taken {bl : ℤ} {f : Fsm} {done : ℕ} (bytes : List UInt8) :
    appendFrom bl f done bytes =
      f.acceptAll (bytes.take (if bl - done ≤ 1 then 1 else (bl - done).toNat)) := by
  induction bytes generalizing f done with
  | nil =>
      rw [List.take_nil]
      rfl
  | cons c bytes ih =>
      rw [appendFrom]
      split
      · rename_i final
        exact (acceptAll_final final _).symm
      · rename_i going
        have next : f.accept c = f.feed c := if_neg going
        split
        · rename_i last
          have one : bl - done ≤ 1 := by omega
          rw [if_pos one, ← next]
          rfl
        · rename_i more
          have many : ¬ bl - done ≤ 1 := by omega
          obtain ⟨n, size⟩ : ∃ n, (bl - done).toNat = n + 1 := ⟨(bl - done).toNat - 1, by omega⟩
          have rest : (if bl - (done + 1 : ℕ) ≤ 1 then 1 else (bl - (done + 1 : ℕ)).toNat) = n := by
            split <;> omega
          rw [ih, rest, if_neg many, size, List.take_succ_cons, ← next]
          rfl

/-- `append` of a whole string. -/
theorem append_eq (f : Fsm) (bytes : List UInt8) :
    f.append bytes bytes.length = f.acceptAll bytes := by
  unfold append
  rw [appendFrom_taken, List.take_of_length_le]
  split <;> omega

/-- There is room for `n` bytes more in the buffer. -/
structure Room (f : Fsm) (n : ℕ) : Prop where
  fits : f.len + n < f.max
  small : f.max < 2 ^ 32

theorem Room.pushAll {f : Fsm} {n : ℕ} {bytes : List UInt8} (room : Room f (bytes.length + n)) :
    Room (f.pushAll bytes) n where
  fits := by
    rw [len_pushAll, Nat.add_assoc]
    exact room.fits
  small := room.small

theorem Room.less {f : Fsm} {n m : ℕ} (room : Room f n) (le : m ≤ n) : Room f m where
  fits := lt_of_le_of_lt (Nat.add_le_add_left le _) room.fits
  small := room.small

/-- What is left of the room behind bytes that have been taken. -/
theorem Room.after {f g : Fsm} {n m k : ℕ} (room : Room f n) (length : g.len = f.len + k)
    (max : g.max = f.max) (le : k + m ≤ n) : Room g m where
  fits := by
    have fits := room.fits
    rw [length, max]
    omega
  small := max ▸ room.small

theorem accept_eq {f : Fsm} (going : ¬ f.state.Final) (room : Room f 1) (c : UInt8) :
    f.accept c = (f.push c).recv := by
  have below : ¬ f.limit ≤ f.len := by
    have fits := room.fits
    have small := room.small
    unfold Fsm.limit
    omega
  rw [accept, if_neg going, feed, if_neg below]

/-! ## Line ends -/

theorem byteAt_append (f : Fsm) {i : ℕ} {left right : List UInt8} (same : f.p = left ++ right)
    (behind : left.length ≤ i) : f.byteAt i = right.getD (i - left.length) 0 := by
  rw [byteAt, same, List.getD_append_right _ _ _ _ behind]

theorem recvLf_other {f : Fsm} {left : List UInt8} {c : UInt8} (same : f.p = left ++ [c])
    (other : c ≠ lf) : f.recvLf = 0 := by
  have length : f.len - 1 = left.length := by
    rw [len, same, List.length_append]
    rfl
  have last : f.byteAt (f.len - 1) = c := by
    rw [length, byteAt_append f same le_rfl, Nat.sub_self]
    rfl
  rw [recvLf, last, if_neg (fun found => other found.2.2), if_neg (fun found => other found.2)]

theorem recvLf_crlf {f : Fsm} {left : List UInt8} (same : f.p = left ++ ending true)
    (some : left ≠ []) : f.recvLf = 2 := by
  have positive := List.length_pos_iff.mpr some
  have length : f.len = left.length + 2 := by
    rw [len, same, List.length_append]
    rfl
  have first : f.byteAt (f.len - 2) = cr := by
    rw [byteAt_append f same (by omega), length, Nat.add_sub_cancel, Nat.sub_self]
    rfl
  have second : f.byteAt (f.len - 1) = lf := by
    have index : f.len - 1 - left.length = 1 := by omega
    rw [byteAt_append f same (by omega), index]
    rfl
  rw [recvLf, if_pos ⟨by omega, first, second⟩]

theorem recvLf_bare {f : Fsm} {left : List UInt8} (same : f.p = left ++ ending false)
    (some : left ≠ []) (other : left.getLast? ≠ Option.some cr) : f.recvLf = 1 := by
  have positive := List.length_pos_iff.mpr some
  have length : f.len = left.length + 1 := by
    rw [len, same, List.length_append]
    rfl
  have before : f.byteAt (f.len - 2) ≠ cr := by
    intro found
    apply other
    have index : f.len - 2 = left.length - 1 := by omega
    have inside : left.length - 1 < left.length := by omega
    rw [byteAt, same, index, List.getD_append _ _ _ _ inside] at found
    rw [List.getLast?_eq_getElem?, List.getElem?_eq_getElem inside, ← found,
      List.getD_eq_getElem _ _ inside]
  have last : f.byteAt (f.len - 1) = lf := by
    rw [byteAt_append f same (by omega), length, Nat.add_sub_cancel, Nat.sub_self]
    rfl
  rw [recvLf, if_neg (fun found => before found.2.1), if_pos ⟨by omega, last⟩]

def Listens (f : Fsm) : Prop :=
  f.state = .recvHeader ∨ f.state = .recvBody ∨ f.state = .recvBodylen ∨ f.state = .recvFooter

theorem Listens.going {f : Fsm} (listens : Listens f) : ¬ f.state.Final := by
  rcases listens with state | state | state | state <;> rw [state] <;> decide

theorem goto_self {f : Fsm} {state : State} (same : f.state = state) : f.goto state = f := by
  subst same
  rfl

theorem recv_of_no_lf {f : Fsm} (listens : Listens f) (none : f.recvLf = 0) : f.recv = f := by
  have zero : f.byteAt f.len ≠ 59 := by
    change f.p.getD f.p.length 0 ≠ 59
    rw [List.getD_eq_default _ _ le_rfl]
    decide
  rcases listens with state | state | state | state
  · rw [recv, state]
    exact (if_pos none).trans (goto_self state)
  · rw [recv, state]
    exact (if_pos none).trans (goto_self state)
  · rw [recv, state]
    exact (if_neg (not_not.mpr none)).trans ((if_neg zero).trans (goto_self state))
  · rw [recv, state]
    exact (if_pos none).trans (goto_self state)

theorem accept_quiet {f : Fsm} {c : UInt8} (listens : Listens f) (room : Room f 1) (other : c ≠ lf) :
    f.accept c = f.pushAll [c] := by
  rw [accept_eq listens.going room]
  exact recv_of_no_lf listens (recvLf_other rfl other)

/-- Bytes other than line feeds are put into the buffer. -/
theorem acceptAll_quiet {f : Fsm} {bytes : List UInt8} (listens : Listens f)
    (room : Room f bytes.length) (quiet : lf ∉ bytes) : f.acceptAll bytes = f.pushAll bytes := by
  induction bytes generalizing f with
  | nil => exact (pushAll_nil f).symm
  | cons c bytes ih =>
      have other : c ≠ lf := (List.ne_of_not_mem_cons quiet).symm
      have first : f.accept c = f.pushAll [c] :=
        accept_quiet listens (room.less (Nat.succ_pos _)) other
      have room' : Room (f.pushAll [c]) bytes.length :=
        Room.pushAll (room.less (Nat.add_comm 1 bytes.length).le)
      change (f.accept c).acceptAll bytes = _
      rw [first, ih (f := f.pushAll [c]) listens room' (List.not_mem_of_not_mem_cons quiet), pushAll_append]
      rfl

/-- A line is read with its end, where the function of the state finds the line end. -/
theorem acceptAll_line {f : Fsm} {text : List UInt8} {crlf : Bool} (listens : Listens f)
    (room : Room f (text ++ ending crlf).length) (quiet : lf ∉ text) (some : f.p ++ text ≠ [])
    (bare : crlf = false → (f.p ++ text).getLast? ≠ Option.some cr) :
    f.acceptAll (text ++ ending crlf) = (f.pushAll (text ++ ending crlf)).recv ∧
      (f.pushAll (text ++ ending crlf)).recvLf = (ending crlf).length := by
  cases crlf with
  | true =>
      have split : text ++ ending true = (text ++ [cr]) ++ [lf] :=
        (List.append_assoc text [cr] [lf]).symm
      have found : (f.pushAll (text ++ ending true)).recvLf = 2 :=
        recvLf_crlf (List.append_assoc f.p text _).symm some
      refine ⟨?_, found⟩
      rw [split] at room ⊢
      rw [List.length_append] at room
      have quiet : lf ∉ text ++ [cr] := fun mem =>
        (List.mem_append.mp mem).elim quiet (by decide)
      rw [acceptAll_append, acceptAll_quiet listens (room.less (Nat.le_add_right _ _)) quiet]
      change (f.pushAll (text ++ [cr])).accept lf = _
      rw [accept_eq (f := f.pushAll (text ++ [cr])) listens.going room.pushAll]
      exact congrArg recv (pushAll_append f (text ++ [cr]) [lf])
  | false =>
      have found : (f.pushAll (text ++ ending false)).recvLf = 1 :=
        recvLf_bare (List.append_assoc f.p text _).symm some (bare rfl)
      refine ⟨?_, found⟩
      rw [List.length_append] at room
      rw [acceptAll_append, acceptAll_quiet listens (room.less (Nat.le_add_right _ _)) quiet]
      change (f.pushAll text).accept lf = _
      rw [accept_eq (f := f.pushAll text) listens.going room.pushAll]
      exact congrArg recv (pushAll_append f text [lf])

theorem terminate_pushAll (f : Fsm) (text : List UInt8) (crlf : Bool) :
    (f.pushAll (text ++ ending crlf)).terminate (ending crlf).length =
      f.pushAll (text ++ List.replicate (ending crlf).length 0) := by
  have length : (f.pushAll (text ++ ending crlf)).len - (ending crlf).length = (f.p ++ text).length := by
    rw [len_pushAll, List.length_append, ← Nat.add_assoc, Nat.add_sub_cancel, List.length_append]
    rfl
  have front : (f.p ++ (text ++ ending crlf)).take (f.p ++ text).length = f.p ++ text := by
    rw [← List.append_assoc]
    exact List.take_left
  rw [terminate, length]
  change { f with p := _ } = { f with p := _ }
  rw [show (f.pushAll (text ++ ending crlf)).p = f.p ++ (text ++ ending crlf) from rfl, front,
    List.append_assoc]

/-- The end of an empty line. -/
theorem acceptAll_ending {f : Fsm} {crlf : Bool} (listens : Listens f)
    (room : Room f (ending crlf).length) (some : f.p ≠ [])
    (bare : crlf = false → f.p.getLast? ≠ Option.some cr) :
    f.acceptAll (ending crlf) = (f.pushAll (ending crlf)).recv ∧
      (f.pushAll (ending crlf)).recvLf = (ending crlf).length :=
  @acceptAll_line f [] crlf listens room List.not_mem_nil ((List.append_nil f.p).symm ▸ some)
    ((List.append_nil f.p).symm ▸ bare)

/-! ## The header block -/

/-- The headers in the buffer are the lines, each in front of a terminator. -/
structure Holds (f : Fsm) (lines : List Line) : Prop where
  count : f.nHd = lines.length
  texts : ∀ i l, lines[i]? = some l →
    f.hl i = l.text.length ∧ ∃ rest, f.p.drop (f.hd i) = l.text ++ 0 :: rest

theorem drop_append_of_some {p q bytes : List UInt8} {n : ℕ} {c : UInt8}
    (same : p.drop n = bytes ++ c :: q) (more : List UInt8) :
    (p ++ more).drop n = bytes ++ c :: (q ++ more) := by
  have inside : n ≤ p.length := by
    by_contra outside
    rw [List.drop_eq_nil_of_le (not_le.mp outside).le] at same
    exact absurd same.symm (List.append_ne_nil_of_right_ne_nil _ (List.cons_ne_nil c q))
  rw [List.drop_append_of_le_length inside, same, List.append_assoc, List.cons_append]

theorem Holds.pushAll {f : Fsm} {lines : List Line} (holds : Holds f lines) (bytes : List UInt8) :
    Holds (f.pushAll bytes) lines where
  count := holds.count
  texts := by
    intro i l at'
    obtain ⟨length, rest, text⟩ := holds.texts i l at'
    exact ⟨length, _, drop_append_of_some text bytes⟩

/-- The headers that have been read so far, and a new line begins. -/
structure Heads (f : Fsm) (lines : List Line) : Prop where
  holds : Holds f lines
  state : f.state = .recvHeader
  buf : f.buf = f.len
  ends : f.p.getLast? ≠ some cr

def gap (crlf : Bool) : List UInt8 := List.replicate (ending crlf).length 0

theorem getLast?_gap (p : List UInt8) (crlf : Bool) : (p ++ gap crlf).getLast? ≠ some cr := by
  cases crlf
  · rw [show p ++ gap false = p ++ [0] from rfl, List.getLast?_concat]
    decide
  · rw [show p ++ gap true = (p ++ [0]) ++ [0] from (List.append_assoc p [0] [0]).symm,
      List.getLast?_concat]
    decide

theorem ending_length_ne_zero (crlf : Bool) : (ending crlf).length ≠ 0 := by
  cases crlf <;> decide

/-- A line that is not empty becomes a header. -/
theorem Heads.recv_line {f : Fsm} {lines : List Line} (heads : Heads f lines) (l : Line)
    (few : lines.length < maxHeader)
    (found : (f.pushAll l.bytes).recvLf = (ending l.crlf).length) :
    (f.pushAll l.bytes).recv = (f.pushAll (l.text ++ gap l.crlf)).addHeader (ending l.crlf).length := by
  have state : (f.pushAll l.bytes).state = .recvHeader := heads.state
  have positive := List.length_pos_iff.mpr l.nonempty
  have long : (f.pushAll (l.text ++ gap l.crlf)).len - (ending l.crlf).length ≠ f.buf := by
    rw [len_pushAll, List.length_append, gap, List.length_replicate, heads.buf]
    omega
  have below : f.nHd < maxHeader := heads.holds.count ▸ few
  rw [recv, state]
  change (f.pushAll l.bytes).recvHeader = _
  unfold recvHeader
  dsimp only
  rw [found, if_neg (ending_length_ne_zero _), Line.bytes, terminate_pushAll]
  refine (if_neg long).trans ((if_pos below).trans ?_)
  exact goto_self heads.state

theorem Heads.line {f : Fsm} {lines : List Line} (heads : Heads f lines) (l : Line)
    (room : Room f l.bytes.length) (few : lines.length < maxHeader)
    (short : l.text.length < 2 ^ 16) :
    f.acceptAll l.bytes =
        (f.pushAll (l.text ++ gap l.crlf)).addHeader (ending l.crlf).length ∧
      Heads (f.acceptAll l.bytes) (lines ++ [l]) := by
  have text : f.p ++ l.text ≠ [] := List.append_ne_nil_of_right_ne_nil _ l.nonempty
  have bare : l.crlf = false → (f.p ++ l.text).getLast? ≠ some cr := by
    intro alone
    rw [List.getLast?_append_of_ne_nil _ l.nonempty]
    exact l.bare alone
  obtain ⟨run, found⟩ := acceptAll_line (.inl heads.state) room l.inside text bare
  have step : f.acceptAll l.bytes =
      (f.pushAll (l.text ++ gap l.crlf)).addHeader (ending l.crlf).length :=
    run.trans (heads.recv_line l few found)
  refine ⟨step, ?_⟩
  have begins : (f.pushAll (l.text ++ gap l.crlf)).buf = f.len := heads.buf
  have length : ((f.pushAll (l.text ++ gap l.crlf)).len - (f.pushAll (l.text ++ gap l.crlf)).buf -
      (ending l.crlf).length) % 2 ^ 16 = l.text.length := by
    rw [len_pushAll, begins, List.length_append, gap, List.length_replicate]
    omega
  have old : Holds (f.pushAll (l.text ++ gap l.crlf)) lines := heads.holds.pushAll _
  have count : (f.acceptAll l.bytes).nHd = f.nHd + 1 := congrArg nHd step
  have buffer : (f.acceptAll l.bytes).p = f.p ++ (l.text ++ gap l.crlf) := congrArg p step
  refine ⟨⟨?_, ?_⟩, ?_, ?_, ?_⟩
  · rw [count, heads.holds.count, List.length_append]
    rfl
  · intro i l' at'
    rw [step]
    rcases Nat.lt_trichotomy i lines.length with lt | rfl | gt
    · rw [List.getElem?_append_left lt] at at'
      have ne : i ≠ f.nHd := by
        rw [heads.holds.count]
        exact lt.ne
      obtain ⟨hl, rest, text⟩ := old.texts i l' at'
      change Function.update f.hl f.nHd _ i = _ ∧
        ∃ rest, (f.p ++ (l.text ++ gap l.crlf)).drop (Function.update f.hd f.nHd _ i) = _
      rw [Function.update_of_ne ne, Function.update_of_ne ne]
      exact ⟨hl, rest, text⟩
    · rw [List.getElem?_concat_length] at at'
      obtain rfl := Option.some.inj at'
      have same : lines.length = f.nHd := heads.holds.count.symm
      change Function.update f.hl f.nHd _ _ = _ ∧
        ∃ rest, (f.p ++ (l.text ++ gap l.crlf)).drop (Function.update f.hd f.nHd _ _) = _
      rw [same, Function.update_self, Function.update_self]
      refine ⟨length, (gap l.crlf).tail, ?_⟩
      change List.drop f.buf _ = _
      rw [heads.buf, len, List.drop_left]
      cases l.crlf <;> rfl
    · rw [List.getElem?_eq_none] at at'
      · exact nomatch at'
      · rw [List.length_append]
        exact gt
  · rw [step]
    exact heads.state
  · rw [step]
    rfl
  · rw [buffer, ← List.append_assoc]
    exact getLast?_gap _ _

/-! ### The fields of the block -/

theorem tolower_ne_zero {k : UInt8} (some : k ≠ 0) : tolower k ≠ tolower 0 := by
  have zero : tolower 0 = 0 := by decide
  rw [zero, tolower]
  split
  · rename_i upper
    intro wraps
    have high : k.toNat ≤ 90 := UInt8.le_iff_toNat_le.mp upper.2
    have sum : (k + 32).toNat = 0 := congrArg UInt8.toNat wraps
    rw [UInt8.toNat_add] at sum
    change (k.toNat + 32) % 256 = 0 at sum
    omega
  · exact some

theorem matchKey_differs {key text rest : List UInt8} {hl i : ℕ} (plain : (0 : UInt8) ∉ key)
    (other : ¬ Named key text) (long : i + text.length ≤ hl) :
    matchKey hl i key (text ++ 0 :: rest) = .differs := by
  induction key generalizing text i with
  | nil => exact absurd rfl other
  | cons k key ih =>
      have letter : tolower k ≠ tolower 0 := tolower_ne_zero (List.ne_of_not_mem_cons plain).symm
      cases text with
      | nil => exact if_neg letter
      | cons c text =>
          rw [List.length_cons] at long
          rw [List.cons_append, matchKey]
          split
          · rename_i same
            rw [if_neg (by omega)]
            apply ih (List.not_mem_of_not_mem_cons plain)
            · intro named
              apply other
              exact List.cons_eq_cons.mpr ⟨same.symm, named⟩
            · omega
          · rfl

theorem matchKey_found {key name rest : List UInt8} {hl i : ℕ}
    (same : name.map tolower = key.map tolower) (long : i + name.length ≤ hl) :
    matchKey hl i key (name ++ rest) = .found rest := by
  induction key generalizing name i with
  | nil =>
      obtain rfl := List.map_eq_nil_iff.mp same
      rfl
  | cons k key ih =>
      obtain ⟨c, name, rfl, letter, same⟩ := List.map_eq_cons_iff.mp same
      rw [List.length_cons] at long
      have short : ¬ hl < i := by omega
      rw [List.cons_append, matchKey]
      refine (if_pos letter.symm).trans ((if_neg short).trans ?_)
      exact ih same (by omega)

/-- The value that stands behind a colon and spaces, up to the terminator. -/
theorem value_chunked (spaces : ℕ) (rest : List UInt8) :
    value 256 (58 :: (List.replicate spaces 32 ++ ascii "chunked") ++ 0 :: rest) =
      some (ascii "chunked") := by
  have skipped : (58 :: (List.replicate spaces 32 ++ ascii "chunked") ++ 0 :: rest).dropWhile
      (fun c => c = 32 || c = 58) = ascii "chunked" ++ 0 :: rest := by
    have split : 58 :: (List.replicate spaces 32 ++ ascii "chunked") ++ 0 :: rest =
        (58 :: List.replicate spaces 32) ++ (ascii "chunked" ++ 0 :: rest) := by
      rw [List.cons_append, List.cons_append, List.append_assoc]
    rw [split, List.dropWhile_append_of_pos]
    · rfl
    · intro c mem
      rcases List.mem_cons.mp mem with rfl | mem
      · rfl
      · rw [List.eq_of_mem_replicate mem]
        rfl
  have text : (ascii "chunked" ++ 0 :: rest).takeWhile (fun c => c ≠ 0) = ascii "chunked" := by
    have letters : ((ascii "chunked").all fun c => c ≠ 0) = true := rfl
    have stops : (0 :: rest).takeWhile (fun c => c ≠ 0) = [] :=
      List.takeWhile_cons_of_neg (by decide)
    rw [List.takeWhile_append_of_pos (List.all_eq_true.mp letters), stops, List.append_nil]
  unfold value
  rw [skipped, text]
  rfl

theorem Holds.hdrstrIn_differs {f : Fsm} {lines : List Line} {key : List UInt8} {l : ℕ}
    (holds : Holds f lines) (plain : (0 : UInt8) ∉ key) {indices rest : List ℕ}
    (others : ∀ i ∈ indices, ∃ l, lines[i]? = some l ∧ ¬ Named key l.text) :
    f.hdrstrIn key l (indices ++ rest) = f.hdrstrIn key l rest := by
  induction indices with
  | nil => rfl
  | cons i indices ih =>
      obtain ⟨line, found, other⟩ := others i (List.mem_cons_self ..)
      obtain ⟨length, tail, text⟩ := holds.texts i line found
      have differs : matchKey (f.hl i) 0 key (f.stringAt (f.hd i)) = .differs := by
        rw [stringAt, text]
        exact matchKey_differs plain other (by rw [length, Nat.zero_add])
      rw [List.cons_append, hdrstrIn, differs]
      exact ih fun i mem => others i (List.mem_cons_of_mem _ mem)

end Fsm

theorem Header.name_length (h : Header) : h.name.length = 17 := by
  have length := congrArg List.length h.named
  rw [List.length_map, List.length_map] at length
  exact length

theorem Header.line_other (h : Header) : ¬ Named (ascii "Content-Length") h.line.text := by
  intro named
  have length := h.name_length
  have begins := h.named
  rw [h.chunked] at named
  cases name : h.name with
  | nil => exact nomatch name ▸ length
  | cons c rest =>
      rw [name] at named begins
      have t := (List.cons.inj begins).1
      have c := (List.cons.inj named).1
      exact absurd (t.symm.trans c) (by decide)

theorem Header.lines_others (h : Header) :
    ∀ l ∈ h.lines, ¬ Named (ascii "Content-Length") l.text := by
  intro l mem
  rcases List.mem_append.mp mem with mem | mem
  · exact (h.others l (List.mem_append_left _ mem)).1
  · rcases List.mem_cons.mp mem with rfl | mem
    · exact h.line_other
    · exact (h.others l (List.mem_append_right _ mem)).1

namespace Fsm

theorem Holds.hdrstr_none {f : Fsm} {lines : List Line} (holds : Holds f lines) {key : List UInt8}
    (plain : (0 : UInt8) ∉ key) (others : ∀ l ∈ lines, ¬ Named key l.text) (l : ℕ) :
    f.hdrstr key l = none := by
  rw [hdrstr, ← List.append_nil (List.range f.nHd), holds.hdrstrIn_differs plain]
  · rfl
  · intro i mem
    rw [List.mem_range, holds.count] at mem
    exact ⟨_, List.getElem?_eq_getElem mem, others _ (List.getElem_mem mem)⟩

theorem Holds.no_length {f : Fsm} {lines : List Line} (holds : Holds f lines)
    (others : ∀ l ∈ lines, ¬ Named (ascii "Content-Length") l.text) :
    f.hdrint (ascii "Content-Length") = none := by
  rw [hdrint, holds.hdrstr_none (by decide) others]
  rfl

theorem Holds.chunked {f : Fsm} {h : Header} (holds : Holds f h.lines) :
    f.hdrstr (ascii "Transfer-Encoding") 256 = some (ascii "chunked") := by
  have indices : List.range f.nHd = List.range h.before.length ++
      h.before.length :: (List.range h.after.length).map (h.before.length + Nat.succ ·) := by
    rw [holds.count, Header.lines, List.length_append, List.length_cons, List.range_add,
      List.range_succ_eq_map, List.map_cons, List.map_map]
    rfl
  have found : h.lines[h.before.length]? = some h.line := by
    rw [Header.lines, List.getElem?_append_right le_rfl, Nat.sub_self]
    rfl
  obtain ⟨length, rest, text⟩ := holds.texts _ _ found
  have matched : matchKey (f.hl h.before.length) 0 (ascii "Transfer-Encoding")
      (f.stringAt (f.hd h.before.length)) =
        .found (58 :: (List.replicate h.spaces 32 ++ ascii "chunked") ++ 0 :: rest) := by
    rw [stringAt, text, h.chunked, List.append_assoc]
    apply matchKey_found h.named
    rw [length, h.chunked, List.length_append]
    omega
  rw [hdrstr, indices, holds.hdrstrIn_differs (by decide), hdrstrIn, matched]
  · exact value_chunked h.spaces rest
  · intro i mem
    have lt := List.mem_range.mp mem
    refine ⟨h.before[i], ?_, ?_⟩
    · rw [Header.lines, List.getElem?_append_left lt, List.getElem?_eq_getElem lt]
    · exact (h.others _ (List.mem_append_left _ (List.getElem_mem lt))).2

/-! ### The end of the block -/

/-- A size comes next; the buffer holds what was decoded behind the header block. -/
structure Sizes (f : Fsm) (data : List UInt8) : Prop where
  state : f.state = .recvBodylen
  buf : f.buf = f.len
  start : f.bd ≤ f.len
  decoded : f.p.drop f.bd = data
  bl : f.bl = data.length
  some : f.p ≠ []

theorem putrc_eq (f : Fsm) : ∃ version res, f.putrc = { f with version := version, res := res } := by
  unfold putrc
  dsimp only
  split
  · exact ⟨_, _, rfl⟩
  · split
    · exact ⟨_, _, rfl⟩
    · exact ⟨f.version, _, rfl⟩

theorem Holds.headerEnd {f : Fsm} {h : Header} (holds : Holds f h.lines) (some : f.p ≠ []) :
    Sizes f.headerEnd [] ∧ f.headerEnd.p = f.p ∧ f.headerEnd.max = f.max := by
  obtain ⟨version, res, same⟩ := f.putrc_eq
  have holds : Holds f.putrc h.lines := by
    rw [same]
    exact ⟨holds.count, holds.texts⟩
  have run : f.headerEnd =
      { f.putrc with buf := f.putrc.len, bd := f.putrc.len, bl := 0, state := .recvBodylen } := by
    unfold Fsm.headerEnd
    dsimp only
    rw [holds.no_length h.lines_others, holds.chunked]
    rfl
  have buffer : f.putrc.p = f.p := same ▸ rfl
  rw [run]
  refine ⟨⟨rfl, rfl, le_rfl, List.drop_length, rfl, ?_⟩, buffer, same ▸ rfl⟩
  change f.putrc.p ≠ []
  rw [buffer]
  exact some

/-- The empty line behind the headers. -/
theorem Heads.empty {f : Fsm} {lines : List Line} (heads : Heads f lines) (some : f.p ≠ []) {crlf : Bool}
    (room : Room f (ending crlf).length) :
    f.acceptAll (ending crlf) = (f.pushAll (gap crlf)).headerEnd := by
  obtain ⟨run, found⟩ := acceptAll_ending (.inl heads.state) room some fun _ => heads.ends
  have state : (f.pushAll (ending crlf)).state = .recvHeader := heads.state
  have empty : (f.pushAll (gap crlf)).len - (ending crlf).length = f.buf := by
    rw [len_pushAll, gap, List.length_replicate, heads.buf, Nat.add_sub_cancel]
  have ended : (f.pushAll (ending crlf)).terminate (ending crlf).length = f.pushAll (gap crlf) :=
    terminate_pushAll f [] crlf
  rw [run, recv, state]
  change (f.pushAll (ending crlf)).recvHeader = _
  unfold recvHeader
  dsimp only
  rw [found, if_neg (ending_length_ne_zero _), ended]
  exact if_pos empty

theorem Heads.finish {f : Fsm} {h : Header} (heads : Heads f h.lines) (some : f.p ≠ [])
    (room : Room f (ending h.crlf).length) :
    Sizes (f.acceptAll (ending h.crlf)) [] ∧
      (f.acceptAll (ending h.crlf)).p = f.p ++ gap h.crlf ∧
        (f.acceptAll (ending h.crlf)).max = f.max := by
  rw [heads.empty some room]
  exact (heads.holds.pushAll (gap h.crlf)).headerEnd (List.append_ne_nil_of_left_ne_nil some _)

/-! ## Chunks -/

theorem hexFrom_le {n v : ℕ} {size : List UInt8} (value : hexFrom n size = some v) : n ≤ v := by
  induction size generalizing n with
  | nil => exact (Option.some.inj value).le
  | cons c size ih =>
      obtain ⟨d, _, rest⟩ := Option.bind_eq_some_iff.mp value
      have le := ih rest
      omega

theorem hexDigit_ne {c : UInt8} {d : ℕ} (digit : hexDigit c = some d) :
    c ≠ 0 ∧ c ≠ 45 ∧ c ≠ lf := by
  refine ⟨?_, ?_, ?_⟩ <;> rintro rfl <;> exact nomatch digit

theorem hexFrom_no_lf {n v : ℕ} {size : List UInt8} (value : hexFrom n size = some v) :
    lf ∉ size := by
  induction size generalizing n with
  | nil => exact List.not_mem_nil
  | cons c size ih =>
      obtain ⟨d, digit, rest⟩ := Option.bind_eq_some_iff.mp value
      exact List.not_mem_cons_of_ne_of_not_mem (hexDigit_ne digit).2.2.symm (ih rest)

theorem int32_of_small {n : ℤ} (low : -2 ^ 31 ≤ n) (high : n < 2 ^ 31) : int32 n = n :=
  Int.bmod_eq_of_le_mul_two (by omega) (by omega)

theorem digitsFrom_hex {max n v pos : ℕ} {size rest : List UInt8}
    (value : hexFrom n size = some v) (small : v < 2 ^ 31) (short : pos + size.length < max) :
    digitsFrom 16 hexDigit max n pos (size ++ 0 :: rest) = some (v : ℤ) := by
  induction size generalizing n pos with
  | nil =>
      obtain rfl := Option.some.inj value
      exact if_pos rfl
  | cons c size ih =>
      obtain ⟨d, digit, value⟩ := Option.bind_eq_some_iff.mp value
      rw [List.length_cons] at short
      have below : ¬ max ≤ pos + 1 := by omega
      have le := hexFrom_le value
      have next : int32 ((n : ℤ) * (16 : ℕ) + d) = ((n * 16 + d : ℕ) : ℤ) := by
        rw [int32_of_small (by omega) (by omega)]
        omega
      rw [List.cons_append, digitsFrom, if_neg (hexDigit_ne digit).1, digit]
      refine (if_neg below).trans ?_
      rw [next]
      exact ih value (by omega)

/-- The number of a size that stands in front of terminators. -/
theorem htoi_hex {v : ℕ} {size : List UInt8} (value : hexFrom 0 size = some v) (small : v < 2 ^ 31) :
    htoi (size ++ [0, 0]) (size.length + 2) = some (v : ℤ) := by
  have digits : digitsFrom 16 hexDigit (size.length + 2) 0 0 (size ++ [0, 0]) = some (v : ℤ) :=
    digitsFrom_hex value small (by omega)
  unfold htoi number
  split
  · rename_i s same
    cases size with
    | nil => exact nomatch same
    | cons c size =>
        obtain ⟨d, digit, _⟩ := Option.bind_eq_some_iff.mp value
        exact absurd (List.cons.inj same).1 (hexDigit_ne digit).2.1
  · exact digits

/-- The line with a size is read. -/
theorem Sizes.line {f : Fsm} {data size : List UInt8} {v : ℕ} (sizes : Sizes f data)
    (value : hexFrom 0 size = Option.some v) (small : v < 2 ^ 31)
    (room : Room f (size ++ ending true).length) :
    f.acceptAll (size ++ ending true) =
      if v = 0 then
        { f.pushAll (size ++ gap true) with
          buf := f.len + (size.length + 2)
          state := .recvFooter }
      else { f with bl := (f.bl + v) % 2 ^ 32, state := .recvBody } := by
  obtain ⟨run, found⟩ := acceptAll_line (.inr (.inr (.inl sizes.state))) room (hexFrom_no_lf value)
    (List.append_ne_nil_of_left_ne_nil sizes.some size) nofun
  have state : (f.pushAll (size ++ ending true)).state = .recvBodylen := sizes.state
  have begins : (f.pushAll (size ++ gap true)).buf = f.len := sizes.buf
  have length : (f.pushAll (size ++ gap true)).len = f.len + (size.length + 2) := by
    rw [len_pushAll, List.length_append]
    rfl
  have text : (f.pushAll (size ++ gap true)).stringAt f.len = size ++ [0, 0] := List.drop_left
  have front : (f.pushAll (size ++ gap true)).p.take f.len = f.p := List.take_left
  have number : htoi ((f.pushAll (size ++ gap true)).stringAt f.len)
      ((f.pushAll (size ++ gap true)).len - f.len) = Option.some (v : ℤ) := by
    rw [text, length, Nat.add_sub_cancel_left]
    exact htoi_hex value small
  have ended : (f.pushAll (size ++ ending true)).terminate 2 = f.pushAll (size ++ gap true) :=
    terminate_pushAll f size true
  rw [run, recv, state]
  change (f.pushAll (size ++ ending true)).recvBodylen = _
  unfold recvBodylen
  dsimp only
  rw [found, if_pos (ending_length_ne_zero true)]
  change (f.pushAll (size ++ ending true)).chunkSize 2 .recvBody = _
  unfold chunkSize
  dsimp only
  rw [ended, begins, number, front, length]
  rcases eq_or_ne v 0 with rfl | ne
  · rfl
  · have bl : (((f.bl : ℤ) + v) % 2 ^ 32).toNat = (f.bl + v) % 2 ^ 32 := by omega
    have some : (v : ℤ) ≠ 0 := by omega
    rw [if_neg ne]
    refine (if_neg some).trans ?_
    rw [← bl, sizes.buf]
    rfl

theorem recvLf_le (f : Fsm) : f.recvLf ≤ 2 ∧ f.recvLf ≤ f.len := by
  unfold recvLf
  split
  · omega
  · split <;> omega

/-- The data of a chunk with `rest` bytes still to come. -/
structure Data (f : Fsm) (rest : ℕ) : Prop where
  state : f.state = .recvBody
  ends : f.bd + f.bl = f.len + rest
  small : rest + 2 < 2 ^ 31

/-- In the data a line feed ends nothing. -/
theorem Data.accept {f : Fsm} {rest : ℕ} (within : Data f (rest + 1)) (room : Room f 1) (c : UInt8) :
    f.accept c = f.pushAll [c] := by
  have going : ¬ f.state.Final := by
    rw [within.state]
    decide
  have state : (f.pushAll [c]).state = .recvBody := within.state
  have length : (f.pushAll [c]).len = f.len + 1 := len_pushAll f [c]
  rw [accept_eq going room]
  change (f.pushAll [c]).recv = _
  rw [recv, state]
  change (f.pushAll [c]).recvBody = _
  unfold recvBody
  dsimp only
  split
  · exact goto_self within.state
  · rename_i found
    have positive : 0 < (f.pushAll [c]).recvLf := Nat.pos_of_ne_zero found
    have bounds := (f.pushAll [c]).recvLf_le
    have ends := within.ends
    have small := within.small
    rw [length] at bounds
    have diff : 0 < int32 (((f.pushAll [c]).bd + (f.pushAll [c]).bl : ℕ) -
        ((f.pushAll [c]).len - (f.pushAll [c]).recvLf : ℕ)) := by
      change 0 < int32 ((f.bd + f.bl : ℕ) - ((f.pushAll [c]).len - (f.pushAll [c]).recvLf : ℕ))
      rw [length, int32_of_small (by omega) (by omega)]
      omega
    exact (if_pos diff).trans (goto_self within.state)

theorem Data.acceptAll {f : Fsm} {bytes : List UInt8} (within : Data f bytes.length)
    (room : Room f bytes.length) : f.acceptAll bytes = f.pushAll bytes := by
  induction bytes generalizing f with
  | nil => exact (pushAll_nil f).symm
  | cons c bytes ih =>
      have first : f.accept c = f.pushAll [c] := within.accept (room.less (Nat.succ_pos _)) c
      have room' : Room (f.pushAll [c]) bytes.length :=
        Room.pushAll (room.less (Nat.add_comm 1 bytes.length).le)
      have within' : Data (f.pushAll [c]) bytes.length := by
        refine ⟨within.state, within.ends.trans ?_, (Nat.le_succ _).trans_lt within.small⟩
        rw [len_pushAll, List.length_cons, Nat.add_assoc, Nat.add_comm bytes.length]
        rfl
      change (f.accept c).acceptAll bytes = _
      rw [first, ih within' room', pushAll_append]
      rfl

/-- Behind the data the line end leads to the next size. -/
theorem Data.finish {f : Fsm} (within : Data f 0) (room : Room f 2) (some : f.p ≠ []) :
    f.acceptAll (ending true) = { f with buf := f.len, state := .recvBodylen } := by
  obtain ⟨run, found⟩ :=
    @acceptAll_ending f true (.inr (.inl within.state)) room some nofun
  have state : (f.pushAll (ending true)).state = .recvBody := within.state
  have length : (f.pushAll (ending true)).len = f.len + 2 := len_pushAll f _
  have front : (f.pushAll (ending true)).p.take f.len = f.p := List.take_left
  have two : (f.pushAll (ending true)).recvLf = 2 := found
  have ends : ((f.bd + f.bl : ℕ) : ℤ) - (f.len + 2 - 2 : ℕ) = 0 := by
    rw [within.ends]
    omega
  have diff : int32 (((f.pushAll (ending true)).bd + (f.pushAll (ending true)).bl : ℕ) -
      (f.len + 2 - 2 : ℕ)) = 0 :=
    (congrArg int32 ends).trans (by decide)
  have cut : (f.pushAll (ending true)).truncate (f.len + 2 - 2) = f := by
    rw [truncate, Nat.add_sub_cancel, front]
    rfl
  rw [run, recv, state]
  change (f.pushAll (ending true)).recvBody = _
  unfold recvBody
  dsimp only
  rw [two, if_neg (by decide : ¬ (2 : ℕ) = 0), length, diff, if_neg (Int.lt_irrefl 0), if_neg (Int.lt_irrefl 0), cut]

/-- A chunk adds its data to what was decoded. -/
theorem Sizes.chunk {f : Fsm} {data : List UInt8} (sizes : Sizes f data) (c : Chunk)
    (room : Room f c.bytes.length) (short : c.data.length + 2 < 2 ^ 31) :
    Sizes (f.acceptAll c.bytes) (data ++ c.data) ∧
      (f.acceptAll c.bytes).len = f.len + c.data.length ∧
        (f.acceptAll c.bytes).max = f.max ∧ (f.acceptAll c.bytes).nHd = f.nHd := by
  have fits := room.fits
  have capacity := room.small
  have total := c.length_bytes
  have positive := List.length_pos_iff.mpr c.nonempty
  have length : f.len = f.bd + data.length := by
    rw [← sizes.decoded, List.length_drop]
    have start := sizes.start
    unfold len at start ⊢
    omega
  have bl : (f.bl + c.data.length) % 2 ^ 32 = f.bl + c.data.length := by
    rw [sizes.bl]
    omega
  let g : Fsm := { f with bl := f.bl + c.data.length, state := .recvBody }
  have line : f.acceptAll (c.size ++ ending true) = g := by
    rw [sizes.line c.sized (by omega) (room.less (by omega)), if_neg (by omega), bl]
  have within : Data g c.data.length := by
    refine ⟨rfl, ?_, short⟩
    change f.bd + (f.bl + c.data.length) = f.len + c.data.length
    rw [sizes.bl]
    omega
  have room₁ : Room g (c.data.length + 2) :=
    ⟨(Nat.add_le_add_left (by omega) _).trans_lt fits, capacity⟩
  have read : g.acceptAll c.data = g.pushAll c.data :=
    within.acceptAll (room₁.less (Nat.le_add_right _ _))
  have done : Data (g.pushAll c.data) 0 :=
    ⟨rfl, within.ends.trans (len_pushAll g c.data).symm, by decide⟩
  have some : (g.pushAll c.data).p ≠ [] := List.append_ne_nil_of_left_ne_nil sizes.some _
  have run : f.acceptAll c.bytes =
      { g.pushAll c.data with buf := (g.pushAll c.data).len, state := .recvBodylen } := by
    rw [Chunk.bytes, acceptAll_append, acceptAll_append, line, read, done.finish room₁.pushAll some]
  rw [run]
  refine ⟨⟨rfl, rfl, ?_, ?_, ?_, some⟩, len_pushAll g c.data, rfl, rfl⟩
  · change f.bd ≤ (g.pushAll c.data).len
    rw [len_pushAll]
    exact sizes.start.trans (Nat.le_add_right _ _)
  · change (f.p ++ c.data).drop f.bd = _
    rw [List.drop_append_of_le_length sizes.start, sizes.decoded]
  · change f.bl + c.data.length = _
    rw [sizes.bl, List.length_append]

theorem Sizes.chunks {f : Fsm} {data : List UInt8} (sizes : Sizes f data) (chunks : List Chunk) {n : ℕ}
    (room : Room f ((chunks.flatMap Chunk.bytes).length + n))
    (short : ∀ c ∈ chunks, c.data.length + 2 < 2 ^ 31) :
    Sizes (f.acceptAll (chunks.flatMap Chunk.bytes)) (data ++ chunks.flatMap Chunk.data) ∧
      Room (f.acceptAll (chunks.flatMap Chunk.bytes)) n ∧
        (f.acceptAll (chunks.flatMap Chunk.bytes)).nHd = f.nHd := by
  induction chunks generalizing f data with
  | nil =>
      rw [List.flatMap_nil, List.flatMap_nil, List.append_nil]
      exact ⟨sizes, room.less (Nat.le_add_left _ _), rfl⟩
  | cons c chunks ih =>
      rw [List.flatMap_cons, List.length_append] at room
      obtain ⟨sizes', length, max, count⟩ :=
        sizes.chunk c (room.less (by omega)) (short c (List.mem_cons_self ..))
      have total := c.length_bytes
      have room' : Room (f.acceptAll c.bytes) ((chunks.flatMap Chunk.bytes).length + n) :=
        room.after length max (by omega)
      rw [List.flatMap_cons, List.flatMap_cons, acceptAll_append, ← List.append_assoc, ← count]
      exact ih sizes' room' fun c mem => short c (List.mem_cons_of_mem _ mem)

/-! ## Footers -/

/-- The zero chunk has been read, and a new line begins behind `count` headers and footers. -/
structure Footing (f : Fsm) (data : List UInt8) (count : ℕ) : Prop where
  state : f.state = .recvFooter
  buf : f.buf = f.len
  ends : f.p.getLast? ≠ some cr
  some : f.p ≠ []
  start : f.bd ≤ f.len
  stored : data <+: f.p.drop f.bd
  bl : f.bl = data.length
  count : f.nHd = count

theorem Footing.stored_pushAll {f : Fsm} {data : List UInt8} {count : ℕ} (footing : Footing f data count)
    (bytes : List UInt8) : data <+: (f.pushAll bytes).p.drop f.bd := by
  change data <+: (f.p ++ bytes).drop f.bd
  rw [List.drop_append_of_le_length footing.start]
  exact footing.stored.trans (List.prefix_append _ _)

/-- A footer is kept like a header. -/
theorem Footing.line {f : Fsm} {data : List UInt8} {count : ℕ} (footing : Footing f data count)
    (l : Line) (room : Room f l.bytes.length) (few : count < maxHeader) :
    Footing (f.acceptAll l.bytes) data (count + 1) ∧
      (f.acceptAll l.bytes).len = f.len + l.bytes.length ∧ (f.acceptAll l.bytes).max = f.max := by
  have text : f.p ++ l.text ≠ [] := List.append_ne_nil_of_right_ne_nil _ l.nonempty
  have bare : l.crlf = false → (f.p ++ l.text).getLast? ≠ Option.some cr := by
    intro alone
    rw [List.getLast?_append_of_ne_nil _ l.nonempty]
    exact l.bare alone
  obtain ⟨run, found⟩ :=
    acceptAll_line (.inr (.inr (.inr footing.state))) room l.inside text bare
  have state : (f.pushAll (l.text ++ ending l.crlf)).state = .recvFooter := footing.state
  have positive := List.length_pos_iff.mpr l.nonempty
  have length : (f.pushAll (l.text ++ gap l.crlf)).len = f.len + l.bytes.length := by
    rw [len_pushAll, Line.bytes, List.length_append, List.length_append, gap, List.length_replicate]
  have long : (f.pushAll (l.text ++ gap l.crlf)).len - (ending l.crlf).length ≠ f.buf := by
    rw [length, Line.bytes, List.length_append, footing.buf]
    omega
  have below : f.nHd < maxHeader := footing.count ▸ few
  have step : f.acceptAll l.bytes =
      ((f.pushAll (l.text ++ gap l.crlf)).addHeader (ending l.crlf).length).goto .recvFooter := by
    rw [Line.bytes, run, recv, state]
    change (f.pushAll (l.text ++ ending l.crlf)).recvFooter = _
    unfold recvFooter
    dsimp only
    rw [found, if_neg (ending_length_ne_zero _), terminate_pushAll]
    exact (if_neg long).trans (if_pos below)
  rw [step]
  refine ⟨⟨rfl, rfl, ?_, ?_, ?_, ?_, footing.bl, congrArg Nat.succ footing.count⟩, length, rfl⟩
  · change (f.p ++ (l.text ++ gap l.crlf)).getLast? ≠ _
    rw [← List.append_assoc]
    exact getLast?_gap _ _
  · exact List.append_ne_nil_of_left_ne_nil footing.some _
  · exact footing.start.trans ((Nat.le_add_right _ _).trans length.ge)
  · exact footing.stored_pushAll _

theorem Footing.lines {f : Fsm} {data : List UInt8} {count n : ℕ} (footing : Footing f data count)
    (lines : List Line) (room : Room f ((lines.flatMap Line.bytes).length + n))
    (few : count + lines.length ≤ maxHeader) :
    Footing (f.acceptAll (lines.flatMap Line.bytes)) data (count + lines.length) ∧
      Room (f.acceptAll (lines.flatMap Line.bytes)) n := by
  induction lines generalizing f count with
  | nil => exact ⟨footing, room.less (Nat.le_add_left _ _)⟩
  | cons l lines ih =>
      rw [List.flatMap_cons, List.length_append, Nat.add_assoc] at room
      rw [List.length_cons] at few ⊢
      obtain ⟨footing', length, max⟩ :=
        footing.line l (room.less (Nat.le_add_right _ _)) (by omega)
      have next := ih footing' (room.after length max le_rfl) (by omega)
      rw [List.flatMap_cons, acceptAll_append, Nat.add_comm lines.length, ← Nat.add_assoc]
      exact next

/-- The empty line behind the footers. -/
theorem Footing.finish {f : Fsm} {data : List UInt8} {count : ℕ} (footing : Footing f data count)
    (room : Room f (ending true).length) :
    (f.acceptAll (ending true)).state = .recvFinish ∧
      (f.acceptAll (ending true)).body = data ∧
      (f.acceptAll (ending true)).bodylen = data.length := by
  obtain ⟨run, found⟩ :=
    @acceptAll_ending f true (.inr (.inr (.inr footing.state))) room footing.some nofun
  have state : (f.pushAll (ending true)).state = .recvFooter := footing.state
  have ended : (f.pushAll (ending true)).terminate 2 = f.pushAll (gap true) :=
    terminate_pushAll f [] true
  have empty : (f.pushAll (gap true)).len - 2 = f.buf := by
    rw [len_pushAll, footing.buf]
    rfl
  have two : (f.pushAll (ending true)).recvLf = 2 := found
  have step : (f.pushAll (ending true)).recv = (f.pushAll (gap true)).goto .recvFinish := by
    rw [recv, state]
    change (f.pushAll (ending true)).recvFooter = _
    unfold recvFooter
    dsimp only
    rw [two, if_neg (by decide : ¬ (2 : ℕ) = 0), ended]
    exact if_pos empty
  rw [run, step]
  refine ⟨rfl, ?_, footing.bl⟩
  obtain ⟨rest, stored⟩ := footing.stored_pushAll (gap true)
  change ((f.pushAll (gap true)).p.drop f.bd).take f.bl = data
  rw [← stored, footing.bl]
  exact List.take_left

/-- The zero chunk. -/
theorem Sizes.zero {f : Fsm} {data last : List UInt8} (sizes : Sizes f data)
    (zero : hexFrom 0 last = Option.some 0) {n : ℕ} (room : Room f ((last ++ ending true).length + n)) :
    Footing (f.acceptAll (last ++ ending true)) data f.nHd ∧
      Room (f.acceptAll (last ++ ending true)) n := by
  have line : f.acceptAll (last ++ ending true) =
      { f.pushAll (last ++ gap true) with
        buf := f.len + (last.length + 2)
        state := .recvFooter } := by
    rw [sizes.line zero (by decide) (room.less (Nat.le_add_right _ _)), if_pos rfl]
  have length : (f.pushAll (last ++ gap true)).len = f.len + (last.length + 2) := by
    rw [len_pushAll, List.length_append]
    rfl
  have start : f.bd ≤ f.p.length := sizes.start
  rw [line]
  refine ⟨⟨rfl, length.symm, ?_, ?_, ?_, ?_, sizes.bl, rfl⟩, room.after length rfl ?_⟩
  · change (f.p ++ (last ++ gap true)).getLast? ≠ _
    rw [← List.append_assoc]
    exact getLast?_gap _ _
  · exact List.append_ne_nil_of_left_ne_nil sizes.some _
  · exact sizes.start.trans ((Nat.le_add_right _ _).trans length.ge)
  · change data <+: (f.p ++ (last ++ gap true)).drop f.bd
    rw [List.drop_append_of_le_length start, sizes.decoded]
    exact List.prefix_append _ _
  · rw [List.length_append]
    exact le_rfl

/-- The zero chunk and the empty footer end the message. -/
theorem Sizes.finish {f : Fsm} {data last : List UInt8} (sizes : Sizes f data)
    (zero : hexFrom 0 last = Option.some 0)
    (room : Room f (last ++ ending true ++ ending true).length) :
    (f.acceptAll (last ++ ending true ++ ending true)).state = .recvFinish ∧
      (f.acceptAll (last ++ ending true ++ ending true)).body = data ∧
      (f.acceptAll (last ++ ending true ++ ending true)).bodylen = data.length := by
  rw [List.length_append] at room
  obtain ⟨footing, room⟩ := sizes.zero zero room
  rw [acceptAll_append]
  exact footing.finish room

theorem Heads.lines {f : Fsm} {lines more : List Line} {n : ℕ} (heads : Heads f lines)
    (few : (lines ++ more).length ≤ maxHeader)
    (room : Room f ((more.flatMap Line.bytes).length + n))
    (short : ∀ l ∈ more, l.text.length < 2 ^ 16) :
    Heads (f.acceptAll (more.flatMap Line.bytes)) (lines ++ more) ∧
      Room (f.acceptAll (more.flatMap Line.bytes)) n ∧
        (f.acceptAll (more.flatMap Line.bytes)).bl = f.bl := by
  induction more generalizing f lines with
  | nil =>
      rw [List.append_nil]
      exact ⟨heads, room.less (Nat.le_add_left _ _), rfl⟩
  | cons l more ih =>
      rw [List.flatMap_cons, List.length_append, Nat.add_assoc] at room
      have below : lines.length < maxHeader := by
        rw [List.length_append, List.length_cons] at few
        omega
      obtain ⟨step, heads'⟩ :=
        heads.line l (room.less (Nat.le_add_right _ _)) below (short l (List.mem_cons_self ..))
      have length : (f.acceptAll l.bytes).len = f.len + l.bytes.length := by
        rw [step]
        change (f.pushAll (l.text ++ gap l.crlf)).len = _
        rw [len_pushAll, Line.bytes, List.length_append, List.length_append, gap,
          List.length_replicate]
      have max : (f.acceptAll l.bytes).max = f.max := step ▸ rfl
      have room' : Room (f.acceptAll l.bytes) ((more.flatMap Line.bytes).length + n) :=
        room.after length max le_rfl
      have split : lines ++ l :: more = lines ++ [l] ++ more :=
        (List.append_assoc lines [l] more).symm
      rw [List.flatMap_cons, acceptAll_append, split]
      obtain ⟨heads, room, same⟩ :=
        ih heads' (split ▸ few) room' fun l mem => short l (List.mem_cons_of_mem _ mem)
      have stays : (f.acceptAll l.bytes).bl = f.bl := step ▸ rfl
      exact ⟨heads, room, same.trans stays⟩

theorem Holds.p_ne_nil {f : Fsm} {lines : List Line} (holds : Holds f lines) (some : lines ≠ []) :
    f.p ≠ [] := by
  obtain ⟨l, rest, rfl⟩ := List.exists_cons_of_ne_nil some
  obtain ⟨_, tail, text⟩ := holds.texts 0 l rfl
  intro empty
  rw [empty, List.drop_nil] at text
  exact absurd text.symm (List.append_ne_nil_of_right_ne_nil _ (List.cons_ne_nil 0 tail))

theorem heads_reset (f : Fsm) (chunkSize : ℕ) : Heads (f.reset chunkSize) [] where
  holds := ⟨rfl, nofun⟩
  state := rfl
  buf := rfl
  ends := nofun

end Fsm

open Fsm

theorem room_reset (f : Fsm) {max n : ℕ} (fits : n < max) (small : max < 2 ^ 32) :
    Room (f.reset max) n := by
  refine ⟨?_, small⟩
  change 0 + n < max
  rw [Nat.zero_add]
  exact fits

/-- The header block of a chunked message. -/
theorem Header.read (h : Header) (f : Fsm) {max n : ℕ} (room : Room (f.reset max) (h.bytes.length + n))
    (short : ∀ l ∈ h.lines, l.text.length < 2 ^ 16) :
    Sizes ((f.reset max).acceptAll h.bytes) [] ∧
      ((f.reset max).acceptAll h.bytes).p.getLast? ≠ some cr ∧
        Room ((f.reset max).acceptAll h.bytes) n := by
  have few : ([] ++ h.lines).length ≤ maxHeader := h.few
  have some : [] ++ h.lines ≠ [] :=
    List.append_ne_nil_of_right_ne_nil h.before (List.cons_ne_nil h.line h.after)
  rw [Header.bytes, List.length_append, Nat.add_assoc] at room
  obtain ⟨heads, room, _⟩ := (heads_reset f max).lines few room short
  obtain ⟨sizes, buffer, same⟩ :=
    heads.finish (heads.holds.p_ne_nil some) (room.less (Nat.le_add_right _ _))
  rw [Header.bytes, acceptAll_append]
  refine ⟨sizes, buffer.symm ▸ getLast?_gap _ _, ?_, same.symm ▸ room.small⟩
  rw [same, len, buffer, List.length_append, gap, List.length_replicate, Nat.add_assoc]
  exact room.fits

/-- A chunked message is decoded when it fits the buffer, its lines 16 bits and its chunks an
`int`. -/
theorem Message.decoded (m : Message) (f : Fsm) {max : ℕ} (fits : m.bytes.length < max)
    (small : max < 2 ^ 32) (lines : ∀ l ∈ m.header.lines, l.text.length < 2 ^ 16)
    (chunks : ∀ c ∈ m.chunks, c.data.length + 2 < 2 ^ 31) :
    ((f.reset max).acceptAll m.bytes).state = .recvFinish ∧
      ((f.reset max).acceptAll m.bytes).body = m.body ∧
      ((f.reset max).acceptAll m.bytes).bodylen = m.body.length := by
  have room := room_reset f fits small
  rw [Message.bytes, List.length_append, List.length_append] at room
  obtain ⟨sizes, _, room⟩ := m.header.read f room lines
  obtain ⟨sizes, room, _⟩ := sizes.chunks m.chunks room chunks
  have ends := sizes.finish m.zero room
  rw [Message.bytes, acceptAll_append _ m.header.bytes, acceptAll_append _ (m.chunks.flatMap Chunk.bytes)]
  exact ends

theorem length_le_flatMap {α : Type} {bytes : α → List UInt8} {a : α} {as : List α} (mem : a ∈ as) :
    (bytes a).length ≤ (as.flatMap bytes).length := by
  rw [List.flatMap_def]
  exact (List.sublist_flatten_of_mem (List.mem_map_of_mem mem)).length_le

theorem Message.line_length (m : Message) {l : Line} (mem : l ∈ m.header.lines) :
    l.text.length ≤ m.bytes.length := by
  have line : l.bytes.length ≤ (m.header.lines.flatMap Line.bytes).length := length_le_flatMap mem
  rw [Line.bytes, List.length_append] at line
  rw [Message.bytes, Header.bytes, List.length_append, List.length_append]
  omega

theorem Message.chunk_length (m : Message) {c : Chunk} (mem : c ∈ m.chunks) :
    c.data.length ≤ m.bytes.length := by
  have chunk : c.bytes.length ≤ (m.chunks.flatMap Chunk.bytes).length := length_le_flatMap mem
  rw [c.length_bytes] at chunk
  rw [Message.bytes, List.length_append, List.length_append]
  omega

/-- A chunked message that fits the buffer is decoded: the receiver finishes with the data of the
chunks as its body.  `reset` is given `READSIZE`, 512; the length of a header is kept in 16 bits. -/
theorem chunked_decoded (f : Fsm) {chunkSize : ℕ} (promised : chunkSize ≤ 65536) (m : Message)
    (fits : m.bytes.length < chunkSize) :
    ((f.reset chunkSize).append m.bytes m.bytes.length).state = .recvFinish ∧
      ((f.reset chunkSize).append m.bytes m.bytes.length).body = m.body ∧
      ((f.reset chunkSize).append m.bytes m.bytes.length).bodylen = m.body.length := by
  rw [append_eq]
  apply m.decoded f fits (by omega)
  · intro l mem
    have length := m.line_length mem
    omega
  · intro c mem
    have length := m.chunk_length mem
    omega

/-- A response with the chunks `hello` and a line end. -/
def hello : Message where
  header := {
    before := [⟨ascii "HTTP/1.1 200 OK", true, by decide, by decide, nofun⟩]
    line := ⟨ascii "Transfer-Encoding: chunked", true, by decide, by decide, nofun⟩
    after := [⟨ascii "Connection: close", false, by decide, by decide, by decide⟩]
    name := ascii "Transfer-Encoding"
    spaces := 1
    crlf := true
    few := by decide
    named := rfl
    chunked := by decide
    others := by decide }
  chunks := [⟨ascii "5", ascii "hello", by decide, by decide⟩,
    ⟨ascii "02", [cr, lf], by decide, by decide⟩]
  last := ascii "0"
  nonempty := by decide
  zero := by decide

def cleared : Fsm :=
  ⟨0, 0, .invalid, 0, fun _ => 0, 0, 0, fun _ => 0, 0, 0, []⟩

theorem chunked_decoded_hello :
    ((cleared.reset 512).append hello.bytes hello.bytes.length).state = .recvFinish ∧
      ((cleared.reset 512).append hello.bytes hello.bytes.length).body =
        ascii "hello" ++ [cr, lf] ∧
      ((cleared.reset 512).append hello.bytes hello.bytes.length).bodylen = 7 :=
  chunked_decoded cleared (by decide) hello (by decide)

end Cyue.Http
