import Cyue.Http.Chunked

/-!
# Bodies without a frame

A receiver that has read headers without `Content-Length` and without `chunked` is at its
end, or waits for websocket frames; its body is what an earlier message left.  In a
chunked message the frame of a chunk costs at least three bytes, and the end of the
message two, so that a body with nothing but two line ends behind it is longer than what
is decoded from it.
-/

namespace Cyue.Http.Fsm

theorem feed_either {motive : Fsm → Prop} (f : Fsm) (c : UInt8) (full : motive (f.goto .error))
    (room : motive (f.push c).recv) : motive (f.feed c) := by
  unfold feed
  split
  · exact full
  · exact room

/-! ## Headers without a body -/

/-- No body is read any more; `bl` is the length of an earlier one. -/
def Bodyless (f : Fsm) (bl : ℕ) : Prop :=
  f.state = .error ∨ f.state = .websocketEstablish ∨ (f.state = .recvFinish ∧ f.bl = bl)

theorem Heads.bodyless {f : Fsm} {lines : List Line} (heads : Heads f lines) (some : f.p ≠ [])
    {crlf : Bool} (room : Room f (ending crlf).length)
    (others : ∀ l ∈ lines,
      ¬ Named (ascii "Content-Length") l.text ∧ ¬ Named (ascii "Transfer-Encoding") l.text) :
    Bodyless (f.acceptAll (ending crlf)) f.bl := by
  obtain ⟨version, res, same⟩ := (f.pushAll (gap crlf)).putrc_eq
  obtain ⟨count, texts⟩ := heads.holds.pushAll (gap crlf)
  have holds : Holds (f.pushAll (gap crlf)).putrc lines := by
    rw [same]
    exact ⟨count, texts⟩
  have bl : (f.pushAll (gap crlf)).putrc.bl = f.bl := same ▸ rfl
  rw [heads.empty some room]
  unfold Fsm.headerEnd
  dsimp only
  rw [holds.no_length fun l mem => (others l mem).1,
    holds.hdrstr_none (by decide) fun l mem => (others l mem).2]
  change Bodyless (if (false = true) then _ else _) f.bl
  rw [if_neg Bool.false_ne_true]
  split
  · exact .inr (.inl rfl)
  · split
    · exact .inl rfl
    · exact .inr (.inr ⟨rfl, bl⟩)

theorem Bodyless.accept {f : Fsm} {bl : ℕ} (bodyless : Bodyless f bl) (c : UInt8) :
    Bodyless (f.accept c) bl := by
  unfold Fsm.accept
  split
  · exact bodyless
  · rename_i going
    rcases bodyless with error | websocket | finish
    · exact absurd (by rw [error]; decide) going
    · refine feed_either (motive := fun g => Bodyless g bl) f c (.inl rfl) ?_
      have state : (f.push c).state = .websocketEstablish := websocket
      rw [recv, state]
      exact .inr (.inl rfl)
    · exact absurd (by rw [finish.1]; decide) going

theorem Bodyless.acceptAll {f : Fsm} {bl : ℕ} (bodyless : Bodyless f bl) (bytes : List UInt8) :
    Bodyless (f.acceptAll bytes) bl := by
  induction bytes generalizing f with
  | nil => exact bodyless
  | cons c bytes ih => exact ih (bodyless.accept c)

/-- A message that begins with such headers never gives a body of its own. -/
theorem Bodyless.bodylen {f : Fsm} {bl : ℕ} (bodyless : Bodyless f bl)
    (finish : f.state = .recvFinish) : f.bodylen = bl := by
  rcases bodyless with error | websocket | ⟨_, same⟩
  · exact absurd (finish.symm.trans error) (by decide)
  · exact absurd (finish.symm.trans websocket) (by decide)
  · exact same

/-! ## What a chunk costs -/

/-- The decoded bytes begin behind a byte that is no carriage return. -/
structure Start (f : Fsm) : Prop where
  positive : 0 < f.bd
  le : f.bd ≤ f.len
  ends : f.byteAt (f.bd - 1) ≠ cr

theorem byteAt_take {p : List UInt8} {n i : ℕ} (lt : i < n) : (p.take n).getD i 0 = p.getD i 0 := by
  rw [List.getD_eq_getElem?_getD, List.getD_eq_getElem?_getD, List.getElem?_take_of_lt lt]

theorem Start.push {f : Fsm} (start : Start f) (c : UInt8) : Start (f.push c) where
  positive := start.positive
  le := by
    change f.bd ≤ (f.p ++ [c]).length
    rw [List.length_append]
    exact start.le.trans (Nat.le_add_right _ _)
  ends := by
    have inside : f.bd - 1 < f.p.length :=
      lt_of_lt_of_le (Nat.sub_lt start.positive Nat.one_pos) start.le
    change (f.p ++ [c]).getD (f.bd - 1) 0 ≠ cr
    rw [List.getD_append _ _ _ _ inside]
    exact start.ends

theorem Start.truncate {f : Fsm} (start : Start f) {n : ℕ} (le : f.bd ≤ n) : Start (f.truncate n) where
  positive := start.positive
  le := by
    change f.bd ≤ (f.p.take n).length
    rw [List.length_take]
    exact le_min le start.le
  ends := by
    have positive := start.positive
    change (f.p.take n).getD (f.bd - 1) 0 ≠ cr
    rw [byteAt_take (by omega)]
    exact start.ends

theorem len_terminate (f : Fsm) {n : ℕ} (le : n ≤ f.len) : (f.terminate n).len = f.len := by
  unfold terminate
  change (f.p.take (f.len - n) ++ List.replicate n 0).length = f.p.length
  rw [List.length_append, List.length_take, List.length_replicate]
  unfold len at le ⊢
  omega

theorem Start.terminate {f : Fsm} (start : Start f) {n : ℕ} (le : f.bd + n ≤ f.len) :
    Start (f.terminate n) where
  positive := start.positive
  le := (len_terminate f (Nat.le_of_add_left_le le)).symm ▸ start.le
  ends := by
    have positive := start.positive
    have inside : f.bd - 1 < (f.p.take (f.len - n)).length := by
      rw [List.length_take]
      unfold len at le ⊢
      omega
    change (f.p.take (f.len - n) ++ List.replicate n 0).getD (f.bd - 1) 0 ≠ cr
    rw [List.getD_append _ _ _ _ inside, byteAt_take (by omega)]
    exact start.ends

/-- The line end does not begin in front of the decoded bytes. -/
theorem Start.recvLf_le {f : Fsm} (start : Start f) (more : f.bd < f.len) :
    f.recvLf ≤ f.len - f.bd := by
  have positive := start.positive
  unfold recvLf
  split
  · rename_i found
    by_contra short
    have index : f.len - 2 = f.bd - 1 := by omega
    exact start.ends (index ▸ found.2.1)
  · split <;> omega

def frameCost (bl : ℕ) : ℕ := if bl = 0 then 0 else 3

/-- Behind the header block `k` bytes have been read, which were enough for what was decoded. -/
inductive Paid (f : Fsm) (k : ℕ) : Prop where
  | error (state : f.state = .error)
  | bodylen (state : f.state = .recvBodylen) (start : Start f) (decoded : f.bd + f.bl = f.buf)
      (begins : f.buf ≤ f.len) (cost : f.bl + frameCost f.bl + (f.len - f.buf) ≤ k)
  | body (state : f.state = .recvBody) (start : Start f) (wrapped : f.bl < 2 ^ 32)
      (cost : f.len - f.bd + 2 ≤ k)
  | footer (state : f.state = .recvFooter) (cost : f.bl + frameCost f.bl + 1 ≤ k)
  | finish (state : f.state = .recvFinish) (cost : f.bl + frameCost f.bl + 2 ≤ k)

theorem Paid.mono {f : Fsm} {k : ℕ} (paid : Paid f k) : Paid f (k + 1) := by
  cases paid with
  | error state => exact .error state
  | bodylen state start decoded begins cost =>
      exact .bodylen state start decoded begins (cost.trans (Nat.le_succ k))
  | body state start wrapped cost => exact .body state start wrapped (cost.trans (Nat.le_succ k))
  | footer state cost => exact .footer state (cost.trans (Nat.le_succ k))
  | finish state cost => exact .finish state (cost.trans (Nat.le_succ k))

theorem len_push (f : Fsm) (c : UInt8) : (f.push c).len = f.len + 1 := List.length_append

theorem Start.recvLf_push_le {f : Fsm} (start : Start f) (c : UInt8) :
    (f.push c).recvLf ≤ (f.push c).len - f.bd := by
  have more : f.bd < (f.push c).len := by
    rw [len_push]
    exact Nat.lt_succ_of_le start.le
  exact (start.push c).recvLf_le more

/-- A size that is not zero has a digit. -/
theorem htoi_empty (s : List UInt8) (max : ℕ) : htoi (0 :: s) max = some 0 := by
  unfold htoi number
  split
  · rename_i same
    exact absurd (List.cons.inj same).1 (by decide)
  · exact if_pos rfl

theorem stringAt_terminate {f : Fsm} {n : ℕ} (some : n ≠ 0) (le : n ≤ f.len) :
    ∃ s, (f.terminate n).stringAt (f.len - 1) = 0 :: s := by
  have zero : (f.terminate n).p[f.len - 1]? = Option.some 0 := by
    change (f.p.take (f.len - n) ++ List.replicate n 0)[f.len - 1]? = _
    have front : (f.p.take (f.len - n)).length = f.len - n := by
      rw [List.length_take]
      exact min_eq_left (Nat.sub_le _ _)
    rw [List.getElem?_append_right (by omega), front, List.getElem?_replicate, if_pos (by omega)]
  obtain ⟨inside, value⟩ := List.getElem?_eq_some_iff.mp zero
  refine ⟨(f.terminate n).p.drop (f.len - 1 + 1), ?_⟩
  rw [stringAt, List.drop_eq_getElem_cons inside, value]

theorem chunkSize_paid {f : Fsm} {k nlf : ℕ} (start : Start f) (decoded : f.bd + f.bl = f.buf)
    (begins : f.buf < f.len) (cost : f.bl + frameCost f.bl + (f.len - f.buf) ≤ k) (some : nlf ≠ 0)
    (le : f.bd + nlf ≤ f.len) : Paid (f.chunkSize nlf .recvBody) k := by
  have length := f.len_terminate (Nat.le_of_add_left_le le)
  unfold Fsm.chunkSize
  dsimp only
  split
  · exact .error rfl
  · rename_i cl number
    split
    · refine .footer rfl ?_
      change f.bl + frameCost f.bl + 1 ≤ k
      omega
    · rename_i digit
      have several : f.buf + 1 < f.len := by
        by_contra single
        obtain ⟨s, string⟩ := stringAt_terminate some (Nat.le_of_add_left_le le)
        have last : f.len - 1 = f.buf := by omega
        rw [last] at string
        have zero := htoi_empty s ((f.terminate nlf).len - f.buf)
        rw [← string] at zero
        exact digit (Option.some.inj (number.symm.trans zero))
      have front : Start ((f.terminate nlf).truncate f.buf) :=
        (start.terminate le).truncate (show f.bd ≤ f.buf by omega)
      have rest : ((f.terminate nlf).truncate f.buf).len = f.buf := by
        change ((f.terminate nlf).p.take f.buf).length = f.buf
        rw [List.length_take]
        unfold len at length begins
        omega
      refine .body rfl ⟨front.positive, front.le, front.ends⟩ ?_ ?_
      · change ((f.bl + cl) % 2 ^ 32).toNat < 2 ^ 32
        omega
      · change ((f.terminate nlf).truncate f.buf).len - f.bd + 2 ≤ k
        rw [rest]
        unfold frameCost at cost
        split at cost <;> omega

theorem recvBodylen_paid {f : Fsm} {k : ℕ} (state : f.state = .recvBodylen) (start : Start f)
    (decoded : f.bd + f.bl = f.buf) (begins : f.buf ≤ f.len)
    (cost : f.bl + frameCost f.bl + (f.len - f.buf) ≤ k) (c : UInt8) :
    Paid (f.push c).recvBodylen (k + 1) := by
  have state' : (f.push c).state = .recvBodylen := state
  have length := f.len_push c
  have start' := start.push c
  have le := start.le
  have least := start.recvLf_push_le c
  have quiet : (f.push c).byteAt (f.push c).len ≠ 59 := by
    change (f.push c).p.getD (f.push c).p.length 0 ≠ 59
    rw [List.getD_eq_default _ _ le_rfl]
    decide
  have begins' : f.buf < (f.push c).len := by omega
  have cost' : f.bl + frameCost f.bl + ((f.push c).len - f.buf) ≤ k + 1 := by omega
  unfold recvBodylen
  dsimp only
  split
  · rename_i found
    exact chunkSize_paid start' decoded begins' cost' found
      (show f.bd + (f.push c).recvLf ≤ (f.push c).len by omega)
  · rw [goto_self state']
    exact .bodylen state' start' decoded begins'.le cost'

/-- At the end of a chunk the difference of the pointers is zero, and not only its `int`. -/
theorem recvBody_paid {f : Fsm} {k : ℕ} (state : f.state = .recvBody) (start : Start f)
    (wrapped : f.bl < 2 ^ 32) (cost : f.len - f.bd + 2 ≤ k) (small : k < 2 ^ 31) (c : UInt8) :
    Paid (f.push c).recvBody (k + 1) := by
  have state' : (f.push c).state = .recvBody := state
  have length := f.len_push c
  have start' := start.push c
  have le := start.le
  have least := start.recvLf_push_le c
  have stays : Paid ((f.push c).goto .recvBody) (k + 1) := by
    rw [goto_self state']
    exact .body state' start' wrapped (show (f.push c).len - f.bd + 2 ≤ k + 1 by omega)
  unfold recvBody
  dsimp only
  split
  · exact stays
  · rename_i found
    split
    · exact stays
    · split
      · exact .error rfl
      · rename_i low high
        have ends : f.bd + f.bl = (f.push c).len - (f.push c).recvLf := by
          change ¬ 0 < int32 ((f.bd + f.bl : ℕ) - ((f.push c).len - (f.push c).recvLf : ℕ)) at low
          change ¬ int32 ((f.bd + f.bl : ℕ) - ((f.push c).len - (f.push c).recvLf : ℕ)) < 0 at high
          have zero : int32 ((f.bd + f.bl : ℕ) - ((f.push c).len - (f.push c).recvLf : ℕ)) = 0 := by
            omega
          have divides : (2 ^ 32 : ℤ) ∣ _ := Int.dvd_of_bmod_eq_zero zero
          omega
        have front := start'.truncate
          (show f.bd ≤ (f.push c).len - (f.push c).recvLf by omega)
        have rest : ((f.push c).truncate ((f.push c).len - (f.push c).recvLf)).len =
            (f.push c).len - (f.push c).recvLf := by
          change ((f.push c).p.take _).length = _
          rw [List.length_take]
          exact min_eq_left (Nat.sub_le _ _)
        refine .bodylen rfl ⟨front.positive, front.le, front.ends⟩ (ends.trans rest.symm) le_rfl ?_
        have paid : f.bl + frameCost f.bl ≤ k + 1 := by
          unfold frameCost
          split <;> omega
        exact (congrArg (f.bl + frameCost f.bl + ·) (Nat.sub_self _)).trans_le paid

theorem recvFooter_paid {f : Fsm} {k : ℕ} (cost : f.bl + frameCost f.bl + 1 ≤ k) (c : UInt8) :
    Paid (f.push c).recvFooter (k + 1) := by
  unfold recvFooter
  dsimp only
  split
  · exact .footer rfl (cost.trans (Nat.le_succ k))
  · split
    · exact .finish rfl (Nat.succ_le_succ cost)
    · split
      · exact .footer rfl (cost.trans (Nat.le_succ k))
      · exact .error rfl

theorem Paid.accept {f : Fsm} {k : ℕ} (paid : Paid f k) (small : k < 2 ^ 31) (c : UInt8) :
    Paid (f.accept c) (k + 1) := by
  unfold Fsm.accept
  split
  · exact paid.mono
  · rename_i going
    refine feed_either (motive := fun g => Paid g (k + 1)) f c (.error rfl) ?_
    have same : (f.push c).state = f.state := rfl
    unfold recv
    rw [same]
    cases paid with
    | bodylen state start decoded begins cost =>
        rw [state]
        exact recvBodylen_paid state start decoded begins cost c
    | body state start wrapped cost =>
        rw [state]
        exact recvBody_paid state start wrapped cost small c
    | footer state cost =>
        rw [state]
        exact recvFooter_paid cost c
    | error state => exact absurd (state ▸ rfl) going
    | finish state _ => exact absurd (state ▸ rfl) going

theorem Paid.acceptAll {f : Fsm} {k : ℕ} (paid : Paid f k) (bytes : List UInt8)
    (small : k + bytes.length < 2 ^ 31) : Paid (f.acceptAll bytes) (k + bytes.length) := by
  induction bytes generalizing f k with
  | nil => exact paid
  | cons c bytes ih =>
      rw [List.length_cons, Nat.add_comm bytes.length, ← Nat.add_assoc] at small ⊢
      exact ih (paid.accept (by omega) c) small

theorem Sizes.paid {f : Fsm} (sizes : Sizes f []) (ends : f.p.getLast? ≠ Option.some cr) : Paid f 0 := by
  have empty := congrArg List.length sizes.decoded
  have positive := List.length_pos_iff.mpr sizes.some
  have bl : f.bl = 0 := sizes.bl
  have buf := sizes.buf
  have le := sizes.start
  rw [List.length_drop, List.length_nil] at empty
  unfold len at buf le
  have last : f.byteAt (f.bd - 1) ≠ cr := by
    have index : f.bd - 1 = f.p.length - 1 := by omega
    intro found
    apply ends
    rw [byteAt, index, List.getD_eq_getElem _ _ (by omega)] at found
    rw [List.getLast?_eq_getElem?, List.getElem?_eq_getElem (by omega), found]
  refine .bodylen sizes.state ⟨by omega, sizes.start, last⟩ (by omega) buf.le ?_
  rw [bl, sizes.buf, Nat.sub_self]
  rfl

/-- A body with two line ends behind it is decoded to less than itself, or is empty. -/
theorem Sizes.unframed {f : Fsm} (sizes : Sizes f []) (ends : f.p.getLast? ≠ Option.some cr)
    {bytes : List UInt8} (small : bytes.length < 2 ^ 31)
    (finish : (f.acceptAll bytes).state = .recvFinish) :
    (f.acceptAll bytes).bodylen = 0 ∨ (f.acceptAll bytes).bodylen + 5 ≤ bytes.length := by
  have paid := (sizes.paid ends).acceptAll bytes (by omega)
  cases paid with
  | finish _ cost =>
      unfold frameCost at cost
      unfold bodylen
      split at cost <;> omega
  | error state => exact absurd (finish.symm.trans state) (by decide)
  | bodylen state => exact absurd (finish.symm.trans state) (by decide)
  | body state => exact absurd (finish.symm.trans state) (by decide)
  | footer state => exact absurd (finish.symm.trans state) (by decide)

end Cyue.Http.Fsm
