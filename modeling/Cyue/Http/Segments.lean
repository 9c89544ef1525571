import Cyue.Http.Chunked

/-!
# Pieces of a message

`append` is called with what a read returned, and a read may return nothing.  The loop
tests its end behind the byte that it takes, so that it takes one byte from an empty piece;
that byte is whatever the memory of the read held before.
-/

namespace Cyue.Http

/-- A piece in the memory of a read, which goes on behind it. -/
structure Piece where
  bytes : List UInt8
  next : UInt8
  behind : List UInt8

def Piece.memory (piece : Piece) : List UInt8 := piece.bytes ++ piece.next :: piece.behind

def joined (pieces : List Piece) : List UInt8 := pieces.flatMap Piece.bytes

namespace Fsm

/-! ## What `append` reads -/

def Full (f : Fsm) : Prop := f.limit ≤ f.len

instance decidableFull (f : Fsm) : Decidable f.Full := inferInstanceAs (Decidable (_ ≤ _))

/-- `w - b` at the end of the loop of `append`. -/
def readFrom (bl : ℤ) : Fsm → ℕ → List UInt8 → ℕ
  | _, done, [] => done
  | f, done, c :: w =>
      if f.state.Final then done
      else if f.Full then done
      else if bl ≤ (done + 1 : ℕ) then done + 1
      else readFrom bl (f.feed c) (done + 1) w

def appendPiece (f : Fsm) (piece : Piece) : Fsm := f.append piece.memory piece.bytes.length

def appendPieces (f : Fsm) (pieces : List Piece) : Fsm := pieces.foldl appendPiece f

/-- `append` of the piece reads no byte behind it. -/
def Within (f : Fsm) (piece : Piece) : Prop :=
  readFrom piece.bytes.length f 0 piece.memory ≤ piece.bytes.length

def AllWithin : Fsm → List Piece → Prop
  | _, [] => True
  | f, piece :: pieces => f.Within piece ∧ (f.appendPiece piece).AllWithin pieces

def headers (f : Fsm) : List (ℕ × List UInt8) :=
  (List.range f.nHd).map fun i => (f.hl i, (f.stringAt (f.hd i)).takeWhile fun c => c ≠ 0)

/-- The pieces give what one call with the whole string gives, and no call reads too much. -/
structure Unsegmented (f : Fsm) (pieces : List Piece) (whole : Piece) : Prop where
  state : (f.appendPieces pieces).state = (f.appendPiece whole).state
  headers : (f.appendPieces pieces).headers = (f.appendPiece whole).headers
  body : (f.appendPieces pieces).body = (f.appendPiece whole).body
  inside : f.AllWithin pieces
  single : f.Within whole

/-- An empty piece comes only when the receiver takes no more bytes: its state is final, or
its buffer is full and the string goes on behind the piece, or is empty. -/
def Fed (whole : List UInt8) : Fsm → List Piece → Prop
  | _, [] => True
  | f, piece :: pieces =>
      (piece.bytes = [] →
        f.state.Final ∨ f.Full ∧ (whole = [] ∨ joined pieces ≠ [])) ∧
      Fed whole (f.appendPiece piece) pieces

/-! ## One piece -/

theorem appendPiece_bytes (f : Fsm) {piece : Piece} (some : piece.bytes ≠ []) :
    f.appendPiece piece = f.acceptAll piece.bytes := by
  have positive := List.length_pos_iff.mpr some
  have length : (if (piece.bytes.length : ℤ) - (0 : ℕ) ≤ 1 then 1
      else ((piece.bytes.length : ℤ) - (0 : ℕ)).toNat) = piece.bytes.length := by
    split <;> omega
  unfold appendPiece append Piece.memory
  rw [appendFrom_taken, length, List.take_left]

theorem appendPiece_empty (f : Fsm) {piece : Piece} (none : piece.bytes = []) :
    f.appendPiece piece = f.accept piece.next := by
  unfold appendPiece append Piece.memory
  rw [appendFrom_taken, none]
  rfl

theorem appendPiece_final {f : Fsm} (final : f.state.Final) (piece : Piece) :
    f.appendPiece piece = f := by
  by_cases some : piece.bytes = []
  · rw [appendPiece_empty f some]
    exact if_pos final
  · rw [appendPiece_bytes f some, acceptAll_final final]

theorem appendPieces_final {f : Fsm} (final : f.state.Final) (pieces : List Piece) :
    f.appendPieces pieces = f := by
  induction pieces with
  | nil => rfl
  | cons piece pieces ih =>
      change (f.appendPiece piece).appendPieces pieces = f
      rw [appendPiece_final final, ih]

theorem accept_full {f : Fsm} (going : ¬ f.state.Final) (full : f.Full) (c : UInt8) :
    f.accept c = f.goto .error :=
  (if_neg going).trans (if_pos full)

/-- In a full buffer the first byte is an error, and nothing comes behind it. -/
theorem acceptAll_full {f : Fsm} (going : ¬ f.state.Final) (full : f.Full) {bytes : List UInt8}
    (some : bytes ≠ []) : f.acceptAll bytes = f.goto .error := by
  obtain ⟨c, rest, rfl⟩ := List.exists_cons_of_ne_nil some
  change (f.accept c).acceptAll rest = _
  rw [accept_full going full]
  exact acceptAll_final rfl rest

theorem readFrom_le {bl : ℤ} {f : Fsm} {done : ℕ} (memory : List UInt8) (lt : (done : ℤ) < bl) :
    (readFrom bl f done memory : ℤ) ≤ bl := by
  induction memory generalizing f done with
  | nil => exact Int.le_of_lt lt
  | cons c memory ih =>
      unfold readFrom
      split
      · exact Int.le_of_lt lt
      · split
        · exact Int.le_of_lt lt
        · split
          · push_cast
            exact Int.add_one_le_of_lt lt
          · rename_i more
            exact ih (Int.not_le.mp more)

theorem within_bytes (f : Fsm) {piece : Piece} (some : piece.bytes ≠ []) : f.Within piece :=
  Int.ofNat_le.mp (readFrom_le _ (Int.natCast_pos.mpr (List.length_pos_iff.mpr some)))

theorem within_empty (f : Fsm) {piece : Piece} (none : piece.bytes = []) :
    f.Within piece ↔ f.state.Final ∨ f.Full := by
  unfold Within Piece.memory
  rw [none, List.nil_append, readFrom]
  split
  · rename_i final
    exact ⟨fun _ => .inl final, fun _ => le_rfl⟩
  · rename_i going
    split
    · rename_i full
      exact ⟨fun _ => .inr full, fun _ => le_rfl⟩
    · rename_i free
      refine ⟨fun reads => ?_, fun either => absurd either (not_or.mpr ⟨going, free⟩)⟩
      rw [if_pos (by decide)] at reads
      exact absurd reads (by decide)

/-! ## A run over the pieces -/

theorem joined_cons (piece : Piece) (pieces : List Piece) :
    joined (piece :: pieces) = piece.bytes ++ joined pieces :=
  List.flatMap_cons

theorem fed_final {f : Fsm} (final : f.state.Final) (whole : List UInt8) (pieces : List Piece) :
    Fed whole f pieces := by
  induction pieces with
  | nil => trivial
  | cons piece pieces ih =>
      refine ⟨fun _ => .inl final, ?_⟩
      rw [appendPiece_final final]
      exact ih

/-- Every call of the run stays within its piece. -/
theorem Fed.allWithin {whole : List UInt8} {f : Fsm} {pieces : List Piece}
    (fed : Fed whole f pieces) : f.AllWithin pieces := by
  induction pieces generalizing f with
  | nil => trivial
  | cons piece pieces ih =>
      refine ⟨?_, ih fed.2⟩
      by_cases some : piece.bytes = []
      · exact (within_empty f some).mpr ((fed.1 some).imp_right And.left)
      · exact within_bytes f some

/-- The pieces are taken as their bytes would be. -/
theorem Fed.acceptAll {whole : List UInt8} {f : Fsm} {pieces : List Piece} (some : whole ≠ [])
    (fed : Fed whole f pieces) : f.appendPieces pieces = f.acceptAll (joined pieces) := by
  induction pieces generalizing f with
  | nil => rfl
  | cons piece pieces ih =>
      have rest : (f.appendPiece piece).appendPieces pieces =
          (f.appendPiece piece).acceptAll (joined pieces) := ih fed.2
      change (f.appendPiece piece).appendPieces pieces = _
      rw [joined_cons, acceptAll_append]
      by_cases none : piece.bytes = []
      · rw [none]
        change _ = f.acceptAll (joined pieces)
        by_cases final : f.state.Final
        · rw [rest, appendPiece_final final]
        · obtain ⟨full, more⟩ := (fed.1 none).resolve_left final
          have more : joined pieces ≠ [] := more.resolve_left some
          rw [appendPiece_empty f none, accept_full final full, acceptAll_full final full more]
          exact appendPieces_final rfl pieces
      · rw [rest, appendPiece_bytes f none]

/-- Where the state agrees with the one of the whole string, an empty piece in a full buffer
was not the last one. -/
theorem AllWithin.fed {whole : List UInt8} {f : Fsm} {pieces : List Piece} (inside : f.AllWithin pieces)
    (same : (f.appendPieces pieces).state = (f.acceptAll (joined pieces)).state) :
    Fed whole f pieces := by
  induction pieces generalizing f with
  | nil => trivial
  | cons piece pieces ih =>
      rw [joined_cons, acceptAll_append] at same
      by_cases none : piece.bytes = []
      · by_cases final : f.state.Final
        · exact fed_final final whole _
        · have full := ((within_empty f none).mp inside.1).resolve_left final
          have error : f.appendPiece piece = f.goto .error :=
            (appendPiece_empty f none).trans (accept_full final full _)
          have last : (f.appendPieces (piece :: pieces)).state = .error := by
            change ((f.appendPiece piece).appendPieces pieces).state = _
            rw [error, appendPieces_final rfl]
            rfl
          have more : joined pieces ≠ [] := by
            intro nothing
            rw [last, none, nothing] at same
            have state : f.state = .error := same.symm
            rw [state] at final
            exact final rfl
          refine ⟨fun _ => .inr ⟨full, .inr more⟩, ?_⟩
          rw [error]
          exact fed_final rfl whole pieces
      · rw [← appendPiece_bytes f none] at same
        exact ⟨fun empty => absurd empty none, ih inside.2 same⟩

/-- Pieces of the empty string are all empty. -/
theorem AllWithin.fed_nil {f : Fsm} {pieces : List Piece} (inside : f.AllWithin pieces) :
    Fed [] f pieces := by
  induction pieces generalizing f with
  | nil => trivial
  | cons piece pieces ih =>
      refine ⟨fun none => ?_, ih inside.2⟩
      exact ((within_empty f none).mp inside.1).imp_right fun full => ⟨full, .inl rfl⟩

/-- The calls with the pieces give the receiver that one call gives. -/
theorem Fed.whole {f : Fsm} {pieces : List Piece} {whole : Piece} (partition : joined pieces = whole.bytes)
    (fed : Fed whole.bytes f pieces) (some : pieces = [] → f.state.Final) :
    f.appendPieces pieces = f.appendPiece whole := by
  by_cases final : f.state.Final
  · rw [appendPieces_final final, appendPiece_final final]
  · by_cases none : whole.bytes = []
    · obtain ⟨piece, rest, rfl⟩ := List.exists_cons_of_ne_nil fun empty => final (some empty)
      rw [none, joined_cons] at partition
      have empty : piece.bytes = [] := (List.append_eq_nil_iff.mp partition).1
      have full : f.Full := ((fed.1 empty).resolve_left final).1
      change (f.appendPiece piece).appendPieces rest = _
      rw [appendPiece_empty f empty, appendPiece_empty f none, accept_full final full,
        accept_full final full]
      exact appendPieces_final rfl rest
    · rw [fed.acceptAll none, partition, appendPiece_bytes f none]

theorem Unsegmented.fed {f : Fsm} {pieces : List Piece} {whole : Piece}
    (partition : joined pieces = whole.bytes) (same : Unsegmented f pieces whole) :
    Fed whole.bytes f pieces := by
  by_cases none : whole.bytes = []
  · rw [none]
    exact same.inside.fed_nil
  · apply same.inside.fed
    rw [same.state, partition, appendPiece_bytes f none]

/-- No pieces at all leave the receiver as it is. -/
theorem Unsegmented.some {f : Fsm} {whole : Piece} (none : whole.bytes = [])
    (same : Unsegmented f [] whole) : f.state.Final := by
  by_contra final
  have full := ((within_empty f none).mp same.single).resolve_left final
  have state := same.state
  rw [appendPiece_empty f none, accept_full final full] at state
  have error : f.state = .error := state
  rw [error] at final
  exact final rfl

/-- The result does not depend on the pieces, and nothing behind them is read, if and only if no
piece is empty while the receiver takes bytes. -/
theorem unsegmented_iff (f : Fsm) (pieces : List Piece) (whole : Piece)
    (partition : joined pieces = whole.bytes) :
    Unsegmented f pieces whole ↔
      Fed whole.bytes f pieces ∧ (pieces = [] → f.state.Final) := by
  constructor
  · intro same
    refine ⟨same.fed partition, ?_⟩
    rintro rfl
    exact same.some partition.symm
  · rintro ⟨fed, some⟩
    have run := fed.whole partition some
    refine ⟨congrArg state run, congrArg Fsm.headers run, congrArg Fsm.body run, fed.allWithin, ?_⟩
    by_cases none : whole.bytes = []
    · rw [within_empty f none]
      cases pieces with
      | nil => exact .inl (some rfl)
      | cons piece pieces =>
          rw [joined_cons, none] at partition
          have empty := (List.append_eq_nil_iff.mp partition).1
          exact (fed.1 empty).imp_right And.left
    · exact within_bytes f none

end Fsm

open Fsm

def reply : List UInt8 :=
  ascii "HTTP/1.1 200 OK" ++ [lf] ++ ascii "Content-Length: 2" ++ [lf, lf] ++ ascii "ab"

def replyPiece : Piece := ⟨reply, 0, []⟩

theorem unsegmented_iff_reply :
    Unsegmented (cleared.reset 512) [⟨reply.take 20, 0, []⟩, ⟨reply.drop 20, 0, []⟩] replyPiece :=
  (unsegmented_iff (cleared.reset 512) [⟨reply.take 20, 0, []⟩, ⟨reply.drop 20, 0, []⟩] replyPiece
    (by decide)).mpr
    ⟨⟨fun none => absurd none (by decide), fun none => absurd none (by decide), trivial⟩,
      fun none => absurd none (List.cons_ne_nil _ _)⟩

/-- A read returned nothing between the two bytes of the body; the memory behind it holds `x`. -/
def idleRead : List Piece :=
  [⟨reply.take 36, 0, []⟩, ⟨[], 120, []⟩, ⟨reply.drop 36, 0, []⟩]

theorem idleRead_taken :
    joined idleRead = replyPiece.bytes ∧
      ((cleared.reset 512).appendPieces idleRead).body = ascii "ax" ∧
      ((cleared.reset 512).appendPiece replyPiece).body = ascii "ab" ∧
      ¬ ∀ f pieces whole, joined pieces = whole.bytes → Unsegmented f pieces whole := by
  have taken : ((cleared.reset 512).appendPieces idleRead).body = ascii "ax" := by decide +kernel
  have sent : ((cleared.reset 512).appendPiece replyPiece).body = ascii "ab" := by decide +kernel
  have partition : joined idleRead = replyPiece.bytes := by decide
  refine ⟨partition, taken, sent, fun independent => ?_⟩
  have same := (independent (cleared.reset 512) idleRead replyPiece partition).body
  rw [taken, sent] at same
  exact absurd same (by decide)

end Cyue.Http
