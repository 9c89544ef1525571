import Cyue.Net.Drain
import Cyue.Net.RawStream

/-!
# Vectored chunks

The writer `iov` for itself: its vectors, and the position from which on they go to
`writev`.  `sent` moves the position to the vector that was written in part.  A count that
ends behind the last vector leaves no such vector, and nothing moves.
-/

namespace Cyue.Net

open Bytes Memory

/-! ## The writer -/

/-- `iov`; `sz` is the number of vectors. -/
structure Iov where
  vec : List IoVec
  pos : ℕ
  deriving DecidableEq, Repr

namespace Iov

def sz (c : Iov) : ℕ := c.vec.length

/-- `operator ()` of a new chunk. -/
def new (vec : List IoVec) : Iov := ⟨vec, 0⟩

/-- `operator ()` of a chunk that is appended to. -/
def append (c : Iov) (vec : List IoVec) : Iov := { c with vec := c.vec ++ vec }

/-- What `write` gives to `writev`. -/
def write (c : Iov) : List IoVec := c.vec.drop c.pos

/-- The loop of `sent` over the `left` vectors from `i` on. -/
def sentFrom (c : Iov) : ℕ → ℕ → ℕ → Iov
  | 0, _, _ => c
  | left + 1, i, wb =>
      let v := c.vec.getD i ⟨0, 0⟩
      if v.len ≤ wb then sentFrom c left (i + 1) (wb - v.len)
      else { vec := c.vec.set i ⟨v.base + wb, v.len - wb⟩, pos := i }

def sent (c : Iov) (wb : ℕ) : Iov := c.sentFrom (c.sz - c.pos) c.pos wb

def finish (c : Iov) : Prop := c.sz ≤ c.pos

instance decidableFinish (c : Iov) : Decidable c.finish := inferInstanceAs (Decidable (_ ≤ _))

end Iov

/-! ## Bytes -/

def addresses (vec : List IoVec) : List ℕ := vec.flatMap fun v => List.range' v.base v.len

theorem addresses_cons (v : IoVec) (vec : List IoVec) :
    addresses (v :: vec) = List.range' v.base v.len ++ addresses vec := rfl

def Iov.remaining (c : Iov) : List ℕ := addresses c.write

/-- A run of `writev` and `sent`. -/
def Iov.run (c : Iov) (counts : List ℕ) : Iov := counts.foldl sent c

/-- No call of `writev` accepts more than it was given. -/
def Iov.Accepts (c : Iov) : List ℕ → Prop
  | [] => True
  | wb :: counts => wb ≤ c.remaining.length ∧ (c.sent wb).Accepts counts

/-- Behind the calls so far the bytes that remain are those that were not accepted, and the chunk
is finished with the last of them. -/
def Iov.Progressed (c : Iov) (counts : List ℕ) : Prop :=
  (c.run counts).remaining = c.remaining.drop counts.sum ∧
    ((c.run counts).finish ↔ c.remaining.length ≤ counts.sum)

namespace Iov

/-- A count that ends in front of the end of the vectors. -/
theorem sentFrom_short (c : Iov) {left i wb : ℕ} (ends : i + left = c.sz)
    (short : wb < (addresses (c.vec.drop i)).length) :
    (c.sentFrom left i wb).remaining = (addresses (c.vec.drop i)).drop wb ∧
      ¬ (c.sentFrom left i wb).finish := by
  induction left generalizing i wb with
  | zero =>
      have none : c.vec.drop i = [] := List.drop_eq_nil_of_le (by unfold sz at ends; omega)
      rw [none] at short
      exact absurd short (Nat.not_lt_zero _)
  | succ left ih =>
      have inside : i < c.vec.length := by
        unfold sz at ends
        omega
      have split : c.vec.drop i = c.vec[i] :: c.vec.drop (i + 1) := List.drop_eq_getElem_cons inside
      have entry : c.vec.getD i ⟨0, 0⟩ = c.vec[i] := List.getD_eq_getElem _ _ inside
      rw [split, addresses_cons, List.length_append, List.length_range'] at short
      rw [split, addresses_cons, sentFrom, entry]
      by_cases whole : c.vec[i].len ≤ wb
      · rw [if_pos whole]
        obtain ⟨remaining, going⟩ := ih (by omega : i + 1 + left = c.sz)
          (by omega : wb - c.vec[i].len < (addresses (c.vec.drop (i + 1))).length)
        refine ⟨?_, going⟩
        rw [remaining, List.drop_append, List.length_range',
          List.drop_eq_nil_of_le (List.length_range'.trans_le whole), List.nil_append]
      · rw [if_neg whole]
        constructor
        · unfold remaining write
          dsimp only
          have behind : wb - c.vec[i].len = 0 := by omega
          rw [List.drop_set, if_neg (Nat.lt_irrefl i), split, Nat.sub_self, List.set_cons_zero,
            addresses_cons, List.drop_append, List.length_range', behind, List.drop_zero,
            List.drop_range', Nat.mul_one]
        · unfold finish sz
          dsimp only
          rw [List.length_set]
          omega

/-- A count that takes all of the vectors. -/
theorem sentFrom_whole (c : Iov) {left i wb : ℕ} (ends : i + left = c.sz)
    (whole : (addresses (c.vec.drop i)).length ≤ wb) : c.sentFrom left i wb = c := by
  induction left generalizing i wb with
  | zero => rfl
  | succ left ih =>
      have inside : i < c.vec.length := by
        unfold sz at ends
        omega
      have split : c.vec.drop i = c.vec[i] :: c.vec.drop (i + 1) := List.drop_eq_getElem_cons inside
      have entry : c.vec.getD i ⟨0, 0⟩ = c.vec[i] := List.getD_eq_getElem _ _ inside
      rw [split, addresses_cons, List.length_append, List.length_range'] at whole
      rw [sentFrom, entry, if_pos (by omega)]
      exact ih (by omega) (by omega)

/-! ## One call -/

theorem within_of_remaining {c : Iov} (some : 0 < c.remaining.length) : c.pos + (c.sz - c.pos) = c.sz := by
  have inside : c.pos < c.sz := by
    by_contra behind
    have none : c.write = [] := List.drop_eq_nil_of_le (not_lt.mp behind)
    unfold remaining at some
    rw [none] at some
    exact absurd some (Nat.lt_irrefl 0)
  omega

theorem sent_short {c : Iov} {wb : ℕ} (short : wb < c.remaining.length) :
    (c.sent wb).remaining = c.remaining.drop wb ∧ ¬ (c.sent wb).finish :=
  c.sentFrom_short (within_of_remaining (Nat.zero_lt_of_lt short)) short

/-- The last byte is accepted, and the chunk stays as it is. -/
theorem sent_whole {c : Iov} (going : ¬ c.finish) : c.sent c.remaining.length = c := by
  have inside : c.pos + (c.sz - c.pos) = c.sz := by
    unfold finish at going
    omega
  exact c.sentFrom_whole inside le_rfl

/-- A call in front of the others, with bytes left behind it. -/
theorem progressed_cons {c : Iov} {wb : ℕ} (short : wb < c.remaining.length) (counts : List ℕ) :
    c.Progressed (wb :: counts) ↔ (c.sent wb).Progressed counts := by
  have rest := (sent_short short).1
  have length : (c.sent wb).remaining.length = c.remaining.length - wb := by
    rw [rest, List.length_drop]
  have bound : c.remaining.length ≤ wb + counts.sum ↔ c.remaining.length - wb ≤ counts.sum := by
    omega
  unfold Progressed
  rw [List.sum_cons, length, rest, List.drop_drop, bound]
  rfl

/-! ## Runs of calls -/

theorem progressed_of_short {c : Iov} {counts : List ℕ} (some : counts ≠ [])
    (short : counts.sum < c.remaining.length) : c.Progressed counts := by
  induction counts generalizing c with
  | nil => exact absurd rfl some
  | cons wb counts ih =>
      rw [List.sum_cons] at short
      have first : wb < c.remaining.length := by omega
      obtain ⟨rest, going⟩ := sent_short first
      rw [progressed_cons (by omega)]
      have more : counts.sum < (c.sent wb).remaining.length := by
        rw [rest, List.length_drop]
        omega
      by_cases last : counts = []
      · subst last
        refine ⟨rfl, ⟨fun done => absurd done going, fun none => ?_⟩⟩
        exact absurd more (Nat.not_lt.mpr none)
      · exact ih last more

/-- The call that accepts the last byte moves nothing. -/
theorem stuck_of_whole {c : Iov} {counts : List ℕ} (going : ¬ c.finish) (accepts : c.Accepts counts)
    (some : counts ≠ []) (whole : c.remaining.length ≤ counts.sum) :
    ∃ done, done <+: counts ∧ done ≠ [] ∧ ¬ c.Progressed done := by
  induction counts generalizing c with
  | nil => exact absurd rfl some
  | cons wb counts ih =>
      obtain ⟨le, accepts⟩ := accepts
      rw [List.sum_cons] at whole
      rcases Nat.lt_or_eq_of_le le with short | rfl
      · obtain ⟨rest, going⟩ := sent_short short
        have more : counts ≠ [] := by
          rintro rfl
          exact absurd whole (Nat.not_le.mpr short)
        have whole : (c.sent wb).remaining.length ≤ counts.sum := by
          rw [rest, List.length_drop]
          omega
        obtain ⟨done, front, some, stuck⟩ := ih going accepts more whole
        refine ⟨wb :: done, (List.cons_prefix_cons.mpr ⟨rfl, front⟩), List.cons_ne_nil _ _, ?_⟩
        rwa [progressed_cons short]
      · refine ⟨[c.remaining.length], ?_, List.cons_ne_nil _ _, ?_⟩
        · exact List.cons_prefix_cons.mpr ⟨rfl, List.nil_prefix⟩
        · rintro ⟨_, finished⟩
          have done := finished.mpr (List.sum_singleton ..).ge
          change (c.sent c.remaining.length).finish at done
          rw [sent_whole going] at done
          exact going done

theorem progressed_empty (counts : List ℕ) : Progressed ⟨[], 0⟩ counts := by
  have still : (Iov.mk [] 0).run counts = ⟨[], 0⟩ := by
    induction counts with
    | nil => rfl
    | cons wb counts ih => exact ih
  unfold Progressed
  rw [still]
  exact ⟨List.drop_nil.symm, ⟨fun _ => Nat.zero_le _, fun _ => Nat.zero_le _⟩⟩

end Iov

def Iov.build (vec : List IoVec) (more : List (List IoVec)) : Iov := more.foldl append (new vec)

theorem Iov.build_eq (vec : List IoVec) (more : List (List IoVec)) :
    build vec more = ⟨vec ++ more.flatten, 0⟩ := by
  unfold build new
  induction more generalizing vec with
  | nil => exact congrArg (Iov.mk · 0) (List.append_nil vec).symm
  | cons first more ih =>
      rw [List.foldl_cons, List.flatten_cons, ← List.append_assoc]
      exact ih (vec ++ first)

/-- The position follows the accepted bytes until all of them are accepted: then the chunk is not
finished, and its last vectors go to `writev` once more. -/
theorem vectored_progress_iff (vec : List IoVec) (more : List (List IoVec)) {counts : List ℕ}
    (accepts : (Iov.build vec more).Accepts counts) :
    (∀ done, done <+: counts → done ≠ [] → (Iov.build vec more).Progressed done) ↔
      counts = [] ∨ vec ++ more.flatten = [] ∨ counts.sum < (addresses (vec ++ more.flatten)).length := by
  have remaining : (Iov.build vec more).remaining = addresses (vec ++ more.flatten) := by
    rw [Iov.build_eq]
    rfl
  constructor
  · intro progress
    by_contra bad
    rw [not_or, not_or, not_lt] at bad
    obtain ⟨some, vectors, whole⟩ := bad
    have going : ¬ (Iov.build vec more).finish := by
      rw [Iov.build_eq]
      change ¬ (vec ++ more.flatten).length ≤ 0
      rw [Nat.le_zero, List.length_eq_zero_iff]
      exact vectors
    obtain ⟨done, front, some, stuck⟩ := Iov.stuck_of_whole going accepts some (remaining ▸ whole)
    exact stuck (progress done front some)
  · intro fair done front some
    rcases fair with rfl | none | short
    · exact absurd (List.prefix_nil.mp front) some
    · have built : Iov.build vec more = ⟨[], 0⟩ := by rw [Iov.build_eq, none]
      rw [built]
      exact Iov.progressed_empty done
    · obtain ⟨rest, rfl⟩ := front
      apply Iov.progressed_of_short some
      rw [List.sum_append] at short
      rw [remaining]
      omega

theorem vectored_progress_borders :
    (∀ done, done <+: [3, 0, 4] → done ≠ [] →
      (Iov.build [⟨100, 3⟩, ⟨0, 0⟩] [[⟨200, 5⟩]]).Progressed done) ↔
      [3, 0, 4] = [] ∨ [⟨100, 3⟩, ⟨0, 0⟩] ++ [[⟨200, 5⟩]].flatten = ([] : List IoVec) ∨
        [3, 0, 4].sum < (addresses ([⟨100, 3⟩, ⟨0, 0⟩] ++ [[⟨200, 5⟩]].flatten)).length :=
  vectored_progress_iff [⟨100, 3⟩, ⟨0, 0⟩] [[⟨200, 5⟩]] ⟨by decide, by decide, by decide, trivial⟩

/-- All bytes are accepted at once, and all of them go to `writev` again. -/
theorem vectored_resubmitted :
    (Iov.build [⟨100, 3⟩] []).Accepts [3] ∧
      (Iov.build [⟨100, 3⟩] []).run [3] = Iov.build [⟨100, 3⟩] [] ∧
      ¬ (Iov.build [⟨100, 3⟩] []).Progressed [3] := by
  refine ⟨⟨by decide, trivial⟩, by decide, ?_⟩
  rintro ⟨remaining, _⟩
  exact absurd remaining (by decide)

/-! ## The writer in memory -/

/-- The chunk at an offset of the memory, with vectors inside of the address space. -/
structure Iov.At (c : Iov) (m : Mem) (off : ℕ) : Prop where
  sz : Wcmd.iovec.layout.getSz m off = c.sz
  pos : Wcmd.iovec.layout.getPos m off = c.pos
  entries : ∀ i (inside : i < c.vec.length), iovEntry m off i = c.vec[i]
  few : c.sz < 2 ^ 64
  bounded : ∀ v ∈ c.vec, v.base + v.len < 2 ^ 64

namespace Iov

variable {c : Iov} {m : Mem} {off : ℕ}

theorem iovEntry_apart {i j n : ℕ} (at' : off + 16 + 16 * i = j ∨ off + 16 + 16 * i + 8 = j)
    {k : ℕ} (other : k ≠ i) : iovEntry (storeLe m j 8 n) off k = iovEntry m off k := by
  unfold iovEntry
  rw [loadLe_storeLe_of_disjoint (by omega), loadLe_storeLe_of_disjoint (by omega)]

theorem iovEntry_header {j n : ℕ} (header : j + 8 ≤ off + 16) (k : ℕ) :
    iovEntry (storeLe m j 8 n) off k = iovEntry m off k := by
  unfold iovEntry
  rw [loadLe_storeLe_of_disjoint (by omega), loadLe_storeLe_of_disjoint (by omega)]

/-- The loop over the memory is the loop over the writer. -/
theorem At.iovSent (here : c.At m off) {left i wb : ℕ} (ends : i + left = c.sz) :
    (c.sentFrom left i wb).At (Net.iovSent m off left i wb) off := by
  induction left generalizing i wb with
  | zero => exact here
  | succ left ih =>
      have inside : i < c.vec.length := by
        unfold Iov.sz at ends
        omega
      have entry : iovEntry m off i = c.vec[i] := here.entries i inside
      have entry' : c.vec.getD i ⟨0, 0⟩ = c.vec[i] := List.getD_eq_getElem _ _ inside
      rw [sentFrom, Net.iovSent, entry, entry']
      dsimp only
      by_cases whole : c.vec[i].len ≤ wb
      · rw [if_pos whole, if_pos whole]
        exact ih (by omega)
      · rw [if_neg whole, if_neg whole]
        have bounded := here.bounded _ (List.getElem_mem inside)
        have few := here.few
        generalize base_eq : c.vec[i].base + wb = base
        generalize len_eq : c.vec[i].len - wb = len
        have base_small : base < 256 ^ 8 := by omega
        have len_small : len < 256 ^ 8 := by omega
        have i_small : i < 256 ^ 8 := by
          unfold Iov.sz at few
          omega
        refine ⟨?_, ?_, fun j at' => ?_, ?_, fun v mem => ?_⟩
        · change loadLe (storeLe (storeLe (storeLe m _ 8 base) _ 8 len) (off + 8) 8 i) (off + 0) 8 = _
          rw [loadLe_storeLe_of_disjoint (by omega), loadLe_storeLe_of_disjoint (by omega),
            loadLe_storeLe_of_disjoint (by omega)]
          exact here.sz.trans List.length_set.symm
        · exact loadLe_storeLe i_small
        · dsimp only at at' ⊢
          rw [List.length_set] at at'
          have header : off + Wcmd.iovec.layout.pos + 8 ≤ off + 16 := Nat.le_of_eq (Nat.add_assoc off 8 8)
          rw [iovEntry_header header]
          rcases eq_or_ne j i with rfl | other
          · rw [List.getElem_set_self]
            unfold iovEntry
            rw [loadLe_storeLe_of_disjoint (by omega), loadLe_storeLe base_small,
              loadLe_storeLe len_small]
          · rw [iovEntry_apart (.inr rfl) other, iovEntry_apart (.inl rfl) other,
              here.entries j at', List.getElem_set_ne (Ne.symm other)]
        · unfold Iov.sz
          rw [List.length_set]
          exact few
        · rcases List.mem_or_eq_of_mem_set mem with old | rfl
          · exact here.bounded v old
          · dsimp only
            omega

theorem length_addresses (vec : List IoVec) : (addresses vec).length = (vec.map IoVec.len).sum := by
  induction vec with
  | nil => rfl
  | cons v vec ih =>
      rw [addresses_cons, List.length_append, List.length_range', ih, List.map_cons, List.sum_cons]

/-- The vectors in memory from the position on. -/
theorem At.entries_write (here : c.At m off) :
    (List.range (c.sz - c.pos)).map (fun i => iovEntry m off (c.pos + i)) = c.write := by
  unfold write
  apply List.ext_getElem
  · rw [List.length_map, List.length_range, List.length_drop]
    rfl
  · intro i lower upper
    rw [List.length_drop] at upper
    rw [List.getElem_map, List.getElem_range, List.getElem_drop]
    exact here.entries _ (by omega)

/-- A write call for the chunk: it is given the vectors from the position on, and the writer goes on
behind what was accepted. -/
theorem At.sendIov (here : c.At m off) (within : c.pos ≤ c.sz) (n : ℕ) :
    (Net.sendIov m off n).1 = .gathered (takeParts c.write (min n c.remaining.length)) ∧
      (c.sent (min n c.remaining.length)).At (Net.sendIov m off n).2 off := by
  unfold Net.sendIov
  dsimp only
  rw [here.pos, here.sz, here.entries_write, ← length_addresses]
  exact ⟨rfl, here.iovSent (Nat.add_sub_of_le within)⟩

/-- The loop writes to the vectors and to the position alone. -/
theorem iovSent_kept {left i wb n j : ℕ} (ends : i + left = n)
    (outside : j < off + 8 ∨ off + 16 + 16 * n ≤ j) : Net.iovSent m off left i wb j = m j := by
  induction left generalizing i wb with
  | zero => rfl
  | succ left ih =>
      rw [Net.iovSent]
      dsimp only
      split
      · exact ih (by omega)
      · rw [storeLe, store_apart (by rw [leBytes_length]; dsimp only [Wcmd.layout]; omega), storeLe,
          store_apart (by rw [leBytes_length]; omega), storeLe,
          store_apart (by rw [leBytes_length]; omega)]

theorem addresses_takeParts (vec : List IoVec) (n : ℕ) :
    addresses (takeParts vec n) = (addresses vec).take n := by
  induction vec generalizing n with
  | nil => rw [takeParts, addresses, List.flatMap_nil, List.take_nil]
  | cons v vec ih =>
      have front : (List.range' v.base v.len).take n = List.range' v.base (min v.len n) := by
        rcases le_total v.len n with whole | part
        · rw [List.take_range'_of_length_le whole, Nat.min_eq_left whole]
        · rw [List.take_range'_of_length_ge part, Nat.min_eq_right part]
      rw [takeParts, addresses_cons, addresses_cons, ih, List.take_append, List.length_range', front]

/-- The vectors stay as many, and the position stays among them. -/
theorem sentFrom_within {left i : ℕ} (wb : ℕ) (within : c.pos ≤ c.sz) (ends : i + left = c.sz) :
    (c.sentFrom left i wb).sz = c.sz ∧ (c.sentFrom left i wb).pos ≤ c.sz := by
  induction left generalizing i wb with
  | zero => exact ⟨rfl, within⟩
  | succ left ih =>
      rw [sentFrom]
      split
      · exact ih _ (by omega)
      · refine ⟨List.length_set, ?_⟩
        dsimp only
        omega

end Iov

end Cyue.Net
