import Cyue.Emittable.Watchers
import Mathlib.Data.List.Perm.Subperm

/-!
# Commands of several emittables

All emittables take their watch entries from one pool.  `add_watcher`,
`remove_watcher` and the emits queue commands, and the thread that owns an
emittable runs its commands in order.  An event is a call that queues a command,
the start of the next command, or the answer of a watcher that is being called;
between two of them the other emittables go on.  `remove_watch_entry` walks the
list without calling anybody, in one step.
-/

namespace Cyue.Emittable

open Cyue.Chain

/-- A command; `call` is the call of `add_watcher` whose watcher is to be removed. -/
inductive Command (ρ : Type*) where
  | addWatcher (w : ρ)
  | removeWatcher (w : ρ) (call : ℕ)
  | removeAll
  | emit
  | emitOne
  deriving DecidableEq

def Command.added {ρ : Type*} : Command ρ → Option ρ
  | .addWatcher w => some w
  | _ => none

/-- Where `process_commands` is: between two commands, in the loop of `emit` with
its variables, or in `emit_one`. -/
inductive Job (ρ : Type*) where
  | idle
  | emitting (pw : ρ) (w remain last : Option ρ)
  | emittingOne (w : ρ)
  deriving DecidableEq

/-- The emittables with the pool.  `user` is the emittable and the call of
`add_watcher` that an entry was taken for last, and `got` is what the calls returned. -/
structure Emitters (ε ρ : Type*) where
  next : ρ → Option ρ
  pool : ρ → Bool
  top : ε → Option ρ
  last : ε → Option ρ
  commands : ε → List (Command ρ)
  job : ε → Job ρ
  calls : ℕ
  user : ρ → Option (ε × ℕ)
  got : ℕ → Option (ε × ρ)

/-- What happens; `add_watcher` gets the entry `w` from the pool, and `remove_watcher`
is called with what the call of that number returned. -/
inductive Act (ε ρ : Type*) where
  | addWatcher (m : ε) (w : ρ)
  | removeWatcher (m : ε) (w : ρ) (call : ℕ)
  | removeAllWatcher (m : ε)
  | emit (m : ε)
  | emitOne (m : ε)
  | process (m : ε)
  | answer (m : ε) (a : Answer)

namespace Emitters

variable {ε ρ : Type*} [DecidableEq ε] [DecidableEq ρ]

def init : Emitters ε ρ where
  next := fun _ => none
  pool := fun _ => true
  top := fun _ => none
  last := fun _ => none
  commands := fun _ => []
  job := fun _ => .idle
  calls := 0
  user := fun _ => none
  got := fun _ => none

def addCommand (s : Emitters ε ρ) (m : ε) (c : Command ρ) : Emitters ε ρ :=
  { s with commands := Function.update s.commands m (s.commands m ++ [c]) }

/-- `m_wl.alloc` in `add_watcher` -/
def take (s : Emitters ε ρ) (m : ε) (w : ρ) : Emitters ε ρ :=
  { s with
    pool := Function.update s.pool w false
    calls := s.calls + 1
    user := Function.update s.user w (some (m, s.calls))
    got := Function.update s.got s.calls (some (m, w)) }

def free (s : Emitters ε ρ) (w : ρ) : Emitters ε ρ :=
  { s with pool := Function.update s.pool w true }

def link (s : Emitters ε ρ) (w : ρ) (p : Option ρ) : Emitters ε ρ :=
  { s with next := Function.update s.next w p }

def setTop (s : Emitters ε ρ) (m : ε) (p : Option ρ) : Emitters ε ρ :=
  { s with top := Function.update s.top m p }

def setLast (s : Emitters ε ρ) (m : ε) (p : Option ρ) : Emitters ε ρ :=
  { s with last := Function.update s.last m p }

def setJob (s : Emitters ε ρ) (m : ε) (job : Job ρ) : Emitters ε ρ :=
  { s with job := Function.update s.job m job }

def list (s : Emitters ε ρ) (m : ε) : Watchers ρ where
  next := s.next
  top := s.top m
  last := s.last m
  pool := s.pool
  queued := fun _ => false
  history := []

def put (s : Emitters ε ρ) (m : ε) (l : Watchers ρ) : Emitters ε ρ :=
  { s with
    next := l.next
    top := Function.update s.top m l.top
    last := Function.update s.last m l.last
    pool := l.pool }

def addWatchEntry (s : Emitters ε ρ) (m : ε) (w : ρ) : Emitters ε ρ :=
  s.put m ((s.list m).addWatchEntry w)

/-- `remove_watch_entry`; a list has no more entries than were taken. -/
def removeWatchEntry (s : Emitters ε ρ) (m : ε) (w : Option ρ) : Emitters ε ρ :=
  (((s.list m).removeWatchEntry s.calls w).map (s.put m)).getD s

/-- The loop of `emit` with the next entry, or behind the last one. -/
def emitFrom (s : Emitters ε ρ) (m : ε) (w remain last : Option ρ) : Emitters ε ρ :=
  match w with
  | some pw => s.setJob m (.emitting pw (s.next pw) remain last)
  | none => ((s.setTop m remain).setLast m last).setJob m .idle

/-- `emit_one` up to the call of the first watcher. -/
def emitOneStart (s : Emitters ε ρ) (m : ε) : Emitters ε ρ :=
  match s.top m with
  | none => s
  | some w =>
      let s := if s.top m = s.last m then s.setLast m (s.next w) else s
      (s.setTop m (s.next w)).setJob m (.emittingOne w)

def pop (s : Emitters ε ρ) (m : ε) (rest : List (Command ρ)) : Emitters ε ρ :=
  { s with commands := Function.update s.commands m rest }

/-- A command in `process_commands`. -/
def exec (s : Emitters ε ρ) (m : ε) : Command ρ → Emitters ε ρ
  | .addWatcher w => s.addWatchEntry m w
  | .removeWatcher w _ => s.removeWatchEntry m (some w)
  | .removeAll => s.removeWatchEntry m none
  | .emit => (s.setTop m none).emitFrom m (s.top m) none none
  | .emitOne => s.emitOneStart m

/-- The next command of `process_commands`. -/
def process (s : Emitters ε ρ) (m : ε) : Emitters ε ρ :=
  match s.job m, s.commands m with
  | .idle, c :: rest => (s.pop m rest).exec m c
  | _, _ => s

/-- `emit` behind the call of a watcher. -/
def emitAnswer (s : Emitters ε ρ) (m : ε) (pw : ρ) (w remain last : Option ρ) :
    Answer → Emitters ε ρ
  | .stop => (s.free pw).emitFrom m w remain last
  | _ =>
      match remain with
      | some r => (s.link pw (some r)).emitFrom m w (some pw) last
      | none => (s.link pw none).emitFrom m w (some pw) (some pw)

/-- `emit_one` behind the call of a watcher. -/
def emitOneAnswer (s : Emitters ε ρ) (m : ε) (w : ρ) : Answer → Emitters ε ρ
  | .stop => (s.free w).setJob m .idle
  | .ignore =>
      match s.next w with
      | some w => s.setJob m (.emittingOne w)
      | none => s.setJob m .idle
  | .keep =>
      let s := s.link w none
      let s :=
        match s.last m with
        | some last => s.link last (some w)
        | none => if s.top m = s.last m then s.setTop m (some w) else s
      (s.setLast m (some w)).setJob m .idle

def step (s : Emitters ε ρ) : Act ε ρ → Emitters ε ρ
  | .addWatcher m w => (s.take m w).addCommand m (.addWatcher w)
  | .removeWatcher m w call => s.addCommand m (.removeWatcher w call)
  | .removeAllWatcher m => s.addCommand m .removeAll
  | .emit m => s.addCommand m .emit
  | .emitOne m => s.addCommand m .emitOne
  | .process m => s.process m
  | .answer m a =>
      match s.job m with
      | .emitting pw w remain last => s.emitAnswer m pw w remain last a
      | .emittingOne w => s.emitOneAnswer m w a
      | .idle => s

/-- The pool gives an entry that is not in use, and `remove_watcher` is called with
what `add_watcher` returned. -/
def Allowed (s : Emitters ε ρ) : Act ε ρ → Prop
  | .addWatcher _ w => s.pool w = true
  | .removeWatcher m w call => s.got call = some (m, w)
  | _ => True

/-- `remove_watcher` is not called with an entry that is in use for another call
on the same emittable, and no watcher ignores an `emit_one`. -/
def Heeds (s : Emitters ε ρ) : Act ε ρ → Prop
  | .removeWatcher m w call => s.pool w = false → ∀ n, s.user w = some (m, n) → n = call
  | .answer m a => a = .ignore → ∀ w, s.job m ≠ .emittingOne w
  | _ => True

/-! ## What an emittable holds -/

/-- The entries of an emittable, wherever its thread is. -/
def Holds (s : Emitters ε ρ) (m : ε) (cells : List ρ) : Prop :=
  match s.job m with
  | .idle => Segment s.next (s.top m) cells none ∧ s.last m = cells.getLast?
  | .emitting pw w remain last => ∃ rest kept, cells = pw :: (rest ++ kept) ∧
      Segment s.next w rest none ∧ Segment s.next remain kept none ∧ last = kept.getLast?
  | .emittingOne w => ∃ rest, cells = w :: rest ∧ Segment s.next (s.top m) rest none ∧
      s.last m = rest.getLast?

/-- A remove command takes the watcher of its own call off its emittable, if it is
there, and all other entries stay where they are. -/
def RemovesOwn (s : Emitters ε ρ) (m : ε) (w : ρ) (call : ℕ) : Prop :=
  ∃ cells : ε → List ρ, (∀ m', s.Holds m' (cells m')) ∧
    (∀ m', (s.process m).Holds m' (Function.update cells m ((cells m).erase w) m')) ∧
    (w ∈ cells m → s.user w = some (m, call)) ∧
    ∀ u, s.pool u = false → (s.process m).pool u = true → s.user u = some (m, call)

variable {s s' : Emitters ε ρ} {m : ε} {cells : List ρ} {w : ρ}

omit [DecidableEq ε] [DecidableEq ρ] in
/-- What an emittable holds depends on its own entries. -/
theorem Holds.congr (holds : s.Holds m cells) (job : s'.job m = s.job m)
    (top : s'.top m = s.top m) (last : s'.last m = s.last m)
    (next : ∀ u, u ∈ cells → s'.next u = s.next u) : s'.Holds m cells := by
  unfold Holds at holds ⊢
  rw [job, top, last]
  cases here : s.job m with
  | idle =>
      rw [here] at holds
      exact ⟨holds.1.congr next, holds.2⟩
  | emitting pw w remain last =>
      rw [here] at holds
      obtain ⟨rest, kept, rfl, before, behind, ends⟩ := holds
      refine ⟨rest, kept, rfl, before.congr fun u member => ?_, behind.congr fun u member => ?_, ends⟩
      · exact next u (List.mem_cons_of_mem pw (List.mem_append_left kept member))
      · exact next u (List.mem_cons_of_mem pw (List.mem_append_right rest member))
  | emittingOne w =>
      rw [here] at holds
      obtain ⟨rest, rfl, segment, ends⟩ := holds
      exact ⟨rest, rfl, segment.congr fun u member => next u (List.mem_cons_of_mem w member), ends⟩

omit [DecidableEq ε] [DecidableEq ρ] in
theorem holds_idle (here : s.job m = .idle) (segment : Segment s.next (s.top m) cells none)
    (last : s.last m = cells.getLast?) : s.Holds m cells := by
  rw [Holds, here]
  exact ⟨segment, last⟩

/-! ### The steps of one emittable -/

/-- A step touches what one emittable holds, and nothing of the others. -/
structure Own (s s' : Emitters ε ρ) (m : ε) (cells : List ρ) : Prop where
  top : ∀ m', m' ≠ m → s'.top m' = s.top m'
  last : ∀ m', m' ≠ m → s'.last m' = s.last m'
  job : ∀ m', m' ≠ m → s'.job m' = s.job m'
  next : ∀ u, u ∉ cells → s'.next u = s.next u
  commands : s'.commands = s.commands
  calls : s'.calls = s.calls
  user : s'.user = s.user
  got : s'.got = s.got

omit [DecidableEq ε] [DecidableEq ρ] in
theorem Own.refl (s : Emitters ε ρ) (m : ε) (cells : List ρ) : Own s s m cells :=
  ⟨fun _ _ => rfl, fun _ _ => rfl, fun _ _ => rfl, fun _ _ => rfl, rfl, rfl, rfl, rfl⟩

omit [DecidableEq ε] [DecidableEq ρ] in
theorem Own.trans {s'' : Emitters ε ρ} (first : Own s s' m cells) (second : Own s' s'' m cells) :
    Own s s'' m cells where
  top := fun m' other => (second.top m' other).trans (first.top m' other)
  last := fun m' other => (second.last m' other).trans (first.last m' other)
  job := fun m' other => (second.job m' other).trans (first.job m' other)
  next := fun u outside => (second.next u outside).trans (first.next u outside)
  commands := second.commands.trans first.commands
  calls := second.calls.trans first.calls
  user := second.user.trans first.user
  got := second.got.trans first.got

omit [DecidableEq ρ] in
theorem own_setTop (s : Emitters ε ρ) (m : ε) (p : Option ρ) (cells : List ρ) :
    Own s (s.setTop m p) m cells :=
  { Own.refl s m cells with top := fun _ other => Function.update_of_ne other .. }

omit [DecidableEq ρ] in
theorem own_setLast (s : Emitters ε ρ) (m : ε) (p : Option ρ) (cells : List ρ) :
    Own s (s.setLast m p) m cells :=
  { Own.refl s m cells with last := fun _ other => Function.update_of_ne other .. }

omit [DecidableEq ρ] in
theorem own_setJob (s : Emitters ε ρ) (m : ε) (job : Job ρ) (cells : List ρ) :
    Own s (s.setJob m job) m cells :=
  { Own.refl s m cells with job := fun _ other => Function.update_of_ne other .. }

omit [DecidableEq ε] in
theorem own_free (s : Emitters ε ρ) (m : ε) (w : ρ) (cells : List ρ) : Own s (s.free w) m cells :=
  { Own.refl s m cells with }

omit [DecidableEq ε] in
theorem own_link (s : Emitters ε ρ) (m : ε) {w : ρ} (p : Option ρ) (member : w ∈ cells) :
    Own s (s.link w p) m cells :=
  { Own.refl s m cells with
    next := by
      intro u outside
      apply Function.update_of_ne
      rintro rfl
      exact outside member }

omit [DecidableEq ρ] in
theorem own_put (s : Emitters ε ρ) (m : ε) {l : Watchers ρ}
    (next : ∀ u, u ∉ cells → l.next u = s.next u) : Own s (s.put m l) m cells :=
  { Own.refl s m cells with
    top := fun _ other => Function.update_of_ne other ..
    last := fun _ other => Function.update_of_ne other ..
    next := next }

omit [DecidableEq ρ] in
theorem own_emitFrom (s : Emitters ε ρ) (m : ε) (w remain last : Option ρ) (cells : List ρ) :
    Own s (s.emitFrom m w remain last) m cells := by
  cases w with
  | none => exact ((own_setTop ..).trans (own_setLast ..)).trans (own_setJob ..)
  | some pw => exact own_setJob ..

omit [DecidableEq ρ] in
/-- The loop of `emit` holds what is in front of it and what it has kept. -/
theorem holds_emitFrom {w' remain last : Option ρ} {rest kept : List ρ}
    (before : Segment s.next w' rest none) (behind : Segment s.next remain kept none)
    (ends : last = kept.getLast?) : (s.emitFrom m w' remain last).Holds m (rest ++ kept) := by
  cases rest with
  | nil =>
      obtain rfl : w' = none := before
      have idle : (s.emitFrom m none remain last).job m = .idle := Function.update_self ..
      rw [Holds, idle]
      constructor
      · change Segment s.next (Function.update s.top m remain m) kept none
        rw [Function.update_self]
        exact behind
      · exact (Function.update_self ..).trans ends
  | cons pw rest =>
      obtain ⟨rfl, before⟩ := before
      have emitting : (s.emitFrom m (some pw) remain last).job m =
          .emitting pw (s.next pw) remain last := Function.update_self ..
      rw [Holds, emitting]
      exact ⟨rest, kept, rfl, before, behind, ends⟩

/-- A step of one emittable, which holds some of its entries behind it. -/
structure Shrinks (s s' : Emitters ε ρ) (m : ε) (cells cells' : List ρ) : Prop where
  own : Own s s' m cells
  holds : s'.Holds m cells'
  sub : cells'.Subperm cells
  pool : ∀ u, u ∉ cells ∨ u ∈ cells' → s'.pool u = s.pool u

omit [DecidableEq ρ] in
@[simp] theorem emitFrom_pool (s : Emitters ε ρ) (m : ε) (w remain last : Option ρ) :
    (s.emitFrom m w remain last).pool = s.pool := by
  cases w <;> rfl

/-- One answer in `emit`: the watcher is freed or kept. -/
theorem shrinks_emitAnswer {pw : ρ} {w' remain last : Option ρ} (holds : s.Holds m cells)
    (here : s.job m = .emitting pw w' remain last) (distinct : cells.Nodup) (a : Answer) :
    ∃ cells', Shrinks s (s.emitAnswer m pw w' remain last a) m cells cells' := by
  rw [Holds, here] at holds
  obtain ⟨rest, kept, rfl, before, behind, ends⟩ := holds
  obtain ⟨apart, -⟩ := List.nodup_cons.mp distinct
  rw [List.mem_append, not_or] at apart
  have stays : ∃ cells', Shrinks s
      (match remain with
      | some r => (s.link pw (some r)).emitFrom m w' (some pw) last
      | none => (s.link pw none).emitFrom m w' (some pw) (some pw)) m (pw :: (rest ++ kept))
      cells' := by
    have before' : ∀ p, Segment (s.link pw p).next w' rest none := fun p => before.update apart.1
    cases remain with
    | none =>
        obtain rfl : kept = [] := by
          cases kept with
          | nil => rfl
          | cons r kept => exact nomatch behind.1
        have kept' : Segment (s.link pw none).next (some pw) [pw] none :=
          ⟨rfl, Function.update_self ..⟩
        refine ⟨rest ++ [pw], ?_, holds_emitFrom (before' none) kept' rfl, ?_, fun u _ => ?_⟩
        · exact (own_link s m none List.mem_cons_self).trans (own_emitFrom ..)
        · rw [List.append_nil]
          exact (List.perm_append_singleton pw rest).subperm
        · rw [emitFrom_pool]
          rfl
    | some r =>
        have kept' : Segment (s.link pw (some r)).next (some pw) (pw :: kept) none := by
          refine ⟨rfl, ?_⟩
          change Segment (Function.update s.next pw (some r)) (Function.update s.next pw (some r) pw) _ _
          rw [Function.update_self]
          exact behind.update apart.2
        have ends' : last = (pw :: kept).getLast? := by
          cases kept with
          | nil => exact nomatch behind
          | cons b kept => exact ends.trans (List.getLast?_cons_cons ..).symm
        refine ⟨rest ++ pw :: kept, ?_, holds_emitFrom (before' (some r)) kept' ends', ?_,
          fun u _ => ?_⟩
        · exact (own_link s m (some r) List.mem_cons_self).trans (own_emitFrom ..)
        · exact List.perm_middle.subperm
        · rw [emitFrom_pool]
          rfl
  cases a with
  | stop =>
      have before' : Segment (s.free pw).next w' rest none := before
      refine ⟨rest ++ kept, ?_, holds_emitFrom before' behind ends, ?_, fun u either => ?_⟩
      · exact (own_free s m pw _).trans (own_emitFrom ..)
      · exact (List.sublist_cons_self pw _).subperm
      · rw [emitAnswer, emitFrom_pool]
        refine Function.update_of_ne ?_ ..
        rintro rfl
        rcases either with outside | inside
        · exact outside List.mem_cons_self
        · exact (List.mem_append.mp inside).elim apart.1 apart.2
  | keep => exact stays
  | ignore => exact stays

theorem emitOneAnswer_keep_first (w : ρ) (top : s.top m = none) (last : s.last m = none) :
    s.emitOneAnswer m w .keep =
      (((s.link w none).setTop m (some w)).setLast m (some w)).setJob m .idle := by
  simp [emitOneAnswer, link, top, last]

theorem emitOneAnswer_keep_last (w : ρ) {b : ρ} (last : s.last m = some b) :
    s.emitOneAnswer m w .keep =
      (((s.link w none).link b (some w)).setLast m (some w)).setJob m .idle := by
  simp [emitOneAnswer, link, last]

/-- One answer in `emit_one`: the watcher is freed or becomes the last one. -/
theorem shrinks_emitOneAnswer {w : ρ} (holds : s.Holds m cells)
    (here : s.job m = .emittingOne w) (distinct : cells.Nodup) {a : Answer} (heeds : a ≠ .ignore) :
    ∃ cells', Shrinks s (s.emitOneAnswer m w a) m cells cells' := by
  rw [Holds, here] at holds
  obtain ⟨rest, rfl, segment, ends⟩ := holds
  obtain ⟨apart, -⟩ := List.nodup_cons.mp distinct
  cases a with
  | ignore => exact absurd rfl heeds
  | stop =>
      refine ⟨rest, (own_free ..).trans (own_setJob ..), ?_,
        (List.sublist_cons_self w rest).subperm, fun u either => ?_⟩
      · have idle : (s.emitOneAnswer m w .stop).job m = .idle := Function.update_self ..
        rw [Holds, idle]
        exact ⟨segment, ends⟩
      · refine Function.update_of_ne ?_ ..
        rintro rfl
        exact either.elim (fun outside => outside List.mem_cons_self) apart
  | keep =>
      have sub : (rest ++ [w]).Subperm (w :: rest) := (List.perm_append_singleton w rest).subperm
      have ends' : some w = (rest ++ [w]).getLast? := List.getLast?_concat.symm
      refine ⟨rest ++ [w], ?_⟩
      rcases List.eq_nil_or_concat' rest with rfl | ⟨l, b, rfl⟩
      · rw [emitOneAnswer_keep_first w segment ends]
        have own : Own s (((s.link w none).setTop m (some w)).setLast m (some w)) m [w] :=
          ((own_link s m none List.mem_cons_self).trans (own_setTop ..)).trans (own_setLast ..)
        refine ⟨own.trans (own_setJob ..), ?_, sub, fun u _ => rfl⟩
        · refine holds_idle (Function.update_self ..) ?_ ((Function.update_self ..).trans ends')
          have top : ((((s.link w none).setTop m (some w)).setLast m (some w)).setJob m .idle).top m =
              some w := Function.update_self ..
          rw [top]
          exact ⟨rfl, Function.update_self ..⟩
      · have some_last : s.last m = some b := ends.trans List.getLast?_concat
        have member : b ∈ w :: (l ++ [b]) := by simp
        rw [emitOneAnswer_keep_last w some_last]
        have own : Own s ((s.link w none).link b (some w)) m (w :: (l ++ [b])) :=
          (own_link s m none List.mem_cons_self).trans (own_link _ m (some w) member)
        refine ⟨own.trans ((own_setLast ..).trans (own_setJob ..)), ?_, sub, fun u _ => rfl⟩
        · refine holds_idle (Function.update_self ..) ?_ ((Function.update_self ..).trans ends')
          exact segment.snoc apart

/-- `remove_watch_entry` frees nothing but the entry of the command. -/
theorem shrinks_removeWatchEntry (holds : s.Holds m cells) (idle : s.job m = .idle)
    (distinct : cells.Nodup) (enough : cells.length ≤ s.calls) :
    Shrinks s (s.removeWatchEntry m (some w)) m cells (cells.erase w) ∧
      ∀ u, u ∉ cells ∨ u ≠ w → (s.removeWatchEntry m (some w)).pool u = s.pool u := by
  rw [Holds, idle] at holds
  have segment : Segment (s.list m).next (s.list m).top cells none := holds.1
  obtain ⟨l, run, segment', last, -, -, pool, next⟩ := Watchers.removeWatchEntry_spec segment holds.2 enough
  have result : s.removeWatchEntry m (some w) = s.put m l := by rw [removeWatchEntry, run]; rfl
  rw [result]
  refine ⟨⟨own_put s m next, ?_, ?_, fun u either => ?_⟩, pool⟩
  · refine holds_idle idle ?_ ((Function.update_self ..).trans last)
    have top : (s.put m l).top m = l.top := Function.update_self ..
    rw [top]
    exact segment'
  · exact (List.erase_sublist).subperm
  · apply pool u
    rcases either with outside | kept
    · exact .inl outside
    · exact .inr (distinct.mem_erase_iff.mp kept).1

/-- Removing all watchers frees nothing but the entries of the list. -/
theorem shrinks_removeAll (holds : s.Holds m cells) (idle : s.job m = .idle)
    (enough : cells.length ≤ s.calls) :
    Shrinks s (s.removeWatchEntry m none) m cells [] := by
  rw [Holds, idle] at holds
  let before : Watchers ρ := { s.list m with history := .removedAll :: (s.list m).history }
  have segment : Segment before.next before.top cells none := holds.1
  obtain ⟨l, run, top, last, -, -, next, pool⟩ := Watchers.removeAll_spec segment enough
  have result : s.removeWatchEntry m none = s.put m l := by
    rw [removeWatchEntry, Watchers.removeWatchEntry, run]
    rfl
  rw [result]
  refine ⟨own_put s m fun u _ => congrFun next u, ?_, List.nil_subperm, fun u either => ?_⟩
  · refine holds_idle idle ?_ ((Function.update_self ..).trans last)
    exact (Function.update_self ..).trans top
  · exact pool u (either.resolve_right List.not_mem_nil)

omit [DecidableEq ρ] in
/-- An emit starts with all the entries in front of it. -/
theorem shrinks_emit (holds : s.Holds m cells) (idle : s.job m = .idle) :
    Shrinks s ((s.setTop m none).emitFrom m (s.top m) none none) m cells cells := by
  rw [Holds, idle] at holds
  have before : Segment (s.setTop m none).next (s.top m) cells none := holds.1
  have whole : ((s.setTop m none).emitFrom m (s.top m) none none).Holds m (cells ++ []) :=
    holds_emitFrom before rfl rfl
  rw [List.append_nil] at whole
  refine ⟨(own_setTop ..).trans (own_emitFrom ..), whole, List.Subperm.refl cells, fun u _ => ?_⟩
  rw [emitFrom_pool]
  rfl

/-- `emit_one` takes the first entry off. -/
theorem shrinks_emitOneStart (holds : s.Holds m cells) (idle : s.job m = .idle) :
    Shrinks s (s.emitOneStart m) m cells cells := by
  have whole := holds
  rw [Holds, idle] at holds
  obtain ⟨segment, last⟩ := holds
  cases cells with
  | nil =>
      have top : s.top m = none := segment
      have same : s.emitOneStart m = s := by rw [emitOneStart, top]
      rw [same]
      exact ⟨.refl s m [], whole, List.Subperm.refl [], fun _ _ => rfl⟩
  | cons a l =>
      obtain ⟨top, rest⟩ := segment
      have result : ∃ s₁ : Emitters ε ρ, s.emitOneStart m =
            (s₁.setTop m (s.next a)).setJob m (.emittingOne a) ∧ s₁.next = s.next ∧
          Own s s₁ m (a :: l) ∧ s₁.pool = s.pool ∧ s₁.last m = l.getLast? := by
        cases l with
        | nil =>
            have only : s.last m = some a := last
            have none_next : s.next a = none := rest
            exact ⟨s.setLast m (s.next a), by simp [emitOneStart, top, only, setLast], rfl,
              own_setLast .., rfl, (Function.update_self ..).trans none_next⟩
        | cons b l =>
            have others : ¬ some a = s.last m := by
              intro same
              have member : a ∈ b :: l := by
                apply List.mem_of_getLast?
                rw [← List.getLast?_cons_cons (a := a), ← last, ← same]
              exact (List.nodup_cons.mp (Segment.nodup ⟨top, rest⟩)).1 member
            exact ⟨s, by simp [emitOneStart, top, others], rfl, .refl s m _, rfl,
              last.trans (List.getLast?_cons_cons ..)⟩
      obtain ⟨s₁, result, next, own, pool, ends⟩ := result
      rw [result]
      refine ⟨own.trans ((own_setTop ..).trans (own_setJob ..)), ?_, List.Subperm.refl _,
        fun u _ => congrFun pool u⟩
      · have here : ((s₁.setTop m (s.next a)).setJob m (.emittingOne a)).job m = .emittingOne a :=
          Function.update_self ..
        rw [Holds, here]
        refine ⟨l, rfl, ?_, ends⟩
        change Segment s₁.next (Function.update s₁.top m (s.next a) m) l none
        rw [Function.update_self, next]
        exact rest

end Emitters

end Cyue.Emittable
