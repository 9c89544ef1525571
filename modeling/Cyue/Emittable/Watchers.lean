import Cyue.Lib.Chain
import Cyue.Lib.Run
import Mathlib.Data.Set.Insert

/-!
# The watcher list of an emittable

The entries that wait for events are a singly linked list from `m_top` to
`m_last`.  `process_commands` runs the four operations below one after the
other; their loops follow `m_next` and take an amount of fuel, `none` standing
for a loop that has not come to its end.  Returning an entry to the pool leaves
its link as it is.
-/

namespace Cyue.Emittable

open Cyue.Chain

inductive Answer where
  | stop
  | keep
  | ignore
  deriving DecidableEq

inductive Event (ρ : Type*) where
  | added (w : ρ)
  | removed (w : ρ)
  | removedAll
  | called (w : ρ) (answer : Answer)

/-- The watchers added and neither removed nor stopped, the newest event first. -/
def standing {ρ : Type*} : List (Event ρ) → Set ρ
  | [] => ∅
  | .added w :: earlier => insert w (standing earlier)
  | .removed w :: earlier => standing earlier \ {w}
  | .removedAll :: _ => ∅
  | .called w .stop :: earlier => standing earlier \ {w}
  | .called _ .keep :: earlier => standing earlier
  | .called _ .ignore :: earlier => standing earlier

/-- The watch entries by their addresses, with the history of the list. -/
structure Watchers (ρ : Type*) where
  next : ρ → Option ρ
  top : Option ρ
  last : Option ρ
  /-- The entry is in the pool. -/
  pool : ρ → Bool
  /-- The entry's `ADD_WATCHER` command is not processed yet. -/
  queued : ρ → Bool
  history : List (Event ρ)

namespace Watchers

variable {ρ : Type*} [DecidableEq ρ]

/-- An emittable without watchers; every entry is in the pool. -/
def init : Watchers ρ :=
  { next := fun _ => none, top := none, last := none, pool := fun _ => true,
    queued := fun _ => false, history := [] }

def free (s : Watchers ρ) (w : ρ) : Watchers ρ :=
  { s with pool := Function.update s.pool w true }

def link (s : Watchers ρ) (w : ρ) (p : Option ρ) : Watchers ρ :=
  { s with next := Function.update s.next w p }

def call (s : Watchers ρ) (w : ρ) (answer : Answer) : Watchers ρ :=
  { s with history := .called w answer :: s.history }

/-- `add_watcher` takes the entry from the pool and queues the command. -/
def addWatcher (s : Watchers ρ) (w : ρ) : Watchers ρ :=
  { s with pool := Function.update s.pool w false, queued := Function.update s.queued w true }

def addWatchEntry (s : Watchers ρ) (w : ρ) : Watchers ρ :=
  let s := { s with
    queued := Function.update s.queued w false, history := .added w :: s.history }
  let s := { s.link w s.top with top := some w }
  if s.last.isNone then { s with last := some w } else s

/-- The loop of `remove_watch_entry` over all entries. -/
def removeAll : ℕ → Watchers ρ → Option ρ → Option (Watchers ρ)
  | _, s, none => some { s with top := none, last := none }
  | 0, _, some _ => none
  | fuel + 1, s, some pw => removeAll fuel (s.free pw) (s.next pw)

/-- The loop of `remove_watch_entry` from the second entry on. -/
def removeAfter : ℕ → Watchers ρ → ρ → ρ → Option ρ → Option (Watchers ρ)
  | _, s, _, _, none => some s
  | 0, _, _, _, some _ => none
  | fuel + 1, s, w, prev, some curr =>
    if curr = w then
      let s := s.link prev (s.next curr)
      let s := if some curr = s.last then { s with last := some prev } else s
      some (s.free w)
    else removeAfter fuel s w curr (s.next curr)

def removeWatchEntry (fuel : ℕ) (s : Watchers ρ) : Option ρ → Option (Watchers ρ)
  | none => removeAll fuel { s with history := .removedAll :: s.history } s.top
  | some w =>
    let s := { s with history := .removed w :: s.history }
    if s.top = some w then
      if s.top = s.last then
        some ({ s with top := s.next w, last := s.next w }.free w)
      else some ({ s with top := s.next w }.free w)
    else
      match s.top with
      | none => some s
      | some top => removeAfter fuel s w top (s.next top)

/-- The loop of `emit`; `remain` and `last` are its local variables. -/
def emitLoop (answers : ρ → Answer) :
    ℕ → Watchers ρ → Option ρ → Option ρ → Option ρ → Option (Watchers ρ)
  | _, s, none, remain, last => some { s with top := remain, last := last }
  | 0, _, some _, _, _ => none
  | fuel + 1, s, some pw, remain, last =>
    let w := s.next pw
    let s := s.call pw (answers pw)
    if answers pw = .stop then emitLoop answers fuel (s.free pw) w remain last
    else
      match remain with
      | some r => emitLoop answers fuel (s.link pw (some r)) w (some pw) last
      | none => emitLoop answers fuel (s.link pw none) w (some pw) (some pw)

def emit (fuel : ℕ) (s : Watchers ρ) (answers : ρ → Answer) : Option (Watchers ρ) :=
  emitLoop answers fuel { s with top := none } s.top none none

/-- `emit_one` from the label `retry` on. -/
def emitOneLoop (answers : ρ → Answer) : ℕ → Watchers ρ → ρ → Option (Watchers ρ)
  | 0, _, _ => none
  | fuel + 1, s, w =>
    let s := s.call w (answers w)
    match answers w with
    | .stop => some (s.free w)
    | .ignore =>
      match s.next w with
      | some w => emitOneLoop answers fuel s w
      | none => some s
    | .keep =>
      let s := s.link w none
      let s :=
        match s.last with
        | some last => s.link last (some w)
        | none => if s.top = s.last then { s with top := some w } else s
      some { s with last := some w }

def emitOne (fuel : ℕ) (s : Watchers ρ) (answers : ρ → Answer) : Option (Watchers ρ) :=
  match s.top with
  | none => some s
  | some w =>
    if s.top = s.last then
      emitOneLoop answers fuel { s with top := s.next w, last := s.next w } w
    else emitOneLoop answers fuel { s with top := s.next w } w

/-! ## Runs -/

/-- An operation, with the answers of the callbacks it leads to. -/
inductive Op (ρ : Type*) where
  | addWatcher (w : ρ)
  | addWatchEntry (w : ρ)
  | removeWatchEntry (w : Option ρ)
  | emit (answers : ρ → Answer)
  | emitOne (answers : ρ → Answer)

def exec (fuel : ℕ) (s : Watchers ρ) : Op ρ → Option (Watchers ρ)
  | .addWatcher w => some (s.addWatcher w)
  | .addWatchEntry w => some (s.addWatchEntry w)
  | .removeWatchEntry w => s.removeWatchEntry fuel w
  | .emit answers => s.emit fuel answers
  | .emitOne answers => s.emitOne fuel answers

/-- `add_watcher` gets an entry of the pool, and `add_watch_entry` is called
for the command that it queued. -/
def Legal (s : Watchers ρ) : Op ρ → Prop
  | .addWatcher w => s.pool w = true
  | .addWatchEntry w => s.queued w = true
  | _ => True

/-- The list from `m_top` ends at `m_last`, has no entry of the pool and has
exactly the watchers added and neither removed nor stopped. -/
def Exact (s : Watchers ρ) : Prop :=
  ∃ chain, Segment s.next s.top chain none ∧ s.last = chain.getLast? ∧
    (∀ w, w ∈ chain → s.pool w = false) ∧ ∀ w, w ∈ chain ↔ w ∈ standing s.history

/-! ## What the operations keep -/

/-- The state represents the chain, and no queued entry is on it or in the pool. -/
structure Represents (s : Watchers ρ) (chain : List ρ) : Prop where
  segment : Segment s.next s.top chain none
  last : s.last = chain.getLast?
  pool : ∀ w, w ∈ chain → s.pool w = false
  standing : ∀ w, w ∈ chain ↔ w ∈ standing s.history
  queued : ∀ w, s.queued w = true → s.pool w = false ∧ w ∉ chain

variable {s s' : Watchers ρ} {chain : List ρ} {w : ρ}

omit [DecidableEq ρ] in
theorem Represents.exact (represents : s.Represents chain) : s.Exact :=
  ⟨chain, represents.segment, represents.last, represents.pool, represents.standing⟩

omit [DecidableEq ρ] in
theorem init_represents : (init : Watchers ρ).Represents [] where
  segment := rfl
  last := rfl
  pool _ member := nomatch member
  standing w := by simp [init, Emittable.standing]
  queued _ queued := nomatch queued

/-- `add_watcher` does not touch the list. -/
theorem Represents.addWatcher (represents : s.Represents chain) (pooled : s.pool w = true) :
    (s.addWatcher w).Represents chain := by
  have outside : w ∉ chain := fun member =>
    nomatch pooled.symm.trans (represents.pool w member)
  refine { represents with pool := ?_, queued := ?_ }
  · intro u member
    have other : u ≠ w := by
      rintro rfl
      exact outside member
    exact (Function.update_of_ne other ..).trans (represents.pool u member)
  · intro u queued
    by_cases same : u = w
    · rw [same]
      exact ⟨Function.update_self .., outside⟩
    · rw [Watchers.addWatcher] at queued ⊢
      simp only [Function.update_of_ne same] at queued ⊢
      exact represents.queued u queued

/-- `add_watch_entry` puts the entry in front of a chain. -/
theorem addWatchEntry_spec (segment : Segment s.next s.top chain none)
    (last : s.last = chain.getLast?) (outside : w ∉ chain) : ∃ last',
    s.addWatchEntry w = { s with
        next := Function.update s.next w s.top, top := some w, last := last',
        queued := Function.update s.queued w false, history := .added w :: s.history } ∧
      Segment (Function.update s.next w s.top) (some w) (w :: chain) none ∧
      last' = (w :: chain).getLast? := by
  have segment' : Segment (Function.update s.next w s.top) (some w) (w :: chain) none := by
    refine ⟨rfl, ?_⟩
    rw [Function.update_self]
    exact segment.update outside
  cases chain with
  | nil =>
      refine ⟨some w, ?_, segment', rfl⟩
      rw [Watchers.addWatchEntry, link, if_pos (by simpa using last)]
  | cons a chain =>
      refine ⟨s.last, ?_, segment', last.trans (List.getLast?_cons_cons ..).symm⟩
      rw [Watchers.addWatchEntry, link, if_neg (by simp [last])]

/-- `add_watch_entry` puts the entry in front. -/
theorem Represents.addWatchEntry (represents : s.Represents chain)
    (queued : s.queued w = true) : (s.addWatchEntry w).Represents (w :: chain) := by
  obtain ⟨used, outside⟩ := represents.queued w queued
  have pool : ∀ u, u ∈ w :: chain → s.pool u = false := by
    intro u member
    rcases List.mem_cons.mp member with rfl | rest
    · exact used
    · exact represents.pool u rest
  have standing : ∀ u, u ∈ w :: chain ↔
      u ∈ Emittable.standing (.added w :: s.history) := by
    intro u
    rw [List.mem_cons, represents.standing u]
    rfl
  have pending : ∀ u, Function.update s.queued w false u = true →
      s.pool u = false ∧ u ∉ w :: chain := by
    intro u pending
    by_cases same : u = w
    · rw [same, Function.update_self] at pending
      cases pending
    · rw [Function.update_of_ne same] at pending
      obtain ⟨unpooled, absent⟩ := represents.queued u pending
      exact ⟨unpooled, List.not_mem_cons_of_ne_of_not_mem same absent⟩
  obtain ⟨last, added, segment, ends⟩ :=
    addWatchEntry_spec represents.segment represents.last outside
  rw [added]
  exact ⟨segment, ends, pool, standing, pending⟩

/-- Freeing the cells of a chain one by one empties the list. -/
theorem removeAll_spec {l : List ρ} {p : Option ρ} {fuel : ℕ} (segment : Segment s.next p l none)
    (enough : l.length ≤ fuel) :
    ∃ s', removeAll fuel s p = some s' ∧ s'.top = none ∧ s'.last = none ∧
      s'.history = s.history ∧ s'.queued = s.queued ∧ s'.next = s.next ∧
      ∀ w, w ∉ l → s'.pool w = s.pool w := by
  induction l generalizing s p fuel with
  | nil =>
      obtain rfl : p = none := segment
      refine ⟨{ s with top := none, last := none }, ?_, rfl, rfl, rfl, rfl, rfl, fun _ _ => rfl⟩
      rw [removeAll]
  | cons a l ih =>
      obtain ⟨rfl, rest⟩ := segment
      cases fuel with
      | zero => exact nomatch enough
      | succ fuel =>
          have segment : Segment (s.free a).next (s.next a) l none := rest
          obtain ⟨s', run, top, last, history, queued, next, pool⟩ :=
            ih segment (Nat.le_of_succ_le_succ enough)
          refine ⟨s', run, top, last, history, queued, next, fun w outside => ?_⟩
          rw [List.mem_cons, not_or] at outside
          rw [pool w outside.2]
          exact Function.update_of_ne outside.1 ..

/-- The operations up to the change of the list: the queued entries stay off
the pool and off the list. -/
theorem Represents.removeAll {fuel : ℕ} (represents : s.Represents chain)
    (enough : chain.length ≤ fuel) :
    ∃ s', s.removeWatchEntry fuel none = some s' ∧ s'.Represents [] := by
  have segment : Segment { s with history := .removedAll :: s.history }.next s.top chain none :=
    represents.segment
  obtain ⟨s', run, top, last, history, queued, -, pool⟩ := removeAll_spec segment enough
  refine ⟨s', run, ⟨top, last, fun w member => (nomatch member), fun w => ?_, fun w pending => ?_⟩⟩
  · rw [history, Emittable.standing]
    exact ⟨fun member => (nomatch member), fun member => (nomatch member)⟩
  · rw [queued] at pending
    obtain ⟨unpooled, outside⟩ := represents.queued w pending
    rw [pool w outside]
    exact ⟨unpooled, List.not_mem_nil⟩

/-- The search from the second entry on unlinks the entry it finds. -/
theorem removeAfter_spec {prev : ρ} {l : List ρ} {fuel : ℕ}
    (segment : Segment s.next (some prev) (prev :: l) none)
    (last : s.last = (prev :: l).getLast?) (enough : l.length ≤ fuel) :
    ∃ s', removeAfter fuel s w prev (s.next prev) = some s' ∧
      Segment s'.next (some prev) (prev :: l.erase w) none ∧
      s'.last = (prev :: l.erase w).getLast? ∧ s'.top = s.top ∧ s'.history = s.history ∧
      s'.queued = s.queued ∧ (∀ u, u ∉ l ∨ u ≠ w → s'.pool u = s.pool u) ∧
      ∀ u, u ∉ prev :: l → s'.next u = s.next u := by
  induction l generalizing prev fuel with
  | nil =>
      have ends : s.next prev = none := segment.2
      refine ⟨s, ?_, segment, last, rfl, rfl, rfl, fun _ _ => rfl, fun _ _ => rfl⟩
      rw [ends, removeAfter]
  | cons c l ih =>
      have distinct := segment.nodup
      obtain ⟨-, link, rest⟩ := segment
      cases fuel with
      | zero => exact nomatch enough
      | succ fuel =>
          by_cases found : c = w
          · subst found
            have outside : prev ∉ l := fun member =>
              (List.nodup_cons.mp distinct).1 (List.mem_cons_of_mem c member)
            have segment' : Segment (Function.update s.next prev (s.next c)) (some prev)
                (prev :: l) none := by
              refine ⟨rfl, ?_⟩
              rw [Function.update_self]
              exact Segment.update rest outside
            rw [List.erase_cons_head, link, removeAfter, if_pos rfl]
            refine ⟨_, rfl, ?_⟩
            cases l with
            | nil =>
                rw [if_pos (by exact last.symm)]
                exact ⟨segment', rfl, rfl, rfl, rfl,
                  fun u other => Function.update_of_ne (other.elim List.ne_of_not_mem_cons id) ..,
                  fun u absent => Function.update_of_ne (List.ne_of_not_mem_cons absent) ..⟩
            | cons b l =>
                have stays : some c ≠ s.last := by
                  rw [last, List.getLast?_cons_cons, List.getLast?_cons_cons]
                  intro same
                  have member := List.mem_of_getLast? same.symm
                  exact (List.nodup_cons.mp (List.nodup_cons.mp distinct).2).1 member
                rw [if_neg (by exact stays)]
                refine ⟨segment', ?_, rfl, rfl, rfl,
                  fun u other => Function.update_of_ne (other.elim List.ne_of_not_mem_cons id) ..,
                  fun u absent => Function.update_of_ne (List.ne_of_not_mem_cons absent) ..⟩
                rw [List.getLast?_cons_cons, ← List.getLast?_cons_cons (a := c),
                  ← List.getLast?_cons_cons (a := prev)]
                exact last
          · obtain ⟨s', run, segment', last', top, history, queued, pool, next⟩ :=
              ih ⟨rfl, rest⟩ (last.trans (List.getLast?_cons_cons ..))
                (Nat.le_of_succ_le_succ enough)
            have outside : prev ∉ c :: l := (List.nodup_cons.mp distinct).1
            refine ⟨s', ?_, ?_, ?_, top, history, queued, fun u other => pool u ?_, ?_⟩
            · rw [link, removeAfter, if_neg found]
              exact run
            · rw [List.erase_cons_tail (by simpa using found)]
              refine ⟨rfl, ?_⟩
              rw [next prev outside, link]
              exact segment'
            · rw [List.erase_cons_tail (by simpa using found)]
              exact last'.trans (List.getLast?_cons_cons ..).symm
            · exact other.imp_left fun absent member => absent (List.mem_cons_of_mem c member)
            · intro u absent
              exact next u fun member => absent (List.mem_cons_of_mem prev member)

/-- An entry that is not the first one is searched for. -/
theorem removeWatchEntry_other {a : ρ} {fuel : ℕ} (top : s.top = some a) (other : a ≠ w) :
    s.removeWatchEntry fuel (some w) =
      removeAfter fuel { s with history := .removed w :: s.history } w a (s.next a) := by
  obtain ⟨next, _, last, pool, queued, history⟩ := s
  subst top
  rw [removeWatchEntry, if_neg fun same => other (Option.some.inj same)]

/-- The first entry leaves the list; if it is the last one as well, both ends
follow its link. -/
theorem removeWatchEntry_first {fuel : ℕ} (top : s.top = some w) :
    s.removeWatchEntry fuel (some w) = some ({ s with
      top := s.next w, last := if s.last = some w then s.next w else s.last,
      history := .removed w :: s.history }.free w) := by
  obtain ⟨next, _, last, pool, queued, history⟩ := s
  subst top
  rw [removeWatchEntry, if_pos rfl]
  by_cases only : last = some w
  · rw [if_pos only.symm, if_pos only]
  · rw [if_neg fun same => only same.symm, if_neg only]

/-- `remove_watch_entry` takes the entry off a chain, wherever it stands. -/
theorem removeWatchEntry_spec {fuel : ℕ} (segment : Segment s.next s.top chain none)
    (last : s.last = chain.getLast?) (enough : chain.length ≤ fuel) :
    ∃ s', s.removeWatchEntry fuel (some w) = some s' ∧
      Segment s'.next s'.top (chain.erase w) none ∧ s'.last = (chain.erase w).getLast? ∧
      s'.history = .removed w :: s.history ∧ s'.queued = s.queued ∧
      (∀ u, u ∉ chain ∨ u ≠ w → s'.pool u = s.pool u) ∧ ∀ u, u ∉ chain → s'.next u = s.next u := by
  have distinct := segment.nodup
  cases chain with
  | nil =>
      have top : s.top = none := segment
      have same : s.removeWatchEntry fuel (some w) =
          some { s with history := .removed w :: s.history } := by
        obtain ⟨next, _, last, pool, queued, history⟩ := s
        subst top
        rfl
      exact ⟨_, same, segment, last, rfl, rfl, fun _ _ => rfl, fun _ _ => rfl⟩
  | cons a l =>
      have top : s.top = some a := segment.1
      by_cases first : a = w
      · subst first
        rw [List.erase_cons_head]
        refine ⟨_, removeWatchEntry_first top, segment.2, ?_, rfl, rfl, fun u other => ?_,
          fun _ _ => rfl⟩
        · cases l with
          | nil =>
              have next : s.next a = none := segment.2
              exact (if_pos last).trans next
          | cons b l =>
              have stays : s.last ≠ some a := by
                rw [last, List.getLast?_cons_cons]
                intro same
                exact (List.nodup_cons.mp distinct).1 (List.mem_of_getLast? same)
              rw [List.getLast?_cons_cons] at last
              exact (if_neg stays).trans last
        · exact Function.update_of_ne (other.elim List.ne_of_not_mem_cons id) ..
      · have start : Segment { s with history := .removed w :: s.history }.next (some a)
            (a :: l) none := ⟨rfl, segment.2⟩
        obtain ⟨s', run, segment', last', top', history, queued, pool, next⟩ :=
          removeAfter_spec (w := w) start last (Nat.le_of_succ_le enough)
        rw [List.erase_cons_tail (by simpa using first)]
        refine ⟨s', ?_, ?_, last', history, queued, fun u other => pool u ?_, next⟩
        · rw [removeWatchEntry_other top first]
          exact run
        · rw [top']
          exact top ▸ segment'
        · exact other.imp_left fun absent member => absent (List.mem_cons_of_mem a member)

/-- `remove_watch_entry` takes the entry off the list. -/
theorem Represents.remove {fuel : ℕ} (represents : s.Represents chain)
    (enough : chain.length ≤ fuel) :
    ∃ s', s.removeWatchEntry fuel (some w) = some s' ∧ s'.Represents (chain.erase w) := by
  have distinct := represents.segment.nodup
  obtain ⟨s', run, segment, last, history, queued, pool, -⟩ :=
    removeWatchEntry_spec (w := w) represents.segment represents.last enough
  refine ⟨s', run, segment, last, fun u member => ?_, fun u => ?_, fun u pending => ?_⟩
  · obtain ⟨other, there⟩ := distinct.mem_erase_iff.mp member
    rw [pool u (.inr other)]
    exact represents.pool u there
  · rw [history, distinct.mem_erase_iff, represents.standing u, and_comm]
    rfl
  · rw [queued] at pending
    obtain ⟨unpooled, outside⟩ := represents.queued u pending
    rw [pool u (.inl outside)]
    exact ⟨unpooled, fun member => outside (distinct.mem_erase_iff.mp member).2⟩

omit [DecidableEq ρ] in
/-- A call takes the watcher off the standing ones when it answers STOP. -/
theorem mem_standing_call {answer : Answer} {u : ρ} :
    u ∈ standing (s.call w answer).history ↔
      u ∈ standing s.history ∧ ¬ (u = w ∧ answer = .stop) := by
  cases answer with
  | stop => simp [call, standing]
  | keep => simp [call, standing]
  | ignore => simp [call, standing]

omit [DecidableEq ρ] in
/-- The calls of the first watcher and of the rest. -/
theorem mem_standing_calls {answers : ρ → Answer} {a : ρ} {l : List ρ} {u : ρ} :
    (u ∈ standing (s.call a (answers a)).history ∧ ¬ (u ∈ l ∧ answers u = .stop)) ↔
      u ∈ standing s.history ∧ ¬ (u ∈ a :: l ∧ answers u = .stop) := by
  rw [mem_standing_call, List.mem_cons]
  constructor
  · rintro ⟨⟨stood, first⟩, later⟩
    refine ⟨stood, ?_⟩
    rintro ⟨rfl | member, stopped⟩
    · exact first ⟨rfl, stopped⟩
    · exact later ⟨member, stopped⟩
  · rintro ⟨stood, none⟩
    refine ⟨⟨stood, ?_⟩, fun later => none ⟨.inr later.1, later.2⟩⟩
    rintro ⟨rfl, stopped⟩
    exact none ⟨.inl rfl, stopped⟩

/-- A watcher that stops goes back to the pool. -/
theorem emitLoop_stop {answers : ρ → Answer} {a : ρ} {fuel : ℕ} {remain last : Option ρ}
    (stop : answers a = .stop) :
    emitLoop answers (fuel + 1) s (some a) remain last =
      emitLoop answers fuel ((s.call a (answers a)).free a) (s.next a) remain last := by
  cases remain with
  | none => rw [emitLoop, if_pos stop]
  | some r => rw [emitLoop, if_pos stop]

/-- A watcher that stays is put in front of those that stay already. -/
theorem emitLoop_stay {answers : ρ → Answer} {a : ρ} {fuel : ℕ} {remain last : Option ρ}
    (stay : answers a ≠ .stop) :
    emitLoop answers (fuel + 1) s (some a) remain last =
      emitLoop answers fuel ((s.call a (answers a)).link a remain) (s.next a) (some a)
        (if remain = none then some a else last) := by
  cases remain with
  | none =>
      rw [emitLoop, if_neg stay]
      rfl
  | some r =>
      rw [emitLoop, if_neg stay]
      rfl

/-- The loop of `emit` turns the rest of the list around and drops the entries
whose watcher stops. -/
theorem emitLoop_spec {answers : ρ → Answer} {l r : List ρ} {fuel : ℕ}
    {p remain last : Option ρ} (chain : Segment s.next p l none)
    (kept : Segment s.next remain r none) (distinct : (l ++ r).Nodup)
    (ends : last = r.getLast?) (enough : l.length ≤ fuel) :
    ∃ s', emitLoop answers fuel s p remain last = some s' ∧
      Segment s'.next s'.top ((l.filter (answers · ≠ .stop)).reverse ++ r) none ∧
      s'.last = ((l.filter (answers · ≠ .stop)).reverse ++ r).getLast? ∧
      s'.queued = s.queued ∧ (∀ u, u ∉ l ∨ answers u ≠ .stop → s'.pool u = s.pool u) ∧
      ∀ u, u ∈ standing s'.history ↔
        u ∈ standing s.history ∧ ¬ (u ∈ l ∧ answers u = .stop) := by
  induction l generalizing s p remain last r fuel with
  | nil =>
      obtain rfl : p = none := chain
      refine ⟨{ s with top := remain, last := last }, ?_, kept, ends, rfl, fun _ _ => rfl, ?_⟩
      · rw [emitLoop]
      · intro u
        simp
  | cons a l ih =>
      obtain ⟨rfl, chain⟩ := chain
      cases fuel with
      | zero => exact nomatch enough
      | succ fuel =>
          obtain ⟨outside, distinct⟩ := List.nodup_cons.mp distinct
          have enough := Nat.le_of_succ_le_succ enough
          by_cases stop : answers a = .stop
          · obtain ⟨s', run, segment, last', queued, pool, standing'⟩ :=
              ih (s := (s.call a (answers a)).free a) chain kept distinct ends enough
            refine ⟨s', ?_, ?_, ?_, queued, fun u stays => ?_, fun u => ?_⟩
            · rw [emitLoop_stop stop]
              exact run
            · simpa [stop] using segment
            · simpa [stop] using last'
            · rw [pool u (stays.imp_left fun absent member => absent (List.mem_cons_of_mem a member))]
              refine Function.update_of_ne ?_ ..
              rintro rfl
              rcases stays with absent | other
              · exact absent List.mem_cons_self
              · exact other stop
            · rw [standing' u]
              exact mem_standing_calls
          · have apart : a ∉ l ∧ a ∉ r := by
              simpa using outside
            have chain' : Segment (Function.update s.next a remain) (s.next a) l none :=
              Segment.update chain apart.1
            have kept' : Segment (Function.update s.next a remain) (some a) (a :: r) none := by
              refine ⟨rfl, ?_⟩
              rw [Function.update_self]
              exact kept.update apart.2
            have ends' : (if remain = none then some a else last) = (a :: r).getLast? := by
              cases r with
              | nil => exact if_pos kept
              | cons b r =>
                  rw [if_neg (by rw [kept.1]; exact nofun), List.getLast?_cons_cons]
                  exact ends
            have distinct' : (l ++ a :: r).Nodup := by
              apply List.nodup_middle.mpr
              exact List.nodup_cons.mpr ⟨outside, distinct⟩
            obtain ⟨s', run, segment, last', queued, pool, standing'⟩ :=
              ih (s := (s.call a (answers a)).link a remain) chain' kept' distinct' ends' enough
            refine ⟨s', ?_, ?_, ?_, queued, fun u stays => ?_, fun u => ?_⟩
            · rw [emitLoop_stay stop]
              exact run
            · simpa [stop] using segment
            · rw [last']
              simp [stop]
            · exact pool u (stays.imp_left fun absent member =>
                absent (List.mem_cons_of_mem a member))
            · rw [standing' u]
              exact mem_standing_calls

/-- `emit` keeps the watchers that do not stop. -/
theorem Represents.emit (answers : ρ → Answer) {fuel : ℕ} (represents : s.Represents chain)
    (enough : chain.length ≤ fuel) :
    ∃ s', s.emit fuel answers = some s' ∧
      s'.Represents (chain.filter (answers · ≠ .stop)).reverse := by
  have segment : Segment { s with top := none }.next s.top chain none := represents.segment
  have distinct : (chain ++ []).Nodup := by simpa using represents.segment.nodup
  obtain ⟨s', run, segment', last, queued, pool, standing⟩ :=
    @emitLoop_spec _ _ _ answers _ [] _ _ _ _ segment rfl distinct rfl enough
  rw [List.append_nil] at segment' last
  refine ⟨s', run, segment', last, fun u member => ?_, fun u => ?_, fun u pending => ?_⟩
  · obtain ⟨member, stays⟩ : u ∈ chain ∧ answers u ≠ .stop := by simpa using member
    rw [pool u (.inr stays)]
    exact represents.pool u member
  · rw [standing u, ← represents.standing u, List.mem_reverse, List.mem_filter,
      decide_eq_true_iff]
    constructor
    · rintro ⟨member, stays⟩
      exact ⟨member, fun stopped => stays stopped.2⟩
    · rintro ⟨member, stays⟩
      exact ⟨member, fun stopped => stays ⟨member, stopped⟩⟩
  · rw [queued] at pending
    obtain ⟨unpooled, outside⟩ := represents.queued u pending
    rw [pool u (.inl outside)]
    refine ⟨unpooled, ?_⟩
    simp [outside]

/-- The state in which `emit_one` calls the first watcher: it is unlinked. -/
theorem emitOne_first {answers : ρ → Answer} {fuel : ℕ} {l : List ρ}
    (represents : s.Represents (w :: l)) :
    s.emitOne fuel answers = emitOneLoop answers fuel
      { s with top := s.next w, last := l.getLast? } w := by
  have distinct := represents.segment.nodup
  have segment := represents.segment
  have last := represents.last
  obtain ⟨next, _, _, pool, queued, history⟩ := s
  obtain ⟨rfl, segment⟩ := segment
  subst last
  cases l with
  | nil =>
      have only : next w = none := segment
      refine (if_pos rfl).trans ?_
      dsimp only
      rw [only]
      rfl
  | cons b l =>
      rw [List.getLast?_cons_cons]
      refine if_neg fun same => (List.nodup_cons.mp distinct).1 ?_
      exact List.mem_of_getLast? same.symm

/-- `emit_one` with a first watcher that stops drops it. -/
theorem Represents.emitOne_stop {answers : ρ → Answer} (fuel : ℕ) {l : List ρ}
    (represents : s.Represents (w :: l)) (stop : answers w = .stop) :
    ∃ s', s.emitOne (fuel + 1) answers = some s' ∧ s'.Represents l := by
  have outside : w ∉ l := (List.nodup_cons.mp represents.segment.nodup).1
  rw [emitOne_first represents, emitOneLoop, stop]
  refine ⟨_, rfl, represents.segment.2, rfl, fun u member => ?_, fun u => ?_,
    fun u pending => ?_⟩
  · have other : u ≠ w := by
      rintro rfl
      exact outside member
    exact (Function.update_of_ne other ..).trans
      (represents.pool u (List.mem_cons_of_mem w member))
  · have before := represents.standing u
    rw [List.mem_cons] at before
    constructor
    · intro member
      refine ⟨before.mp (.inr member), ?_⟩
      rintro rfl
      exact outside member
    · rintro ⟨stood, other⟩
      exact (before.mpr stood).resolve_left other
  · obtain ⟨unpooled, absent⟩ := represents.queued u pending
    rw [List.mem_cons, not_or] at absent
    exact ⟨(Function.update_of_ne absent.1 ..).trans unpooled, absent.2⟩

/-- A watcher that is kept becomes the first entry of an empty list. -/
theorem emitOneLoop_keep_first {answers : ρ → Answer} {fuel : ℕ} (keep : answers w = .keep)
    (last : s.last = none) :
    emitOneLoop answers (fuel + 1) s w = some { (s.call w .keep).link w none with
      top := if s.top = none then some w else s.top, last := some w } := by
  obtain ⟨next, top, _, pool, queued, history⟩ := s
  subst last
  rw [emitOneLoop, keep]
  cases top with
  | none => rfl
  | some a => rfl

/-- A watcher that is kept is linked behind the last entry. -/
theorem emitOneLoop_keep_last {answers : ρ → Answer} {fuel : ℕ} {b : ρ}
    (keep : answers w = .keep) (last : s.last = some b) :
    emitOneLoop answers (fuel + 1) s w =
      some { ((s.call w .keep).link w none).link b (some w) with last := some w } := by
  obtain ⟨next, top, _, pool, queued, history⟩ := s
  subst last
  rw [emitOneLoop, keep]
  rfl

/-- `emit_one` with a first watcher that is kept puts it last. -/
theorem Represents.emitOne_keep {answers : ρ → Answer} (fuel : ℕ) {l : List ρ}
    (represents : s.Represents (w :: l)) (keep : answers w = .keep) :
    ∃ s', s.emitOne (fuel + 1) answers = some s' ∧ s'.Represents (l ++ [w]) := by
  have outside : w ∉ l := (List.nodup_cons.mp represents.segment.nodup).1
  have members : ∀ u, u ∈ l ++ [w] ↔ u ∈ w :: l := by
    intro u
    simp [or_comm]
  rw [emitOne_first represents]
  have pool : ∀ u, u ∈ l ++ [w] → s.pool u = false := fun u member =>
    represents.pool u ((members u).mp member)
  have standing : ∀ u, u ∈ l ++ [w] ↔ u ∈ Emittable.standing (.called w .keep :: s.history) :=
    fun u => (members u).trans (represents.standing u)
  have queued : ∀ u, s.queued u = true → s.pool u = false ∧ u ∉ l ++ [w] := by
    intro u pending
    rw [members u]
    exact represents.queued u pending
  have ends : some w = (l ++ [w]).getLast? := by simp
  have rest := represents.segment.2
  rcases List.eq_nil_or_concat' l with rfl | ⟨l, b, rfl⟩
  · rw [emitOneLoop_keep_first keep rfl]
    refine ⟨_, rfl, ⟨if_pos rest, ?_⟩, ends, pool, standing, queued⟩
    exact Function.update_self ..
  · rw [emitOneLoop_keep_last (b := b) keep (by simp)]
    exact ⟨_, rfl, rest.snoc outside, ends, pool, standing, queued⟩

/-! ## The watcher that ignores an event of `emit_one` -/

/-- Both ends and all links of the cells stay among the given cells. -/
structure Within (s : Watchers ρ) (cells : List ρ) : Prop where
  top : ∀ u, s.top = some u → u ∈ cells
  last : ∀ u, s.last = some u → u ∈ cells
  next : ∀ u, u ∈ cells → ∀ v, s.next u = some v → v ∈ cells

omit [DecidableEq ρ] in
/-- A chain that starts among the cells stays there. -/
theorem Within.members {cells l : List ρ} {p : Option ρ} (within : s.Within cells)
    (start : ∀ u, p = some u → u ∈ cells) (segment : Segment s.next p l none) :
    ∀ u, u ∈ l → u ∈ cells := by
  induction l generalizing p with
  | nil => exact fun u member => nomatch member
  | cons a l ih =>
      intro u member
      have first : a ∈ cells := start a segment.1
      rcases List.mem_cons.mp member with rfl | rest
      · exact first
      · exact ih (within.next a first) segment.2 u rest

/-- Linking a cell to one of the cells or to the end. -/
theorem Within.link {cells : List ρ} {p : Option ρ} (within : s.Within cells)
    (inside : ∀ u, p = some u → u ∈ cells) : (s.link w p).Within cells := by
  refine { within with next := fun u member v next => ?_ }
  by_cases same : u = w
  · subst same
    have written : (s.link u p).next u = p := Function.update_self ..
    exact inside v (written.symm.trans next)
  · have kept : (s.link w p).next u = s.next u := Function.update_of_ne same ..
    exact within.next u member v (kept.symm.trans next)

/-- A watcher that ignores the event leaves it to the entry behind it. -/
theorem emitOneLoop_ignore {answers : ρ → Answer} {fuel : ℕ} (ignore : answers w = .ignore) :
    emitOneLoop answers (fuel + 1) s w =
      match s.next w with
      | some v => emitOneLoop answers fuel (s.call w .ignore) v
      | none => some (s.call w .ignore) := by
  rw [emitOneLoop, ignore]
  rfl

/-- From its second watcher on `emit_one` works among the cells still linked,
and calls none of the other watchers. -/
theorem emitOneLoop_within {answers : ρ → Answer} {cells : List ρ} {fuel : ℕ} {other : ρ}
    (within : s.Within cells) (member : w ∈ cells) (outside : other ∉ cells)
    (run : emitOneLoop answers fuel s w = some s') :
    s'.Within cells ∧ (other ∈ standing s'.history ↔ other ∈ standing s.history) := by
  induction fuel generalizing s w with
  | zero => exact nomatch run
  | succ fuel ih =>
      have called : other ∈ standing (s.call w (answers w)).history ↔
          other ∈ standing s.history := by
        rw [mem_standing_call]
        refine and_iff_left ?_
        rintro ⟨rfl, _⟩
        exact outside member
      have within' : (s.call w (answers w)).Within cells := ⟨within.top, within.last, within.next⟩
      cases answer : answers w with
      | stop =>
          rw [emitOneLoop, answer] at run
          cases run
          rw [answer] at called within'
          exact ⟨⟨within'.top, within'.last, within'.next⟩, called⟩
      | ignore =>
          rw [emitOneLoop_ignore answer] at run
          rw [answer] at called within'
          cases next : s.next w with
          | none =>
              rw [next] at run
              cases run
              exact ⟨within', called⟩
          | some v =>
              rw [next] at run
              obtain ⟨inside, same⟩ := ih within' (within.next w member v next) run
              exact ⟨inside, same.trans called⟩
      | keep =>
          rw [answer] at called within'
          have unlinked : ((s.call w .keep).link w none).Within cells :=
            within'.link fun _ none => (nomatch none)
          have first : ∀ u, some w = some u → u ∈ cells := fun u same =>
            Option.some.inj same ▸ member
          cases last : s.last with
          | none =>
              rw [emitOneLoop_keep_first answer last] at run
              cases run
              refine ⟨⟨fun u top => ?_, first, unlinked.next⟩, called⟩
              by_cases empty : s.top = none
              · exact first u ((if_pos empty).symm.trans top)
              · exact within.top u ((if_neg empty).symm.trans top)
          | some b =>
              rw [emitOneLoop_keep_last answer last] at run
              cases run
              have linked := unlinked.link (w := b) first
              exact ⟨⟨linked.top, first, linked.next⟩, called⟩

/-- An entry that ignores the event as the first one is on the list no more,
although nobody removed it and it did not stop. -/
theorem Represents.emitOne_ignore {answers : ρ → Answer} {fuel : ℕ} {l : List ρ}
    (represents : s.Represents (w :: l)) (ignore : answers w = .ignore)
    (run : s.emitOne fuel answers = some s') : ¬ s'.Exact := by
  have outside : w ∉ l := (List.nodup_cons.mp represents.segment.nodup).1
  have rest := represents.segment.2
  have within : (({ s with top := s.next w, last := l.getLast? } : Watchers ρ).call w
      .ignore).Within l :=
    { top := fun _ top => rest.start_mem top
      last := fun _ last => List.mem_of_getLast? last
      next := fun _ member _ next => rest.next_mem member next }
  have calls : s'.Within l ∧
      (w ∈ Emittable.standing s'.history ↔ w ∈ Emittable.standing s.history) := by
    rw [emitOne_first represents] at run
    cases fuel with
    | zero => exact nomatch run
    | succ fuel =>
        rw [emitOneLoop_ignore ignore] at run
        cases next : s.next w with
        | none =>
            simp only [next] at run
            cases run
            rw [next] at within
            exact ⟨within, Iff.rfl⟩
        | some v =>
            simp only [next] at run
            rw [next] at within
            have later := emitOneLoop_within within (rest.start_mem next) outside run
            exact later
  rintro ⟨chain, segment, -, -, standing⟩
  have stands := calls.2.mpr ((represents.standing w).mp List.mem_cons_self)
  exact outside (calls.1.members calls.1.top segment w ((standing w).mpr stands))

/-! ## Every run -/

/-- The first watcher does not ignore the event of an `emit_one`. -/
def Heeds (s : Watchers ρ) : Op ρ → Prop
  | .emitOne answers => ∀ w, s.top = some w → answers w ≠ .ignore
  | _ => True

/-- An operation that does not lose its first watcher comes to its end and
keeps the invariant. -/
theorem Represents.exec {fuel : ℕ} {op : Op ρ} (represents : s.Represents chain)
    (legal : s.Legal op) (heeds : s.Heeds op) (enough : chain.length < fuel) :
    ∃ s' chain', s.exec fuel op = some s' ∧ s'.Represents chain' ∧
      chain'.length ≤ chain.length + 1 := by
  cases op with
  | addWatcher w => exact ⟨_, chain, rfl, represents.addWatcher legal, Nat.le_succ _⟩
  | addWatchEntry w => exact ⟨_, w :: chain, rfl, represents.addWatchEntry legal, le_rfl⟩
  | removeWatchEntry w =>
      cases w with
      | none =>
          obtain ⟨s', run, represents'⟩ := represents.removeAll enough.le
          exact ⟨s', [], run, represents', Nat.zero_le _⟩
      | some w =>
          obtain ⟨s', run, represents'⟩ := represents.remove (w := w) enough.le
          refine ⟨s', _, run, represents', ?_⟩
          exact List.length_erase_le.trans (Nat.le_succ _)
  | emit answers =>
      obtain ⟨s', run, represents'⟩ := represents.emit answers enough.le
      refine ⟨s', _, run, represents', ?_⟩
      rw [List.length_reverse]
      exact (List.length_filter_le ..).trans (Nat.le_succ _)
  | emitOne answers =>
      obtain ⟨fuel, rfl⟩ := Nat.exists_eq_succ_of_ne_zero (Nat.ne_zero_of_lt enough)
      cases chain with
      | nil =>
          have empty : s.top = none := represents.segment
          refine ⟨s, [], ?_, represents, Nat.zero_le _⟩
          rw [Watchers.exec, emitOne, empty]
      | cons w l =>
          cases answer : answers w with
          | stop =>
              obtain ⟨s', run, represents'⟩ := represents.emitOne_stop fuel answer
              exact ⟨s', l, run, represents', (Nat.le_succ _).trans (Nat.le_succ _)⟩
          | keep =>
              obtain ⟨s', run, represents'⟩ := represents.emitOne_keep fuel answer
              exact ⟨s', _, run, represents', by simp⟩
          | ignore => exact absurd answer (heeds w represents.segment.1)

/-- An operation after those before it; `none` is an operation that hangs. -/
def react (fuel : ℕ) (s : Option (Watchers ρ)) (op : Op ρ) : Option (Watchers ρ) :=
  s.bind fun s => s.exec fuel op

/-- From a sound state on the list stays exact as long as no `emit_one` loses
its first watcher, and not longer. -/
theorem Represents.exact_iff {ops : List (Op ρ)} {fuel : ℕ} (represents : s.Represents chain)
    (enough : chain.length + ops.length ≤ fuel)
    (legal : Run.Along (react fuel) (fun s op => ∀ t, s = some t → t.Legal op) (some s) ops) :
    (∀ n, ∃ t, (ops.take n).foldl (react fuel) (some s) = some t ∧ t.Exact) ↔
      Run.Along (react fuel) (fun s op => ∀ t, s = some t → t.Heeds op) (some s) ops := by
  induction ops generalizing s chain with
  | nil =>
      refine iff_of_true (fun n => ⟨s, ?_, represents.exact⟩) trivial
      rw [List.take_nil]
      rfl
  | cons op ops ih =>
      rw [List.length_cons] at enough
      by_cases heeds : s.Heeds op
      · have shorter : chain.length < fuel := by omega
        obtain ⟨s', chain', run, represents', length⟩ :=
          represents.exec (legal.1 s rfl) heeds shorter
        have next : react fuel (some s) op = some s' := run
        have later := ih represents' (by omega) (next ▸ legal.2)
        constructor
        · intro exact
          refine ⟨fun t same => Option.some.inj same ▸ heeds, ?_⟩
          rw [next]
          refine later.mp fun n => ?_
          obtain ⟨t, reached, exact⟩ := exact (n + 1)
          exact ⟨t, next ▸ reached, exact⟩
        · rintro ⟨-, along⟩ n
          cases n with
          | zero => exact ⟨s, rfl, represents.exact⟩
          | succ n =>
              rw [List.take_succ_cons, List.foldl_cons, next]
              exact later.mpr (next ▸ along) n
      · refine iff_of_false (fun always => ?_) fun along => heeds (along.1 s rfl)
        obtain ⟨t, run, exact⟩ := always 1
        cases op with
        | emitOne answers =>
            simp only [Heeds, not_forall, not_not] at heeds
            obtain ⟨w, top, ignore⟩ := heeds
            cases chain with
            | nil => exact nomatch top.symm.trans represents.segment
            | cons a l =>
                obtain rfl : w = a := Option.some.inj (top.symm.trans represents.segment.1)
                exact represents.emitOne_ignore ignore run exact
        | _ => exact heeds trivial

/-- In every run of the operations the list is exact in all states reached if
and only if no `emit_one` meets a first watcher that ignores its event. -/
theorem exact_of_heeds {ops : List (Op ρ)} {fuel : ℕ} (enough : ops.length ≤ fuel)
    (legal : Run.Along (react fuel) (fun s op => ∀ t, s = some t → t.Legal op)
      (some init) ops) :
    (∀ n, ∃ t, (ops.take n).foldl (react fuel) (some init) = some t ∧ t.Exact) ↔
      Run.Along (react fuel) (fun s op => ∀ t, s = some t → t.Heeds op) (some init) ops :=
  init_represents.exact_iff (by simpa using enough) legal

/-- Two watchers; the first is kept and goes behind the second, which stops. -/
theorem exact_of_heeds_two :
    Run.Along (react 6) (fun s op => ∀ t, s = some t → t.Legal op) (some (init : Watchers ℕ))
        [.addWatcher 0, .addWatchEntry 0, .addWatcher 1, .addWatchEntry 1,
          .emitOne fun _ => .keep, .emit fun w => if w = 0 then .stop else .keep] ∧
      ((∀ n, ∃ t, (List.take n [.addWatcher 0, .addWatchEntry 0, .addWatcher 1,
          .addWatchEntry 1, .emitOne fun _ => .keep,
          .emit fun w => if w = 0 then .stop else .keep]).foldl (react 6)
            (some (init : Watchers ℕ)) = some t ∧ t.Exact) ↔
        Run.Along (react 6) (fun s op => ∀ t, s = some t → t.Heeds op)
          (some (init : Watchers ℕ))
          [.addWatcher 0, .addWatchEntry 0, .addWatcher 1, .addWatchEntry 1,
            .emitOne fun _ => .keep, .emit fun w => if w = 0 then .stop else .keep]) := by
  have legal : Run.Along (react 6) (fun s op => ∀ t, s = some t → t.Legal op)
      (some (init : Watchers ℕ)) [.addWatcher 0, .addWatchEntry 0, .addWatcher 1,
        .addWatchEntry 1, .emitOne fun _ => .keep,
        .emit fun w => if w = 0 then .stop else .keep] := by
    refine ⟨?_, ?_, ?_, ?_, ?_, ?_, trivial⟩
    all_goals
      intro t reached
      cases reached
      first | rfl | trivial
  exact ⟨legal, exact_of_heeds le_rfl legal⟩

/-- The first watcher ignores the event and the second one stops: the second
entry is back in the pool and still the first of the list. -/
theorem ignored_dangles :
    Run.Along (react 5) (fun s op => ∀ t, s = some t → t.Legal op) (some (init : Watchers ℕ))
        [.addWatcher 0, .addWatchEntry 0, .addWatcher 1, .addWatchEntry 1,
          .emitOne fun w => if w = 1 then .ignore else .stop] ∧
      ∃ t, List.foldl (react 5) (some (init : Watchers ℕ))
          [.addWatcher 0, .addWatchEntry 0, .addWatcher 1, .addWatchEntry 1,
            .emitOne fun w => if w = 1 then .ignore else .stop] = some t ∧
        t.top = some 0 ∧ t.pool 0 = true ∧ ¬ t.Exact := by
  refine ⟨⟨?_, ?_, ?_, ?_, ?_, trivial⟩, _, rfl, rfl, rfl, ?_⟩
  any_goals
    intro t reached
    cases reached
    first | rfl | trivial
  rintro ⟨chain, segment, -, pool, -⟩
  exact nomatch pool 0 (segment.start_mem rfl)

end Watchers

end Cyue.Emittable
