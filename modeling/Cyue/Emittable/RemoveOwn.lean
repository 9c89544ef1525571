import Cyue.Emittable.Commands
import Mathlib.Data.List.Perm.Subperm

/-!
# What a remove command removes

The command carries the address of an entry.  When it comes to its turn the entry
may have been freed by a `STOP` and taken again.  A remove command still removes
its own watcher or nothing, as long as `remove_watcher` is not called with an
entry that already belongs to another call on the same emittable.
-/

namespace Cyue.Emittable.Emitters

open Cyue.Chain

variable {ε ρ : Type*} [DecidableEq ε] [DecidableEq ρ]
variable {s s' : Emitters ε ρ} {m : ε} {w : ρ}

/-- The entries of an emittable that its commands are going to add. -/
def waiting (s : Emitters ε ρ) (m : ε) : List ρ := (s.commands m).filterMap Command.added

/-- Every entry that is linked or waiting belongs to the call that it was taken for last,
and a remove command for another call finds nothing. -/
structure Inv (s : Emitters ε ρ) (cells : ε → List ρ) : Prop where
  holds : ∀ m, s.Holds m (cells m)
  distinct : ∀ m, (cells m ++ s.waiting m).Nodup
  used : ∀ m w, w ∈ cells m ++ s.waiting m → s.pool w = false ∧ ∃ n, s.user w = some (m, n)
  pending : ∀ m front w call back, s.commands m = front ++ .removeWatcher w call :: back →
    ∀ n, s.user w = some (m, n) → n ≠ call → w ∉ cells m ++ front.filterMap Command.added
  user : ∀ m w n, s.user w = some (m, n) → n < s.calls ∧ s.got n = some (m, w)

omit [DecidableEq ε] [DecidableEq ρ] in
theorem init_inv : (init : Emitters ε ρ).Inv fun _ => [] where
  holds := fun _ => ⟨rfl, rfl⟩
  distinct := fun _ => List.nodup_nil
  used := fun _ _ member => nomatch member
  pending := fun _ front _ _ _ split => (List.append_ne_nil_of_right_ne_nil front
    (List.cons_ne_nil _ _) split.symm).elim
  user := fun _ _ _ mine => nomatch mine

variable {all : ε → List ρ}

omit [DecidableEq ε] [DecidableEq ρ] in
/-- A list has no more entries than `add_watcher` was called. -/
theorem Inv.enough (inv : s.Inv all) (m : ε) : (all m).length ≤ s.calls := by
  have taken : all m ⊆ (List.range s.calls).filterMap fun n => (s.got n).map Prod.snd := by
    intro w member
    obtain ⟨n, mine⟩ := (inv.used m w (List.mem_append_left _ member)).2
    obtain ⟨below, got⟩ := inv.user m w n mine
    refine List.mem_filterMap.mpr ⟨n, List.mem_range.mpr below, ?_⟩
    rw [got]
    rfl
  calc (all m).length
      ≤ ((List.range s.calls).filterMap fun n => (s.got n).map Prod.snd).length :=
        ((List.nodup_append.mp (inv.distinct m)).1.subperm taken).length_le
    _ ≤ (List.range s.calls).length := List.length_filterMap_le ..
    _ = s.calls := List.length_range

omit [DecidableEq ε] [DecidableEq ρ] in
/-- An entry belongs to one emittable. -/
theorem Inv.apart (inv : s.Inv all) {m m' : ε} (member : w ∈ all m ++ s.waiting m)
    (member' : w ∈ all m' ++ s.waiting m') : m = m' := by
  obtain ⟨n, mine⟩ := (inv.used m w member).2
  obtain ⟨n', mine'⟩ := (inv.used m' w member').2
  exact congrArg Prod.fst (Option.some.inj (mine.symm.trans mine'))

omit [DecidableEq ρ] in
/-- A step that takes no entry in keeps the invariant. -/
theorem Inv.shrink {cells' : List ρ} (inv : s.Inv all) (shrinks : Shrinks s s' m (all m) cells') :
    s'.Inv (Function.update all m cells') := by
  obtain ⟨own, holds, sub, pool⟩ := shrinks
  have waiting : s'.waiting = s.waiting := by
    funext m'
    rw [Emitters.waiting, own.commands]
    rfl
  have kept : ∀ m' u, u ∈ Function.update all m cells' m' → u ∈ all m' := by
    intro m' u member
    by_cases same : m' = m
    · subst same
      rw [Function.update_self] at member
      exact sub.subset member
    · rwa [Function.update_of_ne same] at member
  have kept' : ∀ m' (l : List ρ) u, u ∈ Function.update all m cells' m' ++ l → u ∈ all m' ++ l := by
    intro m' l u member
    rw [List.mem_append] at member ⊢
    exact member.imp_left (kept m' u)
  constructor
  · intro m'
    by_cases same : m' = m
    · subst same
      rw [Function.update_self]
      exact holds
    · rw [Function.update_of_ne same]
      refine (inv.holds m').congr (own.job m' same) (own.top m' same) (own.last m' same) ?_
      intro u member
      apply own.next
      intro here
      exact same (inv.apart (List.mem_append_left _ member) (List.mem_append_left _ here))
  · intro m'
    rw [waiting]
    by_cases same : m' = m
    · subst same
      rw [Function.update_self]
      obtain ⟨l, perm, sublist⟩ := (List.subperm_append_right (s.waiting m')).mpr sub
      exact perm.nodup_iff.mp (sublist.nodup (inv.distinct m'))
    · rw [Function.update_of_ne same]
      exact inv.distinct m'
  · intro m' u member
    rw [waiting] at member
    obtain ⟨used, n, mine⟩ := inv.used m' u (kept' m' _ u member)
    refine ⟨?_, n, ?_⟩
    · rw [pool u ?_]
      · exact used
      · by_cases same : m' = m
        · subst same
          rw [Function.update_self] at member
          rcases List.mem_append.mp member with linked | queued
          · exact .inr linked
          · refine .inl fun linked => ?_
            exact (List.nodup_append.mp (inv.distinct m')).2.2 u linked u queued rfl
        · refine .inl fun linked => same ?_
          exact inv.apart (kept' m' _ u member) (List.mem_append_left _ linked)
    · rw [own.user]
      exact mine
  · intro m' front u call back split n mine other member
    rw [own.commands] at split
    rw [own.user] at mine
    exact inv.pending m' front u call back split n mine other (kept' m' _ u member)
  · intro m' u n mine
    rw [own.user] at mine
    rw [own.calls, own.got]
    exact inv.user m' u n mine

omit [DecidableEq ρ] in
theorem commands_addCommand (s : Emitters ε ρ) (m : ε) (c : Command ρ) :
    (s.addCommand m c).commands m = s.commands m ++ [c] := Function.update_self ..

omit [DecidableEq ρ] in
theorem waiting_addCommand (s : Emitters ε ρ) (m m' : ε) (c : Command ρ) :
    (s.addCommand m c).waiting m' = s.waiting m' ++ if m' = m then [c].filterMap Command.added else [] := by
  by_cases same : m' = m
  · subst same
    rw [if_pos rfl, waiting, waiting, ← List.filterMap_append]
    exact congrArg _ (commands_addCommand s m' c)
  · rw [if_neg same, List.append_nil]
    exact congrArg _ (Function.update_of_ne same ..)

omit [DecidableEq ε] [DecidableEq ρ] in
/-- A command is the last one or was in the queue already. -/
theorem split_concat {l front back : List (Command ρ)} {c r : Command ρ}
    (split : l ++ [c] = front ++ r :: back) :
    (front = l ∧ r = c) ∨ ∃ back', l = front ++ r :: back' := by
  rcases List.eq_nil_or_concat' back with rfl | ⟨back, d, rfl⟩
  · obtain ⟨rfl, same⟩ := List.append_inj' split rfl
    exact .inl ⟨rfl, (List.cons.inj same).1.symm⟩
  · have longer : l ++ [c] = (front ++ r :: back) ++ [d] := by simpa using split
    exact .inr ⟨back, (List.append_inj' longer rfl).1⟩

omit [DecidableEq ρ] in
/-- A call that queues no entry; one that removes an entry names the call that it was
taken for. -/
theorem Inv.addCommand {c : Command ρ} (inv : s.Inv all) (plain : c.added = none)
    (heeds : ∀ w call, c = .removeWatcher w call → s.pool w = false →
      ∀ n, s.user w = some (m, n) → n = call) : (s.addCommand m c).Inv all := by
  have waiting : (s.addCommand m c).waiting = s.waiting := by
    funext m'
    rw [waiting_addCommand, List.filterMap_cons_none plain, List.filterMap_nil, ite_self,
      List.append_nil]
  constructor
  · intro m'
    exact (inv.holds m').congr rfl rfl rfl fun _ _ => rfl
  · rw [waiting]
    exact inv.distinct
  · rw [waiting]
    exact inv.used
  · intro m' front w call back split n mine other
    by_cases same : m' = m
    · subst same
      rw [commands_addCommand] at split
      rcases split_concat split with ⟨rfl, rfl⟩ | ⟨back', before⟩
      · intro member
        exact other (heeds w call rfl (inv.used m' w member).1 n mine)
      · exact inv.pending m' front w call back' before n mine other
    · have split' : s.commands m' = front ++ .removeWatcher w call :: back :=
        (Function.update_of_ne same ..).symm.trans split
      exact inv.pending m' front w call back split' n mine other
  · exact inv.user

/-- The pool gives an entry that nobody has. -/
theorem Inv.addWatcher (inv : s.Inv all) (pooled : s.pool w = true) :
    ((s.take m w).addCommand m (.addWatcher w)).Inv all := by
  have fresh : ∀ m', w ∉ all m' ++ s.waiting m' := by
    intro m' member
    exact Bool.false_ne_true ((inv.used m' w member).1.symm.trans pooled)
  have waiting : ∀ m', ((s.take m w).addCommand m (.addWatcher w)).waiting m' =
      s.waiting m' ++ if m' = m then [w] else [] := fun m' => waiting_addCommand ..
  constructor
  · intro m'
    exact (inv.holds m').congr rfl rfl rfl fun _ _ => rfl
  · intro m'
    rw [waiting]
    by_cases same : m' = m
    · rw [if_pos same, ← List.append_assoc]
      rw [← List.concat_eq_append]
      exact (inv.distinct m').concat (fresh m')
    · rw [if_neg same, List.append_nil]
      exact inv.distinct m'
  · intro m' u member
    by_cases this : u = w
    · subst this
      have here : m' = m := by
        by_contra other
        rw [waiting, if_neg other, List.append_nil] at member
        exact fresh m' member
      subst here
      exact ⟨Function.update_self .., s.calls, Function.update_self ..⟩
    · have old : u ∈ all m' ++ s.waiting m' := by
        rw [waiting, ← List.append_assoc] at member
        refine (List.mem_append.mp member).resolve_right fun new => this ?_
        split at new
        · exact List.mem_singleton.mp new
        · exact nomatch new
      obtain ⟨used, n, mine⟩ := inv.used m' u old
      exact ⟨(Function.update_of_ne this ..).trans used, n, (Function.update_of_ne this ..).trans mine⟩
  · intro m' front u call back split n mine other
    have before : ∃ back', s.commands m' = front ++ .removeWatcher u call :: back' := by
      by_cases same : m' = m
      · subst same
        rw [commands_addCommand] at split
        exact (split_concat split).resolve_left fun last => nomatch last.2
      · exact ⟨back, (Function.update_of_ne same ..).symm.trans split⟩
    obtain ⟨back', before⟩ := before
    by_cases this : u = w
    · subst this
      intro member
      apply fresh m'
      rw [Emitters.waiting, before, List.filterMap_append, ← List.append_assoc]
      exact List.mem_append_left _ member
    · exact inv.pending m' front u call back' before n
        ((Function.update_of_ne this ..).symm.trans mine) other
  · intro m' u n mine
    by_cases this : u = w
    · subst this
      obtain ⟨rfl, rfl⟩ : m = m' ∧ s.calls = n := by
        have same := (Function.update_self ..).symm.trans mine
        exact Prod.mk.inj (Option.some.inj same)
      exact ⟨Nat.lt_succ_self _, Function.update_self ..⟩
    · obtain ⟨below, got⟩ := inv.user m' u n ((Function.update_of_ne this ..).symm.trans mine)
      exact ⟨Nat.lt_succ_of_lt below, (Function.update_of_ne (ne_of_lt below) ..).trans got⟩

omit [DecidableEq ρ] in
theorem commands_pop (s : Emitters ε ρ) (m : ε) (rest : List (Command ρ)) :
    (s.pop m rest).commands m = rest := Function.update_self ..

omit [DecidableEq ρ] in
theorem waiting_pop {c : Command ρ} {rest : List (Command ρ)} (next : s.commands m = c :: rest)
    (m' : ε) : s.waiting m' =
      (if m' = m then [c].filterMap Command.added else []) ++ (s.pop m rest).waiting m' := by
  by_cases same : m' = m
  · subst same
    rw [if_pos rfl, waiting, waiting, next, commands_pop, ← List.filterMap_append]
    rfl
  · rw [if_neg same]
    exact congrArg _ (Function.update_of_ne same ..).symm

omit [DecidableEq ρ] in
theorem commands_of_pop {c r : Command ρ} {rest front back : List (Command ρ)} {m' : ε}
    (next : s.commands m = c :: rest) (split : (s.pop m rest).commands m' = front ++ r :: back) :
    s.commands m' = (if m' = m then [c] else []) ++ front ++ r :: back := by
  by_cases same : m' = m
  · subst same
    rw [commands_pop] at split
    rw [if_pos rfl, next, split]
    rfl
  · rw [if_neg same]
    exact (Function.update_of_ne same ..).symm.trans split

omit [DecidableEq ρ] in
/-- A command that adds no entry leaves the queue. -/
theorem Inv.pop {c : Command ρ} {rest : List (Command ρ)} (inv : s.Inv all)
    (next : s.commands m = c :: rest) (plain : c.added = none) : (s.pop m rest).Inv all := by
  have waiting : (s.pop m rest).waiting = s.waiting := by
    funext m'
    rw [waiting_pop next m', List.filterMap_cons_none plain, List.filterMap_nil, ite_self,
      List.nil_append]
  constructor
  · intro m'
    exact (inv.holds m').congr rfl rfl rfl fun _ _ => rfl
  · rw [waiting]
    exact inv.distinct
  · rw [waiting]
    exact inv.used
  · intro m' front w call back split n mine other member
    refine inv.pending m' _ w call back (commands_of_pop next split) n mine other ?_
    rw [List.filterMap_append]
    refine (List.mem_append.mp member).elim (List.mem_append_left _) fun queued => ?_
    exact List.mem_append_right _ (List.mem_append_right _ queued)
  · exact inv.user

/-- A waiting entry is linked. -/
theorem Inv.addWatchEntry {rest : List (Command ρ)} (inv : s.Inv all) (idle : s.job m = .idle)
    (next : s.commands m = .addWatcher w :: rest) :
    ((s.pop m rest).addWatchEntry m w).Inv (Function.update all m (w :: all m)) := by
  have holds := inv.holds m
  rw [Holds, idle] at holds
  have here : s.waiting m = w :: (s.pop m rest).waiting m := by
    rw [waiting_pop next m, if_pos rfl]
    rfl
  have outside : w ∉ all m := by
    intro member
    refine (List.nodup_append.mp (inv.distinct m)).2.2 w member w ?_ rfl
    rw [here]
    exact List.mem_cons_self
  have segment : Segment ((s.pop m rest).list m).next ((s.pop m rest).list m).top (all m) none :=
    holds.1
  obtain ⟨last, result, linked, ends⟩ := Watchers.addWatchEntry_spec segment holds.2 outside
  have members : ∀ m' u, u ∈ Function.update all m (w :: all m) m' ++ (s.pop m rest).waiting m' ↔
      u ∈ all m' ++ s.waiting m' := by
    intro m' u
    by_cases same : m' = m
    · subst same
      rw [Function.update_self, here]
      exact List.perm_middle.mem_iff.symm
    · rw [Function.update_of_ne same, waiting_pop next m', if_neg same]
      rfl
  have result' : (s.pop m rest).addWatchEntry m w = (s.pop m rest).put m
      { (s.pop m rest).list m with
        next := Function.update s.next w (s.top m), top := some w, last := last,
        queued := Function.update (fun _ => false) w false, history := [.added w] } :=
    congrArg ((s.pop m rest).put m) result
  rw [result']
  constructor
  · intro m'
    by_cases same : m' = m
    · subst same
      rw [Function.update_self]
      refine holds_idle idle ?_ ((Function.update_self ..).trans ends)
      change Segment (Function.update s.next w (s.top m')) (Function.update s.top m' (some w) m')
        (w :: all m') none
      rw [Function.update_self]
      exact linked
    · rw [Function.update_of_ne same]
      refine (inv.holds m').congr rfl (Function.update_of_ne same ..) (Function.update_of_ne same ..) ?_
      intro u member
      refine Function.update_of_ne ?_ ..
      rintro rfl
      refine same (inv.apart (List.mem_append_left _ member) (List.mem_append_right _ ?_))
      rw [here]
      exact List.mem_cons_self
  · intro m'
    by_cases same : m' = m
    · subst same
      have distinct := inv.distinct m'
      rw [here] at distinct
      rw [Function.update_self]
      exact List.perm_middle.nodup_iff.mp distinct
    · have distinct := inv.distinct m'
      rw [waiting_pop next m', if_neg same] at distinct
      rw [Function.update_of_ne same]
      exact distinct
  · intro m' u member
    exact inv.used m' u ((members m' u).mp member)
  · intro m' front u call back split n mine other member
    refine inv.pending m' _ u call back (commands_of_pop next split) n mine other ?_
    by_cases same : m' = m
    · subst same
      rw [Function.update_self] at member
      rw [if_pos rfl]
      exact List.perm_middle.symm.subset member
    · rw [Function.update_of_ne same] at member
      rw [if_neg same]
      exact member
  · exact inv.user

/-- Processing a command keeps the invariant. -/
theorem Inv.process (inv : s.Inv all) (m : ε) : ∃ all', (s.process m).Inv all' := by
  cases here : s.job m with
  | emitting pw w remain last =>
      rw [Emitters.process, here]
      exact ⟨all, inv⟩
  | emittingOne w =>
      rw [Emitters.process, here]
      exact ⟨all, inv⟩
  | idle =>
      cases next : s.commands m with
      | nil =>
          rw [Emitters.process, here, next]
          exact ⟨all, inv⟩
      | cons c rest =>
          rw [Emitters.process, here, next]
          cases c with
          | addWatcher w => exact ⟨_, inv.addWatchEntry here next⟩
          | removeWatcher w call =>
              have popped := inv.pop next rfl
              have distinct := (List.nodup_append.mp (popped.distinct m)).1
              exact ⟨_, popped.shrink
                (shrinks_removeWatchEntry (popped.holds m) here distinct (popped.enough m)).1⟩
          | removeAll =>
              have popped := inv.pop next rfl
              exact ⟨_, popped.shrink (shrinks_removeAll (popped.holds m) here (popped.enough m))⟩
          | emit =>
              have popped := inv.pop next rfl
              exact ⟨_, popped.shrink (shrinks_emit (popped.holds m) here)⟩
          | emitOne =>
              have popped := inv.pop next rfl
              exact ⟨_, popped.shrink (shrinks_emitOneStart (popped.holds m) here)⟩

/-- What happens keeps the invariant. -/
theorem Inv.step (inv : s.Inv all) (a : Act ε ρ) (allowed : s.Allowed a) (heeds : s.Heeds a) :
    ∃ all', (s.step a).Inv all' := by
  cases a with
  | addWatcher m w => exact ⟨all, inv.addWatcher allowed⟩
  | removeWatcher m w call =>
      refine ⟨all, inv.addCommand rfl ?_⟩
      rintro w call ⟨rfl, rfl⟩
      exact heeds
  | removeAllWatcher m => exact ⟨all, inv.addCommand rfl fun _ _ same => nomatch same⟩
  | emit m => exact ⟨all, inv.addCommand rfl fun _ _ same => nomatch same⟩
  | emitOne m => exact ⟨all, inv.addCommand rfl fun _ _ same => nomatch same⟩
  | process m => exact inv.process m
  | answer m a =>
      have distinct := (List.nodup_append.mp (inv.distinct m)).1
      cases here : s.job m with
      | idle =>
          rw [Emitters.step, here]
          exact ⟨all, inv⟩
      | emitting pw w remain last =>
          rw [Emitters.step, here]
          obtain ⟨cells', shrinks⟩ := shrinks_emitAnswer (inv.holds m) here distinct a
          exact ⟨_, inv.shrink shrinks⟩
      | emittingOne w =>
          rw [Emitters.step, here]
          have heard : a ≠ .ignore := fun ignored => heeds ignored w here
          obtain ⟨cells', shrinks⟩ := shrinks_emitOneAnswer (inv.holds m) here distinct heard
          exact ⟨_, inv.shrink shrinks⟩

/-- A remove command finds its own entry or nothing. -/
theorem Inv.removesOwn {call : ℕ} {rest : List (Command ρ)} (inv : s.Inv all)
    (idle : s.job m = .idle) (next : s.commands m = .removeWatcher w call :: rest) :
    s.RemovesOwn m w call := by
  have popped := inv.pop next rfl
  have distinct := (List.nodup_append.mp (popped.distinct m)).1
  obtain ⟨shrinks, pool⟩ :=
    shrinks_removeWatchEntry (w := w) (popped.holds m) idle distinct (popped.enough m)
  have result : s.process m = (s.pop m rest).removeWatchEntry m (some w) := by
    rw [Emitters.process, idle, next]
    rfl
  have mine : w ∈ all m → s.user w = some (m, call) := by
    intro member
    obtain ⟨n, mine⟩ := (inv.used m w (List.mem_append_left _ member)).2
    by_cases same : n = call
    · rw [mine, same]
    · exact (inv.pending m [] w call rest next n mine same (List.mem_append_left _ member)).elim
  refine ⟨all, inv.holds, ?_, mine, fun u used freed => ?_⟩
  · rw [result]
    exact (popped.shrink shrinks).holds
  · have here : u ∈ all m ∧ u = w := by
      by_contra outside
      have same := pool u (not_and_or.mp outside)
      rw [result] at freed
      exact Bool.false_ne_true (used.symm.trans (same.symm.trans freed))
    obtain ⟨member, rfl⟩ := here
    exact mine member

open Run in
/-- In every run, each remove command that comes to its turn removes the watcher of its own
call or nothing. -/
theorem removes_own {acts : List (Act ε ρ)} (allowed : Along step Allowed init acts)
    (heeds : Along step Heeds init acts) {call : ℕ} {rest : List (Command ρ)}
    (idle : (acts.foldl step init).job m = .idle)
    (next : (acts.foldl step init).commands m = .removeWatcher w call :: rest) :
    (acts.foldl step init).RemovesOwn m w call := by
  obtain ⟨all, inv⟩ := holds_after (fun s : Emitters ε ρ => ∃ all, s.Inv all) _ ⟨_, init_inv⟩
    (fun s a inv ok => inv.elim fun _ inv => inv.step a ok.1 ok.2) (allowed.and heeds)
  exact inv.removesOwn idle next

/-- Two watchers on two emittables; the first one is about to be removed. -/
def removal : List (Act ℕ ℕ) :=
  [.addWatcher 0 0, .addWatcher 1 1, .process 0, .emit 0, .process 0, .removeWatcher 0 0 0,
    .answer 0 .stop, .addWatcher 1 0]

theorem removes_own_two : (removal.foldl step init).RemovesOwn 0 0 0 := by
  have allowed : Run.Along step Allowed init removal :=
    ⟨rfl, rfl, trivial, trivial, trivial, rfl, trivial, rfl, trivial⟩
  have heeds : Run.Along step Heeds init removal :=
    ⟨trivial, trivial, trivial, trivial, trivial,
      fun _ _ mine => (Prod.mk.inj (Option.some.inj mine)).2.symm, (fun ignored => nomatch ignored),
      trivial, trivial⟩
  exact removes_own allowed heeds rfl rfl

/-- The watcher answered `STOP`, the entry was taken by the next `add_watcher`, and
`remove_watcher` is called for the first one. -/
def stale : List (Act ℕ ℕ) :=
  [.addWatcher 0 0, .process 0, .emit 0, .process 0, .answer 0 .stop, .addWatcher 0 0,
    .removeWatcher 0 0 0, .process 0]

/-- The watcher of the second call is removed by the command of the first one. -/
theorem stale_removes_other : Run.Along step Allowed init stale ∧
    (stale.foldl step init).job 0 = .idle ∧
    (stale.foldl step init).commands 0 = [.removeWatcher 0 0] ∧
    ¬ (stale.foldl step init).RemovesOwn 0 0 0 := by
  refine ⟨⟨rfl, trivial, trivial, trivial, trivial, rfl, rfl, trivial, trivial⟩, rfl, rfl, ?_⟩
  rintro ⟨cells, -, -, -, freed⟩
  have same : some (0, 1) = some (0, 0) := freed 0 rfl rfl
  exact absurd same (by decide)

end Cyue.Emittable.Emitters
