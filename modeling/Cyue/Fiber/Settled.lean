import Cyue.Fiber.Exchange
import Mathlib.Data.List.Perm.Basic

/-!
# How often, and whether, a call is answered

Step by step, in large steps: without duplicates on the way a call starts at most one fiber
and gets at most one response.  Without losses, duplicates or not, it is never forgotten: its
request or its response is on the way, the fiber that was started for it is live, or its
caller has been resumed or is about to be.
-/

namespace Cyue.Fibers

namespace Exchange

variable {w : Exchange} {node : ℕ} {event : Event}

/-! ## At most once -/

def Single : Act → Prop
  | .duplicate _ => False
  | _ => True

instance : DecidablePred Single := fun act => by
  unfold Single
  split <;> infer_instance

/-- The requests on the way and the fibers that were started for requests come from calls, each
from one of its own. -/
def Rationed (w : Exchange) : Prop :=
  ∀ src msgid dst, w.wire.count ⟨src, dst, .request msgid⟩ +
    (w.nodes dst).started.count (.peer src, msgid) ≤ w.callsTo src msgid dst

/-- The fibers that an event starts for a request. -/
def begun (event : Event) (src msgid : ℕ) : ℕ :=
  match event with
  | .recv _ endp message _ => if endp = .peer src ∧ message = .request msgid then 1 else 0
  | _ => 0

/-- An event starts one fiber at most. -/
theorem start_count (s : Atomic) (t : ℕ) (endp : Endpoint) (msgid : ℕ) (got : Option ℕ)
    (origin : Endpoint × ℕ) : (s.start t endp msgid got).started.count origin ≤
      s.started.count origin + if (endp, msgid) = origin then 1 else 0 := by
  unfold Fabric.start
  split
  · exact Nat.le_add_right _ _
  · split
    · exact Nat.le_add_right _ _
    · change (s.started ++ [(endp, msgid)]).count origin ≤ _
      rw [List.count_append, List.count_singleton]
      simp only [beq_iff_eq, le_refl]

theorem step_count (good : (w.nodes node).Good) (event : Event) (src msgid : ℕ) :
    ((w.nodes node).step event).started.count (.peer src, msgid) ≤
      (w.nodes node).started.count (.peer src, msgid) + begun event src msgid := by
  obtain ⟨⟨more, started, begins⟩, -, -, -⟩ := good.adds event
  have none : (∀ origin ∈ more, origin ≠ (.peer src, msgid)) →
      ((w.nodes node).step event).started.count (.peer src, msgid) ≤
        (w.nodes node).started.count (.peer src, msgid) + begun event src msgid := by
    intro others
    rw [started, List.count_append, List.count_eq_zero.mpr fun member => others _ member rfl]
    exact Nat.le_add_right _ _
  cases event with
  | recv t endp message got =>
      cases message with
      | request msgid' =>
          refine (start_count _ t endp msgid' got _).trans_eq ?_
          simp only [begun, Prod.mk.injEq, Message.request.injEq]
      | response msgid' =>
          refine none fun origin member _ => ?_
          cases begins origin member
      | other =>
          refine none fun origin member _ => ?_
          cases begins origin member
  | spawn t got =>
      refine none fun origin member same => ?_
      cases begins origin member
      cases same
  | _ =>
      refine none fun origin member _ => ?_
      cases begins origin member

/-- The packets that an event sends are no requests. -/
theorem advance_count (w : Exchange) (node : ℕ) (event : Event) (src msgid dst : ℕ) :
    (w.advance node event).wire.count ⟨src, dst, .request msgid⟩ =
      w.wire.count ⟨src, dst, .request msgid⟩ := by
  have new : (⟨src, dst, .request msgid⟩ : Packet) ∉
      ((((w.nodes node).step event).sent.drop (w.nodes node).sent.length).filterMap
        (Sent.packet node)) := by
    intro member
    obtain ⟨m, -, packet⟩ := List.mem_filterMap.mp member
    unfold Sent.packet at packet
    split at packet <;> cases packet
  exact List.count_append.trans (by rw [List.count_eq_zero.mpr new, Nat.add_zero])

theorem advance_rationed (good : (w.nodes node).Good) {event : Event}
    (rationed : ∀ src msgid dst, w.wire.count ⟨src, dst, .request msgid⟩ +
      (w.nodes dst).started.count (.peer src, msgid) +
        (if dst = node then begun event src msgid else 0) ≤ w.callsTo src msgid dst) :
    (w.advance node event).Rationed := by
  intro src msgid dst
  have before := rationed src msgid dst
  rw [advance_count]
  have calls : (w.advance node event).callsTo src msgid dst = w.callsTo src msgid dst := rfl
  by_cases same : dst = node
  · subst same
    have more := step_count good event src msgid
    rw [if_pos rfl] at before
    rw [advance_self, calls]
    omega
  · rw [if_neg same] at before
    rw [advance_other w event same, calls]
    exact before

theorem begun_inner (inner : event.inner = true) (src msgid : ℕ) : begun event src msgid = 0 := by
  cases event with
  | recv => cases inner
  | _ => rfl

theorem Rationed.advance (good : (w.nodes node).Good) (rationed : w.Rationed)
    (inner : event.inner = true) : (w.advance node event).Rationed := by
  refine advance_rationed good fun src msgid dst => ?_
  rw [begun_inner inner, ite_self]
  exact rationed src msgid dst

/-- The packet that arrives is one less on the way. -/
theorem count_eraseIdx {wire : List Packet} {i : ℕ} {p : Packet} (there : wire[i]? = some p)
    (q : Packet) : (wire.eraseIdx i).count q + (if p = q then 1 else 0) = wire.count q := by
  obtain ⟨inside, rfl⟩ := List.getElem?_eq_some_iff.mp there
  have perm := (List.getElem_cons_eraseIdx_perm inside).count_eq q
  rw [List.count_cons] at perm
  simpa using perm

/-- A request leaves for a call that is put on record. -/
theorem Rationed.request (rationed : w.Rationed) (c : Call) : Exchange.Rationed (w.request c) := by
  intro src msgid dst
  have before := rationed src msgid dst
  have both : ((⟨c.node, c.dst, .request c.msgid⟩ : Packet) == ⟨src, dst, .request msgid⟩) =
      decide (c.node = src ∧ c.msgid = msgid ∧ c.dst = dst) := by
    rw [Bool.eq_iff_iff, beq_iff_eq, decide_eq_true_eq]
    constructor
    · intro same
      cases same
      exact ⟨rfl, rfl, rfl⟩
    · rintro ⟨rfl, rfl, rfl⟩
      rfl
  unfold Nodes.callsTo at before ⊢
  dsimp only [Nodes.request] at before ⊢
  rw [List.count_append, List.countP_append, List.count_singleton, List.countP_singleton, both]
  omega

/-- A request that arrives starts one fiber at most. -/
theorem Rationed.arrives (agrees : w.Agrees) (rationed : w.Rationed) {i : ℕ} {p : Packet}
    (arrived : w.wire[i]? = some p) (t : ℕ) (got : Option ℕ) :
    Rationed (Exchange.advance (w.lose i) p.dst (.recv t (.peer p.src) p.message got)) := by
  refine advance_rationed (w := w.lose i) (agrees.good p.dst) fun src msgid dst => ?_
  have before := rationed src msgid dst
  have gone := count_eraseIdx arrived ⟨src, dst, .request msgid⟩
  have fewer : (if dst = p.dst then begun (.recv t (.peer p.src) p.message got) src msgid else 0) ≤
      if p = ⟨src, dst, .request msgid⟩ then 1 else 0 := by
    unfold begun
    dsimp only
    by_cases same : dst = p.dst ∧ Endpoint.peer p.src = .peer src ∧ p.message = .request msgid
    · obtain ⟨rfl, origin, request⟩ := same
      cases origin
      rw [if_pos rfl, if_pos ⟨rfl, request⟩, if_pos (by rw [← request])]
    · split
      case isTrue here =>
          rw [if_neg fun request => same ⟨here, request⟩]
          exact Nat.zero_le _
      case isFalse => exact Nat.zero_le _
  change (w.wire.eraseIdx i).count _ + (w.nodes dst).started.count _ + _ ≤ w.callsTo src msgid dst
  omega

theorem Rationed.step (agrees : w.Agrees) (rationed : w.Rationed) {act : Act} (single : Single act) :
    (w.step act).Rationed := by
  cases act with
  | inner node event =>
      simp only [Exchange.step]
      split_ifs with inner
      · exact rationed.advance (agrees.good node) inner
      · exact rationed
  | post node f dst =>
      rcases w.post_cases node f dst with same | ⟨msgid, -, -, posted⟩
      · exact (congrArg Rationed same).mpr rationed
      · exact (congrArg Rationed posted).mpr (rationed.request _)
  | deliver i t got =>
      simp only [Exchange.step, Exchange.deliver]
      split
      · exact rationed
      · next p arrived =>
          split_ifs
          · exact rationed.arrives agrees arrived t got
          · exact rationed
  | lose i =>
      intro src msgid dst
      have fewer : (w.wire.eraseIdx i).count ⟨src, dst, .request msgid⟩ ≤
          w.wire.count ⟨src, dst, .request msgid⟩ := (List.eraseIdx_sublist _ _).count_le _
      exact (Nat.add_le_add_right fewer _).trans (rationed src msgid dst)
  | duplicate i => exact single.elim

/-- A caller has used a msgid once. -/
theorem Agrees.callsTo_le (agrees : w.Agrees) (src msgid dst : ℕ) : w.callsTo src msgid dst ≤ 1 := by
  have pairs : w.callsTo src msgid dst ≤ (w.calls.map fun c => (c.node, c.msgid)).count (src, msgid) := by
    rw [List.count_eq_countP, List.countP_map]
    refine List.countP_mono_left fun c _ same => ?_
    obtain ⟨node, key, -⟩ := of_decide_eq_true same
    exact beq_iff_eq.mpr (Prod.ext node key)
  exact pairs.trans (List.nodup_iff_count_le_one.mp agrees.distinct _)

/-- The call is the only one of its node under its msgid. -/
theorem Agrees.callsTo_other (agrees : w.Agrees) {c : Call} (member : c ∈ w.calls) {dst : ℕ}
    (other : dst ≠ c.dst) : w.callsTo c.node c.msgid dst = 0 := by
  refine List.countP_eq_zero.mpr fun c' member' same => ?_
  obtain ⟨node, msgid, went⟩ := of_decide_eq_true same
  have equal : c' = c := List.inj_on_of_nodup_map agrees.distinct member' member (Prod.ext node msgid)
  rw [equal] at went
  exact other went.symm

end Exchange

namespace Atomic

variable {s : Atomic} {event : Event}

/-- Whatever a node has sent is for the request of the fiber that has sent it. -/
def Addressed (s : Atomic) : Prop :=
  ∀ m ∈ s.sent, s.started[m.serial]? = some (m.endp, m.packed.msgid)

theorem Addressed.step (addressed : s.Addressed) (good : s.Good) (event : Event) :
    (s.step event).Addressed := by
  obtain ⟨⟨more, started, -⟩, ⟨new, sent, origins⟩, -, -⟩ := good.adds event
  intro m member
  have origin : s.started[m.serial]? = some (m.endp, m.packed.msgid) := by
    rw [sent] at member
    rcases List.mem_append.mp member with old | fresh
    · exact addressed m old
    · exact origins m fresh
  rw [started, List.getElem?_append_left (List.getElem?_eq_some_iff.mp origin).1]
  exact origin

theorem Good.sends_le (good : s.Good) (n : ℕ) : (s.tally n).sends.length ≤ 1 := by
  have accounts := good.accounts
  rcases Nat.lt_or_ge n s.started.length with old | beyond
  · rcases accounts.closed n _ _ (List.getElem?_eq_getElem old) with ⟨f, live, rfl⟩ | answered
    · rw [(accounts.waits f live).silent]
      exact Nat.zero_le _
    · obtain ⟨yields, last, packed, -, -, -, sends⟩ := answered.once
      rw [sends]
      exact le_rfl
  · rw [accounts.future n beyond]
    exact Nat.zero_le _

end Atomic

/-- What occurs once is at one place. -/
theorem index_unique {α : Type*} [BEq α] [LawfulBEq α] {xs : List α} {x : α} (once : xs.count x ≤ 1) {i j : ℕ}
    (here : xs[i]? = some x) (there : xs[j]? = some x) : i = j := by
  have apart : ∀ {i j : ℕ}, xs[i]? = some x → xs[j]? = some x → ¬ i < j := by
    intro i j here there less
    have front : x ∈ xs.take j := List.mem_of_getElem? ((List.getElem?_take_of_lt less).trans here)
    have back : x ∈ xs.drop j := by
      refine List.mem_of_getElem? (i := 0) ?_
      rw [List.getElem?_drop, Nat.add_zero]
      exact there
    have both : (xs.take j ++ xs.drop j).count x = _ := List.count_append
    rw [List.take_append_drop] at both
    have := List.count_pos_iff.mpr front
    have := List.count_pos_iff.mpr back
    omega
  have := apart here there
  have := apart there here
  omega

def Fabric.repliesTo {W : Type} (s : Fabric W) (src msgid : ℕ) : List Sent :=
  s.sent.filter fun m => m.endp = .peer src ∧ m.packed.msgid = msgid

/-- One fiber sends one message. -/
theorem Atomic.Good.replies_le {s : Atomic} (good : s.Good) (addressed : s.Addressed) {src msgid : ℕ}
    (once : s.started.count (.peer src, msgid) ≤ 1) :
    (s.repliesTo src msgid).length ≤ s.started.count (.peer src, msgid) := by
  have origin : ∀ m ∈ s.repliesTo src msgid, s.started[m.serial]? = some (.peer src, msgid) := by
    intro m member
    obtain ⟨sent, same⟩ := List.mem_filter.mp member
    obtain ⟨endp, packed⟩ := of_decide_eq_true same
    rw [addressed m sent, endp, packed]
  cases replies : s.repliesTo src msgid with
  | nil => exact Nat.zero_le _
  | cons first others =>
      have here := origin first (replies ▸ List.mem_cons_self)
      have positive := List.count_pos_iff.mpr (List.mem_of_getElem? here)
      -- all of them were sent by the first one's fiber
      have part : (s.repliesTo src msgid).Sublist (s.tally first.serial).sends := by
        have one : s.repliesTo src msgid =
            (s.repliesTo src msgid).filter fun m => m.serial = first.serial := by
          refine (List.filter_eq_self.mpr fun m member => ?_).symm
          exact decide_eq_true (index_unique once (origin m member) here)
        rw [one]
        exact List.filter_sublist.filter _
      have few := part.length_le.trans (good.sends_le first.serial)
      rw [replies] at few
      omega

namespace Exchange

variable {w : Exchange}

theorem advance_addressed (agrees : w.Agrees) (addressed : ∀ n, (w.nodes n).Addressed) (node : ℕ)
    (event : Event) (n : ℕ) : ((w.advance node event).nodes n).Addressed := by
  by_cases same : n = node
  · subst same
    rw [advance_self]
    exact (addressed n).step (agrees.good n) event
  · rw [advance_other w event same]
    exact addressed n

theorem step_addressed (agrees : w.Agrees) (addressed : ∀ n, (w.nodes n).Addressed) (act : Act) (n : ℕ) :
    ((w.step act).nodes n).Addressed := by
  cases act with
  | inner node event =>
      simp only [Exchange.step]
      split_ifs
      · exact advance_addressed agrees addressed node event n
      · exact addressed n
  | post node f dst =>
      rcases w.post_cases node f dst with same | ⟨msgid, -, -, posted⟩
      · exact (congrArg (fun v : Exchange => (v.nodes n).Addressed) same).mpr (addressed n)
      · exact (congrArg (fun v : Exchange => (v.nodes n).Addressed) posted).mpr (addressed n)
  | deliver i t got =>
      simp only [Exchange.step, Exchange.deliver]
      split
      · exact addressed n
      · next p arrived =>
          split_ifs
          · exact advance_addressed (agrees.lose i) addressed p.dst _ n
          · exact addressed n
  | lose i => exact addressed n
  | duplicate i => exact addressed n

theorem start_rationed : start.Rationed := fun _ _ _ => Nat.le_refl 0

/-- A call starts at most one fiber and gets at most one message back, all at the node that was
called, and resumes its caller at most once. -/
theorem Rationed.called (agrees : w.Agrees) (rationed : w.Rationed)
    (addressed : ∀ n, (w.nodes n).Addressed) {c : Call} (called : c ∈ w.calls) :
    (∀ n, (w.nodes n).started.count (.peer c.node, c.msgid) ≤ if n = c.dst then 1 else 0) ∧
      (∀ n, ((w.nodes n).repliesTo c.node c.msgid).length ≤ if n = c.dst then 1 else 0) ∧
      (w.nodes c.node).resumptions.countP (fun r => r.stimulus.msgid = c.msgid) ≤ 1 := by
  have starts : ∀ n, (w.nodes n).started.count (.peer c.node, c.msgid) ≤
      if n = c.dst then 1 else 0 := by
    intro n
    have few := rationed c.node c.msgid n
    split
    case isTrue =>
        have := agrees.callsTo_le c.node c.msgid n
        omega
    case isFalse other =>
        rw [agrees.callsTo_other called other] at few
        omega
  refine ⟨starts, fun n => ?_, ?_⟩
  · have some_one : (if n = c.dst then 1 else 0) ≤ 1 := by split <;> omega
    exact ((agrees.good n).replies_le (addressed n) ((starts n).trans some_one)).trans (starts n)
  · have spent := List.nodup_iff_count_le_one.mp (agrees.good c.node).matched.once c.msgid
    rw [List.count_eq_countP, List.countP_map] at spent
    refine le_trans (List.countP_mono_left fun r _ same => ?_) spent
    exact beq_iff_eq.mpr (of_decide_eq_true same)

end Exchange

/-! ## What is on its way to a fiber -/

namespace Atomic

variable {s s' : Atomic} {event : Event} {t f msgid : ℕ} {stimulus : Stimulus}

def Heard (s : Atomic) : Event → Prop
  | .give t mem => mem = true ∧ ∀ taken ∈ s.busy t, Fabric.resumes taken.2 = true
  | _ => True

/-- A fiber is about to be resumed from its yield under the msgid, or has been. -/
def Settled (s : Atomic) (msgid : ℕ) : Prop :=
  (∃ t f stimulus, s.busy t = some (f, stimulus) ∧ stimulus.msgid = msgid) ∨
    (∃ t f stimulus, (f, stimulus) ∈ s.fque t ∧ stimulus.msgid = msgid) ∨
      ∃ r ∈ s.resumptions, r.stimulus.msgid = msgid

def Tracked (s : Atomic) : Prop :=
  ∀ y ∈ s.yields, s.slot y.2.msgid ≠ none ∨ s.Settled y.2.msgid

/-- An entry only goes when its yield is settled. -/
structure Follows (s s' : Atomic) : Prop where
  settled : ∀ msgid, s.Settled msgid → s'.Settled msgid
  entries : ∀ msgid, s.slot msgid ≠ none → s'.slot msgid ≠ none ∨ s'.Settled msgid
  yields : ∀ y ∈ s'.yields, y ∈ s.yields ∨ s'.slot y.2.msgid ≠ none

theorem Follows.tracked (follows : Follows s s') (tracked : s.Tracked) : s'.Tracked := by
  intro y member
  rcases follows.yields y member with old | new
  · rcases tracked y old with entry | settled
    · exact follows.entries y.2.msgid entry
    · exact .inr (follows.settled y.2.msgid settled)
  · exact .inl new

/-- Nothing has changed that counts. -/
theorem Follows.same (slot : s'.slot = s.slot) (busy : s'.busy = s.busy) (fque : s'.fque = s.fque)
    (resumptions : s'.resumptions = s.resumptions) (yields : s'.yields = s.yields) :
    Follows s s' where
  settled msgid settled := by
    unfold Settled
    rw [busy, fque, resumptions]
    exact settled
  entries msgid entry := .inl (slot ▸ entry)
  yields y member := .inl (yields ▸ member)

/-- A fiber that gets its stimulus is settled, and the others are as before. -/
theorem taken_settled (taken : Taken s f stimulus true s') :
    s'.Settled stimulus.msgid ∧ ∀ msgid, s.Settled msgid → s'.Settled msgid := by
  cases taken with
  | queued =>
      have here : (f, stimulus) ∈ (s.mpush f stimulus).fque (s.fibers f).owner := by
        unfold Fabric.mpush
        dsimp only
        rw [Function.update_self]
        exact List.mem_append_right _ (List.mem_singleton_self _)
      refine ⟨.inr (.inl ⟨_, f, stimulus, here, rfl⟩), ?_⟩
      rintro msgid (held | ⟨t', f', stimulus', member, same⟩ | resumed)
      · exact .inl held
      · refine .inr (.inl ⟨t', f', stimulus', ?_, same⟩)
        unfold Fabric.mpush
        dsimp only
        by_cases owner : t' = (s.fibers f).owner
        · subst owner
          rw [Function.update_self]
          exact List.mem_append_left _ member
        · rw [Function.update_of_ne owner]
          exact member
      · exact .inr (.inr resumed)
  | resumed =>
      have here := List.mem_append_right s.resumptions
        (List.mem_singleton_self (⟨(s.fibers f).serial, stimulus, (s.fibers f).co⟩ : Resumption))
      refine ⟨.inr (.inr ⟨_, here, rfl⟩), ?_⟩
      rintro msgid (held | queued | ⟨r, member, same⟩)
      · exact .inl held
      · exact .inr (.inl queued)
      · exact .inr (.inr ⟨r, List.mem_append_left _ member, same⟩)

theorem take_follows {e : ℕ} (empty : s.busy t = none) :
    Follows s ((s.erase stimulus.msgid e).work t (some (f, stimulus))) := by
  have settled : Settled ((s.erase stimulus.msgid e).work t (some (f, stimulus))) stimulus.msgid :=
    .inl ⟨t, f, stimulus, Function.update_self .., rfl⟩
  refine ⟨?_, ?_, fun y member => .inl member⟩
  · rintro msgid (⟨t', f', stimulus', held, same⟩ | rest)
    · have other : t' ≠ t := by
        rintro rfl
        rw [empty] at held
        cases held
      exact .inl ⟨t', f', stimulus', (Function.update_of_ne other ..).trans held, same⟩
    · exact .inr rest
  · intro msgid entry
    by_cases this : msgid = stimulus.msgid
    · exact .inr (this ▸ settled)
    · refine .inl ?_
      change Function.update s.slot stimulus.msgid none msgid ≠ none
      rw [Function.update_of_ne this]
      exact entry

/-- What a thread holds is handed on to its fiber. -/
theorem give_follows (held : s.busy t = some (f, stimulus))
    (taken : Taken (s.work t none) f stimulus true s') : Follows s s' := by
  obtain ⟨-, -, yields, slot⟩ := taken.records
  obtain ⟨settled, kept⟩ := taken_settled taken
  refine ⟨?_, fun msgid entry => .inl (slot ▸ entry), fun y member => .inl (yields ▸ member)⟩
  rintro msgid (⟨t', f', stimulus', there, same⟩ | rest)
  · by_cases here : t' = t
    · rw [here, held] at there
      cases there
      exact same ▸ settled
    · exact kept msgid (.inl ⟨t', f', stimulus', (Function.update_of_ne here ..).trans there, same⟩)
  · exact kept msgid (.inr rest)

/-- A resumption leaves its queue when its fiber gets it. -/
theorem task_follows {rest : List (ℕ × Stimulus)} (queue : s.fque t = (f, stimulus) :: rest) :
    Follows s ((s.dequeue t rest).coResume f stimulus) := by
  obtain ⟨settled, kept⟩ :=
    taken_settled (s := s.dequeue t rest) (.resumed : Taken _ f stimulus true _)
  refine ⟨?_, fun msgid entry => .inl entry, fun y member => .inl member⟩
  rintro msgid (held | ⟨t', f', stimulus', member, same⟩ | resumed)
  · exact kept msgid (.inl held)
  · by_cases head : t' = t ∧ stimulus' = stimulus
    · rw [← same, head.2]
      exact settled
    · refine kept msgid (.inr (.inl ⟨t', f', stimulus', ?_, same⟩))
      unfold Fabric.dequeue
      dsimp only
      by_cases this : t' = t
      · subst this
        rw [Function.update_self]
        rw [queue] at member
        refine (List.mem_cons.mp member).resolve_left fun first => ?_
        exact head ⟨rfl, (Prod.mk.inj first).2⟩
      · rw [Function.update_of_ne this]
        exact member
  · exact kept msgid (.inr (.inr resumed))

theorem report_follows (s : Atomic) (f : ℕ) (o : Outcome) : Follows s (s.report f o) := by
  cases o with
  | finish => exact .same rfl rfl rfl rfl rfl
  | error => exact .same rfl rfl rfl rfl rfl
  | yield key limit e =>
      refine ⟨fun msgid settled => settled, ?_, ?_⟩
      · intro msgid entry
        refine .inl ?_
        change Function.update s.slot key _ msgid ≠ none
        by_cases this : msgid = key
        · rw [this, Function.update_self]
          exact Option.some_ne_none _
        · rw [Function.update_of_ne this]
          exact entry
      · intro y member
        rcases List.mem_append.mp member with old | new
        · exact .inl old
        · obtain rfl := List.mem_singleton.mp new
          refine .inr ?_
          change Function.update s.slot key _ key ≠ none
          rw [Function.update_self]
          exact Option.some_ne_none _

theorem turn_follows (turn : Turn s event s') (heard : s.Heard event) : Follows s s' := by
  cases turn with
  | nothing => exact .same rfl rfl rfl rfl rfl
  | start _ _ => exact .same rfl rfl rfl rfl rfl
  | take _ empty _ _ => exact take_follows empty
  | @give t f stimulus mem _ held taken =>
      have resumes := heard.2 _ held
      rw [heard.1, resumes] at taken
      exact give_follows held taken
  | task queue => exact task_follows queue
  | report _ _ => exact report_follows s _ _

/-- A response settles the yield that has been registered under its msgid, unless that has
happened before. -/
theorem recv_settled (tracked : s.Tracked) {n : ℕ} {y : Yielded} (registered : (n, y) ∈ s.yields)
    (idle : s.busy t = none) (endp : Endpoint) (got : Option ℕ) :
    Settled (s.recv t endp (.response y.msgid) got) y.msgid := by
  simp only [recv, take, Stimulus.msgid, idle]
  cases held : s.slot y.msgid with
  | none => exact (tracked _ registered).resolve_left fun entry => entry held
  | some e => exact .inl ⟨t, _, .response y.msgid, Function.update_self .., rfl⟩

end Atomic

namespace Exchange

variable {w : Exchange} {node : ℕ} {event : Event}

/-! ## No call is lost -/

def finds (w : Exchange) (got : Option ℕ) (p : Packet) : Bool :=
  match p.message with
  | .request _ => got.any fun f => !((w.nodes p.dst).fibers f).live
  | _ => true

/-- Nothing is lost: what arrives finds memory, and a request a fiber. -/
def Lossless (w : Exchange) : Act → Prop
  | .inner node event => Atomic.Heard (w.nodes node) event
  | .deliver i _ got => (w.wire[i]?).all (w.finds got) = true
  | .lose _ => False
  | _ => True

structure Kept (w : Exchange) : Prop where
  agrees : w.Agrees
  tracked : ∀ n, (w.nodes n).Tracked
  placed : ∀ c ∈ w.calls, ⟨c.node, c.dst, .request c.msgid⟩ ∈ w.wire ∨
    (.peer c.node, c.msgid) ∈ (w.nodes c.dst).started
  returned : ∀ n, ∀ m ∈ (w.nodes n).sent, ∀ src, m.endp = .peer src →
    ⟨n, src, .response m.packed.msgid⟩ ∈ w.wire ∨ (w.nodes src).Settled m.packed.msgid

/-- An event at a node, where the packets in `wire` are what has not arrived. -/
theorem Kept.advance (kept : w.Kept) (wire : List Packet) (known : ∀ p ∈ wire, p ∈ w.wire)
    (fresh : Fibers.Fresh (w.nodes node) event) (caused : w.Caused node event)
    (heard : Atomic.Heard (w.nodes node) event)
    (started : ∀ p ∈ w.wire, ∀ msgid, p.message = .request msgid → p ∈ wire ∨
      p.dst = node ∧ (.peer p.src, msgid) ∈ ((w.nodes node).step event).started)
    (settled : ∀ p ∈ w.wire, ∀ msgid, p.message = .response msgid → p ∈ wire ∨
      p.dst = node ∧ ((w.nodes node).step event).Settled msgid) :
    Kept (Exchange.advance { w with wire } node event) := by
  have rewired := kept.agrees.rewire known
  have good := kept.agrees.good node
  have follows := Atomic.turn_follows (Atomic.step_turn good.sound event) heard
  have grows := advance_grows (w := { w with wire }) good event
  have step : (Exchange.advance { w with wire } node event).nodes node = (w.nodes node).step event :=
    advance_self _ node event
  have others : ∀ n, n ≠ node → (Exchange.advance { w with wire } node event).nodes n = w.nodes n :=
    fun n other => advance_other _ event other
  have still : ∀ n msgid, (w.nodes n).Settled msgid →
      ((Exchange.advance { w with wire } node event).nodes n).Settled msgid := by
    intro n msgid before
    by_cases same : n = node
    · subst same
      rw [step]
      exact follows.settled msgid before
    · rw [others n same]
      exact before
  refine ⟨rewired.advance fresh caused, ?_, ?_, ?_⟩
  · intro n
    by_cases same : n = node
    · subst same
      rw [step]
      exact follows.tracked (kept.tracked n)
    · rw [others n same]
      exact kept.tracked n
  · intro c member
    rcases kept.placed c member with on_way | there
    · rcases started _ on_way c.msgid rfl with left | ⟨rfl, here⟩
      · exact .inl (List.mem_append_left _ left)
      · exact .inr (step ▸ here)
    · exact .inr ((grows.started c.dst).subset there)
  · intro n m member src endp
    have old : m ∈ (w.nodes n).sent →
        ⟨n, src, .response m.packed.msgid⟩ ∈ (Exchange.advance { w with wire } node event).wire ∨
          ((Exchange.advance { w with wire } node event).nodes src).Settled m.packed.msgid := by
      intro sent
      rcases kept.returned n m sent src endp with on_way | there
      · rcases settled _ on_way m.packed.msgid rfl with left | ⟨rfl, here⟩
        · exact .inl (List.mem_append_left _ left)
        · exact .inr (step ▸ here)
      · exact .inr (still src _ there)
    by_cases same : n = node
    · subst same
      obtain ⟨-, ⟨more, sent, -⟩, -, -⟩ := good.adds event
      rw [step, sent] at member
      rcases List.mem_append.mp member with before | new
      · exact old before
      · refine .inl (List.mem_append_right _ (List.mem_filterMap.mpr ⟨m, ?_, ?_⟩))
        · rw [sent, List.drop_left]
          exact new
        · unfold Sent.packet
          rw [endp]
    · rw [others n same] at member
      exact old member

theorem Kept.inner (kept : w.Kept) (fresh : Fibers.Fresh (w.nodes node) event)
    (inner : event.inner = true) (heard : Atomic.Heard (w.nodes node) event) :
    (w.advance node event).Kept :=
  kept.advance w.wire (fun _ member => member) fresh (inner_caused inner) heard
    (fun _ member _ _ => .inl member) fun _ member _ _ => .inl member

theorem Kept.request (kept : w.Kept) {c : Call} (agrees : Exchange.Agrees (w.request c)) :
    Exchange.Kept (w.request c) := by
  refine ⟨agrees, kept.tracked, ?_, ?_⟩
  · intro c' member
    rcases List.mem_append.mp member with old | new
    · exact (kept.placed c' old).imp_left (List.mem_append_left _)
    · obtain rfl := List.mem_singleton.mp new
      exact .inl (List.mem_append_right _ (List.mem_singleton_self _))
  · intro n m member src endp
    exact (kept.returned n m member src endp).imp_left (List.mem_append_left _)

/-- A packet that arrives starts a fiber or settles a yield. -/
theorem Kept.deliver (kept : w.Kept) {i : ℕ} {p : Packet} (arrived : w.wire[i]? = some p) {t : ℕ}
    (idle : (w.nodes p.dst).busy t = none) {got : Option ℕ} (finds : w.finds got p = true) :
    Kept (Exchange.advance (w.lose i) p.dst (.recv t (.peer p.src) p.message got)) := by
  have here : p ∈ w.wire := List.mem_of_getElem? arrived
  have left : ∀ q ∈ w.wire, q ∈ w.wire.eraseIdx i ∨ q = p := by
    intro q member
    obtain ⟨inside, rfl⟩ := List.getElem?_eq_some_iff.mp arrived
    have perm := (List.getElem_cons_eraseIdx_perm inside).mem_iff.mpr member
    exact (List.mem_cons.mp perm).symm
  refine kept.advance _ (fun q member => List.mem_of_mem_eraseIdx member) trivial
    (kept.agrees.arrives arrived t got) trivial ?_ ?_
  · intro q member msgid request
    refine (left q member).imp_right ?_
    rintro rfl
    unfold Exchange.finds at finds
    rw [request] at finds
    refine ⟨rfl, ?_⟩
    rw [request]
    obtain ⟨f, rfl, unused⟩ := (Option.any_eq_true _ got).mp finds
    have free := (Bool.not_eq_true' _).mp unused
    have created : (w.nodes q.dst).step (.recv t (.peer q.src) (.request msgid) (some f)) =
        (w.nodes q.dst).create t (.peer q.src) msgid f := by
      simp only [Atomic.step, Atomic.recv, Fabric.start, free, Bool.false_eq_true, if_false]
    rw [created]
    exact List.mem_append_right _ (List.mem_singleton_self _)
  · intro q member msgid response
    refine (left q member).imp_right ?_
    rintro rfl
    refine ⟨rfl, ?_⟩
    rw [response]
    -- the caller has registered a yield under the msgid
    obtain ⟨m, -, -, -, origin⟩ := kept.agrees.responses q here msgid response
    obtain ⟨n, called⟩ := kept.agrees.started q.src q.dst msgid (List.mem_of_getElem? origin)
    obtain ⟨y, registered, rfl⟩ := kept.agrees.calls _ called
    exact Atomic.recv_settled (kept.tracked q.dst) registered idle (.peer q.src) got

theorem Kept.step (kept : w.Kept) {act : Act} (fresh : w.Fresh act) (lossless : w.Lossless act) :
    (w.step act).Kept := by
  cases act with
  | inner node event =>
      simp only [Exchange.step]
      split_ifs with inner
      · exact kept.inner fresh inner lossless
      · exact kept
  | post node f dst =>
      have agrees := kept.agrees.post node f dst
      change Kept (w.post node f dst)
      rcases w.post_cases node f dst with same | ⟨msgid, -, -, posted⟩
      · rw [same]
        exact kept
      · rw [posted] at agrees ⊢
        exact kept.request agrees
  | deliver i t got =>
      simp only [Exchange.step, Exchange.deliver]
      split
      · exact kept
      · next p arrived =>
          have finds : (w.wire[i]?).all (w.finds got) = true := lossless
          rw [arrived] at finds
          split_ifs with idle
          · exact kept.deliver arrived idle finds
          · exact kept
  | lose i => exact lossless.elim
  | duplicate i =>
      refine ⟨kept.agrees.duplicate i, kept.tracked, ?_, ?_⟩
      · exact fun c member => (kept.placed c member).imp_left (List.mem_append_left _)
      · exact fun n m member src endp =>
          (kept.returned n m member src endp).imp_left (List.mem_append_left _)

theorem start_kept : start.Kept where
  agrees := start_agrees
  tracked _ := by rintro _ ⟨⟩
  placed := by rintro _ ⟨⟩
  returned _ := by rintro _ ⟨⟩

theorem packed_msgid {o : Outcome} {msgid : ℕ} {packed : Packed} (answers : o.packed msgid = some packed) :
    packed.msgid = msgid := by
  cases o <;> cases answers <;> rfl

/-- No call is forgotten: the request is on the way, or a fiber that was started for it is live,
or the response is on the way, or the caller's yield is settled. -/
theorem Kept.found (kept : w.Kept) {c : Call} (called : c ∈ w.calls) :
    ⟨c.node, c.dst, .request c.msgid⟩ ∈ w.wire ∨
      (∃ f, let fiber := (w.nodes c.dst).fibers f
        fiber.live = true ∧ fiber.endp = .peer c.node ∧ fiber.msgid = c.msgid) ∨
      ⟨c.dst, c.node, .response c.msgid⟩ ∈ w.wire ∨ (w.nodes c.node).Settled c.msgid := by
  rcases kept.placed c called with on_way | there
  · exact .inl on_way
  · obtain ⟨n, origin⟩ := List.getElem?_of_mem there
    have accounts := (kept.agrees.good c.dst).accounts
    rcases accounts.closed n _ _ origin with ⟨f, live, rfl⟩ | answered
    · have own := accounts.origin f live
      rw [origin] at own
      obtain ⟨endp, msgid⟩ := Prod.mk.inj (Option.some.inj own)
      exact .inr (.inl ⟨f, live, endp.symm, msgid.symm⟩)
    · obtain ⟨_, _, packed, -, -, answers, sends⟩ := answered.once
      have member : (⟨n, .peer c.node, packed⟩ : Sent) ∈ (w.nodes c.dst).sent := by
        have here : (⟨n, .peer c.node, packed⟩ : Sent) ∈ ((w.nodes c.dst).tally n).sends := by
          rw [sends]
          exact List.mem_singleton_self _
        exact (List.mem_filter.mp here).1
      have own : packed.msgid = c.msgid := packed_msgid answers
      have returned := kept.returned c.dst _ member c.node rfl
      rw [own] at returned
      exact .inr (.inr returned)

end Exchange

end Cyue.Fibers
