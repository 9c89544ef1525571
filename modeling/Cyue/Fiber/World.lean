import Cyue.Fiber.Few
import Cyue.Fiber.Larger
import Cyue.Fiber.Settled

/-!
# Calls between nodes of threads

Any number of nodes, with the threads of each.  A request leaves while its coroutine
still runs, and the response may arrive before the coroutine is suspended.  As long as the
threads of every node keep apart, what holds of the calls in large steps holds of them.
-/

namespace Cyue.Fibers

def Threads.Event.inner : Threads.Event → Bool
  | .recv .. => false
  | _ => true

abbrev World : Type := Nodes Threads

namespace World

inductive Act where
  | inner (node : ℕ) (event : Threads.Event)
  /-- the coroutine on the thread `t`, which has registered its yield, sends the request to `dst` -/
  | post (node t dst : ℕ)
  /-- the packet at `i` arrives, on the thread `t` of its node -/
  | deliver (i t : ℕ) (got : Option ℕ) (back : Bool)
  | lose (i : ℕ)
  | duplicate (i : ℕ)

def start : World := ⟨fun _ => .init, [], []⟩

def advance (w : World) (node : ℕ) (event : Threads.Event) : World :=
  let s := w.nodes node
  let s' := s.step event
  w.put node s' (s'.sent.drop s.sent.length)

/-- A coroutine sends one request for a yield. -/
def post (w : World) (node t dst : ℕ) : World :=
  let s := w.nodes node
  match s.busy t with
  | some (.sending f msgid) =>
      if w.Uncalled node msgid then w.request ⟨node, (s.fibers f).serial, msgid, dst⟩ else w
  | _ => w

def deliver (w : World) (i t : ℕ) (got : Option ℕ) (back : Bool) : World :=
  match w.wire[i]? with
  | none => w
  | some p =>
      if (w.nodes p.dst).busy t = none then
        advance (w.lose i) p.dst (.recv t (.peer p.src) p.message got back)
      else w

def step (w : World) : Act → World
  | .inner node event => if event.inner then w.advance node event else w
  | .post node t dst => w.post node t dst
  | .deliver i t got back => w.deliver i t got back
  | .lose i => w.lose i
  | .duplicate i => w.duplicate i

def run (acts : List Act) : World := acts.foldl step start

/-- No thread gets in the way of another one of its node, no send fails, and msgids are fresh. -/
def Clean (w : World) : Act → Prop
  | .inner node event => (w.nodes node).Clean event
  | .deliver i t got back =>
      ∀ p ∈ w.wire[i]?, (w.nodes p.dst).Clean (.recv t (.peer p.src) p.message got back)
  | _ => True

/-! ## The world in large steps -/

structure Refines (w : World) (v : Exchange) : Prop where
  nodes : ∀ n, (w.nodes n).Refines (v.nodes n)
  wire : v.wire = w.wire
  calls : v.calls = w.calls

/-- The large step that an act amounts to, if it does to one. -/
def larger (w : World) : Act → Option Exchange.Act
  | .inner node event =>
      if event.inner then ((w.nodes node).larger event).map (.inner node) else none
  | .post node t dst =>
      match (w.nodes node).busy t with
      | some (.sending f _) => some (.post node f dst)
      | _ => none
  | .deliver i t got _ =>
      match w.wire[i]? with
      | none => none
      | some p => if (w.nodes p.dst).busy t = none then some (.deliver i t got) else none
  | .lose i => some (.lose i)
  | .duplicate i => some (.duplicate i)

variable {w : World} {v : Exchange} {node : ℕ}

theorem larger_inner {c : Threads} {event : Threads.Event} (inner : event.inner = true)
    {large : Event} (member : large ∈ c.larger event) : large.inner = true := by
  cases Threads.larger_amounts member with
  | recv => cases inner
  | _ => rfl

inductive Amounts (w : World) : Act → Exchange.Act → Prop where
  | inner {node : ℕ} {event : Threads.Event} {large : Event}
      (member : large ∈ (w.nodes node).larger event) : Amounts w (.inner node event) (.inner node large)
  | post (node t f dst : ℕ) : Amounts w (.post node t dst) (.post node f dst)
  | deliver (i t : ℕ) (got : Option ℕ) (back : Bool) :
      Amounts w (.deliver i t got back) (.deliver i t got)
  | lose (i : ℕ) : Amounts w (.lose i) (.lose i)
  | duplicate (i : ℕ) : Amounts w (.duplicate i) (.duplicate i)

theorem larger_amounts {act : Act} {large : Exchange.Act} (member : large ∈ w.larger act) :
    w.Amounts act large := by
  cases act with
  | inner node event =>
      simp only [larger] at member
      split_ifs at member
      · obtain ⟨ev, there, rfl⟩ := Option.map_eq_some_iff.mp member
        exact .inner there
      · cases member
  | post node t dst =>
      simp only [larger] at member
      split at member
      · cases member
        exact .post node t _ dst
      · cases member
  | deliver i t got back =>
      simp only [larger] at member
      split at member
      · cases member
      · split_ifs at member
        · cases member
          exact .deliver i t got back
        · cases member
  | lose i =>
      cases member
      exact .lose i
  | duplicate i =>
      cases member
      exact .duplicate i

theorem put_self {N : Type} (w : Nodes N) (node : ℕ) : w.put node (w.nodes node) [] = w := by
  unfold Nodes.put
  rw [Function.update_eq_self, List.filterMap_nil, List.append_nil]

namespace Refines

theorem put (refines : w.Refines v) (node : ℕ) {c : Threads} {s : Atomic} (here : c.Refines s)
    (sent : List Sent) : Refines (w.put node c sent) (v.put node s sent) := by
  refine ⟨fun n => ?_, congrArg (· ++ _) refines.wire, refines.calls⟩
  change (Function.update w.nodes node c n).Refines (Function.update v.nodes node s n)
  by_cases same : n = node
  · rw [same, Function.update_self, Function.update_self]
    exact here
  · rw [Function.update_of_ne same, Function.update_of_ne same]
    exact refines.nodes n

theorem sent_eq (refines : w.Refines v) (n : ℕ) : (v.nodes n).sent = (w.nodes n).sent :=
  congrArg Fabric.sent (refines.nodes n).large

theorem advance (refines : w.Refines v) {event : Threads.Event}
    (clean : (w.nodes node).Clean event) : (w.advance node event).Refines
      (((w.nodes node).larger event).elim v (v.advance node)) := by
  have here := (refines.nodes node).step clean
  have sent := refines.sent_eq node
  cases large : (w.nodes node).larger event with
  | none =>
      rw [large, Option.toList_none, List.foldl_nil] at here
      have still : ((w.nodes node).step event).sent = (w.nodes node).sent :=
        (congrArg Fabric.sent here.large).symm.trans sent
      have stays := refines.put node here []
      rw [put_self v node] at stays
      simp only [World.advance, still, List.drop_length]
      exact stays
  | some ev =>
      rw [large] at here
      have grown : (Atomic.step (v.nodes node) ev).sent = ((w.nodes node).step event).sent :=
        congrArg Fabric.sent here.large
      simp only [World.advance, Exchange.advance, Option.elim_some, grown, sent]
      exact refines.put node here _

theorem lose (refines : w.Refines v) (i : ℕ) : Refines (w.lose i) (v.lose i) :=
  ⟨refines.nodes, congrArg (List.eraseIdx · i) refines.wire, refines.calls⟩

theorem duplicate (refines : w.Refines v) (i : ℕ) : Refines (w.duplicate i) (v.duplicate i) := by
  refine ⟨refines.nodes, ?_, refines.calls⟩
  change v.wire ++ (v.wire[i]?).toList = w.wire ++ (w.wire[i]?).toList
  rw [refines.wire]

theorem request (refines : w.Refines v) (c : Call) : Refines (w.request c) (v.request c) :=
  ⟨refines.nodes, congrArg (· ++ _) refines.wire, congrArg (· ++ _) refines.calls⟩

theorem uncalled (refines : w.Refines v) (msgid : ℕ) : v.Uncalled node msgid ↔ w.Uncalled node msgid := by
  unfold Nodes.Uncalled
  rw [refines.calls]

/-- A coroutine that sends its request is suspended in large steps. -/
theorem sending (refines : w.Refines v) {t f msgid : ℕ}
    (given : (w.nodes node).busy t = some (.sending f msgid)) :
    (v.nodes node).fibers f = { (w.nodes node).fibers f with co := .suspended msgid } := by
  have sends := (refines.nodes node).fits.meant t _ given
  rw [(refines.nodes node).fibers_eq]
  refine Threads.view_registered ?_
  rw [sends.owner, given]
  exact if_pos rfl

theorem post (refines : w.Refines v) {t f msgid : ℕ}
    (given : (w.nodes node).busy t = some (.sending f msgid)) (dst : ℕ) :
    Refines (w.post node t dst) (v.post node f dst) := by
  have fiber := refines.sending given
  simp only [World.post, Exchange.post, given, fiber]
  by_cases uncalled : w.Uncalled node msgid
  · rw [if_pos uncalled, if_pos ((refines.uncalled msgid).mpr uncalled)]
    exact refines.request _
  · rw [if_neg uncalled, if_neg fun called => uncalled ((refines.uncalled msgid).mp called)]
    exact refines

theorem idle (refines : w.Refines v) {t : ℕ} (idle : (w.nodes node).busy t = none) :
    (v.nodes node).busy t = none := by
  rw [(refines.nodes node).busy_eq]
  exact Threads.hand_idle idle

/-- An act amounts to one in large steps or to none. -/
theorem step (refines : w.Refines v) {act : Act} (clean : w.Clean act) :
    (w.step act).Refines ((w.larger act).toList.foldl Exchange.step v) := by
  cases act with
  | inner node event =>
      simp only [World.step, World.larger]
      split_ifs with inner
      · have advanced := refines.advance clean
        cases large : (w.nodes node).larger event with
        | none =>
            rw [large] at advanced
            exact advanced
        | some ev =>
            rw [large] at advanced
            have is : Exchange.step v (.inner node ev) = v.advance node ev :=
              if_pos (larger_inner inner large)
            simp only [Option.map_some, Option.toList_some, List.foldl_cons, List.foldl_nil, is]
            exact advanced
      · exact refines
  | post node t dst =>
      simp only [World.step, World.larger]
      split
      · next f msgid given => exact refines.post given dst
      · next other =>
          simp only [World.post]
          exact refines
  | deliver i t got back =>
      simp only [World.step, World.larger, World.deliver]
      cases arrived : w.wire[i]? with
      | none => exact refines
      | some p =>
          dsimp only
          split_ifs with idle
          · have there : v.wire[i]? = some p := refines.wire ▸ arrived
            have is : Exchange.step v (.deliver i t got) =
                Exchange.advance (v.lose i) p.dst (.recv t (.peer p.src) p.message got) := by
              simp only [Exchange.step, Exchange.deliver, there, refines.idle idle, if_true]
            have moved := (refines.lose i).advance (clean p arrived)
            have large : (w.nodes p.dst).larger (.recv t (.peer p.src) p.message got back) =
                some (.recv t (.peer p.src) p.message got) := if_pos idle
            simp only [Nodes.lose, large, Option.elim_some] at moved
            simp only [Option.toList_some, List.foldl_cons, List.foldl_nil, is]
            exact moved
          · exact refines
  | lose i => exact refines.lose i
  | duplicate i => exact refines.duplicate i

theorem started_eq (refines : w.Refines v) (n : ℕ) :
    (v.nodes n).started = (w.nodes n).started :=
  congrArg Fabric.started (refines.nodes n).large

theorem resumptions_eq (refines : w.Refines v) (n : ℕ) :
    (v.nodes n).resumptions = (w.nodes n).resumptions :=
  congrArg Fabric.resumptions (refines.nodes n).large

theorem replied (refines : w.Refines v) {n caller msgid : ℕ}
    (replied : (v.nodes n).Replied caller msgid) : (w.nodes n).Replied caller msgid := by
  unfold Fabric.Replied at replied ⊢
  rw [← refines.sent_eq, ← refines.started_eq]
  exact replied

theorem larger_fresh (refines : w.Refines v) {act : Act} (clean : w.Clean act) :
    ∀ large ∈ w.larger act, v.Fresh large := by
  intro large member
  cases larger_amounts member with
  | inner there => exact (refines.nodes _).larger_fresh clean _ there
  | _ => trivial

end Refines

theorem start_refines : start.Refines .start := ⟨fun _ => Threads.Refines.init_refines, rfl, rfl⟩

/-- A run amounts to a run in large steps, whose steps meet what its own acts make them meet. -/
theorem run_refines (good : Exchange → Exchange.Act → Prop) {ok : World → Act → Prop}
    (clean : ∀ w act, ok w act → w.Clean act)
    (meets : ∀ w v act, Refines w v → ok w act → ∀ large ∈ w.larger act, good v large)
    {acts : List Act} (along : Run.Along step ok start acts) :
    ∃ larger, Run.Along Exchange.step good .start larger ∧
      (run acts).Refines (larger.foldl Exchange.step .start) :=
  Run.simulated Refines
    (fun w v act refines met => ⟨_, Run.along_toList (meets w v act refines met),
      refines.step (clean w act met)⟩)
    start_refines along

/-! ## Few threads -/

/-- What `Clean` asks for, where only the first `n` threads of each node do anything. -/
def CleanBelow (n : ℕ) (w : World) : Act → Prop
  | .inner node event => (w.nodes node).CleanBelow n event
  | .deliver i t got back =>
      ∀ p ∈ w.wire[i]?, (w.nodes p.dst).CleanBelow n (.recv t (.peer p.src) p.message got back)
  | _ => True

instance (n : ℕ) (w : World) (act : Act) : Decidable (w.CleanBelow n act) := by
  unfold CleanBelow
  split <;> infer_instance

variable {n : ℕ}

theorem few_advance (few : ∀ node, (w.nodes node).Few n) {event : Threads.Event}
    (clean : (w.nodes node).CleanBelow n event) (node' : ℕ) :
    ((w.advance node event).nodes node').Few n := by
  change (Function.update w.nodes node _ node').Few n
  by_cases same : node' = node
  · rw [same, Function.update_self]
    exact (few node).step clean.1
  · rw [Function.update_of_ne same]
    exact few node'

theorem few_step (few : ∀ node, (w.nodes node).Few n) {act : Act} (clean : w.CleanBelow n act)
    (node' : ℕ) : ((w.step act).nodes node').Few n := by
  cases act with
  | inner node event =>
      simp only [step]
      split_ifs
      · exact few_advance few clean node'
      · exact few node'
  | post node t dst =>
      simp only [step, post]
      split
      · split_ifs <;> exact few node'
      · exact few node'
  | deliver i t got back =>
      simp only [step, deliver]
      split
      · exact few node'
      · next p arrived =>
          split_ifs
          · exact few_advance (w := w.lose i) few (clean p arrived) node'
          · exact few node'
  | lose i => exact few node'
  | duplicate i => exact few node'

theorem few_clean (few : ∀ node, (w.nodes node).Few n) {act : Act} (clean : w.CleanBelow n act) :
    w.Clean act := by
  cases act with
  | inner node event => exact (few node).clean clean
  | deliver i t got back => exact fun p arrived => (few p.dst).clean (clean p arrived)
  | post node t dst => trivial
  | lose i => trivial
  | duplicate i => trivial

/-- A run of few threads, of which it was computed that they keep apart. -/
theorem clean_of_below (positive : 0 < n) {acts : List Act}
    (clean : Run.Along step (CleanBelow n) start acts) : Run.Along step Clean start acts :=
  Run.Along.gives (fun w : World => ∀ node, (w.nodes node).Few n)
    (fun _ => Threads.init_few positive) (fun _ _ few clean => few_step few clean)
    (fun _ _ few clean => few_clean few clean) clean

/-! ## Who answers -/

/-- Whatever the network does, a response that resumes a coroutine was sent by the fiber which the
node that was called has started for the request that this very coroutine has sent. -/
theorem resumed_by_callee {acts : List Act} (clean : Run.Along step Clean start acts)
    {node msgid : ℕ} {r : Resumption} (resumed : r ∈ ((run acts).nodes node).resumptions)
    (response : r.stimulus = .response msgid) :
    ∃ callee, ⟨node, r.serial, msgid, callee⟩ ∈ (run acts).calls ∧
      ((run acts).nodes callee).Replied node msgid ∧ r.found = .suspended msgid ∧
      ∀ c ∈ (run acts).calls, c.node = node → c.msgid = msgid → c = ⟨node, r.serial, msgid, callee⟩ := by
  obtain ⟨larger, fresh, refines⟩ := run_refines Exchange.Fresh (fun _ _ clean => clean)
    (fun _ _ _ refines clean => refines.larger_fresh clean) clean
  have agrees := Run.holds_after Exchange.Agrees Exchange.Fresh Exchange.start_agrees
    (fun _ _ agrees fresh => agrees.step fresh) fresh
  rw [← refines.resumptions_eq] at resumed
  obtain ⟨callee, called, replied, found, only⟩ := agrees.callee resumed response
  rw [refines.calls] at called only
  exact ⟨callee, called, refines.replied replied, found, only⟩

/-- A call whose request arrives twice and whose first response is lost; the second one is there
before the coroutine is suspended. -/
theorem resumed_by_callee_twice :
    let acts := [.inner 1 (.spawn 0 (some 3)), .inner 1 (.yield 3 1001 50 0), .inner 1 (.write 0),
      .inner 1 (.write 0), .inner 1 (.write 0), .post 1 0 2, .duplicate 0, .deliver 0 1 (some 4) false,
      .deliver 0 1 (some 6) false, .inner 2 (.error 4), .inner 2 (.finish 6), .lose 0,
      .deliver 0 1 none true, .inner 1 (.copy 1 true), .inner 1 (.posted 0), .inner 1 (.task 0)]
    ∃ callee, ⟨1, 0, 1001, callee⟩ ∈ (run acts).calls ∧
      ((run acts).nodes callee).Replied 1 1001 ∧ Co.suspended 1001 = .suspended 1001 ∧
      ∀ c ∈ (run acts).calls, c.node = 1 → c.msgid = 1001 → c = ⟨1, 0, 1001, callee⟩ := by
  intro acts
  have resumed : (⟨0, .response 1001, .suspended 1001⟩ : Resumption) ∈
      ((run acts).nodes 1).resumptions := by decide
  exact resumed_by_callee (clean_of_below (n := 2) (by decide) (by decide)) resumed rfl

/-! ## At most once -/

def Single : Act → Prop
  | .duplicate _ => False
  | _ => True

instance : DecidablePred Single := fun act => by
  unfold Single
  split <;> infer_instance

def Once (w : World) (act : Act) : Prop := w.Clean act ∧ Single act

theorem larger_single {act : Act} (single : Single act) :
    ∀ large ∈ w.larger act, Exchange.Single large := by
  intro large member
  cases larger_amounts member with
  | duplicate i => exact single.elim
  | _ => trivial

/-- Without duplicates on the way, a call starts at most one fiber and gets at most one message
back, all at the node that was called, and resumes its caller at most once. -/
theorem called_once {acts : List Act} (once : Run.Along step Once start acts) {c : Call}
    (called : c ∈ (run acts).calls) :
    (∀ n, ((run acts).nodes n).started.count (.peer c.node, c.msgid) ≤ if n = c.dst then 1 else 0) ∧
      (∀ n, (((run acts).nodes n).repliesTo c.node c.msgid).length ≤ if n = c.dst then 1 else 0) ∧
      ((run acts).nodes c.node).resumptions.countP (fun r => r.stimulus.msgid = c.msgid) ≤ 1 := by
  obtain ⟨larger, along, refines⟩ := run_refines
    (fun v large => v.Fresh large ∧ Exchange.Single large) (fun _ _ once => once.1)
    (fun _ _ _ refines once large member =>
      ⟨refines.larger_fresh once.1 large member, larger_single once.2 large member⟩) once
  obtain ⟨agrees, rationed, addressed⟩ := Run.holds_after
    (fun v : Exchange => v.Agrees ∧ v.Rationed ∧ ∀ n, (v.nodes n).Addressed)
    (fun v large => v.Fresh large ∧ Exchange.Single large)
    ⟨Exchange.start_agrees, Exchange.start_rationed, by rintro _ _ ⟨⟩⟩
    (fun _ act inv met => ⟨inv.1.step met.1, inv.2.1.step inv.1 met.2,
      Exchange.step_addressed inv.1 inv.2.2 act⟩) along
  rw [← refines.calls] at called
  obtain ⟨starts, replies, resumes⟩ := rationed.called agrees addressed called
  refine ⟨fun n => refines.started_eq n ▸ starts n, fun n => ?_, refines.resumptions_eq c.node ▸ resumes⟩
  have one := replies n
  unfold Fabric.repliesTo at one ⊢
  rw [← refines.sent_eq]
  exact one

/-- Two nodes call a third under one msgid; packets overtake each other, and a response is lost. -/
theorem called_once_apart :
    let acts := [.inner 1 (.spawn 0 (some 3)), .inner 2 (.spawn 0 (some 3)),
      .inner 1 (.yield 3 1001 50 0), .inner 2 (.yield 3 1001 50 0), .inner 1 (.write 0),
      .inner 1 (.write 0), .inner 1 (.write 0), .post 1 0 9, .inner 2 (.write 0), .inner 2 (.write 0),
      .inner 2 (.write 0), .post 2 0 9, .inner 1 (.posted 0), .deliver 1 1 (some 4) false,
      .deliver 0 1 (some 6) false, .inner 9 (.finish 4), .inner 9 (.error 6), .lose 0,
      .deliver 0 0 none false, .inner 1 (.copy 0 true)]
    (∀ n, ((run acts).nodes n).started.count (.peer 1, 1001) ≤ if n = 9 then 1 else 0) ∧
      (∀ n, (((run acts).nodes n).repliesTo 1 1001).length ≤ if n = 9 then 1 else 0) ∧
      ((run acts).nodes 1).resumptions.countP (fun r => r.stimulus.msgid = 1001) ≤ 1 := by
  intro acts
  have called : (⟨1, 0, 1001, 9⟩ : Call) ∈ (run acts).calls := by decide
  have single : Run.Along step (fun _ act => Single act) start acts := by decide
  exact called_once ((clean_of_below (n := 2) (by decide) (by decide)).and single) called

/-! ## No call is lost -/

end World

namespace Threads

def Heard (s : Threads) : Event → Prop
  | .copy t mem =>
      mem = true ∧ ∀ taken ∈ (s.busy t).bind (Work.taken s.elems), Fabric.resumes taken.2 = true
  | _ => True

instance (s : Threads) (event : Event) : Decidable (s.Heard event) := by
  unfold Heard
  split <;> infer_instance

/-- A fiber is about to be resumed from its yield under the msgid, or has been. -/
def Settled (s : Threads) (msgid : ℕ) : Prop :=
  (∃ t e stimulus, s.busy t = some (.copying e stimulus) ∧ stimulus.msgid = msgid) ∨
    (∃ t f stimulus, (f, stimulus) ∈ s.fque t ∧ stimulus.msgid = msgid) ∨
      ∃ r ∈ s.resumptions, r.stimulus.msgid = msgid

variable {c : Threads} {s : Atomic}

theorem Refines.heard (refines : c.Refines s) {event : Event} (heard : c.Heard event) :
    ∀ large ∈ c.larger event, s.Heard large := by
  intro large member
  cases larger_amounts member with
  | copy t mem =>
      refine ⟨heard.1, ?_⟩
      rw [refines.busy_eq]
      exact heard.2
  | _ => trivial

theorem Refines.settled (refines : c.Refines s) {msgid : ℕ} (settled : s.Settled msgid) :
    c.Settled msgid := by
  unfold Atomic.Settled at settled
  have fque : s.fque = c.fque := congrArg Fabric.fque refines.large
  have resumptions : s.resumptions = c.resumptions := congrArg Fabric.resumptions refines.large
  rw [refines.busy_eq, fque, resumptions] at settled
  refine settled.imp_left ?_
  rintro ⟨t, f, stimulus, held, same⟩
  unfold hand at held
  cases given : c.busy t with
  | none =>
      rw [given] at held
      cases held
  | some w =>
      rw [given] at held
      cases w with
      | copying e stimulus =>
          cases held
          exact ⟨t, e, _, given, same⟩
      | _ => cases held

end Threads

namespace World

variable {w : World} {v : Exchange}

def finds (w : World) (got : Option ℕ) (p : Packet) : Bool :=
  match p.message with
  | .request _ => got.any fun f => !((w.nodes p.dst).fibers f).live
  | _ => true

/-- Nothing is lost: what was removed finds memory, and a request a fiber. -/
def Lossless (w : World) : Act → Prop
  | .inner node event => (w.nodes node).Heard event
  | .deliver i _ got _ => (w.wire[i]?).all (w.finds got) = true
  | .lose _ => False
  | _ => True

instance (w : World) (act : Act) : Decidable (w.Lossless act) := by
  unfold Lossless
  split <;> infer_instance

theorem Refines.finds (refines : w.Refines v) (got : Option ℕ) : v.finds got = w.finds got := by
  funext p
  unfold Exchange.finds World.finds
  have live (f : ℕ) : ((v.nodes p.dst).fibers f).live = ((w.nodes p.dst).fibers f).live := by
    rw [(refines.nodes p.dst).fibers_eq, Threads.view_live]
  cases p.message with
  | request msgid => simp only [live]
  | response msgid => rfl
  | other => rfl

theorem Refines.lossless (refines : w.Refines v) {act : Act} (lossless : w.Lossless act) :
    ∀ large ∈ w.larger act, v.Lossless large := by
  intro large member
  cases larger_amounts member with
  | inner there => exact (refines.nodes _).heard lossless _ there
  | deliver i t got back =>
      change (v.wire[i]?).all (v.finds got) = true
      rw [refines.wire, refines.finds]
      exact lossless
  | lose i => exact lossless.elim
  | _ => trivial

/-- Where nothing is lost no call is forgotten, in whatever order and however often packets
arrive: the request is on the way, or a fiber that was started for it is live, or the response is
on the way, or the caller's yield is settled. -/
theorem never_forgotten {acts : List Act}
    (along : Run.Along step (fun w act => w.Clean act ∧ w.Lossless act) start acts) {c : Call}
    (called : c ∈ (run acts).calls) :
    ⟨c.node, c.dst, .request c.msgid⟩ ∈ (run acts).wire ∨
      (∃ f, let fiber := ((run acts).nodes c.dst).fibers f
        fiber.live = true ∧ fiber.endp = .peer c.node ∧ fiber.msgid = c.msgid) ∨
      ⟨c.dst, c.node, .response c.msgid⟩ ∈ (run acts).wire ∨
      ((run acts).nodes c.node).Settled c.msgid := by
  obtain ⟨larger, along, refines⟩ := run_refines
    (fun v large => v.Fresh large ∧ v.Lossless large) (fun _ _ met => met.1)
    (fun _ _ _ refines met large member =>
      ⟨refines.larger_fresh met.1 large member, refines.lossless met.2 large member⟩) along
  have kept := Run.holds_after Exchange.Kept (fun v large => v.Fresh large ∧ v.Lossless large)
    Exchange.start_kept (fun _ _ kept met => kept.step met.1 met.2) along
  rw [← refines.calls] at called
  rw [← refines.wire]
  rcases kept.found called with request | ⟨f, live, endp, msgid⟩ | response | settled
  · exact .inl request
  · refine .inr (.inl ⟨f, ?_⟩)
    obtain ⟨_, same⟩ := ((run acts).nodes c.dst).view_eq f
    rw [(refines.nodes c.dst).fibers_eq, same] at live endp msgid
    exact ⟨live, endp, msgid⟩
  · exact .inr (.inr (.inl response))
  · exact .inr (.inr (.inr ((refines.nodes c.node).settled settled)))

/-- The request comes twice and is answered with an error first; that response comes twice too,
and the fiber for the second request is live. -/
theorem never_forgotten_twice :
    let acts := [.inner 1 (.spawn 0 (some 3)), .inner 1 (.yield 3 1001 50 0), .inner 1 (.write 0),
      .inner 1 (.write 0), .inner 1 (.write 0), .post 1 0 2, .inner 1 (.posted 0), .duplicate 0,
      .deliver 1 1 (some 4) false, .deliver 0 1 (some 6) false, .inner 2 (.error 4), .duplicate 0,
      .deliver 0 1 none false, .inner 1 (.copy 1 true), .deliver 0 0 none false]
    (⟨1, 2, .request 1001⟩ : Packet) ∈ (run acts).wire ∨
      (∃ f, let fiber := ((run acts).nodes 2).fibers f
        fiber.live = true ∧ fiber.endp = .peer 1 ∧ fiber.msgid = 1001) ∨
      ⟨2, 1, .response 1001⟩ ∈ (run acts).wire ∨ ((run acts).nodes 1).Settled 1001 := by
  intro acts
  have called : (⟨1, 0, 1001, 2⟩ : Call) ∈ (run acts).calls := by decide
  have lossless : Run.Along step Lossless start acts := by decide
  exact never_forgotten ((clean_of_below (n := 2) (by decide) (by decide)).and lossless) called

end World

end Cyue.Fibers
