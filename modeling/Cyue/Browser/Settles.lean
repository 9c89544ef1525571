import Cyue.Browser.Pending

/-!
# Calls settle once

As long as no response comes for a call that is not pending or has not left the client,
no call times out in a queue, and nothing is sent over a socket that is still connecting,
the callback of each call is called exactly once, nothing is sent for it later, and no
handler throws.
-/

namespace Cyue.Browser

open Cyue.Throwing Cyue.Run

def Message.replied : Message → Bool
  | .request _ | .accept _ _ => true
  | .response _ _ | .other => false

namespace Client

variable {κ : Type*} [DecidableEq κ]

/-! ## Messages -/

/-- A frame whose messages can be handled: each response answers a call that is pending and has
left the client, a reply that goes out at once finds a connection whose socket can send, and so
does the answer `accept__` that establishes it. -/
structure Expected (c : κ) (messages : List Message) (d : Client κ) : Prop where
  nodup : (messages.filterMap Message.answers).Nodup
  waited : ∀ m ∈ messages.filterMap Message.answers, (∃ e, d.table m = some e) ∧ d.Away m
  replies : (∃ msg ∈ messages, msg.replied) →
    (d.conns c).lastSent + packetSendCheckSpan < d.now →
    (d.conns c).state ≠ .closed ∧ (d.conns c).socket.takes
  accepts : (∃ m, .accept m true ∈ messages) →
    (d.conns c).state = .waitAccept → (d.conns c).socket.takes

omit [DecidableEq κ] in
theorem Expected.tail {c : κ} {msg : Message} {rest : List Message} {d : Client κ}
    (expected : Expected c (msg :: rest) d) : Expected c rest d where
  nodup := expected.nodup.sublist ((List.sublist_cons_self msg rest).filterMap _)
  waited := fun m mem => expected.waited m
    (((List.sublist_cons_self msg rest).filterMap Message.answers).subset mem)
  replies := fun ⟨msg', mem, replied⟩ =>
    expected.replies ⟨msg', List.mem_cons_of_mem _ mem, replied⟩
  accepts := fun ⟨m, mem⟩ => expected.accepts ⟨m, List.mem_cons_of_mem _ mem⟩

omit [DecidableEq κ] in
theorem Expected.grows {v : Stage κ} {c : κ} {messages : List Message} {d d' : Client κ}
    (expected : Expected c messages d) (inv : Inv v d) (mem : c ∈ d.hosts) (grows : Grows d d') :
    Expected c messages d' where
  nodup := expected.nodup
  waited := by
    intro m answered
    obtain ⟨⟨e, found⟩, away⟩ := expected.waited m answered
    exact ⟨⟨e, grows.kept m e found⟩, grows.away m (inv.issued m e found).2 away⟩
  replies := by
    intro replied late
    rw [grows.last c mem, grows.now] at late
    obtain ⟨up, ready⟩ := expected.replies replied late
    exact grows.takes c mem up ready
  accepts := by
    intro granted state
    have state := grows.phase c mem state
    exact (grows.takes c mem (state ▸ nofun) (expected.accepts granted state)).2

omit [DecidableEq κ] in
theorem Expected.settle {c : κ} {m : ℕ} {failed : Bool} {rest : List Message} {d : Client κ}
    (expected : Expected c (.response m failed :: rest) d) (r : Result) :
    Expected c rest (d.settle m r) :=
  have nodup : m ∉ rest.filterMap Message.answers := (List.nodup_cons.mp expected.nodup).1
  { expected.tail with
    waited := by
      intro m' answered
      obtain ⟨⟨e, found⟩, away⟩ := expected.tail.waited m' answered
      refine ⟨⟨e, ?_⟩, away⟩
      rw [table_settle_of_ne, found]
      rintro rfl
      exact nodup answered }

theorem Moves.accept {d₀ d : Client κ} {t : ℕ} {c : κ} {granted : Bool}
    (moves : Moves (.idle t) d₀ d) (mem : c ∈ d.hosts)
    (ready : granted = true → (d.conns c).state = .waitAccept → (d.conns c).socket.takes)
    (page : Page κ) : Yields (d.accept page c granted) (Moves (.idle t) d₀) := by
  unfold Client.accept
  split
  · rename_i granted
    split
    · rename_i state
      exact moves.establish_true mem (state ▸ nofun) (ready granted state) page
    · exact yields_ok moves
  · exact moves.close

/-- The reply to a request. -/
theorem Moves.reply {d₀ d : Client κ} {t : ℕ} {c : κ} (moves : Moves (.idle t) d₀ d) (m : ℕ)
    (ready : (d.conns c).lastSent + packetSendCheckSpan < d.now → (d.conns c).socket.takes) :
    Yields (d.sendNocheck c (.response m)) (Moves (.idle t) d₀) :=
  moves.sendNocheck nofun nofun ready

theorem Inv.recvMessage {d : Client κ} {t : ℕ} {c : κ} {msg : Message} {rest : List Message}
    (inv : Inv (.idle t) d) (mem : c ∈ d.hosts) (expected : Expected c (msg :: rest) d)
    (page : Page κ) :
    Yields (recvMessage page c d msg) fun d' =>
      Inv (.idle t) d' ∧ c ∈ d'.hosts ∧ Expected c rest d' := by
  have done : ∀ d', Moves (.idle t) d d' →
      Inv (.idle t) d' ∧ c ∈ d'.hosts ∧ Expected c rest d' := fun d' moves =>
    ⟨moves.1, moves.2.hosts c mem, expected.tail.grows inv mem moves.2⟩
  have ready : msg.replied → ∀ d', Moves (.idle t) d d' →
      (d'.conns c).lastSent + packetSendCheckSpan < d'.now → (d'.conns c).socket.takes :=
    fun replied d' moves late =>
      ((expected.grows inv mem moves.2).replies ⟨msg, List.mem_cons_self .., replied⟩ late).2
  cases msg with
  | response m failed =>
      obtain ⟨⟨e, found⟩, away⟩ := expected.waited m (List.mem_cons_self ..)
      refine (inv.answer found away page c _).weaken fun d' moves => ⟨moves.1, ?_, ?_⟩
      · exact moves.2.hosts c mem
      · exact (expected.settle _).grows (inv.settle found away _) mem moves.2
  | request m =>
      refine (Moves.useAll ⟨inv, .refl d⟩ _).bind fun d₁ moves => ?_
      exact (moves.reply m (ready rfl d₁ moves)).weaken done
  | accept m granted =>
      refine (Moves.useAll ⟨inv, .refl d⟩ _).bind fun d₁ moves => ?_
      have accepted := moves.accept (moves.2.hosts c mem) (fun granted =>
        (expected.grows inv mem moves.2).accepts ⟨m, granted ▸ List.mem_cons_self ..⟩) page
      refine accepted.bind fun d₂ moves => ?_
      exact (moves.reply m (ready rfl d₂ moves)).weaken done
  | other => exact yields_ok (done d ⟨inv, .refl d⟩)

theorem Inv.recv {d : Client κ} {t : ℕ} {c : κ} {messages : List Message} (inv : Inv (.idle t) d)
    (mem : c ∈ d.hosts) (expected : Expected c messages d) (page : Page κ) :
    Yields (d.recv page c messages) (Inv (.idle t)) := by
  refine (yields_foldlM (fun rest d => Inv (.idle t) d ∧ c ∈ d.hosts ∧ Expected c rest d) ?_
    ⟨inv, mem, expected⟩).weaken fun d' holds => holds.1
  rintro msg rest d' ⟨inv, mem, expected⟩
  exact inv.recvMessage mem expected page

/-! ## The timer -/

/-- What the first function of the timer may do: it empties write buffers. -/
structure Flushed (d d' : Client κ) : Prop where
  table : d'.table = d.table
  seed : d'.seed = d.seed
  conns : ∀ c, d'.conns c = d.conns c ∨ d'.conns c = { d.conns c with wbuf := [] }

def FlushDue (d : Client κ) (c : κ) : Prop :=
  (d.conns c).lastSent + packetSendCheckSpan ≤ d.now

instance decidableFlushDue (d : Client κ) (c : κ) : Decidable (d.FlushDue c) :=
  inferInstanceAs (Decidable (_ ≤ _))

omit [DecidableEq κ] in
theorem Flushed.fields {d d' : Client κ} (flushed : Flushed d d') (c : κ) :
    (d'.conns c).lastSent = (d.conns c).lastSent ∧ (d'.conns c).sendQ = (d.conns c).sendQ := by
  rcases flushed.conns c with same | same
  · rw [same]
    exact ⟨rfl, rfl⟩
  · rw [same]
    exact ⟨rfl, rfl⟩

/-- The state in the loop of the first function, with the connections still to come. -/
structure Flushing (v : Stage κ) (d : Client κ) (rest : List κ) (d' : Client κ) : Prop where
  moves : Moves v d d'
  flushed : Flushed d d'
  inside : ∀ c ∈ rest, c ∈ d.hosts
  emptied : ∀ c ∈ d.hosts, d.FlushDue c → c ∈ rest ∨ (d'.conns c).wbuf = []

theorem Flushing.round {v : Stage κ} {d d' : Client κ} {c : κ} {rest : List κ}
    (flushing : Flushing v d (c :: rest) d')
    (ready : ∀ c ∈ d.hosts, d.FlushDue c → (d.conns c).wbuf ≠ [] → (d.conns c).socket.takes) :
    Yields (if d'.FlushDue c then d'.rawsend c else .ok d') (Flushing v d rest) := by
  obtain ⟨moves, flushed, inside, emptied⟩ := flushing
  have due : d'.FlushDue c ↔ d.FlushDue c := by
    unfold FlushDue
    rw [(flushed.fields c).1, moves.2.now]
  split
  · rename_i late
    have takes : (d'.conns c).wbuf ≠ [] → (d'.conns c).socket.takes := by
      intro filled
      rcases flushed.conns c with same | same
      · rw [same] at filled ⊢
        exact ready c (inside c (List.mem_cons_self ..)) (due.mp late) filled
      · exact absurd (congrArg Connection.wbuf same) filled
    obtain ⟨packets, _, run⟩ := rawsend_eq takes
    have moves := moves.rawsend takes
    rw [run] at moves ⊢
    refine yields_ok ⟨moves.holds, ⟨flushed.table, flushed.seed, ?_⟩, ?_, ?_⟩
    · intro c'
      rcases eq_or_ne c' c with rfl | ne
      · rw [conns_setConn_self]
        rcases flushed.conns c' with same | same
        · exact .inr (by rw [same])
        · exact .inr (by rw [same])
      · rw [conns_setConn_of_ne _ _ ne]
        exact flushed.conns c'
    · exact fun c' mem => inside c' (List.mem_cons_of_mem _ mem)
    · intro c' mem late'
      rcases eq_or_ne c' c with rfl | ne
      · rw [conns_setConn_self]
        exact .inr rfl
      · rw [conns_setConn_of_ne _ _ ne]
        exact (emptied c' mem late').imp_left (List.mem_of_ne_of_mem ne)
  · rename_i early
    refine yields_ok ⟨moves, flushed, fun c' mem => inside c' (List.mem_cons_of_mem _ mem), ?_⟩
    intro c' mem late
    refine (emptied c' mem late).imp_left (List.mem_of_ne_of_mem ?_)
    rintro rfl
    exact early (due.mpr late)

theorem Inv.flush {v : Stage κ} {d : Client κ} (inv : Inv v d)
    (ready : ∀ c ∈ d.hosts, d.FlushDue c → (d.conns c).wbuf ≠ [] → (d.conns c).socket.takes) :
    Yields d.flush fun d' => Moves v d d' ∧ Flushed d d' ∧
      ∀ c ∈ d.hosts, d.FlushDue c → (d'.conns c).wbuf = [] := by
  have start : Flushing v d d.hosts d :=
    ⟨⟨inv, .refl d⟩, ⟨rfl, rfl, fun _ => .inl rfl⟩, fun _ => id, fun c mem _ => .inl mem⟩
  refine (yields_foldlM (Flushing v d) (fun c rest d' flushing => flushing.round ready) start
    ).weaken fun d' flushing => ⟨flushing.moves, flushing.flushed, fun c mem due => ?_⟩
  exact (flushing.emptied c mem due).resolve_left List.not_mem_nil

/-- The state in the loop of the second function; calls that have timed out are still to come
and wait nowhere. -/
structure Checking (t : ℕ) (d : Client κ) (rest : List ℕ) (d' : Client κ) : Prop where
  inv : Inv ⟨fun _ => none, t, d.now⟩ d'
  now : d'.now = d.now
  due : ∀ m e, d'.table m = some e → e.limit ≤ d.now → m ∈ rest ∧ d'.Away m
  seed : d.seed ≤ d'.seed
  old : ∀ m < d.seed, ∀ e, d'.table m = some e → d.table m = some e

theorem Checking.round {t : ℕ} {d d' : Client κ} {m : ℕ} {rest : List ℕ}
    (checking : Checking t d (m :: rest) d') (page : Page κ) :
    Yields
      (match d'.table m with
        | some e => if e.limit ≤ d'.now then d'.raise page m .timeout else .ok d'
        | none => .ok d')
      (Checking t d rest) := by
  obtain ⟨inv, now, due, seed, old⟩ := checking
  have later : (∀ e, d'.table m = some e → ¬ e.limit ≤ d.now) → Checking t d rest d' :=
    fun early => ⟨inv, now, fun m' e found late => by
      obtain ⟨mem, away⟩ := due m' e found late
      refine ⟨List.mem_of_ne_of_mem ?_ mem, away⟩
      rintro rfl
      exact early e found late, seed, old⟩
  split
  · rename_i e found
    split
    · rename_i late
      have away := (due m e found (now ▸ late)).2
      refine (inv.raise found away page .timeout).weaken ?_
      rintro d'' ⟨inv', grows⟩
      have of_table : ∀ m' e', d''.table m' = some e' →
          (m' ≠ m ∧ d'.table m' = some e') ∨ d'.seed ≤ m' ∧ d.now < e'.limit := by
        intro m' e' found
        rcases grows.born m' e' found with found | ⟨le, lt⟩
        · exact .inl (table_of_settle found)
        · exact .inr ⟨le, now ▸ lt⟩
      refine ⟨inv', grows.now.trans now, ?_, seed.trans grows.seed, ?_⟩
      · intro m' e' found late
        rcases of_table m' e' found with ⟨ne, found⟩ | ⟨_, early⟩
        · obtain ⟨mem, away⟩ := due m' e' found late
          exact ⟨List.mem_of_ne_of_mem ne mem, grows.away m' (inv.issued m' e' found).2 away⟩
        · exact absurd late (not_le.mpr early)
      · intro m' lt e' found
        rcases of_table m' e' found with ⟨_, found⟩ | ⟨le, _⟩
        · exact old m' lt e' found
        · exact absurd lt (not_lt.mpr (seed.trans le))
    · rename_i early
      refine yields_ok (later fun e' found' late => early ?_)
      obtain rfl := Option.some.inj (found.symm.trans found')
      exact now ▸ late
  · rename_i none
    exact yields_ok (later fun e found => nomatch none.symm.trans found)

/-- What the second function of the timer does; behind it no call is pending that has timed
out, if it has looked. -/
theorem Inv.checkTimeouts {t : ℕ} {d : Client κ} (inv : Inv (.idle t) d)
    (away : t + timeoutCheckSpan ≤ d.now →
      ∀ m e, d.table m = some e → e.limit ≤ d.now → d.Away m) (page : Page κ) :
    Yields (d.checkTimeouts page) fun d' => Inv (.idle d'.lastCheck) d' ∧
      (t + timeoutCheckSpan ≤ d.now → d'.lastCheck = d.now) ∧ d.seed ≤ d'.seed ∧
      ∀ m < d.seed, ∀ e, d'.table m = some e → d.table m = some e := by
  have check : d.lastCheck = t := inv.check
  unfold Client.checkTimeouts
  split
  · rename_i early
    refine yields_ok ⟨check.symm ▸ inv, ?_, le_rfl, fun _ _ _ => id⟩
    exact fun due => absurd (check ▸ early) (not_lt.mpr due)
  · rename_i looks
    have due : t + timeoutCheckSpan ≤ d.now := check ▸ not_lt.mp looks
    have start : Checking t d (List.range d.seed) { d with lastCheck := d.now } := by
      refine ⟨{ inv with check := rfl }, rfl, ?_, le_rfl, fun _ _ _ => id⟩
      intro m e found late
      exact ⟨List.mem_range.mpr (inv.issued m e found).2, away due m e found late⟩
    refine (yields_foldlM (Checking t d) (fun m rest d' checking => checking.round page) start
      ).weaken fun d' checking => ?_
    have looked : d'.lastCheck = d.now := checking.inv.check
    refine ⟨?_, fun _ => looked, checking.seed, checking.old⟩
    rw [looked]
    exact {
      checking.inv with
      limits := by
        intro m e found
        obtain ⟨mem, low, high, _⟩ := checking.inv.limits m e found
        refine ⟨mem, low, high, not_le.mp fun late => ?_⟩
        exact List.not_mem_nil (checking.due m e found late).1
      passed := checking.now.ge }

/-! ## Runs -/

/-- What the client relies on: a frame can be handled, the timer flushes no buffer into a socket
that is still connecting, and no call times out in a queue. -/
def Heeds (d : Client κ) : Act κ → Prop
  | .message c _ messages => Expected c messages d
  | .timer =>
      (∀ c ∈ d.hosts, d.FlushDue c → (d.conns c).wbuf ≠ [] → (d.conns c).socket.takes) ∧
        (d.lastCheck + timeoutCheckSpan ≤ d.now →
          ∀ m e, d.table m = some e → e.limit ≤ d.now → m ∉ (d.conns e.conn).sendQ)
  | _ => True

omit [DecidableEq κ] in
theorem inv_init : Inv (.idle 0) (init : Client κ) where
  waits := by
    intro c
    constructor
    · rintro m (mem | mem)
      · exact nomatch mem
      · exact nomatch mem
    · exact List.nodup_nil
    · exact nofun
  wired := fun _ => ⟨nofun, fun begun => absurd rfl begun, fun _ made => absurd rfl made⟩
  past := fun _ => le_rfl
  positive := Nat.zero_lt_one
  issued := nofun
  limits := nofun
  settled := by
    intro m
    apply iff_of_false
    · exact fun found => nomatch found.choose_spec
    · exact fun ⟨pos, lt, _⟩ => absurd pos (Nat.lt_one_iff.mp lt).le.not_gt
  ordered := .nil
  passed := le_rfl
  check := rfl
  quiet := rfl

theorem Inv.setReady {t : ℕ} {d : Client κ} {c : κ} {n : ℕ} {r : Ready} (inv : Inv (.idle t) d)
    (made : (d.conns c).sockets n ≠ .none) (takes : r.takes) :
    Inv (.idle t) (d.setReady c n r) := by
  apply inv.setConn (fun _ _ => rfl) rfl rfl
  · exact inv.waits c
  · exact (inv.wired c).setSocket made takes
  · rfl

omit [DecidableEq κ] in
theorem Inv.pass {t : ℕ} {d : Client κ} (inv : Inv (.idle t) d) (time : ℕ) :
    Inv (.idle t) { d with now := d.now + time } :=
  have le : d.now ≤ d.now + time := Nat.le_add_right _ _
  { inv with
    past := fun c => (inv.past c).trans le
    limits := by
      intro m e found
      obtain ⟨mem, low, high, later⟩ := inv.limits m e found
      exact ⟨mem, low, high.trans (Nat.add_le_add_right le _), later⟩
    passed := inv.passed.trans le }

theorem Inv.opened {t : ℕ} {d : Client κ} {c : κ} {n : ℕ} (inv : Inv (.idle t) d)
    (connecting : (d.conns c).sockets n = .connecting) :
    Inv (.idle t) ((d.setReady c n .opened).setState c .waitAccept) := by
  have made : (d.conns c).sockets n ≠ .none := by
    rw [connecting]
    exact nofun
  have inv : Inv (.idle t) (d.setReady c n .opened) := inv.setReady made rfl
  have there : ((d.setReady c n .opened).conns c).socket ≠ .none := by
    apply (inv.wired c).made n
    rw [Client.setReady, conns_setConn_self]
    have socket : ((d.conns c).setSocket n .opened).sockets n = .opened := Function.update_self ..
    rw [socket]
    exact nofun
  apply inv.setConn (fun _ _ => rfl) rfl rfl
  · exact inv.waits c
  · exact ⟨nofun, fun _ => there, (inv.wired c).made⟩
  · rfl

/-- Both functions of the timer; a look at the table leaves no call that has timed out. -/
theorem Inv.timer {t : ℕ} {d : Client κ} (inv : Inv (.idle t) d) (heeds : Heeds d .timer)
    (page : Page κ) :
    Yields (d.handle page .timer) fun d' => Inv (.idle d'.lastCheck) d' ∧
      (t + timeoutCheckSpan ≤ d.now → d'.lastCheck = d.now) ∧ d.seed ≤ d'.seed ∧
      ∀ m < d.seed, ∀ e, d'.table m = some e → d.table m = some e := by
  obtain ⟨ready, unqueued⟩ := heeds
  refine (inv.flush ready).bind ?_
  rintro d₁ ⟨⟨inv₁, grows⟩, flushed, emptied⟩
  have away : t + timeoutCheckSpan ≤ d₁.now →
      ∀ m e, d₁.table m = some e → e.limit ≤ d₁.now → d₁.Away m := by
    intro due m e found late
    rw [grows.now] at due late
    rw [flushed.table] at found
    obtain ⟨mem, low, _⟩ := inv.limits m e found
    have own : ∀ c, m ∈ (d₁.conns c).sendQ ∨ .request m ∈ (d₁.conns c).wbuf → c = e.conn := by
      intro c waits
      obtain ⟨e', found', conn⟩ := (inv₁.waits c).pends m waits
      obtain rfl := Option.some.inj ((flushed.table ▸ found').symm.trans found)
      exact conn.symm
    intro c
    constructor
    · intro queued
      obtain rfl := own c (.inl queued)
      exact unqueued (inv.check.symm ▸ due) m e found late ((flushed.fields e.conn).2 ▸ queued)
    · intro written
      obtain rfl := own c (.inr written)
      have old : d.FlushDue e.conn :=
        (Nat.add_le_add_left (by decide) _).trans (low.trans late)
      exact List.not_mem_nil (emptied e.conn mem old ▸ written)
  refine (inv₁.checkTimeouts away page).weaken ?_
  rintro d' ⟨inv', looked, grown, old⟩
  rw [grows.now] at looked
  rw [flushed.seed, flushed.table] at old
  exact ⟨inv', looked, grows.seed.trans grown, old⟩

theorem Inv.handle {t : ℕ} {d : Client κ} {a : Act κ} (inv : Inv (.idle t) d) (page : Page κ)
    (enabled : d.Enabled a) (heeds : Heeds d a) :
    Yields (d.handle page a) fun d' => Inv (.idle d'.lastCheck) d' := by
  have idle : ∀ d' : Client κ, Inv (.idle t) d' → Inv (.idle d'.lastCheck) d' := by
    intro d' inv'
    have check : d'.lastCheck = t := inv'.check
    exact check.symm ▸ inv'
  cases a with
  | pass time => exact yields_ok (idle _ (inv.pass time))
  | use u => exact (Moves.use ⟨inv, .refl d⟩ u).weaken fun d' moves => idle d' moves.1
  | opened c n => exact yields_ok (idle _ (inv.opened enabled.2))
  | message c n messages => exact (inv.recv enabled.1 heeds page).weaken idle
  | leaving c n =>
      have made : (d.conns c).sockets n ≠ .none := by
        rw [enabled.2]
        exact nofun
      exact yields_ok (idle _ (inv.setReady made rfl))
  | error c n => exact ((inv.setReady enabled.2.1 rfl).establish_false page c).weaken idle
  | closed c n =>
      refine ((inv.setReady enabled.2.1 rfl).establish_false page c).bind fun d₁ inv₁ => ?_
      exact (Moves.useAll ⟨inv₁, .refl d₁⟩ _).weaken fun d' moves => idle d' moves.1
  | timer => exact (inv.timer heeds page).weaken fun d' holds => holds.1

theorem step_of_yields {page : Page κ} {d : Client κ} {a : Act κ} (post : Client κ → Prop)
    (enabled : d.Enabled a) (yields : Yields (d.handle page a) post) : post (step page d a) := by
  obtain ⟨d', run, holds⟩ := yields
  rw [step, if_pos enabled, run]
  exact holds

theorem Inv.step {d : Client κ} {a : Act κ} (inv : Inv (.idle d.lastCheck) d) (page : Page κ)
    (heeds : Heeds d a) :
    Inv (.idle (step page d a).lastCheck) (step page d a) := by
  by_cases enabled : d.Enabled a
  · exact step_of_yields (fun d' => Inv (.idle d'.lastCheck) d') enabled
      (inv.handle page enabled heeds)
  · rw [Client.step, if_neg enabled]
    exact inv

/-- The callback of each call is called exactly once, and the call is pending until then;
nothing is sent for it later, and no handler has thrown. -/
structure Settled (d : Client κ) : Prop where
  once : ∀ m, 0 < m → m < d.seed →
    d.history.countP (Event.settles m) = if (d.table m).isSome then 0 else 1
  unsent : ∀ before after m r, d.history = before ++ .settled m r :: after → .sent m ∉ after
  quiet : d.faults = 0

omit [DecidableEq κ] in
theorem Inv.holds {v : Stage κ} {d : Client κ} (inv : Inv v d) : Settled d where
  once := by
    intro m pos lt
    obtain ⟨one, zero⟩ := count_settles inv.ordered m
    rw [inv.settled m] at one zero
    cases found : d.table m with
    | none => exact one ⟨pos, lt, found⟩
    | some e => exact zero fun settled => nomatch settled.2.2.symm.trans found
  unsent := by
    intro before after m r same mem
    have ordered := inv.ordered
    rw [same] at ordered
    have first := (List.pairwise_cons.mp (List.pairwise_append.mp ordered).2.1).1
    exact first _ mem rfl
  quiet := inv.quiet

/-- In every run in which the messages and the timer find what the client relies on, calls settle
once; and a call has settled when the timer runs as soon as it has timed out. -/
theorem calls_settle_once (page : Page κ) {acts : List (Act κ)}
    (along : Along (step page) Heeds init acts) :
    Settled (acts.foldl (step page) init) ∧
      ∀ time, defaultTimeout ≤ time →
        Heeds (step page (acts.foldl (step page) init) (.pass time)) .timer →
        ∀ m, 0 < m → m < (acts.foldl (step page) init).seed →
          ((acts ++ [Act.pass time, Act.timer]).foldl (step page) init).history.countP
            (Event.settles m) = 1 := by
  have inv := holds_after (fun d => Inv (.idle d.lastCheck) d) Heeds inv_init
    (fun d a inv heeds => inv.step page heeds) along
  refine ⟨inv.holds, ?_⟩
  intro time le heeds m pos lt
  rw [List.foldl_append]
  generalize acts.foldl (step page) init = d at inv heeds lt
  have passed : step page d (.pass time) = { d with now := d.now + time } := if_pos trivial
  rw [List.foldl_cons, List.foldl_cons, List.foldl_nil]
  rw [passed] at heeds ⊢
  have enabled : ({ d with now := d.now + time } : Client κ).Enabled .timer := trivial
  obtain ⟨inv', looked, grown, old⟩ :=
    step_of_yields _ enabled ((inv.pass time).timer heeds page)
  rw [inv'.holds.once m pos (lt.trans_le grown)]
  cases found : (step page { d with now := d.now + time } .timer).table m with
  | none => rfl
  | some e =>
      obtain ⟨_, _, high, _⟩ := inv.limits m e (old m lt e found)
      obtain ⟨_, _, _, later⟩ := inv'.limits m e found
      have due : d.lastCheck + timeoutCheckSpan ≤ d.now + time :=
        Nat.add_le_add inv.passed (le_trans (by decide) le)
      have late : d.now + time < e.limit := lt_of_eq_of_lt (looked due).symm later
      exact absurd (high.trans (Nat.add_le_add_left le _)) (not_le.mpr late)

def still : Page κ where
  callback := fun _ _ _ _ => []
  serve := fun _ _ _ => []
  onClose := fun _ _ => []

/-- Two calls on one connection that is accepted; the first is answered. -/
def answered : List (Act Unit) :=
  [.use (.openHost ()), .use (.call ()), .opened () 1, .message () 1 [.accept 1 true],
    .use (.call ()), .message () 1 [.response 1 false]]

theorem calls_settle_once_answered :
    Settled (answered.foldl (step still) init) ∧
      ((answered ++ [Act.pass 5000, Act.timer]).foldl (step still) init).history.countP
        (Event.settles 2) = 1 := by
  have along : Along (step still) Heeds init answered := by
    refine ⟨trivial, trivial, trivial, ?_, trivial, ?_, trivial⟩
    · exact ⟨List.nodup_nil, nofun, fun _ _ => ⟨nofun, rfl⟩, fun _ _ => rfl⟩
    · refine ⟨List.nodup_singleton 1, fun m mem => ?_, fun replied => ?_, fun _ _ => rfl⟩
      · obtain rfl := List.mem_singleton.mp mem
        exact ⟨⟨_, rfl⟩, fun c => by cases c; decide⟩
      · exact absurd replied (by decide)
  have heeds : Heeds (step still (answered.foldl (step still) init) (.pass 5000)) .timer :=
    ⟨fun _ _ _ _ => rfl, fun _ m e _ _ mem => by
      cases e
      exact nomatch mem⟩
  obtain ⟨settled, later⟩ := calls_settle_once still along
  exact ⟨settled, later 5000 le_rfl heeds 2 (by decide) (by decide)⟩

/-- A response that comes after the timeout throws and ends the loop of `recv`; and a call that
has timed out in the queue is sent all the same. -/
theorem timed_out_call_goes_on :
    ¬ (∀ (page : Page Unit) (acts : List (Act Unit)), (acts.foldl (step page) init).faults = 0) ∧
      ¬ ∀ (page : Page Unit) (acts : List (Act Unit)) before after m r,
        (acts.foldl (step page) init).history = before ++ .settled m r :: after →
          .sent m ∉ after := by
  constructor
  · intro quiet
    exact absurd (quiet still [.use (.openHost ()), .use (.call ()), .opened () 1,
      .message () 1 [.accept 1 true], .pass 6000, .timer,
      .message () 1 [.response 1 false, .request 2]]) (by decide)
  · intro unsent
    have run : ([.use (.openHost ()), .use (.call ()), .pass 6000, .timer, .opened () 1,
        .message () 1 [.accept 1 true]].foldl (step still) (init : Client Unit)).history =
          [.settled 1 .timeout, .sent 1] := by
      decide
    exact unsent still _ [] _ _ _ run (List.mem_singleton_self _)

end Client

end Cyue.Browser
