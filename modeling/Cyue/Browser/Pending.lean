import Cyue.Browser.Client
import Mathlib.Data.List.Nodup

/-!
# Pending calls

A call is pending from `call` until its callback is called, and while it waits it is in
the queue or in the write buffer of its own connection.  `Inv` says this of a client in
the middle of a handler; each function of the library keeps it, and does not throw as
long as nothing is sent over a socket that is still connecting.
-/

namespace Cyue.Browser

open Cyue.Throwing

def Event.msgid : Event → ℕ
  | .settled m _ | .sent m => m

def Event.settles (m : ℕ) : Event → Bool
  | .settled m' _ => m' = m
  | .sent _ => false

/-- Nothing is seen of a call after its callback was called. -/
def Event.Before : Event → Event → Prop
  | .settled m _, later => later.msgid ≠ m
  | .sent _, _ => True

theorem count_settles {history : List Event} (ordered : history.Pairwise Event.Before) (m : ℕ) :
    ((∃ r, Event.settled m r ∈ history) → history.countP (Event.settles m) = 1) ∧
      ((¬ ∃ r, Event.settled m r ∈ history) → history.countP (Event.settles m) = 0) := by
  have zero : ∀ {l : List Event}, (¬ ∃ r, Event.settled m r ∈ l) →
      l.countP (Event.settles m) = 0 := by
    intro l none
    apply List.countP_eq_zero.mpr
    rintro (⟨m', r⟩ | ⟨m'⟩) mem holds
    · obtain rfl : m' = m := of_decide_eq_true holds
      exact none ⟨r, mem⟩
    · exact nomatch holds
  refine ⟨?_, zero⟩
  induction history with
  | nil => exact fun found => nomatch found.choose_spec
  | cons e rest ih =>
      rintro ⟨r, mem⟩
      obtain ⟨first, ordered⟩ := List.pairwise_cons.mp ordered
      by_cases same : e.settles m
      · obtain ⟨r', rfl⟩ : ∃ r', e = .settled m r' := by
          rcases e with ⟨m', r'⟩ | ⟨m'⟩
          · obtain rfl : m' = m := of_decide_eq_true same
            exact ⟨r', rfl⟩
          · exact nomatch same
        have none : ¬ ∃ r, Event.settled m r ∈ rest := fun ⟨r, later⟩ => first _ later rfl
        rw [List.countP_cons_of_pos same, zero none]
      · rw [List.countP_cons_of_neg same]
        rcases List.mem_cons.mp mem with rfl | mem
        · exact absurd (decide_eq_true rfl) same
        · exact ih ordered ⟨r, mem⟩

theorem call_eq_some {p : Packet} {m : ℕ} : p.call = some m ↔ p = .request m := by
  cases p with
  | request m' =>
      constructor
      · intro same
        exact congrArg Packet.request (Option.some.inj same)
      · rintro ⟨⟩
        rfl
  | response _ => exact ⟨nofun, nofun⟩

/-! ## The state of one connection -/

/-- An established connection can send, and there is a socket unless it was never connected. -/
structure Wired (k : Connection) : Prop where
  up : k.state = .established → k.socket.takes
  begun : k.state ≠ .closed → k.socket ≠ .none
  made : ∀ n, k.sockets n ≠ .none → k.socket ≠ .none

theorem Wired.setSocket {k : Connection} {n : ℕ} {r : Ready} (wired : Wired k)
    (old : k.sockets n ≠ .none) (takes : r.takes) : Wired (k.setSocket n r) := by
  have made : r ≠ .none := by
    rintro rfl
    exact nomatch takes
  rcases eq_or_ne k.made n with rfl | ne
  · have socket : (k.setSocket k.made r).socket = r := Function.update_self ..
    exact ⟨fun _ => socket.symm ▸ takes, fun _ => socket.symm ▸ made,
      fun _ _ => socket.symm ▸ made⟩
  · have socket : (k.setSocket n r).socket = k.socket := Function.update_of_ne ne ..
    exact ⟨fun up => socket.symm ▸ wired.up up, fun begun => socket.symm ▸ wired.begun begun,
      fun _ _ => socket.symm ▸ wired.made n old⟩

/-- A call that waits in the queue or in the write buffer is pending, and is in one of them. -/
structure Waits {κ : Type*} (table : ℕ → Option (Entry κ)) (c : κ) (queue : List ℕ)
    (wbuf : List Packet) : Prop where
  pends : ∀ m, m ∈ queue ∨ .request m ∈ wbuf → ∃ e, table m = some e ∧ e.conn = c
  nodup : queue.Nodup
  apart : ∀ m ∈ queue, .request m ∉ wbuf

theorem Waits.shrink {κ : Type*} {table : ℕ → Option (Entry κ)} {c : κ} {queue queue' : List ℕ}
    {wbuf wbuf' : List Packet} (waits : Waits table c queue wbuf) (fewer : queue'.Sublist queue)
    (less : ∀ p ∈ wbuf', p ∈ wbuf) : Waits table c queue' wbuf' where
  pends := fun m found => waits.pends m (found.imp (fewer.subset ·) (less _ ·))
  nodup := waits.nodup.sublist fewer
  apart := fun m mem found => waits.apart m (fewer.subset mem) (less _ found)

namespace Client

variable {κ : Type*} [DecidableEq κ]

/-- What a handler that is running has left to do: the rest of a queue that it goes through,
the time up to which calls have timed out, and the time of the last check. -/
structure Stage (κ : Type*) where
  rest : κ → Option (List ℕ)
  passed : ℕ
  lastCheck : ℕ

def Stage.idle (lastCheck : ℕ) : Stage κ :=
  ⟨fun _ => none, lastCheck, lastCheck⟩

/-- The calls that are still going to be sent or failed by the connection. -/
def Stage.queue (v : Stage κ) (c : κ) (k : Connection) : List ℕ :=
  (v.rest c).getD k.sendQ

structure Inv (v : Stage κ) (d : Client κ) : Prop where
  waits : ∀ c, Waits d.table c (v.queue c (d.conns c)) (d.conns c).wbuf
  wired : ∀ c, Wired (d.conns c)
  past : ∀ c, (d.conns c).lastSent ≤ d.now
  positive : 0 < d.seed
  issued : ∀ m e, d.table m = some e → 0 < m ∧ m < d.seed
  limits : ∀ m e, d.table m = some e → e.conn ∈ d.hosts ∧
    (d.conns e.conn).lastSent + defaultTimeout ≤ e.limit ∧ e.limit ≤ d.now + defaultTimeout ∧
      v.passed < e.limit
  settled : ∀ m, (∃ r, .settled m r ∈ d.history) ↔ 0 < m ∧ m < d.seed ∧ d.table m = none
  ordered : d.history.Pairwise Event.Before
  passed : v.passed ≤ d.now
  check : d.lastCheck = v.lastCheck
  quiet : d.faults = 0

/-- A call that neither waits in a queue nor in a write buffer. -/
def Away (d : Client κ) (m : ℕ) : Prop :=
  ∀ c, m ∉ (d.conns c).sendQ ∧ .request m ∉ (d.conns c).wbuf

/-- What the code of the page and the sending of queued calls may do. -/
structure Grows (d d' : Client κ) : Prop where
  now : d'.now = d.now
  seed : d.seed ≤ d'.seed
  hosts : ∀ c ∈ d.hosts, c ∈ d'.hosts
  kept : ∀ m e, d.table m = some e → d'.table m = some e
  born : ∀ m e, d'.table m = some e → d.table m = some e ∨ d.seed ≤ m ∧ d.now < e.limit
  away : ∀ m < d.seed, d.Away m → d'.Away m
  last : ∀ c ∈ d.hosts, (d'.conns c).lastSent = (d.conns c).lastSent
  takes : ∀ c ∈ d.hosts, (d.conns c).state ≠ .closed → (d.conns c).socket.takes →
    (d'.conns c).state ≠ .closed ∧ (d'.conns c).socket.takes
  phase : ∀ c ∈ d.hosts, (d'.conns c).state = .waitAccept → (d.conns c).state = .waitAccept

omit [DecidableEq κ] in
theorem Grows.refl (d : Client κ) : Grows d d where
  now := rfl
  seed := le_rfl
  hosts := fun _ => id
  kept := fun _ _ => id
  born := fun _ _ => .inl
  away := fun _ _ => id
  last := fun _ _ => rfl
  takes := fun _ _ up takes => ⟨up, takes⟩
  phase := fun _ _ => id

omit [DecidableEq κ] in
theorem Grows.trans {d d' d'' : Client κ} (first : Grows d d') (second : Grows d' d'') :
    Grows d d'' where
  now := second.now.trans first.now
  seed := first.seed.trans second.seed
  hosts := fun c mem => second.hosts c (first.hosts c mem)
  kept := fun m e found => second.kept m e (first.kept m e found)
  born := by
    intro m e found
    rcases second.born m e found with found | ⟨le, later⟩
    · exact first.born m e found
    · exact .inr ⟨first.seed.trans le, first.now ▸ later⟩
  away := fun m lt away => second.away m (lt.trans_le first.seed) (first.away m lt away)
  last := fun c mem => (second.last c (first.hosts c mem)).trans (first.last c mem)
  takes := by
    intro c mem up takes
    obtain ⟨up, takes⟩ := first.takes c mem up takes
    exact second.takes c (first.hosts c mem) up takes
  phase := fun c mem state => first.phase c mem (second.phase c (first.hosts c mem) state)

/-- The invariant holds again, and only that was done since `d₀`. -/
def Moves (v : Stage κ) (d₀ d : Client κ) : Prop :=
  Inv v d ∧ Grows d₀ d

omit [DecidableEq κ] in
theorem Moves.rebase {v : Stage κ} {d₀ d d' : Client κ} (grows : Grows d₀ d)
    (moves : Moves v d d') : Moves v d₀ d' :=
  ⟨moves.1, grows.trans moves.2⟩

/-! ## One connection changes -/

@[simp] theorem conns_setConn_self (d : Client κ) (c : κ) (k : Connection) :
    (d.setConn c k).conns c = k :=
  Function.update_self ..

@[simp] theorem conns_setConn_of_ne (d : Client κ) {c c' : κ} (k : Connection) (ne : c' ≠ c) :
    (d.setConn c k).conns c' = d.conns c' :=
  Function.update_of_ne ne ..

theorem Inv.setConn {v v' : Stage κ} {d : Client κ} {c : κ} {k : Connection} (inv : Inv v d)
    (others : ∀ c' ≠ c, v'.rest c' = v.rest c') (passed : v'.passed = v.passed)
    (check : v'.lastCheck = v.lastCheck) (waits : Waits d.table c (v'.queue c k) k.wbuf)
    (wired : Wired k) (last : k.lastSent = (d.conns c).lastSent) : Inv v' (d.setConn c k) where
  waits := by
    intro c'
    rcases eq_or_ne c' c with rfl | ne
    · rw [conns_setConn_self]
      exact waits
    · rw [conns_setConn_of_ne d k ne, Stage.queue, others c' ne]
      exact inv.waits c'
  wired := by
    intro c'
    rcases eq_or_ne c' c with rfl | ne
    · rw [conns_setConn_self]
      exact wired
    · rw [conns_setConn_of_ne d k ne]
      exact inv.wired c'
  past := by
    intro c'
    rcases eq_or_ne c' c with rfl | ne
    · rw [conns_setConn_self, last]
      exact inv.past c'
    · rw [conns_setConn_of_ne d k ne]
      exact inv.past c'
  positive := inv.positive
  issued := inv.issued
  limits := by
    intro m e found
    obtain ⟨mem, low, high, later⟩ := inv.limits m e found
    refine ⟨mem, ?_, high, passed ▸ later⟩
    rcases eq_or_ne e.conn c with same | ne
    · rw [same, conns_setConn_self, last, ← same]
      exact low
    · rw [conns_setConn_of_ne d k ne]
      exact low
  settled := inv.settled
  ordered := inv.ordered
  passed := passed ▸ inv.passed
  check := inv.check.trans check.symm
  quiet := inv.quiet

theorem Grows.setConn {d₀ d : Client κ} {c : κ} {k : Connection} (grows : Grows d₀ d)
    (away : ∀ m < d₀.seed, d₀.Away m → m ∉ k.sendQ ∧ .request m ∉ k.wbuf)
    (last : k.lastSent = (d.conns c).lastSent)
    (takes : (d.conns c).state ≠ .closed → (d.conns c).socket.takes →
      k.state ≠ .closed ∧ k.socket.takes)
    (phase : k.state = .waitAccept → (d.conns c).state = .waitAccept) :
    Grows d₀ (d.setConn c k) where
  now := grows.now
  seed := grows.seed
  hosts := grows.hosts
  kept := grows.kept
  born := grows.born
  away := by
    intro m lt absent c'
    rcases eq_or_ne c' c with rfl | ne
    · rw [conns_setConn_self]
      exact away m lt absent
    · rw [conns_setConn_of_ne d k ne]
      exact grows.away m lt absent c'
  last := by
    intro c' mem
    rcases eq_or_ne c' c with rfl | ne
    · rw [conns_setConn_self, last]
      exact grows.last c' mem
    · rw [conns_setConn_of_ne d k ne]
      exact grows.last c' mem
  takes := by
    intro c' mem up ready
    obtain ⟨up, ready⟩ := grows.takes c' mem up ready
    rcases eq_or_ne c' c with rfl | ne
    · rw [conns_setConn_self]
      exact takes up ready
    · rw [conns_setConn_of_ne d k ne]
      exact ⟨up, ready⟩
  phase := by
    intro c' mem state
    rcases eq_or_ne c' c with rfl | ne
    · rw [conns_setConn_self] at state
      exact grows.phase c' mem (phase state)
    · rw [conns_setConn_of_ne d k ne] at state
      exact grows.phase c' mem state

/-! ## Sending -/

theorem ordered_append {history later : List Event} (before : history.Pairwise Event.Before)
    (after : later.Pairwise Event.Before)
    (fresh : ∀ e ∈ later, ¬ ∃ r, .settled e.msgid r ∈ history) :
    (history ++ later).Pairwise Event.Before := by
  refine List.pairwise_append.mpr ⟨before, after, ?_⟩
  rintro (⟨m, r⟩ | m) mem e later
  · intro same
    exact fresh e later ⟨r, same ▸ mem⟩
  · exact trivial

omit [DecidableEq κ] in
theorem Inv.transmit {v : Stage κ} {d : Client κ} {packets : List Packet} (inv : Inv v d)
    (pends : ∀ m, .request m ∈ packets → ∃ e, d.table m = some e) :
    Inv v (d.transmit packets) := by
  have sent : ∀ e ∈ (packets.filterMap Packet.call).map Event.sent,
      ∃ m, e = .sent m ∧ .request m ∈ packets := by
    intro e mem
    obtain ⟨m, called, rfl⟩ := List.mem_map.mp mem
    obtain ⟨p, packed, call⟩ := List.mem_filterMap.mp called
    exact ⟨m, rfl, call_eq_some.mp call ▸ packed⟩
  exact {
    inv with
    settled := by
      intro m
      change _ ↔ 0 < m ∧ m < d.seed ∧ d.table m = none
      rw [← inv.settled m]
      constructor
      · rintro ⟨r, mem⟩
        rcases List.mem_append.mp mem with mem | mem
        · exact ⟨r, mem⟩
        · obtain ⟨_, same, _⟩ := sent _ mem
          exact nomatch same
      · rintro ⟨r, mem⟩
        exact ⟨r, List.mem_append_left _ mem⟩
    ordered := by
      apply ordered_append inv.ordered
      · apply List.pairwise_map.mpr
        exact List.pairwise_of_forall fun _ _ => trivial
      · intro e mem found
        obtain ⟨m, rfl, packed⟩ := sent e mem
        obtain ⟨entry, pending⟩ := pends m packed
        obtain ⟨_, _, none⟩ := (inv.settled m).mp found
        exact nomatch none.symm.trans pending }

/-- `rawsend` empties the write buffer. -/
theorem rawsend_eq {d : Client κ} {c : κ}
    (ready : (d.conns c).wbuf ≠ [] → (d.conns c).socket.takes) :
    ∃ packets, (∀ p ∈ packets, p ∈ (d.conns c).wbuf) ∧
      d.rawsend c = .ok ((d.transmit packets).setConn c { d.conns c with wbuf := [] }) := by
  have none : d.transmit [] = d :=
    congrArg (fun history => { d with history := history }) (List.append_nil d.history)
  unfold Client.rawsend
  dsimp only
  split
  · rename_i empty
    refine ⟨[], nofun, ?_⟩
    have same : ({ d.conns c with wbuf := [] } : Connection) = d.conns c := by
      rw [← empty]
    rw [none, same, Client.setConn, Function.update_eq_self]
  · rename_i filled
    split
    · rename_i socket
      exact absurd (ready filled) (by rw [socket]; nofun)
    · rename_i socket
      exact absurd (ready filled) (by rw [socket]; nofun)
    · exact ⟨_, fun _ => id, rfl⟩
    · exact ⟨[], nofun, by rw [none]⟩
    · exact ⟨[], nofun, by rw [none]⟩

theorem Moves.rawsend {v : Stage κ} {d₀ d : Client κ} {c : κ} (moves : Moves v d₀ d)
    (ready : (d.conns c).wbuf ≠ [] → (d.conns c).socket.takes) :
    Yields (d.rawsend c) (Moves v d₀) := by
  obtain ⟨packets, sub, run⟩ := rawsend_eq ready
  rw [run]
  apply yields_ok
  have sent : Inv v (d.transmit packets) := by
    apply moves.1.transmit
    intro m mem
    obtain ⟨e, found, _⟩ := (moves.1.waits c).pends m (.inr (sub _ mem))
    exact ⟨e, found⟩
  have grows : Grows d₀ (d.transmit packets) := { moves.2 with }
  constructor
  · apply sent.setConn (fun _ _ => rfl) rfl rfl
    · exact (sent.waits c).shrink (List.Sublist.refl _) nofun
    · exact { sent.wired c with }
    · rfl
  · apply grows.setConn
    · exact fun m lt absent => ⟨(grows.away m lt absent c).1, nofun⟩
    · rfl
    · exact fun up takes => ⟨up, takes⟩
    · exact id

/-- A packet is appended, and goes out at once if the last flush is long ago. -/
theorem Moves.sendNocheck {v : Stage κ} {d₀ d : Client κ} {c : κ} {p : Packet}
    (moves : Moves v d₀ d)
    (pends : ∀ m, p = .request m →
      (∃ e, d.table m = some e ∧ e.conn = c) ∧ m ∉ v.queue c (d.conns c))
    (known : ∀ m < d₀.seed, p = .request m → ¬ d₀.Away m)
    (ready : (d.conns c).lastSent + packetSendCheckSpan < d.now → (d.conns c).socket.takes) :
    Yields (d.sendNocheck c p) (Moves v d₀) := by
  obtain ⟨inv, grows⟩ := moves
  have waits := inv.waits c
  have appended : Moves v d₀ (d.setConn c { d.conns c with wbuf := (d.conns c).wbuf ++ [p] }) := by
    constructor
    · apply inv.setConn (fun _ _ => rfl) rfl rfl
      · refine ⟨?_, waits.nodup, ?_⟩
        · rintro m (mem | mem)
          · exact waits.pends m (.inl mem)
          · rcases List.mem_append.mp mem with mem | mem
            · exact waits.pends m (.inr mem)
            · exact (pends m (List.mem_singleton.mp mem).symm).1
        · intro m mem found
          rcases List.mem_append.mp found with found | found
          · exact waits.apart m mem found
          · exact (pends m (List.mem_singleton.mp found).symm).2 mem
      · exact { inv.wired c with }
      · rfl
    · apply grows.setConn
      · intro m lt absent
        obtain ⟨unqueued, unwritten⟩ := grows.away m lt absent c
        refine ⟨unqueued, fun found => ?_⟩
        rcases List.mem_append.mp found with found | found
        · exact unwritten found
        · exact known m lt (List.mem_singleton.mp found).symm absent
      · rfl
      · exact fun up takes => ⟨up, takes⟩
      · exact id
  unfold Client.sendNocheck
  dsimp only
  split
  · exact yields_ok appended
  · rename_i late
    apply appended.rawsend
    intro _
    rw [conns_setConn_self]
    exact ready (not_le.mp late)

/-! ## What the page does -/

theorem Moves.connect {v : Stage κ} {d₀ d : Client κ} {c : κ} (moves : Moves v d₀ d) :
    Moves v d₀ (d.connect c) := by
  unfold Client.connect
  dsimp only
  split
  · rename_i closed
    have socket : ((d.conns c).setSocket ((d.conns c).made + 1) .connecting).sockets
        ((d.conns c).made + 1) = .connecting :=
      Function.update_self ..
    constructor
    · apply moves.1.setConn (fun _ _ => rfl) rfl rfl
      · exact moves.1.waits c
      · constructor
        · exact nofun
        · exact fun _ none => nomatch socket.symm.trans none
        · exact fun _ _ none => nomatch socket.symm.trans none
      · rfl
    · apply moves.2.setConn
      · exact fun m lt absent => moves.2.away m lt absent c
      · rfl
      · exact fun up => absurd closed up
      · exact nofun
  · exact moves

theorem Moves.send {v : Stage κ} {d₀ d : Client κ} {c : κ} {m : ℕ} (moves : Moves v d₀ d)
    (pends : ∃ e, d.table m = some e ∧ e.conn = c) (fresh : m ∉ v.queue c (d.conns c))
    (unwritten : .request m ∉ (d.conns c).wbuf) (new : d₀.seed ≤ m) : Yields (d.send c m) (Moves v d₀) := by
  unfold Client.send
  dsimp only
  split
  · rename_i up
    apply moves.sendNocheck
    · rintro _ ⟨⟩
      exact ⟨pends, fresh⟩
    · rintro _ lt ⟨⟩
      exact absurd lt (not_lt.mpr new)
    · exact fun _ => (moves.1.wired c).up up
  · apply yields_ok
    apply Moves.connect
    obtain ⟨inv, grows⟩ := moves
    have waits := inv.waits c
    constructor
    · apply inv.setConn (fun _ _ => rfl) rfl rfl
      · unfold Stage.queue at waits fresh ⊢
        cases same : v.rest c with
        | some rest =>
            rw [same] at waits
            exact waits
        | none =>
            rw [same] at waits fresh
            refine ⟨?_, ?_, ?_⟩
            · rintro m' (mem | mem)
              · rcases List.mem_append.mp mem with mem | mem
                · exact waits.pends m' (.inl mem)
                · obtain rfl := List.mem_singleton.mp mem
                  exact pends
              · exact waits.pends m' (.inr mem)
            · exact List.nodup_append.mpr ⟨waits.nodup, List.nodup_singleton m,
                fun a mem b new same => fresh (by
                  rw [← List.mem_singleton.mp new, ← same]
                  exact mem)⟩
            · intro m' mem
              rcases List.mem_append.mp mem with mem | mem
              · exact waits.apart m' mem
              · obtain rfl := List.mem_singleton.mp mem
                exact unwritten
      · exact { inv.wired c with }
      · rfl
    · apply grows.setConn
      · intro m' lt absent
        obtain ⟨outside, unwritten⟩ := grows.away m' lt absent c
        refine ⟨fun mem => ?_, unwritten⟩
        rcases List.mem_append.mp mem with mem | mem
        · exact outside mem
        · exact absurd (List.mem_singleton.mp mem ▸ lt) (not_lt.mpr new)
      · rfl
      · exact fun up takes => ⟨up, takes⟩
      · exact id

omit [DecidableEq κ] in
theorem Inv.unissued {v : Stage κ} {d : Client κ} (inv : Inv v d) : d.table d.seed = none := by
  cases found : d.table d.seed with
  | none => rfl
  | some e => exact absurd (inv.issued _ e found).2 (lt_irrefl _)

omit [DecidableEq κ] in
theorem table_issue_self (d : Client κ) (e : Entry κ) : (d.issue e).table d.seed = some e :=
  Function.update_self ..

omit [DecidableEq κ] in
theorem table_issue_of_ne (d : Client κ) (e : Entry κ) {m : ℕ} (ne : m ≠ d.seed) :
    (d.issue e).table m = d.table m :=
  Function.update_of_ne ne ..

omit [DecidableEq κ] in
/-- A new call is entered into the table. -/
theorem Moves.issue {v : Stage κ} {d₀ d : Client κ} {e : Entry κ} (moves : Moves v d₀ d)
    (mem : e.conn ∈ d.hosts) (limit : e.limit = d.now + defaultTimeout) :
    Moves v d₀ (d.issue e) := by
  obtain ⟨inv, grows⟩ := moves
  have kept : ∀ m e', d.table m = some e' → (d.issue e).table m = some e' := by
    intro m e' found
    rw [table_issue_of_ne d e (inv.issued m e' found).2.ne, found]
  have timely : d.now < d.now + defaultTimeout := Nat.lt_add_of_pos_right (by decide)
  constructor
  · exact {
      inv with
      waits := fun c => {
        inv.waits c with
        pends := by
          intro m found
          obtain ⟨e', found, conn⟩ := (inv.waits c).pends m found
          exact ⟨e', kept m e' found, conn⟩ }
      positive := Nat.succ_pos _
      issued := by
        intro m e' found
        rcases eq_or_ne m d.seed with rfl | ne
        · exact ⟨inv.positive, Nat.lt_succ_self _⟩
        · rw [table_issue_of_ne d e ne] at found
          exact (inv.issued m e' found).imp_right Nat.lt_succ_of_lt
      limits := by
        intro m e' found
        rcases eq_or_ne m d.seed with rfl | ne
        · rw [table_issue_self] at found
          obtain rfl := Option.some.inj found
          rw [limit]
          exact ⟨mem, Nat.add_le_add_right (inv.past _) _, le_rfl, inv.passed.trans_lt timely⟩
        · rw [table_issue_of_ne d e ne] at found
          exact inv.limits m e' found
      settled := by
        intro m
        change _ ↔ 0 < m ∧ m < d.seed + 1 ∧ (d.issue e).table m = none
        refine (inv.settled m).trans ?_
        rcases eq_or_ne m d.seed with rfl | ne
        · rw [table_issue_self]
          exact iff_of_false (fun found => lt_irrefl _ found.2.1) (fun found => nomatch found.2.2)
        · rw [table_issue_of_ne d e ne]
          constructor
          · rintro ⟨pos, lt, none⟩
            exact ⟨pos, Nat.lt_succ_of_lt lt, none⟩
          · rintro ⟨pos, lt, none⟩
            exact ⟨pos, Nat.lt_of_le_of_ne (Nat.le_of_lt_succ lt) ne, none⟩ }
  · exact {
      grows with
      seed := Nat.le_succ_of_le grows.seed
      kept := fun m e' found => kept m e' (grows.kept m e' found)
      born := by
        intro m e' found
        rcases eq_or_ne m d.seed with rfl | ne
        · rw [table_issue_self] at found
          obtain rfl := Option.some.inj found
          exact .inr ⟨grows.seed, limit ▸ grows.now ▸ timely⟩
        · rw [table_issue_of_ne d e ne] at found
          exact grows.born m e' found }

theorem Moves.call {v : Stage κ} {d₀ d : Client κ} {c : κ} (moves : Moves v d₀ d)
    (mem : c ∈ d.hosts) : Yields (d.call c) (Moves v d₀) := by
  have absent : ¬ (d.seed ∈ v.queue c (d.conns c) ∨ .request d.seed ∈ (d.conns c).wbuf) := by
    intro found
    obtain ⟨e, found, _⟩ := (moves.1.waits c).pends _ found
    exact nomatch moves.1.unissued.symm.trans found
  apply (moves.issue mem rfl).send
  · exact ⟨_, table_issue_self d _, rfl⟩
  · exact fun found => absent (.inl found)
  · exact fun found => absent (.inr found)
  · exact moves.2.seed

theorem Moves.close {v : Stage κ} {d₀ d : Client κ} {c : κ} (moves : Moves v d₀ d) :
    Yields (d.close c) (Moves v d₀) := by
  unfold Client.close
  dsimp only
  split
  · exact yields_ok moves
  · rename_i begun
    split
    · rename_i none
      exact absurd none ((moves.1.wired c).begun begun)
    · exact yields_ok moves
    · obtain ⟨k, changed⟩ : ∃ k, k = (d.conns c).setSocket (d.conns c).made .closing := ⟨_, rfl⟩
      have socket : k.socket = .closing := changed ▸ Function.update_self ..
      have state : k.state = (d.conns c).state := changed ▸ rfl
      rw [← changed]
      apply yields_ok
      constructor
      · apply moves.1.setConn (fun _ _ => rfl) rfl rfl
        · exact changed ▸ moves.1.waits c
        · constructor
          · exact fun _ => socket ▸ rfl
          · exact fun _ none => nomatch socket.symm.trans none
          · exact fun _ _ none => nomatch socket.symm.trans none
        · exact changed ▸ rfl
      · apply moves.2.setConn
        · exact fun m lt absent => changed ▸ moves.2.away m lt absent c
        · exact changed ▸ rfl
        · exact fun up _ => ⟨state ▸ up, socket ▸ rfl⟩
        · exact fun waits => state ▸ waits

theorem Moves.openHost {v : Stage κ} {d₀ d : Client κ} {c : κ} (moves : Moves v d₀ d) :
    Moves v d₀ (d.openHost c) := by
  unfold Client.openHost
  split
  · exact moves
  · rename_i new
    obtain ⟨inv, grows⟩ := moves
    have old : ∀ c' ∈ d.hosts, (d.setConn c (.new d.now)).conns c' = d.conns c' := by
      intro c' mem
      apply conns_setConn_of_ne
      rintro rfl
      exact new mem
    have hosts : ∀ c' ∈ d.hosts, c' ∈ d.hosts ++ [c] := fun c' => List.mem_append_left _
    constructor
    · exact {
        inv with
        waits := by
          intro c'
          change Waits d.table c' (v.queue c' ((d.setConn c (.new d.now)).conns c'))
            ((d.setConn c (.new d.now)).conns c').wbuf
          rcases eq_or_ne c' c with rfl | ne
          · rw [conns_setConn_self]
            apply (inv.waits c').shrink
            · unfold Stage.queue
              cases v.rest c' with
              | none => exact List.nil_sublist _
              | some rest => exact List.Sublist.refl _
            · exact nofun
          · rw [conns_setConn_of_ne d _ ne]
            exact inv.waits c'
        wired := by
          intro c'
          change Wired ((d.setConn c (.new d.now)).conns c')
          rcases eq_or_ne c' c with rfl | ne
          · rw [conns_setConn_self]
            exact ⟨nofun, fun begun => absurd rfl begun, fun _ made => absurd rfl made⟩
          · rw [conns_setConn_of_ne d _ ne]
            exact inv.wired c'
        past := by
          intro c'
          change ((d.setConn c (.new d.now)).conns c').lastSent ≤ d.now
          rcases eq_or_ne c' c with rfl | ne
          · rw [conns_setConn_self]
            exact le_rfl
          · rw [conns_setConn_of_ne d _ ne]
            exact inv.past c'
        limits := by
          intro m e found
          obtain ⟨mem, low, rest⟩ := inv.limits m e found
          refine ⟨hosts _ mem, ?_, rest⟩
          change ((d.setConn c (.new d.now)).conns e.conn).lastSent + _ ≤ _
          rw [old _ mem]
          exact low }
    · exact {
        grows with
        hosts := fun c' mem => hosts c' (grows.hosts c' mem)
        away := by
          intro m lt absent c'
          change m ∉ ((d.setConn c (.new d.now)).conns c').sendQ ∧
            _ ∉ ((d.setConn c (.new d.now)).conns c').wbuf
          rcases eq_or_ne c' c with rfl | ne
          · rw [conns_setConn_self]
            exact ⟨nofun, nofun⟩
          · rw [conns_setConn_of_ne d _ ne]
            exact grows.away m lt absent c'
        last := fun c' mem => (old c' (grows.hosts c' mem)).symm ▸ grows.last c' mem
        takes := fun c' mem => (old c' (grows.hosts c' mem)).symm ▸ grows.takes c' mem
        phase := fun c' mem => (old c' (grows.hosts c' mem)).symm ▸ grows.phase c' mem }

theorem Moves.use {v : Stage κ} {d₀ d : Client κ} (moves : Moves v d₀ d) (u : User κ) :
    Yields (d.use u) (Moves v d₀) := by
  cases u with
  | openHost c => exact yields_ok moves.openHost
  | call c =>
      change Yields (if c ∈ d.hosts then d.call c else .ok d) (Moves v d₀)
      split
      · rename_i mem
        exact moves.call mem
      · exact yields_ok moves
  | close c =>
      change Yields (if c ∈ d.hosts then d.close c else .ok d) (Moves v d₀)
      split
      · exact moves.close
      · exact yields_ok moves

theorem Moves.useAll {v : Stage κ} {d₀ d : Client κ} (moves : Moves v d₀ d)
    (uses : List (User κ)) : Yields (d.useAll uses) (Moves v d₀) :=
  yields_foldlM (fun _ => Moves v d₀) (fun u _ _ moves => moves.use u) moves

/-! ## Callbacks -/

omit [DecidableEq κ] in
theorem table_settle_self (d : Client κ) (m : ℕ) (r : Result) : (d.settle m r).table m = none :=
  Function.update_self ..

omit [DecidableEq κ] in
theorem table_settle_of_ne (d : Client κ) {m m' : ℕ} (r : Result) (ne : m' ≠ m) :
    (d.settle m r).table m' = d.table m' :=
  Function.update_of_ne ne ..

omit [DecidableEq κ] in
theorem table_of_settle {d : Client κ} {m m' : ℕ} {r : Result} {e : Entry κ}
    (found : (d.settle m r).table m' = some e) : m' ≠ m ∧ d.table m' = some e := by
  rcases eq_or_ne m' m with rfl | ne
  · exact nomatch (table_settle_self d m' r).symm.trans found
  · exact ⟨ne, (table_settle_of_ne d r ne).symm.trans found⟩

omit [DecidableEq κ] in
/-- A pending call that waits nowhere is settled. -/
theorem Inv.settle {v : Stage κ} {d : Client κ} {m : ℕ} {e : Entry κ} (inv : Inv v d)
    (found : d.table m = some e)
    (absent : ∀ c, m ∉ v.queue c (d.conns c) ∧ .request m ∉ (d.conns c).wbuf) (r : Result) :
    Inv v (d.settle m r) := by
  have unsettled : ¬ ∃ r, .settled m r ∈ d.history := by
    intro settled
    exact nomatch ((inv.settled m).mp settled).2.2.symm.trans found
  exact {
    inv with
    waits := fun c => {
      inv.waits c with
      pends := by
        intro m' mem
        obtain ⟨e', found', conn⟩ := (inv.waits c).pends m' mem
        refine ⟨e', ?_, conn⟩
        rw [table_settle_of_ne, found']
        rintro rfl
        exact mem.elim (absent c).1 (absent c).2 }
    issued := fun m' e' found => inv.issued m' e' (table_of_settle found).2
    limits := fun m' e' found => inv.limits m' e' (table_of_settle found).2
    settled := by
      intro m'
      change _ ↔ 0 < m' ∧ m' < d.seed ∧ (d.settle m r).table m' = none
      rcases eq_or_ne m' m with rfl | ne
      · obtain ⟨pos, lt⟩ := inv.issued m' e found
        apply iff_of_true
        · exact ⟨r, List.mem_append_right _ (List.mem_singleton_self _)⟩
        · exact ⟨pos, lt, table_settle_self d m' r⟩
      · rw [table_settle_of_ne d r ne, ← inv.settled m']
        constructor
        · rintro ⟨r', mem⟩
          rcases List.mem_append.mp mem with mem | mem
          · exact ⟨r', mem⟩
          · obtain ⟨rfl, _⟩ := Event.settled.inj (List.mem_singleton.mp mem)
            exact absurd rfl ne
        · rintro ⟨r', mem⟩
          exact ⟨r', List.mem_append_left _ mem⟩
    ordered := by
      apply ordered_append inv.ordered (List.pairwise_singleton _ _)
      intro e' mem
      obtain rfl := List.mem_singleton.mp mem
      exact unsettled }

/-- A callback is called, and the page goes on from there. -/
theorem Inv.answer {v : Stage κ} {d : Client κ} {m : ℕ} {e : Entry κ} (inv : Inv v d)
    (found : d.table m = some e)
    (absent : ∀ c, m ∉ v.queue c (d.conns c) ∧ .request m ∉ (d.conns c).wbuf)
    (page : Page κ) (c : κ) (r : Result) :
    Yields (d.answer page c m r) (Moves v (d.settle m r)) := by
  unfold Client.answer
  rw [found]
  exact Moves.useAll ⟨inv.settle found absent r, Grows.refl _⟩ _

theorem Inv.raise {v : Stage κ} {d : Client κ} {m : ℕ} {e : Entry κ} (inv : Inv v d)
    (found : d.table m = some e)
    (absent : ∀ c, m ∉ v.queue c (d.conns c) ∧ .request m ∉ (d.conns c).wbuf)
    (page : Page κ) (r : Result) :
    Yields (d.raise page m r) (Moves v (d.settle m r)) := by
  unfold Client.raise
  rw [found]
  exact inv.answer found absent page e.conn r

/-! ## The loops of `establish` -/

/-- A connection goes through what is left of its queue. -/
def Stage.looping (c : κ) (rest : List ℕ) (lastCheck : ℕ) : Stage κ where
  rest := Function.update (fun _ => none) c (some rest)
  passed := lastCheck
  lastCheck := lastCheck

theorem rest_looping_self (c : κ) (rest : List ℕ) (lastCheck : ℕ) :
    (Stage.looping c rest lastCheck).rest c = some rest := by
  change Function.update (fun _ : κ => none) c (some rest) c = some rest
  rw [Function.update_self]

theorem rest_looping_of_ne {c c' : κ} (rest : List ℕ) (lastCheck : ℕ) (ne : c' ≠ c) :
    (Stage.looping c rest lastCheck).rest c' = none := by
  change Function.update (fun _ : κ => none) c (some rest) c' = none
  rw [Function.update_of_ne ne]

theorem queue_looping_self (c : κ) (rest : List ℕ) (lastCheck : ℕ) (k : Connection) :
    (Stage.looping c rest lastCheck).queue c k = rest := by
  unfold Stage.queue
  rw [rest_looping_self]
  rfl

theorem queue_looping_of_ne {c c' : κ} (rest : List ℕ) (lastCheck : ℕ) (k : Connection)
    (ne : c' ≠ c) : (Stage.looping c rest lastCheck).queue c' k = k.sendQ := by
  unfold Stage.queue
  rw [rest_looping_of_ne rest lastCheck ne]
  rfl

/-- The call at the head of the queue is in the hands of the loop. -/
theorem Inv.looping_cons {d : Client κ} {c : κ} {m : ℕ} {rest : List ℕ} {lastCheck : ℕ}
    (inv : Inv (.looping c (m :: rest) lastCheck) d) :
    Inv (.looping c rest lastCheck) d ∧ (∃ e, d.table m = some e ∧ e.conn = c) ∧
      ∀ c', m ∉ (Stage.looping c rest lastCheck).queue c' (d.conns c') ∧
        .request m ∉ (d.conns c').wbuf := by
  have waits := inv.waits c
  rw [queue_looping_self] at waits
  obtain ⟨e, found, conn⟩ := waits.pends m (.inl (List.mem_cons_self ..))
  refine ⟨?_, ⟨e, found, conn⟩, ?_⟩
  · exact {
      inv with
      waits := by
        intro c'
        rcases eq_or_ne c' c with rfl | ne
        · rw [queue_looping_self]
          exact waits.shrink (List.sublist_cons_self m rest) fun _ => id
        · rw [queue_looping_of_ne rest _ _ ne, ← queue_looping_of_ne (m :: rest) lastCheck _ ne]
          exact inv.waits c' }
  · intro c'
    rcases eq_or_ne c' c with rfl | ne
    · rw [queue_looping_self]
      exact ⟨(List.nodup_cons.mp waits.nodup).1, waits.apart m (List.mem_cons_self ..)⟩
    · rw [queue_looping_of_ne rest _ _ ne, ← queue_looping_of_ne (m :: rest) lastCheck _ ne]
      have other : ∀ e', d.table m = some e' → e'.conn ≠ c' := by
        intro e' found' conn'
        obtain rfl := Option.some.inj (found.symm.trans found')
        exact ne (conn'.symm.trans conn)
      constructor
      · intro mem
        obtain ⟨e', found', conn'⟩ := (inv.waits c').pends m (.inl mem)
        exact other e' found' conn'
      · intro mem
        obtain ⟨e', found', conn'⟩ := (inv.waits c').pends m (.inr mem)
        exact other e' found' conn'

/-- The loop begins with the whole queue. -/
theorem Inv.loop {d : Client κ} {c : κ} {t : ℕ} {state : Phase} (inv : Inv (.idle t) d)
    (wired : Wired { d.conns c with state := state }) :
    Inv (.looping c (d.conns c).sendQ t) (d.setState c state) := by
  apply inv.setConn
  · exact fun c' ne => rest_looping_of_ne _ t ne
  · rfl
  · rfl
  · rw [queue_looping_self]
    exact inv.waits c
  · exact wired
  · rfl

/-- Behind the loop nothing of the queue is left. -/
theorem Inv.clearQueue {d : Client κ} {c : κ} {t : ℕ} (inv : Inv (.looping c [] t) d) :
    Inv (.idle t) (d.clearQueue c) := by
  apply inv.setConn
  · exact fun c' ne => (rest_looping_of_ne _ t ne).symm
  · rfl
  · rfl
  · have waits := inv.waits c
    rw [queue_looping_self] at waits
    exact waits
  · exact { inv.wired c with }
  · rfl

/-- A connection that closes fails what it has queued. -/
theorem Inv.establish_false {d : Client κ} {t : ℕ} (inv : Inv (.idle t) d) (page : Page κ) (c : κ) :
    Yields (d.establish page c false) (Inv (.idle t)) := by
  have start : Inv (.looping c (d.conns c).sendQ t) (d.setState c .closed) :=
    inv.loop ⟨nofun, fun begun => absurd rfl begun, (inv.wired c).made⟩
  refine (yields_foldlM (fun rest => Inv (.looping c rest t)) ?_ start).bind ?_
  · intro m rest d inv
    obtain ⟨inv, ⟨e, found, _⟩, absent⟩ := inv.looping_cons
    exact (inv.raise found absent page _).weaken fun _ moves => moves.1
  · exact fun d inv => yields_ok inv.clearQueue

/-- A connection that was accepted sends what it has queued. -/
theorem Moves.establish_true {d₀ d : Client κ} {t : ℕ} {c : κ} (moves : Moves (.idle t) d₀ d)
    (mem : c ∈ d.hosts) (begun : (d.conns c).state ≠ .closed) (ready : (d.conns c).socket.takes)
    (page : Page κ) : Yields (d.establish page c true) (Moves (.idle t) d₀) := by
  obtain ⟨inv, grows⟩ := moves
  let d₁ := d.setState c .established
  have self : d₁.conns c = { d.conns c with state := .established } := conns_setConn_self ..
  have start : Inv (.looping c (d.conns c).sendQ t) d₁ :=
    inv.loop ⟨fun _ => ready, fun _ => (inv.wired c).begun begun, (inv.wired c).made⟩
  have up : ∀ d', Grows d₁ d' → (d'.conns c).socket.takes := by
    intro d' grows
    refine (grows.takes c mem ?_ ?_).2
    · rw [self]
      exact nofun
    · rw [self]
      exact ready
  have grows₁ : Grows d₀ d₁ := by
    apply grows.setConn
    · exact fun m lt absent => grows.away m lt absent c
    · rfl
    · exact fun _ takes => ⟨nofun, takes⟩
    · exact nofun
  have queued : ∀ m ∈ (d.conns c).sendQ, ¬ d₁.Away m :=
    fun m mem away => (away c).1 (self ▸ mem)
  have round : ∀ m rest d', (Moves (.looping c (m :: rest) t) d₁ d' ∧
      ∀ m' ∈ m :: rest, ¬ d₁.Away m') → Yields (d'.sendNocheck c (.request m)) fun d' =>
        Moves (.looping c rest t) d₁ d' ∧ ∀ m' ∈ rest, ¬ d₁.Away m' := by
    rintro m rest d' ⟨⟨inv, grows⟩, queued⟩
    obtain ⟨inv, pends, absent⟩ := inv.looping_cons
    refine (Moves.sendNocheck ⟨inv, grows⟩ ?_ ?_ fun _ => up d' grows).weaken ?_
    · rintro _ ⟨⟩
      exact ⟨pends, (absent c).1⟩
    · rintro _ _ ⟨⟩
      exact queued m (List.mem_cons_self ..)
    · exact fun d'' moves => ⟨moves, fun m' mem => queued m' (List.mem_cons_of_mem _ mem)⟩
  have loop := yields_foldlM (fun rest d' => Moves (.looping c rest t) d₁ d' ∧
    ∀ m ∈ rest, ¬ d₁.Away m) round ⟨⟨start, .refl d₁⟩, queued⟩
  refine loop.bind ?_
  rintro d' ⟨⟨inv, grows⟩, _⟩
  have cleared : Moves (.idle t) d₁ (d'.clearQueue c) := by
    refine ⟨inv.clearQueue, grows.setConn ?_ rfl (fun up takes => ⟨up, takes⟩) id⟩
    exact fun m lt absent => ⟨nofun, (grows.away m lt absent c).2⟩
  refine (cleared.rawsend fun _ => up _ cleared.2).weaken ?_
  exact fun _ moves => moves.rebase grows₁

end Client

end Cyue.Browser
