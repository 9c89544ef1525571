import Cyue.Util.Removal
import Mathlib.Data.List.Perm.Basic

/-!
# The outcome of a handshake

The handshakes of all sockets are in one map under their descriptors.  The read
of a socket, its close, an open that has failed and the timeout take them out of
it, each in a thread of its own.  The lock of the map is held during a call of
the map only: the handler is read from the removed element after it, and the
timeout looks at an element before it erases the descriptor found there.
-/

namespace Cyue.Handler

open Keyed

/-- Who takes a handshake out with `find_and_erase`: `on_read_impl` when the
handshake has succeeded or failed, and `on_close` or the end of an
`open_client_conn` that has failed. -/
inductive Taker where
  | succeeded
  | failed
  | closed
  deriving DecidableEq

/-- What the taker passes to the handler; a close calls no handler. -/
def Taker.outcome : Taker → Option Bool
  | .succeeded => some true
  | .failed => some false
  | .closed => none

/-- The handshakes.  A handler is the number of the `start_handshake` call that
has registered it. -/
structure Outcomes where
  map : Keyed ℤ (Handshaker ℕ)
  started : ℕ
  /-- Elements that the timeout has found expired, with their descriptors. -/
  visits : List (ℕ × ℤ)
  /-- Elements whose handler is called next, with the argument. -/
  awaited : List (ℕ × Bool)
  /-- The calls of the handlers, newest first. -/
  reported : List (ℕ × Bool)
  /-- The handlers that a close has taken out. -/
  closed : List ℕ

/-- One step of a thread; `freed` is what the memory of an element holds that is
the map's no more. -/
inductive OutcomeEvent where
  | startHandshake (fd : ℤ) (limit : ℕ) (calloc : Option ℕ)
  | findAndErase (fd : ℤ) (taker : Taker)
  | visit (e now : ℕ) (freed : Handshaker ℕ)
  | erase (visit : ℕ × ℤ)
  | call (awaited : ℕ × Bool) (freed : Handshaker ℕ)

namespace Outcomes

def init (new : New ℤ (Handshaker ℕ)) : Outcomes :=
  { map := new.map, started := 0, visits := [], awaited := [], reported := [], closed := [] }

def handshaker (fd : ℤ) (limit : ℕ) (s : Outcomes) : Handshaker ℕ := ⟨fd, s.started, limit⟩

/-- `start_handshake`; a descriptor that is there already keeps its handshake. -/
def startHandshake (fd : ℤ) (limit : ℕ) (calloc : Option ℕ) (s : Outcomes) : Outcomes :=
  { s with
    map := (s.map.insert fd (insertSetData (s.handshaker fd limit)) calloc).2
    started := s.started + 1 }

def findAndErase (fd : ℤ) (taker : Taker) (s : Outcomes) : Outcomes :=
  match s.map.remove fd nopRemove with
  | (none, _) => s
  | (some e, map) =>
      match taker.outcome with
      | none => { s with map := map, closed := (s.map.value e).h :: s.closed }
      | some success => { s with map := map, awaited := (e, success) :: s.awaited }

def handshakerAt (e : ℕ) (freed : Handshaker ℕ) (s : Outcomes) : Handshaker ℕ :=
  (s.map.read e).getD freed

/-- `timeout_iterator` up to the `erase`. -/
def visit (e now : ℕ) (freed : Handshaker ℕ) (s : Outcomes) : Outcomes :=
  let hs := s.handshakerAt e freed
  if hs.limit < now then { s with visits := (e, hs.fd) :: s.visits } else s

/-- The `erase` of `timeout_iterator`; the element visited is called then,
whichever one was erased. -/
def eraseVisited (v : ℕ × ℤ) (s : Outcomes) : Outcomes :=
  if v ∈ s.visits then
    let s := { s with visits := s.visits.erase v }
    match s.map.remove v.2 nopRemove with
    | (none, _) => s
    | (some _, map) => { s with map := map, awaited := (v.1, false) :: s.awaited }
  else s

def call (a : ℕ × Bool) (freed : Handshaker ℕ) (s : Outcomes) : Outcomes :=
  if a ∈ s.awaited then
    { s with
      awaited := s.awaited.erase a
      reported := ((s.handshakerAt a.1 freed).h, a.2) :: s.reported }
  else s

def react (s : Outcomes) : OutcomeEvent → Outcomes
  | .startHandshake fd limit calloc => s.startHandshake fd limit calloc
  | .findAndErase fd taker => s.findAndErase fd taker
  | .visit e now freed => s.visit e now freed
  | .erase v => s.eraseVisited v
  | .call a freed => s.call a freed

/-- `calloc` returns no memory that is in use. -/
def Allowed (s : Outcomes) : OutcomeEvent → Prop
  | .startHandshake fd limit calloc =>
      s.map.Allowed (.insert fd (insertSetData (s.handshaker fd limit)) calloc)
  | _ => True

/-- Each handler is called at most once, and not at all if a close has taken its
handshake out. -/
def Once (s : Outcomes) : Prop :=
  (s.reported.map Prod.fst).Nodup ∧ ∀ h, h ∈ s.closed → h ∉ s.reported.map Prod.fst

/-- No new handshake gets an element whose handler is still to be called, an
element whose handler is to be called is not given back to the heap, and the
timeout erases the element that it has visited or none. -/
def Calm (s : Outcomes) : OutcomeEvent → Prop
  | .startHandshake fd _ calloc =>
      s.map.get fd = none → ∀ e ∈ (s.map.array.allocNolock calloc).1, ∀ a ∈ s.awaited, a.1 ≠ e
  | .findAndErase fd taker =>
      taker.outcome ≠ none → ∀ e ∈ s.map.get fd, ¬ s.map.array.GivesBack e
  | .erase v => v ∈ s.visits → ∀ e ∈ s.map.get v.2, e = v.1 ∧ ¬ s.map.array.GivesBack e
  | .visit .. => True
  | .call .. => True

instance (s : Outcomes) : ∀ event, Decidable (s.Calm event)
  | .startHandshake fd _ calloc => inferInstanceAs (Decidable (s.map.get fd = none →
      ∀ e ∈ (s.map.array.allocNolock calloc).1, ∀ a ∈ s.awaited, a.1 ≠ e))
  | .findAndErase fd taker => inferInstanceAs (Decidable (taker.outcome ≠ none →
      ∀ e ∈ s.map.get fd, ¬ s.map.array.GivesBack e))
  | .erase v => inferInstanceAs (Decidable (v ∈ s.visits →
      ∀ e ∈ s.map.get v.2, e = v.1 ∧ ¬ s.map.array.GivesBack e))
  | .visit .. => isTrue trivial
  | .call .. => isTrue trivial

/-! ## Where the handlers are -/

/-- The handlers in the map, those that are called next, and those that have had
their end. -/
def handlers (s : Outcomes) : List ℕ :=
  (s.map.array.held ++ s.awaited.map Prod.fst).map (fun e => (s.map.value e).h) ++
    (s.closed ++ s.reported.map Prod.fst)

structure Sound (base : ℕ) (s : Outcomes) : Prop where
  coherent : Coherent base s.map
  live : ∀ a ∈ s.awaited, s.map.array.live a.1 = true
  once : s.handlers.Nodup
  below : ∀ h ∈ s.handlers, h < s.started

variable {base : ℕ} {s s' : Outcomes}

theorem Sound.reported_once (sound : s.Sound base) : s.Once := by
  have ends := (List.nodup_append.mp sound.once).2.1
  obtain ⟨-, once, apart⟩ := List.nodup_append.mp ends
  exact ⟨once, fun h closed reported => apart h closed h reported rfl⟩

theorem init_sound (new : New ℤ (Handshaker ℕ)) : (init new).Sound new.max where
  coherent := new.coherent
  live _ member := nomatch member
  once := List.nodup_nil
  below _ member := nomatch member

/-- Handlers that only change their places. -/
theorem Sound.moved (sound : s.Sound base) (coherent : Coherent base s'.map)
    (live : ∀ a ∈ s'.awaited, s'.map.array.live a.1 = true)
    (moved : s'.handlers.Perm s.handlers) (started : s'.started = s.started) :
    s'.Sound base where
  coherent := coherent
  live := live
  once := moved.nodup_iff.mpr sound.once
  below h member := started ▸ sound.below h (moved.mem_iff.mp member)

/-- An element whose handler is called next is not in the map. -/
theorem Sound.awaited_free (sound : s.Sound base) {a : ℕ × Bool} (awaited : a ∈ s.awaited) :
    a.1 ∉ s.map.array.held := by
  intro held
  have distinct := List.Nodup.of_map _ (List.nodup_append.mp sound.once).1
  exact (List.nodup_append.mp distinct).2.2 _ held _ (List.mem_map_of_mem awaited) rfl

/-! ## What one step keeps -/

/-- An element that `insert` returns comes from the allocator. -/
theorem insert_allocates {m : Keyed ℤ (Handshaker ℕ)} {fd : ℤ} {hs : Handshaker ℕ}
    {calloc : Option ℕ} {e : ℕ} (absent : m.get fd = none)
    (found : (m.insert fd (insertSetData hs) calloc).1 = some e) :
    (m.array.allocNolock calloc).1 = some e := by
  rw [Keyed.insert, absent] at found
  dsimp only at found
  generalize m.array.allocNolock calloc = result at found ⊢
  obtain ⟨_ | e', array⟩ := result
  · cases found
  · exact found

/-- A new handshake has a handler of its own. -/
theorem Sound.startHandshake (sound : s.Sound base) {fd : ℤ} {limit : ℕ} {calloc : Option ℕ}
    (allowed : s.Allowed (.startHandshake fd limit calloc))
    (calm : s.Calm (.startHandshake fd limit calloc)) :
    (s.startHandshake fd limit calloc).Sound base := by
  change s.map.Allowed (.insert fd (insertSetData (s.handshaker fd limit)) calloc) at allowed
  have coherent : Coherent base (s.startHandshake fd limit calloc).map :=
    sound.coherent.step allowed
  have apart := fun a (awaited : a ∈ s.awaited) => sound.awaited_free awaited
  obtain ⟨bucket, used, free, map⟩ := sound.coherent
  have inserted := map.insert (insertSetData (s.handshaker fd limit)) allowed
  have allocates := @insert_allocates s.map fd (s.handshaker fd limit) calloc
  have below : ∀ h ∈ s.handlers, h < s.started + 1 := fun h member =>
    Nat.lt_succ_of_lt (sound.below h member)
  rw [Outcomes.startHandshake] at coherent ⊢
  generalize s.map.insert fd (insertSetData (s.handshaker fd limit)) calloc = result at *
  cases inserted with
  | present e inside here =>
      have same : (s.map.store fd e (s.map.value e)).value = s.map.value :=
        Function.update_eq_self ..
      have places : handlers { s with
          map := s.map.store fd e (s.map.value e), started := s.started + 1 } = s.handlers := by
        rw [handlers, same]
        rfl
      refine ⟨coherent, sound.live, ?_, ?_⟩
      · exact (congrArg List.Nodup places).mpr sound.once
      · exact fun h member => below h (places ▸ member)
  | full absent none_left => exact ⟨coherent, sound.live, sound.once, below⟩
  | new e free' old m absent fresh taken key value stored map' =>
      have other : ∀ a ∈ s.awaited, a.1 ≠ e :=
        calm (map.get_eq_none absent) e (allocates (map.get_eq_none absent) rfl)
      have kept : ∀ u, u ∈ s.map.array.held ++ s.awaited.map Prod.fst →
          m.value u = s.map.value u := by
        intro u member
        rw [value]
        refine Function.update_of_ne ?_ ..
        rcases List.mem_append.mp member with held | awaited
        · rintro rfl
          exact fresh (map.lists.held ▸ held)
        · obtain ⟨a, here, rfl⟩ := List.mem_map.mp awaited
          exact other a here
      have first : (m.value e).h = s.started := by
        rw [value, Function.update_self]
        rfl
      have places : handlers { s with map := m, started := s.started + 1 } =
          s.started :: s.handlers := by
        rw [handlers, map'.lists.held, ← map.lists.held, List.cons_append, List.map_cons, first,
          List.map_congr_left fun u member => congrArg Handshaker.h (kept u member)]
        rfl
      refine ⟨coherent, fun a awaited => ?_, ?_, ?_⟩
      · refine (map'.lists.live a.1).mpr (.inr ?_)
        have outside : a.1 ∉ used := map.lists.held ▸ apart a awaited
        have spare := ((map.lists.live a.1).mp (sound.live a awaited)).resolve_left outside
        rcases taken with rfl | ⟨rfl, -, -⟩
        · exact (List.mem_cons.mp spare).resolve_left (other a awaited)
        · exact nomatch spare
      · rw [places]
        exact List.nodup_cons.mpr ⟨fun again => (sound.below _ again).false, sound.once⟩
      · rw [places]
        exact List.forall_mem_cons.mpr ⟨Nat.lt_succ_self _, below⟩

/-- What the removal of an element does to the handlers in the map. -/
theorem Sound.removed (sound : s.Sound base) {fd : ℤ} {e : ℕ}
    (found : s.map.get fd = some e) :
    (s.map.remove fd nopRemove).1 = some e ∧ Coherent base (s.map.remove fd nopRemove).2 ∧
      (s.map.remove fd nopRemove).2.value = s.map.value ∧
      s.map.array.held.Perm (e :: (s.map.remove fd nopRemove).2.array.held) ∧
      ∀ u, s.map.array.live u = true → u ∉ s.map.array.held ∨ u = e ∧ ¬ s.map.array.GivesBack e →
        (s.map.remove fd nopRemove).2.array.live u = true := by
  have first : (s.map.remove fd nopRemove).1 = some e := by
    rw [remove, found]
    rfl
  have coherent : Coherent base (s.map.remove fd nopRemove).2 :=
    have allowed : s.map.Allowed (.remove fd nopRemove) := trivial
    sound.coherent.step allowed
  obtain ⟨bucket, used, free, map⟩ := sound.coherent
  have removed := map.remove fd nopRemove
  generalize s.map.remove fd nopRemove = result at *
  cases removed with
  | absent => cases first
  | kept e' inside here held keeps => cases keeps
  | taken e' inside here held leaves m bucket' free' map' key value stored back =>
      obtain rfl : e' = e := Option.some.inj first
      refine ⟨rfl, coherent, value, ?_, fun u live spare => ?_⟩
      · rw [map.lists.held, map'.lists.held]
        exact List.perm_cons_erase inside
      · refine (map'.lists.live u).mpr (.inr ?_)
        rw [map.lists.held] at spare
        rcases spare with outside | ⟨rfl, kept⟩
        · have spare := ((map.lists.live u).mp live).resolve_left outside
          rcases back with ⟨rfl, -⟩ | ⟨rfl, -⟩
          · exact List.mem_cons_of_mem e' spare
          · exact spare
        · rcases back with ⟨rfl, -⟩ | ⟨-, gives⟩
          · exact List.mem_cons_self
          · exact absurd gives kept

/-- A close takes a handler out. -/
theorem Sound.closed (sound : s.Sound base) {fd : ℤ} {e : ℕ} (found : s.map.get fd = some e) :
    ({ s with
      map := (s.map.remove fd nopRemove).2
      closed := (s.map.value e).h :: s.closed } : Outcomes).Sound base := by
  obtain ⟨-, coherent, value, held, live⟩ := sound.removed found
  refine sound.moved coherent (fun a awaited => ?_) ?_ rfl
  · exact live a.1 (sound.live a awaited) (.inl (sound.awaited_free awaited))
  · rw [handlers, handlers, value]
    have places := (held.append_right (s.awaited.map Prod.fst)).map fun e => (s.map.value e).h
    refine List.Perm.trans ?_ (places.symm.append_right _)
    exact List.perm_middle

/-- A thread that calls the handler takes it out. -/
theorem Sound.taken (sound : s.Sound base) {fd : ℤ} {e : ℕ} {success : Bool}
    (found : s.map.get fd = some e) (kept : ¬ s.map.array.GivesBack e) :
    ({ s with
      map := (s.map.remove fd nopRemove).2
      awaited := (e, success) :: s.awaited } : Outcomes).Sound base := by
  have inside : s.map.array.live e = true := by
    obtain ⟨-, -, -, held, -⟩ := sound.removed found
    exact sound.coherent.live (held.mem_iff.mpr List.mem_cons_self)
  obtain ⟨-, coherent, value, held, live⟩ := sound.removed found
  refine sound.moved coherent (fun a awaited => ?_) ?_ rfl
  · rcases List.mem_cons.mp awaited with rfl | awaited
    · exact live e inside (.inr ⟨rfl, kept⟩)
    · exact live a.1 (sound.live a awaited) (.inl (sound.awaited_free awaited))
  · rw [handlers, handlers, value]
    have places := held.append_right (s.awaited.map Prod.fst)
    exact ((List.perm_middle.trans places.symm).map _).append_right _

theorem Sound.findAndErase (sound : s.Sound base) {fd : ℤ} {taker : Taker}
    (calm : s.Calm (.findAndErase fd taker)) : (s.findAndErase fd taker).Sound base := by
  rw [Outcomes.findAndErase]
  cases found : s.map.get fd with
  | none =>
      rw [remove, found]
      exact sound
  | some e =>
      have first := (sound.removed found).1
      generalize eq : s.map.remove fd nopRemove = result at first
      obtain ⟨_, map⟩ := result
      obtain rfl : _ = some e := first
      have after : map = (s.map.remove fd nopRemove).2 := by rw [eq]
      subst after
      cases outcome : taker.outcome with
      | none => exact sound.closed found
      | some success => exact sound.taken found (calm (by simp [outcome]) e found)

/-- The timeout takes the element that it has visited. -/
theorem Sound.eraseVisited (sound : s.Sound base) {v : ℕ × ℤ} (calm : s.Calm (.erase v)) :
    (s.eraseVisited v).Sound base := by
  rw [Outcomes.eraseVisited]
  split
  case isFalse => exact sound
  case isTrue visited =>
    have erased : ({ s with visits := s.visits.erase v } : Outcomes).Sound base :=
      ⟨sound.coherent, sound.live, sound.once, sound.below⟩
    cases found : s.map.get v.2 with
    | none =>
        simp only [remove, found]
        exact erased
    | some e =>
        obtain ⟨rfl, kept⟩ := calm visited e found
        have first := (sound.removed found).1
        generalize eq : s.map.remove v.2 nopRemove = result at first
        obtain ⟨_, map⟩ := result
        obtain rfl : _ = some v.1 := first
        have after : map = (s.map.remove v.2 nopRemove).2 := by rw [eq]
        simp only [eq]
        rw [after]
        exact erased.taken found kept

/-- The handler that is called is the one that was taken out. -/
theorem Sound.call (sound : s.Sound base) (a : ℕ × Bool) (freed : Handshaker ℕ) :
    (s.call a freed).Sound base := by
  rw [Outcomes.call]
  split
  case isFalse => exact sound
  case isTrue awaited =>
    have reads : s.handshakerAt a.1 freed = s.map.value a.1 := by
      rw [handshakerAt, Keyed.read, if_pos (sound.live a awaited)]
      rfl
    refine sound.moved sound.coherent (fun b rest => ?_) ?_ rfl
    · exact sound.live b (List.mem_of_mem_erase rest)
    · rw [handlers, handlers, reads]
      have places := (List.perm_cons_erase awaited).map Prod.fst
      have before := ((places.append_left s.map.array.held).map
        fun e => (s.map.value e).h).append_right (s.closed ++ s.reported.map Prod.fst)
      refine List.Perm.trans ?_ before.symm
      simp only [List.map_append, List.map_cons, List.append_assoc]
      refine List.Perm.append_left _ ?_
      rw [List.cons_append, ← List.append_assoc, ← List.append_assoc]
      exact List.perm_middle

theorem Sound.react (sound : s.Sound base) {event : OutcomeEvent} (allowed : s.Allowed event)
    (calm : s.Calm event) : (s.react event).Sound base := by
  cases event with
  | startHandshake fd limit calloc => exact sound.startHandshake allowed calm
  | findAndErase fd taker => exact sound.findAndErase calm
  | visit e now freed =>
      rw [Outcomes.react, visit]
      split
      case isTrue => exact ⟨sound.coherent, sound.live, sound.once, sound.below⟩
      case isFalse => exact sound
  | erase v => exact sound.eraseVisited calm
  | call a freed => exact sound.call a freed

/-! ## Every run -/

/-- In a run whose steps are all calm each handler is called at most once, and
none that a close has taken out. -/
theorem handshake_reported_once (new : New ℤ (Handshaker ℕ)) (events : List OutcomeEvent)
    (allowed : Run.Along react Allowed (init new) events)
    (calm : Run.Along react Calm (init new) events) (n : ℕ) :
    ((events.take n).foldl react (init new)).Once := by
  have along := (allowed.and calm).take n
  have sound := Run.holds_after (Sound new.max) _ (init_sound new)
    (fun _ _ sound ok => sound.react ok.1 ok.2) along
  exact sound.reported_once

/-- A map of handshakes with two elements in its block. -/
def twoHandshakes : New ℤ (Handshaker ℕ) where
  hush := fun k => (k % 7).toNat
  zero := ⟨0, 0, 0⟩
  unset := 0
  max := 2
  positive := Nat.two_pos
  few := by decide
  threadsafe := true
  expandable := true

/-- A handshake runs out, and another one of the same descriptor is closed. -/
def reused : List OutcomeEvent :=
  [.startHandshake 5 100 none, .visit 0 200 ⟨0, 0, 0⟩, .erase (0, 5), .call (0, false) ⟨0, 0, 0⟩,
    .startHandshake 5 300 none, .findAndErase 5 .closed]

theorem handshake_reported_once_reused :
    (reused.foldl react (init twoHandshakes)).Once := by
  have allowed : Run.Along react Allowed (init twoHandshakes) reused :=
    ⟨nofun, trivial, trivial, trivial, nofun, trivial, trivial⟩
  have calm : Run.Along react Calm (init twoHandshakes) reused := by decide
  exact handshake_reported_once twoHandshakes reused allowed calm 6

/-- The first handshake has succeeded, and before its handler is read another
thread starts one that gets its element. -/
def overtaken : List OutcomeEvent :=
  [.startHandshake 5 100 none, .findAndErase 5 .succeeded, .startHandshake 6 100 none,
    .call (0, true) ⟨0, 0, 0⟩, .findAndErase 6 .succeeded, .call (0, true) ⟨0, 0, 0⟩]

/-- The handler of the second handshake is called for the first one and again
for its own. -/
theorem called_twice :
    Run.Along react Allowed (init twoHandshakes) overtaken ∧
      (overtaken.foldl react (init twoHandshakes)).reported = [(1, true), (1, true)] ∧
      ¬ (overtaken.foldl react (init twoHandshakes)).Once := by
  have reported : (overtaken.foldl react (init twoHandshakes)).reported =
      [(1, true), (1, true)] := by decide
  refine ⟨⟨nofun, trivial, nofun, trivial, trivial, trivial, trivial⟩, reported, fun once => ?_⟩
  rw [Once, reported] at once
  exact absurd once.1 (by decide)

end Outcomes

end Cyue.Handler
