import Cyue.Util.Queue

/-!
# Many producers and one consumer

Any number of threads call `mpush` and one thread calls `pop`.  A step is one
access to what they share: a read or a write of `m_w`, `m_wp`, a link or an
element, the atomic addition to `m_wpos`, the compare-and-swap of `m_wp`, or a
section under the mutex.  Only the consumer refers to the reader's cursor and to
`m_c`.  There are fewer threads than an `int` counts, so that `m_wpos` does not
wrap.
-/

namespace Cyue

variable {α : Type*}

/-- Where the thread is in `mmovestep` that has got the last position of a chunk.
The arguments are what it has read: `c` for `p`, `d` for `m_w` again, `e` for the
chunk of `next_p`, `f` for the chunk that `expand` links. -/
inductive Swap where
  | last
  | write (c : ℕ)
  /-- `!c->next` reads `m_w`, then the link. -/
  | look (c : ℕ)
  | test (c d : ℕ)
  | cache (c : ℕ)
  | allocate (c : ℕ)
  /-- `c->next = NULL` and `m_w->next = c` in `expand` -/
  | clear (c f : ℕ)
  | join (c f : ℕ)
  | link (c f d : ℕ)
  /-- `next_p = current(c->next, 0)` -/
  | ahead (c : ℕ)
  | follow (c d : ℕ)
  /-- `while (*ptr != p)` -/
  | wait (c e : ℕ)
  /-- `c = c->next` -/
  | turn (c e : ℕ)
  | next (c e d : ℕ)
  | move (c e e' : ℕ)
  /-- The compare-and-swap, then `pos = 0`. -/
  | publish (c e : ℕ)
  | reset
  deriving DecidableEq, Repr

/-- Where a producer is, with its element, the position `k` that it got and the
chunks that it read for `p` and `next_p`. -/
inductive Producer (α : Type*) where
  | outside
  | start (v : α)
  | spin (v : α)
  | first (v : α) (k : ℕ)
  | second (v : α) (k c : ℕ)
  | write (v : α) (k c c' : ℕ)
  | publish (v : α) (k c c' : ℕ)
  | swap (v : α) (x : Swap)
  deriving DecidableEq, Repr

/-- Where the consumer is in `pop`. -/
inductive Consumer where
  | outside
  /-- `readable` -/
  | ready
  /-- It has read the last element of the chunk. -/
  | spent
  /-- In `free`, first for `m_c` and then for the cache. -/
  | freeing (c : ℕ)
  | caching (c : ℕ)
  /-- `m_rp` lies ahead. -/
  | moving
  deriving DecidableEq, Repr

/-- The queue with all its threads.  `issued` are the elements of each producer's
calls that were not refused, `published` are the producers and elements in the
order in which `m_wp` has passed them, and `popped` is what the consumer has read. -/
structure Mpsc (α : Type*) where
  q : Queue α
  producer : ℕ → Producer α
  consumer : Consumer
  issued : ℕ → List α
  published : List (ℕ × α)
  popped : List α

namespace Mpsc

def init (c : ℕ) (p : ℕ → ℕ → α) : Mpsc α :=
  ⟨Queue.init c p, fun _ => .outside, .outside, fun _ => [], [], []⟩

def set (s : Mpsc α) (i : ℕ) (next : Producer α) : Mpsc α :=
  { s with producer := Function.update s.producer i next }

def setWriter (s : Mpsc α) (k : Cursor) : Mpsc α := { s with q := { s.q with writer := k } }

def setReader (s : Mpsc α) (k : Cursor) : Mpsc α := { s with q := { s.q with reader := k } }

/-- The thread that swaps the chunks, up to the compare-and-swap. -/
inductive SwapStep (N : ℕ) (v : α) : Queue α → Swap → Queue α → Swap → Prop where
  | last {q : Queue α} : SwapStep N v q .last q (.write q.writer.c)
  | write {q : Queue α} {c : ℕ} :
      SwapStep N v q (.write c) (q.store (Queue.current c (N - 1)) v) (.look c)
  | look {q : Queue α} {c : ℕ} : SwapStep N v q (.look c) q (.test c q.writer.c)
  | grown {q : Queue α} {c d e : ℕ} (next : q.next d = some e) :
      SwapStep N v q (.test c d) q (.ahead c)
  | short {q : Queue α} {c d : ℕ} (next : q.next d = none) :
      SwapStep N v q (.test c d) q (.cache c)
  | cached {q : Queue α} {c f : ℕ} (free : q.free = some f) :
      SwapStep N v q (.cache c) { q with free := q.next f } (.clear c f)
  | uncached {q : Queue α} {c : ℕ} (free : q.free = none) :
      SwapStep N v q (.cache c) q (.allocate c)
  | allocate {q : Queue α} {c f : ℕ} (fresh : q.live f = false) :
      SwapStep N v q (.allocate c) { q with live := Function.update q.live f true } (.clear c f)
  | clear {q : Queue α} {c f : ℕ} :
      SwapStep N v q (.clear c f) { q with next := Function.update q.next f none } (.join c f)
  | join {q : Queue α} {c f : ℕ} : SwapStep N v q (.join c f) q (.link c f q.writer.c)
  | link {q : Queue α} {c f d : ℕ} :
      SwapStep N v q (.link c f d) { q with next := Function.update q.next d (some f) } (.ahead c)
  | ahead {q : Queue α} {c : ℕ} : SwapStep N v q (.ahead c) q (.follow c q.writer.c)
  | follow {q : Queue α} {c d e : ℕ} (next : q.next d = some e) :
      SwapStep N v q (.follow c d) q (.wait c e)
  | wait {q : Queue α} {c e : ℕ} (passed : q.writer.ptr = Queue.current c (N - 1)) :
      SwapStep N v q (.wait c e) q (.turn c e)
  | turn {q : Queue α} {c e : ℕ} : SwapStep N v q (.turn c e) q (.next c e q.writer.c)
  | next {q : Queue α} {c e d e' : ℕ} (next : q.next d = some e') :
      SwapStep N v q (.next c e d) q (.move c e e')
  | move {q : Queue α} {c e e' : ℕ} :
      SwapStep N v q (.move c e e') { q with writer := { q.writer with c := e' } } (.publish c e)

/-- The consumer, `readable` being true. -/
inductive PopStep (N : ℕ) : Mpsc α → Mpsc α → Prop where
  | readable {s : Mpsc α} (outside : s.consumer = .outside)
      (other : s.q.reader.ptr ≠ s.q.writer.ptr) : PopStep N s { s with consumer := .ready }
  | read {s : Mpsc α} (ready : s.consumer = .ready) :
      PopStep N s { s.setReader { s.q.reader with pos := s.q.reader.pos + 1 } with
        popped := s.popped ++ [s.q.load s.q.reader.ptr]
        consumer := if N = s.q.reader.pos + 1 then .spent else .moving }
  | spent {s : Mpsc α} {c : ℕ} (spent : s.consumer = .spent)
      (next : s.q.next s.q.reader.c = some c) :
      PopStep N s { s.setReader { s.q.reader with c := c } with
        consumer := .freeing s.q.reader.c }
  | freeing {s : Mpsc α} {c : ℕ} (freeing : s.consumer = .freeing c) :
      PopStep N s { s with
        q := if s.q.c = some c then { s.q with c := s.q.next c } else s.q
        consumer := .caching c }
  | caching {s : Mpsc α} {c : ℕ} (caching : s.consumer = .caching c) :
      PopStep N s { s with
        q := { s.q with
          next := Function.update s.q.next c s.q.free, free := some c
          reader := { s.q.reader with pos := 0 } }
        consumer := .moving }
  | moving {s : Mpsc α} (moving : s.consumer = .moving) :
      PopStep N s { s.setReader { s.q.reader with
          ptr := Queue.current s.q.reader.c s.q.reader.pos } with
        consumer := .outside }

inductive Step (N : ℕ) : Mpsc α → Mpsc α → Prop where
  | call {s : Mpsc α} (i : ℕ) (v : α) (outside : s.producer i = .outside) :
      Step N s { s.set i (.start v) with
        issued := Function.update s.issued i (s.issued i ++ [v]) }
  /-- The addition to `m_wpos` -/
  | reserve {s : Mpsc α} {i : ℕ} {v : α} (start : s.producer i = .start v) :
      Step N s ((s.setWriter { s.q.writer with pos := s.q.writer.pos + 1 }).set i
        (if s.q.writer.pos + 1 < N then .first v (s.q.writer.pos + 1)
          else if s.q.writer.pos + 1 = N then .swap v .last
          else .spin v))
  | unspin {s : Mpsc α} {i : ℕ} {v : α} (spin : s.producer i = .spin v)
      (below : s.q.writer.pos < N) : Step N s (s.set i (.start v))
  | first {s : Mpsc α} {i k : ℕ} {v : α} (first : s.producer i = .first v k) :
      Step N s (s.set i (.second v k s.q.writer.c))
  | second {s : Mpsc α} {i k c : ℕ} {v : α} (second : s.producer i = .second v k c) :
      Step N s (s.set i (.write v k c s.q.writer.c))
  | write {s : Mpsc α} {i k c c' : ℕ} {v : α} (write : s.producer i = .write v k c c') :
      Step N s ({ s with q := s.q.store (Queue.current c (k - 1)) v }.set i (.publish v k c c'))
  | publish {s : Mpsc α} {i k c c' : ℕ} {v : α} (publish : s.producer i = .publish v k c c')
      (passed : s.q.writer.ptr = Queue.current c (k - 1)) :
      Step N s { (s.setWriter { s.q.writer with ptr := Queue.current c' k }).set i .outside with
        published := s.published ++ [(i, v)] }
  | swap {s : Mpsc α} {i : ℕ} {v : α} {x x' : Swap} {q : Queue α}
      (swap : s.producer i = .swap v x) (step : SwapStep N v s.q x q x') :
      Step N s ({ s with q := q }.set i (.swap v x'))
  /-- No memory is left: `mpush` is refused. -/
  | refuse {s : Mpsc α} {i c : ℕ} {v : α} (swap : s.producer i = .swap v (.allocate c)) :
      Step N s { s.set i .outside with
        issued := Function.update s.issued i (s.issued i).dropLast }
  | swapped {s : Mpsc α} {i c e : ℕ} {v : α} (swap : s.producer i = .swap v (.publish c e))
      (passed : s.q.writer.ptr = Queue.current c (N - 1)) :
      Step N s { (s.setWriter { s.q.writer with ptr := Queue.current e 0 }).set i
          (.swap v .reset) with
        published := s.published ++ [(i, v)] }
  | reset {s : Mpsc α} {i : ℕ} {v : α} (swap : s.producer i = .swap v .reset) :
      Step N s ((s.setWriter { s.q.writer with pos := 0 }).set i .outside)
  | pop {s t : Mpsc α} (step : PopStep N s t) : Step N s t

inductive Reaches (N : ℕ) : Mpsc α → Mpsc α → Prop where
  | refl (s : Mpsc α) : Reaches N s s
  | step {s t u : Mpsc α} (reaches : Reaches N s t) (step : Step N t u) : Reaches N s u

end Mpsc

end Cyue
