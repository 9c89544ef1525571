import Cyue.Lua.Namespace

/-!
# The cache of a namespace

A symbol that a lookup has found stays in the namespace object.  The lookups agree with
`fetcher` as long as nothing that such a key was found through is assigned again.
-/

namespace Cyue.Lua

variable {π : Type*}

namespace Heap

variable {h h' : Heap π}

/-- A lookup reads the field `k` of the table `t`. -/
def Reads (h : Heap π) (t : ℕ) (k : Symbol) : Value π → List Symbol → Prop
  | _, [] => False
  | r, c :: cs => (r = .table t ∧ c = k) ∨ ∃ t', r = .table t' ∧ h.Reads t k (h.fields t' c) cs

/-- A lookup depends on the fields that it reads. -/
theorem reach_congr {localCall : Bool} {r : Value π} {cs : List Symbol}
    (same : ∀ t k, h.Reads t k r cs → h'.fields t k = h.fields t k) :
    h'.reach localCall r cs = h.reach localCall r cs := by
  induction cs generalizing r with
  | nil => rfl
  | cons c cs ih =>
      have got : h'.rawget r c = h.rawget r c := by
        cases r with
        | table t => exact congrArg some (same t c (.inl ⟨rfl, rfl⟩))
        | _ => rfl
      rw [reach, reach, got]
      cases found : h.rawget r c with
      | none => rfl
      | some r' =>
          have rest : ∀ t k, h.Reads t k r' cs → h'.fields t k = h.fields t k := by
            intro t k read
            cases r with
            | table t' =>
                obtain rfl : h.fields t' c = r' := Option.some.inj found
                exact same t k (.inr ⟨t', rfl, read⟩)
            | _ => cases found
          dsimp only
          rw [ih rest]

end Heap

namespace Namespace

variable [DecidableEq π] {s s' : Namespace π}

/-- No key that is stored was found through the field `k` of the table `t`. -/
def Unread (s : Namespace π) (t : ℕ) (k : Symbol) : Prop :=
  ∀ k', k' ≠ symField → k' ≠ emitterField → s.own k' ≠ .nil →
    ¬ s.heap.Reads t k s.sym (components k')

/-- A symbol is assigned that no stored key was found through, or the value that is
there.  The names `__sym` and `__emitter` are left to the namespace. -/
def HeedsAssign (s : Namespace π) (k : Symbol) (v : Value π) : Prop :=
  k ≠ symField ∧ k ≠ emitterField ∧
    (s.own k = .nil → ∀ t, s.sym = .table t → s.Unread t k ∨ s.heap.fields t k = v) ∧
    (s.own k ≠ .nil → s.own k = v)

def Heeds (s : Namespace π) : Act π → Prop
  | .define k v => s.HeedsAssign k v
  | .global k v => s.HeedsAssign k v
  | .field t k v => s.Unread t k ∨ s.heap.fields t k = v
  | _ => True

/-- What is stored is what `fetcher` finds. -/
structure Coherent (s : Namespace π) : Prop where
  sym : ∃ t, s.sym = .table t
  stored : ∀ k, k ≠ symField → k ≠ emitterField → s.own k ≠ .nil → s.fetcher k = some (s.own k)

omit [DecidableEq π] in
theorem create_coherent (localCall : Bool) : (create localCall : Namespace π).Coherent := by
  refine ⟨⟨0, rfl⟩, fun k other _ found => (found ?_).elim⟩
  change Function.update (fun _ => Value.nil) symField (.table 0) k = .nil
  exact Function.update_of_ne other ..

theorem Coherent.index_eq (coherent : s.Coherent) {k : Symbol} (other : k ≠ symField)
    (other' : k ≠ emitterField) : (s.index k).2 = s.fetcher k := by
  rw [index]
  by_cases missing : s.own k = .nil
  · rw [if_pos missing]
    cases s.fetcher k <;> rfl
  · rw [if_neg missing]
    exact (coherent.stored k other other' missing).symm

/-- A step writes no more than one field of one table. -/
structure Writes (s s' : Namespace π) (t : ℕ) (k : Symbol) : Prop where
  localCall : s'.localCall = s.localCall
  own : ∀ k', k' ≠ emitterField → s'.own k' = s.own k'
  fields : ∀ t' k', ¬ (t' = t ∧ k' = k) → s'.heap.fields t' k' = s.heap.fields t' k'

omit [DecidableEq π] in
theorem Writes.refl (s : Namespace π) (t : ℕ) (k : Symbol) : Writes s s t k :=
  ⟨rfl, fun _ _ => rfl, fun _ _ _ => rfl⟩

omit [DecidableEq π] in
theorem Writes.trans {s'' : Namespace π} {t : ℕ} {k : Symbol} (first : Writes s s' t k)
    (second : Writes s' s'' t k) : Writes s s'' t k :=
  ⟨second.localCall.trans first.localCall,
    fun k' other => (second.own k' other).trans (first.own k' other),
    fun t' k' other => (second.fields t' k' other).trans (first.fields t' k' other)⟩

omit [DecidableEq π] in
theorem Writes.sym {t : ℕ} {k : Symbol} (writes : Writes s s' t k) : s'.sym = s.sym :=
  writes.own symField (by decide)

omit [DecidableEq π] in
/-- A field that no stored key was found through may be written. -/
theorem Coherent.writes {t : ℕ} {k : Symbol} (coherent : s.Coherent) (writes : Writes s s' t k)
    (unread : s.Unread t k ∨ s'.heap.fields t k = s.heap.fields t k) : s'.Coherent := by
  refine ⟨?_, fun k' other other' found => ?_⟩
  · rw [writes.sym]
    exact coherent.sym
  · rw [writes.own k' other'] at found ⊢
    rw [← coherent.stored k' other other' found, fetcher, fetcher, writes.sym, writes.localCall,
      Heap.fetcher_eq, Heap.fetcher_eq]
    refine Heap.reach_congr fun t' k'' read => ?_
    by_cases here : t' = t ∧ k'' = k
    · obtain ⟨rfl, rfl⟩ := here
      exact unread.resolve_left fun unread => unread k' other other' found read
    · exact writes.fields t' k'' here

/-! ## The steps -/

omit [DecidableEq π] in
/-- A field of the object other than `__sym` is not read by `fetcher`. -/
theorem fetcher_rawset {k : Symbol} (other : k ≠ symField) (v : Value π) (k' : Symbol) :
    (s.rawset k v).fetcher k' = s.fetcher k' := by
  have sym : (s.rawset k v).sym = s.sym := Function.update_of_ne other.symm ..
  rw [fetcher, fetcher, sym]
  rfl

omit [DecidableEq π] in
theorem Coherent.rawset {k : Symbol} {v : Value π} (coherent : s.Coherent) (other : k ≠ symField)
    (known : k ≠ emitterField → v ≠ .nil → s.fetcher k = some v) : (s.rawset k v).Coherent := by
  refine ⟨?_, fun k' first second found => ?_⟩
  · obtain ⟨t, sym⟩ := coherent.sym
    exact ⟨t, (Function.update_of_ne other.symm ..).trans sym⟩
  · rw [fetcher_rawset other]
    by_cases same : k' = k
    · subst same
      have new : (s.rawset k' v).own k' = v := Function.update_self ..
      rw [new] at found ⊢
      exact known second found
    · have old : (s.rawset k v).own k' = s.own k' := Function.update_of_ne same ..
      rw [old] at found ⊢
      exact coherent.stored k' first second found

/-- A lookup stores what `fetcher` has found. -/
theorem Coherent.index (coherent : s.Coherent) (k : Symbol) : (s.index k).1.Coherent := by
  rw [Namespace.index]
  split
  case isTrue missing =>
    have other : k ≠ symField := by
      rintro rfl
      obtain ⟨t, sym⟩ := coherent.sym
      exact nomatch missing.symm.trans sym
    cases found : s.fetcher k with
    | none => exact coherent
    | some r =>
        dsimp only
        split
        · exact coherent.rawset other fun _ _ => found
        · exact coherent
  case isFalse => exact coherent

/-- What a lookup returns is in the object afterwards. -/
theorem index_stored {k : Symbol} {r : Value π} (got : (s.index k).2 = some r)
    (truthy : r.truthy = true) : (s.index k).1.own k = r := by
  rw [Namespace.index] at got ⊢
  by_cases missing : s.own k = .nil
  · rw [if_pos missing] at got ⊢
    cases found : s.fetcher k with
    | none =>
        rw [found] at got
        exact nomatch got
    | some r' =>
        rw [found] at got
        obtain rfl : r' = r := Option.some.inj got
        dsimp only
        rw [if_pos truthy]
        exact Function.update_self ..
  · rw [if_neg missing] at got ⊢
    exact Option.some.inj got

theorem index_emitter_writes (s : Namespace π) (t : ℕ) (k : Symbol) :
    Writes s (s.index emitterField).1 t k := by
  rw [index]
  split
  · cases s.fetcher emitterField with
    | none => exact .refl s t k
    | some r =>
        dsimp only
        split
        · exact ⟨rfl, fun k' other => Function.update_of_ne other .., fun _ _ _ => rfl⟩
        · exact .refl s t k
  · exact .refl s t k

omit [DecidableEq π] in
theorem setField_writes (s : Namespace π) (t : ℕ) (k : Symbol) (v : Value π) :
    Writes s (s.setField t k v) t k := by
  refine ⟨rfl, fun _ _ => rfl, fun t' k' outside => ?_⟩
  change Function.update s.heap.fields t (Function.update (s.heap.fields t) k v) t' k' = _
  by_cases here : t' = t
  · subst here
    rw [Function.update_self]
    exact Function.update_of_ne (fun same => outside ⟨rfl, same⟩) ..
  · rw [Function.update_of_ne here]

omit [DecidableEq π] in
theorem setSymbol_eq {t : ℕ} (sym : s.sym = .table t) (k : Symbol) (v : Value π) :
    s.setSymbol k v = s.setField t k v := by
  rw [setSymbol, sym]
  rfl

omit [DecidableEq π] in
theorem field_setField (s : Namespace π) (t : ℕ) (k : Symbol) (v : Value π) :
    (s.setField t k v).heap.fields t k = v := by
  change Function.update s.heap.fields t (Function.update (s.heap.fields t) k v) t k = v
  rw [Function.update_self, Function.update_self]

theorem bind_writes {t : ℕ} {key : Symbol} (sym : s.sym = .table t) (missing : s.own key = .nil)
    (f : π) : Writes s (s.bind key f) t key := by
  have created : Writes s { s with heap := s.heap.createCallbackList } t key :=
    ⟨rfl, fun _ _ => rfl, fun _ _ _ => rfl⟩
  obtain ⟨s', listed, pushed⟩ := s.bind_cases key f
  have writes : Writes s s' t key := by
    rcases listed with rfl | ⟨-, rfl⟩ | ⟨present, -⟩
    · exact .refl s' t key
    · rw [setSymbol_eq (created.sym.trans sym)]
      exact created.trans (setField_writes ..)
    · exact absurd missing present
  rcases pushed with same | ⟨list, same⟩
  · rw [same]
    exact writes
  · rw [same]
    exact writes.trans ⟨rfl, fun _ _ => rfl, fun _ _ _ => rfl⟩

/-- The hook writes the symbol that is defined. -/
theorem newindex_writes {t : ℕ} {k : Symbol} (sym : s.sym = .table t) (missing : s.own k = .nil)
    (other : k ≠ emitterField) (v : Value π) : Writes s (s.newindex k v) t k := by
  have plain : ∀ v, Writes s (s.setSymbol k v) t k := by
    intro v
    rw [setSymbol_eq sym]
    exact setField_writes ..
  unfold newindex
  split
  · split
    · have looked := index_emitter_writes s t k
      dsimp only
      split
      · split
        · refine looked.trans (bind_writes (looked.sym.trans sym) ?_ _)
          exact (looked.own k other).trans missing
        · exact looked
      · exact looked
    · exact plain _
  · exact plain _

def Symbolic (s : Namespace π) (k : Symbol) (v : Value π) : Prop :=
  ∀ f old, v = .function f → s.heap.rawget s.sym k = some old → k.take 2 = [underscore, underscore] →
    old.truthy = true ∧ s.heap.isCallbackList old = false

theorem newindex_symbolic {t : ℕ} {k : Symbol} {v : Value π} (sym : s.sym = .table t)
    (symbolic : s.Symbolic k v) : s.newindex k v = s.setField t k v := by
  unfold newindex
  split
  case h_1 f old found =>
    rw [if_neg, setSymbol_eq sym]
    rintro ⟨start, falsy | list⟩
    · exact Bool.false_ne_true (falsy.symm.trans (symbolic f old rfl found start).1)
    · exact Bool.false_ne_true ((symbolic f old rfl found start).2.symm.trans list)
  case h_2 => exact setSymbol_eq sym k _

omit [DecidableEq π] in
/-- The value that is there may be assigned again. -/
theorem symbolic_of_same {t : ℕ} {k : Symbol} {v : Value π} (sym : s.sym = .table t)
    (same : s.heap.fields t k = v) : s.Symbolic k v := by
  rintro f old rfl found -
  rw [sym] at found
  obtain rfl : s.heap.fields t k = old := Option.some.inj found
  rw [same]
  exact ⟨rfl, rfl⟩

theorem Coherent.assign {k : Symbol} {v : Value π} (coherent : s.Coherent)
    (heeds : s.HeedsAssign k v) : (s.assign k v).Coherent := by
  obtain ⟨other, other', fresh, stored⟩ := heeds
  rw [Namespace.assign]
  split
  case isTrue missing =>
    obtain ⟨t, sym⟩ := coherent.sym
    refine coherent.writes (newindex_writes sym missing other' v) ?_
    refine (fresh missing t sym).imp_right fun same => ?_
    rw [newindex_symbolic sym (symbolic_of_same sym same), field_setField, same]
  case isFalse found =>
    refine coherent.rawset other fun _ _ => ?_
    rw [coherent.stored k other other' found, stored found]

/-- What the program does keeps the cache coherent. -/
theorem Coherent.step (coherent : s.Coherent) (a : Act π) (heeds : s.Heeds a) :
    (s.step a).Coherent := by
  cases a with
  | newTable =>
      exact coherent.writes (t := 0) (k := []) ⟨rfl, fun _ _ => rfl, fun _ _ _ => rfl⟩ (.inr rfl)
  | ctor =>
      have started : Coherent { s with heap := { s.heap with
          emitters := Function.update s.heap.emitters s.heap.fresh true, fresh := s.heap.fresh + 1 } } :=
        coherent.writes (t := 0) (k := []) ⟨rfl, fun _ _ => rfl, fun _ _ _ => rfl⟩ (.inr rfl)
      rw [Namespace.step, ctor]
      dsimp only
      split
      · exact started.rawset (by decide) fun self => absurd rfl self
      · exact started
  | unref e =>
      have looked := coherent.index emitterField
      rw [Namespace.step, unrefNamespace]
      split
      case isTrue held =>
        have present : (s.index emitterField).1.own emitterField ≠ .nil := by
          rw [index_stored held rfl]
          exact fun same => nomatch same
        rw [Namespace.assign, if_neg present]
        exact looked.rawset (by decide) fun self => absurd rfl self
      case isFalse => exact looked
  | lookup k => exact coherent.index k
  | define k v => exact coherent.assign heeds
  | global k v => exact coherent.assign heeds
  | field t k v =>
      refine coherent.writes (setField_writes s t k v) (heeds.imp_right fun same => ?_)
      exact (field_setField ..).trans same.symm
  | request endp cmd args =>
      rw [Namespace.step, start]
      split
      · have looked : (s.loadProc cmd false).1.Coherent := coherent.index cmd
        dsimp only
        split
        · exact looked
        · exact looked
        · split <;> exact looked
      · exact coherent

/-! ## Every run -/

/-- The key has one part, and a lookup is allowed to find it. -/
def Plain (s : Namespace π) (k : Symbol) : Prop :=
  dot ∉ k ∧ (s.localCall = false → k.head? ≠ some underscore)

omit [DecidableEq π] in
theorem fetcher_plain {k : Symbol} (plain : s.Plain k) :
    s.fetcher k = s.heap.rawget s.sym k := by
  have whole : components k = [k] := List.splitOn_eq_singleton plain.1
  rw [fetcher, Heap.fetcher_eq, whole, Heap.reach, if_neg fun both => plain.2 both.1 both.2, if_pos rfl]

/-- A symbol that is defined is in the symbol table. -/
theorem Coherent.defined {k : Symbol} {v : Value π} (coherent : s.Coherent) (plain : s.Plain k)
    (symbolic : s.Symbolic k v) (heeds : s.HeedsAssign k v) :
    (s.assign k v).heap.rawget (s.assign k v).sym k = some v ∧
      (s.assign k v).localCall = s.localCall := by
  obtain ⟨t, sym⟩ := coherent.sym
  obtain ⟨other, other', -, stored⟩ := heeds
  rw [Namespace.assign]
  split
  case isTrue missing =>
    rw [newindex_symbolic sym symbolic]
    have sym' : (s.setField t k v).sym = .table t := sym
    rw [sym']
    exact ⟨congrArg some (field_setField ..), rfl⟩
  case isFalse found =>
    have sym' : (s.rawset k v).sym = s.sym := Function.update_of_ne other.symm ..
    refine ⟨?_, rfl⟩
    rw [sym']
    change s.heap.rawget s.sym k = some v
    rw [← fetcher_plain plain, coherent.stored k other other' found, stored found]

open Run in
/-- In every run that heeds the cache, a lookup agrees with `fetcher`, and a definition is
seen by remote calls, by local calls and by files that are imported. -/
theorem cache_coherent {localCall : Bool} {acts : List (Act π)}
    (heeds : Along step Heeds (create localCall) acts) :
    (∀ k, k ≠ symField → k ≠ emitterField →
      ((acts.foldl step (create localCall)).index k).2 =
        (acts.foldl step (create localCall)).fetcher k) ∧
    ∀ k v, (acts.foldl step (create localCall)).Plain k →
      (acts.foldl step (create localCall)).Symbolic k v →
      (acts.foldl step (create localCall)).HeedsAssign k v →
      (((acts.foldl step (create localCall)).assign k v).loadProc k false).2 = some v ∧
      (((acts.foldl step (create localCall)).assign k v).loadProc k true).2 = some v ∧
      ∀ global, importIndex global ((acts.foldl step (create localCall)).assign k v) k =
        some (if v.truthy then v else global k) := by
  have coherent : (acts.foldl step (create localCall)).Coherent :=
    holds_after Coherent _ (create_coherent localCall) (fun _ a coherent ok => coherent.step a ok) heeds
  generalize acts.foldl step (create localCall) = s at coherent ⊢
  refine ⟨fun k other other' => coherent.index_eq other other', fun k v plain symbolic heeds => ?_⟩
  obtain ⟨there, kind⟩ := coherent.defined plain symbolic heeds
  have plain' : (s.assign k v).Plain k := ⟨plain.1, fun remote => plain.2 (kind ▸ remote)⟩
  refine ⟨?_, there, fun global => ?_⟩
  · change ((s.assign k v).index k).2 = some v
    rw [(coherent.assign heeds).index_eq heeds.1 heeds.2.1, fetcher_plain plain', there]
  · rw [importIndex, there]
    rfl

/-- The symbol `x` is defined and looked up, and then `y` is defined. -/
theorem cache_coherent_two :
    let s := [.define [120] (.function 7), .lookup [120], .define [121] (.function 8)].foldl step
      (create false : Namespace ℕ)
    (s.index [120]).2 = s.fetcher [120] ∧ (s.index [121]).2 = s.fetcher [121] := by
  have nothing : ∀ k, k ≠ symField → (create false : Namespace ℕ).own k = .nil := by
    intro k other
    change Function.update (fun _ => Value.nil) symField (.table 0) k = .nil
    exact Function.update_of_ne other ..
  have stored : ∀ k, k ≠ symField → k ≠ [120] → ([.define [120] (.function 7),
      .lookup [120]].foldl step (create false : Namespace ℕ)).own k = .nil := by
    intro k other other'
    change Function.update (Function.update (fun _ => Value.nil) symField (.table 0)) [120]
      (.function 7) k = .nil
    rw [Function.update_of_ne other', Function.update_of_ne other]
  have heeds : Run.Along step Heeds (create false : Namespace ℕ)
      [.define [120] (.function 7), .lookup [120], .define [121] (.function 8)] := by
    refine ⟨⟨by decide, by decide, fun _ t _ => .inl ?_, fun found => ?_⟩, trivial,
      ⟨by decide, by decide, fun _ t _ => .inl ?_, fun found => ?_⟩, trivial⟩
    · exact fun k other _ found => (found (nothing k other)).elim
    · exact (found (nothing _ (by decide))).elim
    · intro k other _ found read
      by_cases same : k = [120]
      · subst same
        obtain ⟨-, differs⟩ | ⟨_, _, ⟨⟩⟩ := read
        exact absurd differs (by decide)
      · exact found (stored k other same)
    · exact (found (stored _ (by decide) (by decide))).elim
  have coherent := (cache_coherent heeds).1
  exact ⟨coherent [120] (by decide) (by decide), coherent [121] (by decide) (by decide)⟩

/-- A symbol that was looked up is defined again: the lookup and the symbol table differ,
and a file that is imported has the old function. -/
theorem redefined_unseen :
    let s := [.define [120] (.function 7), .lookup [120], .define [120] (.function 8)].foldl step
      (create false : Namespace ℕ)
    (s.index [120]).2 = some (.function 8) ∧ s.fetcher [120] = some (.function 7) ∧
      importIndex (fun _ => .nil) s [120] = some (.function 7) ∧
      (s.loadProc [120] true).2 = some (.function 7) :=
  ⟨rfl, rfl, rfl, rfl⟩

end Namespace

end Cyue.Lua
