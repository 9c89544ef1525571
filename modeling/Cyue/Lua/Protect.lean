import Cyue.Lua.Namespace

/-!
# Protected namespaces

A lookup for a remote peer finds no symbol with a part that starts with an underscore.
The fields of the namespace object itself, `__sym` and `__emitter`, are found before
`fetcher` is asked.
-/

namespace Cyue.Lua

variable {π : Type*}

def Underscored (k : Symbol) : Prop := ∃ c ∈ components k, c.head? = some underscore

namespace Heap

variable {h : Heap π}

/-- What the parts of a key lead to, from a table on. -/
def follow (h : Heap π) (t : ℕ) : List Symbol → Value π
  | [] => .table t
  | [c] => h.fields t c
  | c :: cs =>
      match h.fields t c with
      | .table t => h.follow t cs
      | _ => .nil

def Branches (h : Heap π) (t : ℕ) : List Symbol → Prop
  | [] => True
  | [_] => True
  | c :: cs => h.fields t c = .nil ∨ ∃ t', h.fields t c = .table t' ∧ h.Branches t' cs

/-- Without a protected part, the parts are followed. -/
theorem reach_follow {t : ℕ} {cs : List Symbol} (branches : h.Branches t cs)
    (plain : ∀ c, c ∈ cs → c.head? ≠ some underscore) :
    h.reach false (.table t) cs = some (h.follow t cs) := by
  induction cs generalizing t with
  | nil => rfl
  | cons c cs ih =>
      have allowed : ¬ (false = false ∧ c.head? = some underscore) := fun both =>
        plain c List.mem_cons_self both.2
      rw [reach, if_neg allowed]
      cases cs with
      | nil => rfl
      | cons d cs =>
          rw [if_neg (List.cons_ne_nil d cs), rawget]
          rcases branches with missing | ⟨t', found, branches⟩
          · rw [follow, missing]
            · rfl
            · exact fun same => by cases same
          · rw [follow, found]
            · exact ih branches fun e member => plain e (List.mem_cons_of_mem c member)
            · exact fun same => by cases same

/-- With a protected part the lookup ends with nothing, or with an error in front of it. -/
theorem reach_protected {r : Value π} {cs : List Symbol}
    (hidden : ∃ c ∈ cs, c.head? = some underscore) :
    h.reach false r cs = none ∨ h.reach false r cs = some .nil := by
  induction cs generalizing r with
  | nil => exact hidden.elim fun _ member => nomatch member.1
  | cons c cs ih =>
      rw [reach]
      by_cases here : c.head? = some underscore
      · exact .inr (if_pos ⟨rfl, here⟩)
      · have later : ∃ c ∈ cs, c.head? = some underscore := by
          obtain ⟨d, member, start⟩ := hidden
          rcases List.mem_cons.mp member with rfl | member
          · exact absurd start here
          · exact ⟨d, member, start⟩
        have more : cs ≠ [] := by
          rintro rfl
          exact later.elim fun _ member => nomatch member.1
        rw [if_neg fun both => here both.2, if_neg more]
        cases h.rawget r c with
        | none => exact .inl rfl
        | some r =>
            dsimp only
            split
            · exact ih later
            · exact .inr rfl

/-- With tables or nothing on the way there is no error. -/
theorem reach_hidden {t : ℕ} {cs : List Symbol} (branches : h.Branches t cs)
    (hidden : ∃ c ∈ cs, c.head? = some underscore) :
    h.reach false (.table t) cs = some .nil := by
  refine (reach_protected hidden).resolve_left fun raised => ?_
  clear hidden
  induction cs generalizing t with
  | nil => cases raised
  | cons c cs ih =>
      rw [reach] at raised
      split at raised
      · cases raised
      · cases cs with
        | nil => cases raised
        | cons d cs =>
            rw [if_neg (List.cons_ne_nil d cs), rawget] at raised
            rcases branches with missing | ⟨t', found, branches⟩
            · rw [missing] at raised
              cases raised
            · rw [found] at raised
              exact ih branches raised

end Heap

namespace Namespace

variable [DecidableEq π] {s : Namespace π}

omit [DecidableEq π] in
theorem fetcher_protected {k : Symbol} (remote : s.localCall = false) (hidden : Underscored k) :
    s.fetcher k = none ∨ s.fetcher k = some .nil := by
  rw [fetcher, remote, Heap.fetcher_eq]
  exact Heap.reach_protected hidden

/-- A namespace is protected as long as it has no fields of its own with a protected part,
except for the two that it is made of. -/
structure Protected (s : Namespace π) : Prop where
  remote : s.localCall = false
  own : ∀ k, Underscored k → s.own k ≠ .nil → k = symField ∨ k = emitterField

omit [DecidableEq π] in
theorem Protected.same {s' : Namespace π} (safe : s.Protected) (localCall : s'.localCall = s.localCall)
    (own : s'.own = s.own) : s'.Protected :=
  ⟨localCall.trans safe.remote, fun k hidden found => safe.own k hidden (own ▸ found)⟩

omit [DecidableEq π] in
theorem Protected.rawset (safe : s.Protected) {k : Symbol} (v : Value π)
    (known : Underscored k → k = symField ∨ k = emitterField) : (s.rawset k v).Protected := by
  refine ⟨safe.remote, fun k' hidden found => ?_⟩
  by_cases same : k' = k
  · subst same
    exact known hidden
  · exact safe.own k' hidden fun missing => found ((Function.update_of_ne same ..).trans missing)

/-- A lookup stores what it has found, and that has no protected part. -/
theorem Protected.index (safe : s.Protected) (k : Symbol) : (s.index k).1.Protected := by
  rw [Namespace.index]
  split
  · cases found : s.fetcher k with
    | none => exact safe
    | some r =>
        dsimp only
        split
        case isTrue true_value =>
          refine safe.rawset r fun hidden => ?_
          rcases fetcher_protected safe.remote hidden with raised | missing
          · exact nomatch found.symm.trans raised
          · obtain rfl := Option.some.inj (found.symm.trans missing)
            exact nomatch true_value
        case isFalse => exact safe
  · exact safe

omit [DecidableEq π] in
theorem setSymbol_same (s : Namespace π) (k : Symbol) (v : Value π) :
    (s.setSymbol k v).own = s.own ∧ (s.setSymbol k v).localCall = s.localCall := by
  rw [setSymbol]
  split <;> exact ⟨rfl, rfl⟩

omit [DecidableEq π] in
theorem Protected.setSymbol (safe : s.Protected) (k : Symbol) (v : Value π) :
    (s.setSymbol k v).Protected :=
  safe.same (setSymbol_same s k v).2 (setSymbol_same s k v).1

theorem Protected.bind (safe : s.Protected) (key : Symbol) (f : π) : (s.bind key f).Protected := by
  have created : Namespace.Protected { s with heap := s.heap.createCallbackList } := safe.same rfl rfl
  obtain ⟨s', listed, pushed⟩ := s.bind_cases key f
  have safe' : s'.Protected := by
    rcases listed with rfl | ⟨-, rfl⟩ | ⟨present, rfl⟩
    · exact safe
    · exact created.setSymbol key _
    · exact created.rawset _ fun hidden => safe.own key hidden present
  rcases pushed with same | ⟨list, same⟩
  · rw [same]
    exact safe'
  · rw [same]
    exact safe'.same rfl rfl

theorem Protected.newindex (safe : s.Protected) (k : Symbol) (v : Value π) :
    (s.newindex k v).Protected := by
  unfold Namespace.newindex
  split
  · split
    · have looked := safe.index emitterField
      dsimp only
      split
      · split
        · exact looked.bind k _
        · exact looked
      · exact looked
    · exact safe.setSymbol k _
  · exact safe.setSymbol k _

theorem Protected.assign (safe : s.Protected) (k : Symbol) (v : Value π) :
    (s.assign k v).Protected := by
  rw [Namespace.assign]
  split
  · exact safe.newindex k v
  case isFalse present => exact safe.rawset v fun hidden => safe.own k hidden present

theorem Protected.start (safe : s.Protected) (endp : Endpoint) (cmd : Symbol)
    (args : List (Option (Value π))) : (s.start endp cmd args).1.Protected := by
  rw [Namespace.start]
  split
  · have looked : (s.loadProc cmd false).1.Protected := safe.index cmd
    dsimp only
    split
    · exact looked
    · exact looked
    · split <;> exact looked
  · exact safe

/-- What the program does keeps a namespace protected. -/
theorem Protected.step (safe : s.Protected) (a : Act π) : (s.step a).Protected := by
  cases a with
  | newTable => exact safe.same rfl rfl
  | ctor =>
      have safe' : Protected { s with heap := { s.heap with
          emitters := Function.update s.heap.emitters s.heap.fresh true, fresh := s.heap.fresh + 1 } } :=
        safe.same rfl rfl
      rw [Namespace.step, ctor]
      dsimp only
      split
      · exact safe'.rawset _ fun _ => .inr rfl
      · exact safe'
  | unref e =>
      rw [Namespace.step, unrefNamespace]
      split
      · exact (safe.index emitterField).assign emitterField .nil
      · exact safe.index emitterField
  | lookup k => exact safe.index k
  | define k v => exact safe.assign k v
  | global k v => exact safe.assign k v
  | field t k v => exact safe.same rfl rfl
  | request endp cmd args => exact safe.start endp cmd args

omit [DecidableEq π] in
theorem create_protected : (create false : Namespace π).Protected := by
  refine ⟨rfl, fun k _ found => .inl ?_⟩
  by_contra other
  have missing : (create false : Namespace π).own k = .nil := by
    change Function.update (fun _ => Value.nil) symField (.table 0) k = .nil
    exact Function.update_of_ne other ..
  exact found missing

theorem Protected.run (safe : s.Protected) (acts : List (Act π)) :
    (acts.foldl Namespace.step s).Protected := by
  induction acts generalizing s with
  | nil => exact safe
  | cons a acts ih => exact ih (safe.step a)

/-- A request with a protected part in its name finds a field of the namespace object,
or nothing. -/
theorem Protected.loaded (safe : s.Protected) {cmd : Symbol} (hidden : Underscored cmd) {f : π} :
    (s.loadProc cmd false).2 = some (.function f) ↔
      (cmd = symField ∨ cmd = emitterField) ∧ s.own cmd = .function f := by
  change (s.index cmd).2 = _ ↔ _
  rw [Namespace.index]
  by_cases missing : s.own cmd = .nil
  · rw [if_pos missing]
    constructor
    · intro found
      rcases fetcher_protected safe.remote hidden with raised | absent
      · rw [raised] at found
        exact nomatch found
      · rw [absent] at found
        exact nomatch found
    · rintro ⟨-, found⟩
      exact nomatch missing.symm.trans found
  · rw [if_neg missing]
    constructor
    · intro found
      exact ⟨safe.own cmd hidden missing, Option.some.inj found⟩
    · rintro ⟨-, found⟩
      exact congrArg some found

/-- When a request runs a function. -/
theorem start_function_iff {endp : Endpoint} {cmd : Symbol} {args : List (Option (Value π))} {f : π}
    {al : ℕ} : (s.start endp cmd args).2 = .resumed (.function f) al ↔
      endp.authorized = true ∧ args.all Option.isSome = true ∧ al = args.length ∧
        (s.loadProc cmd false).2 = some (.function f) := by
  rw [start]
  by_cases allowed : endp.authorized = true
  · rw [if_pos allowed]
    dsimp only
    cases loaded : (s.loadProc cmd false).2 with
    | none => simp
    | some proc =>
        cases proc with
        | nil => simp
        | _ =>
            dsimp only
            split
            case isTrue given => simp [allowed, given, and_comm, eq_comm]
            case isFalse refused => simp [refused]
  · rw [if_neg allowed]
    simp [allowed]

/-- A lookup follows the parts of its key and finds nothing behind a protected one, and
a request that is refused or has a protected part runs no procedure unless the program has
put one in the place of a field of the namespace object. -/
theorem protected_calls_iff (acts : List (Act π)) (endp : Endpoint) (cmd : Symbol)
    (args : List (Option (Value π))) :
    (∀ (h : Heap π) (t : ℕ) (k : Symbol), h.Branches t (components k) →
      (¬ Underscored k → h.fetcher (.table t) k false = some (h.follow t (components k))) ∧
        (Underscored k → h.fetcher (.table t) k false = some .nil)) ∧
    (endp.authorized = false ∨ Underscored cmd →
      ((∀ f al, ((acts.foldl step (create false)).start endp cmd args).2 ≠
          .resumed (.function f) al) ↔
        (endp.authorized = true → args.all Option.isSome = true →
          cmd = symField ∨ cmd = emitterField →
            ∀ f, (acts.foldl step (create false)).own cmd ≠ .function f))) := by
  constructor
  · intro h t k branches
    rw [Heap.fetcher_eq]
    constructor
    · intro plain
      exact Heap.reach_follow branches fun c member start => plain ⟨c, member, start⟩
    · exact Heap.reach_hidden branches
  · intro refused
    have safe : (acts.foldl step (create false : Namespace π)).Protected := create_protected.run acts
    generalize acts.foldl step (create false) = s at safe ⊢
    constructor
    · intro quiet allowed given name f found
      have hidden : Underscored cmd := by
        refine refused.resolve_left fun denied => ?_
        exact Bool.false_ne_true (denied.symm.trans allowed)
      exact quiet f args.length
        (start_function_iff.mpr ⟨allowed, given, rfl, (safe.loaded hidden).mpr ⟨name, found⟩⟩)
    · intro quiet f al ran
      obtain ⟨allowed, given, -, loaded⟩ := start_function_iff.mp ran
      have hidden : Underscored cmd := by
        refine refused.resolve_left fun denied => ?_
        exact Bool.false_ne_true (denied.symm.trans allowed)
      obtain ⟨name, found⟩ := (safe.loaded hidden).mp loaded
      exact quiet allowed given name f found

/-- A file that is imported defines the function `__emitter`, and a peer calls it. -/
theorem emitter_called :
    Underscored emitterField ∧
      (([.ctor, .global emitterField (.function 7)].foldl step (create false : Namespace ℕ)).start
        (.remote true true) emitterField []).2 = .resumed (.function 7) 0 := by
  have whole : components emitterField = [emitterField] := List.splitOn_eq_singleton (by decide)
  refine ⟨⟨emitterField, ?_, rfl⟩, rfl⟩
  rw [whole]
  exact List.mem_singleton_self _

end Namespace

end Cyue.Lua
