import Cyue.Net.Attach

/-!
# One drainer for a write buffer

The flag says that somebody drains the buffer, but for the event that `set_wbuf`
arms.  The invariant keeps the two apart.
-/

namespace Cyue.Net.Writing

variable {s t : Writing} {e : Event} {d : Drainer} {l₁ l₂ : List Drainer} {n : ℕ}

/-- Nobody is entitled: the buffer is empty and free, or a send is on its way to
the poller. -/
def Idle (s : Writing) : Prop :=
  s.sender = .outside ∧ s.curr = 0 ∧ s.next = 0 ∧ s.flag = false ∨
    (∃ n, s.sender = .appended n) ∧ s.flag = false ∨ ∃ n, s.sender = .attaching n

structure Inv (s : Writing) : Prop where
  single : s.entitled ≤ 1
  mutex : s.sender ≠ .outside → .swapped ∉ s.drainers
  unarmed : s.link ≠ .up → s.armed = false
  fresh : s.link = .detached ∨ s.link = .set → s.tasks = 0 ∧ s.drainers = []
  attaching : ∀ n, s.sender = .attaching n → s.link ≠ .down → s.tasks = 0 ∧ s.drainers = []
  empty : s.link = .up → .empty ∈ s.drainers → s.curr = 0
  swapped : s.link = .up → .swapped ∈ s.drainers → s.next = 0
  idle : s.link = .up → s.closing = false → s.broken = false → s.entitled = 0 → s.Idle

/-- A thread that drains the buffer is the only one entitled. -/
theorem alone (single : s.entitled ≤ 1) (thread : s.drainers = l₁ ++ d :: l₂) :
    s.armed = false ∧ s.tasks = 0 ∧ l₁ = [] ∧ l₂ = [] := by
  have length : s.drainers.length = l₁.length + (l₂.length + 1) := by
    rw [thread, List.length_append, List.length_cons]
  rw [entitled] at single
  have first : l₁.length = 0 := by omega
  have last : l₂.length = 0 := by omega
  have unarmed : s.armed.toNat = 0 := by omega
  refine ⟨?_, by omega, List.eq_nil_of_length_eq_zero first, List.eq_nil_of_length_eq_zero last⟩
  cases armed : s.armed with
  | false => rfl
  | true => exact nomatch armed ▸ unarmed

theorem start_inv (flag : Bool) (curr next : ℕ) : (start flag curr next).Inv where
  single := Nat.zero_le 1
  mutex := fun inside => absurd rfl inside
  unarmed := fun _ => rfl
  fresh := fun linking => nomatch linking
  attaching := fun _ sender => nomatch sender
  empty := nofun
  swapped := nofun
  idle := nofun

/-! ## The sends -/

theorem send_inv (inv : s.Inv) (unlocked : s.Unlocked) :
    ({ s with next := s.next + n, sender := .appended n } : Writing).Inv where
  single := inv.single
  mutex := fun _ => unlocked.2
  unarmed := inv.unarmed
  fresh := inv.fresh
  attaching := nofun
  empty := inv.empty
  swapped := fun _ swapped => absurd swapped unlocked.2
  idle := fun up opened unbroken none => by
    rcases inv.idle up opened unbroken none with ⟨-, -, -, free⟩ | ⟨⟨m, sender⟩, -⟩ | ⟨m, sender⟩
    · exact .inr (.inl ⟨⟨n, rfl⟩, free⟩)
    · exact nomatch sender.symm.trans unlocked.1
    · exact nomatch sender.symm.trans unlocked.1

theorem taken_inv (inv : s.Inv) (sender : s.sender = .appended n)
    (permits : s.Known → s.tasks = 0 ∧ s.drainers = []) :
    ({ s with flag := true, sender := .attaching n } : Writing).Inv where
  single := inv.single
  mutex := fun _ => inv.mutex (sender ▸ nofun)
  unarmed := inv.unarmed
  fresh := inv.fresh
  attaching := fun m _ linked => by
    cases link : s.link with
    | down => exact absurd link linked
    | detached => exact inv.fresh (.inl link)
    | set => exact inv.fresh (.inr link)
    | up => exact permits link
  empty := inv.empty
  swapped := inv.swapped
  idle := fun _ _ _ _ => .inr (.inr ⟨n, rfl⟩)

theorem joined_inv (inv : s.Inv) (sender : s.sender = .appended n) (held : s.flag = true) :
    ({ s with sender := .outside } : Writing).Inv where
  single := inv.single
  mutex := fun inside => absurd rfl inside
  unarmed := inv.unarmed
  fresh := inv.fresh
  attaching := nofun
  empty := inv.empty
  swapped := inv.swapped
  idle := fun up opened unbroken none => by
    rcases inv.idle up opened unbroken none with ⟨outside, -⟩ | ⟨-, free⟩ | ⟨m, attaching⟩
    · exact nomatch sender.symm.trans outside
    · exact nomatch held.symm.trans free
    · exact nomatch sender.symm.trans attaching

theorem attached_inv (inv : s.Inv) (sender : s.sender = .attaching n) (known : s.Known) :
    ({ s with armed := true, sender := .outside } : Writing).Inv := by
  have up : s.link = .up := known
  obtain ⟨tasks, drainers⟩ := inv.attaching n sender (up ▸ nofun)
  have one : ({ s with armed := true, sender := .outside } : Writing).entitled = 1 := by
    simp only [entitled, tasks, drainers]
    rfl
  exact {
    single := Nat.le_of_eq one
    mutex := fun inside => absurd rfl inside
    unarmed := fun other => absurd up other
    fresh := inv.fresh
    attaching := nofun
    empty := inv.empty
    swapped := inv.swapped
    idle := fun _ _ _ none => nomatch one.symm.trans none }

/-- What a send does that was refused: it gives the flag back and takes its bytes
back.  A connection that is established by then has its own event. -/
theorem refused_inv {sender' : Sender} {flag : Bool} {next : ℕ} (inv : s.Inv)
    (sender : (∃ n, s.sender = .attaching n) ∧ ¬ s.Known ∨ (∃ n, s.sender = .refused n) ∨
      ∃ n, s.sender = .detached n)
    (backs : ∀ n, sender' ≠ .attaching n) :
    ({ s with flag := flag, next := next, sender := sender' } : Writing).Inv := by
  have inside : s.sender ≠ .outside := by
    rcases sender with ⟨⟨n, sender⟩, -⟩ | ⟨n, sender⟩ | ⟨n, sender⟩
    all_goals exact sender ▸ nofun
  exact {
    single := inv.single
    mutex := fun _ => inv.mutex inside
    unarmed := inv.unarmed
    fresh := inv.fresh
    attaching := fun n same => absurd same (backs n)
    empty := inv.empty
    swapped := fun _ swapped => absurd swapped (inv.mutex inside)
    idle := fun up opened unbroken none => by
      rcases inv.idle up opened unbroken none with ⟨outside, -⟩ | ⟨⟨m, appended⟩, -⟩ | ⟨m, attaching⟩
      · exact absurd outside inside
      · rcases sender with ⟨⟨n, sender⟩, -⟩ | ⟨n, sender⟩ | ⟨n, sender⟩
        all_goals exact nomatch sender.symm.trans appended
      · rcases sender with ⟨-, unknown⟩ | ⟨n, sender⟩ | ⟨n, sender⟩
        · exact absurd up unknown
        all_goals exact nomatch sender.symm.trans attaching }

/-! ## The connection -/

theorem reopen_inv {curr next : ℕ} (inv : s.Inv) (down : s.link = .down) (unlocked : s.Unlocked) :
    ({ s with closing := false, curr := curr, next := next } : Writing).Inv where
  single := inv.single
  mutex := fun _ => unlocked.2
  unarmed := inv.unarmed
  fresh := inv.fresh
  attaching := inv.attaching
  empty := fun up => nomatch down.symm.trans up
  swapped := fun up => nomatch down.symm.trans up
  idle := fun up => nomatch down.symm.trans up

theorem detach_inv (inv : s.Inv) (down : s.link = .down)
    (nobody : s.tasks = 0 ∧ s.drainers = []) :
    ({ s with flag := false, link := .detached } : Writing).Inv where
  single := inv.single
  mutex := inv.mutex
  unarmed := fun _ => inv.unarmed (down ▸ nofun)
  fresh := fun _ => nobody
  attaching := fun _ _ _ => nobody
  empty := nofun
  swapped := nofun
  idle := nofun

theorem setWp_inv (inv : s.Inv) (detached : s.link = .detached) :
    ({ s with link := .set } : Writing).Inv where
  single := inv.single
  mutex := inv.mutex
  unarmed := fun _ => inv.unarmed (detached ▸ nofun)
  fresh := fun _ => inv.fresh (.inl detached)
  attaching := fun _ _ _ => inv.fresh (.inl detached)
  empty := nofun
  swapped := nofun
  idle := nofun

theorem arm_inv (inv : s.Inv) (set : s.link = .set) :
    ({ s with link := .up, broken := false, armed := true } : Writing).Inv := by
  obtain ⟨tasks, drainers⟩ := inv.fresh (.inr set)
  have one : ({ s with link := .up, broken := false, armed := true } : Writing).entitled = 1 := by
    simp only [entitled, tasks, drainers]
    rfl
  exact {
    single := Nat.le_of_eq one
    mutex := inv.mutex
    unarmed := fun other => absurd rfl other
    fresh := nofun
    attaching := fun _ _ _ => ⟨tasks, drainers⟩
    empty := fun _ member => nomatch drainers ▸ member
    swapped := fun _ member => nomatch drainers ▸ member
    idle := fun _ _ _ none => nomatch one.symm.trans none }

theorem close_inv (inv : s.Inv) : ({ s with closing := true } : Writing).Inv :=
  { inv with idle := nofun }

theorem shut_inv (inv : s.Inv) : ({ s with link := .down, armed := false } : Writing).Inv where
  single := by
    have single := inv.single
    simp only [entitled, Bool.toNat_false] at single ⊢
    omega
  mutex := inv.mutex
  unarmed := fun _ => rfl
  fresh := nofun
  attaching := fun _ _ down => absurd rfl down
  empty := nofun
  swapped := nofun
  idle := nofun

/-! ## The drainer -/

theorem fire_inv (inv : s.Inv) (armed : s.armed = true)
    (permits : ∀ n, s.sender ≠ .attaching n) :
    ({ s with armed := false, drainers := .fired :: s.drainers } : Writing).Inv := by
  have same : ({ s with armed := false, drainers := .fired :: s.drainers } : Writing).entitled =
      s.entitled := by
    simp only [entitled, armed, List.length_cons, Bool.toNat_false, Bool.toNat_true]
    omega
  have up : s.link = .up := by
    by_contra other
    exact nomatch armed.symm.trans (inv.unarmed other)
  have other {d : Drainer} (fired : d ≠ .fired) (member : d ∈ .fired :: s.drainers) :
      d ∈ s.drainers := (List.mem_cons.mp member).resolve_left fired
  exact {
    single := same ▸ inv.single
    mutex := fun inside member => inv.mutex inside (other nofun member)
    unarmed := fun _ => rfl
    fresh := fun linking => by
      rcases linking with linking | linking
      all_goals exact nomatch linking.symm.trans up
    attaching := fun n sender => absurd sender (permits n)
    empty := fun up member => inv.empty up (other nofun member)
    swapped := fun up member => inv.swapped up (other nofun member)
    idle := fun _ _ _ none => by
      have one : 1 ≤ s.entitled := by
        rw [entitled, armed, Bool.toNat_true]
        omega
      exact absurd (same.symm.trans none) (Nat.one_le_iff_ne_zero.mp one) }

theorem pop_inv (inv : s.Inv) (tasks : s.tasks = n + 1) :
    ({ s with tasks := n, drainers := .entered :: s.drainers } : Writing).Inv := by
  have same : ({ s with tasks := n, drainers := .entered :: s.drainers } : Writing).entitled =
      s.entitled := by
    simp only [entitled, tasks, List.length_cons]
    omega
  have other {d : Drainer} (entered : d ≠ .entered) (member : d ∈ .entered :: s.drainers) :
      d ∈ s.drainers := (List.mem_cons.mp member).resolve_left entered
  have some : ¬ s.tasks = 0 := tasks ▸ Nat.succ_ne_zero n
  exact {
    single := same ▸ inv.single
    mutex := fun inside member => inv.mutex inside (other nofun member)
    unarmed := inv.unarmed
    fresh := fun linking => absurd (inv.fresh linking).1 some
    attaching := fun n sender linked => absurd (inv.attaching n sender linked).1 some
    empty := fun up member => inv.empty up (other nofun member)
    swapped := fun up member => inv.swapped up (other nofun member)
    idle := fun _ _ _ none => by
      have one : 1 ≤ s.entitled := by
        rw [entitled, tasks]
        omega
      exact absurd (same.symm.trans none) (Nat.one_le_iff_ne_zero.mp one) }

theorem popClosing_inv (inv : s.Inv) (tasks : s.tasks = n + 1) (closing : s.closing = true) :
    ({ s with tasks := n } : Writing).Inv where
  single := by
    have single := inv.single
    simp only [entitled, tasks] at single ⊢
    omega
  mutex := inv.mutex
  unarmed := inv.unarmed
  fresh := fun linking => nomatch tasks.symm.trans (inv.fresh linking).1
  attaching := fun n sender linked => nomatch tasks.symm.trans (inv.attaching n sender linked).1
  empty := inv.empty
  swapped := inv.swapped
  idle := fun _ opened => nomatch closing.symm.trans opened

/-- The thread that drains the buffer goes on. -/
theorem drain_inv {d' : Drainer} {curr next : ℕ} (inv : s.Inv)
    (thread : s.drainers = l₁ ++ d :: l₂) (empty : d' = .empty → curr = 0)
    (swapped : d' = .swapped → s.sender = .outside ∧ (s.link = .up → next = 0)) :
    ({ s with curr := curr, next := next, drainers := l₁ ++ d' :: l₂ } : Writing).Inv := by
  obtain ⟨unarmed, tasks, rfl, rfl⟩ := alone inv.single thread
  have one : ({ s with curr := curr, next := next, drainers := [] ++ [d'] } : Writing).entitled =
      1 := by
    simp only [entitled, unarmed, tasks]
    rfl
  have busy : s.drainers ≠ [] := thread ▸ List.cons_ne_nil _ _
  have only {x : Drainer} (member : x ∈ [] ++ [d']) : d' = x := (List.mem_singleton.mp member).symm
  exact {
    single := Nat.le_of_eq one
    mutex := fun inside member => inside (swapped (only member)).1
    unarmed := inv.unarmed
    fresh := fun linking => absurd (inv.fresh linking).2 busy
    attaching := fun n sender linked => absurd (inv.attaching n sender linked).2 busy
    empty := fun _ member => empty (only member)
    swapped := fun up member => (swapped (only member)).2 up
    idle := fun _ _ _ none => nomatch one.symm.trans none }

/-- The thread that drains the buffer leaves it, perhaps with a task. -/
theorem leave_inv {flag broken : Bool} {tasks : ℕ} (inv : s.Inv)
    (thread : s.drainers = l₁ ++ d :: l₂) (one : tasks ≤ s.tasks + 1)
    (idle : s.link = .up → s.closing = false → broken = false → tasks = 0 →
      s.sender = .outside ∧ s.curr = 0 ∧ s.next = 0 ∧ flag = false) :
    ({ s with flag := flag, broken := broken, tasks := tasks, drainers := l₁ ++ l₂ } : Writing).Inv := by
  obtain ⟨unarmed, none, rfl, rfl⟩ := alone inv.single thread
  have busy : s.drainers ≠ [] := thread ▸ List.cons_ne_nil _ _
  have count : ({ s with flag := flag, broken := broken, tasks := tasks, drainers := [] ++ [] } :
      Writing).entitled = tasks := by
    simp only [entitled, unarmed, List.append_nil, List.length_nil]
    simp
  exact {
    single := by
      rw [count]
      omega
    mutex := fun _ member => nomatch member
    unarmed := inv.unarmed
    fresh := fun linking => absurd (inv.fresh linking).2 busy
    attaching := fun n sender linked => absurd (inv.attaching n sender linked).2 busy
    empty := fun _ member => nomatch member
    swapped := fun _ member => nomatch member
    idle := fun up opened unbroken zero => .inl (idle up opened unbroken (count.symm.trans zero)) }

/-! ## Runs -/

/-- A permitted step keeps the invariant. -/
theorem step_inv (inv : s.Inv) (permits : s.Permits e) (step : Step s e t) : t.Inv := by
  cases step with
  | send n unlocked => exact send_inv inv unlocked
  | taken sender free => exact taken_inv inv sender permits
  | joined sender held => exact joined_inv inv sender held
  | attached sender known => exact attached_inv inv sender known
  | refused sender unknown => exact refused_inv inv (.inl ⟨⟨_, sender⟩, unknown⟩) nofun
  | released sender => exact refused_inv inv (.inr (.inl ⟨_, sender⟩)) nofun
  | rolledBack sender written => exact refused_inv inv (.inr (.inr ⟨_, sender⟩)) nofun
  | reopen curr next down unlocked => exact reopen_inv inv down unlocked
  | detach down => exact detach_inv inv down permits
  | setWp detached => exact setWp_inv inv detached
  | arm set => exact arm_inv inv set
  | close => exact close_inv inv
  | shut up => exact shut_inv inv
  | fire armed => exact fire_inv inv armed permits
  | found thread linked => exact drain_inv inv thread nofun nofun
  | unlinked thread unlinked =>
      refine leave_inv inv thread (Nat.le_succ _) fun up => ?_
      rcases unlinked with down | detached
      · exact nomatch down.symm.trans up
      · exact nomatch detached.symm.trans up
  | pop tasks opened => exact pop_inv inv tasks
  | popClosing tasks closing => exact popClosing_inv inv tasks closing
  | currEmpty thread none => exact drain_inv inv thread (fun _ => none) nofun
  | currFull thread some => exact drain_inv inv thread nofun nofun
  | swap thread unlocked =>
      refine drain_inv inv thread nofun fun _ => ⟨unlocked.1, fun up => inv.empty up ?_⟩
      rw [thread]
      exact List.mem_append_right _ List.mem_cons_self
  | finished thread none =>
      have holds : .swapped ∈ s.drainers := thread ▸ List.mem_append_right _ List.mem_cons_self
      refine leave_inv inv thread (Nat.le_succ _) fun up _ _ _ => ⟨?_, none, inv.swapped up holds, rfl⟩
      by_contra inside
      exact inv.mutex inside holds
  | unfinished thread some => exact drain_inv inv thread nofun nofun
  | written thread shrinks => exact drain_inv inv thread nofun nofun
  | keep thread => exact leave_inv inv thread (Nat.le_refl _) fun _ _ _ none => nomatch none
  | writeAgain thread => exact absurd permits id
  | fail thread => exact leave_inv inv thread (Nat.le_succ _) fun _ _ unbroken => nomatch unbroken

theorem reaches_inv (inv : s.Inv) (reaches : Reaches s t) : t.Inv := by
  induction reaches with
  | refl => exact inv
  | step _ step permits ih => exact step_inv ih permits step

theorem Inv.drained (inv : s.Inv) : s.Drained where
  single := inv.single
  some := by
    intro up opened unbroken outside bytes
    by_contra nobody
    rcases inv.idle up opened unbroken (Nat.eq_zero_of_not_pos nobody) with
      ⟨-, curr, next, -⟩ | ⟨⟨n, appended⟩, -⟩ | ⟨n, attaching⟩
    · rw [curr, next] at bytes
      exact Nat.lt_irrefl 0 bytes
    · exact nomatch outside.symm.trans appended
    · exact nomatch outside.symm.trans attaching

/-- In a run whose steps are all permitted a write buffer always has at most one
drainer, and it has one while there is something to drain. -/
theorem drainer_single (flag : Bool) (curr next : ℕ)
    (reaches : Reaches (start flag curr next) s) : s.Drained :=
  (reaches_inv (start_inv flag curr next) reaches).drained

/-- A send after the event that `set_wbuf` has armed. -/
theorem drainer_single_send : Drained ⟨.up, false, false, true, 0, 5, true, 0, .outside, []⟩ := by
  have linked : Reaches (start false 0 0) ⟨.up, false, false, false, 0, 0, true, 0, .outside, []⟩ :=
    .step (.step (.step (.refl _) (.detach rfl) ⟨rfl, rfl⟩) (.setWp rfl) trivial) (.arm rfl) trivial
  have fired : Reaches (start false 0 0)
      ⟨.up, false, false, false, 0, 0, false, 0, .outside, [.entered]⟩ :=
    .step (.step linked (.fire rfl) fun _ => nofun) (@Step.found _ [] [] rfl (.inl rfl)) trivial
  have drained : Reaches (start false 0 0)
      ⟨.up, false, false, false, 0, 0, false, 0, .outside, []⟩ :=
    .step (.step (.step fired (@Step.currEmpty _ [] [] rfl rfl) trivial)
      (@Step.swap _ [] [] rfl ⟨rfl, by decide⟩) trivial) (@Step.finished _ [] [] rfl rfl) trivial
  have sent : Reaches (start false 0 0)
      ⟨.up, false, false, true, 0, 5, true, 0, .outside, []⟩ :=
    .step (.step (.step drained (.send 5 ⟨rfl, by decide⟩) trivial) (.taken rfl rfl)
      fun _ => ⟨rfl, rfl⟩) (.attached rfl rfl) trivial
  exact drainer_single false 0 0 sent

/-! ## What is not permitted -/

/-- A send that attaches while the buffer is drained makes a second drainer. -/
theorem attached_doubles (busy : 0 < s.tasks + s.drainers.length) (step : Step s .attached t) :
    2 ≤ t.entitled := by
  cases step with
  | attached sender known =>
      simp only [entitled, Bool.toNat_true]
      omega

/-- A write that would block is never resumed. -/
theorem writeAgain_lost (single : s.entitled ≤ 1) (step : Step s .writeAgain t) :
    t.entitled = 0 := by
  cases step with
  | writeAgain thread =>
      obtain ⟨unarmed, tasks, rfl, rfl⟩ := alone single thread
      simp only [entitled, unarmed, tasks]
      rfl

/-- A send while the event of `set_wbuf` is handled. -/
theorem drainer_doubled : ¬ ∀ (flag : Bool) (curr next : ℕ) (s : Writing),
    Runs (start flag curr next) s → s.Drained := by
  intro claim
  have fired : Runs (start false 0 0)
      ⟨.up, false, false, false, 0, 0, false, 0, .outside, [.entered]⟩ :=
    .step (.step (.step (.step (.step (.refl _) (.detach rfl)) (.setWp rfl)) (.arm rfl)) (.fire rfl))
      (@Step.found _ [] [] rfl (.inl rfl))
  have sent : Runs (start false 0 0)
      ⟨.up, false, false, true, 0, 5, true, 0, .outside, [.empty]⟩ :=
    .step (.step (.step (.step fired (@Step.currEmpty _ [] [] rfl rfl))
      (.send 5 ⟨rfl, by decide⟩)) (.taken rfl rfl)) (.attached rfl rfl)
  have single := (claim false 0 0 _ sent).single
  exact absurd single (by decide)

end Cyue.Net.Writing
