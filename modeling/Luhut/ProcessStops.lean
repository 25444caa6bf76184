import Luhut.ProcessRuns

set_option autoImplicit false

/-! stopX acts through the handle, so what it reaches is what the handle shows at
that moment. Once the stops are issued and no start follows, a slot whose
children are all killed, or will be by a taskkill still to run, drains to
nothing; in any other slot a child can outlive every pending operation. -/
namespace Luhut.ProcessManager
open DartInt LabelledRuns

/-- Nothing is pending: no spawn, no taskkill, no kill without its exit and no
    exit without its notification. -/
structure Slot.Quiescent (s : Slot) : Prop where
  idle : s.Idle
  exited : ∀ c ∈ s.children, c.killed = true → c.alive = false
  notified : ∀ c ∈ s.children, c.alive = false → c.notified = true

def Quiescent (m : ProcessManagerService) : Prop := ∀ x, (m x).Quiescent

structure NothingRunning (m : ProcessManagerService) : Prop where
  children : ∀ x, ∀ c ∈ (m x).children, c.alive = false
  nginx : isNginxRunning m = false
  php : isPhpRunning m = false
  mysql : isMysqlRunning m = false

def NoStart (_ : ProcessManagerService) : Action → Prop
  | .call c => c.isStart = false
  | .event _ _ => True

/-- stopNginx or stopMySQL made now ends every child: no spawn is pending, and
    the stop runs a taskkill, or one is still to run, or nothing is left to kill. -/
def Slot.Stoppable (s : Slot) : Prop :=
  s.starting = [] ∧ (s.isRunning = true ∨ .running ∈ s.stopping ∨ AllKilled s.children)

def Slot.StoppableNow (s : Slot) : Prop :=
  s.starting = [] ∧ ∀ k c, s.children[k]? = some c → c.alive = true →
    c.killed = true ∨ s.process = some k

def Slot.Doomed (s : Slot) : Prop :=
  s.starting = [] ∧ (.running ∈ s.stopping ∨ AllKilled s.children)

theorem doomed_step {s s' : Slot} {a : SlotAction} (inv : s.Doomed)
    (ok : ∀ spawn, a ≠ .start spawn) (h : s.step a = some s') : s'.Doomed := by
  obtain ⟨hstart, hkill⟩ := inv
  have hstart' : s'.starting = [] := by
    rcases step_starting h with ⟨spawn, rfl, _⟩ | hs | ⟨i, hi, _⟩
    · exact absurd rfl (ok spawn)
    · rw [hs, hstart]
    · rw [hstart] at hi
      exact absurd hi (Nat.not_lt_zero i)
  have ages : Ages s.children s'.children := by
    rcases step_children h with ⟨i, spawn, rfl, hi, _⟩ | ages
    · rw [hstart] at hi
      cases hi
    · exact ages
  refine ⟨hstart', ?_⟩
  rcases hkill with hrun | hall
  · -- a taskkill leaves the pending list only through `taskkilled`
    cases a with
    | start spawn => exact absurd rfl (ok spawn)
    | stop =>
      cases h
      unfold Slot.stop
      split
      · exact Or.inl (List.mem_append_left _ hrun)
      · exact Or.inl hrun
    | stopNow =>
      cases h
      unfold Slot.stopNow
      split <;> exact Or.inl hrun
    | event e =>
      have hs := event_spec h
      cases e with
      | spawned i => obtain ⟨_, _, rfl⟩ := hs; exact Or.inl hrun
      | spawnFailed | exited | notified => obtain ⟨_, rfl⟩ := hs; exact Or.inl hrun
      | taskkilled i => obtain ⟨_, rfl⟩ := hs; exact Or.inr (allKilled_taskkill _)
      | stopped i =>
        obtain ⟨hi, rfl⟩ := hs
        refine Or.inl ?_
        obtain ⟨j, hj⟩ := List.mem_iff_getElem?.mp hrun
        have hne : j ≠ i := by
          rintro rfl
          rw [hj] at hi
          cases hi
        exact List.mem_eraseIdx_iff_getElem?.mpr ⟨j, hne, hj⟩
  · exact Or.inr (ages.allKilled hall)

/-- The handle holds a child whose notification is still to come. -/
def Slot.Held (s : Slot) : Prop :=
  ∀ p, s.process = some p → ∃ c, s.children[p]? = some c ∧ c.notified = false

theorem Slot.Held.keep {s s' : Slot} (inv : s.Held) (hp : s'.process = s.process)
    (hc : ∀ (k : ℕ) (c : Child), s.children[k]? = some c →
      ∃ c', s'.children[k]? = some c' ∧ c'.notified = c.notified) : s'.Held := by
  intro p h
  obtain ⟨c, hk, hn⟩ := inv p (hp ▸ h)
  obtain ⟨c', hk', hn'⟩ := hc p c hk
  exact ⟨c', hk', hn'.trans hn⟩

theorem modify_notified {cs : List Child} (f : Child → Child) (p : ℕ)
    (hf : ∀ c, (f c).notified = c.notified) {k : ℕ} {c : Child} (hk : cs[k]? = some c) :
    ∃ c', (cs.modify p f)[k]? = some c' ∧ c'.notified = c.notified := by
  refine ⟨_, by rw [List.getElem?_modify, hk]; rfl, ?_⟩
  dsimp only
  split
  · exact hf c
  · rfl

theorem held_of_none {s : Slot} (h : s.process = none) : s.Held := by
  intro p hp
  cases h.symm.trans hp

theorem held_step {s s' : Slot} {a : SlotAction} (inv : s.Held) (h : s.step a = some s') :
    s'.Held := by
  cases a with
  | start spawn =>
    cases h
    unfold Slot.start
    split <;> exact inv
  | stop =>
    cases h
    cases hp : s.process with
    | none => rw [stop_none hp]; exact inv
    | some p =>
      rw [stop_some hp]
      exact inv.keep rfl fun k c hk => modify_notified Child.kill p (fun _ => rfl) hk
  | stopNow =>
    cases h
    cases hp : s.process with
    | none => rw [stopNow_none hp]; exact inv
    | some p => rw [stopNow_some hp]; exact held_of_none rfl
  | event e =>
    have hs := event_spec h
    cases e with
    | spawned i =>
      obtain ⟨spawn, _, rfl⟩ := hs
      intro p hp
      cases hp
      exact ⟨_, List.getElem?_concat_length, rfl⟩
    | spawnFailed i => obtain ⟨_, rfl⟩ := hs; exact inv
    | taskkilled i =>
      obtain ⟨_, rfl⟩ := hs
      refine inv.keep rfl fun k c hk => ⟨c.kill, ?_, rfl⟩
      simp [hk]
    | stopped i => obtain ⟨_, rfl⟩ := hs; exact held_of_none rfl
    | exited k =>
      obtain ⟨_, rfl⟩ := hs
      exact inv.keep rfl fun j c hj =>
        modify_notified (fun c => { c with alive := false }) k (fun _ => rfl) hj
    | notified k => obtain ⟨_, rfl⟩ := hs; exact held_of_none rfl

theorem Slot.Quiescent.nothing {s : Slot} (hq : s.Quiescent) (doomed : s.Doomed) (held : s.Held) :
    (∀ c ∈ s.children, c.alive = false) ∧ s.isRunning = false := by
  have killed : AllKilled s.children := by
    refine doomed.2.resolve_left fun hrun => ?_
    rw [hq.idle.2] at hrun
    cases hrun
  have dead : ∀ c ∈ s.children, c.alive = false := by
    intro c hc
    cases alive : c.alive with
    | false => rfl
    | true => exact absurd (alive.symm.trans (hq.exited c hc (killed c hc alive))) (by simp)
  refine ⟨dead, ?_⟩
  cases hp : s.process with
  | none => rw [Slot.isRunning, hp]; rfl
  | some p =>
    obtain ⟨c, hk, owed⟩ := held p hp
    have hc : c ∈ s.children := List.mem_of_getElem? hk
    rw [hq.notified c hc (dead c hc)] at owed
    cases owed

def Child.debt (c : Child) : ℕ :=
  if c.alive then if c.killed then 2 else 0 else if c.notified then 0 else 1

def Slot.debt (s : Slot) : ℕ :=
  s.starting.length + s.stopping.length + (s.children.map Child.debt).sum

theorem sum_debt_modify_lt {cs : List Child} {k : ℕ} {c : Child} {f : Child → Child}
    (hk : cs[k]? = some c) (hf : (f c).debt < c.debt) :
    ((cs.modify k f).map Child.debt).sum < (cs.map Child.debt).sum := by
  induction cs generalizing k with
  | nil => cases hk
  | cons b cs ih =>
    cases k with
    | zero =>
      cases hk
      rw [List.modify_zero_cons]
      simp only [List.map_cons, List.sum_cons]
      omega
    | succ k =>
      have tail := ih hk
      rw [List.modify_succ_cons]
      simp only [List.map_cons, List.sum_cons]
      omega

def Survives (s s' : Slot) : Prop :=
  ∀ (k : ℕ) (c : Child), s.children[k]? = some c → c.alive = true → c.killed = false →
    s'.children[k]? = some c

theorem Survives.refl (s : Slot) : Survives s s := fun _ _ hk _ _ => hk

theorem Survives.trans {s u v : Slot} (h : Survives s u) (h' : Survives u v) : Survives s v :=
  fun k c hk alive unkilled => h' k c (h k c hk alive unkilled) alive unkilled

theorem survives_modify {s s' : Slot} {k : ℕ} {c : Child} {f : Child → Child}
    (hs : s'.children = s.children.modify k f) (hk : s.children[k]? = some c)
    (hc : c.alive = true → c.killed = true) : Survives s s' := by
  intro j d hj alive unkilled
  have hne : k ≠ j := by
    rintro rfl
    cases hk.symm.trans hj
    rw [hc alive] at unkilled
    cases unkilled
  rw [hs, List.getElem?_modify_ne f _ hne]
  exact hj

theorem quiesce_step {s : Slot} (calm : .running ∉ s.stopping) (hq : ¬ s.Quiescent) :
    ∃ e s', s.event e = some s' ∧ s'.debt < s.debt ∧ .running ∉ s'.stopping ∧ Survives s s' := by
  cases hstart : s.starting with
  | cons a rest =>
    refine ⟨.spawned 0, _, event_spawned (by rw [hstart]; rfl), ?_, calm, ?_⟩
    · simp [Slot.debt, Slot.started, hstart, Child.debt]
    · intro k c hk _ _
      exact List.getElem?_append_left (List.getElem?_eq_some_iff.mp hk).choose ▸ hk
  | nil =>
  cases hstop : s.stopping with
  | cons t rest =>
    have ht : t = .finished := by
      cases t with
      | finished => rfl
      | running => rw [hstop] at calm; exact absurd List.mem_cons_self calm
    refine ⟨.stopped 0, _, if_pos (by rw [hstop, ht]; rfl), ?_, ?_, .refl s⟩
    · simp [Slot.debt, hstop]
    · exact fun hrun => calm (List.mem_of_mem_eraseIdx hrun)
  | nil =>
  by_cases hexit : ∀ c ∈ s.children, c.killed = true → c.alive = false
  · have howed : ¬ ∀ c ∈ s.children, c.alive = false → c.notified = true :=
      fun hn => hq ⟨⟨hstart, hstop⟩, hexit, hn⟩
    simp only [not_forall] at howed
    obtain ⟨c, hc, dead, owed⟩ := howed
    obtain ⟨k, hk⟩ := List.mem_iff_getElem?.mp hc
    have owed' : c.notified = false := by simpa using owed
    refine ⟨.notified k, _, if_pos (by rw [hk, Option.any_some, dead, owed']; rfl), ?_, ?_, ?_⟩
    · exact Nat.add_lt_add_left (sum_debt_modify_lt hk (by simp [Child.debt, dead, owed'])) _
    · exact calm
    · exact survives_modify rfl hk (by simp [dead])
  · simp only [not_forall] at hexit
    obtain ⟨c, hc, killed, alive⟩ := hexit
    obtain ⟨k, hk⟩ := List.mem_iff_getElem?.mp hc
    have alive' : c.alive = true := by simpa using alive
    refine ⟨.exited k, _, if_pos (by rw [hk, Option.any_some, alive']), ?_, calm, ?_⟩
    · refine Nat.add_lt_add_left (sum_debt_modify_lt hk ?_) _
      cases hn : c.notified <;> simp [Child.debt, alive', killed]
    · exact survives_modify rfl hk fun _ => killed

theorem drain_calm {s : Slot} (calm : .running ∉ s.stopping) :
    ∃ es s', Runs Slot.event always s es s' ∧ s'.Quiescent ∧ Survives s s' := by
  obtain ⟨es, s', hrun, ⟨_, hsurvives⟩, hq⟩ := Runs.descend Slot.event Slot.debt
    (fun u => .running ∉ u.stopping ∧ Survives s u) Slot.Quiescent
    (fun u inv hq => by
      obtain ⟨e, v, he, hlt, calm', hsurvives⟩ := quiesce_step inv.1 hq
      exact ⟨e, v, he, hlt, calm', inv.2.trans hsurvives⟩)
    s ⟨calm, .refl s⟩
  exact ⟨es, s', hrun, hq, hsurvives⟩

theorem run_taskkills (s : Slot) :
    ∃ es s', Runs Slot.event always s es s' ∧ s'.starting = s.starting ∧
      .running ∉ s'.stopping := by
  refine Runs.descend Slot.event (fun u => u.stopping.count .running)
    (fun u => u.starting = s.starting) (fun u => .running ∉ u.stopping) ?_ s rfl
  intro u hu hrun
  obtain ⟨i, hi⟩ := List.mem_iff_getElem?.mp (not_not.mp hrun)
  refine ⟨.taskkilled i, _, if_pos hi, ?_, hu⟩
  obtain ⟨hlt, hget⟩ := List.getElem?_eq_some_iff.mp hi
  have hpos : 0 < u.stopping.count .running := List.count_pos_iff.mpr (not_not.mp hrun)
  change (u.stopping.set i .finished).count .running < _
  rw [List.count_set hlt, hget]
  simp only [BEq.rfl, reduceCtorEq, beq_iff_eq, if_true, if_false]
  omega

theorem drain (s : Slot) : ∃ es s', Runs Slot.event always s es s' ∧ s'.Quiescent := by
  obtain ⟨es, u, hrun, _, calm⟩ := run_taskkills s
  obtain ⟨es', s', hrun', hq, _⟩ := drain_calm calm
  exact ⟨es ++ es', s', hrun.trans hrun', hq⟩

theorem survivor_of_not_doomed {s : Slot} (h : ¬ s.Doomed) :
    ∃ es s', Runs Slot.event always s es s' ∧ s'.Quiescent ∧ ∃ c ∈ s'.children, c.alive = true := by
  cases hstart : s.starting with
  | nil =>
    simp only [Slot.Doomed, hstart, true_and, not_or, AllKilled, not_forall] at h
    obtain ⟨calm, c, hc, alive, unkilled⟩ := h
    obtain ⟨k, hk⟩ := List.mem_iff_getElem?.mp hc
    obtain ⟨es, s', hrun, hq, hsurvives⟩ := drain_calm calm
    have hk' := hsurvives k c hk alive (by simpa using unkilled)
    exact ⟨es, s', hrun, hq, c, List.mem_of_getElem? hk', alive⟩
  | cons spawn rest =>
    -- the pending start completes after every taskkill has run
    obtain ⟨es, u, hrun, hu, calm⟩ := run_taskkills s
    have hspawn : u.event (.spawned 0) =
        some (Slot.started spawn { u with starting := u.starting.eraseIdx 0 }) :=
      event_spawned (by rw [hu, hstart]; rfl)
    obtain ⟨es', s', hrun', hq, hsurvives⟩ := drain_calm
      (s := Slot.started spawn { u with starting := u.starting.eraseIdx 0 }) calm
    have hk' := hsurvives _ _ List.getElem?_concat_length rfl rfl
    exact ⟨_, s', hrun.trans (.next trivial hspawn hrun'), hq, _, List.mem_of_getElem? hk', rfl⟩

theorem Runs.lift_all {m : ProcessManagerService} {f : Service → Slot}
    {es : Service → List Event} (allow : ProcessManagerService → Action → Prop)
    (hallow : ∀ m x e, allow m (.event x e))
    (h : ∀ x, Runs Slot.event always (m x) (es x) (f x)) : ∃ as, Runs step allow m as f := by
  have h1 := Runs.lift_update allow (fun m e => hallow m .nginx e) (h .nginx)
  have h2 := Runs.lift_update (m := Function.update m .nginx (f .nginx)) allow
    (fun m e => hallow m .php e) (h .php)
  have h3 := Runs.lift_update
    (m := Function.update (Function.update m .nginx (f .nginx)) .php (f .php)) allow
    (fun m e => hallow m .mysql e) (h .mysql)
  have hf : Function.update (Function.update (Function.update m .nginx (f .nginx)) .php (f .php))
      .mysql (f .mysql) = f := by
    funext x
    cases x <;> rfl
  rw [hf] at h3
  exact ⟨_, h1.trans (h2.trans h3)⟩

theorem quiescent_survivor {m : ProcessManagerService} {x : Service} (h : ¬ (m x).Doomed) :
    ∃ as q, Runs step NoStart m as q ∧ Quiescent q ∧ ∃ c ∈ (q x).children, c.alive = true := by
  have slots : ∀ y, ∃ es s', Runs Slot.event always (m y) es s' ∧ s'.Quiescent ∧
      (y = x → ∃ c ∈ s'.children, c.alive = true) := by
    intro y
    by_cases hy : y = x
    · subst hy
      obtain ⟨es, s', hrun, hq, hsurvivor⟩ := survivor_of_not_doomed h
      exact ⟨es, s', hrun, hq, fun _ => hsurvivor⟩
    · obtain ⟨es, s', hrun, hq⟩ := drain (m y)
      exact ⟨es, s', hrun, hq, fun hyx => absurd hyx hy⟩
  choose es f hf using slots
  obtain ⟨as, hrun⟩ := Runs.lift_all NoStart (fun _ _ _ => trivial) fun y => (hf y).1
  exact ⟨as, f, hrun, fun y => (hf y).2.1, (hf x).2.2 rfl⟩

theorem noStart_slot {x : Service} {m : ProcessManagerService} {a : Action} {b : SlotAction}
    (hb : a.at x = some b) (ok : NoStart m a) : ∀ spawn, b ≠ .start spawn := by
  rintro spawn rfl
  cases a with
  | call c =>
    simp only [Action.at] at hb
    split at hb
    · cases c <;> cases hb <;> cases ok
    · cases hb
  | event y e =>
    simp only [Action.at] at hb
    split at hb <;> cases hb

theorem doomed_run {m q : ProcessManagerService} {as : List Action} {x : Service}
    (h : Runs step NoStart m as q) (doomed : (m x).Doomed) : (q x).Doomed :=
  (Runs.slot x (fun _ b => ∀ spawn, b ≠ .start spawn) (fun _ _ _ => noStart_slot) h).invariant
    Slot.Doomed doomed fun _ _ _ inv ok hs => doomed_step inv ok hs

theorem held_run {allow : ProcessManagerService → Action → Prop} {m q : ProcessManagerService}
    {as : List Action} {x : Service} (h : Runs step allow m as q) (held : (m x).Held) :
    (q x).Held :=
  (Runs.slot x always (fun _ _ _ _ _ => trivial) h).invariant
    Slot.Held held fun _ _ _ inv _ hs => held_step inv hs

/-- stopPHP has nothing to await. -/
theorem php_stopping {m : ProcessManagerService} {as : List Action}
    (h : Runs step always initial as m) : (m .php).stopping = [] := by
  have hallow : ∀ (m : ProcessManagerService) (a : Action) (b : SlotAction),
      a.at .php = some b → always m a → b ≠ SlotAction.stop := by
    rintro m a b hb _ rfl
    cases a with
    | call c => cases c <;> cases hb
    | event y e =>
      simp only [Action.at] at hb
      split at hb <;> cases hb
  refine (Runs.slot .php (fun _ b => b ≠ SlotAction.stop) hallow h).invariant
    (fun s => s.stopping = []) rfl fun s a u inv ok hs => ?_
  exact (step_stopping hs).resolve_left ok inv

theorem doomed_stop_iff (s : Slot) : s.stop.Doomed ↔ s.Stoppable := by
  cases hp : s.process with
  | none =>
    rw [stop_none hp]
    simp [Slot.Doomed, Slot.Stoppable, Slot.isRunning, hp]
  | some p =>
    rw [stop_some hp]
    simp [Slot.Doomed, Slot.Stoppable, Slot.isRunning, hp]

theorem allKilled_modify_kill_iff (cs : List Child) (p : ℕ) :
    AllKilled (cs.modify p Child.kill) ↔
      ∀ k c, cs[k]? = some c → c.alive = true → c.killed = true ∨ p = k := by
  refine ⟨?_, ?_⟩
  · intro h k c hk alive
    by_cases hpk : p = k
    · exact Or.inr hpk
    · have hk' : (cs.modify p Child.kill)[k]? = some c := by
        rw [List.getElem?_modify_ne _ _ hpk]
        exact hk
      exact Or.inl (h c (List.mem_of_getElem? hk') alive)
  · intro h c' hc' alive
    obtain ⟨k, hk⟩ := List.mem_iff_getElem?.mp hc'
    rw [List.getElem?_modify] at hk
    obtain ⟨c, hc, rfl⟩ := Option.map_eq_some_iff.mp hk
    by_cases hpk : p = k
    · rw [if_pos hpk] at alive ⊢
      have ha : c.alive = true := alive
      simp [Child.kill, ha]
    · rw [if_neg hpk] at alive ⊢
      exact (h k c hc alive).resolve_right hpk

theorem doomed_stopNow_iff {s : Slot} (h : s.stopping = []) :
    s.stopNow.Doomed ↔ s.StoppableNow := by
  cases hp : s.process with
  | none =>
    rw [stopNow_none hp]
    simp [Slot.Doomed, Slot.StoppableNow, hp, h, AllKilled, List.mem_iff_getElem?]
    grind
  | some p =>
    rw [stopNow_some hp]
    simp [Slot.Doomed, Slot.StoppableNow, hp, h, allKilled_modify_kill_iff]

theorem stopAll_doomed_iff {m : ProcessManagerService} (h : (m .php).stopping = []) :
    (∀ x, (stopAll m x).Doomed) ↔
      (m .nginx).Stoppable ∧ (m .php).StoppableNow ∧ (m .mysql).Stoppable := by
  have nginx : stopAll m .nginx = (m .nginx).stop := rfl
  have php : stopAll m .php = (m .php).stopNow := rfl
  have mysql : stopAll m .mysql = (m .mysql).stop := rfl
  rw [← doomed_stop_iff, ← doomed_stopNow_iff h, ← doomed_stop_iff, ← nginx, ← php, ← mysql]
  refine ⟨fun hall => ⟨hall .nginx, hall .php, hall .mysql⟩, ?_⟩
  rintro ⟨h1, h2, h3⟩ x
  cases x
  · exact h1
  · exact h2
  · exact h3

theorem stopAll_held {m : ProcessManagerService} (held : ∀ x, (m x).Held) (x : Service) :
    (stopAll m x).Held := by
  cases x
  · exact held_step (a := .stop) (held .nginx) rfl
  · exact held_step (a := .stopNow) (held .php) rfl
  · exact held_step (a := .stop) (held .mysql) rfl

theorem nothingRunning_of_doomed {q : ProcessManagerService} (hq : Quiescent q)
    (doomed : ∀ x, (q x).Doomed) (held : ∀ x, (q x).Held) : NothingRunning q := by
  have slots := fun x => (hq x).nothing (doomed x) (held x)
  exact ⟨fun x => (slots x).1, (slots .nginx).2, (slots .php).2, (slots .mysql).2⟩

/-- From a reachable state, stopAll with no start after it leaves nothing
    running, in whatever order the pending operations complete, exactly when each
    of its three stops reaches everything of its service. -/
theorem stopAll_leaves_nothing_iff {as : List Action} {m : ProcessManagerService}
    (h : Runs step always initial as m) :
    (∀ bs q, Runs step NoStart (stopAll m) bs q → Quiescent q → NothingRunning q) ↔
      (m .nginx).Stoppable ∧ (m .php).StoppableNow ∧ (m .mysql).Stoppable := by
  rw [← stopAll_doomed_iff (php_stopping h)]
  refine ⟨?_, ?_⟩
  · intro hall x
    by_contra hx
    obtain ⟨bs, q, hrun, hq, c, hc, alive⟩ := quiescent_survivor hx
    rw [(hall bs q hrun hq).children x c hc] at alive
    cases alive
  · intro doomed bs q hrun hq
    have held : ∀ x, (m x).Held := fun x => held_run h (held_of_none rfl)
    exact nothingRunning_of_doomed hq (fun x => doomed_run hrun (doomed x))
      fun x => held_run hrun (stopAll_held held x)

theorem stopAll_after_starts :
    ∃ m, Runs step always initial
        [.call .startNginx, .call (.startPHP "8.4".toList 9000), .event .nginx (.spawned 0),
          .event .php (.spawned 0)] m ∧
      ∀ bs q, Runs step NoStart (stopAll m) bs q → Quiescent q → NothingRunning q := by
  have run : ∃ m, Runs step always initial
      [.call .startNginx, .call (.startPHP "8.4".toList 9000), .event .nginx (.spawned 0),
        .event .php (.spawned 0)] m ∧ (m .nginx).Stoppable ∧ (m .php).StoppableNow ∧
      (m .mysql).Stoppable := by
    refine ⟨_, exec_runs step initial _ _ rfl, ⟨rfl, Or.inl rfl⟩, ⟨rfl, ?_⟩,
      rfl, Or.inr (Or.inr (List.forall_mem_nil _))⟩
    intro k c hk _
    cases k with
    | zero => exact Or.inr rfl
    | succ k => cases hk
  obtain ⟨m, hm, hstop⟩ := run
  exact ⟨m, hm, (stopAll_leaves_nothing_iff hm).mpr hstop⟩

/-- stopAll finds no handle while the start is pending; the spawn then completes
    and nothing is left to stop it. -/
theorem stopAll_misses_pending_start :
    ∃ m q, Runs step always initial [.call .startNginx] m ∧
      Runs step NoStart (stopAll m) [.event .nginx (.spawned 0)] q ∧ Quiescent q ∧
      isNginxRunning q = true ∧ (q .nginx).children = [⟨nginxSpawn, true, false, false⟩] ∧
      ¬ NothingRunning q := by
  refine ⟨_, _, .single trivial rfl, .single trivial rfl, ?_, rfl, rfl, ?_⟩
  · intro x
    cases x
    · exact ⟨⟨rfl, rfl⟩, by decide, by decide⟩
    · exact ⟨⟨rfl, rfl⟩, by decide, by decide⟩
    · exact ⟨⟨rfl, rfl⟩, by decide, by decide⟩
  · intro nothing
    cases nothing.nginx

end Luhut.ProcessManager
