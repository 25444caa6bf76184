import Luhut.ProcessStops

set_option autoImplicit false

/-! stopPHP kills the child that the handle holds and no other, so a PHP child that the
handle has lost is out of reach. The taskkill of the two other services takes every
child of the image, and starting one more child is enough to get to it. -/
namespace Luhut.ProcessManager
open LabelledRuns

/-- The handle does not hold the child, and nothing that could kill it is pending. -/
structure Slot.Lost (k : ℕ) (s : Slot) : Prop where
  stopping : s.stopping = []
  process : s.process ≠ some k
  child : ∃ c, s.children[k]? = some c ∧ c.killed = false

theorem spared_modify {cs : List Child} {k : ℕ} (j : ℕ) {f : Child → Child}
    (hf : j = k → ∀ c, (f c).killed = c.killed) (h : ∃ c, cs[k]? = some c ∧ c.killed = false) :
    ∃ c, (cs.modify j f)[k]? = some c ∧ c.killed = false := by
  obtain ⟨c, hk, spared⟩ := h
  rw [List.getElem?_modify, hk]
  refine ⟨_, rfl, ?_⟩
  split
  · next hj => exact (hf hj c).trans spared
  · exact spared

theorem lost_step {s u : Slot} {a : SlotAction} {k : ℕ} (inv : s.Lost k) (ok : a ≠ .stop)
    (h : s.step a = some u) : u.Lost k := by
  obtain ⟨stopping, process, child⟩ := inv
  cases a with
  | start spawn =>
    cases h
    unfold Slot.start
    split <;> exact ⟨stopping, process, child⟩
  | stop => exact absurd rfl ok
  | stopNow =>
    cases h
    cases hp : s.process with
    | none =>
      rw [stopNow_none hp]
      exact ⟨stopping, process, child⟩
    | some p =>
      rw [stopNow_some hp]
      refine ⟨stopping, fun none => (by cases none), spared_modify p (fun hj => ?_) child⟩
      exact absurd (hj ▸ hp) process
  | event e =>
    have hs := event_spec h
    cases e with
    | spawned i =>
      obtain ⟨spawn, _, rfl⟩ := hs
      obtain ⟨c, hk, spared⟩ := child
      have bound := (List.getElem?_eq_some_iff.mp hk).1
      refine ⟨stopping, fun heq => ?_, c, (List.getElem?_append_left bound).trans hk, spared⟩
      exact absurd (Option.some.inj heq) (by change s.children.length ≠ k; omega)
    | spawnFailed i =>
      obtain ⟨_, rfl⟩ := hs
      exact ⟨stopping, process, child⟩
    | taskkilled i =>
      obtain ⟨running, _⟩ := hs
      rw [stopping] at running
      cases running
    | stopped i =>
      obtain ⟨finished, _⟩ := hs
      rw [stopping] at finished
      cases finished
    | exited j =>
      obtain ⟨_, rfl⟩ := hs
      exact ⟨stopping, process, spared_modify j (fun _ _ => rfl) child⟩
    | notified j =>
      obtain ⟨_, rfl⟩ := hs
      exact ⟨stopping, fun none => (by cases none), spared_modify j (fun _ _ => rfl) child⟩

theorem php_never_stop {a : Action} {b : SlotAction} (hb : a.at .php = some b) : b ≠ .stop := by
  rintro rfl
  cases a with
  | call c => cases c <;> cases hb
  | event y e =>
    simp only [Action.at] at hb
    split at hb <;> cases hb

theorem lost_run {m u : ProcessManagerService} {as : List Action} {k : ℕ}
    (run : Runs step always m as u) (lost : (m .php).Lost k) : (u .php).Lost k := by
  have slot := Runs.slot .php (fun _ b => b ≠ .stop) (fun _ _ _ hb _ => php_never_stop hb) run
  exact slot.invariant (Slot.Lost k) lost fun _ _ _ inv ok h => lost_step inv ok h

theorem exists_stop {x : Service} (hx : x ≠ .php) :
    ∃ c : Call, c.service = x ∧ c.slotAction = .stop := by
  cases x with
  | nginx => exact ⟨.stopNginx, rfl, rfl⟩
  | php => exact absurd rfl hx
  | mysql => exact ⟨.stopMySQL, rfl, rfl⟩

theorem exists_start (x : Service) :
    ∃ (c : Call) (spawn : Spawn), c.service = x ∧ c.slotAction = .start spawn := by
  cases x with
  | nginx => exact ⟨.startNginx, _, rfl, rfl⟩
  | php => exact ⟨.startPHP [] 0, _, rfl, rfl⟩
  | mysql => exact ⟨.startMySQL, _, rfl, rfl⟩

theorem run_call (m : ProcessManagerService) {c : Call} {x : Service} {s : Slot}
    (hc : c.service = x) (h : (m x).step c.slotAction = some s) :
    ∃ u, Runs step always m [.call c] u ∧ u x = s := by
  subst hc
  have self := (call_self m c).symm.trans h
  exact ⟨call m c, .single trivial rfl, Option.some.inj self⟩

theorem run_event {m : ProcessManagerService} {x : Service} {e : Event} {s : Slot}
    (h : (m x).event e = some s) : ∃ u, Runs step always m [.event x e] u ∧ u x = s :=
  Runs.lift always (fun _ _ => trivial) rfl (.single trivial h)

theorem exists_handle (m : ProcessManagerService) (x : Service) :
    ∃ as v p, Runs step always m as v ∧ (v x).process = some p ∧
      ∃ new, (v x).children = (m x).children ++ new := by
  cases hp : (m x).process with
  | some p => exact ⟨[], m, p, .refl m, hp, [], (List.append_nil _).symm⟩
  | none =>
    obtain ⟨c, spawn, hc, ha⟩ := exists_start x
    obtain ⟨v, called, hv⟩ := run_call m hc (s := (m x).start spawn) (by rw [ha]; rfl)
    have begun : (m x).start spawn = { m x with starting := (m x).starting ++ [spawn] } := by
      refine if_neg ?_
      rw [Slot.isRunning, hp]
      exact Bool.false_ne_true
    have last : (v x).starting[(m x).starting.length]? = some spawn := by
      rw [hv, begun]
      exact List.getElem?_concat_length
    obtain ⟨u, spawned, hu⟩ := run_event (event_spawned last)
    refine ⟨_, u, _, called.trans spawned, by rw [hu]; rfl, [⟨spawn, true, false, false⟩], ?_⟩
    rw [hu, hv, begun]
    rfl

theorem exists_taskkill (m : ProcessManagerService) {x : Service} (hx : x ≠ .php) :
    ∃ as u, Runs step always m as u ∧ ∀ (k : ℕ) (c : Child), (m x).children[k]? = some c →
      c.alive = true → ∃ c', (u x).children[k]? = some c' ∧ c'.killed = true := by
  obtain ⟨as, v, p, handle, hp, new, hnew⟩ := exists_handle m x
  obtain ⟨c, hc, ha⟩ := exists_stop hx
  obtain ⟨w, stopped, hw⟩ := run_call v hc (s := (v x).stop) (by rw [ha]; rfl)
  rw [stop_some hp] at hw
  have pending : (w x).stopping[(v x).stopping.length]? = some .running := by
    rw [hw]
    exact List.getElem?_concat_length
  obtain ⟨u, killed, hu⟩ := run_event (x := x)
    (e := .taskkilled (v x).stopping.length) (m := w) (if_pos pending)
  refine ⟨_, u, handle.trans (stopped.trans killed), fun k d hk alive => ?_⟩
  have old : (v x).children[k]? = some d := by
    rw [hnew]
    exact (List.getElem?_append_left (List.getElem?_eq_some_iff.mp hk).1).trans hk
  rw [hu, hw]
  change ∃ c', (((v x).children.modify p Child.kill).map Child.kill)[k]? = some c' ∧ _
  rw [List.getElem?_map, List.getElem?_modify, old]
  refine ⟨_, rfl, ?_⟩
  split <;> simp [Child.kill, alive]

/-- At any time of a session, a running child that no stop has reached can still be
    killed by some run of the session exactly when it belongs to nginx or MySQL, or
    is the PHP child that the handle holds. -/
theorem session_can_kill_iff {before : List Action} {m : ProcessManagerService}
    (reach : Runs step always initial before m) {x : Service} {k : ℕ} {c : Child}
    (hk : (m x).children[k]? = some c) (alive : c.alive = true) (spared : c.killed = false) :
    (∃ as u c', Runs step always m as u ∧ (u x).children[k]? = some c' ∧ c'.killed = true) ↔
      x ≠ .php ∨ (m x).process = some k := by
  constructor
  · rintro ⟨as, u, c', run, hk', killed⟩
    by_contra lost
    push Not at lost
    obtain ⟨rfl, process⟩ := lost
    obtain ⟨d, hd, free⟩ := (lost_run run ⟨php_stopping reach, process, c, hk, spared⟩).child
    rw [hk'] at hd
    cases hd
    rw [killed] at free
    cases free
  · intro h
    by_cases hx : x = .php
    · subst hx
      have hp := h.resolve_left (fun ne => ne rfl)
      obtain ⟨u, stopped, hu⟩ := run_call m (c := .stopPHP) rfl (s := (m .php).stopNow) rfl
      rw [stopNow_some hp] at hu
      refine ⟨_, u, c.kill, stopped, ?_, by simp [Child.kill, alive]⟩
      have slot : u .php = { m .php with
          children := (m .php).children.modify k Child.kill
          process := none } := hu
      rw [slot]
      change ((m .php).children.modify k Child.kill)[k]? = _
      rw [List.getElem?_modify, hk]
      exact congrArg some (if_pos rfl)
    · obtain ⟨as, u, run, all⟩ := exists_taskkill m hx
      obtain ⟨c', hk', killed⟩ := all k c hk alive
      exact ⟨as, u, c', run, hk', killed⟩

theorem session_can_kill_double : ∃ m : ProcessManagerService,
    Runs step always initial [.call (.startPHP "8.4".toList 9000),
      .call (.startPHP "8.4".toList 9000), .event .php (.spawned 0), .event .php (.spawned 0)] m ∧
      (m .php).aliveCount = 2 ∧
      ¬ ∃ as u c', Runs step always m as u ∧ (u .php).children[0]? = some c' ∧
        c'.killed = true := by
  have reach : ∃ m : ProcessManagerService,
      Runs step always initial [.call (.startPHP "8.4".toList 9000),
        .call (.startPHP "8.4".toList 9000), .event .php (.spawned 0),
        .event .php (.spawned 0)] m ∧
      (m .php).aliveCount = 2 ∧ (m .php).process = some 1 ∧
      (m .php).children[0]? = some ⟨phpSpawn "8.4".toList 9000, true, false, false⟩ :=
    ⟨_, .next trivial rfl (.next trivial rfl (.next trivial rfl (.next trivial rfl (.refl _)))),
      rfl, rfl, rfl⟩
  obtain ⟨m, run, two, held, first⟩ := reach
  refine ⟨m, run, two, fun killed => ?_⟩
  rcases (session_can_kill_iff run first rfl rfl).mp killed with other | own
  · exact other rfl
  · rw [held] at own
    cases own

end Luhut.ProcessManager
