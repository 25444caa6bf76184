import Luhut.ProcessStops

set_option autoImplicit false

/-! The window's close button hides the window; only the tray's Exit ends the
application. It ends without stopping the services: their processes stay, and
the next session begins with all three handles unset. -/
namespace Luhut.AppSessions
open LabelledRuns ProcessManager

/-- `orphans` are the children of earlier sessions. `strays` are taskkills started
    in an earlier session that may still do their work. -/
structure App where
  running : Bool
  visible : Bool
  services : ProcessManagerService
  orphans : Service → List Child
  strays : Service → ℕ

def first : App := ⟨false, false, initial, fun _ => [], fun _ => 0⟩

/-- `exit` says which of the suspended `Process.start`s had spawned their child. -/
inductive Action where
  | launch
  | close | hideWindow | showWindow
  | exit (born : Service → List Spawn)
  | service (a : ProcessManager.Action)
  | orphanExited (x : Service) (k : ℕ)
  | strayTaskkill (x : Service)

def onWindowClose (s : App) : App := { s with visible := false }

def left (s : Slot) (born : List Spawn) : List Child :=
  s.children ++ born.map fun spawn => ⟨spawn, true, false, false⟩

/-- `windowManager.destroy()`; nothing is cleaned up. -/
def closeApp (born : Service → List Spawn) (s : App) : App where
  running := false
  visible := false
  services := initial
  orphans := fun x => s.orphans x ++ left (s.services x) (born x)
  strays := fun x => s.strays x + (s.services x).stopping.count .running

def taskkills (x : Service) : ProcessManager.Action → Bool
  | .event y (.taskkilled _) => y = x
  | _ => false

def Born (born : Service → List Spawn) (m : ProcessManagerService) : Prop :=
  (born .nginx).Sublist (m .nginx).starting ∧ (born .php).Sublist (m .php).starting ∧
    (born .mysql).Sublist (m .mysql).starting

instance (born : Service → List Spawn) (m : ProcessManagerService) : Decidable (Born born m) :=
  inferInstanceAs (Decidable (_ ∧ _ ∧ _))

def serviceStep (s : App) (a : ProcessManager.Action) (m : ProcessManagerService) : App :=
  { s with
    services := m
    orphans := fun x => if taskkills x a then (s.orphans x).map Child.kill else s.orphans x }

def orphanExit (x : Service) (k : ℕ) (s : App) : App :=
  { s with
    orphans := Function.update s.orphans x
      ((s.orphans x).modify k fun c => { c with alive := false }) }

def strayKill (x : Service) (s : App) : App :=
  { s with
    services := onSlot x (fun t => { t with children := t.children.map Child.kill }) s.services
    orphans := Function.update s.orphans x ((s.orphans x).map Child.kill)
    strays := Function.update s.strays x (s.strays x - 1) }

def step (s : App) : Action → Option App
  | .launch => if s.running then none else some { s with running := true, visible := true }
  | .close => if s.running then some (onWindowClose s) else none
  | .hideWindow => if s.running then some { s with visible := false } else none
  | .showWindow => if s.running then some { s with visible := true } else none
  | .exit born => if s.running ∧ Born born s.services then some (closeApp born s) else none
  | .service a =>
    if s.running then (ProcessManager.step s.services a).map (serviceStep s a) else none
  | .orphanExited x k =>
    if ((s.orphans x)[k]?).any (·.alive) then some (orphanExit x k s) else none
  | .strayTaskkill x => if 0 < s.strays x then some (strayKill x s) else none

/-- What an action needs and does. -/
inductive Step (s : App) : Action → App → Prop where
  | launch : Step s .launch { s with running := true, visible := true }
  | close (running : s.running = true) : Step s .close (onWindowClose s)
  | hideWindow (running : s.running = true) : Step s .hideWindow { s with visible := false }
  | showWindow (running : s.running = true) : Step s .showWindow { s with visible := true }
  | exit {born : Service → List Spawn} : Step s (.exit born) (closeApp born s)
  | service {a : ProcessManager.Action} {m : ProcessManagerService} (running : s.running = true)
      (hm : ProcessManager.step s.services a = some m) : Step s (.service a) (serviceStep s a m)
  | orphanExited {x : Service} {k : ℕ} : Step s (.orphanExited x k) (orphanExit x k s)
  | strayTaskkill {x : Service} (left : 0 < s.strays x) : Step s (.strayTaskkill x) (strayKill x s)

theorem step_spec {s u : App} {a : Action} (h : step s a = some u) : Step s a u := by
  cases a with
  | launch =>
    simp only [step] at h
    split at h <;> cases h
    exact .launch
  | close =>
    simp only [step] at h
    split at h
    · next running =>
      cases h
      exact .close running
    · cases h
  | hideWindow =>
    simp only [step] at h
    split at h
    · next running =>
      cases h
      exact .hideWindow running
    · cases h
  | showWindow =>
    simp only [step] at h
    split at h
    · next running =>
      cases h
      exact .showWindow running
    · cases h
  | exit born =>
    simp only [step] at h
    split at h <;> cases h
    exact .exit
  | service a =>
    simp only [step] at h
    split at h
    · next running =>
      obtain ⟨m, hm, rfl⟩ := Option.map_eq_some_iff.mp h
      exact .service running hm
    · cases h
  | orphanExited x k =>
    simp only [step] at h
    split at h <;> cases h
    exact .orphanExited
  | strayTaskkill x =>
    simp only [step] at h
    split at h
    · next left =>
      cases h
      exact .strayTaskkill left
    · cases h

/-- A stop of `x` is called only where it does nothing. -/
def Spares (x : Service) (s : App) : Action → Prop
  | .service (.call c) => c.service = x → c.slotAction = .stop → (s.services x).isRunning = false
  | _ => True

structure Calm (x : Service) (s : App) : Prop where
  stopping : (s.services x).stopping = []
  strays : s.strays x = 0

theorem calm_first (x : Service) : Calm x first := ⟨rfl, rfl⟩

theorem Calm.ne_stray {s : App} {x y : Service} (calm : Calm x s) (left : 0 < s.strays y) :
    x ≠ y := by
  rintro rfl
  rw [calm.strays] at left
  exact Nat.lt_irrefl 0 left

theorem Calm.spared {s : App} {x : Service} {a : ProcessManager.Action}
    {m : ProcessManagerService} (calm : Calm x s) (hm : ProcessManager.step s.services a = some m) :
    taskkills x a = false := by
  cases a with
  | call c => rfl
  | event y e =>
    cases e with
    | taskkilled i =>
      by_contra hx
      have hy : y = x := by simpa [taskkills] using hx
      subst hy
      have hi := (event_spec (step_event hm)).1
      rw [calm.stopping] at hi
      cases hi
    | _ => rfl

theorem stopping_service {s : App} {x : Service} {a : ProcessManager.Action}
    {m : ProcessManagerService} (h : (s.services x).stopping = []) (ok : Spares x s (.service a))
    (hm : ProcessManager.step s.services a = some m) : (m x).stopping = [] := by
  cases ha : a.at x with
  | none =>
    rw [step_idle ha hm]
    exact h
  | some b =>
    rcases step_stopping (step_slot ha hm) with rfl | keep
    · cases a with
      | call c =>
        simp only [ProcessManager.Action.at] at ha
        split at ha
        · next hc =>
          have idle : (s.services x).process = none := by
            simpa [Slot.isRunning] using ok hc (Option.some.inj ha)
          have hstep : (s.services x).step .stop = some (m x) := by
            have hself : ProcessManager.Action.at x (.call c) = some .stop := by
              simp [ProcessManager.Action.at, hc, Option.some.inj ha]
            exact step_slot hself hm
          rw [← Option.some.inj hstep, stop_none idle]
          exact h
        · cases ha
      | event y e =>
        simp only [ProcessManager.Action.at] at ha
        split at ha <;> cases ha
    · exact keep h

theorem calm_step {s u : App} {x : Service} {a : Action} (calm : Calm x s) (ok : Spares x s a)
    (h : step s a = some u) : Calm x u := by
  cases step_spec h with
  | launch | close | hideWindow | showWindow | orphanExited => exact ⟨calm.stopping, calm.strays⟩
  | @exit born =>
    refine ⟨rfl, ?_⟩
    change s.strays x + (s.services x).stopping.count .running = 0
    rw [calm.stopping, calm.strays]
    rfl
  | service _ hm => exact ⟨stopping_service calm.stopping ok hm, calm.strays⟩
  | @strayTaskkill y left =>
    have hne := calm.ne_stray left
    refine ⟨?_, ?_⟩
    · change (Function.update s.services y _ x).stopping = []
      rw [Function.update_of_ne hne]
      exact calm.stopping
    · change Function.update s.strays y _ x = 0
      rw [Function.update_of_ne hne]
      exact calm.strays

/-- `c'` is `c` later on, not killed in between, and dead only if it exited itself. -/
structure Left (c c' : Child) (exited : Prop) : Prop where
  spawn : c'.spawn = c.spawn
  killed : c'.killed = c.killed
  alive : c'.alive = c.alive ∨ exited

theorem step_orphan {s u : App} {x : Service} {a : Action} {k : ℕ} {c : Child}
    (calm : Calm x s) (h : step s a = some u) (hk : (s.orphans x)[k]? = some c) :
    ∃ c', (u.orphans x)[k]? = some c' ∧ Left c c' (a = .orphanExited x k) := by
  have same : ∀ exited, Left c c exited := fun _ => ⟨rfl, rfl, Or.inl rfl⟩
  cases step_spec h with
  | launch | close | hideWindow | showWindow => exact ⟨c, hk, same _⟩
  | @exit born =>
    refine ⟨c, ?_, same _⟩
    change (s.orphans x ++ left (s.services x) (born x))[k]? = some c
    rw [List.getElem?_append_left (List.getElem?_eq_some_iff.mp hk).1]
    exact hk
  | @service a m _ hm =>
    refine ⟨c, ?_, same _⟩
    change (if taskkills x a then _ else s.orphans x)[k]? = some c
    rw [calm.spared hm]
    exact hk
  | @orphanExited y j =>
    change ∃ c', (Function.update s.orphans y _ x)[k]? = some c' ∧ _
    by_cases hy : x = y
    · subst hy
      rw [Function.update_self, List.getElem?_modify, hk]
      by_cases hj : j = k
      · subst hj
        exact ⟨_, rfl, by simp, by simp, Or.inr rfl⟩
      · exact ⟨c, by simp [hj], same _⟩
    · rw [Function.update_of_ne hy]
      exact ⟨c, hk, same _⟩
  | @strayTaskkill y left =>
    refine ⟨c, ?_, same _⟩
    change (Function.update s.orphans y _ x)[k]? = some c
    rw [Function.update_of_ne (calm.ne_stray left)]
    exact hk

theorem run_orphan {s u : App} {x : Service} {as : List Action} {k : ℕ} {c : Child}
    (calm : Calm x s) (run : Runs step (Spares x) s as u) (hk : (s.orphans x)[k]? = some c) :
    ∃ c', (u.orphans x)[k]? = some c' ∧ Left c c' (Action.orphanExited x k ∈ as) := by
  induction run generalizing c with
  | refl s => exact ⟨c, hk, rfl, rfl, Or.inl rfl⟩
  | @next s v u a as ok h _ ih =>
    obtain ⟨d, hd, first⟩ := step_orphan calm h hk
    obtain ⟨e, he, rest⟩ := ih (calm_step calm ok h) hd
    refine ⟨e, he, rest.spawn.trans first.spawn, rest.killed.trans first.killed, ?_⟩
    rcases rest.alive with ha | hmem
    · rcases first.alive with hb | rfl
      · exact Or.inl (ha.trans hb)
      · exact Or.inr List.mem_cons_self
    · exact Or.inr (List.mem_cons_of_mem _ hmem)

theorem exit_orphan {s v : App} {x : Service} {born : Service → List Spawn} {j : ℕ} {c : Child}
    (h : step s (.exit born) = some v) (hj : (left (s.services x) (born x))[j]? = some c) :
    (v.orphans x)[(s.orphans x).length + j]? = some c := by
  cases step_spec h
  change (s.orphans x ++ left (s.services x) (born x))[_]? = some c
  rw [List.getElem?_append_right (by omega), Nat.add_sub_cancel_left]
  exact hj

theorem spares_php (s : App) (a : Action) : Spares .php s a := by
  cases a with
  | service a =>
    cases a with
    | call c =>
      intro hx hstop
      cases c with
      | startPHP | stopPHP => cases hstop
      | _ => cases hx
    | event y e => exact trivial
  | _ => exact trivial

theorem runs_php {s u : App} {as : List Action} (run : Runs step always s as u) :
    Runs step (Spares .php) s as u :=
  run.mono fun s a _ => spares_php s a

/-- A php-cgi that the application leaves, also one whose start was still suspended, is
    killed by no later session: it ends when it exits itself. -/
theorem php_outlives_sessions (before as : List Action) (s u : App)
    (born : Service → List Spawn) (j : ℕ) (c : Child) (reach : Runs step always first before s)
    (hj : (left (s.services .php) (born .php))[j]? = some c)
    (run : Runs step always s (.exit born :: as) u) :
    ∃ c', (u.orphans .php)[(s.orphans .php).length + j]? = some c' ∧
      Left c c' (Action.orphanExited .php ((s.orphans .php).length + j) ∈ as) := by
  have calm : Calm .php s := (runs_php reach).invariant (Calm .php) (calm_first .php)
    fun _ _ _ inv ok h => calm_step inv ok h
  cases run with
  | next _ h tail =>
    exact run_orphan (calm_step calm (spares_php _ _) h) (runs_php tail) (exit_orphan h hj)

def phpStarting : List Action := [.launch, .service (.call (.startPHP "8.4".toList 9000))]

def phpBorn : Service → List Spawn
  | .php => [phpSpawn "8.4".toList 9000]
  | _ => []

theorem php_outlives_sessions_stop :
    ∃ (s u : App) (c' : Child), Runs step always first phpStarting s ∧
      Runs step always s [.exit phpBorn, .launch, .service (.call .stopPHP)] u ∧
      (u.orphans .php)[(s.orphans .php).length + 0]? = some c' ∧
      Left ⟨phpSpawn "8.4".toList 9000, true, false, false⟩ c'
        (Action.orphanExited .php ((s.orphans .php).length + 0) ∈
          [.launch, .service (.call .stopPHP)]) := by
  obtain ⟨s, reach⟩ : ∃ s, Runs step always first phpStarting s ∧ s.running = true ∧
      (s.services .php).starting = phpBorn .php ∧ (s.services .php).children = [] :=
    ⟨_, exec_runs _ _ _ _ rfl, rfl, rfl, rfl⟩
  obtain ⟨first, running, starting, children⟩ := reach
  have born : Born phpBorn s.services :=
    ⟨List.nil_sublist _, starting ▸ List.Sublist.refl _, List.nil_sublist _⟩
  have leave : step s (.exit phpBorn) = some (closeApp phpBorn s) := if_pos ⟨running, born⟩
  have later : Runs step always s [.exit phpBorn, .launch, .service (.call .stopPHP)] _ :=
    .next trivial leave (.next trivial rfl (.next trivial rfl (.refl _)))
  have one : (left (s.services .php) (phpBorn .php))[0]? =
      some ⟨phpSpawn "8.4".toList 9000, true, false, false⟩ := by
    rw [left, children]
    rfl
  obtain ⟨c', hc, hleft⟩ := php_outlives_sessions phpStarting
    [.launch, .service (.call .stopPHP)] s _ phpBorn 0 _ first one later
  exact ⟨s, _, c', first, later, hc, hleft⟩

def startCall : Service → Call
  | .nginx => .startNginx
  | .php => .startPHP "8.4".toList 9000
  | .mysql => .startMySQL

def stopCall : Service → Call
  | .nginx => .stopNginx
  | .php => .stopPHP
  | .mysql => .stopMySQL

def Closed (s : App) : Prop := s.running = false → s.services = initial

theorem closed_step {s u : App} {a : Action} (inv : Closed s) (h : step s a = some u) :
    Closed u := by
  intro hu
  cases step_spec h with
  | launch => cases hu
  | close | hideWindow | showWindow | orphanExited => exact inv hu
  | exit => rfl
  | service running hm => cases running.symm.trans hu
  | strayTaskkill =>
    change onSlot _ (fun t => { t with children := t.children.map Child.kill }) s.services = initial
    rw [inv hu]
    exact Function.update_eq_self _ initial

theorem closed_run {s : App} {as : List Action} (run : Runs step always first as s) : Closed s :=
  run.invariant Closed (fun _ => rfl) fun _ _ _ inv _ h => closed_step inv h

def restart (x : Service) : List Action :=
  [.launch, .service (.call (startCall x)), .service (.event x (.spawned 0)),
    .service (.call (stopCall x)), .service (.event x (.taskkilled 0))]

theorem restart_kills {s : App} {x : Service} (hx : x ≠ .php) (hrun : s.running = false)
    (hinitial : s.services = initial) :
    ∃ u, Runs step always s (restart x) u ∧ AllKilled (u.orphans x) := by
  obtain ⟨running, visible, services, orphans, strays⟩ := s
  cases hrun
  cases hinitial
  cases x with
  | php => exact absurd rfl hx
  | nginx =>
    refine ⟨_, .next trivial rfl (.next trivial rfl (.next trivial rfl (.next trivial rfl
      (.next trivial rfl (.refl _))))), ?_⟩
    exact allKilled_taskkill (orphans .nginx)
  | mysql =>
    refine ⟨_, .next trivial rfl (.next trivial rfl (.next trivial rfl (.next trivial rfl
      (.next trivial rfl (.refl _))))), ?_⟩
    exact allKilled_taskkill (orphans .mysql)

/-- A taskkill of `x` has still to do its work. -/
def Pending (x : Service) (s : App) : Prop :=
  .running ∈ (s.services x).stopping ∨ 0 < s.strays x

theorem running_step {s u : Slot} {b : SlotAction} (h : s.step b = some u)
    (running : .running ∈ s.stopping) :
    (∃ i, b = .event (.taskkilled i)) ∨ .running ∈ u.stopping := by
  cases b with
  | start spawn =>
    cases h
    unfold Slot.start
    split <;> exact Or.inr running
  | stop =>
    cases h
    unfold Slot.stop
    split
    · exact Or.inr (List.mem_append_left _ running)
    · exact Or.inr running
  | stopNow =>
    cases h
    unfold Slot.stopNow
    split <;> exact Or.inr running
  | event e =>
    have hs := event_spec h
    cases e with
    | taskkilled i => exact Or.inl ⟨i, rfl⟩
    | stopped i =>
      obtain ⟨finished, rfl⟩ := hs
      obtain ⟨j, hj⟩ := List.mem_iff_getElem?.mp running
      have hne : j ≠ i := by
        rintro rfl
        cases finished.symm.trans hj
      exact Or.inr (List.mem_eraseIdx_iff_getElem?.mpr ⟨j, hne, hj⟩)
    | spawned i =>
      obtain ⟨_, _, rfl⟩ := hs
      exact Or.inr running
    | spawnFailed i | exited k | notified k =>
      obtain ⟨_, rfl⟩ := hs
      exact Or.inr running

section
variable {s u : App} {x : Service} {a : Action}

theorem orphans_step (h : step s a = some u) :
    ∃ aged new, u.orphans x = aged ++ new ∧ Ages (s.orphans x) aged := by
  have changed : ∀ aged, u.orphans x = aged → Ages (s.orphans x) aged →
      ∃ aged new, u.orphans x = aged ++ new ∧ Ages (s.orphans x) aged :=
    fun aged hu ages => ⟨aged, [], hu.trans (List.append_nil _).symm, ages⟩
  cases step_spec h with
  | launch | close | hideWindow | showWindow => exact changed _ rfl (.refl _)
  | exit => exact ⟨_, _, rfl, .refl _⟩
  | @service a m _ hm =>
    refine changed _ rfl ?_
    change Ages _ (if taskkills x a then _ else _)
    split
    · exact taskkill_ages _
    · exact .refl _
  | @orphanExited y k =>
    refine changed _ rfl ?_
    change Ages _ (Function.update s.orphans y _ x)
    by_cases hy : x = y
    · subst hy
      rw [Function.update_self]
      exact exit_ages _ _
    · rw [Function.update_of_ne hy]
      exact .refl _
  | @strayTaskkill y _ =>
    refine changed _ rfl ?_
    change Ages _ (Function.update s.orphans y _ x)
    by_cases hy : x = y
    · subst hy
      rw [Function.update_self]
      exact taskkill_ages _
    · rw [Function.update_of_ne hy]
      exact .refl _

theorem pending_service {a : ProcessManager.Action} {m : ProcessManagerService}
    (running : .running ∈ (s.services x).stopping)
    (hm : ProcessManager.step s.services a = some m) :
    .running ∈ (m x).stopping ∨ taskkills x a = true := by
  cases ha : a.at x with
  | none =>
    rw [step_idle ha hm]
    exact Or.inl running
  | some b =>
    rcases running_step (step_slot ha hm) running with ⟨i, rfl⟩ | still
    · cases a with
      | call c => cases c <;> simp [ProcessManager.Action.at, Call.slotAction] at ha
      | event y e =>
        simp only [ProcessManager.Action.at] at ha
        split at ha <;> cases ha
        exact Or.inr (by simpa [taskkills])
    · exact Or.inl still

theorem pending_step (pending : Pending x s) (h : step s a = some u) :
    Pending x u ∨ AllKilled (u.orphans x) := by
  cases step_spec h with
  | launch | close | hideWindow | showWindow | orphanExited => exact Or.inl pending
  | exit =>
    refine Or.inl (Or.inr ?_)
    change 0 < s.strays x + (s.services x).stopping.count .running
    rcases pending with running | strays
    · exact Nat.add_pos_right _ (List.count_pos_iff.mpr running)
    · exact Nat.add_pos_left strays _
  | @service a m _ hm =>
    rcases pending with running | strays
    · rcases pending_service running hm with still | taken
      · exact Or.inl (Or.inl still)
      · refine Or.inr ?_
        change AllKilled (if taskkills x a then _ else s.orphans x)
        rw [taken, if_pos rfl]
        exact allKilled_taskkill _
    · exact Or.inl (Or.inr strays)
  | @strayTaskkill y _ =>
    by_cases hy : x = y
    · subst hy
      refine Or.inr ?_
      change AllKilled (Function.update s.orphans x _ x)
      rw [Function.update_self]
      exact allKilled_taskkill _
    · refine Or.inl ?_
      change .running ∈ (Function.update s.services y _ x).stopping ∨
        0 < Function.update s.strays y _ x
      rw [Function.update_of_ne hy, Function.update_of_ne hy]
      exact pending

def Doomed (x : Service) (n : ℕ) (s : App) : Prop :=
  n ≤ (s.orphans x).length ∧ (AllKilled ((s.orphans x).take n) ∨ Pending x s)

theorem length_step (h : step s a = some u) : (s.orphans x).length ≤ (u.orphans x).length := by
  obtain ⟨aged, new, hu, ages⟩ := orphans_step (x := x) h
  rw [hu, List.length_append, ages.1]
  exact Nat.le_add_right _ _

theorem doomed_step {n : ℕ} (inv : Doomed x n s) (h : step s a = some u) : Doomed x n u := by
  refine ⟨inv.1.trans (length_step h), ?_⟩
  rcases inv.2 with killed | pending
  · obtain ⟨aged, new, hu, ages⟩ := orphans_step (x := x) h
    rw [hu, List.take_append_of_le_length (ages.1 ▸ inv.1)]
    refine Or.inl fun c' hc' alive => ?_
    obtain ⟨k, hk⟩ := List.mem_iff_getElem?.mp hc'
    have bound : k < n := by
      have := (List.getElem?_eq_some_iff.mp hk).1
      rw [List.length_take] at this
      omega
    rw [List.getElem?_take_of_lt bound] at hk
    obtain ⟨c, hc, age⟩ := ages.2 k c' hk
    have mem : c ∈ (s.orphans x).take n :=
      List.mem_of_getElem? ((List.getElem?_take_of_lt bound).trans hc)
    exact age.killed (killed c mem (age.alive alive))
  · rcases pending_step pending h with still | taken
    · exact Or.inr still
    · exact Or.inl fun c hc => taken c (List.mem_of_mem_take hc)
end

theorem pending_of_stop {s u : App} {x : Service} (hx : x ≠ .php)
    (held : (s.services x).isRunning = true)
    (h : step s (.service (.call (stopCall x))) = some u) : Pending x u := by
  cases step_spec h with
  | @service _ m _ hm =>
    obtain ⟨p, hp⟩ := Option.isSome_iff_exists.mp held
    have own : (stopCall x).service = x ∧ (stopCall x).slotAction = .stop := by
      cases x with
      | php => exact absurd rfl hx
      | nginx | mysql => exact ⟨rfl, rfl⟩
    have hstep := step_slot (x := x) (b := .stop)
      (by simp [ProcessManager.Action.at, own.1, own.2]) hm
    refine Or.inl ?_
    change .running ∈ (m x).stopping
    rw [← Option.some.inj hstep, stop_some hp]
    exact List.mem_append_right _ List.mem_cons_self

/-- What nginx or MySQL has left running when the application was left: with no taskkill
    of an earlier session pending, later sessions do not kill it as long as they call
    stop only where the handle is unset. A stop where it is set kills all of it, in
    whatever order things happen then, once no taskkill is pending any more; starting
    the service again and stopping it does. -/
theorem left_running_until_restart (x : Service) (hx : x ≠ .php) (before : List Action) (s : App)
    (reach : Runs step always first before s) (closed : s.running = false) :
    (s.strays x = 0 → ∀ (as : List Action) (u : App) (k : ℕ) (c : Child),
      Runs step (Spares x) s as u → (s.orphans x)[k]? = some c →
      ∃ c', (u.orphans x)[k]? = some c' ∧ Left c c' (Action.orphanExited x k ∈ as)) ∧
    (∀ (as bs : List Action) (v u : App), Runs step always s as v →
      (v.services x).isRunning = true →
      Runs step always v (.service (.call (stopCall x)) :: bs) u → ¬ Pending x u →
      AllKilled ((u.orphans x).take (s.orphans x).length)) ∧
    ∃ u, Runs step always s (restart x) u ∧ AllKilled (u.orphans x) := by
  have hinitial := closed_run reach closed
  refine ⟨fun quiet as u k c run hk => ?_, fun as bs v u first held later done => ?_, ?_⟩
  · exact run_orphan ⟨by rw [hinitial]; rfl, quiet⟩ run hk
  · have grown : (s.orphans x).length ≤ (v.orphans x).length :=
      first.invariant (fun w => (s.orphans x).length ≤ (w.orphans x).length) le_rfl
        fun _ _ _ inv _ h => inv.trans (length_step h)
    cases later with
    | next _ h tail =>
      have doomed := tail.invariant (Doomed x (s.orphans x).length)
        ⟨grown.trans (length_step h), Or.inr (pending_of_stop hx held h)⟩
        fun _ _ _ inv _ h => doomed_step inv h
      exact doomed.2.resolve_right done
  · exact restart_kills hx closed hinitial

theorem left_running_until_restart_nginx :
    ∃ s : App, s.running = false ∧ (s.orphans .nginx).length = 1 ∧
      (∀ (as : List Action) (u : App) (k : ℕ) (c : Child), Runs step (Spares .nginx) s as u →
        (s.orphans .nginx)[k]? = some c →
        ∃ c', (u.orphans .nginx)[k]? = some c' ∧ Left c c' (Action.orphanExited .nginx k ∈ as)) ∧
      ∃ u, Runs step always s (restart .nginx) u ∧
        AllKilled ((u.orphans .nginx).take (s.orphans .nginx).length) := by
  have reach : ∃ s, Runs step always first [.launch, .service (.call .startNginx),
      .service (.event .nginx (.spawned 0)), .exit fun _ => []] s ∧ s.running = false ∧
      s.services = initial ∧ s.strays .nginx = 0 ∧ (s.orphans .nginx).length = 1 :=
    ⟨_, .next trivial rfl (.next trivial rfl (.next trivial rfl (.next trivial rfl (.refl _)))),
      rfl, rfl, rfl, rfl⟩
  obtain ⟨s, hs, hclosed, hinitial, hquiet, hone⟩ := reach
  obtain ⟨spared, killed, _⟩ := left_running_until_restart .nginx (by decide) _ s hs hclosed
  have restarted : ∃ v, Runs step always s [.launch, .service (.call .startNginx),
      .service (.event .nginx (.spawned 0))] v ∧ (v.services .nginx).isRunning = true ∧
      ∃ u, Runs step always v (.service (.call (stopCall .nginx)) ::
        [.service (.event .nginx (.taskkilled 0))]) u ∧
        (u.services .nginx).stopping = [.finished] ∧ u.strays .nginx = 0 := by
    obtain ⟨running, visible, services, orphans, strays⟩ := s
    cases hclosed
    cases hinitial
    exact ⟨_, .next trivial rfl (.next trivial rfl (.next trivial rfl (.refl _))), rfl, _,
      .next trivial rfl (.next trivial rfl (.refl _)), rfl, hquiet⟩
  obtain ⟨v, first, held, u, later, finished, none⟩ := restarted
  refine ⟨s, hclosed, hone, spared hquiet, u, first.trans later,
    killed _ _ v u first held later ?_⟩
  rw [Pending, finished, none]
  decide

end Luhut.AppSessions
