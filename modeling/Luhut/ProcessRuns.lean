import Luhut.ProcessManager

set_option autoImplicit false

/-! The guard of startX is tested before the await that sets the handle, and the
exit callback clears the handle whatever it holds. Both are harmless as long as
a start finds the earlier children gone and their notifications delivered. -/
namespace Luhut.ProcessManager
open DartInt LabelledRuns

theorem Ages.mem {cs cs' : List Child} (h : Ages cs cs') {c' : Child} (hc : c' ∈ cs') :
    ∃ c ∈ cs, Child.Ages c c' := by
  obtain ⟨k, hk⟩ := List.mem_iff_getElem?.mp hc
  obtain ⟨c, hc, ha⟩ := h.2 k c' hk
  exact ⟨c, List.mem_iff_getElem?.mpr ⟨k, hc⟩, ha⟩

def AllNotified (cs : List Child) : Prop := ∀ c ∈ cs, c.notified = true

instance (cs : List Child) : Decidable (AllNotified cs) :=
  inferInstanceAs (Decidable (∀ c ∈ cs, c.notified = true))

def AllKilled (cs : List Child) : Prop := ∀ c ∈ cs, c.alive = true → c.killed = true

theorem Ages.allNotified {cs cs' : List Child} (h : Ages cs cs') (hn : AllNotified cs) :
    AllNotified cs' := by
  intro c' hc'
  obtain ⟨c, hc, ha⟩ := h.mem hc'
  exact ha.notified (hn c hc)

theorem Ages.allKilled {cs cs' : List Child} (h : Ages cs cs') (hk : AllKilled cs) :
    AllKilled cs' := by
  intro c' hc' alive
  obtain ⟨c, hc, ha⟩ := h.mem hc'
  exact ha.killed (hk c hc (ha.alive alive))

theorem allKilled_taskkill (cs : List Child) : AllKilled (cs.map Child.kill) := by
  intro c' hc' alive
  obtain ⟨c, _, rfl⟩ := List.mem_map.mp hc'
  have ha : c.alive = true := alive
  simp [Child.kill, ha]

/-- Generations of children: only the last one can still owe its notification. -/
structure Generations (cs : List Child) : Prop where
  dead : ∀ c ∈ cs, c.notified = true → c.alive = false
  old : ∀ (k : ℕ) (c : Child), cs[k]? = some c → k + 1 < cs.length → c.notified = true

theorem generations_nil : Generations [] :=
  ⟨fun _ h => absurd h List.not_mem_nil, fun _ _ h => absurd h (by simp)⟩

theorem Generations.ages {cs cs' : List Child} (g : Generations cs) (h : Ages cs cs') :
    Generations cs' := by
  refine ⟨?_, ?_⟩
  · intro c' hc' hn
    obtain ⟨c, hc, ha⟩ := h.mem hc'
    rcases ha.dead hn with hold | hdead
    · have hd := g.dead c hc hold
      by_contra alive
      rw [ha.alive (by simpa using alive)] at hd
      cases hd
    · exact hdead
  · intro k c' hk hlt
    obtain ⟨c, hc, ha⟩ := h.2 k c' hk
    exact ha.notified (g.old k c hc (by rw [← h.1]; exact hlt))

theorem Generations.spawn {cs : List Child} (g : Generations cs) (hn : AllNotified cs)
    (spawn : Spawn) : Generations (cs ++ [⟨spawn, true, false, false⟩]) := by
  refine ⟨?_, ?_⟩
  · intro c hc notified
    rcases List.mem_append.mp hc with hc | hc
    · exact g.dead c hc notified
    · rw [List.mem_singleton.mp hc] at notified
      cases notified
  · intro k c hk hlt
    have hlt' : k < cs.length := by simpa using hlt
    rw [List.getElem?_append_left hlt'] at hk
    exact hn c (List.mem_iff_getElem?.mpr ⟨k, hk⟩)

theorem Generations.last {cs : List Child} (g : Generations cs) {k : ℕ} {c : Child}
    (hk : cs[k]? = some c) (hn : c.notified = false) : k + 1 = cs.length := by
  have hlt := (List.getElem?_eq_some_iff.mp hk).choose
  by_contra hne
  have := g.old k c hk (by omega)
  rw [hn] at this
  cases this

theorem Generations.alive_notified {cs : List Child} (g : Generations cs) {c : Child}
    (hc : c ∈ cs) (alive : c.alive = true) : c.notified = false := by
  cases hn : c.notified with
  | false => rfl
  | true =>
    rw [g.dead c hc hn] at alive
    cases alive

theorem Generations.countP_le_one {cs : List Child} (g : Generations cs) :
    cs.countP (·.alive) ≤ 1 := by
  rcases List.eq_nil_or_concat cs with rfl | ⟨older, last, rfl⟩
  · exact Nat.zero_le 1
  · have hz : older.countP (·.alive) = 0 := by
      rw [List.countP_eq_zero]
      intro c hc
      obtain ⟨k, hk⟩ := List.mem_iff_getElem?.mp hc
      have hlt := (List.getElem?_eq_some_iff.mp hk).choose
      have hk' : (older.concat last)[k]? = some c := by
        rw [List.concat_eq_append, List.getElem?_append_left hlt]
        exact hk
      have hn := g.old k c hk' (by simpa using hlt)
      simp [g.dead c (by simp [hc]) hn]
    rw [List.concat_eq_append, List.countP_append, hz]
    simpa using List.countP_le_length (p := fun c : Child => c.alive) (l := [last])

theorem step_starting {s s' : Slot} {a : SlotAction} (h : s.step a = some s') :
    (∃ spawn, a = .start spawn ∧ s.isRunning = false ∧
      s'.starting = s.starting ++ [spawn]) ∨
    s'.starting = s.starting ∨
    ∃ i, i < s.starting.length ∧ s'.starting = s.starting.eraseIdx i := by
  cases a with
  | start spawn =>
    cases h
    unfold Slot.start
    split
    · exact Or.inr (Or.inl rfl)
    · next hr => exact Or.inl ⟨spawn, rfl, by simpa using hr, rfl⟩
  | stop => cases h; unfold Slot.stop; split <;> exact Or.inr (Or.inl rfl)
  | stopNow => cases h; unfold Slot.stopNow; split <;> exact Or.inr (Or.inl rfl)
  | event e =>
    have hs := event_spec h
    cases e with
    | spawned i =>
      obtain ⟨spawn, hi, rfl⟩ := hs
      exact Or.inr (Or.inr ⟨i, (List.getElem?_eq_some_iff.mp hi).choose, rfl⟩)
    | spawnFailed i => obtain ⟨hi, rfl⟩ := hs; exact Or.inr (Or.inr ⟨i, hi, rfl⟩)
    | taskkilled i => obtain ⟨_, rfl⟩ := hs; exact Or.inr (Or.inl rfl)
    | stopped i => obtain ⟨_, rfl⟩ := hs; exact Or.inr (Or.inl rfl)
    | exited k => obtain ⟨_, rfl⟩ := hs; exact Or.inr (Or.inl rfl)
    | notified k => obtain ⟨_, rfl⟩ := hs; exact Or.inr (Or.inl rfl)

theorem eraseIdx_ne_nil {α : Type} {l : List α} {i : ℕ} (h : l.eraseIdx i ≠ []) : l ≠ [] := by
  rintro rfl
  exact h rfl

theorem eraseIdx_single {α : Type} {l : List α} {i : ℕ} (h : l.length ≤ 1) (hi : i < l.length) :
    l.eraseIdx i = [] := by
  apply List.eq_nil_of_length_eq_zero
  rw [List.length_eraseIdx_of_lt hi]
  omega

def Slot.Settled (s : Slot) : Prop := s.starting = [] ∧ AllNotified s.children

/-- A startX of service `x` that passes its guard is made in a settled state. -/
def SettledStarts (x : Service) (m : ProcessManagerService) : Action → Prop
  | .call c => c.service = x → c.isStart = true → (m x).isRunning = false → (m x).Settled
  | .event _ _ => True

structure OneChild (s : Slot) : Prop where
  generations : Generations s.children
  single : s.starting.length ≤ 1
  settled : s.starting ≠ [] → AllNotified s.children

def Slot.SettledStart (s : Slot) : SlotAction → Prop
  | .start _ => s.isRunning = false → s.Settled
  | _ => True

theorem oneChild_step {s s' : Slot} {a : SlotAction} (inv : OneChild s)
    (ok : s.SettledStart a) (h : s.step a = some s') : OneChild s' := by
  rcases step_children h with ⟨i, spawn, rfl, hi, rfl⟩ | ages
  · have hlt := (List.getElem?_eq_some_iff.mp hi).choose
    have hn : AllNotified s.children := inv.settled (List.ne_nil_of_length_pos (by omega))
    have he : s.starting.eraseIdx i = [] := eraseIdx_single inv.single hlt
    refine ⟨inv.generations.spawn hn spawn, ?_, ?_⟩
    · change (s.starting.eraseIdx i).length ≤ 1
      rw [he]
      exact Nat.zero_le 1
    · exact fun hne => absurd he hne
  · refine ⟨inv.generations.ages ages, ?_, ?_⟩
    · rcases step_starting h with ⟨spawn, rfl, hr, hs⟩ | hs | ⟨i, hi, hs⟩
      · rw [hs, (ok hr).1]
        exact le_refl 1
      · rw [hs]
        exact inv.single
      · rw [hs, eraseIdx_single inv.single hi]
        exact Nat.zero_le 1
    · intro hne
      rcases step_starting h with ⟨spawn, rfl, hr, hs⟩ | hs | ⟨i, _, hs⟩
      · exact ages.allNotified (ok hr).2
      · exact ages.allNotified (inv.settled (hs ▸ hne))
      · exact ages.allNotified (inv.settled (eraseIdx_ne_nil (hs ▸ hne)))

theorem oneChild_run {x : Service} {as : List Action} {m : ProcessManagerService}
    (h : Runs step (SettledStarts x) initial as m) : OneChild (m x) := by
  have hallow : ∀ m a b, a.at x = some b → SettledStarts x m a → (m x).SettledStart b := by
    intro m a b hb ok
    cases a with
    | call c =>
      simp only [Action.at] at hb
      split at hb
      · next hc =>
        cases hb
        cases c <;> first | exact fun hr => ok hc rfl hr | trivial
      · cases hb
    | event y e =>
      simp only [Action.at] at hb
      split at hb
      · cases hb; trivial
      · cases hb
  have slot := Runs.slot x Slot.SettledStart hallow h
  exact slot.invariant OneChild ⟨generations_nil, Nat.zero_le 1, fun hne => absurd rfl hne⟩
    fun s a u inv ok hs => oneChild_step inv ok hs

theorem call_start {m : ProcessManagerService} {c : Call} (hc : c.isStart = true)
    (hr : (m c.service).isRunning = false) :
    ∃ spawn, call m c c.service =
      { m c.service with starting := (m c.service).starting ++ [spawn] } := by
  have hs := call_self m c
  cases c with
  | startNginx | startPHP _ _ | startMySQL =>
    refine ⟨_, ((Option.some.inj hs).symm.trans (if_neg ?_))⟩
    rw [hr]
    exact Bool.false_ne_true
  | stopNginx | stopPHP | stopMySQL => cases hc

theorem event_spawned {s : Slot} {i : ℕ} {a : Spawn} (h : s.starting[i]? = some a) :
    s.event (.spawned i) =
      some (Slot.started a { s with starting := s.starting.eraseIdx i }) := by
  simp only [Slot.event, h, Option.map_some]

theorem aliveCount_started (spawn : Spawn) (s : Slot) :
    (Slot.started spawn s).aliveCount = s.aliveCount + 1 := by
  simp [Slot.aliveCount, Slot.started]

theorem aliveCount_pos {s : Slot} {k : ℕ} {c : Child} (hk : s.children[k]? = some c)
    (alive : c.alive = true) : 1 ≤ s.aliveCount :=
  List.countP_pos_iff.mpr ⟨c, List.mem_iff_getElem?.mpr ⟨k, hk⟩, alive⟩

theorem two_alive_of_starting {s : Slot} {a b : Spawn} {rest : List Spawn}
    (hs : s.starting = a :: b :: rest) :
    ∃ s', Runs Slot.event always s [.spawned 0, .spawned 0] s' ∧ 2 ≤ s'.aliveCount := by
  have h1 : s.event (.spawned 0) =
      some (Slot.started a { s with starting := s.starting.eraseIdx 0 }) :=
    event_spawned (by rw [hs]; rfl)
  have h2 := event_spawned (s := Slot.started a { s with starting := s.starting.eraseIdx 0 })
    (i := 0) (a := b) (by change (s.starting.eraseIdx 0)[0]? = _; rw [hs]; rfl)
  refine ⟨_, .next trivial h1 (.single trivial h2), ?_⟩
  rw [aliveCount_started]
  change 2 ≤ (Slot.started a { s with starting := s.starting.eraseIdx 0 }).aliveCount + 1
  rw [aliveCount_started]
  omega

theorem two_alive_of_alive {s : Slot} {a : Spawn} {k : ℕ} {c : Child} (hs : s.starting = [a])
    (hk : s.children[k]? = some c) (alive : c.alive = true) :
    ∃ s', Runs Slot.event always s [.spawned 0] s' ∧ 2 ≤ s'.aliveCount := by
  have h1 := event_spawned (s := s) (i := 0) (a := a) (by rw [hs]; rfl)
  refine ⟨_, .single trivial h1, ?_⟩
  rw [aliveCount_started]
  have := aliveCount_pos (s := { s with starting := s.starting.eraseIdx 0 }) hk alive
  omega

/-- A startX that passes its guard beside a suspended start or a live child ends with two
    children alive when the spawns complete. -/
theorem two_alive_of_start {m : ProcessManagerService} {c : Call} (hc : c.isStart = true)
    (hr : (m c.service).isRunning = false)
    (other : (m c.service).starting ≠ [] ∨ ∃ child ∈ (m c.service).children, child.alive = true) :
    ∃ (es : List Event) (m' : ProcessManagerService),
      Runs step always (call m c) (es.map (.event c.service)) m' ∧
      2 ≤ (m' c.service).aliveCount := by
  obtain ⟨spawn, hstart⟩ := call_start hc hr
  have lift := fun (s' : Slot) es (h : Runs Slot.event always (call m c c.service) es s') =>
    Runs.lift always (fun _ _ => trivial) rfl h
  cases hold : (m c.service).starting with
  | cons a rest =>
    have hs : ∃ b rest', (call m c c.service).starting = a :: b :: rest' := by
      rw [hstart, hold]
      cases rest with
      | nil => exact ⟨spawn, [], rfl⟩
      | cons b rest => exact ⟨b, rest ++ [spawn], rfl⟩
    obtain ⟨b, rest', hs⟩ := hs
    obtain ⟨s', hrun, htwo⟩ := two_alive_of_starting hs
    obtain ⟨m', hrun', rfl⟩ := lift s' _ hrun
    exact ⟨_, m', hrun', htwo⟩
  | nil =>
    have hs : (call m c c.service).starting = [spawn] := by rw [hstart, hold]; rfl
    obtain ⟨child, hm, alive⟩ := other.resolve_left fun ne => ne hold
    obtain ⟨k, hk⟩ := List.mem_iff_getElem?.mp hm
    have hk' : (call m c c.service).children[k]? = some child := by rw [hstart]; exact hk
    obtain ⟨s', hrun, htwo⟩ := two_alive_of_alive hs hk' alive
    obtain ⟨m', hrun', rfl⟩ := lift s' _ hrun
    exact ⟨_, m', hrun', htwo⟩

/-- At most one child of a service is alive in every run whose starts are settled. A
    start that passes its guard beside a suspended start or a live child goes on to two
    live children with no further call. -/
theorem at_most_one_child (x : Service) :
    (∀ (as : List Action) (m : ProcessManagerService),
      Runs step (SettledStarts x) initial as m → (m x).aliveCount ≤ 1) ∧
    (∀ (m : ProcessManagerService) (c : Call), c.service = x → c.isStart = true →
      (m x).isRunning = false →
      ((m x).starting ≠ [] ∨ ∃ child ∈ (m x).children, child.alive = true) →
      ∃ (es : List Event) (m' : ProcessManagerService),
        Runs step always (call m c) (es.map (.event x)) m' ∧ 2 ≤ (m' x).aliveCount) := by
  refine ⟨fun as m h => (oneChild_run h).generations.countP_le_one, ?_⟩
  rintro m c rfl hc hr other
  exact two_alive_of_start hc hr other

theorem restart_one_child :
    (∃ m, Runs step (SettledStarts .nginx) initial
        [.call .startNginx, .event .nginx (.spawned 0), .call .stopNginx,
          .event .nginx (.exited 0), .event .nginx (.notified 0), .call .startNginx,
          .event .nginx (.spawned 0)] m ∧
      (m .nginx).aliveCount = 1 ∧ (m .nginx).aliveCount ≤ 1) ∧
    ∃ (es : List Event) (m' : ProcessManagerService),
      Runs step always (call (call initial .startNginx) .startNginx)
        (es.map (.event .nginx)) m' ∧ 2 ≤ (m' .nginx).aliveCount := by
  have free : ∀ (m : ProcessManagerService) (e : Event),
      SettledStarts .nginx m (.event .nginx e) := fun _ _ => trivial
  have run : ∃ m, Runs step (SettledStarts .nginx) initial
      [.call .startNginx, .event .nginx (.spawned 0), .call .stopNginx,
        .event .nginx (.exited 0), .event .nginx (.notified 0), .call .startNginx,
        .event .nginx (.spawned 0)] m ∧ (m .nginx).aliveCount = 1 := by
    refine ⟨_, .next ?_ rfl (.next (free _ _) rfl (.next ?_ rfl (.next (free _ _) rfl
      (.next (free _ _) rfl (.next ?_ rfl (.single (free _ _) rfl)))))), rfl⟩
    all_goals unfold SettledStarts
    · intro _ _ _
      exact ⟨rfl, by decide⟩
    · intro _ h
      cases h
    · intro _ _ _
      exact ⟨rfl, by decide⟩
  refine ⟨?_, ?_⟩
  · obtain ⟨m, hm, one⟩ := run
    exact ⟨m, hm, one, (at_most_one_child .nginx).1 _ m hm⟩
  · refine (at_most_one_child .nginx).2 (call initial .startNginx) .startNginx rfl rfl rfl ?_
    exact Or.inl (List.cons_ne_nil _ _)

/-- A double click on Start: both calls pass the guard before either spawn
    completes. -/
theorem double_start_two_children :
    ∃ m, Runs step always initial
        [.call .startNginx, .call .startNginx,
          .event .nginx (.spawned 0), .event .nginx (.spawned 0)] m ∧
      (m .nginx).aliveCount = 2 :=
  ⟨_, exec_runs step initial _ _ rfl, by decide⟩

def Slot.Idle (s : Slot) : Prop := s.starting = [] ∧ s.stopping = []

/-- A caller that issues a call about `x` only when its earlier ones have returned. -/
def Awaited (x : Service) (m : ProcessManagerService) : Action → Prop
  | .call c => c.service = x → (m x).Idle
  | .event _ _ => True

def NotifiedSpawns (x : Service) (m : ProcessManagerService) : Action → Prop
  | .event y (.spawned _) => y = x → AllNotified (m x).children
  | _ => True

/-- Without a handle no child is alive that no stopX has killed. -/
def Slot.Tracked (s : Slot) : Prop := s.isRunning = false → AllKilled s.children

def Slot.Awaited (s : Slot) : SlotAction → Prop
  | .event _ => True
  | _ => s.Idle

def Slot.NotifiedSpawn (s : Slot) : SlotAction → Prop
  | .event (.spawned _) => AllNotified s.children
  | _ => True

structure OneCall (s : Slot) : Prop where
  single : s.starting.length ≤ 1
  quiet : s.starting ≠ [] → s.stopping = []

theorem step_stopping {s s' : Slot} {a : SlotAction} (h : s.step a = some s') :
    a = .stop ∨ (s.stopping = [] → s'.stopping = []) := by
  cases a with
  | start spawn => cases h; unfold Slot.start; split <;> exact Or.inr id
  | stop => exact Or.inl rfl
  | stopNow => cases h; unfold Slot.stopNow; split <;> exact Or.inr id
  | event e =>
    refine Or.inr fun hnil => ?_
    have hs := event_spec h
    cases e with
    | spawned i => obtain ⟨_, _, rfl⟩ := hs; exact hnil
    | spawnFailed | exited | notified => obtain ⟨_, rfl⟩ := hs; exact hnil
    | taskkilled i | stopped i =>
      obtain ⟨hi, _⟩ := hs
      rw [hnil] at hi
      cases hi

theorem oneCall_step {s s' : Slot} {a : SlotAction} (inv : OneCall s) (ok : s.Awaited a)
    (h : s.step a = some s') : OneCall s' := by
  have single : s'.starting.length ≤ 1 := by
    rcases step_starting h with ⟨spawn, rfl, _, hs⟩ | hs | ⟨i, hi, hs⟩
    · rw [hs, ok.1]
      exact le_refl 1
    · rw [hs]
      exact inv.single
    · rw [hs, eraseIdx_single inv.single hi]
      exact Nat.zero_le 1
  refine ⟨single, fun hne => ?_⟩
  have before : s.stopping = [] ∧ a ≠ .stop := by
    rcases step_starting h with ⟨spawn, rfl, _, hs⟩ | hs | ⟨i, hi, hs⟩
    · exact ⟨ok.2, by simp⟩
    · refine ⟨inv.quiet (hs ▸ hne), ?_⟩
      rintro rfl
      exact (hs ▸ hne) ok.1
    · exact absurd (eraseIdx_single inv.single hi) (hs ▸ hne)
  rcases step_stopping h with rfl | keep
  · exact absurd rfl before.2
  · exact keep before.1

/-- The handle, when set, holds the last child; without it, or once a stop is
    under way, nothing is alive that was not killed. -/
structure Owned (s : Slot) : Prop where
  calls : OneCall s
  generations : Generations s.children
  current : ∀ p, s.process = some p → p + 1 = s.children.length
  released : s.process = none → AllKilled s.children
  stopping : s.stopping ≠ [] → AllKilled s.children

theorem owned_initial : Owned Slot.initial where
  calls := ⟨Nat.zero_le 1, fun hne => absurd rfl hne⟩
  generations := generations_nil
  current := fun _ h => by cases h
  released := fun _ _ h => absurd h List.not_mem_nil
  stopping := fun hne => absurd rfl hne

theorem Owned.allKilled_kill {s : Slot} (inv : Owned s) {p : ℕ} (hp : s.process = some p) :
    AllKilled (s.children.modify p Child.kill) := by
  intro c' hc' alive
  obtain ⟨k, hk⟩ := List.mem_iff_getElem?.mp hc'
  rw [List.getElem?_modify] at hk
  obtain ⟨c, hc, rfl⟩ := Option.map_eq_some_iff.mp hk
  have mem : c ∈ s.children := List.mem_iff_getElem?.mpr ⟨k, hc⟩
  by_cases hpk : p = k
  · rw [if_pos hpk] at alive ⊢
    have ha : c.alive = true := alive
    simp [Child.kill, ha]
  · -- an older child is dead
    rw [if_neg hpk] at alive
    have hl := inv.generations.last hc (inv.generations.alive_notified mem alive)
    have := inv.current p hp
    omega

theorem Owned.none_alive {s : Slot} (inv : Owned s) {k : ℕ}
    (hk : (s.children[k]?).any (fun c => !c.alive && !c.notified) = true) :
    k + 1 = s.children.length ∧ ∀ c ∈ s.children, c.alive = false := by
  obtain ⟨c, hc, hd⟩ := (Option.any_eq_true _ _).mp hk
  simp only [Bool.and_eq_true, Bool.not_eq_true'] at hd
  have hlast := inv.generations.last hc hd.2
  refine ⟨hlast, fun c' hc' => ?_⟩
  by_contra alive
  have ha : c'.alive = true := by simpa using alive
  obtain ⟨j, hj⟩ := List.mem_iff_getElem?.mp hc'
  have hl := inv.generations.last hj (inv.generations.alive_notified hc' ha)
  have hjk : j = k := by omega
  rw [hjk, hc] at hj
  rw [← Option.some.inj hj, hd.1] at ha
  cases ha

theorem owned_event {s s' : Slot} {e : Event} (inv : Owned s)
    (ok : s.NotifiedSpawn (.event e)) (h : s.event e = some s') : Owned s' := by
  have calls : OneCall s' := oneCall_step (a := .event e) inv.calls trivial h
  have hs := event_spec h
  cases e with
  | spawned i =>
    obtain ⟨spawn, hi, rfl⟩ := hs
    have hlt := (List.getElem?_eq_some_iff.mp hi).choose
    have hq : s.stopping = [] := inv.calls.quiet (List.ne_nil_of_length_pos (by omega))
    refine ⟨calls, inv.generations.spawn ok spawn, ?_, ?_, ?_⟩
    · intro p hp
      rw [← Option.some.inj hp]
      simp [Slot.started]
    · intro hp
      cases hp
    · intro hne
      exact absurd hq hne
  | spawnFailed i =>
    obtain ⟨_, rfl⟩ := hs
    exact ⟨calls, inv.generations, inv.current, inv.released, inv.stopping⟩
  | taskkilled i =>
    obtain ⟨_, rfl⟩ := hs
    refine ⟨calls, inv.generations.ages (taskkill_ages _), ?_, ?_, ?_⟩
    · intro p hp
      change p + 1 = (s.children.map Child.kill).length
      rw [List.length_map]
      exact inv.current p hp
    · exact fun _ => allKilled_taskkill _
    · exact fun _ => allKilled_taskkill _
  | stopped i =>
    obtain ⟨hi, rfl⟩ := hs
    have hne : s.stopping ≠ [] := by
      intro hnil
      rw [hnil] at hi
      cases hi
    refine ⟨calls, inv.generations, ?_, fun _ => inv.stopping hne, fun _ => inv.stopping hne⟩
    intro p hp
    cases hp
  | exited k =>
    obtain ⟨_, rfl⟩ := hs
    have ages := exit_ages s.children k
    refine ⟨calls, inv.generations.ages ages, ?_, ?_, ?_⟩
    · intro p hp
      rw [ages.1]
      exact inv.current p hp
    · exact fun hp => ages.allKilled (inv.released hp)
    · exact fun hne => ages.allKilled (inv.stopping hne)
  | notified k =>
    obtain ⟨hk, rfl⟩ := hs
    have ages := notify_ages s.children k hk
    have killed : AllKilled s.children := by
      intro c hc alive
      rw [(inv.none_alive hk).2 c hc] at alive
      cases alive
    refine ⟨calls, inv.generations.ages ages, ?_, ?_, ?_⟩
    · intro p hp
      cases hp
    · exact fun _ => ages.allKilled killed
    · exact fun _ => ages.allKilled killed

theorem owned_step {s s' : Slot} {a : SlotAction} (inv : Owned s) (ok : s.Awaited a)
    (ok' : s.NotifiedSpawn a) (h : s.step a = some s') : Owned s' := by
  have calls : OneCall s' := oneCall_step inv.calls ok h
  cases a with
  | start spawn =>
    cases h
    unfold Slot.start at calls ⊢
    split
    · exact inv
    · next hr =>
      rw [if_neg hr] at calls
      exact ⟨calls, inv.generations, inv.current, inv.released, inv.stopping⟩
  | stop =>
    cases h
    cases hp : s.process with
    | none =>
      rw [stop_none hp]
      exact inv
    | some p =>
      rw [stop_some hp] at calls ⊢
      have ages := kill_ages s.children p
      refine ⟨calls, inv.generations.ages ages, ?_, ?_, ?_⟩
      · intro q hq
        change q + 1 = (s.children.modify p Child.kill).length
        rw [ages.1]
        exact inv.current q hq
      · intro hnone
        cases hp.symm.trans hnone
      · exact fun _ => inv.allKilled_kill hp
  | stopNow =>
    cases h
    cases hp : s.process with
    | none =>
      rw [stopNow_none hp]
      exact inv
    | some p =>
      rw [stopNow_some hp] at calls ⊢
      refine ⟨calls, inv.generations.ages (kill_ages _ p), ?_, ?_, ?_⟩
      · intro q hq
        cases hq
      · exact fun _ => inv.allKilled_kill hp
      · exact fun _ => inv.allKilled_kill hp
  | event e => exact owned_event inv ok' h

theorem awaited_slot {x : Service} {m : ProcessManagerService} {a : Action} {b : SlotAction}
    (hb : a.at x = some b) (ok : Awaited x m a) : (m x).Awaited b := by
  cases a with
  | call c =>
    simp only [Action.at] at hb
    split at hb
    · next hc =>
      cases hb
      cases c <;> exact ok hc
    · cases hb
  | event y e =>
    simp only [Action.at] at hb
    split at hb
    · cases hb; trivial
    · cases hb

theorem notifiedSpawn_slot {x : Service} {m : ProcessManagerService} {a : Action}
    {b : SlotAction} (hb : a.at x = some b) (ok : NotifiedSpawns x m a) :
    (m x).NotifiedSpawn b := by
  cases a with
  | call c =>
    simp only [Action.at] at hb
    split at hb
    · cases hb
      cases c <;> trivial
    · cases hb
  | event y e =>
    simp only [Action.at] at hb
    split at hb
    · next hy =>
      cases hb
      cases e <;> first | exact ok hy | trivial
    · cases hb

theorem owned_run {x : Service} {as : List Action} {m : ProcessManagerService}
    (h : Runs step (fun m a => Awaited x m a ∧ NotifiedSpawns x m a) initial as m) :
    Owned (m x) := by
  have slot := Runs.slot x (fun s b => s.Awaited b ∧ s.NotifiedSpawn b)
    (fun m a b hb ok => ⟨awaited_slot hb ok.1, notifiedSpawn_slot hb ok.2⟩) h
  exact slot.invariant Owned owned_initial
    fun s a u inv ok hs => owned_step inv ok.1 ok.2 hs

theorem oneCall_run {x : Service} {as : List Action} {m : ProcessManagerService}
    (h : Runs step (Awaited x) initial as m) : OneCall (m x) := by
  have slot := Runs.slot x Slot.Awaited (fun m a b => awaited_slot) h
  exact slot.invariant OneCall ⟨Nat.zero_le 1, fun hne => absurd rfl hne⟩
    fun s a u inv ok hs => oneCall_step inv ok hs

theorem Owned.notified_own {s s' : Slot} (inv : Owned s) {k : ℕ}
    (h : s.event (.notified k) = some s') : s.process = none ∨ s.process = some k := by
  obtain ⟨hk, -⟩ := event_spec h
  have hlast := (inv.none_alive hk).1
  cases hp : s.process with
  | none => exact Or.inl rfl
  | some p =>
    have := inv.current p hp
    have hpk : p = k := by omega
    exact Or.inr (congrArg some hpk)

theorem notify_owed {s : Slot} {k : ℕ} {c : Child} (hk : s.children[k]? = some c)
    (owed : c.notified = false) :
    ∃ es s', Runs Slot.event always s es s' ∧ s'.process = none ∧
      s'.starting = s.starting ∧ s'.stopping = s.stopping ∧
      ∀ j, j ≠ k → s'.children[j]? = s.children[j]? := by
  have notify : ∀ s : Slot, ∀ c, s.children[k]? = some c → c.alive = false →
      c.notified = false → s.event (.notified k) = some { s with
        children := s.children.modify k fun c => { c with notified := true }
        process := none } := by
    intro s c hk dead owed
    refine if_pos ?_
    rw [hk, Option.any_some, dead, owed]
    rfl
  cases alive : c.alive with
  | false =>
    refine ⟨_, _, .single trivial (notify s c hk alive owed), rfl, rfl, rfl, fun j hj => ?_⟩
    simp [Ne.symm hj]
  | true =>
    let s1 : Slot := { s with children := s.children.modify k fun c => { c with alive := false } }
    have h1 : s.event (.exited k) = some s1 := if_pos (by rw [hk, Option.any_some, alive])
    have hk1 : s1.children[k]? = some { c with alive := false } := by
      simp [s1, hk]
    refine ⟨_, _, .next trivial h1 (.single trivial (notify s1 _ hk1 rfl owed)), rfl, rfl, rfl,
      fun j hj => ?_⟩
    simp [s1, Ne.symm hj]

theorem untracked_of_owed (s : Slot) (a : Spawn) {k : ℕ} {c : Child}
    (hk : s.children[k]? = some c) (owed : c.notified = false) :
    ∃ es s', Runs Slot.event always (Slot.started a s) es s' ∧ s'.process = none ∧
      s'.starting = s.starting ∧ s'.stopping = s.stopping ∧
      s'.children[s.children.length]? = some ⟨a, true, false, false⟩ := by
  have hlt := (List.getElem?_eq_some_iff.mp hk).choose
  have hk1 : (Slot.started a s).children[k]? = some c := by
    change (s.children ++ [_])[k]? = some c
    rw [List.getElem?_append_left hlt]
    exact hk
  obtain ⟨es, s', hrun, hnone, hstart, hstop, hkeep⟩ := notify_owed hk1 owed
  refine ⟨es, s', hrun, hnone, hstart, hstop, ?_⟩
  rw [hkeep _ (by omega)]
  exact List.getElem?_concat_length

/-- A spawn completing before the notification of an earlier child can leave
    the new child without a handle. -/
theorem untracked_of_late {x : Service} {m m' : ProcessManagerService} {i : ℕ}
    (one : OneCall (m x)) (hs : step m (.event x (.spawned i)) = some m')
    (hn : ¬ AllNotified (m x).children) :
    ∃ (es : List Event) (m'' : ProcessManagerService),
      Runs step always m' (es.map (.event x)) m'' ∧ (m'' x).Idle ∧
      ¬ (m'' x).Tracked := by
  have hslot : (m x).event (.spawned i) = some (m' x) :=
    step_event hs
  obtain ⟨spawn, hi, hm'⟩ := event_spec hslot
  have hlt := (List.getElem?_eq_some_iff.mp hi).choose
  have hquiet : (m x).stopping = [] := one.quiet (List.ne_nil_of_length_pos (by omega))
  have herase : (m x).starting.eraseIdx i = [] := eraseIdx_single one.single hlt
  simp only [AllNotified, not_forall] at hn
  obtain ⟨c, hc, owed⟩ := hn
  obtain ⟨k, hk⟩ := List.mem_iff_getElem?.mp hc
  let s1 : Slot := { m x with starting := (m x).starting.eraseIdx i }
  obtain ⟨es, s', hrun, hnone, hstarting, hstopping, hnew⟩ :=
    untracked_of_owed s1 spawn hk (by simpa using owed)
  obtain ⟨m'', hrun', rfl⟩ := Runs.lift always (fun _ _ => trivial) hm' hrun
  refine ⟨_, m'', hrun', ⟨hstarting.trans herase, hstopping.trans hquiet⟩, fun tracked => ?_⟩
  have hr : (m'' x).isRunning = false := by rw [Slot.isRunning, hnone]; rfl
  have killed := tracked hr _ (List.mem_iff_getElem?.mpr ⟨_, hnew⟩) rfl
  cases killed

/-- With awaited calls, every child is tracked and no notification clears a
    later handle, in every run whose spawns find the earlier notifications
    delivered. Any other spawn goes on to an untracked child with no further call. -/
theorem no_untracked_child (x : Service) :
    (∀ (as : List Action) (m : ProcessManagerService),
      Runs step (fun m a => Awaited x m a ∧ NotifiedSpawns x m a) initial as m →
        (m x).Tracked ∧
        ∀ k m', step m (.event x (.notified k)) = some m' →
          (m x).process = none ∨ (m x).process = some k) ∧
    (∀ (as : List Action) (m m' : ProcessManagerService) (i : ℕ),
      Runs step (Awaited x) initial as m → step m (.event x (.spawned i)) = some m' →
        ¬ NotifiedSpawns x m (.event x (.spawned i)) →
        ∃ (es : List Event) (m'' : ProcessManagerService),
          Runs step always m' (es.map (.event x)) m'' ∧ (m'' x).Idle ∧ ¬ (m'' x).Tracked) := by
  refine ⟨?_, ?_⟩
  · intro as m h
    have inv := owned_run h
    refine ⟨fun hr => inv.released (by simpa [Slot.isRunning] using hr), ?_⟩
    intro k m' hs
    exact inv.notified_own (step_event hs)
  · intro as m m' i h hs hn
    exact untracked_of_late (oneCall_run h) hs fun hall => hn fun _ => hall

/-- The awaited restart of PHP with the notification in time, and with the second
    spawn completing before it. -/
theorem restart_tracked :
    (∃ m, Runs step (fun m a => Awaited .php m a ∧ NotifiedSpawns .php m a) initial
        [.call (.startPHP "8.4".toList 9000), .event .php (.spawned 0), .call .stopPHP,
          .event .php (.exited 0), .event .php (.notified 0),
          .call (.startPHP "8.4".toList 9000), .event .php (.spawned 0)] m ∧ (m .php).Tracked) ∧
    ∃ m, Runs step (Awaited .php) initial
        [.call (.startPHP "8.4".toList 9000), .event .php (.spawned 0), .call .stopPHP,
          .event .php (.exited 0), .call (.startPHP "8.4".toList 9000),
          .event .php (.spawned 0)] m ∧
      ∃ (es : List Event) (m' : ProcessManagerService),
        Runs step always m (es.map (.event .php)) m' ∧ (m' .php).Idle ∧
        ¬ (m' .php).Tracked := by
  refine ⟨?_, ?_⟩
  · have run : ∃ m, Runs step (fun m a => Awaited .php m a ∧ NotifiedSpawns .php m a) initial
        [.call (.startPHP "8.4".toList 9000), .event .php (.spawned 0), .call .stopPHP,
          .event .php (.exited 0), .event .php (.notified 0),
          .call (.startPHP "8.4".toList 9000), .event .php (.spawned 0)] m :=
      ⟨_, .next ⟨fun _ => ⟨rfl, rfl⟩, trivial⟩ rfl
        (.next ⟨trivial, fun _ => by decide⟩ rfl
        (.next ⟨fun _ => ⟨rfl, rfl⟩, trivial⟩ rfl
        (.next ⟨trivial, trivial⟩ rfl
        (.next ⟨trivial, trivial⟩ rfl
        (.next ⟨fun _ => ⟨rfl, rfl⟩, trivial⟩ rfl
        (.single ⟨trivial, fun _ => by decide⟩ rfl))))))⟩
    obtain ⟨m, hm⟩ := run
    exact ⟨m, hm, ((no_untracked_child .php).1 _ m hm).1⟩
  · have before : ∃ m, Runs step (Awaited .php) initial
        [.call (.startPHP "8.4".toList 9000), .event .php (.spawned 0), .call .stopPHP,
          .event .php (.exited 0), .call (.startPHP "8.4".toList 9000)] m ∧
        ¬ AllNotified (m .php).children ∧
        ∃ m', step m (.event .php (.spawned 0)) = some m' :=
      ⟨_, .next (fun _ => ⟨rfl, rfl⟩) rfl (.next trivial rfl
        (.next (fun _ => ⟨rfl, rfl⟩) rfl (.next trivial rfl
        (.single (fun _ => ⟨rfl, rfl⟩) rfl)))), by decide, _, rfl⟩
    obtain ⟨m, hm, late, m', hs⟩ := before
    exact ⟨m', hm.snoc trivial hs,
      (no_untracked_child .php).2 _ m m' 0 hm hs fun hall => late (hall rfl)⟩

/-- startPHP, stopPHP, startPHP, each awaited; the first child's notification
    arrives after the second child was spawned. -/
theorem late_notification_untracks :
    ∃ m, Runs step (fun m a => ∀ x, Awaited x m a) initial
        [.call (.startPHP "8.4".toList 9000), .event .php (.spawned 0), .call .stopPHP,
          .event .php (.exited 0), .call (.startPHP "8.4".toList 9000),
          .event .php (.spawned 0), .event .php (.notified 0)] m ∧
      (m .php).Idle ∧ ¬ (m .php).Tracked ∧
      (m .php).children[1]? = some ⟨phpSpawn "8.4".toList 9000, true, false, false⟩ := by
  have idle : ∀ (m : ProcessManagerService) (c : Call), c.service = .php → (m .php).Idle →
      ∀ x, Awaited x m (.call c) := by
    intro m c hc hi x hx
    rw [hc] at hx
    subst hx
    exact hi
  refine ⟨_, .next (idle _ _ rfl ⟨rfl, rfl⟩) rfl (.next (fun _ => trivial) rfl
    (.next (idle _ _ rfl ⟨rfl, rfl⟩) rfl (.next (fun _ => trivial) rfl
    (.next (idle _ _ rfl ⟨rfl, rfl⟩) rfl (.next (fun _ => trivial) rfl
    (.single (fun _ => trivial) rfl)))))), ⟨rfl, rfl⟩, ?_, rfl⟩
  intro tracked
  have killed := tracked rfl _ (List.mem_iff_getElem?.mpr ⟨1, rfl⟩) rfl
  cases killed

end Luhut.ProcessManager
