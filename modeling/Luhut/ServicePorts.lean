import Luhut.SaveHistory
import Luhut.ProcessManager

set_option autoImplicit false

/-! The dashboard passes 9000 to startPHP and mysqld gets no port at all; nginx.conf
and the configuration carry whatever was saved. -/
namespace Luhut.ServicePorts
open DartInt TextPattern NginxConf LabelledRuns ConfigManager ProcessManager

def toggle (m : ProcessManagerService) : Service → ProcessManagerService
  | .nginx => if isNginxRunning m then stopNginx m else startNginx m
  | .php => if isPhpRunning m then stopPHP m else startPHP "8.4".toList 9000 m
  | .mysql => if isMysqlRunning m then stopMySQL m else startMySQL m

structure App where
  world : World
  services : ProcessManagerService

inductive Action where
  /-- A call of saveConfig from its start to its end, with the steps of it that fail. -/
  | saved (a : Attempt)
  | toggle (x : Service)
  | event (x : Service) (e : Event)

def App.step (a : App) : Action → Option App
  | .saved s => some { a with world := after a.world s }
  | .toggle x => some { a with services := ServicePorts.toggle a.services x }
  | .event x e =>
    (ProcessManager.step a.services (.event x e)).map fun m => { a with services := m }

def saves (as : List Action) : List Attempt :=
  as.filterMap fun
    | .saved s => some s
    | _ => none

theorem run_world {a b : App} {as : List Action} (h : Runs App.step always a as b) :
    b.world = history a.world (saves as) := by
  induction h with
  | refl a => rfl
  | @next a v b x as _ hs _ ih =>
    rw [ih]
    cases x with
    | saved s =>
      cases hs
      rfl
    | toggle x =>
      cases hs
      rfl
    | event x e =>
      obtain ⟨m, _, rfl⟩ := Option.map_eq_some_iff.mp hs
      rfl

def dashboardSpawn : Service → Spawn
  | .nginx => nginxSpawn
  | .php => phpSpawn "8.4".toList 9000
  | .mysql => mysqlSpawn

theorem toggle_started {m : ProcessManagerService} {x : Service} {spawn : Spawn}
    (h : (toggle m x x).starting = (m x).starting ++ [spawn]) : spawn = dashboardSpawn x := by
  have stopped : ∀ s : Slot, s.stop.starting = s.starting := by
    intro s
    cases hp : s.process with
    | none => rw [stop_none hp]
    | some p => rw [stop_some hp]
  have stoppedNow : ∀ s : Slot, s.stopNow.starting = s.starting := by
    intro s
    cases hp : s.process with
    | none => rw [stopNow_none hp]
    | some p => rw [stopNow_some hp]
  have added : ∀ (s : Slot) (a : Spawn), s.isRunning = false →
      (Slot.start a s).starting = s.starting ++ [spawn] → spawn = a := by
    intro s a hr hs
    simp only [Slot.start, hr, Bool.false_eq_true, if_false] at hs
    simpa using (List.append_cancel_left hs).symm
  cases x with
  | nginx =>
    cases hr : isNginxRunning m with
    | true => simp [toggle, hr, stopNginx, onSlot, stopped] at h
    | false =>
      simp only [toggle, hr, startNginx, onSlot] at h
      exact added _ _ hr h
  | php =>
    cases hr : isPhpRunning m with
    | true => simp [toggle, hr, stopPHP, onSlot, stoppedNow] at h
    | false =>
      simp only [toggle, hr, startPHP, onSlot] at h
      exact added _ _ hr h
  | mysql =>
    cases hr : isMysqlRunning m with
    | true => simp [toggle, hr, stopMySQL, onSlot, stopped] at h
    | false =>
      simp only [toggle, hr, startMySQL, onSlot] at h
      exact added _ _ hr h

theorem phpArguments_iff (p : ℤ) :
    (phpSpawn "8.4".toList 9000).arguments = ["-b".toList, "127.0.0.1:".toList ++ toText p] ↔
      p = 9000 := by
  constructor
  · intro h
    have address : "127.0.0.1:".toList ++ toText 9000 = "127.0.0.1:".toList ++ toText p :=
      (List.cons.inj (List.cons.inj h).2).1
    exact (toText_injective (List.append_cancel_left address)).symm
  · intro h
    rw [h]
    rfl

section
variable (mysqld : List Text → ℤ) (w : World) (as : List Action)

/-- The new process and nginx.conf use the ports of the configuration. `mysqld` is the
    port that mysqld takes from its arguments; the directives meant are those that
    were rewritten since the state `w`. -/
def Agrees (v : World) : Service → Spawn → Prop
  | .nginx, _ => True
  | .php, spawn =>
    spawn.arguments = ["-b".toList, "127.0.0.1:".toList ++ toText v.config.phpPort] ∧
      (written w (saves as) ≠ [] → ∀ original ∈ w.nginxConf, ∀ x ∈ v.nginxConf,
        Carries .fastcgiPass v.config.phpPort original x)
  | .mysql, spawn => mysqld spawn.arguments = v.config.mysqlPort

/-- The configuration has the ports that are built in, and nginx.conf was last given
    the same PHP port, and no negative one. -/
def BuiltIn (v : World) : Service → Prop
  | .nginx => True
  | .php => v.config.phpPort = 9000 ∧ ∀ original ∈ w.nginxConf, occurs phpRegex original = true →
      ∀ last ∈ (written w (saves as)).getLast?,
        last.phpPort = 9000 ∧ ∀ c ∈ written w (saves as), 0 ≤ c.phpPort
  | .mysql => v.config.mysqlPort = mysqld []
end

theorem settled_9000_iff (earlier : List AppConfig) (last : AppConfig) :
    settled (earlier.map (·.phpPort)) last.phpPort = 9000 ↔
      last.phpPort = 9000 ∧ ∀ c ∈ earlier ++ [last], 0 ≤ c.phpPort := by
  unfold settled
  cases found : (earlier.map (·.phpPort)).find? (· < 0) with
  | none =>
    have kept : ∀ c ∈ earlier, 0 ≤ c.phpPort := by
      intro c hc
      have hn := List.find?_eq_none.mp found c.phpPort (List.mem_map_of_mem hc)
      simpa using hn
    refine ⟨fun h => ⟨h, List.forall_mem_append.mpr ⟨kept, ?_⟩⟩, fun h => h.1⟩
    rw [List.forall_mem_singleton]
    change last.phpPort = 9000 at h
    omega
  | some p =>
    have negative := List.find?_some found
    obtain ⟨c, hc, rfl⟩ := List.mem_map.mp (List.mem_of_find?_eq_some found)
    simp only [decide_eq_true_eq] at negative
    constructor
    · intro h
      change c.phpPort = 9000 at h
      omega
    · rintro ⟨_, nonneg⟩
      have := nonneg c (List.mem_append_left _ hc)
      omega

theorem carries_9000_iff (cs : List AppConfig) (x : Text) :
    (cs ≠ [] → Carries .fastcgiPass 9000 x (NginxConf.saves cs x)) ↔
      (occurs phpRegex x = true → ∀ last ∈ cs.getLast?,
        last.phpPort = 9000 ∧ ∀ c ∈ cs, 0 ≤ c.phpPort) := by
  cases cs using List.reverseRecOn with
  | nil => exact ⟨fun _ _ _ h => (by cases h), fun _ h => absurd rfl h⟩
  | append_singleton earlier last =>
    rw [saves_settled, carries_rewritePorts_iff, List.getLast?_concat]
    change (_ → (_ → settled _ _ = 9000)) ↔ _
    rw [settled_9000_iff]
    constructor
    · intro h found c hc
      cases hc
      exact h (by simp) found
    · intro h _ found
      exact h found last rfl

/-- Whatever was saved, and whatever failed in the saves, a service is started on the
    ports of the configuration exactly when those are the ones built into the dashboard
    and mysqld, and nginx.conf was last given the built-in PHP port and never a negative
    one. -/
theorem started_on_configured_ports_iff {mysqld : List Text → ℤ}
    (console : ∀ rest, mysqld ("--console".toList :: rest) = mysqld rest) {w : World}
    {as : List Action} {a b : App} {x : Service} {spawn : Spawn}
    (run : Runs App.step always ⟨w, ProcessManager.initial⟩ as a)
    (toggled : a.step (.toggle x) = some b)
    (started : (b.services x).starting = (a.services x).starting ++ [spawn]) :
    Agrees mysqld w as b.world x spawn ↔ BuiltIn mysqld w as a.world x := by
  have hb : b = { a with services := toggle a.services x } := (Option.some.inj toggled).symm
  subst hb
  have hspawn := toggle_started started
  subst hspawn
  cases x with
  | nginx => exact Iff.rfl
  | mysql =>
    change mysqld ["--console".toList] = a.world.config.mysqlPort ↔
      a.world.config.mysqlPort = mysqld []
    rw [console]
    exact eq_comm
  | php =>
    change (phpSpawn "8.4".toList 9000).arguments = _ ∧ _ ↔ _
    rw [phpArguments_iff]
    refine and_congr_right fun port => ?_
    have nginx : a.world.nginxConf =
        w.nginxConf.map (NginxConf.saves (written w (saves as))) := by
      rw [run_world run, history_nginxConf]
    change (_ → ∀ original ∈ w.nginxConf, ∀ x ∈ a.world.nginxConf, _) ↔ _
    rw [nginx, port]
    constructor
    · intro h x hx
      exact (carries_9000_iff _ x).mp fun some => h some x hx _ (Option.mem_map_of_mem _ hx)
    · intro h some x hx y hy
      rw [Option.mem_def.mp hx] at hy
      cases hy
      exact (carries_9000_iff _ x).mpr (h x hx) some

/-- A save of another nginx port whose write of config.json fails, and a complete one of
    the PHP port 9000; then PHP is started. -/
theorem php_started_on_9000 :
    let w : World := ⟨⟨none, some "fastcgi_pass   127.0.0.1:9000;".toList, false⟩, {}⟩
    let as : List Action := [.saved ⟨fun op => op == .writeJson, { nginxPort := 8080 }⟩,
      .saved ⟨neverFails, { nginxPort := 8081 }⟩]
    ∃ a b, Runs App.step always ⟨w, ProcessManager.initial⟩ as a ∧
      a.step (.toggle .php) = some b ∧
      Agrees (fun _ => 3306) w as b.world .php (phpSpawn "8.4".toList 9000) := by
  intro w as
  have run : Runs App.step always ⟨w, ProcessManager.initial⟩ as
      ⟨history w (saves as), ProcessManager.initial⟩ := exec_runs _ _ _ _ rfl
  refine ⟨_, _, run, rfl, (started_on_configured_ports_iff (fun _ => rfl) run rfl rfl).mpr ?_⟩
  have files : written w (saves as) = [{ nginxPort := 8081 }] := rfl
  refine ⟨rfl, fun _ _ _ last hl => ?_⟩
  rw [files] at hl ⊢
  cases hl
  exact ⟨rfl, fun c hc => by rw [List.mem_singleton.mp hc]; decide⟩

/-- PHP port 9001 is saved: nginx forwards to 9001, PHP is bound to 9000. -/
theorem php_started_on_another_port :
    let w : World := ⟨⟨none, some "fastcgi_pass   127.0.0.1:9000;".toList, false⟩, {}⟩
    ∃ a b, Runs App.step always ⟨w, ProcessManager.initial⟩
        [.saved ⟨neverFails, { phpPort := 9001 }⟩] a ∧
      a.step (.toggle .php) = some b ∧ b.world.config.phpPort = 9001 ∧
      b.world.nginxConf = some "fastcgi_pass   127.0.0.1:9001;".toList ∧
      (b.services .php).starting = [phpSpawn "8.4".toList 9000] := by
  intro w
  have text : (after w ⟨neverFails, { phpPort := 9001 }⟩).nginxConf =
      some "fastcgi_pass   127.0.0.1:9001;".toList := by
    rw [after_nginxConf]
    decide +kernel
  exact ⟨_, _, exec_runs _ _ ⟨after w ⟨neverFails, { phpPort := 9001 }⟩, _⟩ _ rfl, rfl, rfl, text,
    rfl⟩

end Luhut.ServicePorts
