import Luhut.ConfigManager

set_option autoImplicit false

/-! The try block of saveConfig starts after `_config` has been assigned and
swallows every error, so a failed write leaves the replicas apart and the call
still completes normally. -/
namespace Luhut.ConfigManager
open DartInt NginxConf

/-- The save of `c` leaves the replicas all new or all old, and completes
    normally only when they are all new. -/
def AllOrNothing (fails : Operation → Bool) (w : World) (c : AppConfig) : Prop :=
  (Reflects (exec (saveConfig fails c) w).2 c ∨ (exec (saveConfig fails c) w).2 = w) ∧
    ((exec (saveConfig fails c) w).1 = .ok () → Reflects (exec (saveConfig fails c) w).2 c)

theorem shows_map_iff (c : AppConfig) (nginx : Option Text) :
    (∀ x ∈ nginx.map (rewrite c), Shows c x) ↔ ∀ x ∈ nginx, Rewritable c x := by
  constructor
  · intro h x hx
    exact (shows_rewrite c x).mp (h _ (Option.mem_map_of_mem (rewrite c) hx))
  · intro h x hx
    obtain ⟨y, hy, rfl⟩ := Option.mem_map.mp hx
    exact (shows_rewrite c y).mpr (h y hy)

/-- The steps of the try block that fail are harmless exactly when their targets
    reflect the new configuration already. -/
theorem persisted_reflects (fails : Operation → Bool) (w : World) :
    Reflects (persisted fails w) w.config ↔
      w.launchAtStartup = w.config.autoStart ∧ (∀ x ∈ w.nginxConf, Rewritable w.config x) ∧
      (fails .createJson = true ∨ fails .writeJson = true →
        w.configJson.bind AppConfig.decode = some w.config ∧
          ∀ x ∈ w.nginxConf, Shows w.config x) ∧
      (fails .testNginx = true ∨ fails .readNginx = true ∨ fails .writeNginx = true →
        ∀ x ∈ w.nginxConf, Shows w.config x) := by
  have reach : (∀ x ∈ w.nginxConf, Shows w.config x) → ∀ x ∈ w.nginxConf, Rewritable w.config x :=
    fun h x hx => (h x hx).rewritable
  by_cases hc : fails .createJson = true
  · have hp : persisted fails w = w := by simp [persisted, hc]
    rw [hp]
    constructor
    · intro h
      exact ⟨h.launchAtStartup, reach h.nginxConf, fun _ => ⟨h.configJson, h.nginxConf⟩,
        fun _ => h.nginxConf⟩
    · rintro ⟨launch, _, files, _⟩
      exact ⟨rfl, (files (Or.inl hc)).1, (files (Or.inl hc)).2, launch⟩
  by_cases hw : fails .writeJson = true
  · have hp : persisted fails w =
        { w with configJson := some (w.configJson.getD .malformed) } := by simp [persisted, hc, hw]
    have hj : (some (w.configJson.getD .malformed)).bind AppConfig.decode =
        w.configJson.bind AppConfig.decode := by
      cases w.configJson <;> rfl
    rw [hp]
    constructor
    · intro h
      exact ⟨h.launchAtStartup, reach h.nginxConf,
        fun _ => ⟨hj.symm.trans h.configJson, h.nginxConf⟩, fun _ => h.nginxConf⟩
    · rintro ⟨launch, _, files, _⟩
      exact ⟨rfl, hj.trans (files (Or.inr hw)).1, (files (Or.inr hw)).2, launch⟩
  have json : (some w.config.encode).bind AppConfig.decode = some w.config := by
    rw [Option.bind_some, AppConfig.decode_encode]
  by_cases hn : fails .testNginx = true ∨ fails .readNginx = true ∨ fails .writeNginx = true
  · have hp : persisted fails w = { w with configJson := some w.config.encode } := by
      rcases hn with hn | hn | hn <;> simp [persisted, hc, hw, hn]
    rw [hp]
    constructor
    · intro h
      exact ⟨h.launchAtStartup, reach h.nginxConf, fun hf => by simp [hc, hw] at hf,
        fun _ => h.nginxConf⟩
    · rintro ⟨launch, _, _, nginx⟩
      exact ⟨rfl, json, nginx hn, launch⟩
  · have hp : persisted fails w = { w with
        configJson := some w.config.encode
        nginxConf := w.nginxConf.map (rewrite w.config) } := by
      simp only [not_or, Bool.not_eq_true] at hn
      simp [persisted, hc, hw, hn.1, hn.2.1, hn.2.2]
    rw [hp]
    constructor
    · intro h
      exact ⟨h.launchAtStartup, (shows_map_iff _ _).mp h.nginxConf,
        fun hf => by simp [hc, hw] at hf, fun hf => absurd hf hn⟩
    · rintro ⟨launch, reachable, _, _⟩
      exact ⟨rfl, json, (shows_map_iff _ _).mpr reachable, launch⟩

/-- A save is all or nothing exactly when it fails at the startup entry, before
    anything is changed, or when no minus sign keeps another port in nginx.conf and the
    targets of its failed steps reflect the new configuration already. -/
theorem allOrNothing_iff (fails : Operation → Bool) (w : World) (c : AppConfig) :
    AllOrNothing fails w c ↔
      (w.config.autoStart ≠ c.autoStart ∧ fails (switch c) = true) ∨
      ((w.config.autoStart = c.autoStart → w.launchAtStartup = c.autoStart) ∧
        (∀ x ∈ w.nginxConf, Rewritable c x) ∧
        (fails .createJson = true ∨ fails .writeJson = true →
          w.configJson.bind AppConfig.decode = some c ∧ ∀ x ∈ w.nginxConf, Shows c x) ∧
        (fails .testNginx = true ∨ fails .readNginx = true ∨ fails .writeNginx = true →
          ∀ x ∈ w.nginxConf, Shows c x)) := by
  have returns : ∀ v : World, exec (saveConfig fails c) w = (.ok (), v) →
      (AllOrNothing fails w c ↔ Reflects v c) := by
    intro v hv
    unfold AllOrNothing
    rw [hv]
    exact ⟨fun h => h.2 rfl, fun h => ⟨Or.inl h, fun _ => h⟩⟩
  by_cases ha : w.config.autoStart = c.autoStart
  · have hv : exec (saveConfig fails c) w = (.ok (), persisted fails { w with config := c }) := by
      rw [exec_saveConfig]
      simp [ha]
    rw [returns _ hv]
    refine (persisted_reflects fails { w with config := c }).trans ?_
    simp [ha]
  by_cases hs : fails (switch c) = true
  · have hv : exec (saveConfig fails c) w = (.error (switch c), w) := by
      rw [exec_saveConfig]
      simp [ha, hs]
    unfold AllOrNothing
    rw [hv]
    simp [ha, hs]
  · have hv : exec (saveConfig fails c) w =
        (.ok (), persisted fails { w with launchAtStartup := c.autoStart, config := c }) := by
      rw [exec_saveConfig]
      simp [ha, hs]
    rw [returns _ hv]
    refine (persisted_reflects fails
      { w with launchAtStartup := c.autoStart, config := c }).trans ?_
    simp [ha, hs]

/-- The write of config.json fails: the new port is in memory only, and the call
    completes as if it were saved. -/
theorem swallowed_write_failure :
    let w : World :=
      ⟨⟨some (AppConfig.encode {}), some "listen       80;".toList, false⟩, {}⟩
    let fails : Operation → Bool := fun op => op == .writeJson
    ¬ AllOrNothing fails w { nginxPort := 8080 } ∧
      (exec (saveConfig fails { nginxPort := 8080 }) w).1 = .ok () := by
  intro w fails
  refine ⟨fun h => ?_, rfl⟩
  have json := (h.2 rfl).configJson
  revert json
  decide

end Luhut.ConfigManager
