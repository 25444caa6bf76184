import Luhut.ConfigManager
import Luhut.SettingsPage

set_option autoImplicit false

/-! The provider creates the ConfigManager when it is first read. Its only reader is
the page's `initState`, so the page copies a `_config` that no load has touched. -/
namespace Luhut.SettingsSave
open ConfigManager SettingsPage LabelledRuns InterleavedCalls

/-- `provider` is the lazily created value of the ChangeNotifierProvider. -/
structure App where
  disk : Disk
  provider : Option ConfigManager.State
  page : Option SettingsPage

def App.launch (d : Disk) : App := ⟨d, none, none⟩

def App.read (a : App) : ConfigManager.State := a.provider.getD (create a.disk)

inductive Action where
  | initState
  | advance (i : ℕ)
  | edit (e : Edit)
  | save

def App.step (a : App) : Action → Option App
  | .initState =>
    match a.page with
    | none => some { a with
        provider := some a.read
        page := some (SettingsPage.initState a.read.shared.config) }
    | some _ => none
  | .advance i => do
    let manager ← a.provider
    let manager ← ConfigManager.step manager (.advance i)
    return { a with provider := some manager }
  | .edit e => do
    let page ← a.page
    return { a with page := some (page.edit e) }
  | .save => do
    let page ← a.page
    let manager ← ConfigManager.step a.read (.start page.newConfig)
    return { a with provider := some manager }

def BeforeSave : App → Action → Prop := fun _ a => a ≠ .save

def AfterSave : App → Action → Prop := fun _ a => ∃ i, a = .advance i

def edited (as : List Action) : List Field :=
  as.filterMap fun
    | .edit e => some e.field
    | _ => none

structure App.ShowsDefault (f : Field) (a : App) : Prop where
  page : ∀ p ∈ a.page, f.value p.newConfig = f.value {}
  lazily : a.page = none → a.provider = none

theorem default_inRange : PortsInRange {} := by
  refine ⟨?_, ?_, ?_⟩ <;> decide

theorem showsDefault_step {f : Field} {a b : App} {x : Action} (inv : a.ShowsDefault f)
    (hx : ∀ e, x = .edit e → f ≠ e.field) (h : a.step x = some b) : b.ShowsDefault f := by
  cases x with
  | initState =>
    cases hp : a.page with
    | some p =>
      simp only [App.step, hp] at h
      cases h
    | none =>
      simp only [App.step, hp] at h
      cases h
      have fresh : a.read = create a.disk := by simp [App.read, inv.lazily hp]
      refine ⟨fun p hp => ?_, nofun⟩
      have hpage : p = SettingsPage.initState a.read.shared.config := (Option.some.inj hp).symm
      rw [hpage, fresh]
      exact congrArg (fun c => f.value c) (newConfig_initState default_inRange)
  | advance i =>
    simp only [App.step, Option.bind_eq_bind, Option.bind_eq_some_iff] at h
    obtain ⟨m, hm, _, _, hb⟩ := h
    cases hb
    exact ⟨inv.page, fun hp => by rw [inv.lazily hp] at hm; cases hm⟩
  | edit e =>
    simp only [App.step, Option.bind_eq_bind, Option.bind_eq_some_iff] at h
    obtain ⟨p, hp, hb⟩ := h
    cases hb
    refine ⟨fun q hq => ?_, nofun⟩
    rw [← Option.some.inj hq, newConfig_edit p (hx e rfl)]
    exact inv.page p hp
  | save =>
    simp only [App.step, Option.bind_eq_bind, Option.bind_eq_some_iff] at h
    obtain ⟨p, hp, _, _, hb⟩ := h
    cases hb
    exact ⟨inv.page, fun hnone => by rw [hp] at hnone; cases hnone⟩

theorem showsDefault_run {f : Field} {a b : App} {as : List Action}
    {allow : App → Action → Prop} (h : Runs App.step allow a as b) (hf : f ∉ edited as)
    (inv : a.ShowsDefault f) : b.ShowsDefault f := by
  induction h with
  | refl _ => exact inv
  | @next a b c x as _ hs _ ih =>
    apply ih
    · intro hmem
      apply hf
      cases x with
      | edit e => exact List.mem_cons_of_mem _ hmem
      | _ => exact hmem
    · apply showsDefault_step inv _ hs
      intro e he hfe
      subst he
      apply hf
      rw [hfe]
      exact List.mem_cons_self ..

def Within (P : AppConfig → Prop) (w : World) : Prop :=
  P w.config ∧ ∃ x, w.configJson.bind AppConfig.decode = some x ∧ P x

def Carries (P : AppConfig → Prop) : Frame → Prop
  | .launch c | .launched c => P c
  | .writeJson content | .gotJson content => ∃ x, AppConfig.decode content = some x ∧ P x
  | _ => True

theorem within_save {P : AppConfig → Prop} {w : World} {c : AppConfig} (hw : Within P w)
    (hc : P c) : Within P (ConfigManager.save w c).1 ∧ Carries P (ConfigManager.save w c).2 := by
  rcases save_cases w c with ⟨_, hs⟩ | ⟨_, hs⟩
  · rw [hs]
    exact ⟨hw, hc⟩
  · rw [hs]
    exact ⟨⟨hc, hw.2⟩, trivial⟩

theorem within_stable (P : AppConfig → Prop) :
    Code.Stable code (Within P) fun _ f => Carries P f where
  own := by
    intro w f v g hw hf h
    change ConfigManager.advance w f = some (v, g) at h
    cases f with
    | launch c => cases h; exact ⟨hw, hf⟩
    | launched c => cases h; exact ⟨⟨hf, hw.2⟩, trivial⟩
    | create =>
      cases h
      refine ⟨⟨hw.1, ?_⟩, trivial⟩
      obtain ⟨x, hx, hp⟩ := hw.2
      obtain ⟨content, hc, hd⟩ := Option.bind_eq_some_iff.mp hx
      refine ⟨x, ?_, hp⟩
      simp [hc, hd]
    | created => cases h; exact ⟨hw, w.config, AppConfig.decode_encode _, hw.1⟩
    | writeJson content => cases h; exact ⟨⟨hw.1, hf⟩, trivial⟩
    | testedNginx found => cases found <;> cases h <;> exact ⟨hw, trivial⟩
    | readNginx =>
      simp only [ConfigManager.advance] at h
      split at h <;> cases h <;> exact ⟨hw, trivial⟩
    | testedJson found =>
      cases found with
      | true => cases h; exact ⟨hw, trivial⟩
      | false =>
        have ok := within_save hw hw.1
        rw [Option.some.inj h] at ok
        exact ok
    | readJson =>
      cases hj : w.configJson with
      | none =>
        simp only [ConfigManager.advance, hj] at h
        cases h
        exact ⟨hw, trivial⟩
      | some content =>
        simp only [ConfigManager.advance, hj] at h
        cases h
        have stored := hw.2
        rw [hj] at stored
        exact ⟨hw, stored⟩
    | gotJson content =>
      obtain ⟨x, hd, hp⟩ := hf
      simp only [ConfigManager.advance, hd] at h
      cases h
      exact ⟨⟨hp, hw.2⟩, trivial⟩
    | returned => cases h
    | _ => cases h; exact ⟨hw, trivial⟩
  other _ _ _ _ _ _ _ hk _ := hk

def App.Holds (P : AppConfig → Prop) (a : App) : Prop :=
  Code.Fits (Within P) (fun _ f => Carries P f) a.read

theorem holds_launch {P : AppConfig → Prop} {d : Disk} {c : AppConfig}
    (stored : d.configJson.bind AppConfig.decode = some c) (hc : P c) (hdefault : P {}) :
    (App.launch d).Holds P := by
  refine ⟨⟨hdefault, c, stored, hc⟩, fun f hf => ?_⟩
  rw [List.mem_singleton.mp hf]
  trivial

theorem holds_advance {P : AppConfig → Prop} {a b : App} {i : ℕ} (inv : a.Holds P)
    (h : a.step (.advance i) = some b) : b.Holds P := by
  simp only [App.step, Option.bind_eq_bind, Option.bind_eq_some_iff] at h
  obtain ⟨m, hm, m', hs, hb⟩ := h
  cases hb
  have hread : a.read = m := by simp [App.read, hm]
  unfold App.Holds at inv
  rw [hread] at inv
  exact (within_stable P).advance inv hs

theorem holds_before {P : AppConfig → Prop} {a b : App} {as : List Action}
    (h : Runs App.step BeforeSave a as b) (inv : a.Holds P) : b.Holds P := by
  apply h.invariant (App.Holds P) inv
  intro a x b inv ok hs
  cases x with
  | initState =>
    simp only [App.step] at hs
    split at hs
    · cases hs
      exact inv
    · cases hs
  | advance i => exact holds_advance inv hs
  | edit e =>
    simp only [App.step, Option.bind_eq_bind, Option.bind_eq_some_iff] at hs
    obtain ⟨_, _, hb⟩ := hs
    cases hb
    exact inv
  | save => exact absurd rfl ok

theorem holds_after {P : AppConfig → Prop} {a b : App} {as : List Action}
    (h : Runs App.step AfterSave a as b) (inv : a.Holds P) : b.Holds P := by
  apply h.invariant (App.Holds P) inv
  rintro a x b inv ⟨i, hx⟩ hs
  subst hx
  exact holds_advance inv hs

theorem save_spec {a b : App} (h : a.step .save = some b) :
    ∃ p, a.page = some p ∧
      b.read = ⟨(ConfigManager.save a.read.shared p.newConfig).1,
        a.read.calls ++ [(ConfigManager.save a.read.shared p.newConfig).2]⟩ := by
  simp only [App.step, Option.bind_eq_bind, Option.bind_eq_some_iff] at h
  obtain ⟨p, hp, m, hm, hb⟩ := h
  cases hb
  exact ⟨p, hp, (Option.some.inj hm).symm⟩

/-- The first Save keeps the fields the user did not edit, in the config it
    passes and from then on in memory and in config.json, exactly when the stored
    config has the default in each of them. -/
theorem save_keeps_unedited_iff {d : Disk} {c : AppConfig} {as bs : List Action} {a a₁ a₂ : App}
    (stored : d.configJson.bind AppConfig.decode = some c)
    (before : Runs App.step BeforeSave (App.launch d) as a) (pressed : a.step .save = some a₁)
    (after : Runs App.step AfterSave a₁ bs a₂) :
    (∀ f ∉ edited as,
      (∀ p ∈ a.page, f.value p.newConfig = f.value c) ∧
      f.value a₂.read.shared.config = f.value c ∧
      ∃ x, a₂.read.shared.configJson.bind AppConfig.decode = some x ∧ f.value x = f.value c) ↔
    ∀ f ∉ edited as, f.value c = f.value {} := by
  obtain ⟨p, hp, hread⟩ := save_spec pressed
  have shows : ∀ f ∉ edited as, f.value p.newConfig = f.value {} := by
    intro f hf
    have start : (App.launch d).ShowsDefault f := ⟨fun _ h => (by cases h), fun _ => rfl⟩
    exact (showsDefault_run before hf start).page p hp
  constructor
  · intro kept f hf
    rw [← (kept f hf).1 p hp]
    exact shows f hf
  · intro default f hf
    have start : (App.launch d).Holds fun x => f.value x = f.value c :=
      holds_launch stored rfl (default f hf).symm
    have passed : f.value p.newConfig = f.value c := (shows f hf).trans (default f hf).symm
    have saving := holds_before before start
    have saved : a₁.Holds fun x => f.value x = f.value c := by
      unfold App.Holds
      rw [hread]
      have new := within_save saving.1 passed
      exact Code.Fits.start new.1 new.2 saving.2
    have final := (holds_after after saved).1
    refine ⟨fun q hq => ?_, final.1, final.2⟩
    rw [hp] at hq
    rw [← Option.some.inj hq]
    exact passed

theorem nginx_port_edit_keeps_others :
    let as : List Action :=
      [.initState, .advance 0, .edit (.nginxPort "8080".toList), .advance 0, .advance 0, .advance 0]
    ∃ a a₁ a₂,
      Runs App.step BeforeSave (App.launch ⟨some (AppConfig.encode {}), none, false⟩) as a ∧
      a.step .save = some a₁ ∧ Runs App.step AfterSave a₁ (List.replicate 6 (.advance 1)) a₂ ∧
      ∀ f ∉ edited as, f.value a₂.read.shared.config = f.value {} := by
  intro as
  let d : Disk := ⟨some (AppConfig.encode {}), none, false⟩
  let page : SettingsPage := (SettingsPage.initState {}).edit (.nginxPort "8080".toList)
  let n : AppConfig := { nginxPort := 8080 }
  have before : Runs App.step BeforeSave (App.launch d) as
      ⟨d, some ⟨⟨d, {}⟩, [.returned]⟩, some page⟩ := by
    apply exec_runs_of App.step
    · intro x hx _
      simp only [as, List.mem_cons, List.not_mem_nil, or_false] at hx
      rcases hx with rfl | rfl | rfl | rfl | rfl | rfl <;> simp [BeforeSave]
    · rfl
  have pressed : App.step ⟨d, some ⟨⟨d, {}⟩, [.returned]⟩, some page⟩ .save =
      some ⟨d, some ⟨⟨d, n⟩, [.returned, .create]⟩, some page⟩ := rfl
  have after : Runs App.step AfterSave ⟨d, some ⟨⟨d, n⟩, [.returned, .create]⟩, some page⟩
      (List.replicate 6 (.advance 1))
      ⟨d, some ⟨⟨⟨some n.encode, none, false⟩, n⟩, [.returned, .returned]⟩, some page⟩ := by
    apply exec_runs_of App.step
    · intro x hx _
      exact ⟨1, List.eq_of_mem_replicate hx⟩
    · rfl
  refine ⟨_, _, _, before, pressed, after, fun f hf => ?_⟩
  exact ((save_keeps_unedited_iff rfl before pressed after).mpr (fun _ _ => rfl) f hf).2.1

/-- PHP port 9001 is stored. Saving with no edit at all, after the load has
    completed, stores 9000. -/
theorem unedited_port_lost :
    ∃ a a₁ a₂, Runs App.step BeforeSave
        (App.launch ⟨some (AppConfig.encode { phpPort := 9001 }), none, false⟩)
        [.initState, .advance 0, .advance 0, .advance 0, .advance 0] a ∧
      a.step .save = some a₁ ∧ Runs App.step AfterSave a₁ (List.replicate 6 (.advance 1)) a₂ ∧
      a.read.shared.config = { phpPort := 9001 } ∧ a₂.read.shared.config = {} ∧
      a₂.read.shared.configJson = some (AppConfig.encode {}) := by
  let d : Disk := ⟨some (AppConfig.encode { phpPort := 9001 }), none, false⟩
  let page : SettingsPage := SettingsPage.initState {}
  refine ⟨⟨d, some ⟨⟨d, { phpPort := 9001 }⟩, [.returned]⟩, some page⟩,
    ⟨d, some ⟨⟨d, {}⟩, [.returned, .create]⟩, some page⟩,
    ⟨d, some ⟨⟨⟨some (AppConfig.encode {}), none, false⟩, {}⟩, [.returned, .returned]⟩, some page⟩,
    ?_, rfl, ?_, rfl, rfl, rfl⟩
  · apply exec_runs_of App.step
    · intro x hx _
      simp only [List.mem_cons, List.not_mem_nil, or_false] at hx
      rcases hx with rfl | rfl | rfl | rfl | rfl <;> simp [BeforeSave]
    · rfl
  · apply exec_runs_of App.step
    · intro x hx _
      exact ⟨1, List.eq_of_mem_replicate hx⟩
    · rfl

end Luhut.SettingsSave
