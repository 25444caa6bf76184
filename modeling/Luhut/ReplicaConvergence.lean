import Luhut.SaveOrder

set_option autoImplicit false

/-! Calls hold texts they composed from an older `_config`, and load and the waiting
saves are still to assign one. The replicas converge to `n` as long as every
call in flight agrees with `n` in what it holds, composes and assigns. -/
namespace Luhut.ConfigManager
open DartInt NginxConf LabelledRuns InterleavedCalls

/-- What the call has still to assign, or to write from what it holds or finds
    in `_config` now, is `n`'s. -/
def Frame.Agrees (n : AppConfig) (config : AppConfig) (w : World) : Frame → Prop
  | .launch c | .launched c => c = n
  | .create | .created => config = n
  | .writeJson content => content = n.encode
  | .wroteJson | .testNginx | .testedNginx true | .readNginx =>
    ∀ x ∈ w.nginxConf, Shows n (rewrite config x)
  | .gotNginx x => Shows n (rewrite config x)
  | .writeNginx x => Shows n x
  | .testJson | .testedJson _ | .readJson => w.configJson.bind AppConfig.decode = some n
  | .gotJson content => AppConfig.decode content = some n
  | .testedNginx false | .wroteNginx | .returned => True

def nextConfig (w : World) (c : AppConfig) : AppConfig :=
  if w.config.autoStart = c.autoStart then c else w.config

/-- A save is issued only when nginx.conf can be given its ports and all calls in
    flight agree with it. -/
def Undisturbed (s : State) : Move AppConfig → Prop
  | .start c => (∀ x ∈ s.shared.nginxConf, Rewritable c x) ∧
      ∀ f ∈ s.calls, f.Agrees c (nextConfig s.shared c) s.shared
  | .advance _ => True

def Frame.Holds (w : World) : Frame → Prop
  | .writeJson content => content = w.config.encode
  | .testedNginx found => found = w.nginxConf.isSome
  | .gotNginx _ => w.nginxConf.isSome = true
  | .writeNginx x => w.nginxConf.isSome = true ∧ rewrite w.config x = x
  | .testedJson found => found = true
  | _ => True

def Frame.Fits (n : AppConfig) (w : World) (f : Frame) : Prop :=
  f.Agrees n w.config w ∧ f.Holds w

def Frame.owesJson : Frame → Bool
  | .launch _ | .launched _ | .create | .created | .writeJson _ => true
  | _ => false

def Frame.owesNginx : Frame → Bool
  | .launch _ | .launched _ | .create | .created | .writeJson _ | .wroteJson | .testNginx
  | .testedNginx _ | .readNginx | .gotNginx _ | .writeNginx _ => true
  | _ => false

def Frame.owesLaunch : Frame → Bool
  | .launch _ => true
  | _ => false

/-- Every replica reflects `n`, or a call in flight is still to write it. -/
structure Converging (n : AppConfig) (s : State) : Prop where
  rewritable : ∀ x ∈ s.shared.nginxConf, Rewritable n x
  fits : ∀ f ∈ s.calls, f.Fits n s.shared
  config : Code.Owed (fun w => w.config = n) (fun f => f.assigned = false) s
  configJson : Code.Owed (fun w => w.configJson.bind AppConfig.decode = some n)
    (fun f => f.owesJson = true) s
  nginxConf : Code.Owed (fun w => ∀ x ∈ w.nginxConf, Shows n x)
    (fun f => f.owesNginx = true) s
  launchAtStartup : Code.Owed (fun w => w.launchAtStartup = n.autoStart)
    (fun f => f.owesLaunch = true) s

theorem Converging.reflects {n : AppConfig} {s : State} (h : Converging n s)
    (hq : Quiescent s) : Reflects s.shared n := by
  have quiet := quiescent_iff.mp hq
  refine ⟨h.config.settled ?_ quiet, h.configJson.settled ?_ quiet,
    h.nginxConf.settled ?_ quiet, h.launchAtStartup.settled ?_ quiet⟩
  all_goals
    intro f hf h0
    rw [rank_eq_zero.mp h0] at hf
    cases hf

theorem bind_getD (j : Option JsonText) :
    (some (j.getD .malformed)).bind AppConfig.decode = j.bind AppConfig.decode := by
  cases j <;> rfl

theorem bind_encode (c : AppConfig) : (some c.encode).bind AppConfig.decode = some c := by
  rw [Option.bind_some, AppConfig.decode_encode]

theorem fits_own {n : AppConfig} {w v : World} {f g : Frame}
    (hr : ∀ x ∈ w.nginxConf, Rewritable n x) (hf : f.Fits n w)
    (h : advance w f = some (v, g)) : g.Fits n v := by
  obtain ⟨ha, hh⟩ := hf
  cases f with
  | launch c => cases h; exact ⟨ha, trivial⟩
  | launched c => cases h; exact ⟨ha, trivial⟩
  | create => cases h; exact ⟨ha, trivial⟩
  | created =>
    cases h
    have hn : w.config = n := ha
    exact ⟨congrArg AppConfig.encode hn, rfl⟩
  | writeJson content =>
    cases h
    have hc : w.config = n := AppConfig.encode_injective (hh.symm.trans ha)
    refine ⟨fun x hx => ?_, trivial⟩
    change Shows n (rewrite w.config x)
    rw [hc]
    exact (shows_rewrite n x).mpr (hr x hx)
  | wroteJson => cases h; exact ⟨ha, trivial⟩
  | testNginx =>
    cases h
    refine ⟨?_, rfl⟩
    cases hn : w.nginxConf with
    | none => trivial
    | some x => exact ha
  | testedNginx found =>
    cases found with
    | true => cases h; exact ⟨ha, trivial⟩
    | false => cases h; exact ⟨trivial, trivial⟩
  | readNginx =>
    cases hn : w.nginxConf with
    | none =>
      simp only [advance, hn] at h
      cases h
      exact ⟨trivial, trivial⟩
    | some x =>
      simp only [advance, hn] at h
      cases h
      refine ⟨ha x hn, ?_⟩
      change w.nginxConf.isSome = true
      rw [hn]
      rfl
  | gotNginx x =>
    cases h
    exact ⟨ha, hh, rewrite_idempotent w.config x⟩
  | writeNginx x => cases h; exact ⟨trivial, trivial⟩
  | wroteNginx => cases h; exact ⟨trivial, trivial⟩
  | testJson =>
    cases h
    obtain ⟨content, hj, -⟩ := Option.bind_eq_some_iff.mp ha
    refine ⟨ha, ?_⟩
    change w.configJson.isSome = true
    rw [hj]
    rfl
  | testedJson found =>
    have hfound : found = true := hh
    subst hfound
    cases h
    exact ⟨ha, trivial⟩
  | readJson =>
    obtain ⟨content, hj, hd⟩ := Option.bind_eq_some_iff.mp ha
    simp only [advance, hj] at h
    cases h
    exact ⟨hd, trivial⟩
  | gotJson content =>
    have hd : AppConfig.decode content = some n := ha
    simp only [advance, hd] at h
    cases h
    exact ⟨trivial, trivial⟩
  | returned => cases h

inductive Effect (n : AppConfig) (w : World) : World → Prop where
  | idle : Effect n w w
  | launched : Effect n w { w with launchAtStartup := n.autoStart }
  | assigned : Effect n w { w with config := n }
  | created : Effect n w { w with configJson := some (w.configJson.getD .malformed) }
  | wroteJson (hc : w.config = n) : Effect n w { w with configJson := some n.encode }
  | wroteNginx (x : Text) (hx : Shows n x) (hc : rewrite w.config x = x)
      (hs : w.nginxConf.isSome = true) : Effect n w { w with nginxConf := some x }

theorem fits_effect {n : AppConfig} {w v : World} {f g : Frame} (hf : f.Fits n w)
    (h : advance w f = some (v, g)) : Effect n w v := by
  obtain ⟨ha, hh⟩ := hf
  cases f with
  | launch c =>
    cases h
    have hc : c = n := ha
    rw [hc]
    exact .launched
  | launched c =>
    cases h
    have hc : c = n := ha
    rw [hc]
    exact .assigned
  | create => cases h; exact .created
  | writeJson content =>
    cases h
    have hj : content = n.encode := ha
    rw [hj]
    exact .wroteJson (AppConfig.encode_injective (hh.symm.trans hj))
  | testedNginx found => cases found <;> cases h <;> exact .idle
  | readNginx =>
    simp only [advance] at h
    split at h <;> cases h <;> exact .idle
  | writeNginx x => cases h; exact .wroteNginx x ha hh.2 hh.1
  | testedJson found =>
    have hfound : found = true := hh
    subst hfound
    cases h
    exact .idle
  | readJson =>
    simp only [advance] at h
    split at h <;> cases h <;> exact .idle
  | gotJson content =>
    have hd : AppConfig.decode content = some n := ha
    simp only [advance, hd] at h
    cases h
    exact .assigned
  | returned => cases h
  | _ => cases h; exact .idle

theorem rewrite_eq_of_shows {c d : AppConfig} {x : Text} (hx : rewrite d x = x)
    (h : Shows c x) : rewrite c x = x := by
  rw [← hx] at h ⊢
  exact rewrite_of_shows c d x h

theorem Effect.fits {n : AppConfig} {w v : World} {k : Frame} (e : Effect n w v)
    (hr : ∀ x ∈ w.nginxConf, Rewritable n x) (hk : k.Fits n w) : k.Fits n v := by
  have ha := hk.1
  have hh := hk.2
  cases e with
  | idle => exact hk
  | launched => cases k <;> exact hk
  | assigned =>
    cases k with
    | create | created => exact ⟨rfl, hh⟩
    | writeJson content => exact ⟨ha, ha⟩
    | wroteJson | testNginx | readNginx =>
      exact ⟨fun x hx => (shows_rewrite n x).mpr (hr x hx), hh⟩
    | testedNginx found =>
      cases found with
      | true => exact ⟨fun x hx => (shows_rewrite n x).mpr (hr x hx), hh⟩
      | false => exact hk
    | gotNginx x =>
      have reach := ((shows_rewrite_iff n w.config x).mp ha).1
      exact ⟨(shows_rewrite n x).mpr reach, hh⟩
    | writeNginx x => exact ⟨ha, hh.1, rewrite_eq_of_shows hh.2 ha⟩
    | _ => exact hk
  | created =>
    cases k with
    | testJson | testedJson | readJson => exact ⟨(bind_getD w.configJson).trans ha, hh⟩
    | testedNginx found => cases found <;> exact hk
    | _ => exact hk
  | wroteJson hc =>
    cases k with
    | testJson | testedJson | readJson => exact ⟨bind_encode n, hh⟩
    | testedNginx found => cases found <;> exact hk
    | _ => exact hk
  | wroteNginx x hx hc hs =>
    have still : ∀ y ∈ some x, Shows n (rewrite w.config y) := by
      intro y hy
      rw [← Option.some.inj hy, hc]
      exact hx
    cases k with
    | wroteJson | testNginx | readNginx => exact ⟨still, hh⟩
    | testedNginx found =>
      have hfound : found = w.nginxConf.isSome := hh
      cases found with
      | true => exact ⟨still, rfl⟩
      | false =>
        rw [hs] at hfound
        cases hfound
    | gotNginx y => exact ⟨ha, rfl⟩
    | writeNginx y => exact ⟨ha, rfl, hh.2⟩
    | _ => exact hk

theorem Effect.keeps {n : AppConfig} {w v : World} (e : Effect n w v) :
    (w.config = n → v.config = n) ∧
    (w.configJson.bind AppConfig.decode = some n → v.configJson.bind AppConfig.decode = some n) ∧
    ((∀ x ∈ w.nginxConf, Shows n x) → ∀ x ∈ v.nginxConf, Shows n x) ∧
    (w.launchAtStartup = n.autoStart → v.launchAtStartup = n.autoStart) := by
  cases e with
  | idle => exact ⟨id, id, id, id⟩
  | launched => exact ⟨id, id, id, fun _ => rfl⟩
  | assigned => exact ⟨fun _ => rfl, id, id, id⟩
  | created => exact ⟨id, fun h => (bind_getD w.configJson).trans h, id, id⟩
  | wroteJson hc => exact ⟨id, fun _ => bind_encode n, id, id⟩
  | wroteNginx x hx hc hs =>
    refine ⟨id, id, fun _ y hy => ?_, id⟩
    rw [← Option.some.inj hy]
    exact hx

section
variable {n : AppConfig} {w v : World} {f g : Frame} (hf : f.Fits n w)
  (h : advance w f = some (v, g))
include hf h

theorem pays_config (ho : f.assigned = false) : g.assigned = false ∨ v.config = n := by
  obtain ⟨ha, hh⟩ := hf
  cases f with
  | launch c => cases h; exact .inl rfl
  | launched c => cases h; exact .inr ha
  | testJson => cases h; exact .inl rfl
  | testedJson found =>
    have hfound : found = true := hh
    subst hfound
    cases h
    exact .inl rfl
  | readJson =>
    obtain ⟨content, hj, hd⟩ := Option.bind_eq_some_iff.mp ha
    simp only [advance, hj] at h
    cases h
    exact .inl rfl
  | gotJson content =>
    have hd : AppConfig.decode content = some n := ha
    simp only [advance, hd] at h
    cases h
    exact .inr rfl
  | _ => cases ho

theorem pays_json (ho : f.owesJson = true) :
    g.owesJson = true ∨ v.configJson.bind AppConfig.decode = some n := by
  cases f with
  | launch _ | launched _ | create | created => cases h; exact .inl rfl
  | writeJson content =>
    cases h
    have hj : content = n.encode := hf.1
    right
    rw [hj]
    exact bind_encode n
  | _ => cases ho

theorem pays_nginx (ho : f.owesNginx = true) :
    g.owesNginx = true ∨ ∀ x ∈ v.nginxConf, Shows n x := by
  obtain ⟨ha, hh⟩ := hf
  cases f with
  | launch _ | launched _ | create | created | writeJson _ | wroteJson | testNginx | gotNginx _ =>
    cases h
    exact .inl rfl
  | testedNginx found =>
    cases found with
    | true => cases h; exact .inl rfl
    | false =>
      cases h
      have habsent : false = w.nginxConf.isSome := hh
      refine .inr fun x hx => ?_
      rw [Option.mem_def.mp hx] at habsent
      cases habsent
  | readNginx =>
    cases hn : w.nginxConf with
    | none =>
      simp only [advance, hn] at h
      cases h
      refine .inr fun x hx => ?_
      rw [hn] at hx
      cases hx
    | some x =>
      simp only [advance, hn] at h
      cases h
      exact .inl rfl
  | writeNginx x =>
    cases h
    refine .inr fun y hy => ?_
    rw [← Option.some.inj hy]
    exact ha
  | _ => cases ho

theorem pays_launch (ho : f.owesLaunch = true) :
    g.owesLaunch = true ∨ v.launchAtStartup = n.autoStart := by
  cases f with
  | launch c => cases h; exact .inr (congrArg AppConfig.autoStart hf.1)
  | _ => cases ho
end

theorem Effect.rewritable {n : AppConfig} {w v : World} (e : Effect n w v)
    (hr : ∀ x ∈ w.nginxConf, Rewritable n x) : ∀ x ∈ v.nginxConf, Rewritable n x := by
  cases e with
  | wroteNginx x hx _ _ =>
    intro y hy
    rw [← Option.some.inj hy]
    exact hx.rewritable
  | _ => exact hr

theorem stable (n : AppConfig) :
    Code.Stable code (fun w => ∀ x ∈ w.nginxConf, Rewritable n x) fun w f => f.Fits n w where
  own _ _ _ _ hr hf h := ⟨(fits_effect hf h).rewritable hr, fits_own hr hf h⟩
  other _ _ _ _ _ hr hf hk h := (fits_effect hf h).fits hr hk

theorem converging_advance {n : AppConfig} {s u : State} {i : ℕ} (inv : Converging n s)
    (h : step s (.advance i) = some u) : Converging n u := by
  have effect : ∀ f g v, f ∈ s.calls → code.advance s.shared f = some (v, g) →
      Effect n s.shared v := fun f g v hf ha => fits_effect (inv.fits f hf) ha
  have fits := (stable n).advance ⟨inv.rewritable, inv.fits⟩ h
  exact {
    rewritable := fits.1
    fits := fits.2
    config := inv.config.advance (fun f g v hf ha hr => Or.inl ((effect f g v hf ha).keeps.1 hr))
      (fun f g v hf ha => pays_config (inv.fits f hf) ha) h
    configJson := inv.configJson.advance
      (fun f g v hf ha hr => Or.inl ((effect f g v hf ha).keeps.2.1 hr))
      (fun f g v hf ha => pays_json (inv.fits f hf) ha) h
    nginxConf := inv.nginxConf.advance
      (fun f g v hf ha hr => Or.inl ((effect f g v hf ha).keeps.2.2.1 hr))
      (fun f g v hf ha => pays_nginx (inv.fits f hf) ha) h
    launchAtStartup := inv.launchAtStartup.advance
      (fun f g v hf ha hr => Or.inl ((effect f g v hf ha).keeps.2.2.2 hr))
      (fun f g v hf ha => pays_launch (inv.fits f hf) ha) h }

theorem save_cases_next (w : World) (c : AppConfig) :
    (w.config.autoStart ≠ c.autoStart ∧ nextConfig w c = w.config ∧ save w c = (w, .launch c)) ∨
      (w.config.autoStart = c.autoStart ∧ nextConfig w c = c ∧ save w c = assign w c) := by
  rcases save_cases w c with ⟨ha, hs⟩ | ⟨ha, hs⟩
  · exact Or.inl ⟨ha, by simp [nextConfig, ha], hs⟩
  · exact Or.inr ⟨ha, by simp [nextConfig, ha], hs⟩

theorem fits_save {n c : AppConfig} {w : World} {f : Frame} (hf : f.Fits n w)
    (hc : f.Agrees c (nextConfig w c) w) : f.Fits c (save w c).1 := by
  rcases save_cases_next w c with ⟨_, hnext, hs⟩ | ⟨_, hnext, hs⟩
  · rw [hnext] at hc
    rw [hs]
    exact ⟨hc, hf.2⟩
  · rw [hnext] at hc
    rw [hs]
    have hh := hf.2
    cases f with
    | writeJson content => exact ⟨hc, hc⟩
    | writeNginx x => exact ⟨hc, hh.1, rewrite_eq_of_shows hh.2 hc⟩
    | testedNginx found => cases found <;> exact ⟨hc, hh⟩
    | _ => exact ⟨hc, hh⟩

theorem agrees_unique {n c config config' : AppConfig} {w : World} {f : Frame}
    (hf : f.assigned = false) (hn : f.Agrees n config w) (hc : f.Agrees c config' w) : n = c := by
  cases f with
  | launch d | launched d => exact hn.symm.trans hc
  | testJson | testedJson | readJson | gotJson => exact Option.some.inj (hn.symm.trans hc)
  | _ => cases hf

theorem converging_start {n c : AppConfig} {s u : State} (inv : Converging n s)
    (ok : Undisturbed s (.start c)) (h : step s (.start c) = some u) : Converging c u := by
  have hu : u = ⟨(save s.shared c).1, s.calls ++ [(save s.shared c).2]⟩ :=
    (Option.some.inj h).symm
  have old : ∀ f ∈ s.calls, f.Fits c (save s.shared c).1 :=
    fun f hf => fits_save (inv.fits f hf) (ok.2 f hf)
  rcases save_cases_next s.shared c with ⟨_, _, hs⟩ | ⟨ha, _, hs⟩
  · rw [hs] at hu old
    subst hu
    have new : .launch c ∈ s.calls ++ [.launch c] := by simp
    exact {
      rewritable := ok.1
      fits := forall_snoc old ⟨rfl, trivial⟩
      config := Or.inr ⟨_, new, rfl⟩
      configJson := Or.inr ⟨_, new, rfl⟩
      nginxConf := Or.inr ⟨_, new, rfl⟩
      launchAtStartup := Or.inr ⟨_, new, rfl⟩ }
  · rw [hs] at hu old
    subst hu
    have new : .create ∈ s.calls ++ [.create] := by simp
    -- the startup entry is not touched: it was right, or some call is to set it
    have entry : Code.Owed (fun w => w.launchAtStartup = c.autoStart)
        (fun f => f.owesLaunch = true) ⟨(assign s.shared c).1, s.calls ++ [.create]⟩ := by
      rcases inv.launchAtStartup with hl | ⟨f, hf, ho⟩
      · refine Or.inl ?_
        change s.shared.launchAtStartup = c.autoStart
        rcases inv.config with hn | ⟨f, hf, ho⟩
        · rw [hl, ← hn, ha]
        · rw [hl, agrees_unique ho (inv.fits f hf).1 (ok.2 f hf)]
      · exact Or.inr ⟨f, by simp [hf], ho⟩
    exact {
      rewritable := ok.1
      fits := forall_snoc old ⟨rfl, trivial⟩
      config := Or.inl rfl
      configJson := Or.inr ⟨_, new, rfl⟩
      nginxConf := Or.inr ⟨_, new, rfl⟩
      launchAtStartup := entry }

structure Disk.Reflects (d : Disk) (c : AppConfig) : Prop where
  configJson : d.configJson.bind AppConfig.decode = some c
  nginxConf : ∀ x ∈ d.nginxConf, Shows c x
  launchAtStartup : d.launchAtStartup = c.autoStart

theorem converging_create {d : Disk} {c : AppConfig} (h : d.Reflects c) :
    Converging c (create d) where
  rewritable x hx := (h.nginxConf x hx).rewritable
  fits f hf := by
    rw [List.mem_singleton.mp hf]
    exact ⟨h.configJson, trivial⟩
  config := Or.inr ⟨.testJson, by simp [create], rfl⟩
  configJson := Or.inl h.configJson
  nginxConf := Or.inl h.nginxConf
  launchAtStartup := Or.inl h.launchAtStartup

theorem converging_run {d : Disk} {c : AppConfig} {s : State} {as : List (Move AppConfig)}
    (hd : d.Reflects c) (h : Runs step Undisturbed (create d) as s) : ∃ n, Converging n s := by
  apply h.invariant (fun s => ∃ n, Converging n s) ⟨c, converging_create hd⟩
  rintro s a u ⟨n, inv⟩ ok hs
  cases a with
  | start c => exact ⟨c, converging_start inv ok hs⟩
  | advance i => exact ⟨n, converging_advance inv hs⟩

end Luhut.ConfigManager
