import Luhut.InterleavedCalls
import Luhut.NginxPorts

set_option autoImplicit false

/-! `saveConfig` and `loadConfig` transcribe the two methods for a call that runs
without interruption and whose operations may fail. `code` cuts the same
methods at their awaits, for calls that overlap. `finishes_save` and
`finishes_load` connect the two. -/
namespace Luhut.ConfigManager
open DartInt NginxConf InterleavedCalls LabelledRuns

/-- What outlives the application: its two files and the OS startup entry. -/
structure Disk where
  configJson : Option JsonText
  nginxConf : Option Text
  launchAtStartup : Bool
deriving DecidableEq, Repr

structure World extends Disk where
  config : AppConfig
deriving DecidableEq, Repr

inductive Operation where
  | enable | disable
  | createJson | writeJson
  | testNginx | readNginx | writeNginx
  | testJson | readJson | decodeJson
deriving DecidableEq, Repr

structure Reflects (w : World) (c : AppConfig) : Prop where
  config : w.config = c
  configJson : w.configJson.bind AppConfig.decode = some c
  nginxConf : ∀ x ∈ w.nginxConf, Shows c x
  launchAtStartup : w.launchAtStartup = c.autoStart

abbrev Dart := ExceptT Operation (StateM World)

/-- `try { body } catch (e) { print(..); }` -/
def tryPrint (body : Dart Unit) : Dart Unit :=
  ExceptT.mk do
    let _ ← body.run
    return .ok ()

section
variable (fails : Operation → Bool)

/-- A failed operation leaves its target untouched. -/
def attempt (op : Operation) : Dart Unit := if fails op then throw op else pure ()

def launchEnable : Dart Unit := do
  attempt fails .enable
  modify fun w => { w with launchAtStartup := true }

def launchDisable : Dart Unit := do
  attempt fails .disable
  modify fun w => { w with launchAtStartup := false }

/-- `file.create(recursive: true)`; a new file is empty. -/
def createJson : Dart Unit := do
  attempt fails .createJson
  modify fun w => { w with configJson := some (w.configJson.getD .malformed) }

def writeJson (content : JsonText) : Dart Unit := do
  attempt fails .writeJson
  modify fun w => { w with configJson := some content }

def existsJson : Dart Bool := do
  attempt fails .testJson
  return (← get).configJson.isSome

def readJson : Dart JsonText := do
  attempt fails .readJson
  match (← get).configJson with
  | some content => return content
  | none => throw .readJson

def existsNginx : Dart Bool := do
  attempt fails .testNginx
  return (← get).nginxConf.isSome

def readNginx : Dart Text := do
  attempt fails .readNginx
  match (← get).nginxConf with
  | some content => return content
  | none => throw .readNginx

def writeNginx (content : Text) : Dart Unit := do
  attempt fails .writeNginx
  modify fun w => { w with nginxConf := some content }

def updateNginxConfig : Dart Unit := do
  if ← existsNginx fails then
    let content ← readNginx fails
    writeNginx fails (rewrite (← get).config content)

def switchLaunch (newConfig : AppConfig) : Dart Unit := do
  if (← get).config.autoStart != newConfig.autoStart then
    if newConfig.autoStart then launchEnable fails else launchDisable fails

def persist : Dart Unit := do
  createJson fails
  writeJson fails (← get).config.encode
  updateNginxConfig fails

def saveConfig (newConfig : AppConfig) : Dart Unit := do
  switchLaunch fails newConfig
  modify fun w => { w with config := newConfig }
  tryPrint (persist fails)

def loadConfig : Dart Unit :=
  tryPrint do
    if ← existsJson fails then
      match AppConfig.decode (← readJson fails) with
      | some c => modify fun w => { w with config := c }
      | none => throw .decodeJson
    else
      saveConfig fails (← get).config
end

def neverFails : Operation → Bool := fun _ => false

def exec {α : Type} (m : Dart α) (w : World) : Except Operation α × World := m.run.run w

section
variable {α β : Type} (fails : Operation → Bool) (w : World)

@[simp] theorem exec_pure (a : α) : exec (pure a) w = (.ok a, w) := rfl

@[simp] theorem exec_get : exec get w = (.ok w, w) := rfl

@[simp] theorem exec_modify (f : World → World) : exec (modify f) w = (.ok (), f w) := rfl

@[simp] theorem exec_throw (op : Operation) : exec (throw op : Dart α) w = (.error op, w) := rfl

theorem exec_bind (m : Dart α) (k : α → Dart β) :
    exec (m >>= k) w =
      match exec m w with
      | (.ok a, v) => exec (k a) v
      | (.error op, v) => (.error op, v) := by
  unfold exec
  simp only [ExceptT.run_bind, StateT.run_bind]
  generalize StateT.run (ExceptT.run m) w = r
  rcases r with ⟨_ | a, v⟩ <;> rfl

@[simp] theorem exec_tryPrint (m : Dart Unit) : exec (tryPrint m) w = (.ok (), (exec m w).2) :=
  rfl

@[simp] theorem exec_ite (c : Prop) [Decidable c] (m n : Dart α) :
    exec (if c then m else n) w = if c then exec m w else exec n w := by
  split <;> rfl

@[simp] theorem exec_attempt (op : Operation) :
    exec (attempt fails op) w = if fails op then (.error op, w) else (.ok (), w) := by
  simp [attempt]

def persisted : World :=
  if fails .createJson then w
  else if fails .writeJson then { w with configJson := some (w.configJson.getD .malformed) }
  else
    { w with
      configJson := some w.config.encode
      nginxConf :=
        if fails .testNginx || fails .readNginx || fails .writeNginx then w.nginxConf
        else w.nginxConf.map (rewrite w.config) }

def switch (c : AppConfig) : Operation := if c.autoStart then .enable else .disable

theorem exec_switchLaunch (c : AppConfig) :
    exec (switchLaunch fails c) w =
      if w.config.autoStart != c.autoStart then
        if fails (switch c) then (.error (switch c), w)
        else (.ok (), { w with launchAtStartup := c.autoStart })
      else (.ok (), w) := by
  cases ha : w.config.autoStart <;> cases hc : c.autoStart
  · simp [switchLaunch, exec_bind, ha, hc]
  · cases he : fails .enable <;>
      simp [switchLaunch, switch, launchEnable, exec_bind, ha, hc, he]
  · cases hd : fails .disable <;>
      simp [switchLaunch, switch, launchDisable, exec_bind, ha, hc, hd]
  · simp [switchLaunch, exec_bind, ha, hc]

theorem exec_persist : (exec (persist fails) w).2 = persisted fails w := by
  cases hc : fails .createJson with
  | true => simp [persist, createJson, exec_bind, persisted, hc]
  | false =>
    cases hw : fails .writeJson with
    | true => simp [persist, createJson, writeJson, exec_bind, persisted, hc, hw]
    | false =>
      cases hn : w.nginxConf with
      | none =>
        cases ht : fails .testNginx <;>
          simp [persist, createJson, writeJson, updateNginxConfig, existsNginx, exec_bind,
            persisted, hc, hw, ht, hn]
      | some x =>
        cases ht : fails .testNginx <;> cases hr : fails .readNginx <;>
          cases hx : fails .writeNginx <;>
          simp [persist, createJson, writeJson, updateNginxConfig, existsNginx, readNginx,
            writeNginx, exec_bind, persisted, hc, hw, ht, hr, hx, hn]

theorem exec_saveConfig (c : AppConfig) :
    exec (saveConfig fails c) w =
      if w.config.autoStart != c.autoStart then
        if fails (switch c) then (.error (switch c), w)
        else (.ok (), persisted fails { w with launchAtStartup := c.autoStart, config := c })
      else (.ok (), persisted fails { w with config := c }) := by
  by_cases ha : (w.config.autoStart != c.autoStart) = true
  · by_cases hs : fails (switch c) = true
    · simp only [saveConfig, exec_bind, exec_switchLaunch, ha, hs, if_true]
    · simp only [saveConfig, exec_bind, exec_switchLaunch, ha, hs, if_true, if_false, exec_modify,
        exec_tryPrint, exec_persist, Bool.false_eq_true]
  · simp only [saveConfig, exec_bind, exec_switchLaunch, ha, exec_modify, exec_tryPrint,
      exec_persist, Bool.false_eq_true, if_false]
end

/-- Where a call is suspended: `create` while the operation runs, `created` once
    it has completed and the call has not been resumed. -/
inductive Frame where
  | launch (newConfig : AppConfig) | launched (newConfig : AppConfig)
  | create | created
  | writeJson (content : JsonText) | wroteJson
  | testNginx | testedNginx (found : Bool)
  | readNginx | gotNginx (content : Text)
  | writeNginx (content : Text) | wroteNginx
  | testJson | testedJson (found : Bool)
  | readJson | gotJson (content : JsonText)
  | returned
deriving DecidableEq, Repr

def assign (w : World) (newConfig : AppConfig) : World × Frame :=
  ({ w with config := newConfig }, .create)

def save (w : World) (newConfig : AppConfig) : World × Frame :=
  if w.config.autoStart != newConfig.autoStart then (w, .launch newConfig)
  else assign w newConfig

def advance (w : World) : Frame → Option (World × Frame)
  | .launch c => some ({ w with launchAtStartup := c.autoStart }, .launched c)
  | .launched c => some (assign w c)
  | .create => some ({ w with configJson := some (w.configJson.getD .malformed) }, .created)
  | .created => some (w, .writeJson w.config.encode)
  | .writeJson content => some ({ w with configJson := some content }, .wroteJson)
  | .wroteJson => some (w, .testNginx)
  | .testNginx => some (w, .testedNginx w.nginxConf.isSome)
  | .testedNginx true => some (w, .readNginx)
  | .testedNginx false => some (w, .returned)
  | .readNginx =>
    match w.nginxConf with
    | some content => some (w, .gotNginx content)
    | none => some (w, .returned)
  | .gotNginx content => some (w, .writeNginx (rewrite w.config content))
  | .writeNginx content => some ({ w with nginxConf := some content }, .wroteNginx)
  | .wroteNginx => some (w, .returned)
  | .testJson => some (w, .testedJson w.configJson.isSome)
  | .testedJson true => some (w, .readJson)
  | .testedJson false => some (save w w.config)
  | .readJson =>
    match w.configJson with
    | some content => some (w, .gotJson content)
    | none => some (w, .returned)
  | .gotJson content =>
    match AppConfig.decode content with
    | some c => some ({ w with config := c }, .returned)
    | none => some (w, .returned)
  | .returned => none

def code : Code World AppConfig Frame := ⟨save, advance⟩

abbrev State := Pool World Frame

def step : State → Move AppConfig → Option State := code.step

/-- The constructor: `_config` is the default and `_loadConfig` is suspended at
    its first await. -/
def create (d : Disk) : State := ⟨{ d with config := {} }, [.testJson]⟩

def Frame.rank : Frame → ℕ
  | .testJson => 15 | .testedJson _ => 14 | .readJson => 2 | .gotJson _ => 1
  | .launch _ => 13 | .launched _ => 12
  | .create => 11 | .created => 10 | .writeJson _ => 9 | .wroteJson => 8
  | .testNginx => 7 | .testedNginx _ => 6 | .readNginx => 5 | .gotNginx _ => 4
  | .writeNginx _ => 3 | .wroteNginx => 2
  | .returned => 0

def Quiescent (s : State) : Prop := ∀ f ∈ s.calls, f = .returned

instance (s : State) : Decidable (Quiescent s) :=
  inferInstanceAs (Decidable (∀ f ∈ s.calls, f = .returned))

theorem save_cases (w : World) (c : AppConfig) :
    (w.config.autoStart ≠ c.autoStart ∧ save w c = (w, .launch c)) ∨
      (w.config.autoStart = c.autoStart ∧ save w c = assign w c) := by
  by_cases h : w.config.autoStart = c.autoStart
  · exact Or.inr ⟨h, by simp [save, h]⟩
  · exact Or.inl ⟨h, by simp [save, h]⟩

theorem rank_eq_zero {f : Frame} : f.rank = 0 ↔ f = .returned := by
  cases f <;> simp [Frame.rank]

theorem terminates : Code.Terminates code Frame.rank where
  decreases := by
    intro w f v g h
    change advance w f = some (v, g) at h
    cases f with
    | testedNginx found => cases found <;> cases h <;> decide
    | testedJson found =>
      cases found with
      | true => cases h; decide
      | false =>
        have hs : save w w.config = assign w w.config := by simp [save]
        have hg : assign w w.config = (v, g) := by
          rw [← hs]
          exact Option.some.inj h
        cases hg
        decide
    | readNginx =>
      simp only [advance] at h
      split at h <;> cases h <;> simp [Frame.rank]
    | readJson =>
      simp only [advance] at h
      split at h <;> cases h <;> simp [Frame.rank]
    | gotJson content =>
      simp only [advance] at h
      split at h <;> cases h <;> simp [Frame.rank]
    | returned => cases h
    | _ => cases h; simp [Frame.rank]
  halts := by
    intro w f h
    change advance w f = none at h
    rw [rank_eq_zero]
    cases f with
    | testedNginx found => cases found <;> cases h
    | testedJson found => cases found <;> cases h
    | readNginx =>
      simp only [advance] at h
      split at h <;> cases h
    | readJson =>
      simp only [advance] at h
      split at h <;> cases h
    | gotJson content =>
      simp only [advance] at h
      split at h <;> cases h
    | returned => rfl
    | _ => cases h

theorem quiescent_iff {s : State} : Quiescent s ↔ Code.Quiescent Frame.rank s := by
  simp [Quiescent, Code.Quiescent, rank_eq_zero]

def Frame.assigned : Frame → Bool
  | .launch _ | .launched _ | .testJson | .testedJson _ | .readJson | .gotJson _ => false
  | _ => true

theorem advance_assigned {w v : World} {f g : Frame} (h : advance w f = some (v, g))
    (hf : f.assigned = true) : g.assigned = true ∧ v.config = w.config := by
  cases f with
  | launch | launched | testJson | testedJson | readJson | gotJson => cases hf
  | testedNginx found => cases found <;> cases h <;> exact ⟨rfl, rfl⟩
  | readNginx =>
    simp only [advance] at h
    split at h <;> cases h <;> exact ⟨rfl, rfl⟩
  | returned => cases h
  | _ => cases h; exact ⟨rfl, rfl⟩

theorem launch_alone {w v : World} {c : AppConfig} {g : Frame}
    (h : Code.Alone code w (.launch c) v g) (hg : g.rank = 0) : v.config = c := by
  have inv : g = .launch c ∨ g = .launched c ∨ (g.assigned = true ∧ v.config = c) := by
    refine h.invariant (fun w f => f = .launch c ∨ f = .launched c ∨
      (f.assigned = true ∧ w.config = c)) (Or.inl rfl) ?_
    intro w f v g hf ha
    rcases hf with rfl | rfl | ⟨hf, hc⟩
    · cases ha
      exact Or.inr (Or.inl rfl)
    · cases ha
      exact Or.inr (Or.inr ⟨rfl, rfl⟩)
    · have keep := advance_assigned ha hf
      exact Or.inr (Or.inr ⟨keep.1, keep.2.trans hc⟩)
  rcases inv with rfl | rfl | ⟨_, hc⟩
  · cases hg
  · cases hg
  · exact hc

def saved (w : World) (c : AppConfig) : World where
  config := c
  configJson := some c.encode
  nginxConf := w.nginxConf.map (rewrite c)
  launchAtStartup := if w.config.autoStart = c.autoStart then w.launchAtStartup else c.autoStart

theorem exec_saveConfig_never (w : World) (c : AppConfig) :
    exec (saveConfig neverFails c) w = (.ok (), saved w c) := by
  rw [exec_saveConfig]
  by_cases h : w.config.autoStart = c.autoStart
  · simp [h, saved, persisted, neverFails]
  · simp [h, saved, persisted, neverFails]

theorem finishes_create (w : World) :
    Code.Alone code w .create
      { w with
        configJson := some w.config.encode
        nginxConf := w.nginxConf.map (rewrite w.config) } .returned := by
  rcases w with ⟨⟨json, nginx, launch⟩, config⟩
  cases nginx with
  | none =>
    exact .next rfl (.next rfl (.next rfl (.next rfl (.next rfl (.next rfl (.refl _ _))))))
  | some x =>
    exact .next rfl (.next rfl (.next rfl (.next rfl (.next rfl (.next rfl (.next rfl
      (.next rfl (.next rfl (.next rfl (.refl _ _))))))))))

/-- Alone, the calls of the machine compute `saveConfig`. -/
theorem finishes_save (w : World) (c : AppConfig) :
    Code.Alone code (save w c).1 (save w c).2 (exec (saveConfig neverFails c) w).2 .returned := by
  rw [exec_saveConfig_never]
  have tail := fun v : World => finishes_create { v with config := c }
  rcases save_cases w c with ⟨h, hs⟩ | ⟨h, hs⟩
  · rw [hs]
    have hsaved : saved w c = { w with
        launchAtStartup := c.autoStart
        config := c
        configJson := some c.encode
        nginxConf := w.nginxConf.map (rewrite c) } := by simp [saved, h]
    rw [hsaved]
    exact .next rfl (.next rfl (tail { w with launchAtStartup := c.autoStart }))
  · rw [hs]
    have hsaved : saved w c = { w with
        config := c
        configJson := some c.encode
        nginxConf := w.nginxConf.map (rewrite c) } := by simp [saved, h]
    rw [hsaved]
    exact tail w

theorem finishes_load (w : World) :
    Code.Alone code w .testJson (exec (loadConfig neverFails) w).2 .returned := by
  cases hj : w.configJson with
  | none =>
    have first : code.advance w .testJson = some (w, .testedJson false) := by
      simp [code, advance, hj]
    have hload : (exec (loadConfig neverFails) w).2 =
        (exec (saveConfig neverFails w.config) w).2 := by
      simp [loadConfig, existsJson, exec_bind, neverFails, hj]
    rw [hload]
    exact .next first (.next rfl (finishes_save w w.config))
  | some content =>
    have first : code.advance w .testJson = some (w, .testedJson true) := by
      simp [code, advance, hj]
    have third : code.advance w .readJson = some (w, .gotJson content) := by
      simp [code, advance, hj]
    refine .next first (.next rfl (.next third ?_))
    cases hd : AppConfig.decode content with
    | none =>
      have hload : (exec (loadConfig neverFails) w).2 = w := by
        simp [loadConfig, existsJson, readJson, exec_bind, neverFails, hj, hd]
      rw [hload]
      exact .next (by simp [code, advance, hd]) (.refl _ _)
    | some c =>
      have hload : (exec (loadConfig neverFails) w).2 = { w with config := c } := by
        simp [loadConfig, existsJson, readJson, exec_bind, neverFails, hj, hd]
      rw [hload]
      exact .next (by simp [code, advance, hd]) (.refl _ _)

end Luhut.ConfigManager
