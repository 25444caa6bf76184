import Luhut.ConfigManager
import Luhut.ConfigText
import Luhut.Sessions

set_option autoImplicit false

/-! A call of `saveConfig` from the assignment of `_config` on, and the call of
`_loadConfig`, as far as they touch config.json. `writeAsString` opens the file,
which empties it, and then writes at its start, so the writes of overlapping
calls land on each other. The application can end at any moment; the next
session starts with the file as it is. -/
namespace Luhut.ConfigFile
open DartInt InterleavedCalls LabelledRuns

structure World where
  config : AppConfig
  file : Option Text
deriving DecidableEq, Repr

/-- `create`, `truncate`, `write`, `test` and `read` are operations that run;
    `created`, `tested` and `got` are calls not resumed after one. -/
inductive Frame where
  | create | created
  | truncate (content : Text) | write (content : Text)
  | test | tested (found : Bool)
  | read | got (content : Text)
  | returned
deriving DecidableEq, Repr

def save (w : World) (newConfig : AppConfig) : World × Frame :=
  ({ w with config := newConfig }, .create)

def advance (w : World) : Frame → Option (World × Frame)
  | .create => some ({ w with file := some (w.file.getD []) }, .created)
  | .created => some (w, .truncate w.config.jsonEncode)
  | .truncate content => some ({ w with file := some [] }, .write content)
  | .write content => some ({ w with file := some (overlay content (w.file.getD [])) }, .returned)
  | .test => some (w, .tested w.file.isSome)
  | .tested true => some (w, .read)
  | .tested false => some (save w w.config)
  | .read =>
    match w.file with
    | some content => some (w, .got content)
    | none => some (w, .returned)
  | .got content =>
    match AppConfig.load content with
    | some c => some ({ w with config := c }, .returned)
    | none => some (w, .returned)
  | .returned => none

def code : Code World AppConfig Frame := ⟨save, advance⟩

abbrev State := Pool World Frame

def launch (file : Option Text) : State := ⟨⟨{}, file⟩, [.test]⟩

def Frame.writing : Frame → Option Text
  | .write content => some content
  | _ => none

def program : Program World AppConfig Frame Char := ⟨code, launch, World.file, Frame.writing⟩

abbrev Event := InterleavedCalls.Event AppConfig

def step : State → Event → Option State := program.step

/-- A write is torn only when no other call has written since the file was emptied. -/
def TornAlone (s : State) : Event → Prop
  | .tear _ _ => s.shared.file = some []
  | _ => True

theorem writing_eq {f : Frame} {content : Text} (h : f.writing = some content) :
    f = .write content := by
  cases f <;> cases h
  rfl

structure View (v : World) (w : ConfigManager.World) : Prop where
  config : w.config = v.config
  configJson : w.configJson = v.file.map AppConfig.jsonDecode

theorem finishes_create (v : World) :
    Code.Alone code v .create { v with file := some v.config.jsonEncode } .returned := by
  have last : code.advance { v with file := some [] } (.write v.config.jsonEncode) =
      some ({ v with file := some v.config.jsonEncode }, .returned) := by
    simp [code, advance, overlay]
  exact .next rfl (.next rfl (.next rfl (.next last (.refl _ _))))

theorem finishes_save {v : World} {w : ConfigManager.World} {c : AppConfig} (hc : c.Ranged) :
    ∃ u, Code.Alone code (save v c).1 (save v c).2 u .returned ∧
      View u (ConfigManager.exec (ConfigManager.saveConfig ConfigManager.neverFails c) w).2 := by
  refine ⟨⟨c, some c.jsonEncode⟩, finishes_create { v with config := c }, ?_⟩
  rw [ConfigManager.exec_saveConfig_never]
  refine ⟨rfl, ?_⟩
  rw [Option.map_some, AppConfig.jsonDecode_jsonEncode hc]
  rfl

theorem finishes_load {v : World} {w : ConfigManager.World} (hv : View v w)
    (hc : v.config.Ranged) :
    ∃ u, Code.Alone code v .test u .returned ∧
      View u (ConfigManager.exec (ConfigManager.loadConfig ConfigManager.neverFails) w).2 := by
  obtain ⟨config, file⟩ := v
  have hconfig : w.config = config := hv.config
  have hjson : w.configJson = file.map AppConfig.jsonDecode := hv.configJson
  cases file with
  | none =>
    obtain ⟨u, hu, hview⟩ := finishes_save (v := ⟨config, none⟩) (w := w) hc
    refine ⟨u, .next rfl (.next rfl hu), ?_⟩
    have hload : (ConfigManager.exec (ConfigManager.loadConfig ConfigManager.neverFails) w).2 =
        (ConfigManager.exec (ConfigManager.saveConfig ConfigManager.neverFails w.config) w).2 := by
      simp [ConfigManager.loadConfig, ConfigManager.existsJson, ConfigManager.exec_bind,
        ConfigManager.neverFails, hjson]
    rw [hload, hconfig]
    exact hview
  | some x =>
    have alone : ∀ u, code.advance ⟨config, some x⟩ (.got x) = some (u, .returned) →
        Code.Alone code ⟨config, some x⟩ .test u .returned :=
      fun u hu => .next rfl (.next rfl (.next rfl (.next hu (.refl _ _))))
    cases hd : AppConfig.load x with
    | none =>
      have hdecode : AppConfig.decode (AppConfig.jsonDecode x) = none := hd
      refine ⟨⟨config, some x⟩, alone _ (by simp [code, advance, hd]), ?_⟩
      refine ⟨?_, ?_⟩ <;>
        simp [ConfigManager.loadConfig, ConfigManager.existsJson, ConfigManager.readJson,
          ConfigManager.exec_bind, ConfigManager.neverFails, hjson, hdecode, hconfig]
    | some c =>
      have hdecode : AppConfig.decode (AppConfig.jsonDecode x) = some c := hd
      refine ⟨⟨c, some x⟩, alone _ (by simp [code, advance, hd]), ?_⟩
      refine ⟨?_, ?_⟩ <;>
        simp [ConfigManager.loadConfig, ConfigManager.existsJson, ConfigManager.readJson,
          ConfigManager.exec_bind, ConfigManager.neverFails, hjson, hdecode]

section
variable (K : AppConfig → Prop)

/-- Nothing, or all of a text with a rest of longer ones. -/
def Whole (x : Text) : Prop :=
  x = [] ∨ ∃ c tail, K c ∧ x = c.jsonEncode ++ tail ∧ (tail = [] ∨ ∃ t, tail = t ++ ['\x7d'])

def Readable (x : Text) : Prop := ∀ c, AppConfig.load x = some c → K c

def Frame.Fits : Frame → Prop
  | .truncate content | .write content => ∃ c, K c ∧ content = c.jsonEncode
  | .got content => Readable K content
  | _ => True

def Frame.writes : Frame → Prop
  | .write _ => True
  | _ => False

/-- A file that a call has opened is whole; until then it may be torn. -/
def Kept (s : State) : Prop :=
  (∃ x, s.shared.file = some x ∧ Whole K x) ∨
    ((∀ x ∈ s.shared.file, Readable K x) ∧ ∀ f ∈ s.calls, ¬ f.writes)

structure Sound (s : State) : Prop where
  config : K s.shared.config
  kept : Kept K s
  frames : ∀ f ∈ s.calls, f.Fits K

variable {K} (hK : ∀ c, K c → c.Ranged)

theorem whole_nil : Whole K [] := Or.inl rfl

theorem whole_last {x : Text} (h : Whole K x) : x = [] ∨ ∃ t, x = t ++ ['\x7d'] := by
  rcases h with rfl | ⟨c, tail, _, rfl, rfl | ⟨t, rfl⟩⟩
  · exact Or.inl rfl
  · rw [List.append_nil]
    exact Or.inr (DartJson.print_map_last _)
  · exact Or.inr ⟨c.jsonEncode ++ t, (List.append_assoc _ _ _).symm⟩

theorem drop_last {x : Text} (n : ℕ) (h : x = [] ∨ ∃ t, x = t ++ ['\x7d']) :
    x.drop n = [] ∨ ∃ t, x.drop n = t ++ ['\x7d'] := by
  rcases h with rfl | ⟨t, rfl⟩
  · exact Or.inl List.drop_nil
  · rw [List.drop_append]
    by_cases hn : n ≤ t.length
    · have hz : n - t.length = 0 := by omega
      rw [hz]
      exact Or.inr ⟨t.drop n, rfl⟩
    · left
      have hlong : 1 ≤ n - t.length := by omega
      rw [List.drop_of_length_le (by omega : t.length ≤ n)]
      exact List.drop_of_length_le hlong

theorem whole_overlay {c : AppConfig} {x : Text} (hc : K c) (hx : Whole K x) :
    Whole K (overlay c.jsonEncode x) :=
  Or.inr ⟨c, x.drop c.jsonEncode.length, hc, rfl, drop_last _ (whole_last hx)⟩

include hK in
theorem whole_readable {x : Text} (h : Whole K x) : Readable K x := by
  intro d hd
  rcases h with rfl | ⟨c, tail, hc, rfl, _⟩
  · cases hd
  · rw [AppConfig.load_append (hK c hc)] at hd
    split at hd
    · exact Option.some.inj hd ▸ hc
    · cases hd

include hK in
theorem torn_readable {c : AppConfig} (hc : K c) (n : ℕ) :
    Readable K (overlay (c.jsonEncode.take n) []) := by
  intro d hd
  have hover : overlay (c.jsonEncode.take n) [] = c.jsonEncode.take n := by simp [overlay]
  rw [hover] at hd
  have hpre : c.jsonEncode.take n <+: c.jsonEncode := List.take_prefix _ _
  exact ((AppConfig.load_comparable_iff (hK c hc) (Or.inl hpre)).mp hd).1 ▸ hc

include hK in
theorem kept_readable {s : State} (h : Kept K s) : ∀ x ∈ s.shared.file, Readable K x := by
  intro x hx
  rcases h with ⟨y, hy, hw⟩ | ⟨hr, _⟩
  · have he : y = x := Option.some.inj (hy.symm.trans hx)
    exact he ▸ whole_readable hK hw
  · exact hr x hx

theorem kept_same {s : State} {f : Frame} {calls : List Frame} {c : AppConfig}
    (h : Kept K s) (hf : ¬ f.writes) (hcalls : ∀ g ∈ calls, g = f ∨ g ∈ s.calls) :
    Kept K ⟨⟨c, s.shared.file⟩, calls⟩ := by
  rcases h with hw | ⟨hr, hnone⟩
  · exact Or.inl hw
  · refine Or.inr ⟨hr, fun g hg => ?_⟩
    rcases hcalls g hg with rfl | hg
    · exact hf
    · exact hnone g hg

theorem kept_launch {file : Option Text} (h : ∀ x ∈ file, Readable K x) : Kept K (launch file) :=
  Or.inr ⟨h, fun f hf => by
    rw [List.mem_singleton.mp hf]
    exact id⟩

theorem sound_launch {file : Option Text} (hdefault : K {}) (h : ∀ x ∈ file, Readable K x) :
    Sound K (launch file) where
  config := hdefault
  kept := kept_launch h
  frames := fun f hf => by
    rw [List.mem_singleton.mp hf]
    exact trivial

include hK in
/-- One step of a call: the file stays whole or untorn, the other calls unaffected. -/
theorem advance_spec {s : State} {f g : Frame} {v : World} {calls : List Frame} (hs : Sound K s)
    (hf : f ∈ s.calls) (h : advance s.shared f = some (v, g))
    (hcalls : ∀ k ∈ calls, k = g ∨ k ∈ s.calls) :
    K v.config ∧ Kept K ⟨v, calls⟩ ∧ g.Fits K := by
  have same := fun (c : AppConfig) (hg : ¬ g.writes) => kept_same (c := c) hs.kept hg hcalls
  have fit := hs.frames f hf
  cases f with
  | create =>
    cases h
    refine ⟨hs.config, ?_, trivial⟩
    cases hfile : s.shared.file with
    | none => exact Or.inl ⟨[], rfl, whole_nil⟩
    | some x =>
      have keep := same s.shared.config id
      rw [hfile] at keep
      exact keep
  | created =>
    cases h
    exact ⟨hs.config, same _ id, s.shared.config, hs.config, rfl⟩
  | truncate content =>
    cases h
    exact ⟨hs.config, Or.inl ⟨[], rfl, whole_nil⟩, fit⟩
  | write content =>
    cases h
    obtain ⟨c, hc, rfl⟩ := fit
    refine ⟨hs.config, ?_, trivial⟩
    rcases hs.kept with ⟨x, hx, hw⟩ | ⟨_, hnone⟩
    · refine Or.inl ⟨overlay c.jsonEncode x, ?_, whole_overlay hc hw⟩
      change some (overlay c.jsonEncode (s.shared.file.getD [])) = _
      rw [hx]
      rfl
    · exact absurd trivial (hnone _ hf)
  | test =>
    cases h
    exact ⟨hs.config, same _ id, trivial⟩
  | tested found =>
    cases found with
    | true =>
      cases h
      exact ⟨hs.config, same _ id, trivial⟩
    | false =>
      cases h
      exact ⟨hs.config, same _ id, trivial⟩
  | read =>
    simp only [advance] at h
    split at h
    · next x hx =>
      cases h
      exact ⟨hs.config, same _ id, kept_readable hK hs.kept x hx⟩
    · cases h
      exact ⟨hs.config, same _ id, trivial⟩
  | got content =>
    simp only [advance] at h
    split at h
    · next c hc =>
      cases h
      exact ⟨fit c hc, same c id, trivial⟩
    · cases h
      exact ⟨hs.config, same _ id, trivial⟩
  | returned => cases h

theorem sound_start {s : State} {c : AppConfig} (hs : Sound K s) (hc : K c) :
    Sound K ⟨{ s.shared with config := c }, s.calls ++ [.create]⟩ where
  config := hc
  kept := kept_same hs.kept (f := .create) id fun g hg => by
    rcases List.mem_append.mp hg with hg | hg
    · exact Or.inr hg
    · exact Or.inl (List.mem_singleton.mp hg)
  frames := fun g hg => by
    rcases List.mem_append.mp hg with hg | hg
    · exact hs.frames g hg
    · rw [List.mem_singleton.mp hg]
      exact trivial

include hK in
theorem step_sound {s u : State} {e : Event} (hs : Sound K s) (hdefault : K {})
    (ok : TornAlone s e) (hsave : ∀ c, e = .call (.start c) → K c) (h : step s e = some u) :
    Sound K u := by
  cases Program.step_spec h with
  | start c => exact sound_start hs (hsave c rfl)
  | @advance i f g w hf ha =>
    obtain ⟨hc, hkept, hg⟩ := advance_spec hK hs (List.mem_of_getElem? hf) ha
      fun k hk => (List.mem_or_eq_of_mem_set hk).symm
    refine ⟨hc, hkept, fun k hk => ?_⟩
    rcases List.mem_or_eq_of_mem_set hk with hk | rfl
    · exact hs.frames k hk
    · exact hg
  | exit => exact sound_launch hdefault (kept_readable hK hs.kept)
  | @tear i n f content hf hw =>
    obtain rfl := writing_eq hw
    obtain ⟨c, hc, rfl⟩ := hs.frames _ (List.mem_of_getElem? hf)
    refine sound_launch hdefault fun x hx => ?_
    obtain rfl := Option.some.inj hx
    change s.shared.file = some [] at ok
    change Readable K (overlay (c.jsonEncode.take n) (s.shared.file.getD []))
    rw [ok]
    exact torn_readable hK hc n
end

/-- The configurations a run may come across: the default, what the file held at
    the start, and what was saved. -/
def Known (file : Option Text) (es : List Event) (c : AppConfig) : Prop :=
  c = {} ∨ (∃ x ∈ file, AppConfig.load x = some c) ∨ Event.call (.start c) ∈ es

/-- Overlapping saves and loads, ends of the application and torn writes never make
    a configuration of parts: memory holds, and config.json loads, only whole ones. -/
theorem only_known_configurations (file : Option Text) (es : List Event) (s : State)
    (hsaves : ∀ c, Event.call (.start c) ∈ es → c.Ranged)
    (run : Runs step TornAlone (launch file) es s) :
    Known file es s.shared.config ∧
      ∀ x ∈ s.shared.file, ∀ c, AppConfig.load x = some c → Known file es c := by
  have ranged : ∀ c, Known file es c → c.Ranged := by
    rintro c (rfl | ⟨x, _, hx⟩ | hc)
    · exact AppConfig.default_ranged
    · exact AppConfig.load_ranged hx
    · exact hsaves c hc
  have initial : Sound (Known file es) (launch file) :=
    sound_launch (Or.inl rfl) fun x hx c hc => Or.inr (Or.inl ⟨x, hx, hc⟩)
  have final := run.labels.invariant (Sound (Known file es)) initial
    fun s e u hs ok h => step_sound ranged hs (Or.inl rfl) ok.1
      (fun c he => Or.inr (Or.inr (by rw [← he]; exact ok.2))) h
  exact ⟨final.config, kept_readable ranged final.kept⟩

theorem only_known_configurations_torn :
    ∃ s : State, Known none [.call (.start { phpPort := 9001 }), .call (.start { phpPort := 9002 }),
        .call (.advance 2), .call (.advance 2), .call (.advance 2), .tear 2 40] s.shared.config ∧
      ∀ x ∈ s.shared.file, ∀ c, AppConfig.load x = some c →
        Known none [.call (.start { phpPort := 9001 }), .call (.start { phpPort := 9002 }),
          .call (.advance 2), .call (.advance 2), .call (.advance 2), .tear 2 40] c := by
  let es : List Event := [.call (.start { phpPort := 9001 }), .call (.start { phpPort := 9002 }),
    .call (.advance 2), .call (.advance 2), .call (.advance 2), .tear 2 40]
  have two : ∀ c, Event.call (.start c) ∈ es → c.Ranged := by
    intro c hc
    simp only [es, List.mem_cons, Event.call.injEq, Move.start.injEq, reduceCtorEq,
      List.not_mem_nil, or_false] at hc
    rcases hc with rfl | rfl <;> decide
  exact ⟨_, only_known_configurations none _ _ two
    (.next trivial rfl (.next trivial rfl (.next trivial rfl (.next trivial rfl
      (.next trivial rfl (.next rfl rfl (.refl _)))))))⟩

/-- Until call `i` is done no other call opens or writes the file, and the
    application does not end. -/
def Lone (i : ℕ) (s : State) : Event → Prop
  | .call (.start _) => True
  | .call (.advance j) => j = i ∨ ∀ content, s.calls[j]? ≠ some (.truncate content) ∧
      s.calls[j]? ≠ some (.write content)
  | .exit | .tear _ _ => False

def Writing (i : ℕ) (content : Text) (s : State) : Prop :=
  (s.calls[i]? = some (.write content) ∧ s.shared.file = some []) ∨
    (s.calls[i]? = some .returned ∧ s.shared.file = some content)

theorem advance_file {w v : World} {f g : Frame} {x : Text} (h : advance w f = some (v, g))
    (hx : w.file = some x)
    (hf : ∀ content, f ≠ .truncate content ∧ f ≠ .write content) : v.file = some x := by
  cases f with
  | create =>
    cases h
    change some (w.file.getD []) = some x
    rw [hx]
    rfl
  | truncate content => exact absurd rfl (hf content).1
  | write content => exact absurd rfl (hf content).2
  | tested found => cases found <;> cases h <;> exact hx
  | read =>
    simp only [advance] at h
    split at h <;> cases h <;> exact hx
  | got content =>
    simp only [advance] at h
    split at h <;> cases h <;> exact hx
  | returned => cases h
  | _ => cases h; exact hx

theorem step_writing {s u : State} {e : Event} {i : ℕ} {content : Text}
    (hs : Writing i content s) (ok : Lone i s e) (h : step s e = some u) :
    Writing i content u := by
  have hlt : i < s.calls.length := by
    rcases hs with ⟨hi, _⟩ | ⟨hi, _⟩ <;> exact (List.getElem?_eq_some_iff.mp hi).1
  cases Program.step_spec h with
  | exit => exact ok.elim
  | tear _ _ => exact ok.elim
  | start c =>
    have keep : (s.calls ++ [Frame.create])[i]? = s.calls[i]? := List.getElem?_append_left hlt
    rcases hs with ⟨hi, hfile⟩ | ⟨hi, hfile⟩
    · exact Or.inl ⟨keep.trans hi, hfile⟩
    · exact Or.inr ⟨keep.trans hi, hfile⟩
  | @advance j f g v hf ha =>
    change advance s.shared f = some (v, g) at ha
    by_cases hj : j = i
    · subst hj
      rcases hs with ⟨hi, hfile⟩ | ⟨hi, _⟩
      · obtain rfl := Option.some.inj (hf.symm.trans hi)
        cases ha
        refine Or.inr ⟨List.getElem?_set_self hlt, ?_⟩
        change some (overlay content (s.shared.file.getD [])) = _
        rw [hfile]
        exact congrArg some (overlay_nil content)
      · obtain rfl := Option.some.inj (hf.symm.trans hi)
        cases ha
    · have quiet : ∀ content, f ≠ .truncate content ∧ f ≠ .write content := by
        intro x
        have hx := (ok.resolve_left hj) x
        rw [hf] at hx
        exact ⟨fun he => hx.1 (congrArg some he), fun he => hx.2 (congrArg some he)⟩
      have keep : (s.calls.set j g)[i]? = s.calls[i]? := List.getElem?_set_ne hj
      rcases hs with ⟨hi, hfile⟩ | ⟨hi, hfile⟩
      · exact Or.inl ⟨keep.trans hi, advance_file ha hfile quiet⟩
      · exact Or.inr ⟨keep.trans hi, advance_file ha hfile quiet⟩

theorem step_calls {s u : State} {e : Event} (hs : s.calls ≠ []) (h : step s e = some u) :
    u.calls ≠ [] := by
  cases Program.step_spec h with
  | start c => exact List.append_ne_nil_of_left_ne_nil hs _
  | advance hf ha => exact fun none => hs ((List.set_eq_nil_iff _ _).mp none)
  | exit => exact List.cons_ne_nil _ _
  | tear hf hw => exact List.cons_ne_nil _ _

def Unsaved (_ : State) (e : Event) : Prop := ∀ c, e ≠ .call (.start c)

def Frame.Loads (c : AppConfig) (w : World) : Frame → Prop
  | .test | .tested true | .read => True
  | .got content => content = c.jsonEncode
  | .returned => w.config = c
  | _ => False

section
variable {c : AppConfig}

theorem advance_loads (hc : c.Ranged) {w v : World} {f g : Frame}
    (hw : w.file = some c.jsonEncode) (hf : f.Loads c w) (h : advance w f = some (v, g)) :
    (v.file = some c.jsonEncode ∧ g.Loads c v) ∧ (w.config = c → v.config = c) := by
  cases f with
  | test =>
    cases h
    refine ⟨⟨hw, ?_⟩, id⟩
    rw [hw]
    trivial
  | tested found =>
    cases found with
    | true =>
      cases h
      exact ⟨⟨hw, trivial⟩, id⟩
    | false => exact hf.elim
  | read =>
    simp only [advance, hw] at h
    cases h
    exact ⟨⟨hw, rfl⟩, id⟩
  | got content =>
    obtain rfl : content = c.jsonEncode := hf
    simp only [advance, AppConfig.load_jsonEncode hc] at h
    cases h
    exact ⟨⟨hw, rfl⟩, fun _ => rfl⟩
  | returned => cases h
  | create | created | truncate | write => exact hf.elim

theorem loads_stable (hc : c.Ranged) : Code.Stable code
    (fun w => w.file = some c.jsonEncode) fun w f => f.Loads c w where
  own _ _ _ _ hw hf h := (advance_loads hc hw hf h).1
  other w f v g k hw hf hk h := by
    cases k with
    | returned => exact (advance_loads hc hw hf h).2 hk
    | tested found => cases found <;> exact hk
    | _ => exact hk

theorem loads_step (hc : c.Ranged) {s u : State} {e : Event}
    (hs : Code.Fits (fun w => w.file = some c.jsonEncode) (fun w f => f.Loads c w) s)
    (ok : Unsaved s e) (h : step s e = some u) :
    Code.Fits (fun w => w.file = some c.jsonEncode) (fun w f => f.Loads c w) u := by
  refine Program.fits_step (P := program) (loads_stable hc) hs h (fun a ha => absurd ha (ok a)) ?_
  intro file left
  cases left with
  | whole => exact ⟨hs.1, List.forall_mem_singleton.mpr trivial⟩
  | torn n hf hw =>
    have held := hs.2 _ hf
    rw [writing_eq hw] at held
    exact held.elim
end

/-- The text of such a save stays until the next save, and every session until then loads
    it: whenever its load has returned, the configuration is the one saved. -/
theorem lone_save_survives (s u : State) (es : List Event) (i : ℕ) (c : AppConfig)
    (hc : c.Ranged) (hi : s.calls[i]? = some (.write c.jsonEncode))
    (hfile : s.shared.file = some []) (run : Runs step (Lone i) s es u)
    (done : u.calls[i]? = some .returned) :
    u.shared.file = some c.jsonEncode ∧
      (∀ bs v, Runs step Unsaved u (.exit :: bs) v → v.shared.file = some c.jsonEncode ∧
        ((∀ f ∈ v.calls, f = .returned) → v.shared.config = c)) ∧
      ∃ bs v, Runs step Unsaved u (.exit :: bs) v ∧ ∀ f ∈ v.calls, f = .returned := by
  have final := run.invariant (Writing i c.jsonEncode) (Or.inl ⟨hi, hfile⟩)
    fun _ _ _ hs ok h => step_writing hs ok h
  have hu : u.shared.file = some c.jsonEncode := by
    rcases final with ⟨hw, _⟩ | ⟨_, hfile⟩
    · rw [done] at hw
      cases hw
    · exact hfile
  have relaunch : step u .exit = some (launch (some c.jsonEncode)) := by
    change some (launch u.shared.file) = _
    rw [hu]
  refine ⟨hu, fun bs v later => ?_, ?_⟩
  · cases later with
    | next _ h tail =>
      cases relaunch.symm.trans h
      have fits := tail.invariant
        (fun v => v.calls ≠ [] ∧
          Code.Fits (fun w => w.file = some c.jsonEncode) (fun w f => f.Loads c w) v)
        ⟨List.cons_ne_nil _ _, rfl, List.forall_mem_singleton.mpr trivial⟩
        fun _ _ _ hs ok h => ⟨step_calls hs.1 h, loads_step hc hs.2 ok h⟩
      refine ⟨fits.2.1, fun returned => ?_⟩
      obtain ⟨f, fs, hf⟩ := List.exists_cons_of_ne_nil fits.1
      have mem : f ∈ v.calls := hf ▸ List.mem_cons_self
      have held := fits.2.2 f mem
      rw [returned f mem] at held
      exact held
  · have got : code.step ⟨⟨{}, some c.jsonEncode⟩, [.got c.jsonEncode]⟩ (.advance 0) =
        some ⟨⟨c, some c.jsonEncode⟩, [.returned]⟩ := by
      apply Code.step_advance (f := .got c.jsonEncode) rfl
      simp [code, advance, AppConfig.load_jsonEncode hc]
    have unsaved : ∀ (s : State) (e : Event), e = .exit ∨ e = .call (.advance 0) → Unsaved s e := by
      rintro s e (rfl | rfl) c hc <;> cases hc
    refine ⟨[.call (.advance 0), .call (.advance 0), .call (.advance 0), .call (.advance 0)],
      ⟨⟨c, some c.jsonEncode⟩, [.returned]⟩, ?_, List.forall_mem_singleton.mpr rfl⟩
    exact .next (unsaved _ _ (Or.inl rfl)) relaunch (.next (unsaved _ _ (Or.inr rfl)) rfl
      (.next (unsaved _ _ (Or.inr rfl)) rfl (.next (unsaved _ _ (Or.inr rfl)) rfl
        (.next (unsaved _ _ (Or.inr rfl)) got (.refl _)))))

/-- While the write of port 9001 runs, another save is issued and an earlier one goes on to
    open the file; the application ends before it does. -/
theorem lone_save_survives_9001 :
    let c : AppConfig := { phpPort := 9001 }
    ∃ u, Runs step (Lone 0)
        ⟨⟨{ phpPort := 9002 }, some []⟩, [.write c.jsonEncode, .created]⟩
        [.call (.start { nginxPort := 81 }), .call (.advance 1), .call (.advance 0)] u ∧
      u.shared.config = { nginxPort := 81 } ∧
      ∀ bs v, Runs step Unsaved u (.exit :: bs) v → (∀ f ∈ v.calls, f = .returned) →
        v.shared.config = { phpPort := 9001 } := by
  intro c
  let s : State := ⟨⟨{ phpPort := 9002 }, some []⟩, [.write c.jsonEncode, .created]⟩
  let d : AppConfig := { nginxPort := 81 }
  have run : Runs step (Lone 0) s
      [.call (.start d), .call (.advance 1), .call (.advance 0)]
      ⟨⟨d, some (overlay c.jsonEncode [])⟩, [.returned, .truncate d.jsonEncode, .create]⟩ := by
    refine .next trivial (u := ⟨⟨d, some []⟩, [.write c.jsonEncode, .created, .create]⟩) rfl ?_
    refine .next (Or.inr fun content => ⟨?_, ?_⟩) (u := ⟨⟨d, some []⟩,
      [.write c.jsonEncode, .truncate d.jsonEncode, .create]⟩) rfl (.single (Or.inl rfl) rfl)
    · intro h
      cases h
    · intro h
      cases h
  refine ⟨_, run, rfl, fun bs v later returned => ?_⟩
  exact ((lone_save_survives s _ _ 0 c (by decide) rfl rfl run rfl).2.1 bs v later).2 returned

end Luhut.ConfigFile
