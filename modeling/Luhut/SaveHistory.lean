import Luhut.SaveFaults
import Luhut.NginxSaves

set_option autoImplicit false

/-! The startup entry is switched only when the new value differs from the one in
memory, so an entry that has once come apart from memory is put right by a switch
and by nothing else. The two files are written by every save that gets to them. -/
namespace Luhut.ConfigManager
open DartInt TextPattern NginxConf

/-- A call of saveConfig, and the steps of it that fail. -/
structure Attempt where
  fails : Operation → Bool
  config : AppConfig

def after (w : World) (a : Attempt) : World := (exec (saveConfig a.fails a.config) w).2

/-- The saves are awaited: each starts when the one before it has completed. -/
def history (w : World) (attempts : List Attempt) : World := attempts.foldl after w

def InSync (w : World) : Prop := w.launchAtStartup = w.config.autoStart

def Switches (w : World) (a : Attempt) : Prop :=
  w.config.autoStart ≠ a.config.autoStart ∧ a.fails (switch a.config) = false

def Switched (w : World) (attempts : List Attempt) : Prop :=
  ∃ earlier a later, attempts = earlier ++ a :: later ∧ Switches (history w earlier) a

section
variable (w : World) (a : Attempt)

theorem persisted_config (fails : Operation → Bool) : (persisted fails w).config = w.config := by
  unfold persisted
  split
  · rfl
  · split <;> rfl

theorem persisted_launch (fails : Operation → Bool) :
    (persisted fails w).launchAtStartup = w.launchAtStartup := by
  unfold persisted
  split
  · rfl
  · split <;> rfl

/-- A save is refused at the startup entry, switches it, or leaves it alone. -/
theorem after_cases :
    w.config.autoStart ≠ a.config.autoStart ∧ a.fails (switch a.config) = true ∧ after w a = w ∨
    Switches w a ∧ after w a = persisted a.fails
      { w with launchAtStartup := a.config.autoStart, config := a.config } ∨
    w.config.autoStart = a.config.autoStart ∧
      after w a = persisted a.fails { w with config := a.config } := by
  unfold after
  rw [exec_saveConfig]
  by_cases ha : w.config.autoStart = a.config.autoStart
  · exact Or.inr (Or.inr ⟨ha, by simp [ha]⟩)
  · cases hs : a.fails (switch a.config) with
    | true => exact Or.inl ⟨ha, rfl, by simp [ha]⟩
    | false => exact Or.inr (Or.inl ⟨⟨ha, hs⟩, by simp [ha]⟩)

theorem inSync_after_iff : InSync (after w a) ↔ InSync w ∨ Switches w a := by
  rcases after_cases w a with ⟨_, failed, same⟩ | ⟨switches, moved⟩ | ⟨equal, kept⟩
  · rw [same]
    refine ⟨Or.inl, fun h => h.resolve_right fun switches => ?_⟩
    rw [switches.2] at failed
    cases failed
  · refine ⟨fun _ => Or.inr switches, fun _ => ?_⟩
    rw [moved, InSync, persisted_launch, persisted_config]
  · have sync : InSync (after w a) ↔ InSync w := by
      rw [kept, InSync, persisted_launch, persisted_config, InSync, equal]
    rw [sync]
    exact ⟨Or.inl, fun h => h.resolve_right fun switches => switches.1 equal⟩

theorem switched_cons (attempts : List Attempt) :
    Switched w (a :: attempts) ↔ Switches w a ∨ Switched (after w a) attempts := by
  constructor
  · rintro ⟨earlier, b, later, split, switches⟩
    cases earlier with
    | nil =>
      cases split
      exact Or.inl switches
    | cons first earlier =>
      cases split
      exact Or.inr ⟨earlier, b, later, rfl, switches⟩
  · rintro (switches | ⟨earlier, b, later, rfl, switches⟩)
    · exact ⟨[], a, attempts, rfl, switches⟩
    · exact ⟨a :: earlier, b, later, rfl, switches⟩
end

theorem inSync_history_iff (w : World) (attempts : List Attempt) :
    InSync (history w attempts) ↔ InSync w ∨ Switched w attempts := by
  induction attempts generalizing w with
  | nil =>
    refine ⟨Or.inl, fun h => h.resolve_right ?_⟩
    rintro ⟨earlier, a, later, split, _⟩
    cases earlier <;> cases split
  | cons a attempts ih =>
    change InSync (history (after w a) attempts) ↔ _
    rw [ih, inSync_after_iff, switched_cons, or_assoc]

section
variable (w : World) (a : Attempt)

/-- No step of the save fails, up to the write of nginx.conf. -/
def rewrites : Bool :=
  (w.config.autoStart == a.config.autoStart || !a.fails (switch a.config)) &&
    !(a.fails .createJson || a.fails .writeJson) &&
    !(a.fails .testNginx || a.fails .readNginx || a.fails .writeNginx)

theorem persisted_nginxConf (fails : Operation → Bool) :
    (persisted fails w).nginxConf =
      if !(fails .createJson || fails .writeJson) &&
        !(fails .testNginx || fails .readNginx || fails .writeNginx)
      then w.nginxConf.map (rewrite w.config) else w.nginxConf := by
  unfold persisted
  cases fails .createJson with
  | true => rfl
  | false =>
    cases fails .writeJson with
    | true => rfl
    | false => cases fails .testNginx || fails .readNginx || fails .writeNginx <;> rfl

theorem after_nginxConf : (after w a).nginxConf =
    if rewrites w a then w.nginxConf.map (rewrite a.config) else w.nginxConf := by
  rcases after_cases w a with ⟨differs, failed, same⟩ | ⟨⟨_, ok⟩, moved⟩ | ⟨equal, kept⟩
  · have refused : rewrites w a = false := by simp [rewrites, differs, failed]
    rw [same, refused]
    rfl
  · rw [moved, persisted_nginxConf]
    simp [rewrites, ok]
  · rw [kept, persisted_nginxConf]
    simp [rewrites, equal]
end

/-- The configurations whose ports the saves write to nginx.conf. -/
def written (w : World) : List Attempt → List AppConfig
  | [] => []
  | a :: attempts => (if rewrites w a then [a.config] else []) ++ written (after w a) attempts

theorem history_nginxConf (w : World) (attempts : List Attempt) :
    (history w attempts).nginxConf = w.nginxConf.map (saves (written w attempts)) := by
  induction attempts generalizing w with
  | nil => cases h : w.nginxConf <;> simp [history, written, saves, h]
  | cons a attempts ih =>
    change (history (after w a) attempts).nginxConf = _
    rw [ih, after_nginxConf, written]
    cases rewrites w a with
    | true =>
      rw [if_pos rfl, if_pos rfl, Option.map_map]
      rfl
    | false => rfl

theorem shows_saves_iff (earlier : List AppConfig) (c : AppConfig) (x : Text) :
    Shows c (saves (earlier ++ [c]) x) ↔ Rewritable c x ∧
      ∀ k : Setting, occurs k.regex x = true →
        ∀ n ∈ (earlier.map k.portOf).find? (· < 0), n = k.portOf c := by
  have last : saves (earlier ++ [c]) x = rewrite ⟨true, settled (earlier.map (·.nginxPort))
      c.nginxPort, 3306, settled (earlier.map (·.phpPort)) c.phpPort, false⟩ x :=
    saves_settled earlier c x
  rw [last, shows_rewrite_iff]
  refine and_congr_right fun _ => forall₂_congr fun k _ => ?_
  cases k with
  | listen => exact settled_eq_iff (earlier.map (·.nginxPort)) c.nginxPort
  | fastcgiPass => exact settled_eq_iff (earlier.map (·.phpPort)) c.phpPort

theorem reflects_after_iff (w : World) (c : AppConfig) :
    Reflects (after w ⟨neverFails, c⟩) c ↔ InSync (after w ⟨neverFails, c⟩) ∧
      ∀ x ∈ (after w ⟨neverFails, c⟩).nginxConf, Shows c x := by
  have result : after w ⟨neverFails, c⟩ = saved w c := congrArg (·.2) (exec_saveConfig_never w c)
  rw [result]
  constructor
  · intro h
    exact ⟨h.launchAtStartup, h.nginxConf⟩
  · rintro ⟨sync, shows⟩
    refine ⟨rfl, ?_, shows, sync⟩
    exact (Option.bind_some ..).trans (AppConfig.decode_encode c)

/-- Whatever failed in the saves before it, a save without a fault leaves every
    replica with its configuration exactly when the startup entry agreed with memory
    at the start or some save of the sequence switched it, and no minus sign keeps
    another port in nginx.conf: one of the file, or the first that was written. -/
theorem repairs_iff (w : World) (attempts : List Attempt) (c : AppConfig) :
    Reflects (history w (attempts ++ [⟨neverFails, c⟩])) c ↔
      (InSync w ∨ Switched w (attempts ++ [⟨neverFails, c⟩])) ∧
      ∀ x ∈ w.nginxConf, Rewritable c x ∧ ∀ k : Setting, occurs k.regex x = true →
        ∀ n ∈ ((written w attempts).map k.portOf).find? (· < 0), n = k.portOf c := by
  have last : history w (attempts ++ [⟨neverFails, c⟩]) =
      after (history w attempts) ⟨neverFails, c⟩ := List.foldl_append
  have nginx : (after (history w attempts) ⟨neverFails, c⟩).nginxConf =
      w.nginxConf.map (saves (written w attempts ++ [c])) := by
    have all : rewrites (history w attempts) ⟨neverFails, c⟩ = true := by
      simp [rewrites, neverFails]
    have apart : (saves (written w attempts ++ [c]) : Text → Text) =
        rewrite c ∘ saves (written w attempts) := funext fun x => List.foldl_append
    rw [after_nginxConf, all, if_pos rfl, history_nginxConf, Option.map_map, apart]
  rw [← inSync_history_iff, last, reflects_after_iff, nginx]
  refine and_congr_right fun _ => ⟨fun h x hx => ?_, fun h y hy => ?_⟩
  · exact (shows_saves_iff _ c x).mp (h _ (Option.mem_map_of_mem _ hx))
  · obtain ⟨x, hx, rfl⟩ := Option.mem_map.mp hy
    exact (shows_saves_iff _ c x).mpr (h x hx)

/-- A save whose write of nginx.conf failed is made good by the next; the port `-5`
    is not. -/
theorem next_save_repairs :
    let w : World := ⟨⟨some (AppConfig.encode {}), some "listen       80;".toList, false⟩, {}⟩
    Reflects (history w ([⟨fun op => op == .writeNginx, { nginxPort := 8080 }⟩] ++
        [⟨neverFails, { nginxPort := 8081 }⟩])) { nginxPort := 8081 } ∧
      ¬ Reflects (history w ([⟨neverFails, { nginxPort := -5 }⟩] ++ [⟨neverFails, {}⟩])) {} := by
  intro w
  refine ⟨(repairs_iff w _ _).mpr ⟨Or.inl rfl, fun x hx => ?_⟩, fun h => ?_⟩
  · rw [← Option.some.inj hx]
    refine ⟨rewritable_text (k := .listen) (n := 80) (p := 9000) (by decide) _, ?_⟩
    intro k _ n hn
    cases hn
  · have kept := ((repairs_iff w [⟨neverFails, { nginxPort := -5 }⟩] {}).mp h).2 _ rfl
    exact absurd (kept.2 .listen (by decide +kernel) (-5) rfl) (by decide)

end Luhut.ConfigManager
