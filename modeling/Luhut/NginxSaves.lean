import Luhut.NginxConf
import Luhut.SettingsPage

set_option autoImplicit false

/-! The rewriter writes a negative port as `-5`, which `(\d+)` does not match, so
the first negative port of a sequence stands for good. All other sequences leave
nginx.conf as the last save alone would. -/
namespace Luhut.NginxConf
open DartInt TextPattern

def saves (cs : List AppConfig) (content : Text) : Text :=
  cs.foldl (fun x c => rewrite c x) content

/-- The port that stands after `earlier` ports and then `last` were written. -/
def settled (earlier : List ℤ) (last : ℤ) : ℤ := (earlier.find? (· < 0)).getD last

theorem settled_cons (n : ℤ) (earlier : List ℤ) (last : ℤ) :
    settled (n :: earlier) last = if n < 0 then n else settled earlier last := by
  unfold settled
  rw [List.find?_cons]
  by_cases hn : n < 0
  · simp [hn]
  · simp [hn]

theorem settled_eq_iff (earlier : List ℤ) (last : ℤ) :
    settled earlier last = last ↔ ∀ n ∈ earlier.find? (· < 0), n = last := by
  unfold settled
  cases earlier.find? (· < 0) with
  | none => simp
  | some n => simp

theorem saves_settled (cs : List AppConfig) (c : AppConfig) (x : Text) :
    saves (cs ++ [c]) x =
      rewritePorts (settled (cs.map (·.nginxPort)) c.nginxPort)
        (settled (cs.map (·.phpPort)) c.phpPort) x := by
  induction cs generalizing x with
  | nil => rfl
  | cons d cs ih =>
    change saves (cs ++ [c]) (rewrite d x) = _
    rw [ih, rewrite, rewritePorts_rewritePorts, List.map_cons, List.map_cons, settled_cons,
      settled_cons]

/-- The last save alone determines nginx.conf, unless an earlier save left a
    negative port of another value in a directive of the file. -/
theorem last_save_alone_iff (x : Text) :
    (∀ c₁ c₂ : AppConfig,
      rewrite c₂ (rewrite c₁ x) = rewrite c₂ x ↔
        (occurs portRegex x = true → c₁.nginxPort < 0 → c₁.nginxPort = c₂.nginxPort) ∧
        (occurs phpRegex x = true → c₁.phpPort < 0 → c₁.phpPort = c₂.phpPort)) ∧
    (∀ (cs : List AppConfig) (c : AppConfig),
      saves (cs ++ [c]) x = rewrite c x ↔
        (occurs portRegex x = true →
          ∀ n ∈ (cs.map (·.nginxPort)).find? (· < 0), n = c.nginxPort) ∧
        (occurs phpRegex x = true →
          ∀ p ∈ (cs.map (·.phpPort)).find? (· < 0), p = c.phpPort)) := by
  have general : ∀ (cs : List AppConfig) (c : AppConfig),
      saves (cs ++ [c]) x = rewrite c x ↔
        (occurs portRegex x = true →
          ∀ n ∈ (cs.map (·.nginxPort)).find? (· < 0), n = c.nginxPort) ∧
        (occurs phpRegex x = true →
          ∀ p ∈ (cs.map (·.phpPort)).find? (· < 0), p = c.phpPort) := by
    intro cs c
    rw [saves_settled, rewrite, rewritePorts_eq_iff, settled_eq_iff, settled_eq_iff]
  refine ⟨fun c₁ c₂ => ?_, general⟩
  have pair := general [c₁] c₂
  have single : ∀ m n : ℤ, (∀ k ∈ [m].find? (· < 0), k = n) ↔ (m < 0 → m = n) := by
    intro m n
    by_cases hm : m < 0 <;> simp [hm]
  rw [List.map_singleton, List.map_singleton, single, single] at pair
  exact pair

/-- The Settings page builds the config of the first save from the port text
    `-5`; no later save reaches the directive again. -/
theorem negative_port_stays :
    let page := (SettingsPage.initState {}).edit (.nginxPort "-5".toList)
    rewrite {} (rewrite page.newConfig "server { listen       80; }".toList) =
        "server { listen       -5; }".toList ∧
      rewrite {} "server { listen       80; }".toList = "server { listen       80; }".toList := by
  decide +kernel

end Luhut.NginxConf
