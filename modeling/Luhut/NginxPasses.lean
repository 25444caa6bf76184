import Luhut.NginxConf
import Luhut.PatternPairs

set_option autoImplicit false

/-! Each pass leaves the matches of the other pattern where and as they are. -/
namespace Luhut.NginxConf
open DartInt TextPattern PatternPairs

def portPass (nginxPort : ℤ) (content : Text) : Text :=
  replaceAll portRegex (listenText nginxPort) content

def phpPass (phpPort : ℤ) (content : Text) : Text :=
  replaceAll phpRegex (fastcgiText phpPort) content

theorem rewritePorts_passes (n p : ℤ) (x : Text) : rewritePorts n p x = phpPass p (portPass n x) :=
  rfl

/-- The matches of the pattern after the pass are those before it, one by one, with
    the texts around them passed over on their own. -/
def Keeps (pass : Text → Text) (pattern : List Item) (x : Text) : Prop :=
  ∀ m ∈ language pattern, ∀ a' b', pass x = a' ++ (m ++ b') ↔
    ∃ a b, x = a ++ (m ++ b) ∧ a' = pass a ∧ b' = pass b

theorem php_port_disjoint {w : Text} (hp : w ∈ language phpRegex) : w ∉ language portRegex :=
  fun h => port_php_disjoint h hp

theorem portPass_keeps (n : ℤ) (x : Text) : Keeps (portPass n) phpRegex x := by
  intro m hm a' b'
  constructor
  · intro h
    exact of_replaceAll_around directives_overlapFree portRegex_deterministic portRegex_subset
      phpRegex_subset (listenText_mem n) (listenText_not_php n) hm h
  · rintro ⟨a, b, rfl, rfl, rfl⟩
    exact replaceAll_around directives_overlapFree portRegex_deterministic portRegex_subset
      phpRegex_subset (fun _ => port_php_disjoint) a b hm

theorem phpPass_keeps (p : ℤ) (x : Text) : Keeps (phpPass p) portRegex x := by
  intro m hm a' b'
  constructor
  · intro h
    exact of_replaceAll_around directives_overlapFree phpRegex_deterministic phpRegex_subset
      portRegex_subset (fastcgiText_mem p) (fastcgiText_not_port p) hm h
  · rintro ⟨a, b, rfl, rfl, rfl⟩
    exact replaceAll_around directives_overlapFree phpRegex_deterministic phpRegex_subset
      portRegex_subset (fun _ => php_port_disjoint) a b hm

theorem phpPass_portPass (n p : ℤ) (x : Text) : phpPass p (portPass n x) =
    replaceEither portRegex phpRegex (listenText n) (fastcgiText p) x :=
  replaceAll_either directives_overlapFree portRegex_deterministic phpRegex_deterministic
    portRegex_subset phpRegex_subset (listenText_mem n) (listenText_not_php n) x

theorem portPass_phpPass (n p : ℤ) (x : Text) : portPass n (phpPass p x) =
    replaceEither phpRegex portRegex (fastcgiText p) (listenText n) x :=
  replaceAll_either directives_overlapFree phpRegex_deterministic portRegex_deterministic
    phpRegex_subset portRegex_subset (fastcgiText_mem p) (fastcgiText_not_port p) x

/-- The passes commute, act as one pass for both patterns, and neither creates,
    destroys or moves a match of the other against the text around it. -/
theorem passes_do_not_interfere (n p : ℤ) (x : Text) :
    phpPass p (portPass n x) = portPass n (phpPass p x) ∧
      phpPass p (portPass n x) =
        replaceEither portRegex phpRegex (listenText n) (fastcgiText p) x ∧
      Keeps (portPass n) phpRegex x ∧ Keeps (phpPass p) portRegex x := by
  refine ⟨?_, phpPass_portPass n p x, portPass_keeps n x, phpPass_keeps p x⟩
  rw [phpPass_portPass, portPass_phpPass]
  exact replaceEither_comm directives_overlapFree portRegex_deterministic phpRegex_deterministic
    portRegex_subset phpRegex_subset (fun _ => port_php_disjoint) x

end Luhut.NginxConf
