import Luhut.SettingsSave
import Luhut.ReplicaConvergence

set_option autoImplicit false

/-! Every session shows a page of its own, filled before the load has ended. What is
stored in the end is what was typed in the session of the last Save, and nothing
of the sessions before it. -/
namespace Luhut.SettingsSessions
open NginxConf ConfigManager SettingsPage SettingsSave LabelledRuns InterleavedCalls

inductive Action where
  | app (x : SettingsSave.Action)
  | exit

/-- A session ends, and the next one is launched on what is stored. -/
def step (a : App) : Action → Option App
  | .app x => a.step x
  | .exit => some (App.launch a.read.shared.toDisk)

/-- Save is pressed only when the calls in flight agree with it, and the session ends
    only when there are none. -/
def Steady (a : App) : Action → Prop
  | .app .save => ∀ page ∈ a.page, Undisturbed a.read (.start page.newConfig)
  | .exit => a.provider = none ∨ Quiescent a.read
  | _ => True

structure Notes where
  typed : List Edit
  saved : Option (List Edit)
deriving DecidableEq

def note (n : Notes) : Action → Notes
  | .app (.edit e) => { n with typed := n.typed ++ [e] }
  | .app .save => { n with saved := some n.typed }
  | .exit => { n with typed := [] }
  | _ => n

def notes (as : List Action) : Notes := as.foldl note ⟨[], none⟩

def page (edits : List Edit) : SettingsPage := edits.foldl edit (initState {})

/-- The config of the last Save, or the one stored before the first. -/
def settings (c : AppConfig) (as : List Action) : AppConfig :=
  ((notes as).saved.map fun edits => (page edits).newConfig).getD c

structure Settled (c : AppConfig) (as : List Action) (a : App) : Prop where
  page : ∀ p ∈ a.page, p = page (notes as).typed
  first : a.page = none → a.provider = none ∧ (notes as).typed = []
  disk : a.provider = none → a.disk.Reflects (settings c as)
  converging : Converging (settings c as) a.read

section
variable {c : AppConfig} {as : List Action} {a b : App}

theorem Settled.stored (inv : Settled c as a) (ok : Steady a .exit) :
    a.read.shared.toDisk.Reflects (settings c as) := by
  rcases ok with none | quiet
  · have fresh : a.read.shared.toDisk = a.disk := by simp [App.read, none, create]
    rw [fresh]
    exact inv.disk none
  · have agree := inv.converging.reflects quiet
    exact ⟨agree.configJson, agree.nginxConf, agree.launchAtStartup⟩

end

def saving : List Action := List.replicate 10 (.app (.advance 1))

end Luhut.SettingsSessions
