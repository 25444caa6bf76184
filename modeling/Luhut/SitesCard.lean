import Luhut.HostsScript
import Luhut.LabelledRuns

set_option autoImplicit false

/-! Every build of the card starts an evaluation of getMissingDomains and shows the
result of the last one started. Fix All registers the domains shown; its button
is live while earlier fixes are pending, and all fixes use one script file. -/
namespace Luhut.SitesCard
open HereString HostsManager LabelledRuns TextLines

/-- The folders of `sites` as the directory lists them. -/
structure Sites where
  folders : List Text
  nodup : folders.Nodup
  allowed : ∀ name ∈ folders, AllowedName name

inductive Evaluation where
  | reading
  | scanning (currentHosts : Text)
  | returned (missing : List Text)
  | thrown
  | delivered
deriving DecidableEq

inductive Progress where
  | read (ok : Bool)
  | scan (sites : Option Sites)
  | throw

def Evaluation.next (hosts : Text) : Evaluation → Progress → Option Evaluation
  | .reading, .read ok => some (.scanning (readHosts (if ok then some hosts else none)))
  | .scanning currentHosts, .scan sites =>
    some (.returned (getMissingDomains currentHosts (scanSites (sites.map (·.folders)))))
  | .scanning _, .throw => some .thrown
  | _, _ => none

/-- `snapshot.data ?? []` of a completed evaluation. -/
def Evaluation.data : Evaluation → Option (List Text)
  | .returned missing => some missing
  | .thrown => some []
  | _ => none

/-- The hosts file, and the domains luhut_hosts_fix.ps1 was last written for. -/
structure Files where
  hosts : Text
  script : List Text
deriving DecidableEq

/-- A call of fixMissingDomains; the elevated PowerShell reads the script when it
    starts. -/
inductive Fix where
  | writing (domains : List Text)
  | launching
  | running (domains : List Text)
  | returned
deriving DecidableEq

inductive Phase where
  | write
  | launch
  | append (other : Text)
  | fail

def fixMissingDomains (domains : List Text) : Fix :=
  if domains.isEmpty then .returned else .writing domains

/-- The hosts file after the script has run. A script whose here-string is not
    literal runs code of its own, and may leave any file `other`. -/
def execute (L : Lexer) (domains : List Text) (hosts other : Text) : Text :=
  if CarriesLiterally L domains then hosts ++ appended domains else other

def Fix.next (L : Lexer) (files : Files) : Fix → Phase → Option (Files × Fix)
  | .writing domains, .write => some (⟨files.hosts, domains⟩, .launching)
  | .launching, .launch => some (files, .running files.script)
  | .running domains, .append other =>
    some (⟨execute L domains files.hosts other, files.script⟩, .returned)
  | .returned, _ => none
  | _, .fail => some (files, .returned)
  | _, _ => none

structure State where
  files : Files
  missing : List Text
  subscribed : ℕ
  evaluations : List Evaluation
  fixes : List Fix
deriving DecidableEq

/-- `build` is every rebuild of the page: by the timer, or after a fix. -/
inductive Action where
  | build
  | evaluate (i : ℕ) (p : Progress)
  | deliver (i : ℕ)
  | click
  | fix (i : ℕ) (p : Phase)

def opened (hosts : Text) (script : List Text) : State := ⟨⟨hosts, script⟩, [], 0, [], []⟩

/-- The FutureBuilder keeps its data until the evaluation it is subscribed to
    completes; the button is only there when something is missing. -/
def step (L : Lexer) (s : State) : Action → Option State
  | .build => some { s with
      subscribed := s.evaluations.length
      evaluations := s.evaluations ++ [.reading] }
  | .evaluate i p => (s.evaluations[i]?).bind fun e =>
    (e.next s.files.hosts p).map fun e => { s with evaluations := s.evaluations.set i e }
  | .deliver i => (s.evaluations[i]?.bind Evaluation.data).map fun missing => { s with
      missing := if i = s.subscribed then missing else s.missing
      evaluations := s.evaluations.set i .delivered }
  | .click =>
    if s.missing.isEmpty then none
    else some { s with fixes := s.fixes ++ [fixMissingDomains s.missing] }
  | .fix i p => (s.fixes[i]?).bind fun f =>
    (f.next L s.files p).map fun r => { s with files := r.1, fixes := s.fixes.set i r.2 }

section
variable {L : Lexer} {s u : State} {i : ℕ}

theorem step_evaluate {p : Progress} (h : step L s (.evaluate i p) = some u) :
    ∃ e g, s.evaluations[i]? = some e ∧ e.next s.files.hosts p = some g ∧
      u = { s with evaluations := s.evaluations.set i g } := by
  obtain ⟨e, he, hm⟩ := Option.bind_eq_some_iff.mp h
  obtain ⟨g, hg, hu⟩ := Option.map_eq_some_iff.mp hm
  exact ⟨e, g, he, hg, hu.symm⟩

theorem step_deliver (h : step L s (.deliver i) = some u) :
    ∃ e missing, s.evaluations[i]? = some e ∧ e.data = some missing ∧
      u = { s with
        missing := if i = s.subscribed then missing else s.missing
        evaluations := s.evaluations.set i .delivered } := by
  obtain ⟨missing, hm, hu⟩ := Option.map_eq_some_iff.mp h
  obtain ⟨e, he, hd⟩ := Option.bind_eq_some_iff.mp hm
  exact ⟨e, missing, he, hd, hu.symm⟩

theorem step_click (h : step L s .click = some u) :
    s.missing ≠ [] ∧ u = { s with fixes := s.fixes ++ [.writing s.missing] } := by
  by_cases hm : s.missing = []
  · simp [step, hm] at h
  · have hu : some { s with fixes := s.fixes ++ [.writing s.missing] } = some u := by
      simpa [step, fixMissingDomains, hm] using h
    exact ⟨hm, (Option.some.inj hu).symm⟩

theorem step_fix {p : Phase} (h : step L s (.fix i p) = some u) :
    ∃ f g w, s.fixes[i]? = some f ∧ f.next L s.files p = some (w, g) ∧
      u = { s with files := w, fixes := s.fixes.set i g } := by
  obtain ⟨f, hf, hm⟩ := Option.bind_eq_some_iff.mp h
  obtain ⟨r, hr, hu⟩ := Option.map_eq_some_iff.mp hm
  exact ⟨f, r.2, r.1, hf, hr, hu.symm⟩

theorem fix_next {f g : Fix} {w v : Files} {p : Phase} (h : f.next L w p = some (v, g)) :
    (∃ domains, f = .writing domains ∧ v = ⟨w.hosts, domains⟩ ∧ g = .launching) ∨
    (f = .launching ∧ v = w ∧ g = .running w.script) ∨
    (∃ domains other, f = .running domains ∧
      v = ⟨execute L domains w.hosts other, w.script⟩ ∧ g = .returned) ∨
    (v = w ∧ g = .returned) := by
  cases f with
  | writing domains =>
    cases p <;> cases h
    · exact Or.inl ⟨domains, rfl, rfl, rfl⟩
    · exact Or.inr (Or.inr (Or.inr ⟨rfl, rfl⟩))
  | launching =>
    cases p <;> cases h
    · exact Or.inr (Or.inl ⟨rfl, rfl, rfl⟩)
    · exact Or.inr (Or.inr (Or.inr ⟨rfl, rfl⟩))
  | running domains =>
    cases p <;> cases h
    · exact Or.inr (Or.inr (Or.inl ⟨domains, _, rfl, rfl, rfl⟩))
    · exact Or.inr (Or.inr (Or.inr ⟨rfl, rfl⟩))
  | returned => cases h

def Evaluation.Sound (e : Evaluation) : Prop := ∀ missing, e.data = some missing → Scanned missing

theorem sound_of_data {e : Evaluation} (h : e.data = none) : e.Sound := by
  intro missing hd
  rw [h] at hd
  cases hd

theorem scanned_nil : Scanned [] := ⟨List.nodup_nil, List.forall_mem_nil _⟩

theorem Sites.scanned (sites : Option Sites) :
    Scanned (scanSites (sites.map (·.folders))) := by
  cases sites with
  | none => exact scanned_nil
  | some sites => exact scanned_scanSites sites.nodup sites.allowed

theorem Evaluation.sound_next {e g : Evaluation} {hosts : Text} {p : Progress}
    (h : e.next hosts p = some g) : g.Sound := by
  intro missing hd
  unfold Evaluation.next at h
  split at h
  · cases h
    cases hd
  · cases h
    cases hd
    exact (Sites.scanned _).missing _
  · cases h
    cases hd
    exact scanned_nil
  · cases h
end

structure Shown (s : State) : Prop where
  missing : Scanned s.missing
  evaluations : ∀ e ∈ s.evaluations, e.Sound

theorem shown_opened (hosts : Text) (script : List Text) : Shown (opened hosts script) :=
  ⟨scanned_nil, List.forall_mem_nil _⟩

theorem shown_step {L : Lexer} {s u : State} {a : Action} (hs : Shown s)
    (h : step L s a = some u) : Shown u := by
  cases a with
  | build =>
    cases h
    refine ⟨hs.missing, fun e he => ?_⟩
    rcases List.mem_append.mp he with he | he
    · exact hs.evaluations e he
    · rw [List.mem_singleton.mp he]
      exact sound_of_data rfl
  | evaluate i p =>
    obtain ⟨e, g, he, hg, hu⟩ := step_evaluate h
    subst hu
    refine ⟨hs.missing, fun k hk => ?_⟩
    rcases List.mem_or_eq_of_mem_set hk with hk | rfl
    · exact hs.evaluations k hk
    · exact Evaluation.sound_next hg
  | deliver i =>
    obtain ⟨e, missing, he, hd, hu⟩ := step_deliver h
    subst hu
    constructor
    · change Scanned (if i = s.subscribed then missing else s.missing)
      split
      · exact hs.evaluations e (List.mem_of_getElem? he) missing hd
      · exact hs.missing
    · intro k hk
      rcases List.mem_or_eq_of_mem_set hk with hk | rfl
      · exact hs.evaluations k hk
      · exact sound_of_data rfl
  | click =>
    obtain ⟨_, hu⟩ := step_click h
    subst hu
    exact ⟨hs.missing, hs.evaluations⟩
  | fix i p =>
    obtain ⟨_, _, _, _, _, hu⟩ := step_fix h
    subst hu
    exact ⟨hs.missing, hs.evaluations⟩

end Luhut.SitesCard
