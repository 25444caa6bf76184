import Luhut.HostsAppends

set_option autoImplicit false

/-! A round registers what is missing at that moment, on the folders of that moment.
The substring test that decides what is missing can only turn to found: the file
is appended to and never rewritten. -/
namespace Luhut.FixAllRounds
open HereString HostsManager LabelledRuns

structure State where
  hosts : Text
  folders : List Text
deriving DecidableEq

inductive Event where
  | folders (names : List Text)
  | fixAll

def allSites (s : State) : List Text := scanSites (some s.folders)

def missing (s : State) : List Text :=
  getMissingDomains (readHosts (some s.hosts)) (allSites s)

/-- The file after fixMissingDomains, its script run without a fault. -/
def fixed (hosts : Text) (domains : List Text) : Text :=
  if domains.isEmpty then hosts else hosts ++ appended domains

def next (s : State) : Event → State
  | .folders names => { s with folders := names }
  | .fixAll => { s with hosts := fixed s.hosts (missing s) }

def run (s : State) (events : List Event) : State := events.foldl next s

theorem fixed_nil (hosts : Text) : fixed hosts [] = hosts := rfl

theorem fixed_of_ne_nil (hosts : Text) {domains : List Text} (h : domains ≠ []) :
    fixed hosts domains = hosts ++ appended domains := by
  refine if_neg fun empty => h ?_
  simpa using empty

theorem prefix_fixed (hosts : Text) (domains : List Text) : hosts <+: fixed hosts domains := by
  unfold fixed
  split
  · exact List.prefix_refl hosts
  · exact List.prefix_append hosts _

theorem infix_join (separator : Text) {lines : List Text} {line : Text} (h : line ∈ lines) :
    line <:+: join separator lines := by
  induction lines with
  | nil => cases h
  | cons first lines ih =>
    cases lines with
    | nil =>
      rw [List.mem_singleton.mp h]
      exact List.infix_rfl
    | cons second lines =>
      change line <:+: first ++ (separator ++ join separator (second :: lines))
      rcases List.mem_cons.mp h with rfl | h
      · exact (List.prefix_append line _).isInfix
      · have later := (List.suffix_append separator (join separator (second :: lines))).isInfix
        exact ((ih h).trans later).trans (List.suffix_append first _).isInfix

theorem infix_fixed {hosts d : Text} {domains : List Text} (hd : d ∈ domains) :
    entry d <:+: fixed hosts domains := by
  rw [fixed_of_ne_nil hosts (List.ne_nil_of_mem hd)]
  have inEntries : entry d <:+: entries domains := infix_join _ (List.mem_map_of_mem hd)
  have inAppended : entries domains <:+: appended domains :=
    ((List.prefix_append (entries domains) _).isInfix).trans (List.suffix_append _ _).isInfix
  exact (inEntries.trans inAppended).trans (List.suffix_append hosts _).isInfix

theorem not_mem_missing_iff {s : State} {d : Text} (hd : d ∈ allSites s) :
    d ∉ missing s ↔ entry d <:+: s.hosts := by
  have spec : d ∈ missing s ↔ d ∈ allSites s ∧ ¬ entry d <:+: s.hosts := by
    change d ∈ (allSites s).filter (fun d => !decide (entry d <:+: s.hosts)) ↔ _
    rw [List.mem_filter, Bool.not_eq_true', decide_eq_false_iff_not]
  rw [spec]
  simp only [hd, true_and, not_not]

theorem not_mem_missing_of_infix {s : State} {d : Text} (h : entry d <:+: s.hosts) :
    d ∉ missing s := by
  intro hd
  exact (not_mem_missing_iff (List.mem_of_mem_filter hd)).mpr h hd

theorem missing_fixAll (s : State) : missing (next s .fixAll) = [] := by
  refine List.eq_nil_iff_forall_not_mem.mpr fun d hd => ?_
  have scanned : d ∈ allSites s := List.mem_of_mem_filter hd
  refine not_mem_missing_of_infix (s := next s .fixAll) ?_ hd
  change entry d <:+: fixed s.hosts (missing s)
  by_cases hm : d ∈ missing s
  · exact infix_fixed hm
  · exact ((not_mem_missing_iff scanned).mp hm).trans (prefix_fixed _ _).isInfix

theorem prefix_next (s : State) (e : Event) : s.hosts <+: (next s e).hosts := by
  cases e with
  | folders names => exact List.prefix_refl s.hosts
  | fixAll => exact prefix_fixed s.hosts (missing s)

theorem prefix_run (s : State) (events : List Event) : s.hosts <+: (run s events).hosts := by
  induction events generalizing s with
  | nil => exact List.prefix_refl s.hosts
  | cons e events ih => exact (prefix_next s e).trans (ih (next s e))

theorem run_append (s : State) (events later : List Event) :
    run s (events ++ later) = run (run s events) later := List.foldl_append

theorem hosts_fixAll {s : State} (h : missing s = []) : (next s .fixAll).hosts = s.hosts := by
  change fixed s.hosts (missing s) = s.hosts
  rw [h, fixed_nil]

theorem registered_run {s : State} {d : Text} (hd : d ∈ allSites s) (h : d ∉ missing s)
    (later : List Event) : d ∉ missing (run s later) := by
  have found := (not_mem_missing_iff hd).mp h
  exact not_mem_missing_of_infix (found.trans (prefix_run s later).isInfix)

/-- At any point of any sequence of folder changes and rounds: a round leaves
    nothing missing, what is registered stays registered, a round with nothing
    missing keeps the file, and the file only grows. -/
theorem fixAll_converges (hosts : Text) (folders : List Text) (events later : List Event) :
    missing (next (run ⟨hosts, folders⟩ events) .fixAll) = [] ∧
    (∀ d ∈ allSites (run ⟨hosts, folders⟩ events), d ∉ missing (run ⟨hosts, folders⟩ events) →
      d ∉ missing (run ⟨hosts, folders⟩ (events ++ later))) ∧
    (missing (run ⟨hosts, folders⟩ events) = [] →
      (next (run ⟨hosts, folders⟩ events) .fixAll).hosts = (run ⟨hosts, folders⟩ events).hosts) ∧
    (run ⟨hosts, folders⟩ events).hosts <+: (run ⟨hosts, folders⟩ (events ++ later)).hosts := by
  rw [run_append]
  exact ⟨missing_fixAll _, fun d hd h => registered_run hd h later, hosts_fixAll,
    prefix_run _ later⟩

theorem exec_build (L : Lexer) (s : SitesCard.State) (sites : SitesCard.Sites) :
    exec (SitesCard.step L) s [.build, .evaluate s.evaluations.length (.read true),
        .evaluate s.evaluations.length (.scan (some sites)), .deliver s.evaluations.length] =
      some { s with
        missing := missing ⟨s.files.hosts, sites.folders⟩
        subscribed := s.evaluations.length
        evaluations := s.evaluations ++ [.delivered] } := by
  simp [exec, SitesCard.step, SitesCard.Evaluation.next, SitesCard.Evaluation.data, missing,
    allSites]

theorem exec_click (L : Lexer) (s : SitesCard.State) (h : s.missing ≠ []) :
    exec (SitesCard.step L) s [.click, .fix s.fixes.length .write, .fix s.fixes.length .launch,
        .fix s.fixes.length (.append [])] =
      some { s with
        files := ⟨SitesCard.execute L s.missing s.files.hosts [], s.missing⟩
        fixes := s.fixes ++ [.returned] } := by
  simp [exec, SitesCard.step, SitesCard.Fix.next, SitesCard.fixMissingDomains, h]

/-- From any state of the card some run does a round: it evaluates the missing
    domains and, if there are any, has them registered. -/
theorem exists_card_round {L : Lexer} (s : SitesCard.State) (sites : SitesCard.Sites)
    (plain : ∀ d ∈ missing ⟨s.files.hosts, sites.folders⟩, L.plain d = true) :
    ∃ as u, Runs (SitesCard.step L) always s as u ∧
      u.files.hosts = (next ⟨s.files.hosts, sites.folders⟩ .fixAll).hosts := by
  have built := exec_runs _ _ _ _ (exec_build L s sites)
  by_cases none : missing ⟨s.files.hosts, sites.folders⟩ = []
  · exact ⟨_, _, built, (hosts_fixAll none).symm⟩
  · have clicked := exec_runs _ _ _ _ (exec_click L { s with
      missing := missing ⟨s.files.hosts, sites.folders⟩
      subscribed := s.evaluations.length
      evaluations := s.evaluations ++ [.delivered] } none)
    have scanned : Scanned (missing ⟨s.files.hosts, sites.folders⟩) :=
      (scanned_scanSites sites.nodup sites.allowed).missing _
    refine ⟨_, _, built.trans clicked, ?_⟩
    change SitesCard.execute L _ s.files.hosts [] = fixed s.files.hosts _
    rw [SitesCard.execute_literal ⟨none, scanned, plain⟩, fixed_of_ne_nil _ none]

end Luhut.FixAllRounds
