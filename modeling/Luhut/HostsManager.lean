import Luhut.DartInt
import Luhut.TextLines
import Mathlib.Data.List.Infix
import Mathlib.Data.List.Nodup
import Mathlib.Data.List.Count

set_option autoImplicit false

namespace Luhut.HostsManager
open DartInt TextLines

def hostsPath : Text := "C:\\Windows\\System32\\drivers\\etc\\hosts".toList

def domainSuffix : Text := ".test".toList

/-- `none`: the file does not exist or cannot be read. -/
def readHosts (content : Option Text) : Text := content.getD []

/-- The domains of the folders of `sites`, `none` when the directory is missing. -/
def scanSites (sites : Option (List Text)) : List Text :=
  ((sites.getD []).filter fun name => !name.isEmpty).map fun name => name ++ domainSuffix

def entry (domain : Text) : Text := "127.0.0.1 ".toList ++ domain

def getMissingDomains (currentHosts : Text) (allSites : List Text) : List Text :=
  allSites.filter fun domain => !decide (entry domain <:+: currentHosts)

def join (separator : Text) : List Text → Text
  | [] => []
  | [line] => line
  | line :: next :: lines => line ++ (separator ++ join separator (next :: lines))

def entries (domains : List Text) : Text := join "\r\n".toList (domains.map entry)

def scriptHead : Text := "$hostsPath = \"".toList ++ hostsPath ++ "\"\n$entries = ".toList

def scriptTail : Text :=
  "\n\nAdd-Content -Path $hostsPath -Value \"`r`n$entries\" -Force\n".toList

def scriptContent (domains : List Text) : Text :=
  scriptHead ++ ("@\"\n".toList ++ (entries domains ++ ("\n\"@".toList ++ scriptTail)))

/-- What Add-Content appends when `$entries` is the text of the entries: the value
    of `-Value` and a line end. -/
def appended (domains : List Text) : Text :=
  "\r\n".toList ++ (entries domains ++ "\r\n".toList)

/-- The characters Windows allows in a folder name. -/
def AllowedName (name : Text) : Prop :=
  name ≠ [] ∧ ∀ c ∈ name, 0x20 ≤ c.toNat ∧ c ∉ "<>:\"/\\|?*".toList

instance (name : Text) : Decidable (AllowedName name) :=
  decidable_of_iff
    (name ≠ [] ∧ name.all (fun c => 0x20 ≤ c.toNat ∧ c ∉ "<>:\"/\\|?*".toList) = true)
    (and_congr_right fun _ => by simp only [List.all_eq_true, decide_eq_true_eq])

/-- A list of domains that scanSites can return or filter: no domain twice, and
    every domain on one line. -/
structure Scanned (domains : List Text) : Prop where
  nodup : domains.Nodup
  line : ∀ d ∈ domains, ∀ c ∈ d, c ≠ '\r' ∧ c ≠ '\n'

theorem scanSites_of_ne_nil {folders : List Text} (h : ∀ name ∈ folders, name ≠ []) :
    scanSites (some folders) = folders.map fun name => name ++ domainSuffix := by
  have all : folders.filter (fun name => !name.isEmpty) = folders := by
    apply List.filter_eq_self.mpr
    intro name hn
    simpa using h name hn
  change (folders.filter fun name => !name.isEmpty).map _ = _
  rw [all]

theorem scanSites_eq {folders : List Text} (h : ∀ name ∈ folders, AllowedName name) :
    scanSites (some folders) = folders.map fun name => name ++ domainSuffix :=
  scanSites_of_ne_nil fun name hn => (h name hn).1

theorem allowedName_line {name : Text} (h : AllowedName name) :
    ∀ c ∈ name ++ domainSuffix, c ≠ '\r' ∧ c ≠ '\n' := by
  intro c hc
  rcases List.mem_append.mp hc with hc | hc
  · have printable := (h.2 c hc).1
    constructor
    · rintro rfl
      exact absurd printable (by decide)
    · rintro rfl
      exact absurd printable (by decide)
  · have suffix : ∀ c ∈ domainSuffix, c ≠ '\r' ∧ c ≠ '\n' := forall_mem_of_all rfl
    exact suffix c hc

theorem scanned_scanSites {folders : List Text} (hd : folders.Nodup)
    (h : ∀ name ∈ folders, AllowedName name) : Scanned (scanSites (some folders)) := by
  rw [scanSites_eq h]
  constructor
  · exact List.Nodup.map (fun _ _ heq => List.append_cancel_right heq) hd
  · intro d hdm
    obtain ⟨name, hn, hname⟩ := List.mem_map.mp hdm
    rw [← hname]
    exact allowedName_line (h name hn)

theorem Scanned.missing {allSites : List Text} (h : Scanned allSites) (currentHosts : Text) :
    Scanned (getMissingDomains currentHosts allSites) :=
  ⟨h.nodup.filter _, fun d hd => h.line d (List.mem_of_mem_filter hd)⟩

theorem entry_injective : Function.Injective entry := fun _ _ h => List.append_cancel_left h

theorem entry_line {d : Text} (h : ∀ c ∈ d, c ≠ '\r' ∧ c ≠ '\n') :
    ∀ c ∈ entry d, c ≠ '\r' ∧ c ≠ '\n' := by
  intro c hc
  have address : ∀ c ∈ "127.0.0.1 ".toList, c ≠ '\r' ∧ c ≠ '\n' := forall_mem_of_all rfl
  exact (List.mem_append.mp hc).elim (address c) (h c)

theorem not_line_of_missing {currentHosts d : Text} {allSites : List Text}
    (h : d ∈ getMissingDomains currentHosts allSites) : entry d ∉ lines currentHosts := by
  intro hl
  have absent := (List.mem_filter.mp h).2
  simp [infix_of_mem_lines hl] at absent

theorem lines_entries {domains : List Text} (hne : domains ≠ [])
    (h : ∀ d ∈ domains, ∀ c ∈ d, c ≠ '\r' ∧ c ≠ '\n') :
    lines (entries domains) = domains.map entry := by
  have single : ∀ d ∈ domains, lines (entry d) = [entry d] := fun d hd =>
    lines_single fun c hc => (entry_line (h d hd) c hc).2
  clear h
  induction domains with
  | nil => exact absurd rfl hne
  | cons d domains ih =>
    cases domains with
    | nil => exact single d (by simp)
    | cons e domains =>
      have rest := ih (List.cons_ne_nil e domains) fun d hd => single d (List.mem_cons_of_mem _ hd)
      change lines (entry d ++ '\r' :: '\n' :: entries (e :: domains)) = _
      rw [lines_append, single d (by simp), rest]
      rfl

theorem lines_appended (hosts : Text) {domains : List Text} (hne : domains ≠ [])
    (h : ∀ d ∈ domains, ∀ c ∈ d, c ≠ '\r' ∧ c ≠ '\n') :
    lines (hosts ++ appended domains) = lines hosts ++ (domains.map entry ++ [[]]) := by
  change lines (hosts ++ '\r' :: '\n' :: (entries domains ++ '\r' :: '\n' :: [])) = _
  rw [lines_append, lines_append, lines_entries hne h]
  rfl

theorem count_appended (hosts d : Text) {domains : List Text} (hne : domains ≠ [])
    (h : Scanned domains) :
    (lines (hosts ++ appended domains)).count (entry d) =
      (lines hosts).count (entry d) + domains.count d := by
  have empty : List.count (entry d) [[]] = 0 := List.count_eq_zero_of_not_mem (by
    rw [List.mem_singleton]
    exact List.cons_ne_nil _ _)
  rw [lines_appended hosts hne h.line, List.count_append, List.count_append,
    List.count_map_of_injective _ _ entry_injective, empty, Nat.add_zero]

end Luhut.HostsManager
