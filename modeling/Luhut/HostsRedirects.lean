import Luhut.HostsFile
import Luhut.HostsManager

set_option autoImplicit false

/-! An entry maps its domain to the loopback address when the domain is one field of a
hosts file. A folder name with a blank or a comment sign gives an entry that maps
other names, or none, and never its domain. -/
namespace Luhut.HostsManager
open DartInt HostsFile TextLines

def loopback : Text := "127.0.0.1".toList

theorem field_loopback : FieldText loopback := by decide +kernel

theorem field_domain {name : Text} (h : name ≠ []) :
    FieldText (name ++ domainSuffix) ↔ FieldText name := by
  have suffix : domainSuffix.all fieldChar = true := rfl
  simp only [FieldText, List.all_append, suffix, Bool.and_true, ne_eq, List.append_eq_nil_iff, h,
    false_and, not_false_eq_true]

theorem fields_entry {d rest : Text} (hd : FieldText d) (hr : Ends rest) :
    fields (entry d ++ rest) = loopback :: d :: fields rest := by
  have after : Ends (' ' :: (d ++ rest)) := by
    intro c hc
    cases hc
    exact Or.inl rfl
  change fields (loopback ++ ' ' :: (d ++ rest)) = _
  rw [fields_word field_loopback.word after, fields_blank rfl, fields_word hd.word hr]

theorem lineMappings_entry {d : Text} (hd : FieldText d) :
    lineMappings (entry d) = [(d, loopback)] := by
  have ends : Ends [] := by
    intro c hc
    cases hc
  have hf : fields (entry d) = [loopback, d] := by
    have h := fields_entry hd ends
    rw [List.append_nil] at h
    exact h
  rw [lineMappings, hf]
  rfl

theorem mappings_appended (hosts : Text) {domains : List Text} (hne : domains ≠ [])
    (h : ∀ d ∈ domains, FieldText d) :
    mappings (hosts ++ appended domains) =
      mappings hosts ++ domains.map fun d => (d, loopback) := by
  have line : ∀ d ∈ domains, ∀ c ∈ d, c ≠ '\r' ∧ c ≠ '\n' :=
    fun d hd c hc => ((h d hd).spec hc).2.2
  have added : (domains.map entry).flatMap lineMappings =
      domains.map fun d => (d, loopback) := by
    rw [List.flatMap_map, List.map_eq_flatMap]
    exact List.flatMap_congr fun d hd => lineMappings_entry (h d hd)
  unfold mappings
  rw [lines_appended hosts hne line, List.flatMap_append, List.flatMap_append, added]
  exact congrArg _ (List.append_nil _)

theorem resolve_appended (hosts name : Text) {domains : List Text} (hne : domains ≠ [])
    (h : ∀ d ∈ domains, FieldText d) :
    resolve (hosts ++ appended domains) name =
      (resolve hosts name).or (if name ∈ domains then some loopback else none) := by
  unfold resolve
  rw [mappings_appended hosts hne h, List.lookup_append, lookup_pairs]

theorem exists_separator {name : Text} (allowed : AllowedName name) (h : ¬ FieldText name) :
    ∃ c ∈ name ++ domainSuffix, blank c = true ∨ c = '#' := by
  have hsome : ∃ c ∈ name, fieldChar c = false := by
    by_contra hno
    refine h ⟨allowed.1, List.all_eq_true.mpr fun c hc => ?_⟩
    by_contra hf
    exact hno ⟨c, hc, by simpa using hf⟩
  obtain ⟨c, hc, hf⟩ := hsome
  refine ⟨c, List.mem_append_left _ hc, ?_⟩
  obtain ⟨hr, hn⟩ := allowedName_line allowed c (List.mem_append_left _ hc)
  by_contra hsep
  simp only [not_or, Bool.not_eq_true] at hsep
  simp [fieldChar, hsep, hr, hn] at hf

/-- The names of the list resolve to the loopback address unless they had a mapping,
    and no other name changes. -/
def RedirectsOnly (hosts : Text) (domains : List Text) : Prop :=
  (∀ name, name ∉ domains → resolve (hosts ++ appended domains) name = resolve hosts name) ∧
    ∀ d ∈ domains, resolve hosts d = none →
      resolve (hosts ++ appended domains) d = some loopback

theorem redirectsOnly_of_field (hosts : Text) {domains : List Text} (hne : domains ≠ [])
    (h : ∀ d ∈ domains, FieldText d) : RedirectsOnly hosts domains := by
  refine ⟨?_, ?_⟩
  · intro name hname
    rw [resolve_appended hosts name hne h, if_neg hname, Option.or_none]
  · intro d hd hnone
    rw [resolve_appended hosts d hne h, if_pos hd, hnone, Option.none_or]

/-- Registering the domains of a list of folders redirects them and nothing else
    exactly when every folder name is one field of a hosts file. -/
theorem redirectsOnly_iff (hosts : Text) {folders : List Text} (hne : folders ≠ [])
    (allowed : ∀ name ∈ folders, AllowedName name) :
    RedirectsOnly hosts (scanSites (some folders)) ↔ ∀ name ∈ folders, FieldText name := by
  rw [scanSites_eq allowed]
  refine ⟨?_, ?_⟩
  · intro h name hn
    by_contra hf
    obtain ⟨c, hc, hsep⟩ := exists_separator (allowed name hn) hf
    have lost := h.2 (name ++ domainSuffix) (List.mem_map_of_mem hn) (resolve_eq_none hc hsep hosts)
    rw [resolve_eq_none hc hsep] at lost
    cases lost
  · intro h
    refine redirectsOnly_of_field hosts (by simpa using hne) fun d hd => ?_
    obtain ⟨name, hn, rfl⟩ := List.mem_map.mp hd
    exact (field_domain (allowed name hn).1).mpr (h name hn)

theorem redirectsOnly_shops :
    RedirectsOnly "10.0.0.5 crm.test\n# shop.test".toList
      (scanSites (some ["shop".toList, "crm".toList])) :=
  (redirectsOnly_iff _ (List.cons_ne_nil _ _) (by decide +kernel)).mpr (by decide +kernel)

/-- A folder with a blank in its name registers its first word. -/
theorem redirects_other_name :
    AllowedName "example.com old".toList ∧
      resolve [] "example.com".toList = none ∧
      resolve ([] ++ appended (scanSites (some ["example.com old".toList]))) "example.com".toList =
        some loopback ∧
      resolve ([] ++ appended (scanSites (some ["example.com old".toList])))
        "example.com old.test".toList = none ∧
      ¬ RedirectsOnly [] (scanSites (some ["example.com old".toList])) := by
  have other : resolve ([] ++ appended (scanSites (some ["example.com old".toList])))
      "example.com".toList = some loopback := by decide +kernel
  refine ⟨by decide +kernel, by decide +kernel, other, by decide +kernel, fun h => ?_⟩
  have same := h.1 "example.com".toList (by decide +kernel)
  rw [other] at same
  cases same

end Luhut.HostsManager
