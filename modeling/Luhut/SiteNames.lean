import Luhut.HostsManager
import Luhut.KeywordPattern

set_option autoImplicit false

/-! scanSites appends `.test` to a folder name. The site card takes every `.test` out
of the domain again, nginx only the last one. -/
namespace Luhut.SiteNames
open DartInt HostsManager TextPattern WordDivision KeywordPattern

/-- _buildSiteCard: the name a card shows for a domain. -/
def folderName (domainName : Text) : Text := replaceAll (literal ".test".toList) [] domainName

/-- _openFolder: the path given to the explorer. -/
def openFolder (currentPath folderName : Text) : Text :=
  currentPath ++ ("\\sites\\".toList ++ folderName)

/-- `.+`, the longest part first, with something of `after` behind it. -/
def greedy (after : Text → Bool) : Text → Option Text
  | [] => none
  | c :: t =>
    if c == '\n' then none
    else ((greedy after t).map (c :: ·)).or (if after t then some [c] else none)

/-- `\.test$`: at the end of the subject, or at a line feed that ends it. -/
def testEnd (t : Text) : Bool := t == ".test".toList || t == ".test\n".toList

/-- `^(?<project>.+)\.test$` -/
def project (host : Text) : Option Text := greedy testEnd host

def sitesRoot : Text := "D:/Lab/HomeLab/Github/dyzulk/LUHUT/sites/".toList

/-- `root D:/Lab/HomeLab/Github/dyzulk/LUHUT/sites/$project` -/
def documentRoot (project : Text) : Text := sitesRoot ++ project

def suffixKeyword : Keyword := ⟨'.', 't', literal "est".toList⟩

def suffixWords : Set Text := words [suffixKeyword]

theorem suffixWords_overlapFree : OverlapFree suffixWords := by
  apply overlapFree
  · simp
  · intro k hk
    rw [List.mem_singleton.mp hk]
    exact deterministic_literal ".test".toList
  · intro k hk
    rw [List.mem_singleton.mp hk]
    decide

theorem mem_suffixWords {w : Text} : w ∈ suffixWords ↔ w = domainSuffix := by
  constructor
  · rintro ⟨k, hk, hm⟩
    rw [List.mem_singleton.mp hk] at hm
    exact Matches.eq_literal (t := domainSuffix) hm
  · rintro rfl
    exact ⟨suffixKeyword, List.mem_singleton_self _, matches_literal domainSuffix⟩

theorem suffix_language : language (literal domainSuffix) ⊆ suffixWords :=
  fun _ hw => mem_suffixWords.mpr hw.eq_literal

theorem folderName_text {T : List (Token Char)} (hT : Divided suffixWords T) :
    folderName (text T) = text (T.map (Token.map fun _ => [])) := by
  classical
  have words : ∀ w, Token.word w ∈ T → w ∈ language (literal domainSuffix) := by
    intro w hw
    rw [mem_suffixWords.mp (hT.mem_words hw)]
    exact matches_literal domainSuffix
  change replaceAll (literal domainSuffix) [] (text T) = _
  rw [replaceAll_text suffixWords_overlapFree (deterministic_literal domainSuffix)
    suffix_language [] hT]
  congr 1
  refine List.map_congr_left fun t ht => ?_
  cases t with
  | letter c => rfl
  | word w => exact congrArg Token.word (if_pos (words w ht))

theorem folderName_domain (name : Text) : folderName (name ++ domainSuffix) = folderName name := by
  obtain ⟨T, hT, rfl⟩ := exists_divided suffixWords_overlapFree name
  have snoc := hT.append_word suffixWords_overlapFree (mem_suffixWords.mpr rfl) .nil
  have split : text T ++ domainSuffix = text (T ++ [.word domainSuffix]) := by
    simp [text, Token.text]
  rw [split, folderName_text snoc, folderName_text hT, List.map_append]
  simp [text, Token.text, Token.map]

theorem folderName_eq_self_iff (name : Text) :
    folderName name = name ↔ ¬ domainSuffix <:+: name := by
  obtain ⟨T, hT, rfl⟩ := exists_divided suffixWords_overlapFree name
  have nonempty : ∀ w, Token.word w ∈ T → w ≠ [] := by
    intro w hw
    rw [mem_suffixWords.mp (hT.mem_words hw)]
    exact List.cons_ne_nil _ _
  rw [folderName_text hT, erase_eq_iff nonempty, ← occurs_literal_iff,
    occurs_text suffixWords_overlapFree suffix_language hT]
  constructor
  · rintro h ⟨w, _, hw⟩
    exact h w hw
  · intro h w hw
    refine h ⟨w, ?_, hw⟩
    rw [mem_suffixWords.mp (hT.mem_words hw)]
    exact matches_literal domainSuffix

theorem greedy_sound {after : Text → Bool} {t v : Text} (h : greedy after t = some v) :
    v ≠ [] ∧ '\n' ∉ v ∧ ∃ r, t = v ++ r ∧ after r = true := by
  induction t generalizing v with
  | nil => cases h
  | cons c t ih =>
    rw [greedy] at h
    split at h
    · cases h
    · next hc =>
      have hc' : '\n' ≠ c := by
        rintro rfl
        exact hc rfl
      rcases Option.or_eq_some_iff.mp h with h | ⟨_, h⟩
      · obtain ⟨u, hu, rfl⟩ := Option.map_eq_some_iff.mp h
        obtain ⟨_, hn, r, rfl, hr⟩ := ih hu
        exact ⟨List.cons_ne_nil _ _, by simp [hc', hn], r, rfl, hr⟩
      · split at h
        · next ha =>
          cases h
          exact ⟨List.cons_ne_nil _ _, by simp [hc'], t, rfl, ha⟩
        · cases h

theorem greedy_complete (after : Text → Bool) {v r : Text} (hne : v ≠ []) (hn : '\n' ∉ v)
    (hr : after r = true) : (greedy after (v ++ r)).isSome = true := by
  induction v with
  | nil => exact absurd rfl hne
  | cons c v ih =>
    have hc : (c == '\n') = false := by
      rw [beq_eq_false_iff_ne]
      rintro rfl
      exact hn List.mem_cons_self
    rw [List.cons_append, greedy, hc]
    cases v with
    | nil => simp [hr]
    | cons d v =>
      have tail := ih (List.cons_ne_nil _ _) fun hm => hn (List.mem_cons_of_mem _ hm)
      rw [if_neg Bool.false_ne_true, Option.isSome_or, Option.isSome_map, tail, Bool.true_or]

theorem project_domain_iff {name : Text} (h : name ≠ []) :
    project (name ++ domainSuffix) = some name ↔ '\n' ∉ name := by
  constructor
  · intro hp
    exact (greedy_sound hp).2.1
  · intro hn
    obtain ⟨v, hv⟩ := Option.isSome_iff_exists.mp
      (greedy_complete testEnd (r := domainSuffix) h hn rfl)
    obtain ⟨_, _, r, heq, hr⟩ := greedy_sound hv
    rcases (Bool.or_eq_true _ _).mp hr with hr | hr
    · obtain rfl : r = domainSuffix := beq_iff_eq.mp hr
      rw [project, hv, List.append_cancel_right heq]
    · obtain rfl : r = domainSuffix ++ ['\n'] := beq_iff_eq.mp hr
      have last := congrArg List.getLast? heq
      rw [← List.append_assoc, List.getLast?_concat, List.getLast?_append_of_ne_nil] at last
      · cases last
      · exact List.cons_ne_nil _ _

/-- Opening, displaying and serving the domain that scanSites reports for the
    folder all come back to the folder. -/
structure Refers (currentPath name : Text) : Prop where
  shown : folderName (name ++ domainSuffix) = name
  opened : openFolder currentPath (folderName (name ++ domainSuffix)) =
    currentPath ++ ("\\sites\\".toList ++ name)
  served : (project (name ++ domainSuffix)).map documentRoot = some (sitesRoot ++ name)

theorem refers_iff (currentPath : Text) {name : Text} (h : name ≠ []) :
    Refers currentPath name ↔ ¬ domainSuffix <:+: name ∧ '\n' ∉ name := by
  rw [← folderName_eq_self_iff, ← folderName_domain, ← project_domain_iff h]
  constructor
  · intro refers
    refine ⟨refers.shown, ?_⟩
    obtain ⟨p, hp, hroot⟩ := Option.map_eq_some_iff.mp refers.served
    rw [hp, List.append_cancel_left hroot]
  · rintro ⟨shown, captured⟩
    refine ⟨shown, ?_, ?_⟩
    · rw [shown]
      rfl
    · rw [captured]
      rfl

/-- The cards of the scanned folders show, open and serve these folders, each its
    own, exactly when no folder name has `.test` (or a line feed) in it. -/
theorem site_names_agree_iff (currentPath : Text) {folders : List Text}
    (h : ∀ name ∈ folders, name ≠ []) :
    ((scanSites (some folders)).map folderName = folders ∧
      (∀ name ∈ folders, Refers currentPath name) ∧
      ∀ m ∈ folders, ∀ n ∈ folders, m ≠ n →
        folderName (m ++ domainSuffix) ≠ folderName (n ++ domainSuffix)) ↔
      ∀ name ∈ folders, ¬ domainSuffix <:+: name ∧ '\n' ∉ name := by
  constructor
  · rintro ⟨_, refers, _⟩ name hn
    exact (refers_iff currentPath (h name hn)).mp (refers name hn)
  · intro plain
    have refers : ∀ name ∈ folders, Refers currentPath name := fun name hn =>
      (refers_iff currentPath (h name hn)).mpr (plain name hn)
    refine ⟨?_, refers, ?_⟩
    · rw [scanSites_of_ne_nil h, List.map_map]
      calc
        folders.map (folderName ∘ fun name => name ++ domainSuffix) = folders.map id :=
          List.map_congr_left fun name hn => (refers name hn).shown
        _ = folders := List.map_id folders
    · intro m hm n hn hne heq
      rw [(refers m hm).shown, (refers n hn).shown] at heq
      exact hne heq

theorem site_names_overlap :
    (scanSites (some ["a.tes".toList, "t.t".toList])).map folderName =
        ["a.tes".toList, "t.t".toList] ∧
      (∀ name ∈ ["a.tes".toList, "t.t".toList], Refers "C:\\LUHUT".toList name) ∧
      ∀ m ∈ ["a.tes".toList, "t.t".toList], ∀ n ∈ ["a.tes".toList, "t.t".toList], m ≠ n →
        folderName (m ++ domainSuffix) ≠ folderName (n ++ domainSuffix) :=
  (site_names_agree_iff _ (by decide +kernel)).mpr (by decide +kernel)

/-- The folder `my.tester` is shown and opened as `myer`, and `a` and `a.test` are
    one name on their cards; nginx serves all of them from their folders. -/
theorem site_names_lost :
    folderName ("my.tester".toList ++ domainSuffix) = "myer".toList ∧
      project ("my.tester".toList ++ domainSuffix) = some "my.tester".toList ∧
      folderName ("a".toList ++ domainSuffix) = folderName ("a.test".toList ++ domainSuffix) ∧
      project ("a.test".toList ++ domainSuffix) = some "a.test".toList ∧
      ¬ Refers [] "my.tester".toList := by
  have shown : folderName ("my.tester".toList ++ domainSuffix) = "myer".toList := by
    decide +kernel
  refine ⟨shown, by decide +kernel, by decide +kernel, by decide +kernel, fun refers => ?_⟩
  have same := shown.symm.trans refers.shown
  cases same

end Luhut.SiteNames
