import Luhut.HostsRedirects

set_option autoImplicit false

/-! getMissingDomains looks for the text of an entry anywhere in the file. The text
can stand where it maps nothing, and the mapping can stand in another spelling. -/
namespace Luhut.HostsManager
open DartInt HostsFile TextLines

def TrueEntry (d line : Text) : Prop :=
  ∃ indent rest, line = indent ++ (entry d ++ rest) ∧ (∀ c ∈ indent, blank c = true) ∧ Ends rest

/-- The text of the entry stands in a comment, behind another field, or as part of
    a longer address or name. -/
def Decoy (d line : Text) : Prop :=
  ∃ before after, line = before ++ (entry d ++ after) ∧
    ((∃ c ∈ before, blank c = false) ∨ ¬ Ends after)

/-- The lines are spelled so that the test tells whether they map the domain. What counts
    is the first line that is spelled with the domain behind an address. -/
inductive Legible (d : Text) : List Text → Prop where
  | entry {above below : List Text} {line : Text}
      (unnamed : ∀ l ∈ above, ∀ address, ¬ Spelled address d l) (here : TrueEntry d line) :
      Legible d (above ++ line :: below)
  /-- Other blanks, or other names in between: the test finds a later entry or a decoy. -/
  | respelled {above below : List Text} {line : Text}
      (unnamed : ∀ l ∈ above, ∀ address, ¬ Spelled address d l) (here : Spelled loopback d line)
      (text : (∃ l ∈ below, TrueEntry d l) ∨ ∃ l ∈ above ++ line :: below, Decoy d l) :
      Legible d (above ++ line :: below)
  | elsewhere {above below : List Text} {line address : Text}
      (unnamed : ∀ l ∈ above, ∀ address, ¬ Spelled address d l) (here : Spelled address d line)
      (other : address ≠ loopback) (last : ∀ l ∈ below, ¬ TrueEntry d l)
      (silent : ∀ l ∈ above ++ line :: below, ¬ Decoy d l) : Legible d (above ++ line :: below)
  | unnamed {ls : List Text} (unnamed : ∀ l ∈ ls, ∀ address, ¬ Spelled address d l)
      (silent : ∀ l ∈ ls, ¬ Decoy d l) : Legible d ls

theorem TrueEntry.fields {d line : Text} (h : TrueEntry d line) (hd : FieldText d) :
    ∃ others, fields line = loopback :: d :: others := by
  obtain ⟨indent, rest, rfl, hblank, ends⟩ := h
  exact ⟨_, (fields_indent hblank _).trans (fields_entry hd ends)⟩

theorem TrueEntry.names {d line : Text} (h : TrueEntry d line) (hd : FieldText d) :
    d ∈ names line := by
  obtain ⟨others, hf⟩ := h.fields hd
  rw [HostsFile.names, hf]
  exact List.mem_cons_self

theorem infix_iff_line (d line : Text) : entry d <:+: line ↔ TrueEntry d line ∨ Decoy d line := by
  refine ⟨?_, ?_⟩
  · rintro ⟨before, after, rfl⟩
    rw [List.append_assoc]
    by_cases ends : Ends after
    · by_cases hblank : ∀ c ∈ before, blank c = true
      · exact Or.inl ⟨before, after, rfl, hblank, ends⟩
      · have sign : ∃ c ∈ before, blank c = false := by simpa using hblank
        exact Or.inr ⟨before, after, rfl, Or.inl sign⟩
    · exact Or.inr ⟨before, after, rfl, Or.inr ends⟩
  · rintro (⟨before, after, rfl, _⟩ | ⟨before, after, rfl, _⟩)
    · exact ⟨before, after, List.append_assoc ..⟩
    · exact ⟨before, after, List.append_assoc ..⟩

theorem infix_iff {hosts d : Text} (hd : FieldText d) :
    entry d <:+: hosts ↔ ∃ line ∈ lines hosts, TrueEntry d line ∨ Decoy d line := by
  have line := entry_line fun c hc => (hd.spec hc).2.2
  rw [infix_iff_mem_lines (fun h => (line _ h).1 rfl) (fun h => (line _ h).2 rfl)]
  exact exists_congr fun l => and_congr_right fun _ => infix_iff_line d l

theorem spelled_of_entry {d line : Text} (h : TrueEntry d line) : Spelled loopback d line := by
  obtain ⟨indent, rest, rfl, blanks, ends⟩ := h
  exact ⟨indent, [' '], rest, rfl, blanks, field_loopback.word,
    ⟨⟨' ', [], rfl, rfl⟩, ⟨[], ' ', rfl, rfl⟩, by decide⟩, ends⟩

/-- Under the first line that is spelled with the domain, an entry stands in that line or
    below it. -/
theorem entry_below {d line l : Text} {above below : List Text}
    (unnamed : ∀ l ∈ above, ∀ address, ¬ Spelled address d l) (hl : l ∈ above ++ line :: below)
    (genuine : TrueEntry d l) : l = line ∨ l ∈ below := by
  rcases List.mem_append.mp hl with hl | hl
  · exact absurd (spelled_of_entry genuine) (unnamed l hl loopback)
  · exact List.mem_cons.mp hl

theorem spelled_address {d line a b : Text} (hd : Word d) (ha : Spelled a d line)
    (hb : Spelled b d line) : a = b :=
  Option.some.inj (((spelled_iff hd).mp ha).1.symm.trans ((spelled_iff hd).mp hb).1)

/-- The test agrees with the format on a domain exactly when the lines are legible. -/
theorem infix_iff_resolve {hosts d : Text} (hd : FieldText d) :
    (entry d <:+: hosts ↔ resolve hosts d = some loopback) ↔ Legible d (lines hosts) := by
  rw [infix_iff hd]
  constructor
  · intro agree
    cases hr : resolve hosts d with
    | none =>
      have unnamed := (resolve_eq_none_iff hd.word).mp hr
      refine .unnamed unnamed fun l hl decoy => ?_
      cases hr.symm.trans (agree.mp ⟨l, hl, Or.inr decoy⟩)
    | some address =>
      obtain ⟨above, line, below, split, here, unnamed⟩ := (resolve_eq_some_iff hd.word).mp hr
      by_cases same : address = loopback
      · subst same
        obtain ⟨l, hl, standing⟩ := agree.mpr hr
        rw [split] at hl ⊢
        rcases standing with genuine | decoy
        · rcases entry_below unnamed hl genuine with rfl | later
          · exact .entry unnamed genuine
          · exact .respelled unnamed here (Or.inl ⟨l, later, genuine⟩)
        · exact .respelled unnamed here (Or.inr ⟨l, hl, decoy⟩)
      · have absent : ∀ l ∈ lines hosts, ¬ TrueEntry d l ∧ ¬ Decoy d l := by
          refine fun l hl => not_or.mp fun standing => same ?_
          exact Option.some.inj (hr.symm.trans (agree.mp ⟨l, hl, standing⟩))
        rw [split] at absent ⊢
        have later : ∀ l ∈ below, l ∈ above ++ line :: below := fun l hl =>
          List.mem_append_right _ (List.mem_cons_of_mem _ hl)
        exact .elsewhere unnamed here same (fun l hl => (absent l (later l hl)).1)
          fun l hl => (absent l hl).2
  · intro legible
    generalize hl : lines hosts = ls at legible
    have mapped : ∀ {above below : List Text} {line address : Text},
        lines hosts = above ++ line :: below → (∀ l ∈ above, ∀ a, ¬ Spelled a d l) →
        Spelled address d line → resolve hosts d = some address :=
      fun split unnamed here =>
        (resolve_eq_some_iff hd.word).mpr ⟨_, _, _, split, here, unnamed⟩
    cases legible with
    | @entry above below line unnamed here =>
      have stands : ∃ l ∈ above ++ line :: below, TrueEntry d l ∨ Decoy d l :=
        ⟨line, by simp, Or.inl here⟩
      exact iff_of_true stands (mapped hl unnamed (spelled_of_entry here))
    | @respelled above below line unnamed here text =>
      refine iff_of_true ?_ (mapped hl unnamed here)
      rcases text with ⟨l, hm, genuine⟩ | ⟨l, hm, decoy⟩
      · exact ⟨l, List.mem_append_right _ (List.mem_cons_of_mem _ hm), Or.inl genuine⟩
      · exact ⟨l, hm, Or.inr decoy⟩
    | elsewhere unnamed here other last silent =>
      refine iff_of_false ?_ fun loop => ?_
      · rintro ⟨l, hm, genuine | decoy⟩
        · rcases entry_below unnamed hm genuine with rfl | later
          · exact other (spelled_address hd.word here (spelled_of_entry genuine))
          · exact last l later genuine
        · exact silent l hm decoy
      · exact other (Option.some.inj ((mapped hl unnamed here).symm.trans loop))
    | unnamed unnamed silent =>
      refine iff_of_false ?_ fun loop => ?_
      · rintro ⟨l, hm, genuine | decoy⟩
        · exact unnamed l hm _ (spelled_of_entry genuine)
        · exact silent l hm decoy
      · rw [← hl] at unnamed
        cases ((resolve_eq_none_iff hd.word).mpr unnamed).symm.trans loop

theorem filter_eq_iff {l : List Text} {p q : Text → Bool} :
    l.filter p = l.filter q ↔ ∀ d ∈ l, p d = q d := by
  refine ⟨?_, List.filter_congr⟩
  intro h d hd
  have same : d ∈ l.filter p ↔ d ∈ l.filter q := by rw [h]
  simp only [List.mem_filter, hd, true_and] at same
  exact Bool.eq_iff_iff.mpr same

theorem field_of_mem_scanSites {folders : List Text} (h : ∀ name ∈ folders, FieldText name)
    {d : Text} (hd : d ∈ scanSites (some folders)) : FieldText d := by
  obtain ⟨name, hn, rfl⟩ := List.mem_map.mp hd
  have hname := h name (List.mem_of_mem_filter hn)
  exact (field_domain hname.1).mpr hname

/-- getMissingDomains returns the scanned domains that the file does not map to the
    loopback address exactly when the lines are legible for each of them. -/
theorem getMissingDomains_exact_iff (hosts : Text) {folders : List Text}
    (h : ∀ name ∈ folders, FieldText name) :
    getMissingDomains (readHosts (some hosts)) (scanSites (some folders)) =
        (scanSites (some folders)).filter (fun d => !decide (resolve hosts d = some loopback)) ↔
      ∀ d ∈ scanSites (some folders), Legible d (lines hosts) := by
  change (scanSites (some folders)).filter (fun d => !decide (entry d <:+: hosts)) = _ ↔ _
  rw [filter_eq_iff]
  refine forall₂_congr fun d hd => ?_
  rw [← infix_iff_resolve (field_of_mem_scanSites h hd), Bool.not_inj_iff, decide_eq_decide]

/-- One domain registered with another name behind it, one with two blanks and its entry
    in the comment, one not mentioned. -/
theorem getMissingDomains_shops :
    let first := "127.0.0.1 shop.test shop".toList
    let second := "127.0.0.1  crm.test # 127.0.0.1 crm.test".toList
    let folders := ["shop".toList, "crm".toList, "docs".toList]
    getMissingDomains (readHosts (some (first ++ '\r' :: '\n' :: second)))
        (scanSites (some folders)) =
      (scanSites (some folders)).filter fun d =>
        !decide (resolve (first ++ '\r' :: '\n' :: second) d = some loopback) := by
  intro first second folders
  refine (getMissingDomains_exact_iff _ (by decide +kernel)).mpr fun d hd => ?_
  have split : lines (first ++ '\r' :: '\n' :: second) = [first, second] := by decide +kernel
  have scan : scanSites (some folders) =
      ["shop.test".toList, "crm.test".toList, "docs.test".toList] := by decide +kernel
  have unnamed : ∀ d line : Text, FieldText d → d ∉ names line → ∀ a, ¬ Spelled a d line :=
    fun d line hd hn a spelled => hn ((spelled_iff hd.word).mp spelled).2
  rw [split]
  rw [scan] at hd
  simp only [List.mem_cons, List.not_mem_nil, or_false] at hd
  rcases hd with rfl | rfl | rfl
  · refine @Legible.entry _ [] _ _ (List.forall_mem_nil _) ⟨[], " shop".toList, rfl, ?_, ?_⟩
    · exact List.forall_mem_nil _
    · intro c hc
      cases hc
      exact Or.inl rfl
  · refine @Legible.respelled _ [first] [] _ ?_ ?_ (Or.inr ⟨second, by simp, ?_⟩)
    · rw [List.forall_mem_singleton]
      exact unnamed _ _ (by decide +kernel) (by decide +kernel)
    · exact (spelled_iff (FieldText.word (by decide +kernel))).mpr (by decide +kernel)
    · exact ⟨"127.0.0.1  crm.test # ".toList, [], rfl, Or.inl ⟨'#', by decide, rfl⟩⟩
  · refine .unnamed ?_ ?_
    · rw [List.forall_mem_cons, List.forall_mem_singleton]
      exact ⟨unnamed _ _ (by decide +kernel) (by decide +kernel),
        unnamed _ _ (by decide +kernel) (by decide +kernel)⟩
    · intro l hl decoy
      have stands := (infix_iff_line _ l).mpr (Or.inr decoy)
      revert stands
      simp only [List.mem_cons, List.not_mem_nil, or_false] at hl
      rcases hl with rfl | rfl <;> decide +kernel

/-- A comment and a longer name hide a missing domain; a tab makes a registered one
    missing. -/
theorem getMissingDomains_inexact :
    getMissingDomains (readHosts (some "# 127.0.0.1 shop.test".toList))
        (scanSites (some ["shop".toList])) = [] ∧
      resolve "# 127.0.0.1 shop.test".toList "shop.test".toList = none ∧
      getMissingDomains (readHosts (some "# 127.0.0.1 shop.test".toList))
          (scanSites (some ["shop".toList])) ≠
        (scanSites (some ["shop".toList])).filter (fun d => !decide (resolve
          "# 127.0.0.1 shop.test".toList d = some loopback)) ∧
      getMissingDomains (readHosts (some "127.0.0.1 shop.test.test".toList))
        (scanSites (some ["shop".toList, "shop.test".toList])) = [] ∧
      resolve "127.0.0.1 shop.test.test".toList "shop.test".toList = none ∧
      getMissingDomains (readHosts (some "127.0.0.1\tshop.test".toList))
        (scanSites (some ["shop".toList])) = ["shop.test".toList] ∧
      resolve "127.0.0.1\tshop.test".toList "shop.test".toList = some loopback := by
  decide +kernel

end Luhut.HostsManager
