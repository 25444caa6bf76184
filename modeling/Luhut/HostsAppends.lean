import Luhut.SitesCard
import Mathlib.Algebra.BigOperators.Group.List.Basic

set_option autoImplicit false

/-! Nothing is appended twice when Fix All is clicked while no earlier fix is still to
read its script, on domains that neither stand in the hosts file nor in a script
that is running. Any other click can be followed by a second entry. -/
namespace Luhut.SitesCard
open HereString HostsManager LabelledRuns TextLines

/-- The entry lines of `d` that the file did not have before. -/
def added (before : Text) (s : State) (d : Text) : ℕ :=
  (lines s.files.hosts).count (entry d) - (lines before).count (entry d)

def Fix.unread : Fix → Bool
  | .writing _ => true
  | .launching => true
  | _ => false

structure Careful (L : Lexer) (before : Text) (s : State) : Prop where
  plain : ∀ d ∈ s.missing, L.plain d = true
  read : ∀ f ∈ s.fixes, f.unread = false
  running : ∀ domains, .running domains ∈ s.fixes → ∀ d ∈ s.missing, d ∉ domains
  absent : ∀ d ∈ s.missing, added before s d = 0

def CarefulClicks (L : Lexer) (before : Text) : State → Action → Prop :=
  fun s a => a = .click → Careful L before s

def Fix.domains (script : List Text) : Fix → List Text
  | .writing domains => domains
  | .launching => script
  | .running domains => domains
  | .returned => []

def pending (script : List Text) (fixes : List Fix) (d : Text) : ℕ :=
  (fixes.map fun f => (f.domains script).count d).sum

structure Literal (L : Lexer) (domains : List Text) : Prop where
  ne_nil : domains ≠ []
  scanned : Scanned domains
  plain : ∀ d ∈ domains, L.plain d = true

theorem pending_set (script : List Text) {fixes : List Fix} {i : ℕ} {f : Fix} (g : Fix) (d : Text)
    (hf : fixes[i]? = some f) :
    pending script (fixes.set i g) d + (f.domains script).count d =
      pending script fixes d + (g.domains script).count d := by
  induction fixes generalizing i with
  | nil => cases hf
  | cons k fixes ih =>
    cases i with
    | zero =>
      cases hf
      simp only [pending, List.set_cons_zero, List.map_cons, List.sum_cons]
      omega
    | succ i =>
      have tail := ih (i := i) hf
      simp only [pending, List.set_cons_succ, List.map_cons, List.sum_cons] at tail ⊢
      omega

theorem pending_snoc (script : List Text) (fixes : List Fix) (f : Fix) (d : Text) :
    pending script (fixes ++ [f]) d = pending script fixes d + (f.domains script).count d := by
  simp [pending]

theorem domains_script {f : Fix} (hf : f ≠ .launching) (a b : List Text) :
    f.domains a = f.domains b := by
  cases f with
  | launching => exact absurd rfl hf
  | _ => rfl

theorem pending_script {fixes : List Fix} (h : .launching ∉ fixes) (a b : List Text) (d : Text) :
    pending a fixes d = pending b fixes d := by
  have same : ∀ f ∈ fixes, (f.domains a).count d = (f.domains b).count d := by
    intro f hf
    rw [domains_script (fun heq => h (heq ▸ hf)) a b]
  simp only [pending, List.map_congr_left same]

theorem execute_literal {L : Lexer} {domains : List Text} (h : Literal L domains)
    (hosts other : Text) : execute L domains hosts other = hosts ++ appended domains :=
  if_pos ((carriesLiterally_entries h.ne_nil h.scanned.line).mpr h.plain)

def OneUnread (fixes : List Fix) : Prop :=
  ∀ (i j : ℕ) (f g : Fix), fixes[i]? = some f → fixes[j]? = some g →
    f.unread = true → g.unread = true → i = j

theorem OneUnread.set {fixes : List Fix} {i : ℕ} {f g : Fix} (h : OneUnread fixes)
    (hf : fixes[i]? = some f) (hgf : g.unread = true → f.unread = true) :
    OneUnread (fixes.set i g) := by
  have old : ∀ (j : ℕ) (a : Fix), (fixes.set i g)[j]? = some a → a.unread = true →
      ∃ c, fixes[j]? = some c ∧ c.unread = true := by
    intro j a ha hau
    by_cases hij : i = j
    · subst hij
      rw [List.getElem?_set_self (List.getElem?_eq_some_iff.mp hf).1] at ha
      cases ha
      exact ⟨f, hf, hgf hau⟩
    · rw [List.getElem?_set_ne hij] at ha
      exact ⟨a, ha, hau⟩
  intro j k a b ha hb hau hbu
  obtain ⟨c, hc, hcu⟩ := old j a ha hau
  obtain ⟨e, he, heu⟩ := old k b hb hbu
  exact h j k c e hc he hcu heu

theorem oneUnread_snoc {fixes : List Fix} (f : Fix) (h : ∀ g ∈ fixes, g.unread = false) :
    OneUnread (fixes ++ [f]) := by
  have last : ∀ (i : ℕ) (g : Fix), (fixes ++ [f])[i]? = some g → g.unread = true →
      i = fixes.length := by
    intro i g hg hu
    by_cases hi : i < fixes.length
    · rw [List.getElem?_append_left hi] at hg
      rw [h g (List.mem_of_getElem? hg)] at hu
      cases hu
    · have bound := (List.getElem?_eq_some_iff.mp hg).1
      simp only [List.length_append, List.length_singleton] at bound
      omega
  intro i j a b ha hb hau hbu
  rw [last i a ha hau, last j b hb hbu]

theorem OneUnread.not_launching {fixes : List Fix} {i : ℕ} {domains : List Text}
    (h : OneUnread fixes) (hi : fixes[i]? = some (.writing domains)) : .launching ∉ fixes := by
  intro hl
  obtain ⟨j, hj⟩ := List.mem_iff_getElem?.mp hl
  have hij := h i j _ _ hi hj rfl rfl
  subst hij
  rw [hi] at hj
  cases hj

/-- Every script still to run is literal, at most one is still to be read, and with
    all of them the file has at most one new entry line for each domain. -/
structure Counted (L : Lexer) (before : Text) (s : State) : Prop where
  shown : Shown s
  literal : ∀ f ∈ s.fixes, f = .returned ∨ Literal L (f.domains s.files.script)
  unread : OneUnread s.fixes
  kept : ∀ d, (lines before).count (entry d) ≤ (lines s.files.hosts).count (entry d)
  total : ∀ d, (lines s.files.hosts).count (entry d) + pending s.files.script s.fixes d ≤
    (lines before).count (entry d) + 1

section
variable {L : Lexer} {before : Text} {s u : State}

theorem counted_opened (hosts : Text) (script : List Text) :
    Counted L hosts (opened hosts script) :=
  ⟨shown_opened hosts script, List.forall_mem_nil _, fun i _ _ _ h => (by cases i <;> cases h),
    fun _ => le_refl _, fun _ => Nat.le_succ _⟩

theorem Counted.lit (hs : Counted L before s) {f : Fix} (hf : f ∈ s.fixes) (hne : f ≠ .returned) :
    Literal L (f.domains s.files.script) :=
  (hs.literal f hf).resolve_left hne

theorem Careful.pending_eq_zero (hc : Careful L before s) {d : Text} (hd : d ∈ s.missing) :
    pending s.files.script s.fixes d = 0 := by
  apply List.sum_eq_zero
  intro n hn
  obtain ⟨f, hf, hfn⟩ := List.mem_map.mp hn
  rw [← hfn]
  apply List.count_eq_zero_of_not_mem
  have read := hc.read f hf
  cases f with
  | writing _ => cases read
  | launching => cases read
  | running domains => exact hc.running domains hf d hd
  | returned => exact List.not_mem_nil

theorem counted_click (hs : Counted L before s) (hc : Careful L before s)
    (h : step L s .click = some u) : Counted L before u := by
  have shown := shown_step hs.shown h
  obtain ⟨hne, hu⟩ := step_click h
  subst hu
  refine ⟨shown, ?_, oneUnread_snoc _ hc.read, hs.kept, ?_⟩
  · intro f hf
    rcases List.mem_append.mp hf with hf | hf
    · exact hs.literal f hf
    · rw [List.mem_singleton.mp hf]
      exact Or.inr ⟨hne, hs.shown.missing, hc.plain⟩
  · intro d
    change (lines s.files.hosts).count (entry d) +
      pending s.files.script (s.fixes ++ [.writing s.missing]) d ≤ _
    rw [pending_snoc]
    change (lines s.files.hosts).count (entry d) +
      (pending s.files.script s.fixes d + s.missing.count d) ≤ _
    by_cases hd : d ∈ s.missing
    · have once : s.missing.count d ≤ 1 := List.nodup_iff_count_le_one.mp hs.shown.missing.nodup d
      have none := hc.pending_eq_zero hd
      have absent : (lines s.files.hosts).count (entry d) - (lines before).count (entry d) = 0 :=
        hc.absent d hd
      omega
    · rw [List.count_eq_zero_of_not_mem hd]
      exact hs.total d

theorem Counted.literal_set (hs : Counted L before s) {i : ℕ} {g : Fix}
    (hg : g = .returned ∨ Literal L (g.domains s.files.script)) :
    ∀ k ∈ s.fixes.set i g, k = .returned ∨ Literal L (k.domains s.files.script) := by
  intro k hk
  rcases List.mem_or_eq_of_mem_set hk with hk | rfl
  · exact hs.literal k hk
  · exact hg

theorem Counted.total_set (hs : Counted L before s) {i : ℕ} {f g : Fix} {hosts d : Text}
    (hf : s.fixes[i]? = some f)
    (hle : (lines hosts).count (entry d) + (g.domains s.files.script).count d ≤
      (lines s.files.hosts).count (entry d) + (f.domains s.files.script).count d) :
    (lines hosts).count (entry d) + pending s.files.script (s.fixes.set i g) d ≤
      (lines before).count (entry d) + 1 := by
  have moved := pending_set s.files.script g d hf
  have bound := hs.total d
  omega

theorem counted_fix (hs : Counted L before s) {i : ℕ} {p : Phase}
    (h : step L s (.fix i p) = some u) : Counted L before u := by
  have shown := shown_step hs.shown h
  obtain ⟨f, g, w, hf, hn, hu⟩ := step_fix h
  subst hu
  have mem := List.mem_of_getElem? hf
  rcases fix_next hn with ⟨domains, rfl, rfl, rfl⟩ | ⟨rfl, rfl, rfl⟩ |
    ⟨domains, other, rfl, rfl, rfl⟩ | ⟨rfl, rfl⟩
  · -- no other fix is to read the script that is overwritten
    have alone := hs.unread.not_launching hf
    have lit : Literal L domains := hs.lit mem (by simp)
    refine ⟨shown, ?_, hs.unread.set hf fun _ => rfl, hs.kept, ?_⟩
    · intro k hk
      rcases List.mem_or_eq_of_mem_set hk with hk | rfl
      · have old := hs.literal k hk
        rw [domains_script (fun heq => alone (heq ▸ hk)) s.files.script domains] at old
        exact old
      · exact Or.inr lit
    · intro d
      have moved := pending_set domains .launching d hf
      have same := pending_script alone domains s.files.script d
      have bound := hs.total d
      change (lines s.files.hosts).count (entry d) +
        pending domains (s.fixes.set i .launching) d ≤ _
      change _ + domains.count d = _ + domains.count d at moved
      omega
  · have lit : Literal L s.files.script := hs.lit mem (by simp)
    exact ⟨shown, hs.literal_set (Or.inr lit), hs.unread.set hf fun h => (by cases h), hs.kept,
      fun d => hs.total_set hf (le_refl _)⟩
  · have lit : Literal L domains := hs.lit mem (by simp)
    have count : ∀ d, (lines (execute L domains s.files.hosts other)).count (entry d) =
        (lines s.files.hosts).count (entry d) + domains.count d := by
      intro d
      rw [execute_literal lit, count_appended _ d lit.ne_nil lit.scanned]
    refine ⟨shown, hs.literal_set (Or.inl rfl), hs.unread.set hf fun h => (by cases h),
      fun d => ?_, fun d => hs.total_set hf ?_⟩
    · change _ ≤ (lines (execute L domains s.files.hosts other)).count (entry d)
      rw [count]
      exact (hs.kept d).trans (Nat.le_add_right _ _)
    · change (lines (execute L domains s.files.hosts other)).count (entry d) + 0 ≤ _
      rw [count]
      exact le_refl _
  · exact ⟨shown, hs.literal_set (Or.inl rfl), hs.unread.set hf fun h => (by cases h), hs.kept,
      fun d => hs.total_set hf (Nat.add_le_add_left (Nat.zero_le _) _)⟩

theorem counted_step {a : Action} (hs : Counted L before s) (ok : CarefulClicks L before s a)
    (h : step L s a = some u) : Counted L before u := by
  have shown := shown_step hs.shown h
  cases a with
  | build =>
    cases h
    exact ⟨shown, hs.literal, hs.unread, hs.kept, hs.total⟩
  | evaluate i p =>
    obtain ⟨_, _, _, _, hu⟩ := step_evaluate h
    subst hu
    exact ⟨shown, hs.literal, hs.unread, hs.kept, hs.total⟩
  | deliver i =>
    obtain ⟨_, _, _, _, hu⟩ := step_deliver h
    subst hu
    exact ⟨shown, hs.literal, hs.unread, hs.kept, hs.total⟩
  | click => exact counted_click hs (ok rfl) h
  | fix i p => exact counted_fix hs h

theorem counted_run {hosts : Text} {script : List Text} {as : List Action}
    (run : Runs (step L) (CarefulClicks L hosts) (opened hosts script) as s) :
    Counted L hosts s :=
  run.invariant (Counted L hosts) (counted_opened hosts script)
    fun _ _ _ hs ok h => counted_step hs ok h

def Unclicked : State → Action → Prop := fun _ a => a ≠ .click

theorem phase {i : ℕ} {f g : Fix} {w : Files} (p : Phase) (hf : s.fixes[i]? = some f)
    (h : f.next L s.files p = some (w, g)) :
    ∃ u, Runs (step L) Unclicked s [.fix i p] u ∧ u.files = w ∧ u.missing = s.missing ∧
      u.fixes[i]? = some g ∧ ∀ j, j ≠ i → u.fixes[j]? = s.fixes[j]? := by
  have hs : step L s (.fix i p) = some { s with files := w, fixes := s.fixes.set i g } := by
    simp [step, hf, h]
  refine ⟨_, .single (fun h => (by cases h)) hs, rfl, rfl, ?_, fun j hj => ?_⟩
  · exact List.getElem?_set_self (List.getElem?_eq_some_iff.mp hf).1
  · exact List.getElem?_set_ne (Ne.symm hj)

theorem append_entries {i : ℕ} {domains : List Text} (hf : s.fixes[i]? = some (.running domains))
    (lit : Literal L domains) (d : Text) :
    ∃ u, Runs (step L) Unclicked s [.fix i (.append [])] u ∧ u.missing = s.missing ∧
      (lines u.files.hosts).count (entry d) =
        (lines s.files.hosts).count (entry d) + domains.count d ∧
      ∀ j, j ≠ i → u.fixes[j]? = s.fixes[j]? := by
  obtain ⟨u, run, files, missing, _, others⟩ := phase (.append []) hf (L := L) rfl
  refine ⟨u, run, missing, ?_, others⟩
  rw [files]
  change (lines (execute L domains s.files.hosts [])).count (entry d) = _
  rw [execute_literal lit, count_appended _ d lit.ne_nil lit.scanned]

theorem launched {n : ℕ} {domains : List Text} (hf : s.fixes[n]? = some (.writing domains)) :
    ∃ as u, Runs (step L) Unclicked s as u ∧ u.files.hosts = s.files.hosts ∧
      u.files.script = domains ∧ u.fixes[n]? = some (.running domains) ∧
      ∀ j, j ≠ n → u.fixes[j]? = s.fixes[j]? := by
  obtain ⟨v, write, vfiles, _, vn, vothers⟩ := phase .write hf (L := L) rfl
  obtain ⟨u, launch, ufiles, _, un, uothers⟩ := phase .launch vn (L := L) rfl
  rw [vfiles] at ufiles un
  exact ⟨_, u, write.trans launch, by rw [ufiles], by rw [ufiles], un,
    fun j hj => (uothers j hj).trans (vothers j hj)⟩

theorem unread_launching {i : ℕ} {f : Fix} (hf : s.fixes[i]? = some f) (hu : f.unread = true) :
    ∃ as u, Runs (step L) Unclicked s as u ∧ u.files.hosts = s.files.hosts ∧
      u.fixes[i]? = some .launching ∧ ∀ j, j ≠ i → u.fixes[j]? = s.fixes[j]? := by
  cases f with
  | writing domains =>
    obtain ⟨u, write, files, _, ui, others⟩ := phase .write hf (L := L) rfl
    exact ⟨_, u, write, by rw [files], ui, others⟩
  | launching => exact ⟨[], s, .refl s, rfl, hf, fun _ _ => rfl⟩
  | running _ => cases hu
  | returned => cases hu

theorem appended_twice {i n : ℕ} {a b : List Text} {d : Text} (hi : s.fixes[i]? = some (.running a))
    (hn : s.fixes[n]? = some (.running b)) (hin : i ≠ n) (la : Literal L a) (lb : Literal L b)
    (da : d ∈ a) (db : d ∈ b) :
    ∃ as u, Runs (step L) Unclicked s as u ∧
      (lines s.files.hosts).count (entry d) + 2 ≤ (lines u.files.hosts).count (entry d) := by
  obtain ⟨v, first, _, vcount, vothers⟩ := append_entries hi la d
  rw [← vothers n hin.symm] at hn
  obtain ⟨u, second, _, ucount, _⟩ := append_entries hn lb d
  have pa : 0 < a.count d := List.count_pos_iff.mpr da
  have pb : 0 < b.count d := List.count_pos_iff.mpr db
  exact ⟨_, u, first.trans second, by omega⟩

def Doubles (L : Lexer) (before : Text) (domains : List Text) (s : State) : Prop :=
  ∃ as u, Runs (step L) Unclicked s as u ∧ ∃ d ∈ domains, 2 ≤ added before u d

theorem doubles_of_count {domains : List Text} {d : Text} {as : List Action} (hd : d ∈ domains)
    (run : Runs (step L) Unclicked s as u)
    (count : (lines before).count (entry d) + 2 ≤ (lines u.files.hosts).count (entry d)) :
    Doubles L before domains s := by
  refine ⟨as, u, run, d, hd, ?_⟩
  unfold added
  omega

section
variable {n : ℕ} {domains : List Text} (hn : s.fixes[n]? = some (.writing domains))
  (lit : Literal L domains)
include hn lit

theorem doubles_present {d : Text} (hd : d ∈ domains)
    (present : (lines before).count (entry d) + 1 ≤ (lines s.files.hosts).count (entry d)) :
    Doubles L before domains s := by
  obtain ⟨as, w, run, whosts, _, last, _⟩ := launched hn (L := L)
  obtain ⟨u, append, _, count, _⟩ := append_entries last lit d
  have pos : 0 < domains.count d := List.count_pos_iff.mpr hd
  rw [whosts] at count
  exact doubles_of_count hd (run.trans append) (by omega)

theorem doubles_running {i : ℕ} {a : List Text} {d : Text} (hin : i ≠ n)
    (hi : s.fixes[i]? = some (.running a)) (la : Literal L a) (da : d ∈ a) (hd : d ∈ domains)
    (kept : (lines before).count (entry d) ≤ (lines s.files.hosts).count (entry d)) :
    Doubles L before domains s := by
  obtain ⟨as, w, run, whosts, _, last, others⟩ := launched hn (L := L)
  rw [← others i hin] at hi
  obtain ⟨bs, u, appends, count⟩ := appended_twice hi last hin la lit da hd
  rw [whosts] at count
  exact doubles_of_count hd (run.trans appends) (by omega)

theorem doubles_unread {i : ℕ} {f : Fix} (hin : i ≠ n) (hi : s.fixes[i]? = some f)
    (hf : f.unread = true)
    (kept : ∀ d, (lines before).count (entry d) ≤ (lines s.files.hosts).count (entry d)) :
    Doubles L before domains s := by
  obtain ⟨as, x, first, xhosts, xi, xothers⟩ := unread_launching hi hf (L := L)
  rw [← xothers _ hin.symm] at hn
  obtain ⟨bs, w, run, whosts, wscript, last, others⟩ := launched hn (L := L)
  rw [← others i hin] at xi
  obtain ⟨y, launch, yfiles, _, yi, yothers⟩ := phase .launch xi (L := L) rfl
  rw [← yothers _ hin.symm] at last
  rw [wscript] at yi
  obtain ⟨d, rest, hd⟩ := List.exists_cons_of_ne_nil lit.ne_nil
  have mem : d ∈ domains := by simp [hd]
  obtain ⟨cs, u, appends, count⟩ := appended_twice yi last hin lit lit mem mem
  have bound := kept d
  rw [yfiles, whosts, xhosts] at count
  exact doubles_of_count mem (((first.trans run).trans launch).trans appends) (by omega)
end

theorem careless_click (hs : Counted L before s) (hne : s.missing ≠ [])
    (plain : ∀ d ∈ s.missing, L.plain d = true) (hc : ¬ Careful L before s) :
    ∃ v, step L s .click = some v ∧ Doubles L before s.missing v := by
  have lit : Literal L s.missing := ⟨hne, hs.shown.missing, plain⟩
  refine ⟨{ s with fixes := s.fixes ++ [.writing s.missing] }, ?_, ?_⟩
  · simp [step, fixMissingDomains, hne]
  generalize hv : { s with fixes := s.fixes ++ [Fix.writing s.missing] } = v
  have hosts : v.files.hosts = s.files.hosts := by rw [← hv]
  have last : v.fixes[s.fixes.length]? = some (.writing s.missing) := by
    rw [← hv]
    exact List.getElem?_concat_length
  have index : ∀ f ∈ s.fixes, ∃ i, i ≠ s.fixes.length ∧ v.fixes[i]? = some f := by
    intro f hf
    obtain ⟨i, hi⟩ := List.mem_iff_getElem?.mp hf
    have lt := (List.getElem?_eq_some_iff.mp hi).1
    refine ⟨i, by omega, ?_⟩
    rw [← hv]
    exact (List.getElem?_append_left lt).trans hi
  have kept := hs.kept
  rw [← hosts] at kept
  by_cases hread : ∀ f ∈ s.fixes, f.unread = false
  · by_cases hrun : ∀ domains, .running domains ∈ s.fixes → ∀ d ∈ s.missing, d ∉ domains
    · have present : ∃ d ∈ s.missing, added before s d ≠ 0 := by
        by_contra habsent
        push Not at habsent
        exact hc ⟨plain, hread, hrun, habsent⟩
      obtain ⟨d, hd, had⟩ := present
      unfold added at had
      exact doubles_present last lit hd (by rw [hosts]; omega)
    · push Not at hrun
      obtain ⟨domains, hmem, d, hd, hdom⟩ := hrun
      obtain ⟨i, hin, hi⟩ := index _ hmem
      exact doubles_running last lit hin hi (hs.lit hmem (by simp)) hdom hd (kept d)
  · push Not at hread
    obtain ⟨f, hmem, hf⟩ := hread
    obtain ⟨i, hin, hi⟩ := index f hmem
    exact doubles_unread last lit hin hi (by simpa using hf) kept

theorem careful_of_fresh {sites : List Text}
    (fresh : s.missing = getMissingDomains s.files.hosts sites)
    (returned : ∀ f ∈ s.fixes, f = .returned) (plain : ∀ d ∈ s.missing, L.plain d = true) :
    Careful L before s := by
  refine ⟨plain, fun f hf => by rw [returned f hf]; rfl, fun domains hmem => ?_, fun d hd => ?_⟩
  · cases returned _ hmem
  · rw [fresh] at hd
    unfold added
    rw [List.count_eq_zero_of_not_mem (not_line_of_missing hd), Nat.zero_sub]
end

/-- With careful clicks every domain gets at most one entry line. A click on a literal list
    that is not careful can give a domain a second one with no further click. -/
theorem one_entry_per_domain {L : Lexer} {hosts : Text} {script : List Text} {as : List Action}
    {s : State} (run : Runs (step L) (CarefulClicks L hosts) (opened hosts script) as s) :
    (∀ d, added hosts s d ≤ 1) ∧
      (s.missing ≠ [] → (∀ d ∈ s.missing, L.plain d = true) → ¬ Careful L hosts s →
        ∃ v bs u, step L s .click = some v ∧ Runs (step L) Unclicked v bs u ∧
          ∃ d ∈ s.missing, 2 ≤ added hosts u d) := by
  have counted := counted_run run
  constructor
  · intro d
    have total := counted.total d
    unfold added
    omega
  · intro hne plain hc
    obtain ⟨v, click, bs, u, tail, doubled⟩ := careless_click counted hne plain hc
    exact ⟨v, bs, u, click, tail, doubled⟩

def sitesA : Sites := ⟨["a".toList], by decide, by decide +kernel⟩

def scanA : List Action :=
  [.build, .evaluate 0 (.read true), .evaluate 0 (.scan sitesA), .deliver 0]

def shownA : State := ⟨⟨[], []⟩, ["a.test".toList], 0, [.delivered], []⟩

theorem registers_once : ∃ as s,
    Runs (step firstParenthesis) (CarefulClicks firstParenthesis []) (opened [] []) as s ∧
      lines s.files.hosts = [[], "127.0.0.1 a.test".toList, []] ∧ ∀ d, added [] s d ≤ 1 := by
  have shown : Runs (step firstParenthesis) (CarefulClicks firstParenthesis []) (opened [] [])
      scanA shownA := by
    apply exec_runs_of _ _ _ _ _ (by decide +kernel)
    intro a ha s hc
    subst hc
    simp [scanA] at ha
  have fresh : shownA.missing = getMissingDomains shownA.files.hosts ["a.test".toList] := by
    decide +kernel
  have careful : Careful firstParenthesis [] shownA :=
    careful_of_fresh fresh (List.forall_mem_nil _) (by decide)
  have registered : Runs (step firstParenthesis) (CarefulClicks firstParenthesis [])
      { shownA with fixes := [.writing ["a.test".toList]] }
      [.fix 0 .write, .fix 0 .launch, .fix 0 (.append [])]
      ⟨⟨appended ["a.test".toList], ["a.test".toList]⟩, ["a.test".toList], 0, [.delivered],
        [.returned]⟩ := by
    apply exec_runs_of _ _ _ _ _ (by decide +kernel)
    intro a ha s hc
    subst hc
    simp at ha
  have clicked : step firstParenthesis shownA .click =
      some { shownA with fixes := [.writing ["a.test".toList]] } := rfl
  have run := shown.trans (.next (fun _ => careful) clicked registered)
  exact ⟨_, _, run, by decide +kernel, (one_entry_per_domain run).1⟩

/-- The button is clicked twice before the first fix is done. -/
theorem double_click_registers_twice : ∃ s,
    Runs (step firstParenthesis) always (opened [] [])
      (scanA ++ [.click, .click, .fix 0 .write, .fix 0 .launch, .fix 1 .write, .fix 1 .launch,
        .fix 0 (.append []), .fix 1 (.append [])]) s ∧
      added [] s "a.test".toList = 2 :=
  ⟨⟨⟨appended ["a.test".toList] ++ appended ["a.test".toList], ["a.test".toList]⟩,
    ["a.test".toList], 0, [.delivered], [.returned, .returned]⟩,
    exec_runs _ _ _ _ (by decide +kernel), by decide +kernel⟩

end Luhut.SitesCard
