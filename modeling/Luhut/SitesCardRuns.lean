import Luhut.HostsGrowth

set_option autoImplicit false

/-! The list on the card stays while evaluations come and go; the script of a fix lies
in a file that the next fix writes too. -/
namespace Luhut.SitesCard
open HereString HostsFile HostsManager LabelledRuns TextLines

def Shows (s : State) (a : Action) : Prop := a = .deliver s.subscribed

/-- The list has only sites of the scan, and leaves out only those in the file. -/
structure Covers (sites : Option Sites) (hosts : Text) (missing : List Text) : Prop where
  scanned : ∀ d ∈ missing, d ∈ scanSites (sites.map (·.folders))
  others : ∀ d ∈ scanSites (sites.map (·.folders)), d ∈ missing ∨ entry d <:+: hosts

/-- What is known of the evaluation `i` after the actions; a text that could not be
    read is empty. -/
def Evaluated (hosts : Text) (as : List Action) (i : ℕ) : Evaluation → Prop
  | .scanning currentHosts => currentHosts <+: hosts
  | .returned missing =>
    ∃ sites, Action.evaluate i (.scan sites) ∈ as ∧ Covers sites hosts missing
  | .thrown => Action.evaluate i .throw ∈ as
  | _ => True

def Written (L : Lexer) (d : Text) : Prop := FieldText d ∧ L.plain d = true

structure Followed (L : Lexer) (as : List Action) (s : State) : Prop where
  lists : Lists (Written L) s
  evaluated : ∀ i e, s.evaluations[i]? = some e → Evaluated s.files.hosts as i e

section
variable {L : Lexer} {s u : State} {as : List Action} {i : ℕ}

theorem Covers.mono {sites : Option Sites} {hosts after : Text} {missing : List Text}
    (h : Covers sites hosts missing) (grown : hosts <+: after) : Covers sites after missing :=
  ⟨h.scanned, fun d hd => (h.others d hd).imp id fun stands => stands.trans grown.isInfix⟩

theorem Evaluated.mono {hosts after : Text} {e : Evaluation} (h : Evaluated hosts as i e)
    (grown : hosts <+: after) (a : Action) : Evaluated after (as ++ [a]) i e := by
  cases e with
  | scanning currentHosts => exact List.IsPrefix.trans h grown
  | returned missing =>
    obtain ⟨sites, hmem, covers⟩ := h
    exact ⟨sites, List.mem_append_left _ hmem, covers.mono grown⟩
  | thrown => exact List.mem_append_left _ h
  | reading | delivered => trivial

theorem covers_missing {hosts currentHosts : Text} (h : currentHosts <+: hosts)
    (sites : Option Sites) :
    Covers sites hosts (getMissingDomains currentHosts (scanSites (sites.map (·.folders)))) := by
  constructor
  · exact fun d hd => List.mem_of_mem_filter hd
  · intro d hd
    by_cases stands : entry d <:+: currentHosts
    · exact Or.inr (stands.trans h.isInfix)
    · exact Or.inl (List.mem_filter.mpr ⟨hd, by simpa using stands⟩)

theorem evaluated_next {hosts : Text} {e g : Evaluation} {p : Progress}
    (h : Evaluated hosts as i e) (hn : e.next hosts p = some g) :
    Evaluated hosts (as ++ [.evaluate i p]) i g := by
  have last : Action.evaluate i p ∈ as ++ [.evaluate i p] :=
    List.mem_append_right as (List.mem_singleton_self _)
  unfold Evaluation.next at hn
  split at hn
  · next ok =>
    cases hn
    cases ok with
    | true => exact List.prefix_refl hosts
    | false => exact List.nil_prefix
  · next sites =>
    cases hn
    exact ⟨sites, last, covers_missing h sites⟩
  · cases hn
    exact last
  · cases hn

theorem followed_step {a : Action} (hs : Followed L as s) (ok : PlainScans L s a)
    (h : step L s a = some u) : Followed L (as ++ [a]) u := by
  obtain ⟨lists, grown⟩ := lists_step hs.lists h (fun d hd => hd) ok
  have longer : s.files.hosts <+: u.files.hosts := by
    rcases grown with same | ⟨domains, _, more⟩
    · exact same ▸ List.prefix_refl _
    · exact more ▸ List.prefix_append _ _
  refine ⟨lists, fun j e he => ?_⟩
  have old : s.evaluations[j]? = some e → Evaluated u.files.hosts (as ++ [a]) j e :=
    fun held => (hs.evaluated j e held).mono longer a
  cases a with
  | build =>
    cases h
    rcases lt_or_ge j s.evaluations.length with hj | hj
    · exact old ((List.getElem?_append_left hj).symm.trans he)
    · change (s.evaluations ++ [Evaluation.reading])[j]? = some e at he
      rw [List.getElem?_append_right hj] at he
      rw [List.mem_singleton.mp (List.mem_of_getElem? he)]
      trivial
  | evaluate k p =>
    obtain ⟨f, g, hf, hg, hu⟩ := step_evaluate h
    subst hu
    change (s.evaluations.set k g)[j]? = some e at he
    by_cases hk : k = j
    · subst hk
      rw [List.getElem?_set_self (List.getElem?_eq_some_iff.mp hf).1] at he
      cases he
      exact evaluated_next (hs.evaluated k f hf) hg
    · rw [List.getElem?_set_ne hk] at he
      exact old he
  | deliver k =>
    obtain ⟨f, missing, hf, hd, hu⟩ := step_deliver h
    subst hu
    change (s.evaluations.set k .delivered)[j]? = some e at he
    by_cases hk : k = j
    · subst hk
      rw [List.getElem?_set_self (List.getElem?_eq_some_iff.mp hf).1] at he
      cases he
      trivial
    · rw [List.getElem?_set_ne hk] at he
      exact old he
  | click =>
    obtain ⟨_, hu⟩ := step_click h
    subst hu
    exact old he
  | fix k p =>
    obtain ⟨f, g, w, _, _, hu⟩ := step_fix h
    subst hu
    exact old he

theorem followed_run {hosts : Text} {script : List Text}
    (run : Runs (step L) (PlainScans L) (opened hosts script) as s) : Followed L as s := by
  refine run.history ⟨lists_opened hosts script, fun i e he => ?_⟩
    fun _ _ _ _ _ followed ok h => followed_step followed ok h
  cases he

theorem missing_step {a : Action} (quiet : ¬ Shows s a) (h : step L s a = some u) :
    u.missing = s.missing := by
  cases a with
  | build =>
    cases h
    rfl
  | evaluate k p =>
    obtain ⟨_, _, _, _, hu⟩ := step_evaluate h
    rw [hu]
  | deliver k =>
    obtain ⟨_, _, _, _, hu⟩ := step_deliver h
    rw [hu]
    exact if_neg fun hk => quiet (congrArg Action.deliver hk)
  | click =>
    obtain ⟨_, hu⟩ := step_click h
    rw [hu]
  | fix k p =>
    obtain ⟨_, _, _, _, _, hu⟩ := step_fix h
    rw [hu]

abbrev Quiet (L : Lexer) (s : State) (as : List Action) (u : State) : Prop :=
  Runs (step L) (fun v a => PlainScans L v a ∧ ¬ Shows v a) s as u

theorem missing_quiet (run : Quiet L s as u) : u.missing = s.missing :=
  run.invariant (fun v => v.missing = s.missing) rfl
    fun _ _ _ same ok h => (missing_step ok.2 h).trans same

/-- The result of evaluation `i`, which is known after `before`, is the last one that
    was put on the card. -/
def LastShown (L : Lexer) (start : State) (as : List Action) (s : State) (before : List Action)
    (i : ℕ) : Prop :=
  ∃ after m w, as = before ++ .deliver i :: after ∧ m.subscribed = i ∧
    Runs (step L) (PlainScans L) start before m ∧ step L m (.deliver i) = some w ∧
    Quiet L w after s

/-- In a run whose scans find plain folder names the card shows nothing yet, or the
    sites that its last evaluation found: of those that the scan of this evaluation
    found, each is on the card or stands in the file by now. -/
theorem card_hides_no_site {hosts : Text} {script : List Text}
    (run : Runs (step L) (PlainScans L) (opened hosts script) as s) :
    s.missing = [] ∧ Quiet L (opened hosts script) as s ∨
      ∃ before i, LastShown L (opened hosts script) as s before i ∧
        (s.missing = [] ∧ .evaluate i .throw ∈ before ∨
          ∃ sites, .evaluate i (.scan sites) ∈ before ∧ Covers sites s.files.hosts s.missing) := by
  rcases run.split_last Shows with quiet | ⟨before, a, after, m, w, rfl, first, ok, rfl, hw, later⟩
  · exact Or.inl ⟨missing_quiet quiet, quiet⟩
  · have followed := followed_run first
    obtain ⟨e, missing, he, hd, hu⟩ := step_deliver hw
    have shown : s.missing = missing := by
      rw [missing_quiet later, hu]
      exact if_pos rfl
    have onward := Runs.next ok hw (later.mono fun _ _ quiet => quiet.1)
    have grown : m.files.hosts <+: s.files.hosts := (grown_between first onward).begins
    refine Or.inr ⟨before, m.subscribed, ⟨after, m, w, rfl, rfl, first, hw, later⟩, ?_⟩
    have known := followed.evaluated m.subscribed e he
    cases e with
    | returned list =>
      cases hd
      obtain ⟨sites, hmem, covers⟩ := known
      exact Or.inr ⟨sites, hmem, shown ▸ covers.mono grown⟩
    | thrown =>
      cases hd
      exact Or.inl ⟨shown, known⟩
    | reading | scanning _ | delivered => cases hd

theorem card_hides_no_site_shop : ∃ s before i,
    LastShown firstParenthesis (opened "127.0.0.1 crm.test".toList []) [.build,
      .evaluate 0 (.read true), .evaluate 0 (.scan (some sitesOfTwo)), .deliver 0] s before i ∧
      ∃ sites, .evaluate i (.scan sites) ∈ before ∧
        Covers sites s.files.hosts ["shop.test".toList] := by
  have run : Runs (step firstParenthesis) (PlainScans firstParenthesis)
      (opened "127.0.0.1 crm.test".toList []) [.build, .evaluate 0 (.read true),
        .evaluate 0 (.scan (some sitesOfTwo)), .deliver 0]
      ⟨⟨"127.0.0.1 crm.test".toList, []⟩, ["shop.test".toList], 0, [.delivered], []⟩ :=
    exec_runs_of _ _ _ _ (plainScans_of (by decide +kernel)) (by decide +kernel)
  rcases card_hides_no_site run with ⟨none, _⟩ | ⟨before, i, last, ⟨none, _⟩ | shown⟩
  · cases none
  · cases none
  · exact ⟨_, before, i, last, shown⟩

/-- No other fix writes the script while fix `i` is to launch it, and fix `i` does not
    fail. -/
def InTurn (i : ℕ) (s : State) : Action → Prop
  | .fix j .write => j ≠ i → s.fixes[i]? ≠ some .launching
  | .fix j .fail => j ≠ i
  | _ => True

/-- How far fix `i` of the domains has come. -/
inductive Registering (i : ℕ) (domains : List Text) (s : State) : Prop where
  | writing (h : s.fixes[i]? = some (.writing domains))
  | launching (h : s.fixes[i]? = some .launching) (script : s.files.script = domains)
  | running (h : s.fixes[i]? = some (.running domains))
  | registered (h : s.fixes[i]? = some .returned)
      (stands : ∀ d ∈ domains, entry d ∈ lines s.files.hosts)

theorem fixes_step {a : Action} {f : Fix} (hf : s.fixes[i]? = some f) (h : step L s a = some u)
    (other : ∀ p, a ≠ .fix i p) : u.fixes[i]? = some f := by
  cases a with
  | build =>
    cases h
    exact hf
  | evaluate k p =>
    obtain ⟨_, _, _, _, hu⟩ := step_evaluate h
    rw [hu]
    exact hf
  | deliver k =>
    obtain ⟨_, _, _, _, hu⟩ := step_deliver h
    rw [hu]
    exact hf
  | click =>
    obtain ⟨_, hu⟩ := step_click h
    rw [hu]
    exact (List.getElem?_append_left (List.getElem?_eq_some_iff.mp hf).1).trans hf
  | fix k p =>
    obtain ⟨_, _, _, _, _, hu⟩ := step_fix h
    have hk : k ≠ i := fun heq => other p (heq ▸ rfl)
    rw [hu]
    exact (List.getElem?_set_ne hk).trans hf

theorem script_step {a : Action} (h : step L s a = some u) (unwritten : ∀ k, a ≠ .fix k .write) :
    u.files.script = s.files.script := by
  cases a with
  | build =>
    cases h
    rfl
  | evaluate k p =>
    obtain ⟨_, _, _, _, hu⟩ := step_evaluate h
    rw [hu]
  | deliver k =>
    obtain ⟨_, _, _, _, hu⟩ := step_deliver h
    rw [hu]
  | click =>
    obtain ⟨_, hu⟩ := step_click h
    rw [hu]
  | fix k p =>
    obtain ⟨f, g, w, _, hn, hu⟩ := step_fix h
    rw [hu]
    change w.script = s.files.script
    cases f with
    | writing domains =>
      cases p with
      | write => exact absurd rfl (unwritten k)
      | fail =>
        cases hn
        rfl
      | launch | append _ => cases hn
    | launching | running _ => cases p <;> cases hn <;> rfl
    | returned => cases hn

theorem lines_step {a : Action} (lists : Lists (Written L) s) (ok : PlainScans L s a)
    (h : step L s a = some u) : ∀ line ∈ lines s.files.hosts, line ∈ lines u.files.hosts := by
  intro line hline
  rcases (lists_step lists h (fun d hd => hd) ok).2 with same | ⟨domains, batch, more⟩
  · exact same ▸ hline
  · rw [more, lines_appended _ batch.ne_nil fun d hd c hc => ((batch.mem d hd).1.spec hc).2.2]
    exact List.mem_append_left _ hline

theorem registering_own {domains : List Text} {p : Phase} (lists : Lists (Written L) s)
    (inv : Registering i domains s) (ok : InTurn i s (.fix i p))
    (h : step L s (.fix i p) = some u) : Registering i domains u := by
  obtain ⟨f, g, w, hf, hn, hu⟩ := step_fix h
  have hg : u.fixes[i]? = some g := by
    rw [hu]
    exact List.getElem?_set_self (List.getElem?_eq_some_iff.mp hf).1
  have hw : u.files = w := by rw [hu]
  cases inv with
  | writing held =>
    cases hf.symm.trans held
    cases p <;> cases hn
    · exact .launching hg (by rw [hw])
    · exact absurd rfl ok
  | launching held script =>
    cases hf.symm.trans held
    cases p <;> cases hn
    · exact .running (script ▸ hg)
    · exact absurd rfl ok
  | running held =>
    cases hf.symm.trans held
    cases p <;> cases hn
    · have batch : Batch (Written L) domains :=
        (lists.fixes _ (List.mem_of_getElem? held)).resolve_left (by simp)
      refine .registered hg fun d hd => ?_
      rw [hw, execute_batch batch, lines_appended _ batch.ne_nil
        fun d hd c hc => ((batch.mem d hd).1.spec hc).2.2]
      exact List.mem_append_right _ (List.mem_append_left _ (List.mem_map_of_mem hd))
    · exact absurd rfl ok
  | registered held _ =>
    cases hf.symm.trans held
    cases hn

theorem registering_step {domains : List Text} {a : Action} (lists : Lists (Written L) s)
    (inv : Registering i domains s) (plain : PlainScans L s a) (ok : InTurn i s a)
    (h : step L s a = some u) : Registering i domains u := by
  by_cases own : ∃ p, a = .fix i p
  · obtain ⟨p, rfl⟩ := own
    exact registering_own lists inv ok h
  · have other : ∀ p, a ≠ .fix i p := fun p hp => own ⟨p, hp⟩
    cases inv with
    | writing held => exact .writing (fixes_step held h other)
    | running held => exact .running (fixes_step held h other)
    | launching held script =>
      refine .launching (fixes_step held h other) ((script_step h ?_).trans script)
      rintro k rfl
      exact ok (fun hk => other .write (hk ▸ rfl)) held
    | registered held stands =>
      exact .registered (fixes_step held h other)
        fun d hd => lines_step lists plain h _ (stands d hd)

/-- A click of Fix All whose script is not overwritten before it is launched, and which
    does not fail, registers all the domains it was clicked for, whatever the other
    fixes and evaluations do. -/
theorem click_registers {hosts : Text} {script domains : List Text} {bs : List Action}
    (first : Runs (step L) (PlainScans L) (opened hosts script) as s)
    (hi : s.fixes[i]? = some (.writing domains))
    (run : Runs (step L) (fun v a => PlainScans L v a ∧ InTurn i v a) s bs u)
    (done : u.fixes[i]? = some .returned) : ∀ d ∈ domains, entry d ∈ lines u.files.hosts := by
  have final := run.invariant (fun v => Lists (Written L) v ∧ Registering i domains v)
    ⟨(followed_run first).lists, .writing hi⟩ fun v a w inv ok h =>
      ⟨(lists_step inv.1 h (fun d hd => hd) ok.1).1, registering_step inv.1 inv.2 ok.1 ok.2 h⟩
  cases final.2 with
  | registered _ stands => exact stands
  | writing held | running held | launching held _ => cases done.symm.trans held
end

theorem click_registers_twice : ∃ u,
    Runs (step firstParenthesis) (PlainScans firstParenthesis)
        (opened "10.0.0.5 crm.test".toList [])
        (showTwo ++ [.click, .fix 0 .write, .click, .fix 1 .fail, .fix 0 .launch,
          .fix 0 (.append [])]) u ∧
      entry "shop.test".toList ∈ lines u.files.hosts := by
  have shown : Runs (step firstParenthesis) (PlainScans firstParenthesis)
      (opened "10.0.0.5 crm.test".toList []) (showTwo ++ [.click])
      ⟨⟨"10.0.0.5 crm.test".toList, []⟩, ["crm.test".toList, "shop.test".toList], 0,
        [.delivered], [.writing ["crm.test".toList, "shop.test".toList]]⟩ :=
    exec_runs_of _ _ _ _ (plainScans_of (by decide +kernel)) (by decide +kernel)
  have fixed : Runs (step firstParenthesis)
      (fun v a => PlainScans firstParenthesis v a ∧ InTurn 0 v a)
      ⟨⟨"10.0.0.5 crm.test".toList, []⟩, ["crm.test".toList, "shop.test".toList], 0,
        [.delivered], [.writing ["crm.test".toList, "shop.test".toList]]⟩
      [.fix 0 .write, .click, .fix 1 .fail, .fix 0 .launch, .fix 0 (.append [])]
      ⟨⟨"10.0.0.5 crm.test".toList ++ appended ["crm.test".toList, "shop.test".toList],
        ["crm.test".toList, "shop.test".toList]⟩, ["crm.test".toList, "shop.test".toList], 0,
        [.delivered], [.returned, .returned]⟩ := by
    refine exec_runs_of _ _ _ _ (fun a ha v => ⟨plainScans_of ?_ a ha v, ?_⟩) (by decide +kernel)
    · decide +kernel
    · simp only [List.mem_cons, List.not_mem_nil, or_false] at ha
      rcases ha with rfl | rfl | rfl | rfl | rfl
      · exact fun h => absurd rfl h
      · trivial
      · exact Nat.one_ne_zero
      · trivial
      · trivial
  refine ⟨_, shown.trans (fixed.mono fun _ _ ok => ok.1), ?_⟩
  exact click_registers shown rfl fixed rfl _ (by decide)

end Luhut.SitesCard
