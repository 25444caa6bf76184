import Luhut.HostsRedirects
import Luhut.HostsAppends

set_option autoImplicit false

/-! A read that fails, a stale list, a second click or a script overwritten before it
is read can append a domain twice or too late. None of them takes a mapping away
or maps a name that is not a site. -/
namespace Luhut.SitesCard
open HereString HostsFile HostsManager LabelledRuns TextLines

def Reports (d : Text) (a : Action) : Prop :=
  ∃ i sites, a = .evaluate i (.scan (some sites)) ∧ d ∈ scanSites (some sites.folders)

/-- Scans find folder names that are one field and plain text for PowerShell. -/
def PlainScans (L : Lexer) : State → Action → Prop :=
  fun _ a => ∀ d, Reports d a → FieldText d ∧ L.plain d = true

structure Batch (P : Text → Prop) (domains : List Text) : Prop where
  ne_nil : domains ≠ []
  mem : ∀ d ∈ domains, P d

structure Lists (P : Text → Prop) (s : State) : Prop where
  missing : ∀ d ∈ s.missing, P d
  evaluations : ∀ e ∈ s.evaluations, ∀ missing, e.data = some missing → ∀ d ∈ missing, P d
  fixes : ∀ f ∈ s.fixes, f = .returned ∨ Batch P (f.domains s.files.script)

def Grown (P : Text → Prop) (before after : Text) : Prop :=
  ∃ batches : List (List Text), (∀ b ∈ batches, Batch P b) ∧
    after = before ++ batches.flatMap appended

section
variable {L : Lexer} {P : Text → Prop} {s u : State} {i : ℕ}

theorem Batch.mono {Q : Text → Prop} {domains : List Text} (h : Batch P domains)
    (sub : ∀ d, P d → Q d) : Batch Q domains :=
  ⟨h.ne_nil, fun d hd => sub d (h.mem d hd)⟩

theorem Grown.mono {Q : Text → Prop} {before after : Text} (h : Grown P before after)
    (sub : ∀ d, P d → Q d) : Grown Q before after := by
  obtain ⟨batches, all, text⟩ := h
  exact ⟨batches, fun b hb => (all b hb).mono sub, text⟩

theorem Grown.refl (before : Text) : Grown P before before :=
  ⟨[], List.forall_mem_nil _, (List.append_nil before).symm⟩

theorem Grown.append {before after : Text} {domains : List Text} (h : Grown P before after)
    (batch : Batch P domains) : Grown P before (after ++ appended domains) := by
  obtain ⟨batches, all, rfl⟩ := h
  refine ⟨batches ++ [domains], ?_, ?_⟩
  · intro b hb
    rcases List.mem_append.mp hb with hb | hb
    · exact all b hb
    · rw [List.mem_singleton.mp hb]
      exact batch
  · rw [List.flatMap_append, List.append_assoc, List.flatMap_cons, List.flatMap_nil,
      List.append_nil]

theorem Grown.begins {before after : Text} (h : Grown P before after) : before <+: after := by
  obtain ⟨batches, _, rfl⟩ := h
  exact List.prefix_append before _

theorem resolve_batches (before name : Text) {batches : List (List Text)}
    (field : ∀ b ∈ batches, Batch FieldText b) :
    resolve (before ++ batches.flatMap appended) name =
      (resolve before name).or (if name ∈ batches.flatten then some loopback else none) := by
  induction batches generalizing before with
  | nil => exact (congrArg (resolve · name) (List.append_nil before)).trans (Option.or_none).symm
  | cons b batches ih =>
    have first := field b List.mem_cons_self
    have rest := ih (before ++ appended b) fun c hc => field c (List.mem_cons_of_mem _ hc)
    rw [List.flatMap_cons, ← List.append_assoc, rest, resolve_appended before name first.ne_nil
      first.mem, Option.or_assoc, List.flatten_cons]
    refine congrArg ((resolve before name).or) ?_
    by_cases hb : name ∈ b
    · simp [hb]
    · simp [hb]

theorem execute_batch {domains : List Text}
    (batch : Batch (fun d => FieldText d ∧ L.plain d = true) domains) (hosts other : Text) :
    execute L domains hosts other = hosts ++ appended domains := by
  refine if_pos ((carriesLiterally_entries batch.ne_nil ?_).mpr fun d hd => (batch.mem d hd).2)
  exact fun d hd c hc => ((batch.mem d hd).1.spec hc).2.2

theorem Evaluation.data_next {e g : Evaluation} {hosts : Text} {p : Progress}
    (h : e.next hosts p = some g) (reported : ∀ d, Reports d (.evaluate i p) → P d) :
    ∀ missing, g.data = some missing → ∀ d ∈ missing, P d := by
  intro missing hd d hm
  unfold Evaluation.next at h
  split at h
  · cases h
    cases hd
  · next sites =>
    cases h
    cases hd
    have scanned := List.mem_of_mem_filter hm
    cases sites with
    | none => cases scanned
    | some sites => exact reported d ⟨i, sites, rfl, scanned⟩
  · cases h
    cases hd
    cases hm
  · cases h

theorem Lists.fixes_set {script : List Text} {fixes : List Fix} {g : Fix}
    (h : ∀ f ∈ fixes, f = .returned ∨ Batch P (f.domains script))
    (hg : g = .returned ∨ Batch P (g.domains script)) :
    ∀ f ∈ fixes.set i g, f = .returned ∨ Batch P (f.domains script) := by
  intro f hf
  rcases List.mem_or_eq_of_mem_set hf with hf | rfl
  · exact h f hf
  · exact hg

theorem Fix.batch_script {f : Fix} {a b : List Text}
    (h : f = .returned ∨ Batch P (f.domains a)) (hb : Batch P b) :
    f = .returned ∨ Batch P (f.domains b) := by
  cases f with
  | launching => exact Or.inr hb
  | _ => exact h

theorem lists_fix {p : Phase} (hs : Lists P s) (h : step L s (.fix i p) = some u)
    (plain : ∀ d, P d → FieldText d ∧ L.plain d = true) :
    Lists P u ∧ (u.files.hosts = s.files.hosts ∨
      ∃ domains, Batch P domains ∧ u.files.hosts = s.files.hosts ++ appended domains) := by
  obtain ⟨f, g, w, hf, hn, hu⟩ := step_fix h
  subst hu
  have old := hs.fixes f (List.mem_of_getElem? hf)
  rcases fix_next hn with ⟨domains, rfl, rfl, rfl⟩ | ⟨rfl, rfl, rfl⟩ |
    ⟨domains, other, rfl, rfl, rfl⟩ | ⟨rfl, rfl⟩
  · have batch : Batch P domains := old.resolve_left (by simp)
    refine ⟨⟨hs.missing, hs.evaluations, ?_⟩, Or.inl rfl⟩
    exact Lists.fixes_set (fun k hk => Fix.batch_script (hs.fixes k hk) batch) (Or.inr batch)
  · have batch : Batch P s.files.script := old.resolve_left (by simp)
    exact ⟨⟨hs.missing, hs.evaluations, Lists.fixes_set hs.fixes (Or.inr batch)⟩, Or.inl rfl⟩
  · have batch : Batch P domains := old.resolve_left (by simp)
    refine ⟨⟨hs.missing, hs.evaluations, Lists.fixes_set hs.fixes (Or.inl rfl)⟩, Or.inr ?_⟩
    exact ⟨domains, batch, execute_batch (batch.mono plain) s.files.hosts other⟩
  · exact ⟨⟨hs.missing, hs.evaluations, Lists.fixes_set hs.fixes (Or.inl rfl)⟩, Or.inl rfl⟩

theorem lists_step {a : Action} (hs : Lists P s) (h : step L s a = some u)
    (plain : ∀ d, P d → FieldText d ∧ L.plain d = true) (reported : ∀ d, Reports d a → P d) :
    Lists P u ∧ (u.files.hosts = s.files.hosts ∨
      ∃ domains, Batch P domains ∧ u.files.hosts = s.files.hosts ++ appended domains) := by
  cases a with
  | build =>
    cases h
    refine ⟨⟨hs.missing, fun e he => ?_, hs.fixes⟩, Or.inl rfl⟩
    rcases List.mem_append.mp he with he | he
    · exact hs.evaluations e he
    · intro missing hd
      rw [List.mem_singleton.mp he] at hd
      cases hd
  | evaluate j p =>
    obtain ⟨e, g, he, hg, hu⟩ := step_evaluate h
    subst hu
    refine ⟨⟨hs.missing, fun k hk => ?_, hs.fixes⟩, Or.inl rfl⟩
    rcases List.mem_or_eq_of_mem_set hk with hk | rfl
    · exact hs.evaluations k hk
    · exact Evaluation.data_next hg reported
  | deliver j =>
    obtain ⟨e, missing, he, hd, hu⟩ := step_deliver h
    subst hu
    refine ⟨⟨?_, fun k hk => ?_, hs.fixes⟩, Or.inl rfl⟩
    · change ∀ d ∈ (if j = s.subscribed then missing else s.missing), P d
      split
      · exact hs.evaluations e (List.mem_of_getElem? he) missing hd
      · exact hs.missing
    · rcases List.mem_or_eq_of_mem_set hk with hk | rfl
      · exact hs.evaluations k hk
      · intro missing hd
        cases hd
  | click =>
    obtain ⟨hne, hu⟩ := step_click h
    subst hu
    refine ⟨⟨hs.missing, hs.evaluations, fun f hf => ?_⟩, Or.inl rfl⟩
    rcases List.mem_append.mp hf with hf | hf
    · exact hs.fixes f hf
    · rw [List.mem_singleton.mp hf]
      exact Or.inr ⟨hne, hs.missing⟩
  | fix j p => exact lists_fix hs h plain

theorem lists_opened (hosts : Text) (script : List Text) : Lists P (opened hosts script) :=
  ⟨List.forall_mem_nil _, List.forall_mem_nil _, List.forall_mem_nil _⟩

theorem grown_run {allow : State → Action → Prop} {as : List Action}
    (run : Runs (step L) allow s as u) (hs : Lists P s)
    (plain : ∀ d, P d → FieldText d ∧ L.plain d = true)
    (reported : ∀ v a, allow v a → ∀ d, Reports d a → P d) :
    Lists P u ∧ Grown P s.files.hosts u.files.hosts := by
  refine run.invariant (fun v => Lists P v ∧ Grown P s.files.hosts v.files.hosts)
    ⟨hs, .refl _⟩ ?_
  intro v a w hv ok h
  obtain ⟨lists, same | ⟨domains, batch, more⟩⟩ := lists_step hv.1 h plain (reported v a ok)
  · exact ⟨lists, same ▸ hv.2⟩
  · exact ⟨lists, more ▸ hv.2.append batch⟩

theorem grown_between {hosts : Text} {script : List Text} {as bs : List Action}
    (first : Runs (step L) (PlainScans L) (opened hosts script) as s)
    (later : Runs (step L) (PlainScans L) s bs u) :
    Grown (fun d => FieldText d ∧ ∃ a ∈ as ++ bs, Reports d a) s.files.hosts u.files.hosts := by
  let P := fun d => (FieldText d ∧ L.plain d = true) ∧ ∃ a ∈ as ++ bs, Reports d a
  have plain : ∀ d, P d → FieldText d ∧ L.plain d = true := fun d hd => hd.1
  have lists : Lists P s := (grown_run first.labels (lists_opened hosts script) plain
    fun v a ok d hd => ⟨ok.1 d hd, a, List.mem_append_left bs ok.2, hd⟩).1
  have grown := (grown_run later.labels lists plain
    fun v a ok d hd => ⟨ok.1 d hd, a, List.mem_append_right as ok.2, hd⟩).2
  exact grown.mono fun d hd => ⟨hd.1.1, hd.2⟩

theorem Grown.resolve {before after : Text} (h : Grown (fun d => FieldText d ∧ P d) before after)
    (name : Text) : resolve after name = resolve before name ∨
      resolve before name = none ∧ resolve after name = some loopback ∧ P name := by
  obtain ⟨batches, all, rfl⟩ := h
  rw [resolve_batches before name fun b hb => (all b hb).mono fun d hd => hd.1]
  cases HostsFile.resolve before name with
  | some address => exact Or.inl rfl
  | none =>
    by_cases hname : name ∈ batches.flatten
    · obtain ⟨b, hb, hd⟩ := List.mem_flatten.mp hname
      exact Or.inr ⟨rfl, by rw [if_pos hname]; rfl, ((all b hb).mem name hd).2⟩
    · exact Or.inl (by rw [if_neg hname]; rfl)

/-- In a run whose scans find plain folder names, between any two moments: the file
    keeps its text in front, every mapped name keeps its address, and a name that
    gets one is a domain of a scan and gets the loopback address. -/
theorem hosts_grows_by_sites {hosts : Text} {script : List Text} {as bs : List Action}
    (first : Runs (step L) (PlainScans L) (opened hosts script) as s)
    (later : Runs (step L) (PlainScans L) s bs u) :
    s.files.hosts <+: u.files.hosts ∧
      ∀ name, resolve u.files.hosts name = resolve s.files.hosts name ∨
        resolve s.files.hosts name = none ∧ resolve u.files.hosts name = some loopback ∧
          ∃ a ∈ as ++ bs, Reports name a := by
  have grown := grown_between first later
  exact ⟨grown.begins, grown.resolve⟩
end

def reported : Action → List Text
  | .evaluate _ (.scan (some sites)) => scanSites (some sites.folders)
  | _ => []

theorem mem_reported {d : Text} {a : Action} (h : Reports d a) : d ∈ reported a := by
  obtain ⟨i, sites, rfl, hd⟩ := h
  exact hd

theorem plainScans_of {L : Lexer} {as : List Action}
    (plain : ∀ a ∈ as, ∀ d ∈ reported a, FieldText d ∧ L.plain d = true) :
    ∀ a ∈ as, ∀ s, PlainScans L s a :=
  fun a ha _ d hd => plain a ha d (mem_reported hd)

def sitesOfTwo : Sites := ⟨["crm".toList, "shop".toList], by decide, by decide +kernel⟩

def showTwo : List Action :=
  [.build, .evaluate 0 (.read false), .evaluate 0 (.scan (some sitesOfTwo)), .deliver 0]

theorem hosts_grows_unreadable : ∃ u,
    Runs (step firstParenthesis) (PlainScans firstParenthesis)
        (opened "10.0.0.5 crm.test".toList [])
        (showTwo ++ [.click, .fix 0 .write, .fix 0 .launch, .fix 0 (.append [])]) u ∧
      lines u.files.hosts = ["10.0.0.5 crm.test".toList, "127.0.0.1 crm.test".toList,
        "127.0.0.1 shop.test".toList, []] ∧
      resolve u.files.hosts "crm.test".toList = some "10.0.0.5".toList := by
  have shown : Runs (step firstParenthesis) (PlainScans firstParenthesis)
      (opened "10.0.0.5 crm.test".toList []) showTwo
      ⟨⟨"10.0.0.5 crm.test".toList, []⟩, ["crm.test".toList, "shop.test".toList], 0,
        [.delivered], []⟩ :=
    exec_runs_of _ _ _ _ (plainScans_of (by decide +kernel)) (by decide +kernel)
  have registered : Runs (step firstParenthesis) (PlainScans firstParenthesis)
      ⟨⟨"10.0.0.5 crm.test".toList, []⟩, ["crm.test".toList, "shop.test".toList], 0,
        [.delivered], []⟩
      [.click, .fix 0 .write, .fix 0 .launch, .fix 0 (.append [])]
      ⟨⟨"10.0.0.5 crm.test".toList ++ appended ["crm.test".toList, "shop.test".toList],
        ["crm.test".toList, "shop.test".toList]⟩, ["crm.test".toList, "shop.test".toList], 0,
        [.delivered], [.returned]⟩ :=
    exec_runs_of _ _ _ _ (plainScans_of (by decide +kernel)) (by decide +kernel)
  refine ⟨_, shown.trans registered, by decide +kernel, ?_⟩
  have mapped : resolve "10.0.0.5 crm.test".toList "crm.test".toList =
      some "10.0.0.5".toList := by decide +kernel
  rcases (hosts_grows_by_sites shown registered).2 "crm.test".toList with same | ⟨none, _⟩
  · exact same.trans mapped
  · cases none.symm.trans mapped

end Luhut.SitesCard
