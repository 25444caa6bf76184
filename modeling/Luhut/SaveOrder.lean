import Luhut.ConfigManager

set_option autoImplicit false

/-! A save whose autoStart equals the one in memory assigns `_config` when it is
issued, any other when its enable or disable call returns. From the first save
of the second kind on, the order of the assignments is open. -/
namespace Luhut.ConfigManager
open LabelledRuns InterleavedCalls

def issued (as : List (Move AppConfig)) : List AppConfig :=
  as.filterMap fun
    | .start c => some c
    | .advance _ => none

/-- The saves from the first one on that changes autoStart. -/
def fromFirstSwitch (autoStart : Bool) (cs : List AppConfig) : List AppConfig :=
  cs.dropWhile fun c => c.autoStart == autoStart

def Frame.Assigns (c : AppConfig) (f : Frame) : Prop :=
  f.assigned = true ∨ f = .launch c ∨ f = .launched c

/-- `_config` is `c`, or every call still to assign it assigns `c`. -/
structure Settling (c : AppConfig) (s : State) : Prop where
  calls : ∀ f ∈ s.calls, f.Assigns c
  config : Code.Owed (fun w => w.config = c) (fun f => f.assigned = false) s

theorem assigns_of_assigned {c : AppConfig} {s : State} (h : ∀ f ∈ s.calls, f.assigned = true) :
    ∀ f ∈ s.calls, f.Assigns c := fun f hf => Or.inl (h f hf)

theorem forall_snoc {P : Frame → Prop} {fs : List Frame} {f : Frame} (h : ∀ g ∈ fs, P g)
    (hf : P f) : ∀ g ∈ fs ++ [f], P g := by
  intro g hg
  rcases List.mem_append.mp hg with hg | hg
  · exact h g hg
  · rw [List.mem_singleton.mp hg]
    exact hf

theorem Settling.advance {c : AppConfig} {s u : State} {i : ℕ} (h : Settling c s)
    (hs : step s (.advance i) = some u) : Settling c u := by
  have moves : ∀ f g v, f ∈ s.calls → code.advance s.shared f = some (v, g) →
      g.Assigns c ∧ (s.shared.config = c → v.config = c) ∧
        (f.assigned = false → g.assigned = false ∨ v.config = c) := by
    intro f g v hf ha
    rcases h.calls f hf with hf | rfl | rfl
    · have keep := advance_assigned ha hf
      exact ⟨Or.inl keep.1, fun h => keep.2.trans h, fun h => by rw [hf] at h; cases h⟩
    · cases ha
      exact ⟨Or.inr (Or.inr rfl), id, fun _ => Or.inl rfl⟩
    · cases ha
      exact ⟨Or.inl rfl, fun _ => rfl, fun _ => Or.inr rfl⟩
  refine ⟨?_, ?_⟩
  · obtain ⟨f, g, w, hf, ha, hu⟩ := Code.step_advance_inv hs
    subst hu
    intro k hk
    rcases List.mem_or_eq_of_mem_set hk with hk | rfl
    · exact h.calls k hk
    · exact (moves f _ w (List.mem_iff_getElem?.mpr ⟨i, hf⟩) ha).1
  · exact h.config.advance (fun f g v hf ha hr => Or.inl ((moves f g v hf ha).2.1 hr))
      (fun f g v hf ha ho => (moves f g v hf ha).2.2 ho) hs

/-- What a run that is still to issue `rest` needs to end with `c`. -/
inductive Headed (c : AppConfig) : State → List AppConfig → Prop where
  | unswitched (s : State) (pre : List AppConfig) (hcalls : ∀ f ∈ s.calls, f.assigned = true)
      (hpre : ∀ d ∈ fromFirstSwitch s.shared.config.autoStart pre, d = c) :
      Headed c s (pre ++ [c])
  | switched (s : State) (rest : List AppConfig) (settling : Settling c s)
      (hrest : ∀ d ∈ rest, d = c) : Headed c s rest

theorem headed_advance {c : AppConfig} {s u : State} {rest : List AppConfig} {i : ℕ}
    (h : Headed c s rest) (hs : step s (.advance i) = some u) : Headed c u rest := by
  cases h with
  | unswitched pre hcalls hpre =>
    obtain ⟨f, g, w, hf, ha, hu⟩ := Code.step_advance_inv hs
    have keep := advance_assigned ha (hcalls f (List.mem_iff_getElem?.mpr ⟨i, hf⟩))
    subst hu
    refine .unswitched _ pre (fun k hk => ?_) ?_
    · rcases List.mem_or_eq_of_mem_set hk with hk | rfl
      · exact hcalls k hk
      · exact keep.1
    · change ∀ d ∈ fromFirstSwitch w.config.autoStart pre, d = c
      rw [keep.2]
      exact hpre
  | switched _ settling hrest => exact .switched u rest (settling.advance hs) hrest

theorem headed_start {c d : AppConfig} {s u : State} {rest : List AppConfig}
    (h : Headed c s (d :: rest)) (hs : step s (.start d) = some u) : Headed c u rest := by
  have hu : u = ⟨(save s.shared d).1, s.calls ++ [(save s.shared d).2]⟩ :=
    (Option.some.inj hs).symm
  -- a save of `c` itself leaves the run headed whatever was issued before
  have final : ∀ rest : List AppConfig, d = c → (∀ f ∈ s.calls, f.Assigns c) →
      (∀ e ∈ rest, e = c) → Headed c u rest := by
    intro rest hd hcalls hrest
    subst hd
    rcases save_cases s.shared d with ⟨_, hsave⟩ | ⟨_, hsave⟩
    · rw [hsave] at hu
      subst hu
      exact .switched _ rest ⟨forall_snoc hcalls (Or.inr (Or.inl rfl)),
        Or.inr ⟨.launch d, by simp, rfl⟩⟩ hrest
    · rw [hsave] at hu
      subst hu
      exact .switched _ rest ⟨forall_snoc hcalls (Or.inl rfl), Or.inl rfl⟩ hrest
  generalize hds : d :: rest = ds at h
  cases h with
  | switched _ settling hrest =>
    subst hds
    exact final rest (hrest d (by simp)) settling.calls fun e he => hrest e (by simp [he])
  | unswitched pre hcalls hpre =>
    cases pre with
    | nil =>
      have hcons := List.cons.inj hds
      rw [hcons.2]
      exact final [] hcons.1 (assigns_of_assigned hcalls) (by simp)
    | cons e pre =>
      have hcons := List.cons.inj hds
      have hde : d = e := hcons.1
      subst hde
      rw [hcons.2]
      by_cases ha : d.autoStart = s.shared.config.autoStart
      · have hsave : save s.shared d = assign s.shared d := by simp [save, ha]
        rw [hsave] at hu
        subst hu
        refine .unswitched _ pre (forall_snoc hcalls rfl) ?_
        change ∀ e ∈ fromFirstSwitch d.autoStart pre, e = c
        rw [ha]
        simpa [fromFirstSwitch, ha] using hpre
      · have all : ∀ e ∈ d :: pre, e = c := by simpa [fromFirstSwitch, ha] using hpre
        refine final (pre ++ [c]) (all d (by simp)) (assigns_of_assigned hcalls) fun e he => ?_
        rcases List.mem_append.mp he with he | he
        · exact all e (by simp [he])
        · exact List.mem_singleton.mp he

theorem headed_run {c : AppConfig} {s u : State} {as : List (Move AppConfig)}
    (h : Runs step always s as u) (hs : Headed c s (issued as)) : Headed c u [] := by
  induction h with
  | refl _ => exact hs
  | @next s v u a as _ hstep _ ih =>
    apply ih
    cases a with
    | start d => exact headed_start hs hstep
    | advance i => exact headed_advance hs hstep

theorem headed_config {c : AppConfig} {u : State} (h : Headed c u []) (hq : Quiescent u) :
    u.shared.config = c := by
  generalize hnil : ([] : List AppConfig) = rest at h
  cases h with
  | unswitched pre _ _ => simp at hnil
  | switched _ settling _ =>
    rcases settling.config with h | ⟨f, hf, h⟩
    · exact h
    · rw [hq f hf] at h
      cases h

theorem issued_append (as bs : List (Move AppConfig)) :
    issued (as ++ bs) = issued as ++ issued bs :=
  List.filterMap_append ..

theorem issued_starts (ds : List AppConfig) : issued (ds.map .start) = ds := by
  induction ds with
  | nil => rfl
  | cons d ds ih =>
    change d :: issued (ds.map .start) = _
    rw [ih]

theorem issued_resumes {allow : State → Move AppConfig → Prop} {s u : State}
    {as : List (Move AppConfig)} (hallow : ∀ s a, allow s a → ∃ i, a = .advance i)
    (h : Runs step allow s as u) : issued as = [] := by
  induction h with
  | refl _ => rfl
  | next ok _ _ ih =>
    obtain ⟨i, ha⟩ := hallow _ _ ok
    subst ha
    exact ih

theorem issue_all (ds : List AppConfig) (s : State) :
    ∃ u, Runs step always s (ds.map .start) u ∧
      (∀ (i : ℕ) (f : Frame), s.calls[i]? = some f → u.calls[i]? = some f) ∧
      ∀ d ∈ ds, d.autoStart ≠ s.shared.config.autoStart →
        ∃ i : ℕ, u.calls[i]? = some (.launch d) := by
  induction ds generalizing s with
  | nil => exact ⟨s, .refl s, fun _ _ h => h, fun _ h => absurd h List.not_mem_nil⟩
  | cons e ds ih =>
    let v : State := ⟨(save s.shared e).1, s.calls ++ [(save s.shared e).2]⟩
    obtain ⟨u, run, keep, waits⟩ := ih v
    have same : v.shared.config.autoStart = s.shared.config.autoStart := by
      rcases save_cases s.shared e with ⟨_, hs⟩ | ⟨ha, hs⟩
      · simp [v, hs]
      · simp [v, hs, assign, ha]
    refine ⟨u, .next trivial rfl run, fun i f hf => ?_, fun d hd ha => ?_⟩
    · apply keep
      rw [List.getElem?_append_left (List.getElem?_eq_some_iff.mp hf).1]
      exact hf
    · rcases List.mem_cons.mp hd with rfl | hd
      · refine ⟨s.calls.length, keep _ _ ?_⟩
        have hs : save s.shared d = (s.shared, .launch d) := by simp [save, Ne.symm ha]
        simp [v, hs]
      · exact waits d hd (by rw [same]; exact ha)

theorem overtakes {u : State} {i : ℕ} {d : AppConfig} (h : u.calls[i]? = some (.launch d)) :
    ∃ as r, Runs step always u as r ∧ issued as = [] ∧ Quiescent r ∧ r.shared.config = d := by
  obtain ⟨as, bs, q, r, g, others, _, _, alone, hg, only, quiet⟩ := terminates.last h
  refine ⟨as ++ bs, r, (others.mono fun _ _ _ => trivial).trans (only.mono fun _ _ _ => trivial),
    ?_, quiescent_iff.mpr quiet, launch_alone alone hg⟩
  rw [issued_append, issued_resumes (fun _ _ ⟨j, _, ha⟩ => ⟨j, ha⟩) others,
    issued_resumes (fun _ _ ha => ⟨i, ha⟩) only, List.append_nil]

theorem assigns_first {u : State} {i : ℕ} {c : AppConfig} (h : u.calls[i]? = some (.launch c)) :
    ∃ v, Runs step always u [.advance i, .advance i] v ∧ v.shared.config = c := by
  have hi := (List.getElem?_eq_some_iff.mp h).1
  let w : World := { u.shared with launchAtStartup := c.autoStart }
  have first : step u (.advance i) = some ⟨w, u.calls.set i (.launched c)⟩ :=
    Code.step_advance h rfl
  have second : step ⟨w, u.calls.set i (.launched c)⟩ (.advance i) =
      some ⟨{ w with config := c }, (u.calls.set i (.launched c)).set i .create⟩ :=
    Code.step_advance (List.getElem?_set_self hi) rfl
  exact ⟨_, .next trivial first (.single trivial second), rfl⟩

/-- A save that still waits can have the last word. -/
theorem last_word {s₀ u : State} {bs : List (Move AppConfig)} {cs : List AppConfig}
    {c e : AppConfig} {i : ℕ} (run : Runs step always s₀ bs u) (hbs : issued bs = cs)
    (hi : u.calls[i]? = some (.launch e)) (he : e ≠ c) :
    ∃ as s, Runs step always s₀ as s ∧ issued as = cs ∧ Quiescent s ∧ s.shared.config ≠ c := by
  obtain ⟨as, r, more, has, quiet, hr⟩ := overtakes hi
  refine ⟨bs ++ as, r, run.trans more, ?_, quiet, ?_⟩
  · rw [issued_append, hbs, has, List.append_nil]
  · rw [hr]
    exact he

theorem fromFirstSwitch_cons {b : Bool} {cs rest : List AppConfig} {e : AppConfig}
    (h : fromFirstSwitch b cs = e :: rest) :
    e.autoStart ≠ b ∧ ∃ pre, pre ++ e :: rest = cs := by
  have hdrop : cs.dropWhile (fun c => c.autoStart == b) = e :: rest := h
  constructor
  · have head := List.head?_dropWhile_not (fun c : AppConfig => c.autoStart == b) cs
    rw [hdrop] at head
    simpa using head
  · refine ⟨cs.takeWhile fun c => c.autoStart == b, ?_⟩
    rw [← hdrop]
    exact List.takeWhile_append_dropWhile

theorem exists_overtaking {s₀ : State} {cs : List AppConfig} {c d : AppConfig}
    (hd : d ∈ fromFirstSwitch s₀.shared.config.autoStart cs) (hne : d ≠ c) :
    ∃ as s, Runs step always s₀ as s ∧ issued as = cs ++ [c] ∧ Quiescent s ∧
      s.shared.config ≠ c := by
  by_cases hwait : ∃ e ∈ fromFirstSwitch s₀.shared.config.autoStart cs,
      e ≠ c ∧ e.autoStart ≠ s₀.shared.config.autoStart
  · obtain ⟨e, he, hec, ha⟩ := hwait
    obtain ⟨u, run, _, waits⟩ := issue_all (cs ++ [c]) s₀
    have mem : e ∈ cs ++ [c] := List.mem_append_left _ ((List.dropWhile_sublist _).mem he)
    obtain ⟨i, hi⟩ := waits e mem ha
    exact last_word run (issued_starts _) hi hec
  · -- the first switch is a save of `c`: let it assign before the others are issued
    simp only [not_exists, not_and, ne_eq, not_not] at hwait
    cases hrest : fromFirstSwitch s₀.shared.config.autoStart cs with
    | nil =>
      rw [hrest] at hd
      cases hd
    | cons e rest =>
      obtain ⟨hea, pre, hcs⟩ := fromFirstSwitch_cons hrest
      rw [hrest] at hd hwait
      have hec : e = c := by
        by_contra h
        exact hea (hwait e (by simp) h)
      subst hec
      have hdrest : d ∈ rest := by
        rcases List.mem_cons.mp hd with h | h
        · exact absurd h hne
        · exact h
      have hda : d.autoStart ≠ e.autoStart := by
        rw [hwait d hd hne]
        exact Ne.symm hea
      obtain ⟨u, run, _, waits⟩ := issue_all (pre ++ [e]) s₀
      obtain ⟨i, hi⟩ := waits e (by simp) hea
      obtain ⟨v, two, hv⟩ := assigns_first hi
      obtain ⟨x, more, _, waits'⟩ := issue_all (rest ++ [e]) v
      obtain ⟨j, hj⟩ := waits' d (by simp [hdrest]) (by rw [hv]; exact hda)
      refine last_word ((run.trans two).trans more) ?_ hj hne
      have none_issued : issued [.advance i, .advance i] = [] := rfl
      rw [issued_append, issued_append, issued_starts, issued_starts, none_issued, ← hcs]
      simp

/-- The last save wins under every order of the awaits exactly when, from the
    first save that changes autoStart on, all saves are the same. -/
theorem last_save_wins_iff (s₀ : State) (h₀ : Quiescent s₀) (cs : List AppConfig)
    (c : AppConfig) :
    (∀ (as : List (Move AppConfig)) (s : State), Runs step always s₀ as s →
      issued as = cs ++ [c] → Quiescent s → s.shared.config = c) ↔
    ∀ d ∈ fromFirstSwitch s₀.shared.config.autoStart cs, d = c := by
  constructor
  · intro h d hd
    by_contra hne
    obtain ⟨as, s, run, has, quiet, hs⟩ := exists_overtaking hd hne
    exact hs (h as s run has quiet)
  · intro h as s run has quiet
    apply headed_config (headed_run run ?_) quiet
    rw [has]
    refine .unswitched s₀ cs (fun f hf => ?_) h
    rw [h₀ f hf]
    rfl

theorem port_saves_in_order :
    fromFirstSwitch false [{ nginxPort := 81 }] = [] ∧
    ∀ (as : List (Move AppConfig)) (s : State),
      Runs step always ⟨⟨⟨none, none, false⟩, {}⟩, [.returned]⟩ as s →
      issued as = [{ nginxPort := 81 }, { nginxPort := 82 }] → Quiescent s →
      s.shared.config = { nginxPort := 82 } :=
  ⟨rfl, (last_save_wins_iff ⟨⟨⟨none, none, false⟩, {}⟩, [.returned]⟩ (by decide)
    [{ nginxPort := 81 }] { nginxPort := 82 }).mpr (by decide)⟩

/-- autoStart is switched on and off again: the second save assigns at once, the
    first one when its enable call returns. -/
theorem enable_overtakes_later_save :
    ∃ s, Runs step always (create ⟨some (AppConfig.encode {}), none, false⟩)
        (List.replicate 4 (.advance 0) ++
          [.start { autoStart := true }, .start { nginxPort := 8080 }] ++
          List.replicate 6 (.advance 2) ++ List.replicate 8 (.advance 1)) s ∧
      Quiescent s ∧ s.shared.config = { autoStart := true } :=
  ⟨⟨⟨⟨some (AppConfig.encode { autoStart := true }), none, true⟩, { autoStart := true }⟩,
    [.returned, .returned, .returned]⟩, exec_runs step _ _ _ rfl, by decide, rfl⟩

end Luhut.ConfigManager
