import Mathlib.Logic.Function.Basic
import Mathlib.Data.List.Basic

set_option autoImplicit false

/-! A machine is a function `step : σ → α → Option σ`. A run may only take steps
that `allow` admits in the state before them, so one relation serves for all
runs and for the runs of a disciplined caller. -/
namespace LabelledRuns
variable {σ τ α β : Type*}

inductive Runs (step : σ → α → Option σ) (allow : σ → α → Prop) :
    σ → List α → σ → Prop where
  | refl (s : σ) : Runs step allow s [] s
  | next {s u v : σ} {a : α} {as : List α} (ok : allow s a) (h : step s a = some u)
      (tail : Runs step allow u as v) : Runs step allow s (a :: as) v

def always : σ → α → Prop := fun _ _ => True

section
variable {step : σ → α → Option σ} {allow allow' : σ → α → Prop} {s u v : σ} {as bs : List α}

theorem Runs.single {a : α} (ok : allow s a) (h : step s a = some u) :
    Runs step allow s [a] u :=
  .next ok h (.refl u)

theorem Runs.trans (h : Runs step allow s as u) (h' : Runs step allow u bs v) :
    Runs step allow s (as ++ bs) v := by
  induction h with
  | refl _ => exact h'
  | next ok hs _ ih => exact .next ok hs (ih h')

theorem Runs.snoc {a : α} (h : Runs step allow s as u) (ok : allow u a)
    (hs : step u a = some v) : Runs step allow s (as ++ [a]) v :=
  h.trans (.single ok hs)

theorem Runs.mono (hle : ∀ s a, allow s a → allow' s a) (h : Runs step allow s as u) :
    Runs step allow' s as u := by
  induction h with
  | refl _ => exact .refl _
  | next ok hs _ ih => exact .next (hle _ _ ok) hs ih

theorem Runs.labels (h : Runs step allow s as u) :
    Runs step (fun v a => allow v a ∧ a ∈ as) s as u := by
  induction h with
  | refl _ => exact .refl _
  | next ok hs _ ih =>
    exact .next ⟨ok, List.mem_cons_self⟩ hs
      (ih.mono fun v b hb => ⟨hb.1, List.mem_cons_of_mem _ hb.2⟩)

/-- What holds at the start and survives every allowed step holds at the end. -/
theorem Runs.invariant (I : σ → Prop) (h : Runs step allow s as u) (hs : I s)
    (hp : ∀ s a u, I s → allow s a → step s a = some u → I u) : I u := by
  induction h with
  | refl _ => exact hs
  | next ok hstep _ ih => exact ih (hp _ _ _ hs ok hstep)

theorem Runs.history {motive : List α → σ → Prop} (h : Runs step allow s as u)
    (start : motive [] s)
    (snoc : ∀ bs v a w, Runs step allow s bs v → motive bs v → allow v a → step v a = some w →
      motive (bs ++ [a]) w) : motive as u := by
  have from_here : ∀ {v : σ} {bs cs : List α} {w : σ}, Runs step allow v cs w →
      Runs step allow s bs v → motive bs v → motive (bs ++ cs) w := by
    intro v bs cs w tail
    induction tail generalizing bs with
    | refl v =>
      intro _ hm
      rw [List.append_nil]
      exact hm
    | @next v x w a cs ok hs _ ih =>
      intro first hm
      have moved := ih (first.snoc ok hs) (snoc bs v a x first hm ok hs)
      rw [List.append_assoc] at moved
      exact moved
  exact from_here h (.refl s) start

theorem Runs.split_last (event : σ → α → Prop) (h : Runs step allow s as u) :
    Runs step (fun v a => allow v a ∧ ¬ event v a) s as u ∨
      ∃ before a after m w, as = before ++ a :: after ∧ Runs step allow s before m ∧
        allow m a ∧ event m a ∧ step m a = some w ∧
        Runs step (fun v b => allow v b ∧ ¬ event v b) w after u := by
  induction h with
  | refl s => exact Or.inl (.refl s)
  | @next s v u a as ok hs _ ih =>
    rcases ih with quiet | ⟨before, b, after, m, w, rfl, first, last, later⟩
    · by_cases ha : event s a
      · exact Or.inr ⟨[], a, as, s, v, rfl, .refl s, ok, ha, hs, quiet⟩
      · exact Or.inl (.next ⟨ok, ha⟩ hs quiet)
    · exact Or.inr ⟨a :: before, b, after, m, w, rfl, .next ok hs first, last, later⟩

/-- A machine seen through `view`, whose steps are idle or steps of a second
machine, has its runs mapped to runs of the second one. -/
theorem Runs.project {step' : τ → β → Option τ} {allow'' : τ → β → Prop}
    (view : σ → τ) (label : α → Option β) (h : Runs step allow s as u)
    (hidle : ∀ s a u, label a = none → step s a = some u → view u = view s)
    (hstep : ∀ s a u b, label a = some b → allow s a → step s a = some u →
      allow'' (view s) b ∧ step' (view s) b = some (view u)) :
    Runs step' allow'' (view s) (as.filterMap label) (view u) := by
  induction h with
  | refl _ => exact .refl _
  | @next s u v a as ok hs _ ih =>
    cases hb : label a with
    | none =>
      rw [List.filterMap_cons_none hb, ← hidle s a u hb hs]
      exact ih
    | some b =>
      rw [List.filterMap_cons_some hb]
      obtain ⟨ok', hs'⟩ := hstep s a u b hb ok hs
      exact .next ok' hs' ih
end

/-- From every state of `I` that is not a goal some step goes down in `rank` and
stays in `I`: then a goal can be reached. -/
theorem Runs.descend (step : σ → α → Option σ) (rank : σ → ℕ) (I goal : σ → Prop)
    (hdown : ∀ s, I s → ¬ goal s → ∃ a u, step s a = some u ∧ rank u < rank s ∧ I u)
    (s : σ) (hs : I s) : ∃ as u, Runs step always s as u ∧ I u ∧ goal u := by
  induction hr : rank s using Nat.strongRecOn generalizing s with
  | ind r ih =>
    by_cases hg : goal s
    · exact ⟨[], s, .refl s, hs, hg⟩
    · obtain ⟨a, u, hstep, hlt, hu⟩ := hdown s hs hg
      obtain ⟨as, v, hrun, hv, hgoal⟩ := ih (rank u) (hr ▸ hlt) u hu rfl
      exact ⟨a :: as, v, .next trivial hstep hrun, hv, hgoal⟩

def exec (step : σ → α → Option σ) : σ → List α → Option σ
  | s, [] => some s
  | s, a :: as => (step s a).bind fun u => exec step u as

theorem exec_runs_of {allow : σ → α → Prop} (step : σ → α → Option σ) (s u : σ) (as : List α)
    (ok : ∀ a ∈ as, ∀ s, allow s a) (h : exec step s as = some u) : Runs step allow s as u := by
  induction as generalizing s with
  | nil =>
    cases h
    exact .refl _
  | cons a as ih =>
    obtain ⟨v, hv, hu⟩ := Option.bind_eq_some_iff.mp h
    exact .next (ok a (by simp) s) hv (ih v (fun b hb => ok b (by simp [hb])) hu)

theorem exec_runs (step : σ → α → Option σ) (s u : σ) (as : List α)
    (h : exec step s as = some u) : Runs step always s as u :=
  exec_runs_of step s u as (fun _ _ _ => trivial) h

def execWithin (step : σ → α → Option σ) (allow : σ → α → Prop) [∀ s a, Decidable (allow s a)] :
    σ → List α → Option σ
  | s, [] => some s
  | s, a :: as =>
    if allow s a then (step s a).bind fun u => execWithin step allow u as else none

theorem execWithin_runs (step : σ → α → Option σ) (allow : σ → α → Prop)
    [∀ s a, Decidable (allow s a)] (s u : σ) (as : List α)
    (h : execWithin step allow s as = some u) : Runs step allow s as u := by
  induction as generalizing s with
  | nil =>
    cases h
    exact .refl _
  | cons a as ih =>
    rw [execWithin] at h
    split_ifs at h with ok
    obtain ⟨v, hv, hu⟩ := Option.bind_eq_some_iff.mp h
    exact .next ok hv (ih v hu)

end LabelledRuns
