import Luhut.LabelledRuns

set_option autoImplicit false

/-! A pool holds a shared state and the frames of the calls issued so far. Between
two awaits a call runs undisturbed; any suspended call may be the next to run. -/
namespace InterleavedCalls
open LabelledRuns
variable {σ α φ : Type*}

/-- `start` runs a new call up to its first await, `advance` a suspended call up
    to its next one. -/
structure Code (σ α φ : Type*) where
  start : σ → α → σ × φ
  advance : σ → φ → Option (σ × φ)

structure Pool (σ φ : Type*) where
  shared : σ
  calls : List φ
deriving DecidableEq

inductive Move (α : Type*) where
  | start (a : α)
  | advance (i : ℕ)

namespace Code
variable (K : Code σ α φ)

def step (p : Pool σ φ) : Move α → Option (Pool σ φ)
  | .start a => some ⟨(K.start p.shared a).1, p.calls ++ [(K.start p.shared a).2]⟩
  | .advance i =>
    (p.calls[i]?).bind fun f => (K.advance p.shared f).map fun r => ⟨r.1, p.calls.set i r.2⟩

def Only (i : ℕ) : Pool σ φ → Move α → Prop := fun _ a => a = .advance i

def Others (i : ℕ) : Pool σ φ → Move α → Prop := fun _ a => ∃ j, j ≠ i ∧ a = .advance j

def Resumes : Pool σ φ → Move α → Prop := fun _ a => ∃ i, a = .advance i

variable {K}

theorem step_advance {p : Pool σ φ} {i : ℕ} {f g : φ} {w : σ} (hf : p.calls[i]? = some f)
    (h : K.advance p.shared f = some (w, g)) :
    K.step p (.advance i) = some ⟨w, p.calls.set i g⟩ := by
  simp [step, hf, h]

theorem step_advance_inv {p q : Pool σ φ} {i : ℕ} (h : K.step p (.advance i) = some q) :
    ∃ (f g : φ) (w : σ), p.calls[i]? = some f ∧ K.advance p.shared f = some (w, g) ∧
      q = ⟨w, p.calls.set i g⟩ := by
  simp only [step, Option.bind_eq_some_iff, Option.map_eq_some_iff] at h
  obtain ⟨f, hf, r, hr, hq⟩ := h
  exact ⟨f, r.2, r.1, hf, hr, hq.symm⟩

theorem set_cases {calls : List φ} {i j : ℕ} {f g : φ} (h : (calls.set i f)[j]? = some g) :
    j = i ∧ g = f ∨ j ≠ i ∧ calls[j]? = some g := by
  by_cases hij : i = j
  · subst hij
    have bound := (List.getElem?_eq_some_iff.mp h).1
    rw [List.length_set] at bound
    rw [List.getElem?_set_self bound] at h
    exact Or.inl ⟨rfl, (Option.some.inj h).symm⟩
  · rw [List.getElem?_set_ne hij] at h
    exact Or.inr ⟨Ne.symm hij, h⟩

inductive Alone (K : Code σ α φ) : σ → φ → σ → φ → Prop where
  | refl (w : σ) (f : φ) : Alone K w f w f
  | next {w v u : σ} {f g k : φ} (h : K.advance w f = some (v, g)) (tail : Alone K v g u k) :
      Alone K w f u k

theorem Alone.invariant {w v : σ} {f g : φ} (I : σ → φ → Prop) (h : Alone K w f v g) (hf : I w f)
    (hp : ∀ w f v g, I w f → K.advance w f = some (v, g) → I v g) : I v g := by
  induction h with
  | refl _ _ => exact hf
  | next hs _ ih => exact ih (hp _ _ _ _ hf hs)

theorem Alone.runs {p : Pool σ φ} {i : ℕ} {f g : φ} {w : σ} (hf : p.calls[i]? = some f)
    (h : Alone K p.shared f w g) :
    ∃ as, Runs K.step (Only i) p as ⟨w, p.calls.set i g⟩ := by
  generalize hs : p.shared = s at h
  induction h generalizing p with
  | refl w f =>
    refine ⟨[], ?_⟩
    obtain ⟨hi, hget⟩ := List.getElem?_eq_some_iff.mp hf
    have hself : p.calls.set i f = p.calls := by
      rw [← hget]
      exact List.set_getElem_self hi
    rw [hself, ← hs]
    exact .refl p
  | @next w v u f g k ha _ ih =>
    have hi := (List.getElem?_eq_some_iff.mp hf).1
    have first : K.step p (.advance i) = some ⟨v, p.calls.set i g⟩ := by
      apply step_advance hf
      rw [hs]
      exact ha
    obtain ⟨as, tail⟩ := ih (p := ⟨v, p.calls.set i g⟩) (by simp [hi]) rfl
    rw [List.set_set] at tail
    exact ⟨.advance i :: as, .next rfl first tail⟩

/-- Every move of a call lowers its rank, and calls of rank 0 have returned. -/
structure Terminates (K : Code σ α φ) (rank : φ → ℕ) : Prop where
  decreases : ∀ w f v g, K.advance w f = some (v, g) → rank g < rank f
  halts : ∀ w f, K.advance w f = none → rank f = 0

def Quiescent (rank : φ → ℕ) (p : Pool σ φ) : Prop := ∀ f ∈ p.calls, rank f = 0

section
variable {rank : φ → ℕ}

theorem Terminates.finishes (T : Terminates K rank) (w : σ) (f : φ) :
    ∃ v g, Alone K w f v g ∧ rank g = 0 := by
  induction hn : rank f using Nat.strongRecOn generalizing w f with
  | _ n ih =>
    cases ha : K.advance w f with
    | none => exact ⟨w, f, .refl w f, T.halts w f ha⟩
    | some r =>
      have smaller := T.decreases w f r.1 r.2 ha
      obtain ⟨v, g, tail, hg⟩ := ih (rank r.2) (by omega) r.1 r.2 rfl
      exact ⟨v, g, .next ha tail, hg⟩

theorem Terminates.drain (T : Terminates K rank) (p : Pool σ φ) (i : ℕ) :
    ∃ as q, Runs K.step (Others i) p as q ∧ q.calls[i]? = p.calls[i]? ∧
      q.calls.length = p.calls.length ∧
      ∀ (j : ℕ) (f : φ), j ≠ i → q.calls[j]? = some f → rank f = 0 := by
  have upTo : ∀ n, ∃ as q, Runs K.step (Others i) p as q ∧ q.calls[i]? = p.calls[i]? ∧
      q.calls.length = p.calls.length ∧
      ∀ (j : ℕ) (f : φ), j < n → j ≠ i → q.calls[j]? = some f → rank f = 0 := by
    intro n
    induction n with
    | zero => exact ⟨[], p, .refl p, rfl, rfl, fun j f hj => by omega⟩
    | succ n ih =>
      obtain ⟨as, q, run, hi, hlen, hdone⟩ := ih
      have keep : (n = i ∨ q.calls[n]? = none) → ∃ as q, Runs K.step (Others i) p as q ∧
          q.calls[i]? = p.calls[i]? ∧ q.calls.length = p.calls.length ∧
          ∀ (j : ℕ) (f : φ), j < n + 1 → j ≠ i → q.calls[j]? = some f → rank f = 0 := by
        intro hn
        refine ⟨as, q, run, hi, hlen, fun j f hj hji hf => ?_⟩
        by_cases hjn : j = n
        · subst hjn
          rcases hn with hn | hn
          · exact absurd hn hji
          · rw [hn] at hf
            cases hf
        · exact hdone j f (by omega) hji hf
      by_cases hni : n = i
      · exact keep (Or.inl hni)
      cases hn : q.calls[n]? with
      | none => exact keep (Or.inr hn)
      | some f =>
        obtain ⟨v, g, alone, hg⟩ := T.finishes q.shared f
        obtain ⟨bs, more⟩ := Alone.runs hn alone
        have others : Runs K.step (Others i) q bs ⟨v, q.calls.set n g⟩ :=
          more.mono fun _ a ha => ⟨n, hni, ha⟩
        refine ⟨as ++ bs, _, run.trans others, ?_, ?_, ?_⟩
        · simp [hni, hi]
        · simp [hlen]
        · intro j f' hj hji hf'
          by_cases hjn : n = j
          · subst hjn
            have hlt := (List.getElem?_eq_some_iff.mp hn).1
            simp only [List.getElem?_set_self hlt, Option.some.injEq] at hf'
            rw [← hf']
            exact hg
          · simp only [List.getElem?_set_ne hjn] at hf'
            exact hdone j f' (by omega) hji hf'
  obtain ⟨as, q, run, hi, hlen, hdone⟩ := upTo p.calls.length
  refine ⟨as, q, run, hi, hlen, fun j f hji hf => ?_⟩
  have hlt := (List.getElem?_eq_some_iff.mp hf).1
  exact hdone j f (by omega) hji hf

/-- Run all calls but one to their ends, then that one. -/
theorem Terminates.last (T : Terminates K rank) {p : Pool σ φ} {i : ℕ} {f : φ}
    (hf : p.calls[i]? = some f) :
    ∃ as bs q r g, Runs K.step (Others i) p as q ∧ q.calls[i]? = some f ∧
      (∀ (j : ℕ) (k : φ), j ≠ i → q.calls[j]? = some k → rank k = 0) ∧
      Alone K q.shared f r.shared g ∧ rank g = 0 ∧ Runs K.step (Only i) q bs r ∧
      Quiescent rank r := by
  obtain ⟨as, q, run, hi, _, hdone⟩ := T.drain p i
  rw [hf] at hi
  obtain ⟨v, g, alone, hg⟩ := T.finishes q.shared f
  obtain ⟨bs, final⟩ := Alone.runs hi alone
  refine ⟨as, bs, q, ⟨v, q.calls.set i g⟩, g, run, hi, hdone, alone, hg, final, fun k hk => ?_⟩
  obtain ⟨j, hj⟩ := List.mem_iff_getElem?.mp hk
  by_cases hij : i = j
  · subst hij
    simp only [List.getElem?_set_self (List.getElem?_eq_some_iff.mp hi).1,
      Option.some.injEq] at hj
    rw [← hj]
    exact hg
  · simp only [List.getElem?_set_ne hij] at hj
    exact hdone j k (Ne.symm hij) hj
end

def Fits (I : σ → Prop) (F : σ → φ → Prop) (p : Pool σ φ) : Prop :=
  I p.shared ∧ ∀ f ∈ p.calls, F p.shared f

/-- The moves of a fitting call keep `I`, its own fit and the fit of every other
    call. -/
structure Stable (K : Code σ α φ) (I : σ → Prop) (F : σ → φ → Prop) : Prop where
  own : ∀ w f v g, I w → F w f → K.advance w f = some (v, g) → I v ∧ F v g
  other : ∀ w f v g k, I w → F w f → F w k → K.advance w f = some (v, g) → F v k

theorem Stable.advance {I : σ → Prop} {F : σ → φ → Prop} (S : Stable K I F) {p q : Pool σ φ}
    {i : ℕ} (hp : Fits I F p) (h : K.step p (.advance i) = some q) : Fits I F q := by
  obtain ⟨f, g, w, hf, ha, hq⟩ := step_advance_inv h
  subst hq
  have mem : f ∈ p.calls := List.mem_iff_getElem?.mpr ⟨i, hf⟩
  have own := S.own _ _ _ _ hp.1 (hp.2 f mem) ha
  refine ⟨own.1, fun k hk => ?_⟩
  rcases List.mem_or_eq_of_mem_set hk with hk | rfl
  · exact S.other _ _ _ _ k hp.1 (hp.2 f mem) (hp.2 k hk) ha
  · exact own.2

theorem Fits.start {I : σ → Prop} {F : σ → φ → Prop} {p : Pool σ φ} {w : σ} {f : φ} (hw : I w)
    (hf : F w f) (hother : ∀ k ∈ p.calls, F w k) : Fits I F ⟨w, p.calls ++ [f]⟩ := by
  refine ⟨hw, fun k hk => ?_⟩
  rcases List.mem_append.mp hk with hk | hk
  · exact hother k hk
  · rw [List.mem_singleton.mp hk]
    exact hf

def Owed (r : σ → Prop) (o : φ → Prop) (p : Pool σ φ) : Prop :=
  r p.shared ∨ ∃ f ∈ p.calls, o f

theorem Owed.advance {r : σ → Prop} {o : φ → Prop} {p q : Pool σ φ} {i : ℕ} (hp : Owed r o p)
    (keep : ∀ f g v, f ∈ p.calls → K.advance p.shared f = some (v, g) → r p.shared → r v ∨ o g)
    (pay : ∀ f g v, f ∈ p.calls → K.advance p.shared f = some (v, g) → o f → o g ∨ r v)
    (h : K.step p (.advance i) = some q) : Owed r o q := by
  obtain ⟨f, g, v, hf, ha, hq⟩ := step_advance_inv h
  subst hq
  have mem : f ∈ p.calls := List.mem_iff_getElem?.mpr ⟨i, hf⟩
  have new : g ∈ p.calls.set i g :=
    List.mem_set (List.getElem?_eq_some_iff.mp hf).1 g
  rcases hp with hr | ⟨k, hk, ho⟩
  · rcases keep f g v mem ha hr with hv | hg
    · exact Or.inl hv
    · exact Or.inr ⟨g, new, hg⟩
  · obtain ⟨j, hj⟩ := List.mem_iff_getElem?.mp hk
    by_cases hij : i = j
    · subst hij
      rw [hf] at hj
      have hfk : f = k := Option.some.inj hj
      subst hfk
      rcases pay f g v mem ha ho with hg | hv
      · exact Or.inr ⟨g, new, hg⟩
      · exact Or.inl hv
    · refine Or.inr ⟨k, List.mem_iff_getElem?.mpr ⟨j, ?_⟩, ho⟩
      rw [List.getElem?_set_ne hij]
      exact hj

theorem Owed.settled {r : σ → Prop} {o : φ → Prop} {rank : φ → ℕ} {p : Pool σ φ}
    (hp : Owed r o p) (ho : ∀ f, o f → rank f ≠ 0) (hq : Quiescent rank p) : r p.shared := by
  rcases hp with hr | ⟨f, hf, hof⟩
  · exact hr
  · exact absurd (hq f hf) (ho f hof)

end Code
end InterleavedCalls
