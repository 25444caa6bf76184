import Luhut.ReplicaConvergence

set_option autoImplicit false

/-! A save issued while a call in flight disagrees with it can be continued to a
quiescent state whose replicas differ: the call that holds the stale text, or
the save itself, writes last. -/
namespace Luhut.ConfigManager
open DartInt NginxConf LabelledRuns InterleavedCalls

/-- Some order of the remaining awaits ends in disagreement. -/
def Diverges (s : State) : Prop :=
  ∃ as u, Runs step Code.Resumes s as u ∧ Quiescent u ∧ ¬ Reflects u.shared u.shared.config

theorem Diverges.before {s u : State} {as : List (Move AppConfig)} (d : Diverges u)
    (h : Runs step Code.Resumes s as u) : Diverges s := by
  obtain ⟨bs, v, run, quiet, apart⟩ := d
  exact ⟨as ++ bs, v, h.trans run, quiet, apart⟩

theorem Diverges.before_alone {s : State} {i : ℕ} {f g : Frame} {w : World}
    (hf : s.calls[i]? = some f) (h : Code.Alone code s.shared f w g)
    (d : Diverges ⟨w, s.calls.set i g⟩) : Diverges s := by
  obtain ⟨as, run⟩ := Code.Alone.runs hf h
  exact d.before (run.mono fun _ _ ha => ⟨i, ha⟩)

theorem Settling.run {c : AppConfig} {s u : State} {as : List (Move AppConfig)}
    (inv : Settling c s) (h : Runs step Code.Resumes s as u) : Settling c u := by
  apply h.invariant (Settling c) inv
  rintro s a u inv ⟨i, ha⟩ hs
  subst ha
  exact inv.advance hs

/-- A call past its assignment can be the last one to go on, after `_config` has
    settled. -/
theorem Settling.last {c : AppConfig} {s : State} {i : ℕ} {f : Frame} (inv : Settling c s)
    (hi : s.calls[i]? = some f) (hf : f.assigned = true) :
    ∃ as u v g, Runs step Code.Resumes s as u ∧ Quiescent u ∧ v.config = c ∧
      Code.Alone code v f u.shared g ∧ g.rank = 0 := by
  obtain ⟨as, bs, q, r, g, others, hqi, hdone, alone, hg, only, quiet⟩ := terminates.last hi
  have inv' : Settling c q := inv.run (others.mono fun _ _ ⟨j, _, ha⟩ => ⟨j, ha⟩)
  have settled : q.shared.config = c := by
    rcases inv'.config with h | ⟨k, hk, ho⟩
    · exact h
    · obtain ⟨j, hj⟩ := List.mem_iff_getElem?.mp hk
      by_cases hji : j = i
      · rw [hji, hqi] at hj
        rw [← Option.some.inj hj, hf] at ho
        cases ho
      · rw [rank_eq_zero.mp (hdone j k hji hj)] at ho
        cases ho
  exact ⟨as ++ bs, r, q.shared, g, (others.mono fun _ _ ⟨j, _, ha⟩ => ⟨j, ha⟩).trans
    (only.mono fun _ _ ha => ⟨i, ha⟩), quiescent_iff.mpr quiet, settled, alone, hg⟩

theorem writeJson_alone {v u : World} {g : Frame} {content : JsonText}
    (h : Code.Alone code v (.writeJson content) u g) (hg : g.rank = 0) :
    u.config = v.config ∧ u.configJson = some content := by
  have inv : u.config = v.config ∧ (g = .writeJson content ∨
      g.assigned = true ∧ g.owesJson = false ∧ u.configJson = some content) := by
    apply h.invariant (fun w f => w.config = v.config ∧ (f = .writeJson content ∨
      f.assigned = true ∧ f.owesJson = false ∧ w.configJson = some content)) ⟨rfl, Or.inl rfl⟩
    rintro w f w' f' ⟨hc, hf⟩ ha
    rcases hf with rfl | ⟨hf, ho, hj⟩
    · cases ha
      exact ⟨hc, Or.inr ⟨rfl, rfl, rfl⟩⟩
    · have keep := advance_assigned ha hf
      refine ⟨keep.2.trans hc, Or.inr ⟨keep.1, ?_⟩⟩
      cases f with
      | testedNginx found => cases found <;> cases ha <;> exact ⟨rfl, hj⟩
      | readNginx =>
        simp only [code, advance] at ha
        split at ha <;> cases ha <;> exact ⟨rfl, hj⟩
      | wroteJson | testNginx | gotNginx | writeNginx | wroteNginx => cases ha; exact ⟨rfl, hj⟩
      | returned => cases ha
      | create | created | writeJson => cases ho
      | _ => cases hf
  refine ⟨inv.1, ?_⟩
  rcases inv.2 with rfl | ⟨_, _, hj⟩
  · cases hg
  · exact hj

theorem writeNginx_alone {v u : World} {g : Frame} {x : Text}
    (h : Code.Alone code v (.writeNginx x) u g) (hg : g.rank = 0) :
    u.config = v.config ∧ u.nginxConf = some x := by
  have inv : u.config = v.config ∧ (g = .writeNginx x ∨
      (g = .wroteNginx ∨ g = .returned) ∧ u.nginxConf = some x) := by
    apply h.invariant (fun w f => w.config = v.config ∧ (f = .writeNginx x ∨
      (f = .wroteNginx ∨ f = .returned) ∧ w.nginxConf = some x)) ⟨rfl, Or.inl rfl⟩
    rintro w f w' f' ⟨hc, hf⟩ ha
    rcases hf with rfl | ⟨rfl | rfl, hx⟩
    · cases ha
      exact ⟨hc, Or.inr ⟨Or.inl rfl, rfl⟩⟩
    · cases ha
      exact ⟨hc, Or.inr ⟨Or.inr rfl, hx⟩⟩
    · cases ha
  refine ⟨inv.1, ?_⟩
  rcases inv.2 with rfl | ⟨_, hx⟩
  · cases hg
  · exact hx

theorem diverges_writeJson {n c : AppConfig} {s : State} {i : ℕ} (inv : Settling c s)
    (hi : s.calls[i]? = some (.writeJson n.encode)) (hne : n ≠ c) : Diverges s := by
  obtain ⟨as, u, v, g, run, quiet, hv, alone, hg⟩ := inv.last hi rfl
  have written := writeJson_alone alone hg
  refine ⟨as, u, run, quiet, fun agree => hne ?_⟩
  have hj := agree.configJson
  rw [written.2, bind_encode, written.1, hv] at hj
  exact Option.some.inj hj

theorem diverges_writeNginx {c : AppConfig} {s : State} {i : ℕ} {x : Text} (inv : Settling c s)
    (hi : s.calls[i]? = some (.writeNginx x)) (hx : ¬ Shows c x) : Diverges s := by
  obtain ⟨as, u, v, g, run, quiet, hv, alone, hg⟩ := inv.last hi rfl
  have written := writeNginx_alone alone hg
  refine ⟨as, u, run, quiet, fun agree => hx ?_⟩
  have hn := agree.nginxConf x written.2
  rw [written.1, hv] at hn
  exact hn

theorem Settling.hold {c : AppConfig} {s : State} {i : ℕ} {f g : Frame} {w : World}
    (inv : Settling c s) (hi : s.calls[i]? = some f) (h : Code.Alone code s.shared f w g)
    (d : ∀ u : State, Settling c u → u.calls[i]? = some g → Diverges u) : Diverges s := by
  obtain ⟨as, run⟩ := Code.Alone.runs hi h
  have resumes : Runs step Code.Resumes s as ⟨w, s.calls.set i g⟩ :=
    run.mono fun _ _ ha => ⟨i, ha⟩
  refine (d _ (inv.run resumes) ?_).before resumes
  exact List.getElem?_set_self (List.getElem?_eq_some_iff.mp hi).1

theorem created_alone (w : World) :
    Code.Alone code w .created w (.writeJson w.config.encode) := .next rfl (.refl _ _)

theorem create_alone (w : World) :
    ∃ v : World, v.config = w.config ∧
      v.configJson.bind AppConfig.decode = w.configJson.bind AppConfig.decode ∧
      Code.Alone code w .create v (.writeJson w.config.encode) :=
  ⟨{ w with configJson := some (w.configJson.getD .malformed) }, rfl, bind_getD w.configJson,
    .next rfl (created_alone _)⟩

theorem readNginx_alone {w : World} {x : Text} (hx : w.nginxConf = some x) :
    Code.Alone code w .readNginx w (.writeNginx (rewrite w.config x)) :=
  .next (v := w) (g := .gotNginx x) (by simp [code, advance, hx]) (.next rfl (.refl _ _))

theorem testNginx_alone {w : World} {x : Text} (hx : w.nginxConf = some x) :
    Code.Alone code w .testNginx w (.writeNginx (rewrite w.config x)) :=
  .next (v := w) (g := .testedNginx true) (by simp [code, advance, hx])
    (.next rfl (readNginx_alone hx))

theorem nginx_stale {c : AppConfig} {w : World} {f : Frame}
    (alone : ∀ x, w.nginxConf = some x →
      Code.Alone code w f w (.writeNginx (rewrite w.config x)))
    (h : ¬ ∀ x ∈ w.nginxConf, Shows c (rewrite w.config x)) :
    ∃ v x, ¬ Shows c x ∧ Code.Alone code w f v (.writeNginx x) := by
  simp only [not_forall] at h
  obtain ⟨x, hx, hne⟩ := h
  exact ⟨w, _, hne, alone x hx⟩

/-- A call past its assignment that disagrees with `c` goes on to a text of its own. -/
theorem goes_on_stale {c : AppConfig} {w : World} {f : Frame} (hh : f.Holds w)
    (hf : f.assigned = true) (hc : ¬ f.Agrees c w.config w) :
    (∃ v, Code.Alone code w f v (.writeJson w.config.encode)) ∨
      ∃ v x, ¬ Shows c x ∧ Code.Alone code w f v (.writeNginx x) := by
  cases f with
  | create =>
    obtain ⟨v, _, _, alone⟩ := create_alone w
    exact .inl ⟨v, alone⟩
  | created => exact .inl ⟨w, created_alone w⟩
  | writeJson content =>
    have hj : content = w.config.encode := hh
    rw [hj]
    exact .inl ⟨w, .refl _ _⟩
  | wroteJson => exact .inr (nginx_stale (fun x hx => .next rfl (testNginx_alone hx)) hc)
  | testNginx => exact .inr (nginx_stale (fun x hx => testNginx_alone hx) hc)
  | testedNginx b =>
    cases b with
    | true => exact .inr (nginx_stale (fun x hx => .next rfl (readNginx_alone hx)) hc)
    | false => exact absurd trivial hc
  | readNginx => exact .inr (nginx_stale (fun x hx => readNginx_alone hx) hc)
  | gotNginx x => exact .inr ⟨w, _, hc, .next rfl (.refl _ _)⟩
  | writeNginx x => exact .inr ⟨w, x, hc, .refl _ _⟩
  | wroteNginx | returned => exact absurd trivial hc
  | launch | launched | testJson | testedJson | readJson | gotJson => cases hf

section
variable {n c : AppConfig} {s : State} {i : ℕ} {f : Frame} (inv : Converging n s)
  (settled : ∀ k ∈ s.calls, k.assigned = true) (hi : s.calls[i]? = some f)
include inv settled

theorem config_of_settled : s.shared.config = n := by
  rcases inv.config with h | ⟨k, hk, ho⟩
  · exact h
  · rw [settled k hk] at ho
    cases ho

include hi

theorem diverges_waiting (ha : s.shared.config.autoStart ≠ c.autoStart)
    (hc : ¬ f.Agrees c s.shared.config s.shared) :
    Diverges ⟨s.shared, s.calls ++ [.launch c]⟩ := by
  have mem := List.mem_of_getElem? hi
  have hi' : (s.calls ++ [Frame.launch c])[i]? = some f :=
    (List.getElem?_append_left (List.getElem?_eq_some_iff.mp hi).1).trans hi
  have hn := config_of_settled inv settled
  have hne : n ≠ c := by
    intro h
    rw [hn, h] at ha
    exact ha rfl
  have after : Settling c ⟨s.shared, s.calls ++ [.launch c]⟩ :=
    ⟨forall_snoc (assigns_of_assigned settled) (Or.inr (Or.inl rfl)),
      Or.inr ⟨.launch c, by simp, rfl⟩⟩
  rcases goes_on_stale (inv.fits _ mem).2 (settled _ mem) hc with ⟨v, alone⟩ | ⟨v, x, hx, alone⟩
  · refine after.hold hi' alone fun u hu hui => ?_
    rw [hn] at hui
    exact diverges_writeJson hu hui hne
  · exact after.hold hi' alone fun u hu hui => diverges_writeNginx hu hui hx

theorem diverges_stale (reach : ∀ x ∈ s.shared.nginxConf, Rewritable c x)
    (hc : ¬ f.Agrees c c s.shared) :
    Diverges ⟨(assign s.shared c).1, s.calls ++ [.create]⟩ := by
  have mem := List.mem_of_getElem? hi
  have hi' : (s.calls ++ [Frame.create])[i]? = some f :=
    (List.getElem?_append_left (List.getElem?_eq_some_iff.mp hi).1).trans hi
  have after : Settling c ⟨(assign s.shared c).1, s.calls ++ [.create]⟩ :=
    ⟨forall_snoc (assigns_of_assigned settled) (Or.inl rfl), Or.inl rfl⟩
  have fresh : ∀ x ∈ s.shared.nginxConf, Shows c (rewrite c x) :=
    fun x hx => (shows_rewrite c x).mpr (reach x hx)
  cases f with
  | create | created => exact absurd rfl hc
  | writeJson content =>
    have hold : content = s.shared.config.encode := (inv.fits _ mem).2
    have hj : content = n.encode := config_of_settled inv settled ▸ hold
    rw [hj] at hi' hc
    exact diverges_writeJson after hi' fun h => hc (congrArg AppConfig.encode h)
  | wroteJson | testNginx | readNginx => exact absurd fresh hc
  | testedNginx b =>
    cases b with
    | true => exact absurd fresh hc
    | false => exact absurd trivial hc
  | gotNginx x =>
    exact after.hold (w := (assign s.shared c).1) hi' (.next rfl (.refl _ _)) fun u hu hui =>
      diverges_writeNginx hu hui hc
  | writeNginx x => exact diverges_writeNginx after hi' hc
  | wroteNginx | returned => exact absurd trivial hc
  | launch | launched | testJson | testedJson | readJson | gotJson => cases settled _ mem

theorem diverges_held (reach : ∀ x ∈ s.shared.nginxConf, Rewritable c x)
    (hc : ¬ f.Agrees c (nextConfig s.shared c) s.shared) :
    Diverges ⟨(save s.shared c).1, s.calls ++ [(save s.shared c).2]⟩ := by
  rcases save_cases_next s.shared c with ⟨ha, hnext, hs⟩ | ⟨_, hnext, hs⟩
  · rw [hnext] at hc
    rw [hs]
    exact diverges_waiting inv settled hi ha hc
  · rw [hnext] at hc
    rw [hs]
    exact diverges_stale inv settled hi reach hc
end

theorem save_alone_nginx (w : World) (c : AppConfig) {x : Text} (hx : w.nginxConf = some x) :
    ∃ v, Code.Alone code (save w c).1 (save w c).2 v (.writeNginx (rewrite c x)) := by
  have create (v : World) (hv : v.nginxConf = some x) :
      ∃ u, Code.Alone code v .create u (.writeNginx (rewrite v.config x)) :=
    ⟨_, .next rfl (.next rfl (.next rfl (.next rfl (testNginx_alone hv))))⟩
  rcases save_cases w c with ⟨_, hs⟩ | ⟨_, hs⟩
  · rw [hs]
    obtain ⟨v, alone⟩ := create { w with launchAtStartup := c.autoStart, config := c } hx
    exact ⟨v, .next rfl (.next rfl alone)⟩
  · rw [hs]
    exact create { w with config := c } hx

theorem settling_save {s : State} (settled : ∀ k ∈ s.calls, k.assigned = true) (c : AppConfig) :
    Settling c ⟨(save s.shared c).1, s.calls ++ [(save s.shared c).2]⟩ := by
  rcases save_cases s.shared c with ⟨_, hs⟩ | ⟨_, hs⟩
  · rw [hs]
    exact ⟨forall_snoc (assigns_of_assigned settled) (Or.inr (Or.inl rfl)),
      Or.inr ⟨.launch c, by simp, rfl⟩⟩
  · rw [hs]
    exact ⟨forall_snoc (assigns_of_assigned settled) (Or.inl rfl), Or.inl rfl⟩

theorem diverges_signed {s : State} {c : AppConfig} {x : Text}
    (settled : ∀ k ∈ s.calls, k.assigned = true) (hx : s.shared.nginxConf = some x)
    (signed : ¬ Rewritable c x) :
    Diverges ⟨(save s.shared c).1, s.calls ++ [(save s.shared c).2]⟩ := by
  obtain ⟨v, alone⟩ := save_alone_nginx s.shared c hx
  refine (settling_save settled c).hold List.getElem?_concat_length alone fun u hu hui => ?_
  exact diverges_writeNginx hu hui fun shows => signed ((shows_rewrite c x).mp shows)

def Frame.loading : Frame → Bool
  | .testJson | .testedJson _ | .readJson | .gotJson _ => true
  | _ => false

def OneLoader (s : State) : Prop :=
  ∀ (j : ℕ) (k : Frame), s.calls[j]? = some k → k.loading = true → j = 0

theorem loading_of_advance {w v : World} {f g : Frame} (h : advance w f = some (v, g))
    (hg : g.loading = true) : f.loading = true := by
  cases f with
  | testedNginx found => cases found <;> cases h <;> cases hg
  | readNginx =>
    simp only [advance] at h
    split at h <;> cases h <;> cases hg
  | returned => cases h
  | testJson | testedJson | readJson | gotJson => rfl
  | _ => cases h; cases hg

theorem oneLoader_run {d : Disk} {s : State} {as : List (Move AppConfig)}
    {allow : State → Move AppConfig → Prop} (h : Runs step allow (create d) as s) :
    OneLoader s := by
  apply h.invariant OneLoader
  · intro j k hk _
    have hlt := (List.getElem?_eq_some_iff.mp hk).1
    simp only [create, List.length_singleton] at hlt
    omega
  · intro s a u inv _ hs j k hk hl
    cases a with
    | start c =>
      have hu : u = ⟨(save s.shared c).1, s.calls ++ [(save s.shared c).2]⟩ :=
        (Option.some.inj hs).symm
      subst hu
      have new : (save s.shared c).2.loading = false := by
        rcases save_cases s.shared c with ⟨_, hsave⟩ | ⟨_, hsave⟩ <;> rw [hsave] <;> rfl
      by_cases hj : j < s.calls.length
      · rw [List.getElem?_append_left hj] at hk
        exact inv j k hk hl
      · rw [List.getElem?_append_right (by omega)] at hk
        have mem := List.mem_iff_getElem?.mpr ⟨_, hk⟩
        rw [List.mem_singleton.mp mem, new] at hl
        cases hl
    | advance i =>
      obtain ⟨f, g, w, hf, ha, hu⟩ := Code.step_advance_inv hs
      subst hu
      by_cases hij : i = j
      · subst hij
        have hlt := (List.getElem?_eq_some_iff.mp hf).1
        simp only [List.getElem?_set_self hlt, Option.some.injEq] at hk
        rw [← hk] at hl
        exact inv i f hf (loading_of_advance ha hl)
      · simp only [List.getElem?_set_ne hij] at hk
        exact inv j k hk hl

theorem load_alone {n config : AppConfig} {w v : World} {f : Frame} (hl : f.loading = true)
    (ha : f.Agrees n config w) (hh : f.Holds w)
    (hj : v.configJson.bind AppConfig.decode = w.configJson.bind AppConfig.decode) :
    Code.Alone code v f { v with config := n } .returned := by
  have got : ∀ content, AppConfig.decode content = some n →
      Code.Alone code v (.gotJson content) { v with config := n } .returned := by
    intro content hd
    exact .next (v := { v with config := n }) (g := .returned) (by simp [code, advance, hd])
      (.refl _ _)
  have read : w.configJson.bind AppConfig.decode = some n →
      ∃ content, v.configJson = some content ∧
        Code.Alone code v .readJson { v with config := n } .returned := by
    intro hd
    rw [← hj] at hd
    obtain ⟨content, hc, hd⟩ := Option.bind_eq_some_iff.mp hd
    exact ⟨content, hc, .next (v := v) (g := .gotJson content) (by simp [code, advance, hc])
      (got content hd)⟩
  cases f with
  | testJson =>
    obtain ⟨content, hc, alone⟩ := read ha
    exact .next (v := v) (g := .testedJson true) (by simp [code, advance, hc]) (.next rfl alone)
  | testedJson found =>
    have hfound : found = true := hh
    subst hfound
    obtain ⟨_, _, alone⟩ := read ha
    exact .next rfl alone
  | readJson =>
    obtain ⟨_, _, alone⟩ := read ha
    exact alone
  | gotJson content => exact got content ha
  | _ => cases hl

theorem save_alone (w : World) (c : AppConfig) :
    ∃ v : World, v.config = c ∧
      v.configJson.bind AppConfig.decode = w.configJson.bind AppConfig.decode ∧
      Code.Alone code (save w c).1 (save w c).2 v (.writeJson c.encode) := by
  rcases save_cases w c with ⟨_, hs⟩ | ⟨_, hs⟩
  · rw [hs]
    obtain ⟨v, hv, hj, alone⟩ := create_alone { w with launchAtStartup := c.autoStart, config := c }
    exact ⟨v, hv, hj, .next rfl (.next rfl alone)⟩
  · rw [hs]
    exact create_alone { w with config := c }

theorem assigns_of_fits {n : AppConfig} {w : World} {f : Frame} (hf : f.Fits n w)
    (hl : f.loading = false) : f.Assigns n := by
  cases f with
  | launch d => exact Or.inr (Or.inl (congrArg Frame.launch hf.1))
  | launched d => exact Or.inr (Or.inr (congrArg Frame.launched hf.1))
  | testJson | testedJson | readJson | gotJson => cases hl
  | _ => exact Or.inl rfl

theorem diverges_assigner {n c : AppConfig} {s : State} {f : Frame} (inv : Converging n s)
    (one : OneLoader s) (hf : f ∈ s.calls) (ho : f.assigned = false) (hne : n ≠ c) :
    Diverges ⟨(save s.shared c).1, s.calls ++ [(save s.shared c).2]⟩ := by
  obtain ⟨v, hv, hj, alone⟩ := save_alone s.shared c
  have held : (s.calls ++ [(save s.shared c).2]).set s.calls.length (.writeJson c.encode) =
      s.calls ++ [.writeJson c.encode] := by simp
  apply Diverges.before_alone (i := s.calls.length) (by simp) alone
  rw [held]
  by_cases hload : ∃ (j : ℕ) (k : Frame), s.calls[j]? = some k ∧ k.loading = true
  · -- load assigns `n` first
    obtain ⟨j, k, hk, hl⟩ := hload
    have kfits := inv.fits k (List.mem_iff_getElem?.mpr ⟨j, hk⟩)
    have hlt := (List.getElem?_eq_some_iff.mp hk).1
    have hk' : (s.calls ++ [.writeJson c.encode])[j]? = some k := by
      rw [List.getElem?_append_left hlt]
      exact hk
    apply Diverges.before_alone hk' (load_alone hl kfits.1 kfits.2 hj)
    have others : ∀ g ∈ s.calls.set j .returned, g.Assigns n := by
      intro g hg
      obtain ⟨i, hi⟩ := List.mem_iff_getElem?.mp hg
      by_cases hji : j = i
      · subst hji
        simp only [List.getElem?_set_self hlt, Option.some.injEq] at hi
        rw [← hi]
        exact Or.inl rfl
      · simp only [List.getElem?_set_ne hji] at hi
        apply assigns_of_fits (inv.fits g (List.mem_iff_getElem?.mpr ⟨i, hi⟩))
        by_contra hg
        have hj0 := one j k hk hl
        have hi0 := one i g hi (by simpa using hg)
        omega
    rw [List.set_append_left _ _ hlt]
    apply diverges_writeJson (n := c) (c := n) (i := s.calls.length) _ (by simp) (Ne.symm hne)
    exact ⟨forall_snoc others (Or.inl rfl), Or.inl rfl⟩
  · have others : ∀ g ∈ s.calls, g.Assigns n := by
      intro g hg
      apply assigns_of_fits (inv.fits g hg)
      by_contra hl
      obtain ⟨j, hj⟩ := List.mem_iff_getElem?.mp hg
      exact hload ⟨j, g, hj, by simpa using hl⟩
    apply diverges_writeJson (n := c) (c := n) (i := s.calls.length) _ (by simp) (Ne.symm hne)
    exact ⟨forall_snoc others (Or.inl rfl), Or.inr ⟨f, by simp [hf], ho⟩⟩

theorem diverges_disturbed {n c : AppConfig} {s : State} (inv : Converging n s)
    (one : OneLoader s) (h : ¬ Undisturbed s (.start c)) :
    Diverges ⟨(save s.shared c).1, s.calls ++ [(save s.shared c).2]⟩ := by
  by_cases settled : ∀ k ∈ s.calls, k.assigned = true
  · by_cases reach : ∀ x ∈ s.shared.nginxConf, Rewritable c x
    · have apart : ¬ ∀ f ∈ s.calls, f.Agrees c (nextConfig s.shared c) s.shared :=
        fun agree => h ⟨reach, agree⟩
      simp only [not_forall] at apart
      obtain ⟨f, hf, hc⟩ := apart
      obtain ⟨i, hi⟩ := List.mem_iff_getElem?.mp hf
      exact diverges_held inv settled hi reach hc
    · simp only [not_forall] at reach
      obtain ⟨x, hx, signed⟩ := reach
      exact diverges_signed settled hx signed
  · simp only [not_forall, Bool.not_eq_true] at settled
    obtain ⟨k, hk, ho⟩ := settled
    apply diverges_assigner inv one hk ho
    -- a state that converges to `c` already has nothing that disagrees with `c`
    intro hnc
    subst hnc
    refine h ⟨inv.rewritable, fun f hf => ?_⟩
    have agree := (inv.fits f hf).1
    have fresh : ∀ x ∈ s.shared.nginxConf, Shows n (rewrite n x) :=
      fun x hx => (shows_rewrite n x).mpr (inv.rewritable x hx)
    rcases save_cases_next s.shared n with ⟨_, hnext, _⟩ | ⟨_, hnext, _⟩
    · rw [hnext]
      exact agree
    · rw [hnext]
      cases f with
      | create | created => rfl
      | wroteJson | testNginx | readNginx => exact fresh
      | testedNginx found =>
        cases found with
        | true => exact fresh
        | false => trivial
      | gotNginx x => exact (shows_rewrite n x).mpr ((shows_rewrite_iff n _ x).mp agree).1
      | _ => exact agree

def Derived (d : Disk) (x : Text) : Prop :=
  ∃ y, d.nginxConf = some y ∧ (x = y ∨ ∃ c, x = rewrite c y)

def Frame.Derived (d : Disk) : Frame → Prop
  | .gotNginx x => ConfigManager.Derived d x
  | .writeNginx x => ∃ y c, d.nginxConf = some y ∧ x = rewrite c y
  | _ => True

structure Rewritings (d : Disk) (s : State) : Prop where
  nginxConf : s.shared.nginxConf = d.nginxConf ∨
    ∃ c, s.shared.nginxConf = d.nginxConf.map (rewrite c)
  frames : ∀ f ∈ s.calls, f.Derived d

theorem rewrite_rewrite (c d : AppConfig) (x : Text) :
    ∃ e, rewrite c (rewrite d x) = rewrite e x :=
  ⟨{ nginxPort := if d.nginxPort < 0 then d.nginxPort else c.nginxPort,
     phpPort := if d.phpPort < 0 then d.phpPort else c.phpPort }, rewritePorts_rewritePorts ..⟩

section
variable {d : Disk} {s u : State}

theorem Rewritings.text (h : Rewritings d s) {x : Text} (hx : s.shared.nginxConf = some x) :
    Derived d x := by
  rcases h.nginxConf with same | ⟨c, same⟩
  · exact ⟨x, same.symm.trans hx, Or.inl rfl⟩
  · obtain ⟨y, hy, hyx⟩ := Option.map_eq_some_iff.mp (same.symm.trans hx)
    exact ⟨y, hy, Or.inr ⟨c, hyx.symm⟩⟩

theorem derived_advance {f g : Frame} {v : World} (h : Rewritings d s) (hf : f.Derived d)
    (ha : advance s.shared f = some (v, g)) :
    g.Derived d ∧ (v.nginxConf = s.shared.nginxConf ∨
      ∃ c, v.nginxConf = d.nginxConf.map (rewrite c)) := by
  cases f with
  | testedNginx found => cases found <;> cases ha <;> exact ⟨trivial, Or.inl rfl⟩
  | readNginx =>
    simp only [advance] at ha
    split at ha
    · next x hx =>
      cases ha
      exact ⟨h.text hx, Or.inl rfl⟩
    · cases ha
      exact ⟨trivial, Or.inl rfl⟩
  | gotNginx x =>
    cases ha
    obtain ⟨y, hy, rfl | ⟨c, rfl⟩⟩ := hf
    · exact ⟨⟨x, _, hy, rfl⟩, Or.inl rfl⟩
    · obtain ⟨e, he⟩ := rewrite_rewrite s.shared.config c y
      exact ⟨⟨y, e, hy, he⟩, Or.inl rfl⟩
  | writeNginx x =>
    cases ha
    obtain ⟨y, c, hy, rfl⟩ := hf
    exact ⟨trivial, Or.inr ⟨c, by rw [hy]; rfl⟩⟩
  | testedJson found =>
    cases found with
    | true =>
      cases ha
      exact ⟨trivial, Or.inl rfl⟩
    | false =>
      rcases save_cases s.shared s.shared.config with ⟨_, hs⟩ | ⟨_, hs⟩ <;>
        rw [advance, hs] at ha <;> cases ha <;> exact ⟨trivial, Or.inl rfl⟩
  | readJson =>
    simp only [advance] at ha
    split at ha <;> cases ha <;> exact ⟨trivial, Or.inl rfl⟩
  | gotJson content =>
    simp only [advance] at ha
    split at ha <;> cases ha <;> exact ⟨trivial, Or.inl rfl⟩
  | returned => cases ha
  | _ =>
    cases ha
    exact ⟨trivial, Or.inl rfl⟩

theorem rewritings_step {a : Move AppConfig} (h : Rewritings d s) (hs : step s a = some u) :
    Rewritings d u := by
  cases a with
  | start c =>
    cases hs
    have new : (save s.shared c).2.Derived d ∧
        (save s.shared c).1.nginxConf = s.shared.nginxConf := by
      rcases save_cases s.shared c with ⟨_, hsave⟩ | ⟨_, hsave⟩ <;> rw [hsave] <;>
        exact ⟨trivial, rfl⟩
    refine ⟨?_, forall_snoc h.frames new.1⟩
    change (save s.shared c).1.nginxConf = d.nginxConf ∨
      ∃ e, (save s.shared c).1.nginxConf = d.nginxConf.map (rewrite e)
    rw [new.2]
    exact h.nginxConf
  | advance i =>
    obtain ⟨f, g, v, hf, ha, rfl⟩ := Code.step_advance_inv hs
    obtain ⟨hg, hv⟩ := derived_advance h (h.frames f (List.mem_of_getElem? hf)) ha
    refine ⟨?_, fun k hk => ?_⟩
    · rcases hv with same | wrote
      · rw [same]
        exact h.nginxConf
      · exact Or.inr wrote
    · rcases List.mem_or_eq_of_mem_set hk with hk | rfl
      · exact h.frames k hk
      · exact hg
end

theorem rewritings_run {d : Disk} {s : State} {as : List (Move AppConfig)}
    {allow : State → Move AppConfig → Prop} (h : Runs step allow (create d) as s) :
    Rewritings d s := by
  refine h.invariant (Rewritings d) ⟨Or.inl rfl, fun f hf => ?_⟩
    fun _ _ _ inv _ hs => rewritings_step inv hs
  rw [List.mem_singleton.mp hf]
  trivial

/-- All replicas reflect `_config`, and nginx.conf is the rewriting of its text at the
    start for `_config`, unless nothing was written to it. -/
structure Agree (d : Disk) (w : World) : Prop where
  reflects : Reflects w w.config
  nginxConf : w.nginxConf = d.nginxConf ∨ w.nginxConf = d.nginxConf.map (rewrite w.config)

theorem agree_of_reflects {d : Disk} {s : State} (h : Rewritings d s)
    (agree : Reflects s.shared s.shared.config) : Agree d s.shared := by
  refine ⟨agree, h.nginxConf.imp_right ?_⟩
  rintro ⟨c, same⟩
  rw [same]
  refine Option.map_congr fun y hy => ?_
  have shows : Shows s.shared.config (rewrite c y) :=
    agree.nginxConf _ (same ▸ Option.mem_map_of_mem (rewrite c) hy)
  have given := ((shows_rewrite_iff _ c y).mp shows).2
  exact (rewritePorts_eq_iff _ _ _ _ y).mpr ⟨given .listen, given .fastcgiPass⟩

/-- The replicas agree at quiescence in every run whose saves are issued
    undisturbed; after any other save, some order of the remaining awaits ends
    in disagreement. -/
theorem replicas_agree {d : Disk} {c : AppConfig} (hd : d.Reflects c) :
    (∀ (as : List (Move AppConfig)) (s : State), Runs step Undisturbed (create d) as s →
      Quiescent s → Agree d s.shared) ∧
    (∀ (e : AppConfig) (as : List (Move AppConfig)) (s : State),
      Runs step Undisturbed (create d) as s → ¬ Undisturbed s (.start e) →
        ∃ t, step s (.start e) = some t ∧
          ∃ bs u, Runs step Code.Resumes t bs u ∧ Quiescent u ∧
            ¬ Reflects u.shared u.shared.config) := by
  refine ⟨?_, ?_⟩
  · intro as s h hq
    obtain ⟨n, inv⟩ := converging_run hd h
    have agree := inv.reflects hq
    refine agree_of_reflects (rewritings_run h) ?_
    rw [agree.config]
    exact agree
  · intro e as s h hdist
    obtain ⟨n, inv⟩ := converging_run hd h
    exact ⟨_, rfl, diverges_disturbed inv (oneLoader_run h) hdist⟩

/-- Each save is issued when the calls before it have completed; a third save issued
    while the second is to write config.json can be continued to disagreement. -/
theorem second_save_disturbs :
    (∃ s, Runs step Undisturbed
        (create ⟨some (AppConfig.encode {}), some "listen       80;".toList, false⟩)
        (List.replicate 4 (.advance 0) ++ [.start { nginxPort := 81 }] ++
          List.replicate 10 (.advance 1)) s ∧
      Quiescent s ∧ s.shared.nginxConf = some "listen       81;".toList ∧
      Reflects s.shared { nginxPort := 81 }) ∧
    ∃ s t, Runs step Undisturbed
        (create ⟨some (AppConfig.encode {}), some "listen       80;".toList, false⟩)
        (List.replicate 4 (.advance 0) ++ [.start { nginxPort := 81 }] ++
          List.replicate 2 (.advance 1)) s ∧
      step s (.start { nginxPort := 82 }) = some t ∧
      ∃ bs u, Runs step Code.Resumes t bs u ∧ Quiescent u ∧
        ¬ Reflects u.shared u.shared.config := by
  let d : Disk := ⟨some (AppConfig.encode {}), some "listen       80;".toList, false⟩
  let held : State := ⟨⟨d, { nginxPort := 81 }⟩,
    [.returned, .writeJson (AppConfig.encode { nginxPort := 81 })]⟩
  have stored : d.Reflects {} := by
    refine ⟨rfl, fun x hx => ?_, rfl⟩
    rw [← Option.some.inj hx]
    exact shows_text .listen {}
  have reach : ∀ x ∈ d.nginxConf, Rewritable { nginxPort := 81 } x := by
    intro x hx
    rw [← Option.some.inj hx]
    exact rewritable_text (k := .listen) (n := 80) (p := 9000) (by decide) _
  have resumes : ∀ (s u : State) (i k : ℕ),
      LabelledRuns.exec step s (List.replicate k (.advance i)) = some u →
      Runs step Undisturbed s (List.replicate k (.advance i)) u := by
    intro s u i k h
    apply exec_runs_of step s u _ _ h
    intro a ha s
    rw [List.eq_of_mem_replicate ha]
    trivial
  have issued : Runs step Undisturbed (create d)
      (List.replicate 4 (.advance 0) ++ [.start { nginxPort := 81 }])
      ⟨⟨d, { nginxPort := 81 }⟩, [.returned, .create]⟩ := by
    apply (resumes _ ⟨⟨d, {}⟩, [.returned]⟩ 0 4 rfl).snoc _ rfl
    refine ⟨reach, fun f hf => ?_⟩
    rw [List.mem_singleton.mp hf]
    trivial
  have completed := issued.trans (resumes _ ⟨⟨⟨some (AppConfig.encode { nginxPort := 81 }),
    some "listen       81;".toList, false⟩, { nginxPort := 81 }⟩,
    [.returned, .returned]⟩ 1 10 (by decide +kernel))
  refine ⟨⟨_, completed, by decide, rfl, ?_⟩, ?_⟩
  · exact ((replicas_agree stored).1 _ _ completed (by decide)).reflects
  · have run := issued.trans (resumes _ held 1 2 rfl)
    have disturbed : ¬ Undisturbed held (.start { nginxPort := 82 }) := by
      intro h
      have same : AppConfig.encode { nginxPort := 81 } = AppConfig.encode { nginxPort := 82 } :=
        h.2 (.writeJson (AppConfig.encode { nginxPort := 81 })) (by simp [held])
      revert same
      decide
    obtain ⟨t, ht, apart⟩ := (replicas_agree stored).2 _ _ held run disturbed
    exact ⟨held, t, run, ht, apart⟩

/-- The first save's write of config.json completes after the second save has
    finished. -/
theorem overlapping_saves_disagree :
    ∃ s, Runs step always
        (create ⟨some (AppConfig.encode {}), some "listen       80;".toList, false⟩)
        (List.replicate 4 (.advance 0) ++ [.start { nginxPort := 81 }] ++
          List.replicate 2 (.advance 1) ++ [.start { nginxPort := 82 }] ++
          List.replicate 10 (.advance 2) ++ List.replicate 8 (.advance 1)) s ∧
      Quiescent s ∧ s.shared.config = { nginxPort := 82 } ∧
      s.shared.nginxConf = some "listen       82;".toList ∧
      s.shared.configJson.bind AppConfig.decode = some { nginxPort := 81 } :=
  ⟨⟨⟨⟨some (AppConfig.encode { nginxPort := 81 }), some "listen       82;".toList, false⟩,
    { nginxPort := 82 }⟩, [.returned, .returned, .returned]⟩,
    exec_runs step _ _ _ (by decide +kernel), by decide, rfl, rfl, rfl⟩

end Luhut.ConfigManager
