import Luhut.Sessions
import Luhut.NginxSaves

set_option autoImplicit false

/-! `_updateNginxConfig` reads the file and writes it back. `writeAsString` empties it
first, and a read of another call at that moment finds an empty text, which it
writes back as it is. -/
namespace Luhut.NginxFile
open DartInt NginxConf InterleavedCalls LabelledRuns

structure World where
  config : AppConfig
  file : Option Text
deriving DecidableEq, Repr

inductive Call where
  | save (newConfig : AppConfig)
  | load (config : AppConfig)

/-- `test`, `read`, `truncate` and `write` are operations that run; `tested` and `got`
    are calls not resumed after one. -/
inductive Frame where
  | test | tested (found : Bool)
  | read | got (content : Text)
  | truncate (content : Text) | write (content : Text)
  | returned
deriving DecidableEq, Repr

def start (w : World) : Call → World × Frame
  | .save newConfig => ({ w with config := newConfig }, .test)
  | .load config => ({ w with config := config }, .returned)

def advance (w : World) : Frame → Option (World × Frame)
  | .test => some (w, .tested w.file.isSome)
  | .tested true => some (w, .read)
  | .tested false => some (w, .returned)
  | .read =>
    match w.file with
    | some content => some (w, .got content)
    | none => some (w, .returned)
  | .got content => some (w, .truncate (rewrite w.config content))
  | .truncate content => some ({ w with file := some [] }, .write content)
  | .write content => some ({ w with file := some (overlay content (w.file.getD [])) }, .returned)
  | .returned => none

def code : Code World Call Frame := ⟨start, advance⟩

abbrev State := Pool World Frame

def launch (file : Option Text) : State := ⟨⟨{}, file⟩, []⟩

def Frame.writing : Frame → Option Text
  | .write content => some content
  | _ => none

def program : Program World Call Frame Char := ⟨code, launch, World.file, Frame.writing⟩

abbrev Event := InterleavedCalls.Event Call

def step : State → Event → Option State := program.step

theorem writing_eq {f : Frame} {content : Text} (h : f.writing = some content) :
    f = .write content := by
  cases f <;> cases h
  rfl

def Frame.rank : Frame → ℕ
  | .test => 6 | .tested _ => 5 | .read => 4 | .got _ => 3
  | .truncate _ => 2 | .write _ => 1
  | .returned => 0

def Frame.writes : Frame → Bool
  | .write _ => true
  | _ => false

def Frame.opens : Frame → Bool
  | .read | .truncate _ => true
  | _ => false

def Unwritten (s : State) : Prop := ∀ f ∈ s.calls, f.writes = false

instance (s : State) : Decidable (Unwritten s) :=
  inferInstanceAs (Decidable (∀ f ∈ s.calls, f.writes = false))

/-- The file is read, opened for writing and left behind only where no call is in the
    middle of its write. -/
def Exclusive (s : State) : Event → Prop
  | .call (.start _) => True
  | .call (.advance i) => (s.calls[i]?).any Frame.opens = true → Unwritten s
  | .exit => Unwritten s
  | .tear _ _ => False

instance (s : State) : ∀ e, Decidable (Exclusive s e)
  | .call (.start _) => inferInstanceAs (Decidable True)
  | .call (.advance i) =>
    inferInstanceAs (Decidable ((s.calls[i]?).any Frame.opens = true → Unwritten s))
  | .exit => inferInstanceAs (Decidable (Unwritten s))
  | .tear _ _ => inferInstanceAs (Decidable False)

def Frame.Holds (K : Text → Prop) : Frame → Prop
  | .got content | .truncate content | .write content => K content
  | _ => True

def Writer (calls : List Frame) (i : ℕ) : Prop :=
  ∀ (j : ℕ) (f : Frame), calls[j]? = some f → f.writes = true → j = i

/-- The file has a text of `K`, or one call is to write such a text to the empty file. -/
def Intact (K : Text → Prop) (s : State) : Prop :=
  (Unwritten s ∧ ∀ x ∈ s.shared.file, K x) ∨
    ∃ (i : ℕ) (content : Text), s.calls[i]? = some (.write content) ∧
      s.shared.file = some [] ∧ Writer s.calls i

structure Sound (C : AppConfig → Prop) (K : Text → Prop) (s : State) : Prop where
  config : C s.shared.config
  frames : ∀ f ∈ s.calls, f.Holds K
  intact : Intact K s

section
variable {C : AppConfig → Prop} {K : Text → Prop} {s u : State} {i : ℕ} {f g : Frame}

theorem Intact.set {c : AppConfig} (h : Intact K s) (hf : s.calls[i]? = some f)
    (old : f.writes = false) (new : g.writes = false) :
    Intact K ⟨{ s.shared with config := c }, s.calls.set i g⟩ := by
  rcases h with ⟨unwritten, hfile⟩ | ⟨j, content, hj, hfile, writer⟩
  · refine Or.inl ⟨fun k hk => ?_, hfile⟩
    rcases List.mem_or_eq_of_mem_set hk with hk | rfl
    · exact unwritten k hk
    · exact new
  · have hij : i ≠ j := by
      rintro rfl
      cases hf.symm.trans hj
      cases old
    refine Or.inr ⟨j, content, (List.getElem?_set_ne hij).trans hj, hfile, fun k a hk ha => ?_⟩
    rcases Code.set_cases hk with ⟨_, rfl⟩ | ⟨_, held⟩
    · cases ha.symm.trans new
    · exact writer k a held ha

theorem Intact.snoc {c : AppConfig} (h : Intact K s) (new : g.writes = false) :
    Intact K ⟨{ s.shared with config := c }, s.calls ++ [g]⟩ := by
  rcases h with ⟨unwritten, hfile⟩ | ⟨j, content, hj, hfile, writer⟩
  · refine Or.inl ⟨fun k hk => ?_, hfile⟩
    rcases List.mem_append.mp hk with hk | hk
    · exact unwritten k hk
    · rw [List.mem_singleton.mp hk]
      exact new
  · have bound := (List.getElem?_eq_some_iff.mp hj).1
    refine Or.inr ⟨j, content, (List.getElem?_append_left bound).trans hj, hfile,
      fun k a hk ha => ?_⟩
    rcases lt_or_ge k s.calls.length with hlt | hge
    · exact writer k a ((List.getElem?_append_left hlt).symm.trans hk) ha
    · change (s.calls ++ [g])[k]? = some a at hk
      rw [List.getElem?_append_right hge] at hk
      rw [List.mem_singleton.mp (List.mem_of_getElem? hk), new] at ha
      cases ha

theorem Intact.truncate {content : Text} (unwritten : Unwritten s)
    (hf : s.calls[i]? = some f) :
    Intact K ⟨{ s.shared with file := some [] }, s.calls.set i (.write content)⟩ := by
  have bound := (List.getElem?_eq_some_iff.mp hf).1
  refine Or.inr ⟨i, content, List.getElem?_set_self bound, rfl, fun j a hj ha => ?_⟩
  rcases Code.set_cases hj with ⟨same, _⟩ | ⟨_, held⟩
  · exact same
  · cases (unwritten a (List.mem_of_getElem? held)).symm.trans ha

theorem Intact.write {content : Text} (h : Intact K s) (hf : s.calls[i]? = some (.write content))
    (hK : K content) :
    Intact K ⟨{ s.shared with file := some (overlay content (s.shared.file.getD [])) },
      s.calls.set i .returned⟩ := by
  rcases h with ⟨unwritten, _⟩ | ⟨j, other, hj, hfile, writer⟩
  · cases unwritten _ (List.mem_of_getElem? hf)
  · refine Or.inl ⟨fun a ha => ?_, fun x hx => ?_⟩
    · obtain ⟨k, hk⟩ := List.mem_iff_getElem?.mp ha
      rcases Code.set_cases hk with ⟨_, rfl⟩ | ⟨hki, held⟩
      · rfl
      · cases hw : a.writes with
        | false => rfl
        | true => exact absurd ((writer k a held hw).trans (writer i _ hf rfl).symm) hki
    · rw [hfile] at hx
      cases hx
      change K (overlay content [])
      rw [overlay_nil]
      exact hK

theorem Intact.text (h : Intact K s) (unwritten : Unwritten s) : ∀ x ∈ s.shared.file, K x := by
  rcases h with ⟨_, hfile⟩ | ⟨j, content, hj, _⟩
  · exact hfile
  · cases unwritten _ (List.mem_of_getElem? hj)

theorem sound_launch {file : Option Text} (hdefault : C {}) (hfile : ∀ x ∈ file, K x) :
    Sound C K (launch file) :=
  ⟨hdefault, List.forall_mem_nil _, Or.inl ⟨List.forall_mem_nil _, hfile⟩⟩

theorem sound_start {c : Call} (hs : Sound C K s)
    (hc : ∀ d, c = .save d ∨ c = .load d → C d) :
    Sound C K ⟨(start s.shared c).1, s.calls ++ [(start s.shared c).2]⟩ := by
  cases c with
  | save d =>
    refine ⟨hc d (Or.inl rfl), fun k hk => ?_, hs.intact.snoc rfl⟩
    rcases List.mem_append.mp hk with hk | hk
    · exact hs.frames k hk
    · rw [List.mem_singleton.mp hk]
      trivial
  | load d =>
    refine ⟨hc d (Or.inr rfl), fun k hk => ?_, hs.intact.snoc rfl⟩
    rcases List.mem_append.mp hk with hk | hk
    · exact hs.frames k hk
    · rw [List.mem_singleton.mp hk]
      trivial

/-- A step of a call: the configuration stays, and so does what the file is to hold. -/
theorem advance_intact (hs : Sound C K s) (closed : ∀ c x, C c → K x → K (rewrite c x)) {v : World}
    (ok : Exclusive s (.call (.advance i))) (hf : s.calls[i]? = some f)
    (h : advance s.shared f = some (v, g)) :
    v.config = s.shared.config ∧ g.Holds K ∧ Intact K ⟨v, s.calls.set i g⟩ := by
  have held := hs.frames f (List.mem_of_getElem? hf)
  have alone : f.opens = true → Unwritten s := fun ho => ok (by rw [hf, Option.any_some, ho])
  have quiet := fun (k : Frame) (old : f.writes = false) (new : k.writes = false) =>
    hs.intact.set (c := s.shared.config) hf old new
  cases f with
  | test =>
    cases h
    exact ⟨rfl, trivial, quiet _ rfl rfl⟩
  | tested found =>
    cases found <;> cases h <;> exact ⟨rfl, trivial, quiet _ rfl rfl⟩
  | read =>
    simp only [advance] at h
    split at h
    · next x hx =>
      cases h
      exact ⟨rfl, hs.intact.text (alone rfl) x hx, quiet _ rfl rfl⟩
    · cases h
      exact ⟨rfl, trivial, quiet _ rfl rfl⟩
  | got x =>
    cases h
    exact ⟨rfl, closed _ x hs.config held, quiet _ rfl rfl⟩
  | truncate x =>
    cases h
    exact ⟨rfl, held, .truncate (alone rfl) hf⟩
  | write x =>
    cases h
    exact ⟨rfl, trivial, hs.intact.write hf held⟩
  | returned => cases h

theorem sound_step {e : Event} (hs : Sound C K s) (hdefault : C {})
    (closed : ∀ c x, C c → K x → K (rewrite c x)) (ok : Exclusive s e)
    (known : ∀ c d, e = .call (.start c) → c = .save d ∨ c = .load d → C d)
    (h : step s e = some u) : Sound C K u := by
  cases Program.step_spec h with
  | start c => exact sound_start hs fun d => known c d rfl
  | advance hf ha =>
    obtain ⟨same, hg, intact⟩ := advance_intact hs closed ok hf ha
    refine ⟨same ▸ hs.config, fun k hk => ?_, intact⟩
    rcases List.mem_or_eq_of_mem_set hk with hk | rfl
    · exact hs.frames k hk
    · exact hg
  | exit => exact sound_launch hdefault (hs.intact.text ok)
  | tear _ _ => exact ok.elim
end

def Known (es : List Event) (c : AppConfig) : Prop :=
  c = {} ∨ .call (.start (.save c)) ∈ es ∨ .call (.start (.load c)) ∈ es

/-- The text, or the text with the ports of two configurations of the run. -/
def Rewriting (es : List Event) (x y : Text) : Prop :=
  y = x ∨ ∃ c d, Known es c ∧ Known es d ∧ y = rewritePorts c.nginxPort d.phpPort x

theorem rewriting_rewrite {es : List Event} {x y : Text} {c : AppConfig} (hc : Known es c)
    (h : Rewriting es x y) : Rewriting es x (rewrite c y) := by
  rcases h with rfl | ⟨a, b, ha, hb, rfl⟩
  · exact Or.inr ⟨c, c, hc, hc, rfl⟩
  · refine Or.inr ?_
    rw [rewrite, rewritePorts_rewritePorts]
    split_ifs
    · exact ⟨a, b, ha, hb, rfl⟩
    · exact ⟨a, c, ha, hc, rfl⟩
    · exact ⟨c, b, hc, hb, rfl⟩
    · exact ⟨c, c, hc, hc, rfl⟩

theorem exclusive_run {file : Option Text} {es : List Event} {s : State}
    (run : Runs step Exclusive (launch file) es s) :
    Sound (Known es) (fun y => ∀ x ∈ file, Rewriting es x y) s := by
  refine run.labels.invariant _ ?_ fun v e w hv ok h => ?_
  · refine sound_launch (Or.inl rfl) fun y hy x hx => Or.inl ?_
    exact Option.some.inj (hy.symm.trans hx)
  · refine sound_step hv (Or.inl rfl) (fun c y hc hy x hx => rewriting_rewrite hc (hy x hx)) ok.1
      (fun c d he hd => ?_) h
    rcases hd with rfl | rfl
    · exact Or.inr (Or.inl (he ▸ ok.2))
    · exact Or.inr (Or.inr (he ▸ ok.2))

/-- The file is empty, and no call has anything else to write. -/
def Lost (s : State) : Prop :=
  Code.Fits (fun w => w.file = some []) (fun _ f => f.Holds (· = [])) s

theorem rewrite_nil (c : AppConfig) : rewrite c [] = [] := rfl

section
variable {s u : State} {i : ℕ} {f g : Frame}

theorem advance_lost {w v : World} (file : w.file = some []) (held : f.Holds (· = []))
    (h : advance w f = some (v, g)) : v.file = some [] ∧ g.Holds (· = []) := by
  cases f with
  | test =>
    cases h
    exact ⟨file, trivial⟩
  | tested found => cases found <;> cases h <;> exact ⟨file, trivial⟩
  | read =>
    simp only [advance, file] at h
    cases h
    exact ⟨file, rfl⟩
  | got content =>
    cases h
    obtain rfl : content = [] := held
    exact ⟨file, rewrite_nil _⟩
  | truncate content =>
    cases h
    exact ⟨rfl, held⟩
  | write content =>
    cases h
    obtain rfl : content = [] := held
    refine ⟨?_, trivial⟩
    rw [file]
    rfl
  | returned => cases h

theorem lost_stable : Code.Stable code (fun w => w.file = some [])
    fun _ f => f.Holds (· = []) where
  own _ _ _ _ file held h := advance_lost file held h
  other _ _ _ _ _ _ _ held _ := held

theorem lost_step {e : Event} (hs : Lost s) (h : step s e = some u) : Lost u := by
  refine Program.fits_step (P := program) lost_stable hs h (fun c _ => ?_) fun file left => ?_
  · cases c <;> exact Code.Fits.start hs.1 trivial hs.2
  · have empty : file = some [] := by
      cases left with
      | whole => exact hs.1
      | torn n hf hw =>
        have held := hs.2 _ hf
        rw [writing_eq hw] at held
        obtain rfl := held
        change some (overlay (([] : Text).take n) (s.shared.file.getD [])) = some []
        rw [hs.1, List.take_nil]
        rfl
    rw [empty]
    exact ⟨rfl, List.forall_mem_nil _⟩

theorem terminates : Code.Terminates code Frame.rank where
  decreases := by
    intro w f v g h
    change advance w f = some (v, g) at h
    cases f with
    | tested found => cases found <;> cases h <;> decide
    | read =>
      simp only [advance] at h
      split at h <;> cases h <;> simp [Frame.rank]
    | returned => cases h
    | _ => cases h; simp [Frame.rank]
  halts := by
    intro w f h
    change advance w f = none at h
    cases f with
    | tested found => cases found <;> cases h
    | read =>
      simp only [advance] at h
      split at h <;> cases h
    | returned => rfl
    | _ => cases h

theorem rank_eq_zero : f.rank = 0 ↔ f = .returned := by
  cases f <;> simp [Frame.rank]

theorem truncate_alone {w v : World} (h : Code.Alone code w (.truncate []) v g)
    (hg : g.rank = 0) : v.file = some [] := by
  have inv : g = .truncate [] ∨ v.file = some [] ∧ g.Holds (· = []) := by
    refine h.invariant (fun w f => f = .truncate [] ∨ w.file = some [] ∧ f.Holds (· = []))
      (Or.inl rfl) fun w f v g hf ha => Or.inr ?_
    rcases hf with rfl | ⟨file, held⟩
    · cases ha
      exact ⟨rfl, rfl⟩
    · exact advance_lost file held ha
  rcases inv with rfl | ⟨file, _⟩
  · cases hg
  · exact file

theorem read_loses (hf : s.calls[i]? = some .read) (hfile : s.shared.file = some []) :
    ∃ bs u, Runs code.step Code.Resumes s bs u ∧ (∀ f ∈ u.calls, f = .returned) ∧ Lost u := by
  have bound := (List.getElem?_eq_some_iff.mp hf).1
  have first : code.step s (.advance i) = some ⟨s.shared, s.calls.set i (.got [])⟩ :=
    Code.step_advance hf (by simp [code, advance, hfile])
  have second : code.step ⟨s.shared, s.calls.set i (.got [])⟩ (.advance i) =
      some ⟨s.shared, s.calls.set i (.truncate [])⟩ := by
    rw [Code.step_advance (List.getElem?_set_self bound) rfl, List.set_set]
    rfl
  obtain ⟨as, bs, q, u, g, others, _, _, alone, hg, last, quiet⟩ :=
    terminates.last (p := ⟨s.shared, s.calls.set i (.truncate [])⟩) (List.getElem?_set_self bound)
  have returned : ∀ f ∈ u.calls, f = .returned := fun f hm => rank_eq_zero.mp (quiet f hm)
  refine ⟨_, u, .next ⟨i, rfl⟩ first (.next ⟨i, rfl⟩ second
    ((others.mono fun _ _ ho => ?_).trans (last.mono fun _ _ ho => ⟨i, ho⟩))), returned,
    truncate_alone alone hg, fun f hm => ?_⟩
  · obtain ⟨j, _, hj⟩ := ho
    exact ⟨j, hj⟩
  · rw [returned f hm]
    trivial

theorem present_stable : Code.Stable code (fun w => w.file ≠ none) fun _ _ => True where
  own w f v g present _ h := by
    change advance w f = some (v, g) at h
    refine ⟨?_, trivial⟩
    cases f with
    | tested found => cases found <;> cases h <;> exact present
    | read =>
      simp only [advance] at h
      split at h <;> cases h <;> exact present
    | test | got _ =>
      cases h
      exact present
    | truncate _ | write _ =>
      cases h
      exact Option.some_ne_none _
    | returned => cases h
  other _ _ _ _ _ _ _ _ _ := trivial

theorem file_step {e : Event} (hs : s.shared.file ≠ none) (h : step s e = some u) :
    u.shared.file ≠ none := by
  refine (Program.fits_step (P := program) present_stable ⟨hs, fun _ _ => trivial⟩ h
    (fun c _ => ?_) fun file left => ?_).1
  · cases c <;> exact ⟨hs, fun _ _ => trivial⟩
  · cases left with
    | whole => exact ⟨hs, fun _ _ => trivial⟩
    | torn n hf hw => exact ⟨Option.some_ne_none _, fun _ _ => trivial⟩
end

/-- As long as no call reads or opens the file, and no session ends, while a call is in
    the middle of its write, nginx.conf is between the writes the text of the start with
    the ports of configurations of the run. After a read that does not wait, the calls
    in flight can leave the file empty, and then it stays empty whatever is saved. -/
theorem exclusive_keeps_file {x : Text} {es : List Event} {s : State}
    (run : Runs step Exclusive (launch (some x)) es s) :
    (Unwritten s → ∃ y, s.shared.file = some y ∧ Rewriting es x y) ∧
      ∀ i : ℕ, s.calls[i]? = some Frame.read → ¬ Unwritten s →
        ∃ bs u, Runs code.step Code.Resumes s bs u ∧ (∀ f ∈ u.calls, f = .returned) ∧
          ∀ fs v, Runs step always u fs v → v.shared.file = some [] := by
  have sound := exclusive_run run
  refine ⟨fun unwritten => ?_, fun i hi writing => ?_⟩
  · have present : s.shared.file ≠ none :=
      run.invariant (fun v => v.shared.file ≠ none) (Option.some_ne_none x)
        fun _ _ _ hv _ h => file_step hv h
    obtain ⟨y, hy⟩ := Option.ne_none_iff_exists'.mp present
    exact ⟨y, hy, sound.intact.text unwritten y hy x rfl⟩
  · rcases sound.intact with ⟨unwritten, _⟩ | ⟨j, content, _, hfile, _⟩
    · exact absurd unwritten writing
    · obtain ⟨bs, u, resumed, returned, lost⟩ := read_loses hi hfile
      refine ⟨bs, u, resumed, returned, fun fs v later => ?_⟩
      exact (later.invariant Lost lost fun _ _ _ hv _ h => lost_step hv h).1

def overlap : List Event :=
  [.call (.start (.save {})), .call (.start (.save {})), .call (.advance 0), .call (.advance 0),
    .call (.advance 0), .call (.advance 0), .call (.advance 1), .call (.advance 1),
    .call (.advance 0)]

theorem exclusive_keeps_file_overlap :
    ∃ s bs u, Runs step Exclusive (launch (some "listen 80;".toList)) overlap s ∧
      Runs code.step Code.Resumes s bs u ∧
      ∀ fs v, Runs step always u fs v → v.shared.file = some [] := by
  have run : Runs step Exclusive (launch (some "listen 80;".toList)) overlap
      ⟨⟨{}, some []⟩, [.write "listen       80;".toList, .read]⟩ :=
    execWithin_runs _ _ _ _ _ (by decide +kernel)
  obtain ⟨bs, u, resumed, _, lost⟩ :=
    (exclusive_keeps_file run).2 1 rfl (by decide)
  exact ⟨_, bs, u, run, resumed, lost⟩

end Luhut.NginxFile
