import Luhut.InterleavedCalls

set_option autoImplicit false

/-! The calls of a program read and write a file. The program can end at any moment, in
the middle of a write too; the next session starts with the file as it is. -/
namespace InterleavedCalls
variable {σ α φ χ : Type*}

/-- The characters of `content` over those of `old`, from its start. -/
def overlay (content old : List χ) : List χ := content ++ old.drop content.length

theorem overlay_nil (content : List χ) : overlay content [] = content := by
  unfold overlay
  rw [List.drop_nil, List.append_nil]

/-- `launch` is the start of a session on a file, `writing` the text that a call is in
    the middle of writing. -/
structure Program (σ α φ χ : Type*) where
  code : Code σ α φ
  launch : Option (List χ) → Pool σ φ
  file : σ → Option (List χ)
  writing : φ → Option (List χ)

/-- `exit` ends the program, `tear i n` in the middle of the write of call `i`, after `n`
    characters. -/
inductive Event (α : Type*) where
  | call (m : Move α)
  | exit
  | tear (i n : ℕ)

namespace Program
variable (P : Program σ α φ χ)

def step (s : Pool σ φ) : Event α → Option (Pool σ φ)
  | .call m => P.code.step s m
  | .exit => some (P.launch (P.file s.shared))
  | .tear i n => (s.calls[i]?).bind fun f => (P.writing f).map fun content =>
      P.launch (some (overlay (content.take n) ((P.file s.shared).getD [])))

inductive Step (s : Pool σ φ) : Event α → Pool σ φ → Prop where
  | start (a : α) : Step s (.call (.start a))
      ⟨(P.code.start s.shared a).1, s.calls ++ [(P.code.start s.shared a).2]⟩
  | advance {i : ℕ} {f g : φ} {w : σ} (hf : s.calls[i]? = some f)
      (ha : P.code.advance s.shared f = some (w, g)) :
      Step s (.call (.advance i)) ⟨w, s.calls.set i g⟩
  | exit : Step s .exit (P.launch (P.file s.shared))
  | tear {i n : ℕ} {f : φ} {content : List χ} (hf : s.calls[i]? = some f)
      (hw : P.writing f = some content) : Step s (.tear i n)
      (P.launch (some (overlay (content.take n) ((P.file s.shared).getD []))))

variable {P}

theorem step_spec {s u : Pool σ φ} {e : Event α} (h : P.step s e = some u) : P.Step s e u := by
  cases e with
  | call m =>
    cases m with
    | start a =>
      cases h
      exact .start a
    | advance i =>
      obtain ⟨f, g, w, hf, ha, rfl⟩ := Code.step_advance_inv h
      exact .advance hf ha
  | exit =>
    cases h
    exact .exit
  | tear i n =>
    simp only [step, Option.bind_eq_some_iff, Option.map_eq_some_iff] at h
    obtain ⟨f, hf, content, hw, rfl⟩ := h
    exact .tear hf hw

inductive Left (P : Program σ α φ χ) (s : Pool σ φ) : Option (List χ) → Prop where
  | whole : Left P s (P.file s.shared)
  | torn {f : φ} {content : List χ} (n : ℕ) (hf : f ∈ s.calls) (hw : P.writing f = some content) :
      Left P s (some (overlay (content.take n) ((P.file s.shared).getD [])))

theorem fits_step {I : σ → Prop} {F : σ → φ → Prop} (S : Code.Stable P.code I F) {s u : Pool σ φ}
    {e : Event α} (hs : Code.Fits I F s) (h : P.step s e = some u)
    (start : ∀ a, e = .call (.start a) → Code.Fits I F
      ⟨(P.code.start s.shared a).1, s.calls ++ [(P.code.start s.shared a).2]⟩)
    (launch : ∀ file, Left P s file → Code.Fits I F (P.launch file)) : Code.Fits I F u := by
  cases step_spec h with
  | start a => exact start a rfl
  | advance hf ha => exact S.advance hs h
  | exit => exact launch _ .whole
  | tear hf hw => exact launch _ (.torn _ (List.mem_of_getElem? hf) hw)

end Program
end InterleavedCalls
