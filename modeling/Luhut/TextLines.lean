import Mathlib.Data.List.Basic

set_option autoImplicit false

/-! A line ends at a line feed, or at a carriage return and a line feed. -/
namespace TextLines

def lines : List Char → List (List Char)
  | [] => [[]]
  | '\r' :: '\n' :: rest => [] :: lines rest
  | '\n' :: rest => [] :: lines rest
  | c :: rest =>
    match lines rest with
    | [] => [[c]]
    | line :: tail => (c :: line) :: tail

theorem forall_mem_of_all {p : Char → Prop} [DecidablePred p] {text : List Char}
    (h : (text.all fun c => p c) = true) : ∀ c ∈ text, p c := by
  simpa using h

def Inside (c : Char) (rest : List Char) : Prop :=
  c ≠ '\n' ∧ (c = '\r' → rest.head? ≠ some '\n')

theorem lines_inside {c : Char} {rest : List Char} (h : Inside c rest) :
    lines (c :: rest) = match lines rest with
      | [] => [[c]]
      | line :: tail => (c :: line) :: tail := by
  rw [lines]
  · intro after hc hrest
    rw [hrest] at h
    exact h.2 hc rfl
  · exact h.1

theorem lines_ne_nil (text : List Char) : lines text ≠ [] := by
  fun_induction lines text <;> simp

theorem lines_append (a b : List Char) :
    lines (a ++ '\r' :: '\n' :: b) = lines a ++ lines b := by
  fun_induction lines a with
  | case1 => rfl
  | case2 rest ih => exact congrArg ([] :: ·) ih
  | case3 rest ih => exact congrArg ([] :: ·) ih
  | case4 c rest hcr hn hl => exact absurd hl (lines_ne_nil rest)
  | case5 c rest hcr hn line tail hl ih =>
    have inside : Inside c (rest ++ '\r' :: '\n' :: b) := by
      refine ⟨hn, fun hc hhead => ?_⟩
      cases rest with
      | nil => cases hhead
      | cons d rest =>
        cases hhead
        exact hcr rest hc rfl
    rw [hl] at ih
    change lines (c :: (rest ++ '\r' :: '\n' :: b)) = _
    rw [lines_inside inside, ih]
    rfl

theorem lines_single {line : List Char} (h : ∀ c ∈ line, c ≠ '\n') : lines line = [line] := by
  induction line with
  | nil => rfl
  | cons c line ih =>
    have tail := ih fun d hd => h d (List.mem_cons_of_mem _ hd)
    have inside : Inside c line := by
      refine ⟨h c (by simp), fun _ hhead => ?_⟩
      cases line with
      | nil => cases hhead
      | cons d line =>
        cases hhead
        exact h '\n' (by simp) rfl
    rw [lines_inside inside, tail]

theorem prefix_of_lines {first text : List Char} {tail : List (List Char)}
    (h : lines text = first :: tail) : first <+: text := by
  fun_induction lines text generalizing first tail with
  | case1 => simp [← (List.cons.inj h).1]
  | case2 rest _ => simp [← (List.cons.inj h).1]
  | case3 rest _ => simp [← (List.cons.inj h).1]
  | case4 c rest hcr hn hl => exact absurd hl (lines_ne_nil rest)
  | case5 c rest hcr hn line tail' hl ih =>
    rw [← (List.cons.inj h).1]
    exact (List.prefix_cons_inj c).mpr (ih hl)

theorem infix_of_mem_lines {line text : List Char} (h : line ∈ lines text) : line <:+: text := by
  fun_induction lines text with
  | case1 => simp [List.mem_singleton.mp h]
  | case2 rest ih =>
    rcases List.mem_cons.mp h with h | h
    · simp [h]
    · exact (ih h).trans (List.suffix_append ['\r', '\n'] rest).isInfix
  | case3 rest ih =>
    rcases List.mem_cons.mp h with h | h
    · simp [h]
    · exact (ih h).trans (List.suffix_cons _ rest).isInfix
  | case4 c rest hcr hn hl => exact absurd hl (lines_ne_nil rest)
  | case5 c rest hcr hn first tail hl ih =>
    rcases List.mem_cons.mp h with h | h
    · rw [h]
      exact ((List.prefix_cons_inj c).mpr (prefix_of_lines hl)).isInfix
    · rw [hl] at ih
      exact (ih (List.mem_cons_of_mem _ h)).trans (List.suffix_cons c rest).isInfix

theorem eq_nil_of_prefix_cons {word text : List Char} {c : Char} (h : word <+: c :: text)
    (hc : c ∉ word) : word = [] := by
  cases word with
  | nil => rfl
  | cons d word =>
    rw [(List.cons_prefix_cons.mp h).1] at hc
    exact absurd List.mem_cons_self hc

theorem prefix_first_line {word text first : List Char} {tail : List (List Char)}
    (hr : '\r' ∉ word) (hn : '\n' ∉ word) (h : word <+: text) (hl : lines text = first :: tail) :
    word <+: first := by
  fun_induction lines text generalizing word first tail with
  | case1 =>
    rw [List.prefix_nil.mp h]
    exact List.nil_prefix
  | case2 rest _ =>
    rw [eq_nil_of_prefix_cons h hr]
    exact List.nil_prefix
  | case3 rest _ =>
    rw [eq_nil_of_prefix_cons h hn]
    exact List.nil_prefix
  | case4 c rest _ _ hl' => exact absurd hl' (lines_ne_nil rest)
  | case5 c rest _ _ line tail' hl' ih =>
    rw [← (List.cons.inj hl).1]
    cases word with
    | nil => exact List.nil_prefix
    | cons d word =>
      obtain ⟨rfl, htail⟩ := List.cons_prefix_cons.mp h
      exact (List.prefix_cons_inj d).mpr (ih (fun hm => hr (List.mem_cons_of_mem _ hm))
        (fun hm => hn (List.mem_cons_of_mem _ hm)) htail hl')

/-- A word without line ends stands in the text when it stands in a line of it. -/
theorem infix_iff_mem_lines {word text : List Char} (hr : '\r' ∉ word) (hn : '\n' ∉ word) :
    word <:+: text ↔ ∃ line ∈ lines text, word <:+: line := by
  refine ⟨?_, ?_⟩
  · intro h
    fun_induction lines text with
    | case1 => exact ⟨[], List.mem_singleton_self _, h⟩
    | case2 rest ih =>
      have later : word <:+: rest := by
        rcases List.infix_cons_iff.mp h with h | h
        · rw [eq_nil_of_prefix_cons h hr]
          exact List.nil_infix
        · rcases List.infix_cons_iff.mp h with h | h
          · rw [eq_nil_of_prefix_cons h hn]
            exact List.nil_infix
          · exact h
      obtain ⟨line, hm, hw⟩ := ih later
      exact ⟨line, List.mem_cons_of_mem _ hm, hw⟩
    | case3 rest ih =>
      have later : word <:+: rest := by
        rcases List.infix_cons_iff.mp h with h | h
        · rw [eq_nil_of_prefix_cons h hn]
          exact List.nil_infix
        · exact h
      obtain ⟨line, hm, hw⟩ := ih later
      exact ⟨line, List.mem_cons_of_mem _ hm, hw⟩
    | case4 c rest _ _ hl => exact absurd hl (lines_ne_nil rest)
    | case5 c rest hcr hc line tail hl ih =>
      rcases List.infix_cons_iff.mp h with h | h
      · have first : lines (c :: rest) = (c :: line) :: tail := by
          rw [lines, hl]
          · exact hcr
          · exact hc
        exact ⟨c :: line, List.mem_cons_self, (prefix_first_line hr hn h first).isInfix⟩
      · obtain ⟨line', hm, hw⟩ := ih h
        rw [hl] at hm
        rcases List.mem_cons.mp hm with rfl | hm
        · exact ⟨c :: line', List.mem_cons_self, hw.trans (List.suffix_cons c line').isInfix⟩
        · exact ⟨line', List.mem_cons_of_mem _ hm, hw⟩
  · rintro ⟨line, hm, hw⟩
    exact hw.trans (infix_of_mem_lines hm)

end TextLines
