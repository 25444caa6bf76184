import Mathlib.Data.Set.Basic
import Mathlib.Data.List.Basic

set_option autoImplicit false

/-! Two occurrences of words of an overlap-free set, in any text, coincide or are
disjoint. A text then has one division into words and single letters, and
replacing words by words divides the new text at the same places. What is said
about repeated search and replace becomes a statement about `List.map`. -/
namespace WordDivision
variable {α : Type*}

structure OverlapFree (W : Set (List α)) : Prop where
  nonempty : [] ∉ W
  aligned : ∀ {u v a r s : List α}, u ∈ W → v ∈ W → u ++ r = a ++ (v ++ s) →
    a.length < u.length → a = [] ∧ u = v

theorem OverlapFree.mono {V W : Set (List α)} (h : V ⊆ W) (hW : OverlapFree W) :
    OverlapFree V :=
  ⟨fun hn => hW.nonempty (h hn), fun hu hv => hW.aligned (h hu) (h hv)⟩

def Begins (W : Set (List α)) (t : List α) : Prop := ∃ w ∈ W, ∃ r, t = w ++ r

theorem Begins.mono {V W : Set (List α)} (h : V ⊆ W) {t : List α} (hb : Begins V t) :
    Begins W t := by
  obtain ⟨w, hw, r, rfl⟩ := hb
  exact ⟨w, h hw, r, rfl⟩

inductive Token (α : Type*) where
  | letter (c : α)
  | word (w : List α)

def Token.text : Token α → List α
  | .letter c => [c]
  | .word w => w

def Token.map (g : List α → List α) : Token α → Token α
  | .letter c => .letter c
  | .word w => .word (g w)

def text (T : List (Token α)) : List α := T.flatMap Token.text

@[simp] theorem text_letter (c : α) (T : List (Token α)) : text (.letter c :: T) = c :: text T :=
  rfl

@[simp] theorem text_word (w : List α) (T : List (Token α)) :
    text (.word w :: T) = w ++ text T := rfl

/-- A division of its text from the left: a letter stands only where no word begins. -/
inductive Divided (W : Set (List α)) : List (Token α) → Prop where
  | nil : Divided W []
  | letter {c : α} {T : List (Token α)} (h : ¬ Begins W (c :: text T)) (tail : Divided W T) :
      Divided W (.letter c :: T)
  | word {w : List α} {T : List (Token α)} (h : w ∈ W) (tail : Divided W T) :
      Divided W (.word w :: T)

theorem Divided.mem_words {W : Set (List α)} {T : List (Token α)} (hT : Divided W T)
    {w : List α} (hw : Token.word w ∈ T) : w ∈ W := by
  induction hT with
  | nil => cases hw
  | letter _ _ ih =>
    cases hw with
    | tail _ hw => exact ih hw
  | word hu _ ih =>
    cases hw with
    | head => exact hu
    | tail _ hw => exact ih hw

theorem text_append (T T' : List (Token α)) : text (T ++ T') = text T ++ text T' :=
  List.flatMap_append

theorem Divided.left {W : Set (List α)} {T T' : List (Token α)} (h : Divided W (T ++ T')) :
    Divided W T := by
  induction T with
  | nil => exact .nil
  | cons t T ih =>
    cases h with
    | @letter c _ hb tail =>
      refine .letter (fun hbegins => hb ?_) (ih tail)
      obtain ⟨w, hw, r, hr⟩ := hbegins
      refine ⟨w, hw, r ++ text T', ?_⟩
      change c :: text (T ++ T') = _
      rw [text_append, ← List.cons_append, hr, List.append_assoc]
    | word hw tail => exact .word hw (ih tail)

theorem Divided.right {W : Set (List α)} {T T' : List (Token α)} (h : Divided W (T ++ T')) :
    Divided W T' := by
  induction T with
  | nil => exact h
  | cons t T ih =>
    cases h with
    | letter _ tail => exact ih tail
    | word _ tail => exact ih tail

section
variable {W : Set (List α)} (hW : OverlapFree W)
include hW

theorem OverlapFree.unique {u v r s : List α} (hu : u ∈ W) (hv : v ∈ W)
    (h : u ++ r = v ++ s) : u = v := by
  have hpos : 0 < u.length := List.length_pos_iff.mpr fun he => hW.nonempty (he ▸ hu)
  exact (hW.aligned (a := []) hu hv h hpos).2

theorem OverlapFree.inside {a s r : List α} (hu : a ++ s ∈ W) (ha : a ≠ []) (hs : s ≠ []) :
    ¬ Begins W (s ++ r) := by
  rintro ⟨v, hv, t, ht⟩
  have hlt : a.length < (a ++ s).length := by
    rw [List.length_append]
    have := List.length_pos_iff.mpr hs
    omega
  exact ha (hW.aligned (r := r) hu hv (by rw [List.append_assoc, ht]) hlt).1

theorem exists_divided (t : List α) : ∃ T, Divided W T ∧ text T = t := by
  induction hn : t.length using Nat.strong_induction_on generalizing t with
  | _ n ih =>
    subst hn
    by_cases hb : Begins W t
    · obtain ⟨w, hw, r, rfl⟩ := hb
      have hpos : 0 < w.length := List.length_pos_iff.mpr fun he => hW.nonempty (he ▸ hw)
      obtain ⟨T, hT, rfl⟩ := ih r.length (by rw [List.length_append]; omega) r rfl
      exact ⟨.word w :: T, .word hw hT, rfl⟩
    · cases t with
      | nil => exact ⟨[], .nil, rfl⟩
      | cons c r =>
        obtain ⟨T, hT, rfl⟩ := ih r.length (Nat.lt_succ_self _) r rfl
        exact ⟨.letter c :: T, .letter hb hT, rfl⟩

theorem Divided.unique {T T' : List (Token α)} (h : Divided W T) (h' : Divided W T')
    (ht : text T = text T') : T = T' := by
  induction h generalizing T' with
  | nil =>
    cases h' with
    | nil => rfl
    | letter _ _ => cases ht
    | word hw _ =>
      exact absurd (List.append_eq_nil_iff.mp ht.symm).1 fun he => hW.nonempty (he ▸ hw)
  | letter hb _ ih =>
    cases h' with
    | nil => cases ht
    | letter _ tail =>
      obtain ⟨rfl, htail⟩ := List.cons.inj ht
      rw [ih tail htail]
    | word hw _ => exact absurd ⟨_, hw, _, ht⟩ hb
  | word hw _ ih =>
    cases h' with
    | nil => exact absurd (List.append_eq_nil_iff.mp ht).1 fun he => hW.nonempty (he ▸ hw)
    | letter hb _ => exact absurd ⟨_, hw, _, ht.symm⟩ hb
    | word hw' tail =>
      obtain rfl := hW.unique hw hw' ht
      rw [ih tail (List.append_cancel_left ht)]

theorem begins_of_map {g : List α → List α} (hg : ∀ w ∈ W, g w ∈ W) {T : List (Token α)}
    (hT : Divided W T) (a r : List α) (s : List α) (hw : a ++ s ∈ W) (ha : a ≠ [])
    (h : text (T.map (Token.map g)) = s ++ r) : ∃ r', text T = s ++ r' := by
  induction hT generalizing a s with
  | nil =>
    obtain ⟨rfl, -⟩ := List.append_eq_nil_iff.mp h.symm
    exact ⟨[], rfl⟩
  | @letter c T _ _ ih =>
    cases s with
    | nil => exact ⟨_, rfl⟩
    | cons d s =>
      obtain ⟨rfl, htail⟩ := List.cons.inj h
      obtain ⟨r', hr'⟩ := ih (a ++ [c]) s (by simpa using hw) (by simp) htail
      exact ⟨r', by rw [text_letter, hr']; rfl⟩
  | @word w T hm _ _ =>
    by_cases hs : s = []
    · subst hs
      exact ⟨_, rfl⟩
    · exact absurd ⟨g w, hg w hm, _, h.symm⟩ (hW.inside hw ha hs)

theorem Divided.map {g : List α → List α} (hg : ∀ w ∈ W, g w ∈ W) {T : List (Token α)}
    (hT : Divided W T) : Divided W (T.map (Token.map g)) := by
  induction hT with
  | nil => exact .nil
  | @letter c T hb tail ih =>
    refine .letter ?_ ih
    rintro ⟨w, hw, r, h⟩
    cases w with
    | nil => exact hW.nonempty hw
    | cons d s =>
      obtain ⟨rfl, htail⟩ := List.cons.inj h
      obtain ⟨r', hr'⟩ :=
        begins_of_map hW hg tail [c] r s hw (List.cons_ne_nil _ _) htail
      exact hb ⟨c :: s, hw, r', by rw [hr']; rfl⟩
  | word hw _ ih => exact .word (hg _ hw) ih

theorem Divided.append_word {T T' : List (Token α)} (hT : Divided W T) {w : List α} (hw : w ∈ W)
    (hT' : Divided W T') : Divided W (T ++ .word w :: T') := by
  induction hT with
  | nil => exact .word hw hT'
  | @letter c T hb _ ih =>
    refine .letter ?_ ih
    rintro ⟨u, hu, r, h⟩
    have hsplit : u ++ r = (c :: text T) ++ (w ++ text T') := by
      rw [← h]
      simp [text, Token.text]
    by_cases hlt : (c :: text T).length < u.length
    · cases (hW.aligned hu hw hsplit hlt).1
    · have hp : u <+: c :: text T :=
        List.prefix_of_prefix_length_le ⟨r, hsplit⟩ (List.prefix_append _ _) (by omega)
      obtain ⟨s, hs⟩ := hp
      exact hb ⟨u, hu, s, hs.symm⟩
  | word hu _ ih => exact .word hu ih

/-- A word of `V ⊆ W` occurs in a text iff it is one of the tokens. -/
theorem Divided.occurs {V : Set (List α)} (hV : V ⊆ W) {T : List (Token α)}
    (hT : Divided W T) (a s : List α) (h : text T = a ++ s) (hb : Begins V s) :
    ∃ w ∈ V, Token.word w ∈ T := by
  induction hT generalizing a with
  | nil =>
    obtain ⟨w, hw, r, rfl⟩ := hb
    have hnil := (List.append_eq_nil_iff.mp (List.append_eq_nil_iff.mp h.symm).2).1
    exact absurd (hV hw) (hnil ▸ hW.nonempty)
  | @letter c T hn _ ih =>
    cases a with
    | nil =>
      rw [text_letter, List.nil_append] at h
      exact absurd (h ▸ hb.mono hV) hn
    | cons d a =>
      obtain ⟨w, hw, hmem⟩ := ih a (List.cons.inj h).2
      exact ⟨w, hw, List.mem_cons_of_mem _ hmem⟩
  | @word u T hu _ ih =>
    by_cases hlt : a.length < u.length
    · obtain ⟨w, hw, r, rfl⟩ := hb
      obtain ⟨-, rfl⟩ := hW.aligned hu (hV hw) h hlt
      exact ⟨u, hw, List.mem_cons_self⟩
    · have hle : u.length ≤ a.length := by omega
      obtain ⟨a', ha⟩ : ∃ a', a = u ++ a' := by
        have hp : u <+: a := List.prefix_of_prefix_length_le ⟨text T, rfl⟩ ⟨s, h.symm⟩ hle
        obtain ⟨a', ha⟩ := hp
        exact ⟨a', ha.symm⟩
      rw [ha, List.append_assoc] at h
      obtain ⟨w, hw, hmem⟩ := ih a' (List.append_cancel_left h)
      exact ⟨w, hw, List.mem_cons_of_mem _ hmem⟩
end

theorem erase_length_le (T : List (Token α)) :
    (text (T.map (Token.map fun _ => []))).length ≤ (text T).length := by
  induction T with
  | nil => exact le_refl _
  | cons t T ih =>
    cases t with
    | letter c => exact Nat.succ_le_succ ih
    | word w =>
      change (text (T.map (Token.map fun _ => []))).length ≤ (w ++ text T).length
      rw [List.length_append]
      omega

theorem erase_eq_iff {T : List (Token α)} (hne : ∀ w, Token.word w ∈ T → w ≠ []) :
    text (T.map (Token.map fun _ => [])) = text T ↔ ∀ w, Token.word w ∉ T := by
  induction T with
  | nil => simp
  | cons t T ih =>
    have tail := ih fun w hw => hne w (List.mem_cons_of_mem _ hw)
    cases t with
    | letter c =>
      change c :: text (T.map (Token.map fun _ => [])) = c :: text T ↔ _
      rw [List.cons_inj_right, tail]
      simp
    | word w =>
      have hpos := List.length_pos_iff.mpr (hne w List.mem_cons_self)
      have hle := erase_length_le T
      constructor
      · intro h
        have hl := congrArg List.length h
        change (text (T.map (Token.map fun _ => []))).length = (w ++ text T).length at hl
        rw [List.length_append] at hl
        omega
      · exact fun h => absurd List.mem_cons_self (h w)

theorem begins_of_mem {W : Set (List α)} {T : List (Token α)} {w : List α} (hw : w ∈ W)
    (hm : Token.word w ∈ T) : ∃ a s, text T = a ++ s ∧ Begins W s := by
  obtain ⟨before, after, rfl⟩ := List.append_of_mem hm
  refine ⟨text before, w ++ text after, ?_, w, hw, _, rfl⟩
  simp [text, Token.text]

end WordDivision
