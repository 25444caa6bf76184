import Luhut.TextPattern

set_option autoImplicit false

/-! When the first two letters of the keywords can stand nowhere else in a match,
the matches of all patterns together are overlap-free. The condition is checked
on the items of the patterns. -/
namespace KeywordPattern
open WordDivision TextPattern

structure Keyword where
  first : Char
  second : Char
  rest : List Item

def Keyword.tail (k : Keyword) : List Item := one (· == k.second) :: k.rest

def Keyword.items (k : Keyword) : List Item := one (· == k.first) :: k.tail

def Keyword.head (k : Keyword) : Char × Char := (k.first, k.second)

def words (ks : List Keyword) : Set (List Char) := { w | ∃ k ∈ ks, Matches k.items w }

/-- No two adjacent letters of a match are the head of a keyword, and the last
    letter is the first letter of none. -/
def clearOf (heads : List (Char × Char)) : List Item → Bool
  | [] => false
  | [i] => !i.many && heads.all fun h => !i.cls h.1
  | i :: j :: is =>
    (heads.all fun h => !(i.cls h.1 && j.cls h.2)) &&
      (!i.many || heads.all fun h => !(i.cls h.1 && i.cls h.2)) && clearOf heads (j :: is)

theorem clearOf_tail {heads : List (Char × Char)} {i j : Item} {is : List Item}
    (h : clearOf heads (i :: j :: is) = true) : clearOf heads (j :: is) = true := by
  simp only [clearOf, Bool.and_eq_true] at h
  exact h.2

def NoHead (heads : List (Char × Char)) (w : List Char) : Prop :=
  ∀ h ∈ heads, ∀ a s, w = a ++ s → s ≠ [] → ∀ r t, s ++ r ≠ h.1 :: h.2 :: t

theorem noHead_cons {heads : List (Char × Char)} {c : Char} {w : List Char}
    (hw : NoHead heads w) (hc : ∀ h ∈ heads, ∀ r t, c :: w ++ r ≠ h.1 :: h.2 :: t) :
    NoHead heads (c :: w) := by
  intro h hh a s hs hne r t
  cases a with
  | nil =>
    obtain rfl : c :: w = s := hs
    exact hc h hh r t
  | cons d a => exact hw h hh a s (List.cons.inj hs).2 hne r t

theorem noHead_pair {heads : List (Char × Char)} {c d : Char} {w : List Char}
    (hp : ∀ h ∈ heads, ¬ (c = h.1 ∧ d = h.2)) :
    ∀ h ∈ heads, ∀ r t, c :: d :: w ++ r ≠ h.1 :: h.2 :: t := by
  intro h hh r t he
  simp only [List.cons_append, List.cons.injEq] at he
  exact hp h hh ⟨he.1, he.2.1⟩

theorem not_both_of_all {heads : List (Char × Char)} {p q : Char → Bool} {c d : Char}
    (h : (heads.all fun h => !(p h.1 && q h.2)) = true) (hc : p c = true) (hd : q d = true) :
    ∀ h ∈ heads, ¬ (c = h.1 ∧ d = h.2) := by
  rintro g hg ⟨rfl, rfl⟩
  have := List.all_eq_true.mp h g hg
  simp [hc, hd] at this

theorem matches_noHead {heads : List (Char × Char)} {is : List Item} {w : List Char}
    (hm : Matches is w) (hc : clearOf heads is = true) : NoHead heads w := by
  induction hm with
  | nil => cases hc
  | @one i is c w hi tail ih =>
    cases is with
    | nil =>
      cases tail
      simp only [clearOf, Bool.and_eq_true, List.all_eq_true, Bool.not_eq_true'] at hc
      refine noHead_cons ?_ ?_
      · intro h _ a s hs hne
        exact absurd (List.append_eq_nil_iff.mp hs.symm).2 hne
      · intro h hh r t he
        simp only [List.cons_append, List.cons.injEq] at he
        have := hc.2 h hh
        rw [← he.1, hi] at this
        cases this
    | cons j is =>
      obtain ⟨d, t, rfl, hd⟩ := tail.head
      have hadj := hc
      simp only [clearOf, Bool.and_eq_true] at hadj
      exact noHead_cons (ih (clearOf_tail hc)) (noHead_pair (not_both_of_all hadj.1.1 hi hd))
  | @more i is c w many hi tail ih =>
    obtain ⟨d, t, rfl, hd⟩ := tail.head
    refine noHead_cons (ih hc) (noHead_pair ?_)
    cases is with
    | nil => simp [clearOf, many] at hc
    | cons j is =>
      simp only [clearOf, many, Bool.and_eq_true, Bool.not_true, Bool.false_or] at hc
      exact not_both_of_all hc.1.2 hi hd

theorem items_shape {k : Keyword} {w : List Char} (h : Matches k.items w) :
    ∃ u, w = k.first :: k.second :: u ∧ Matches k.tail (k.second :: u) := by
  cases h with
  | one hf tail =>
    cases tail with
    | one hs rest =>
      obtain rfl := beq_iff_eq.mp hf
      obtain rfl := beq_iff_eq.mp hs
      exact ⟨_, rfl, .one hs rest⟩
    | more many => cases many
  | more many => cases many

theorem overlapFree {ks : List Keyword}
    (distinct : ∀ k ∈ ks, ∀ k' ∈ ks, k.first = k'.first → k = k')
    (deterministic : ∀ k ∈ ks, Deterministic k.items)
    (clear : ∀ k ∈ ks, clearOf (ks.map Keyword.head) k.tail = true) :
    OverlapFree (words ks) := by
  refine ⟨?_, ?_⟩
  · rintro ⟨k, _, hm⟩
    obtain ⟨u, hu, -⟩ := items_shape hm
    cases hu
  · rintro u v a r s ⟨k, hk, hu⟩ ⟨k', hk', hv⟩ h hlt
    obtain ⟨u', rfl, htail⟩ := items_shape hu
    obtain ⟨v', rfl, -⟩ := items_shape hv
    cases a with
    | nil =>
      refine ⟨rfl, ?_⟩
      obtain rfl := distinct k hk k' hk' (List.cons.inj h).1
      exact Matches.unique (deterministic k hk) hu hv h
    | cons c a =>
      -- the head of the second word would stand inside the first one
      have hin : k.second :: u' ++ r = a ++ (k'.first :: k'.second :: v' ++ s) :=
        (List.cons.inj h).2
      have hlen : a.length < (k.second :: u').length := by simpa using hlt
      obtain ⟨b, hb⟩ : a <+: k.second :: u' :=
        List.prefix_of_prefix_length_le ⟨_, hin.symm⟩ ⟨r, rfl⟩ hlen.le
      have hne : b ≠ [] := by
        rintro rfl
        rw [List.append_nil] at hb
        rw [hb] at hlen
        exact lt_irrefl _ hlen
      rw [← hb, List.append_assoc] at hin
      exact absurd (List.append_cancel_left hin)
        (matches_noHead htail (clear k hk) k'.head (List.mem_map_of_mem hk') a b hb.symm hne r _)

end KeywordPattern
