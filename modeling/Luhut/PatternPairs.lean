import Luhut.TextPattern

set_option autoImplicit false

/-! When the matches of two patterns and the texts put in their place all belong to
one overlap-free set, and neither new text is a match of the other pattern, the
two replacements do not see each other. -/
namespace PatternPairs
open WordDivision TextPattern

/-- One pass from the left that puts in whichever pattern matches, the first one
    before the second. The counter is that of `replaceFrom`. -/
def replaceEitherFrom (is js : List Item) (new new' : List Char) : ℕ → List Char → List Char
  | _, [] => []
  | n + 1, _ :: t => replaceEitherFrom is js new new' n t
  | 0, c :: t =>
    match matchHead is (c :: t) with
    | some r => new ++ replaceEitherFrom is js new new' (t.length - r.length) t
    | none =>
      match matchHead js (c :: t) with
      | some r => new' ++ replaceEitherFrom is js new new' (t.length - r.length) t
      | none => c :: replaceEitherFrom is js new new' 0 t

def replaceEither (is js : List Item) (new new' t : List Char) : List Char :=
  replaceEitherFrom is js new new' 0 t

section
variable {is js : List Item} (new new' : List Char)

theorem replaceEitherFrom_skip (a t : List Char) :
    replaceEitherFrom is js new new' a.length (a ++ t) = replaceEither is js new new' t := by
  induction a with
  | nil => rfl
  | cons c a ih => exact ih

theorem matchHead_none {c : Char} {t : List Char} (h : ¬ Begins (language is) (c :: t)) :
    matchHead is (c :: t) = none := by
  rw [← Option.not_isSome_iff_eq_none, matchHead_isSome_iff]
  exact h

theorem matchHead_word (hd : Deterministic is) {c : Char} {w : List Char}
    (hw : c :: w ∈ language is) (r : List Char) : matchHead is (c :: (w ++ r)) = some r :=
  (matchHead_eq_some_iff hd).mpr ⟨c :: w, hw, rfl⟩

theorem length_rest (w r : List Char) : (w ++ r).length - r.length = w.length := by
  rw [List.length_append]
  omega

theorem replaceEither_left (hd : Deterministic is) {w : List Char} (hw : w ∈ language is)
    (hne : w ≠ []) (r : List Char) :
    replaceEither is js new new' (w ++ r) = new ++ replaceEither is js new new' r := by
  cases w with
  | nil => exact absurd rfl hne
  | cons c w =>
    change replaceEitherFrom is js new new' 0 (c :: (w ++ r)) = _
    rw [replaceEitherFrom, matchHead_word hd hw]
    change new ++ replaceEitherFrom is js new new' ((w ++ r).length - r.length) (w ++ r) = _
    rw [length_rest, replaceEitherFrom_skip]

theorem replaceEither_right (hd : Deterministic js) {w : List Char} (hw : w ∈ language js)
    (hne : w ≠ []) (r : List Char) (hno : ¬ Begins (language is) (w ++ r)) :
    replaceEither is js new new' (w ++ r) = new' ++ replaceEither is js new new' r := by
  cases w with
  | nil => exact absurd rfl hne
  | cons c w =>
    change replaceEitherFrom is js new new' 0 (c :: (w ++ r)) = _
    rw [replaceEitherFrom, matchHead_none (t := w ++ r) hno, matchHead_word hd hw]
    change new' ++ replaceEitherFrom is js new new' ((w ++ r).length - r.length) (w ++ r) = _
    rw [length_rest, replaceEitherFrom_skip]

theorem replaceEither_letter {c : Char} {t : List Char}
    (hi : ¬ Begins (language is) (c :: t)) (hj : ¬ Begins (language js) (c :: t)) :
    replaceEither is js new new' (c :: t) = c :: replaceEither is js new new' t := by
  change replaceEitherFrom is js new new' 0 (c :: t) = _
  rw [replaceEitherFrom, matchHead_none hi, matchHead_none hj]
  rfl

theorem replaceEither_pass (w r : List Char)
    (h : ∀ a s, w = a ++ s → s ≠ [] →
      ¬ Begins (language is) (s ++ r) ∧ ¬ Begins (language js) (s ++ r)) :
    replaceEither is js new new' (w ++ r) = w ++ replaceEither is js new new' r := by
  induction w with
  | nil => rfl
  | cons c w ih =>
    have head : ¬ Begins (language is) (c :: (w ++ r)) ∧ ¬ Begins (language js) (c :: (w ++ r)) :=
      h [] (c :: w) rfl (List.cons_ne_nil _ _)
    rw [List.cons_append, replaceEither_letter new new' head.1 head.2,
      ih fun a s hs => h (c :: a) s (by rw [hs]; rfl)]
    rfl
end

def divideFrom (is js : List Item) : ℕ → List Char → List (Token Char)
  | _, [] => []
  | n + 1, _ :: t => divideFrom is js n t
  | 0, c :: t =>
    match (matchHead is (c :: t)).or (matchHead js (c :: t)) with
    | some r =>
      .word (c :: t.take (t.length - r.length)) :: divideFrom is js (t.length - r.length) t
    | none => .letter c :: divideFrom is js 0 t

def divide (is js : List Item) (t : List Char) : List (Token Char) := divideFrom is js 0 t

theorem divideFrom_skip (is js : List Item) (a t : List Char) :
    divideFrom is js a.length (a ++ t) = divide is js t := by
  induction a with
  | nil => rfl
  | cons c a ih => exact ih

section
variable {is js : List Item} (di : Deterministic is) (dj : Deterministic js)
  (hV : OverlapFree (language is ∪ language js))
include di dj hV

theorem matchHead_either {c : Char} {w : List Char} (hw : c :: w ∈ language is ∪ language js)
    (r : List Char) :
    (matchHead is (c :: (w ++ r))).or (matchHead js (c :: (w ++ r))) = some r := by
  by_cases hi : c :: w ∈ language is
  · rw [matchHead_word di hi]
    rfl
  · rw [matchHead_word dj (hw.resolve_left hi), matchHead_none]
    · rfl
    · rintro ⟨v, hv, s, hs⟩
      obtain rfl := hV.unique hw (.inl hv) hs
      exact hi hv

theorem divide_text {T : List (Token Char)} (hT : Divided (language is ∪ language js) T) :
    divide is js (text T) = T := by
  induction hT with
  | nil => rfl
  | @letter c T hb _ ih =>
    change divideFrom is js 0 (c :: text T) = _
    rw [divideFrom, matchHead_none fun h => hb (h.mono Set.subset_union_left),
      matchHead_none fun h => hb (h.mono Set.subset_union_right)]
    exact congrArg (Token.letter c :: ·) ih
  | @word w T hw _ ih =>
    cases w with
    | nil => exact absurd hw hV.nonempty
    | cons c w =>
      change divideFrom is js 0 (c :: (w ++ text T)) = _
      rw [divideFrom, matchHead_either di dj hV hw]
      change .word (c :: (w ++ text T).take ((w ++ text T).length - (text T).length)) ::
        divideFrom is js ((w ++ text T).length - (text T).length) (w ++ text T) = _
      rw [length_rest, List.take_left, divideFrom_skip, ih]

theorem divide_spec (t : List Char) :
    Divided (language is ∪ language js) (divide is js t) ∧ text (divide is js t) = t := by
  obtain ⟨T, hT, rfl⟩ := exists_divided hV t
  rw [divide_text di dj hV hT]
  exact ⟨hT, rfl⟩
end

section
variable {W : Set (List Char)} (hW : OverlapFree W) {is js : List Item}
include hW

theorem not_begins_suffix (hsub : language is ⊆ W) {w : List Char} (hw : w ∈ W)
    (hno : w ∉ language is) (r a s : List Char) (hs : w = a ++ s) (hne : s ≠ []) :
    ¬ Begins (language is) (s ++ r) := by
  cases a with
  | nil =>
    obtain rfl : w = s := hs
    rintro ⟨v, hv, t, ht⟩
    obtain rfl := hW.unique hw (hsub hv) ht
    exact hno hv
  | cons d a => exact fun hb => hW.inside (hs ▸ hw) (List.cons_ne_nil _ _) hne (hb.mono hsub)

open Classical in
theorem replaceEither_text (di : Deterministic is) (dj : Deterministic js)
    (hi : language is ⊆ W) (hj : language js ⊆ W) (new new' : List Char)
    {T : List (Token Char)} (hT : Divided W T) :
    replaceEither is js new new' (text T) =
      text (T.map (Token.map fun w =>
        if w ∈ language is then new else if w ∈ language js then new' else w)) := by
  induction hT with
  | nil => rfl
  | @letter c T hb _ ih =>
    rw [text_letter, replaceEither_letter new new' (fun h => hb (h.mono hi))
      fun h => hb (h.mono hj), ih]
    rfl
  | @word w T hw _ ih =>
    have hne : w ≠ [] := fun he => hW.nonempty (he ▸ hw)
    rw [text_word, List.map_cons, Token.map, text_word]
    by_cases li : w ∈ language is
    · rw [if_pos li, replaceEither_left new new' di li hne, ih]
    · have none := not_begins_suffix hW hi hw li (text T)
      rw [if_neg li]
      by_cases lj : w ∈ language js
      · rw [if_pos lj, replaceEither_right new new' dj lj hne _ (none [] w rfl hne), ih]
      · rw [if_neg lj, replaceEither_pass new new' w, ih]
        intro a s hs hsne
        exact ⟨none a s hs hsne, not_begins_suffix hW hj hw lj (text T) a s hs hsne⟩

section
variable (di : Deterministic is) (hi : language is ⊆ W) (hj : language js ⊆ W)
  {new : List Char}
include di hi hj

/-- A replacement leaves a match of the other pattern as it is, and works on the
    texts before and behind it as if they stood alone. -/
theorem replaceAll_around (disjoint : ∀ w ∈ language is, w ∉ language js) (a b : List Char)
    {m : List Char} (hm : m ∈ language js) :
    replaceAll is new (a ++ (m ++ b)) = replaceAll is new a ++ (m ++ replaceAll is new b) := by
  classical
  obtain ⟨A, hA, rfl⟩ := exists_divided hW a
  obtain ⟨B, hB, rfl⟩ := exists_divided hW b
  have hall := hA.append_word hW (hj hm) hB
  have split : text A ++ (m ++ text B) = text (A ++ .word m :: B) := by
    rw [text_append, text_word]
  rw [split, replaceAll_text hW di hi new hall, replaceAll_text hW di hi new hA,
    replaceAll_text hW di hi new hB, List.map_append, text_append, List.map_cons, Token.map,
    text_word, if_neg fun h => disjoint m h hm]

theorem of_replaceAll_around (hnew : new ∈ W) (hnew' : new ∉ language js)
    {x a' b' m : List Char} (hm : m ∈ language js)
    (h : replaceAll is new x = a' ++ (m ++ b')) :
    ∃ a b, x = a ++ (m ++ b) ∧ a' = replaceAll is new a ∧ b' = replaceAll is new b := by
  classical
  obtain ⟨T, hT, rfl⟩ := exists_divided hW x
  obtain ⟨A, hA, rfl⟩ := exists_divided hW a'
  obtain ⟨B, hB, rfl⟩ := exists_divided hW b'
  have keeps : ∀ w ∈ W, (if w ∈ language is then new else w) ∈ W := by
    intro w hw
    split_ifs
    · exact hnew
    · exact hw
  rw [replaceAll_text hW di hi new hT, ← text_word, ← text_append] at h
  have tokens := (hT.map hW keeps).unique hW (hA.append_word hW (hj hm) hB) h
  obtain ⟨T₁, rest, rfl, h₁, hrest⟩ := List.map_eq_append_iff.mp tokens
  obtain ⟨t, T₂, rfl, ht, h₂⟩ := List.map_eq_cons_iff.mp hrest
  have dT₁ : Divided W T₁ := hT.left
  have dT₂ : Divided W T₂ := by
    cases hT.right with
    | letter _ tail => exact tail
    | word _ tail => exact tail
  have hword : t = .word m := by
    cases t with
    | letter c => cases ht
    | word w =>
      have hw : (if w ∈ language is then new else w) = m := Token.word.inj ht
      split_ifs at hw with hl
      · rw [hw] at hnew'
        exact absurd hm hnew'
      · rw [hw]
  refine ⟨text T₁, text T₂, ?_, ?_, ?_⟩
  · rw [hword, text_append, text_word]
  · rw [← h₁, replaceAll_text hW di hi new dT₁]
  · rw [← h₂, replaceAll_text hW di hi new dT₂]
end

section
variable (di : Deterministic is) (dj : Deterministic js) (hi : language is ⊆ W)
  (hj : language js ⊆ W) (disjoint : ∀ w ∈ language is, w ∉ language js)
  {new new' : List Char}
include di dj hi hj

theorem replaceAll_either (hnew : new ∈ W) (hnew' : new ∉ language js) (x : List Char) :
    replaceAll js new' (replaceAll is new x) = replaceEither is js new new' x := by
  classical
  obtain ⟨T, hT, rfl⟩ := exists_divided hW x
  have keeps : ∀ w ∈ W, (if w ∈ language is then new else w) ∈ W := by
    intro w hw
    split_ifs
    · exact hnew
    · exact hw
  rw [replaceAll_text hW di hi new hT, replaceAll_text hW dj hj new' (hT.map hW keeps),
    replaceEither_text hW di dj hi hj new new' hT, List.map_map]
  congr 1
  refine List.map_congr_left fun t _ => ?_
  cases t with
  | letter c => rfl
  | word w =>
    refine congrArg Token.word ?_
    by_cases hl : w ∈ language is
    · simp only [if_pos hl, if_neg hnew']
    · simp only [if_neg hl]

include disjoint

theorem replaceEither_comm (x : List Char) :
    replaceEither is js new new' x = replaceEither js is new' new x := by
  classical
  obtain ⟨T, hT, rfl⟩ := exists_divided hW x
  rw [replaceEither_text hW di dj hi hj new new' hT, replaceEither_text hW dj di hj hi new' new hT]
  congr 1
  refine List.map_congr_left fun t _ => ?_
  cases t with
  | letter c => rfl
  | word w =>
    refine congrArg Token.word ?_
    by_cases hl : w ∈ language is
    · simp only [if_pos hl, if_neg (disjoint w hl)]
    · simp only [if_neg hl]
end
end

end PatternPairs
