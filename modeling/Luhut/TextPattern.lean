import Luhut.WordDivision
import Mathlib.Data.List.Infix

set_option autoImplicit false

/-! A pattern is a sequence of character classes, each taken once or (greedily, with
backtracking) at least once. That is the part of the ECMAScript syntax made of
literals, `.`, `\s+` and `(\d+)`. -/
namespace TextPattern
open WordDivision

structure Item where
  cls : Char → Bool
  many : Bool

def one (cls : Char → Bool) : Item := ⟨cls, false⟩
def plus (cls : Char → Bool) : Item := ⟨cls, true⟩
def literal (t : List Char) : List Item := t.map fun c => one (· == c)

inductive Matches : List Item → List Char → Prop where
  | nil : Matches [] []
  | one {i : Item} {is : List Item} {c : Char} {w : List Char} (h : i.cls c = true)
      (tail : Matches is w) : Matches (i :: is) (c :: w)
  | more {i : Item} {is : List Item} {c : Char} {w : List Char} (many : i.many = true)
      (h : i.cls c = true) (tail : Matches (i :: is) w) : Matches (i :: is) (c :: w)

def language (is : List Item) : Set (List Char) := { w | Matches is w }

def star (cls : Char → Bool) (k : List Char → Option (List Char)) :
    List Char → Option (List Char)
  | [] => k []
  | c :: t => if cls c then (star cls k t).or (k (c :: t)) else k (c :: t)

/-- The text left after a match at the head. -/
def matchHead : List Item → List Char → Option (List Char)
  | [], t => some t
  | _ :: _, [] => none
  | i :: is, c :: t =>
    if i.cls c then if i.many then star i.cls (matchHead is) t else matchHead is t else none

theorem Matches.head {i : Item} {is : List Item} {w : List Char} (h : Matches (i :: is) w) :
    ∃ c t, w = c :: t ∧ i.cls c = true := by
  cases h with
  | one h _ => exact ⟨_, _, rfl, h⟩
  | more _ h _ => exact ⟨_, _, rfl, h⟩

theorem matches_run {i : Item} {is : List Item} {w : List Char} (many : i.many = true)
    (hw : Matches is w) (v : List Char) (c : Char) (hc : i.cls c = true)
    (hv : ∀ d ∈ v, i.cls d = true) : Matches (i :: is) (c :: (v ++ w)) := by
  induction v generalizing c with
  | nil => exact .one hc hw
  | cons d v ih =>
    exact .more many hc (ih d (hv d List.mem_cons_self)
      fun e he => hv e (List.mem_cons_of_mem _ he))

theorem Matches.append {is js : List Item} {v w : List Char} (hv : Matches is v)
    (hw : Matches js w) : Matches (is ++ js) (v ++ w) := by
  induction hv with
  | nil => exact hw
  | one h _ ih => exact .one h ih
  | more many h _ ih => exact .more many h ih

theorem matches_literal (t : List Char) : Matches (literal t) t := by
  induction t with
  | nil => exact .nil
  | cons c t ih => exact .one (beq_self_eq_true c) ih

theorem Matches.eq_literal {t w : List Char} (h : Matches (literal t) w) : w = t := by
  induction t generalizing w with
  | nil =>
    cases h
    rfl
  | cons c t ih =>
    cases h with
    | one hc tail => rw [beq_iff_eq.mp hc, ih tail]
    | more many => cases many

theorem matches_plus {cls : Char → Bool} {v : List Char} (hne : v ≠ [])
    (hv : ∀ c ∈ v, cls c = true) : Matches [plus cls] v := by
  cases v with
  | nil => exact absurd rfl hne
  | cons c v =>
    have h := matches_run (i := plus cls) rfl .nil v c (hv c List.mem_cons_self)
      fun d hd => hv d (List.mem_cons_of_mem _ hd)
    simpa using h

theorem Matches.split (is js : List Item) {w : List Char} (h : Matches (is ++ js) w) :
    ∃ v u, w = v ++ u ∧ Matches is v ∧ Matches js u := by
  generalize hk : is ++ js = ks at h
  induction h generalizing is with
  | nil =>
    obtain ⟨rfl, rfl⟩ := List.append_eq_nil_iff.mp hk
    exact ⟨[], [], rfl, .nil, .nil⟩
  | @one i ks c w hc tail ih =>
    cases is with
    | nil =>
      obtain rfl : js = i :: ks := hk
      exact ⟨[], c :: w, rfl, .nil, .one hc tail⟩
    | cons j is =>
      obtain ⟨rfl, hks⟩ := List.cons.inj hk
      obtain ⟨v, u, rfl, hv, hu⟩ := ih is hks
      exact ⟨c :: v, u, rfl, .one hc hv, hu⟩
  | @more i ks c w many hc tail ih =>
    cases is with
    | nil =>
      obtain rfl : js = i :: ks := hk
      exact ⟨[], c :: w, rfl, .nil, .more many hc tail⟩
    | cons j is =>
      obtain ⟨v, u, rfl, hv, hu⟩ := ih (j :: is) hk
      obtain ⟨rfl, -⟩ := List.cons.inj hk
      exact ⟨c :: v, u, rfl, .more many hc hv, hu⟩

theorem Matches.run {cls : Char → Bool} {v : List Char} (h : Matches [plus cls] v) :
    v ≠ [] ∧ ∀ c ∈ v, cls c = true := by
  generalize hk : [plus cls] = ks at h
  induction h with
  | nil => cases hk
  | @one _ _ c _ hc tail _ =>
    cases hk
    cases tail
    refine ⟨List.cons_ne_nil _ _, ?_⟩
    intro d hd
    obtain rfl := List.mem_singleton.mp hd
    exact hc
  | more _ hc _ ih =>
    refine ⟨List.cons_ne_nil _ _, ?_⟩
    intro d hd
    rcases List.mem_cons.mp hd with rfl | hd
    · cases hk
      exact hc
    · exact (ih hk).2 d hd

theorem Matches.single {cls : Char → Bool} {v : List Char} (h : Matches [TextPattern.one cls] v) :
    ∃ c, v = [c] ∧ cls c = true := by
  cases h with
  | one hc tail =>
    cases tail
    exact ⟨_, rfl, hc⟩
  | more many => cases many

theorem Matches.widen {is js : List Item} {w : List Char} (hm : Matches is w)
    (h : List.Forall₂ (fun i j => i.many = j.many ∧ ∀ c, i.cls c = true → j.cls c = true) is js) :
    Matches js w := by
  induction hm generalizing js with
  | nil =>
    cases h
    exact .nil
  | one hc _ ih =>
    cases h with
    | cons hi his => exact .one (hi.2 _ hc) (ih his)
  | more many hc _ ih =>
    cases h with
    | cons hi his => exact .more (hi.1 ▸ many) (hi.2 _ hc) (ih (.cons hi his))

theorem star_sound {cls : Char → Bool} {k : List Char → Option (List Char)} {t r : List Char}
    (h : star cls k t = some r) :
    ∃ v t', t = v ++ t' ∧ (∀ c ∈ v, cls c = true) ∧ k t' = some r := by
  induction t with
  | nil => exact ⟨[], [], rfl, fun _ hc => absurd hc List.not_mem_nil, h⟩
  | cons c t ih =>
    have stop : k (c :: t) = some r →
        ∃ v t', c :: t = v ++ t' ∧ (∀ c ∈ v, cls c = true) ∧ k t' = some r :=
      fun hk => ⟨[], c :: t, rfl, fun _ hc => absurd hc List.not_mem_nil, hk⟩
    rw [star] at h
    split at h
    · next hc =>
      rcases Option.or_eq_some_iff.mp h with hs | ⟨_, hk⟩
      · obtain ⟨v, t', rfl, hv, hk⟩ := ih hs
        refine ⟨c :: v, t', rfl, ?_, hk⟩
        intro d hd
        rcases List.mem_cons.mp hd with rfl | hd
        · exact hc
        · exact hv d hd
      · exact stop hk
    · exact stop h

theorem matchHead_sound {is : List Item} {t r : List Char} (h : matchHead is t = some r) :
    ∃ w, Matches is w ∧ t = w ++ r := by
  induction is generalizing t with
  | nil => exact ⟨[], .nil, (Option.some.inj h)⟩
  | cons i is ih =>
    cases t with
    | nil => cases h
    | cons c t =>
      rw [matchHead] at h
      split at h
      · next hc =>
        split at h
        · next many =>
          obtain ⟨v, t', rfl, hv, hk⟩ := star_sound h
          obtain ⟨w, hw, rfl⟩ := ih hk
          refine ⟨c :: (v ++ w), matches_run many hw v c hc hv, ?_⟩
          simp
        · obtain ⟨w, hw, rfl⟩ := ih h
          exact ⟨c :: w, .one hc hw, rfl⟩
      · cases h

theorem star_isSome {cls : Char → Bool} {k : List Char → Option (List Char)} {t : List Char}
    (h : (k t).isSome = true) : (star cls k t).isSome = true := by
  cases t with
  | nil => exact h
  | cons c t =>
    rw [star]
    split
    · simp [h]
    · exact h

theorem matchHead_complete {is : List Item} {w : List Char} (h : Matches is w) (r : List Char) :
    (matchHead is (w ++ r)).isSome = true := by
  induction h with
  | nil => rfl
  | @one i is c w hc _ ih =>
    rw [List.cons_append, matchHead, if_pos hc]
    split
    · exact star_isSome ih
    · exact ih
  | @more i is c w many hc tail ih =>
    obtain ⟨d, t, rfl, hd⟩ := tail.head
    rw [List.cons_append, matchHead, if_pos hd, if_pos many] at ih
    rw [List.cons_append, matchHead, if_pos hc, if_pos many, List.cons_append, star, if_pos hd]
    simp [ih]

/-- A repeated class is left as soon as the next class takes over. -/
def Deterministic : List Item → Prop
  | [] => True
  | [i] => i.many = false
  | i :: j :: is =>
    (i.many = true → ∀ c, i.cls c = true → j.cls c = false) ∧ Deterministic (j :: is)

theorem Deterministic.tail {i : Item} {is : List Item} (h : Deterministic (i :: is)) :
    Deterministic is := by
  cases is with
  | nil => trivial
  | cons j is => exact h.2

theorem deterministic_single {is js : List Item} (h : ∀ i ∈ is, i.many = false)
    (hj : Deterministic js) : Deterministic (is ++ js) := by
  induction is with
  | nil => exact hj
  | cons i is ih =>
    have hi := h i List.mem_cons_self
    have ht := ih fun j hj => h j (List.mem_cons_of_mem _ hj)
    rw [List.cons_append]
    generalize is ++ js = rest at ht
    cases rest with
    | nil => exact hi
    | cons j rest => exact ⟨fun many => absurd (hi.symm.trans many) (by decide), ht⟩

theorem literal_single (t : List Char) : ∀ i ∈ literal t, i.many = false := by
  intro i hi
  obtain ⟨c, _, rfl⟩ := List.mem_map.mp hi
  rfl

theorem deterministic_literal (t : List Char) : Deterministic (literal t) := by
  have nil : Deterministic [] := trivial
  have h := deterministic_single (literal_single t) nil
  rwa [List.append_nil] at h

theorem Deterministic.not_both {i : Item} {is : List Item} (hd : Deterministic (i :: is))
    (many : i.many = true) {v w r s : List Char} (hv : Matches is v)
    (hw : Matches (i :: is) w) : v ++ r ≠ w ++ s := by
  intro h
  cases is with
  | nil => exact absurd (many.symm.trans hd) (by decide)
  | cons j is =>
    obtain ⟨c, t, rfl, hc⟩ := hv.head
    obtain ⟨d, u, rfl, hdc⟩ := hw.head
    obtain ⟨rfl, -⟩ := List.cons.inj h
    rw [hd.1 many c hdc] at hc
    cases hc

theorem Matches.unique {is : List Item} {v w r s : List Char} (hd : Deterministic is)
    (hv : Matches is v) (hw : Matches is w) (h : v ++ r = w ++ s) : v = w := by
  induction hv generalizing w with
  | nil =>
    cases hw
    rfl
  | @one i is c v hc tail ih =>
    cases hw with
    | one hc' tail' =>
      obtain ⟨rfl, ht⟩ := List.cons.inj h
      rw [ih hd.tail tail' ht]
    | more many _ tail' => exact absurd (List.cons.inj h).2 (hd.not_both many tail tail')
  | @more i is c v many hc tail ih =>
    cases hw with
    | one _ tail' => exact absurd (List.cons.inj h).2.symm (hd.not_both many tail' tail)
    | more _ _ tail' =>
      obtain ⟨rfl, ht⟩ := List.cons.inj h
      rw [ih hd tail' ht]

theorem matchHead_eq_some_iff {is : List Item} (hd : Deterministic is) {t r : List Char} :
    matchHead is t = some r ↔ ∃ w ∈ language is, t = w ++ r := by
  constructor
  · exact matchHead_sound
  · rintro ⟨w, hw, rfl⟩
    obtain ⟨s, hs⟩ := Option.isSome_iff_exists.mp (matchHead_complete hw r)
    obtain ⟨v, hv, he⟩ := matchHead_sound hs
    obtain rfl := Matches.unique hd hw hv he
    rw [hs, List.append_cancel_left he]

def accepts (is : List Item) (t : List Char) : Bool := matchHead is t == some []

theorem accepts_iff {is : List Item} (hd : Deterministic is) {t : List Char} :
    accepts is t = true ↔ t ∈ language is := by
  rw [accepts, beq_iff_eq, matchHead_eq_some_iff hd]
  constructor
  · rintro ⟨w, hw, rfl⟩
    rwa [List.append_nil]
  · exact fun h => ⟨t, h, (List.append_nil t).symm⟩

theorem matchHead_isSome_iff {is : List Item} {t : List Char} :
    (matchHead is t).isSome = true ↔ Begins (language is) t := by
  constructor
  · intro h
    obtain ⟨r, hr⟩ := Option.isSome_iff_exists.mp h
    obtain ⟨w, hw, rfl⟩ := matchHead_sound hr
    exact ⟨w, hw, r, rfl⟩
  · rintro ⟨w, hw, r, rfl⟩
    exact matchHead_complete hw r

/-- `replaceAllMapped` with a constant replacement, for patterns that match no
    empty word. The counter passes over what the last match has consumed. -/
def replaceFrom (is : List Item) (new : List Char) : ℕ → List Char → List Char
  | _, [] => []
  | n + 1, _ :: t => replaceFrom is new n t
  | 0, c :: t =>
    match matchHead is (c :: t) with
    | some r => new ++ replaceFrom is new (t.length - r.length) t
    | none => c :: replaceFrom is new 0 t

def replaceAll (is : List Item) (new t : List Char) : List Char := replaceFrom is new 0 t

def occurs (is : List Item) (t : List Char) : Bool :=
  t.tails.any fun s => (matchHead is s).isSome

theorem replaceFrom_skip (is : List Item) (new a t : List Char) :
    replaceFrom is new a.length (a ++ t) = replaceAll is new t := by
  induction a with
  | nil => rfl
  | cons c a ih => exact ih

theorem replaceAll_match {is : List Item} (hd : Deterministic is) (new : List Char)
    {w : List Char} (hw : w ∈ language is) (hne : w ≠ []) (r : List Char) :
    replaceAll is new (w ++ r) = new ++ replaceAll is new r := by
  cases w with
  | nil => exact absurd rfl hne
  | cons c w =>
    have hm : matchHead is (c :: (w ++ r)) = some r :=
      (matchHead_eq_some_iff hd).mpr ⟨c :: w, hw, rfl⟩
    have hl : (w ++ r).length - r.length = w.length := by
      rw [List.length_append]
      omega
    change replaceFrom is new 0 (c :: (w ++ r)) = _
    rw [replaceFrom, hm]
    change new ++ replaceFrom is new ((w ++ r).length - r.length) (w ++ r) = _
    rw [hl, replaceFrom_skip]

theorem replaceAll_letter {is : List Item} (new : List Char) {c : Char} {t : List Char}
    (h : ¬ Begins (language is) (c :: t)) :
    replaceAll is new (c :: t) = c :: replaceAll is new t := by
  have hm : matchHead is (c :: t) = none := by
    rw [← Option.not_isSome_iff_eq_none, matchHead_isSome_iff]
    exact h
  change replaceFrom is new 0 (c :: t) = _
  rw [replaceFrom, hm]
  rfl

theorem replaceAll_pass {is : List Item} (new w r : List Char)
    (h : ∀ a s, w = a ++ s → s ≠ [] → ¬ Begins (language is) (s ++ r)) :
    replaceAll is new (w ++ r) = w ++ replaceAll is new r := by
  induction w with
  | nil => rfl
  | cons c w ih =>
    have hc : ¬ Begins (language is) (c :: (w ++ r)) :=
      h [] (c :: w) rfl (List.cons_ne_nil _ _)
    rw [List.cons_append, replaceAll_letter new hc,
      ih fun a s hs => h (c :: a) s (by rw [hs]; rfl)]
    rfl

open Classical in
/-- On a divided text a replacement acts on the words of the pattern. -/
theorem replaceAll_text {W : Set (List Char)} (hW : OverlapFree W) {is : List Item}
    (hd : Deterministic is) (hsub : language is ⊆ W) (new : List Char)
    {T : List (Token Char)} (hT : Divided W T) :
    replaceAll is new (text T) =
      text (T.map (Token.map fun w => if w ∈ language is then new else w)) := by
  induction hT with
  | nil => rfl
  | @letter c T hb _ ih =>
    rw [text_letter, replaceAll_letter new fun h => hb (h.mono hsub), ih]
    rfl
  | @word w T hw _ ih =>
    rw [text_word, List.map_cons, Token.map, text_word]
    split
    · next hl =>
      rw [replaceAll_match hd new hl (fun he => hW.nonempty (he ▸ hw)), ih]
    · next hl =>
      rw [replaceAll_pass new w, ih]
      intro a s hs hne
      cases a with
      | nil =>
        obtain rfl : w = s := hs
        rintro ⟨v, hv, r, hr⟩
        obtain rfl := hW.unique hw (hsub hv) hr
        exact hl hv
      | cons d a =>
        exact fun hb => hW.inside (hs ▸ hw) (List.cons_ne_nil _ _) hne (hb.mono hsub)

theorem occurs_iff {is : List Item} {t : List Char} :
    occurs is t = true ↔ ∃ a s, t = a ++ s ∧ Begins (language is) s := by
  rw [occurs, List.any_eq_true]
  constructor
  · rintro ⟨s, hs, hm⟩
    obtain ⟨a, ha⟩ := (List.mem_tails _ _).mp hs
    exact ⟨a, s, ha.symm, matchHead_isSome_iff.mp hm⟩
  · rintro ⟨a, s, rfl, hb⟩
    exact ⟨s, (List.mem_tails _ _).mpr ⟨a, rfl⟩, matchHead_isSome_iff.mpr hb⟩

theorem occurs_literal_iff {w t : List Char} : occurs (literal w) t = true ↔ w <:+: t := by
  rw [occurs_iff]
  constructor
  · rintro ⟨a, s, rfl, v, hv, r, rfl⟩
    obtain rfl := Matches.eq_literal hv
    exact ⟨a, r, by simp⟩
  · rintro ⟨a, r, rfl⟩
    exact ⟨a, w ++ r, by simp, w, matches_literal w, r, rfl⟩

theorem occurs_text {W : Set (List Char)} (hW : OverlapFree W) {is : List Item}
    (hsub : language is ⊆ W) {T : List (Token Char)} (hT : Divided W T) :
    occurs is (text T) = true ↔ ∃ w ∈ language is, Token.word w ∈ T := by
  rw [occurs_iff]
  constructor
  · rintro ⟨a, s, ht, hb⟩
    exact hT.occurs hW hsub a s ht hb
  · rintro ⟨w, hw, hm⟩
    obtain ⟨a, s, ht, hb⟩ := begins_of_mem hw hm
    exact ⟨a, s, ht, hb⟩

end TextPattern
