import Luhut.DartJson

set_option autoImplicit false

/-! A printed value other than a number is closed by its last character: none of
its proper prefixes is a JSON text, and only blanks may follow it. -/
namespace DartJson
open DartInt

def isNumber : Value → Bool
  | .int _ | .double _ => true
  | _ => false

theorem numberValue_isNumber {literal : Text} {phase : Phase} {v : Value}
    (h : numberValue literal phase = some v) : isNumber v = true := by
  cases phase with
  | zero | digits =>
    cases h
    cases tryParse literal <;> rfl
  | fraction | power => cases h; rfl
  | _ => cases h

theorem Complete.eq_after {v : Value} {stack : List Frame} {s : State} (h : Complete v stack s)
    (hv : isNumber v = false) : s = ⟨.after v, stack⟩ := by
  cases h with
  | after => rfl
  | number _ hn => rw [numberValue_isNumber hn] at hv; cases hv

theorem stepAfter_nil {v : Value} {c : Char} {s : State} (h : stepAfter v [] c = some s) :
    s = ⟨.after v, []⟩ ∧ isBlank c = true := by
  unfold stepAfter at h
  split at h
  · next hb => exact ⟨(Option.some.inj h).symm, hb⟩
  · cases h

theorem run_after {v : Value} {t : Text} {s : State} (h : run ⟨.after v, []⟩ t = some s) :
    s = ⟨.after v, []⟩ ∧ t.all isBlank = true := by
  induction t with
  | nil => exact ⟨(Option.some.inj h).symm, rfl⟩
  | cons c t ih =>
    obtain ⟨u, hu, ht⟩ := Option.bind_eq_some_iff.mp h
    obtain ⟨rfl, hc⟩ := stepAfter_nil hu
    obtain ⟨hs, hb⟩ := ih ht
    exact ⟨hs, by simp [hc, hb]⟩

theorem run_blanks {v : Value} {t : Text} (h : t.all isBlank = true) :
    run ⟨.after v, []⟩ t = some ⟨.after v, []⟩ := by
  induction t with
  | nil => rfl
  | cons c t ih =>
    rw [List.all_cons, Bool.and_eq_true] at h
    have first : step ⟨.after v, []⟩ c = some ⟨.after v, []⟩ := by
      simp [step, stepAfter, h.1]
    rw [run_cons t first, ih h.2]

theorem run_number {phase : Phase} {literal t : Text} {s : State}
    (h : run ⟨.number phase literal, []⟩ t = some s) :
    (∃ p l, s = ⟨.number p l, []⟩) ∨ ∃ v, isNumber v = true ∧ s = ⟨.after v, []⟩ := by
  induction t generalizing phase literal with
  | nil => exact Or.inl ⟨phase, literal, (Option.some.inj h).symm⟩
  | cons c t ih =>
    obtain ⟨u, hu, ht⟩ := Option.bind_eq_some_iff.mp h
    simp only [step] at hu
    split at hu
    · rw [← Option.some.inj hu] at ht
      exact ih ht
    · obtain ⟨v, hv, hc⟩ := Option.bind_eq_some_iff.mp hu
      obtain ⟨rfl, _⟩ := stepAfter_nil hc
      exact Or.inr ⟨v, numberValue_isNumber hv, (run_after ht).1⟩

theorem finish_cases {s : State} {v : Value} (h : finish s = some v) :
    s = ⟨.after v, []⟩ ∨ ∃ phase literal, s = ⟨.number phase literal, []⟩ := by
  obtain ⟨mode, stack⟩ := s
  cases stack with
  | cons f stack => cases mode <;> cases h
  | nil =>
    cases mode with
    | after w =>
      cases h
      exact Or.inl rfl
    | number phase literal => exact Or.inr ⟨phase, literal, rfl⟩
    | _ => cases h

theorem printMoreItems_last (items : List Value) : ∃ t, printMoreItems items = t ++ [']'] := by
  induction items with
  | nil => exact ⟨[], rfl⟩
  | cons v items ih =>
    obtain ⟨t, ht⟩ := ih
    refine ⟨',' :: (print v ++ t), ?_⟩
    change ',' :: (print v ++ printMoreItems items) = _
    rw [ht]
    simp

theorem printMoreFields_last (fields : List (Text × Value)) :
    ∃ t, printMoreFields fields = t ++ ['\x7d'] := by
  induction fields with
  | nil => exact ⟨[], rfl⟩
  | cons f fields ih =>
    obtain ⟨key, v⟩ := f
    obtain ⟨t, ht⟩ := ih
    refine ⟨',' :: (quoted key ++ ':' :: (print v ++ t)), ?_⟩
    change ',' :: (quoted key ++ ':' :: (print v ++ printMoreFields fields)) = _
    rw [ht]
    simp

theorem print_map_last (fields : List (Text × Value)) :
    ∃ t, print (.map fields) = t ++ ['\x7d'] := by
  cases fields with
  | nil => exact ⟨['\x7b'], rfl⟩
  | cons f fields =>
    obtain ⟨key, v⟩ := f
    obtain ⟨t, ht⟩ := printMoreFields_last fields
    refine ⟨'\x7b' :: (quoted key ++ ':' :: (print v ++ t)), ?_⟩
    change '\x7b' :: (quoted key ++ ':' :: (print v ++ printMoreFields fields)) = _
    rw [ht]
    simp

theorem print_last {v : Value} (hv : isNumber v = false) :
    ∃ t c, print v = t ++ [c] ∧ isBlank c = false := by
  cases v with
  | null => exact ⟨"nul".toList, 'l', rfl, rfl⟩
  | bool b =>
    cases b with
    | true => exact ⟨"tru".toList, 'e', rfl, rfl⟩
    | false => exact ⟨"fals".toList, 'e', rfl, rfl⟩
  | int n => cases hv
  | double literal => cases hv
  | string s => exact ⟨'\x22' :: s.flatMap escape, '\x22', rfl, rfl⟩
  | list items =>
    cases items with
    | nil => exact ⟨['['], ']', rfl, rfl⟩
    | cons w items =>
      obtain ⟨t, ht⟩ := printMoreItems_last items
      refine ⟨'[' :: (print w ++ t), ']', ?_, rfl⟩
      change '[' :: (print w ++ printMoreItems items) = _
      rw [ht]
      simp
  | map fields =>
    obtain ⟨t, ht⟩ := print_map_last fields
    exact ⟨t, '\x7d', ht, rfl⟩

section
variable {v : Value} (hv : Encodable v) (hn : isNumber v = false)
include hv hn

theorem run_print : run start (print v) = some ⟨.after v, []⟩ := by
  obtain ⟨u, hu, hc⟩ := hv.reads [] start (Or.inl rfl)
  rw [hu, hc.eq_after hn]

theorem parse_print_append (t : Text) :
    parse (print v ++ t) = if t.all isBlank then some v else none := by
  have hrun : parse (print v ++ t) = (run ⟨.after v, []⟩ t).bind finish := by
    unfold parse
    rw [run_of_append t (run_print hv hn)]
  rw [hrun]
  split
  · next hb =>
    rw [run_blanks hb]
    rfl
  · next hb =>
    cases hr : run ⟨.after v, []⟩ t with
    | none => rfl
    | some s => exact absurd (run_after hr).2 hb

/-- A torn text is no JSON text. -/
theorem parse_prefix {p t : Text} (h : print v = p ++ t) (ht : t ≠ []) : parse p = none := by
  cases hp : parse p with
  | none => rfl
  | some w =>
    exfalso
    obtain ⟨s, hs, hw⟩ := Option.bind_eq_some_iff.mp hp
    have whole := run_print hv hn
    rw [h, run_of_append t hs] at whole
    rcases finish_cases hw with rfl | ⟨phase, literal, rfl⟩
    · obtain ⟨x, c, hlast, hc⟩ := print_last hn
      have mem : c ∈ t := by
        have hlast' : (p ++ t).getLast? = some c := by rw [← h, hlast]; simp
        rw [List.getLast?_append_of_ne_nil p ht] at hlast'
        exact List.mem_of_getLast? hlast'
      have hb := List.all_eq_true.mp (run_after whole).2 c mem
      rw [hc] at hb
      cases hb
    · rcases run_number whole with ⟨p, l, he⟩ | ⟨u, hu, he⟩
      · cases he
      · cases he
        rw [hn] at hu
        cases hu
end

end DartJson
