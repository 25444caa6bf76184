import Luhut.TextLines
import Mathlib.Data.List.Infix
import Mathlib.Data.List.TakeWhile

set_option autoImplicit false

/-! A line holds fields with blanks between them, up to a comment. Its first field is
an address, and every later one a name mapped to it; the first mapping of a name
in the file counts. -/
namespace HostsFile
open TextLines

def blank (c : Char) : Bool := c == ' ' || c == '\t'

def uncommented (line : List Char) : List Char := line.takeWhile (· != '#')

def fields (line : List Char) : List (List Char) :=
  ((uncommented line).splitOnP blank).filter fun word => !word.isEmpty

def names (line : List Char) : List (List Char) := (fields line).tail

def lineMappings (line : List Char) : List (List Char × List Char) :=
  match fields line with
  | [] => []
  | address :: names => names.map fun name => (name, address)

def mappings (text : List Char) : List (List Char × List Char) :=
  (lines text).flatMap lineMappings

def resolve (text name : List Char) : Option (List Char) := (mappings text).lookup name

def fieldChar (c : Char) : Bool := !blank c && c != '#' && c != '\r' && c != '\n'

def FieldText (word : List Char) : Prop := word ≠ [] ∧ word.all fieldChar = true

instance (word : List Char) : Decidable (FieldText word) :=
  inferInstanceAs (Decidable (word ≠ [] ∧ word.all fieldChar = true))

def Word (word : List Char) : Prop := word ≠ [] ∧ ∀ c ∈ word, blank c = false ∧ c ≠ '#'

def Ends (rest : List Char) : Prop := ∀ c, rest.head? = some c → blank c = true ∨ c = '#'

theorem fieldChar_spec {c : Char} (h : fieldChar c = true) :
    blank c = false ∧ c ≠ '#' ∧ c ≠ '\r' ∧ c ≠ '\n' := by
  simpa [fieldChar, and_assoc] using h

theorem FieldText.spec {word : List Char} (h : FieldText word) {c : Char} (hc : c ∈ word) :
    blank c = false ∧ c ≠ '#' ∧ c ≠ '\r' ∧ c ≠ '\n' :=
  fieldChar_spec (List.all_eq_true.mp h.2 c hc)

theorem FieldText.word {word : List Char} (h : FieldText word) : Word word :=
  ⟨h.1, fun _ hc => ⟨(h.spec hc).1, (h.spec hc).2.1⟩⟩

theorem forall_mem_splitOnP {p : Char → Bool} {text word : List Char}
    (h : word ∈ text.splitOnP p) : ∀ c ∈ word, c ∈ text ∧ p c = false := by
  induction text generalizing word with
  | nil =>
    rw [List.splitOnP_nil, List.mem_singleton] at h
    rw [h]
    exact List.forall_mem_nil _
  | cons d text ih =>
    intro c hc
    rw [List.splitOnP_cons_eq_if_modifyHead] at h
    split at h
    · rcases List.mem_cons.mp h with rfl | h
      · cases hc
      · exact (ih h c hc).imp_left (List.mem_cons_of_mem d)
    · next hd =>
      obtain ⟨first, rest, hs⟩ := List.exists_cons_of_ne_nil (List.splitOnP_ne_nil p text)
      rw [hs] at ih h
      rcases List.mem_cons.mp h with rfl | h
      · rcases List.mem_cons.mp hc with rfl | hc
        · exact ⟨List.mem_cons_self, by simpa using hd⟩
        · exact (ih List.mem_cons_self c hc).imp_left (List.mem_cons_of_mem d)
      · exact (ih (List.mem_cons_of_mem _ h) c hc).imp_left (List.mem_cons_of_mem d)

theorem mem_fields {line word : List Char} (h : word ∈ fields line) :
    ∀ c ∈ word, blank c = false ∧ c ≠ '#' := by
  intro c hc
  obtain ⟨hm, hb⟩ := forall_mem_splitOnP (List.mem_of_mem_filter h) c hc
  have hash : (c != '#') = true := List.all_eq_true.mp List.all_takeWhile c hm
  exact ⟨hb, by simpa using hash⟩

theorem uncommented_cons {c : Char} (h : c ≠ '#') (rest : List Char) :
    uncommented (c :: rest) = c :: uncommented rest :=
  List.takeWhile_cons_of_pos (by simpa using h)

theorem fields_blank {c : Char} (h : blank c = true) (rest : List Char) :
    fields (c :: rest) = fields rest := by
  have hash : c ≠ '#' := by
    rintro rfl
    cases h
  rw [fields, uncommented_cons hash, List.splitOnP_cons_eq_if_modifyHead, if_pos h]
  rfl

theorem fields_indent {indent : List Char} (h : ∀ c ∈ indent, blank c = true)
    (rest : List Char) : fields (indent ++ rest) = fields rest := by
  induction indent with
  | nil => rfl
  | cons c indent ih =>
    change fields (c :: (indent ++ rest)) = _
    rw [fields_blank (h c List.mem_cons_self), ih fun d hd => h d (List.mem_cons_of_mem _ hd)]

theorem fields_word {word rest : List Char} (hw : Word word) (hr : Ends rest) :
    fields (word ++ rest) = word :: fields rest := by
  have hash : ∀ c ∈ word, (c != '#') = true := fun c hc => by simpa using (hw.2 c hc).2
  have hblank : ∀ c ∈ word, blank c = false := fun c hc => (hw.2 c hc).1
  have keep (tail : List (List Char)) : (word :: tail).filter (fun word => !word.isEmpty) =
      word :: tail.filter fun word => !word.isEmpty :=
    List.filter_cons_of_pos (by simpa using hw.1)
  have split : uncommented (word ++ rest) = word ++ uncommented rest :=
    List.takeWhile_append_of_pos hash
  have last (h : uncommented rest = []) : fields (word ++ rest) = word :: fields rest := by
    rw [fields, fields, split, h, List.append_nil, List.splitOnP_eq_singleton hblank, keep]
    rfl
  cases rest with
  | nil => exact last rfl
  | cons c rest =>
    rcases hr c rfl with hc | hc
    · have hne : c ≠ '#' := by
        rintro rfl
        cases hc
      rw [fields_blank hc, fields, split, uncommented_cons hne,
        List.splitOnP_append_cons_of_forall_mem hblank c hc, keep]
      rfl
    · rw [hc] at last ⊢
      exact last rfl

theorem fields_append_blank {before : List Char} (hash : '#' ∉ before) {c : Char}
    (hc : blank c = true) (rest : List Char) :
    fields (before ++ c :: rest) = fields before ++ fields rest := by
  have keep : ∀ d ∈ before, (d != '#') = true := by
    intro d hd
    have hne : d ≠ '#' := fun heq => hash (heq ▸ hd)
    simpa using hne
  have sign : c ≠ '#' := by
    rintro rfl
    cases hc
  have whole : uncommented before = before := List.takeWhile_eq_self_iff.mpr keep
  rw [fields, uncommented, List.takeWhile_append_of_pos keep]
  change ((before ++ uncommented (c :: rest)).splitOnP blank).filter _ = _
  rw [uncommented_cons sign, List.splitOnP_append_cons _ _ hc, List.filter_append, fields, whole]
  rfl

theorem fields_cons {line word : List Char} {words : List (List Char)}
    (h : fields line = word :: words) :
    ∃ indent rest, line = indent ++ (word ++ rest) ∧ (∀ c ∈ indent, blank c = true) ∧
      Word word ∧ Ends rest ∧ fields rest = words := by
  induction line with
  | nil => cases h
  | cons c line ih =>
    by_cases hb : blank c = true
    · rw [fields_blank hb] at h
      obtain ⟨indent, rest, rfl, blanks, found⟩ := ih h
      exact ⟨c :: indent, rest, rfl, List.forall_mem_cons.mpr ⟨hb, blanks⟩, found⟩
    · have sign : c ≠ '#' := by
        rintro rfl
        cases h
      let inside : Char → Bool := fun d => !blank d && d != '#'
      have split : (c :: line).takeWhile inside ++ (c :: line).dropWhile inside = c :: line :=
        List.takeWhile_append_dropWhile
      have first : Word ((c :: line).takeWhile inside) := by
        refine ⟨?_, fun d hd => ?_⟩
        · rw [List.takeWhile_cons_of_pos (by simp [inside, hb, sign])]
          exact List.cons_ne_nil _ _
        · simpa [inside] using List.all_eq_true.mp List.all_takeWhile d hd
      have ends : Ends ((c :: line).dropWhile inside) := by
        intro d hd
        have outside := List.head?_dropWhile_not inside (c :: line)
        rw [hd] at outside
        simp only [inside, Bool.and_eq_false_iff, Bool.not_eq_false',
          bne_eq_false_iff_eq] at outside
        exact outside
      rw [← split, fields_word first ends] at h
      obtain ⟨rfl, rfl⟩ := List.cons.inj h
      refine ⟨[], _, split.symm, List.forall_mem_nil _, first, ends, rfl⟩

/-- What stands between the address of a line and one of its names: blanks, and perhaps
    other names between blanks. -/
structure Gap (gap : List Char) : Prop where
  first : ∃ c rest, gap = c :: rest ∧ blank c = true
  last : ∃ before c, gap = before ++ [c] ∧ blank c = true
  comment : '#' ∉ gap

/-- The line is spelled so that it maps the name to the address. -/
def Spelled (address name line : List Char) : Prop :=
  ∃ indent gap rest, line = indent ++ (address ++ (gap ++ (name ++ rest))) ∧
    (∀ c ∈ indent, blank c = true) ∧ Word address ∧ Gap gap ∧ Ends rest

theorem fields_gap {gap : List Char} (h : Gap gap) (rest : List Char) :
    fields (gap ++ rest) = fields gap ++ fields rest := by
  obtain ⟨before, c, rfl, hc⟩ := h.last
  have hash : '#' ∉ before := fun hb => h.comment (List.mem_append_left _ hb)
  rw [List.append_assoc, List.singleton_append, fields_append_blank hash hc,
    fields_append_blank hash hc]
  have none : fields [] = [] := rfl
  rw [none, List.append_nil]

theorem Gap.ends {gap : List Char} (h : Gap gap) (rest : List Char) : Ends (gap ++ rest) := by
  obtain ⟨c, tail, rfl, hc⟩ := h.first
  intro d hd
  cases hd
  exact Or.inl hc

theorem exists_gap {rest name : List Char} (ends : Ends rest) (h : name ∈ fields rest) :
    ∃ gap after, rest = gap ++ (name ++ after) ∧ Gap gap ∧ Ends after := by
  generalize hw : fields rest = words at h
  induction words generalizing rest with
  | nil => cases h
  | cons word words ih =>
    obtain ⟨blanks, after, rfl, all, hword, hafter, hf⟩ := fields_cons hw
    have hash : '#' ∉ blanks := by
      intro hm
      cases all _ hm
    -- a field follows only after a blank
    have some : blanks ≠ [] := by
      rintro rfl
      obtain ⟨c, tail, rfl⟩ := List.exists_cons_of_ne_nil hword.1
      obtain ⟨hb, hs⟩ := hword.2 c List.mem_cons_self
      rcases ends c rfl with h | h
      · rw [hb] at h
        cases h
      · exact hs h
    obtain ⟨c, tail, hc⟩ := List.exists_cons_of_ne_nil some
    have hfirst : blank c = true := all c (hc ▸ List.mem_cons_self)
    rcases List.mem_cons.mp h with rfl | h
    · refine ⟨blanks, after, rfl, ⟨⟨c, tail, hc, hfirst⟩, ?_, hash⟩, hafter⟩
      exact ⟨blanks.dropLast, blanks.getLast some, (List.dropLast_append_getLast some).symm,
        all _ (List.getLast_mem some)⟩
    · obtain ⟨gap, last, rfl, hgap, hlast⟩ := ih hafter hf h
      refine ⟨blanks ++ (word ++ gap), last, by simp only [List.append_assoc], ⟨?_, ?_, ?_⟩, hlast⟩
      · exact ⟨c, tail ++ (word ++ gap), by rw [hc]; rfl, hfirst⟩
      · obtain ⟨before, d, hd, hblank⟩ := hgap.last
        exact ⟨blanks ++ (word ++ before), d, by rw [hd]; simp only [List.append_assoc], hblank⟩
      · rw [List.mem_append, List.mem_append]
        rintro (hm | hm | hm)
        · exact hash hm
        · exact (hword.2 _ hm).2 rfl
        · exact hgap.comment hm

theorem spelled_iff {address name line : List Char} (hn : Word name) :
    Spelled address name line ↔ (fields line).head? = some address ∧ name ∈ names line := by
  constructor
  · rintro ⟨indent, gap, rest, rfl, blanks, haddress, hgap, ends⟩
    have hf : fields (indent ++ (address ++ (gap ++ (name ++ rest)))) =
        address :: (fields gap ++ (name :: fields rest)) := by
      rw [fields_indent blanks, fields_word haddress (hgap.ends _), fields_gap hgap,
        fields_word hn ends]
    rw [names, hf]
    exact ⟨rfl, by simp⟩
  · rintro ⟨head, named⟩
    obtain ⟨word, words, hf⟩ :=
      List.exists_cons_of_ne_nil (List.ne_nil_of_mem (List.mem_of_mem_tail named))
    rw [hf] at head
    cases head
    obtain ⟨indent, rest, rfl, blanks, haddress, ends, hrest⟩ := fields_cons hf
    rw [names, hf, List.tail_cons, ← hrest] at named
    obtain ⟨gap, after, rfl, hgap, hafter⟩ := exists_gap ends named
    exact ⟨indent, gap, after, rfl, blanks, haddress, hgap, hafter⟩

theorem lookup_pairs (words : List (List Char)) (address name : List Char) :
    (words.map fun word => (word, address)).lookup name =
      if name ∈ words then some address else none := by
  induction words with
  | nil => rfl
  | cons word words ih =>
    rw [List.map_cons, List.lookup_cons]
    by_cases hw : name = word
    · simp [hw]
    · have other : (name == word) = false := by simpa using hw
      simp [other, hw, ih]

theorem lookup_lineMappings (line name : List Char) :
    (lineMappings line).lookup name =
      if name ∈ names line then (fields line).head? else none := by
  unfold lineMappings names
  cases fields line with
  | nil => rfl
  | cons address words => exact lookup_pairs words address name

theorem resolve_eq (text name : List Char) :
    resolve text name =
      ((lines text).find? fun line => name ∈ names line).bind fun line => (fields line).head? := by
  unfold resolve mappings
  induction lines text with
  | nil => rfl
  | cons line rest ih =>
    rw [List.flatMap_cons, List.lookup_append, lookup_lineMappings, ih, List.find?_cons]
    by_cases h : name ∈ names line
    · obtain ⟨address, words, hf⟩ :=
        List.exists_cons_of_ne_nil (List.ne_nil_of_mem (List.mem_of_mem_tail h))
      simp [h, hf]
    · simp [h]

theorem names_iff_spelled {name line : List Char} (hn : Word name) :
    name ∈ names line ↔ ∃ address, Spelled address name line := by
  constructor
  · intro named
    obtain ⟨address, words, hf⟩ :=
      List.exists_cons_of_ne_nil (List.ne_nil_of_mem (List.mem_of_mem_tail named))
    exact ⟨address, (spelled_iff hn).mpr ⟨by rw [hf]; rfl, named⟩⟩
  · rintro ⟨address, spelled⟩
    exact ((spelled_iff hn).mp spelled).2

/-- A name resolves to the address of the first line that is spelled with the name. -/
theorem resolve_eq_some_iff {text name address : List Char} (hn : Word name) :
    resolve text name = some address ↔
      ∃ above line below, lines text = above ++ line :: below ∧ Spelled address name line ∧
        ∀ l ∈ above, ∀ a, ¬ Spelled a name l := by
  have unnamed : ∀ l, name ∉ names l ↔ ∀ a, ¬ Spelled a name l := by
    intro l
    rw [names_iff_spelled hn, not_exists]
  rw [resolve_eq, Option.bind_eq_some_iff]
  constructor
  · rintro ⟨line, first, head⟩
    obtain ⟨named, above, below, split, above_unnamed⟩ := List.find?_eq_some_iff_append.mp first
    refine ⟨above, line, below, split, (spelled_iff hn).mpr ⟨head, by simpa using named⟩, ?_⟩
    intro l hl
    exact (unnamed l).mp (by simpa using above_unnamed l hl)
  · rintro ⟨above, line, below, split, spelled, above_unnamed⟩
    obtain ⟨head, named⟩ := (spelled_iff hn).mp spelled
    refine ⟨line, List.find?_eq_some_iff_append.mpr ⟨by simpa using named, above, below, split, ?_⟩,
      head⟩
    intro l hl
    simpa using (unnamed l).mpr (above_unnamed l hl)

theorem resolve_eq_none_iff {text name : List Char} (hn : Word name) :
    resolve text name = none ↔ ∀ l ∈ lines text, ∀ address, ¬ Spelled address name l := by
  constructor
  · intro none l hl address spelled
    obtain ⟨_, named⟩ := (spelled_iff hn).mp spelled
    rw [resolve_eq, Option.bind_eq_none_iff] at none
    cases first : (lines text).find? fun line => name ∈ names line with
    | none => exact List.find?_eq_none.mp first l hl (by simpa using named)
    | some line =>
      have found : name ∈ names line := by simpa using List.find?_some first
      obtain ⟨a, ha⟩ := (names_iff_spelled hn).mp found
      cases ((spelled_iff hn).mp ha).1.symm.trans (none line first)
  · intro unnamed
    by_contra some
    obtain ⟨address, ha⟩ := Option.ne_none_iff_exists'.mp some
    obtain ⟨above, line, below, split, spelled, _⟩ := (resolve_eq_some_iff hn).mp ha
    exact unnamed line (by rw [split]; simp) address spelled

theorem resolve_eq_none {name : List Char} {c : Char} (hc : c ∈ name)
    (h : blank c = true ∨ c = '#') (text : List Char) : resolve text name = none := by
  rw [resolve_eq, Option.bind_eq_none_iff]
  intro line hl
  have hm : name ∈ names line := by simpa using List.find?_some hl
  obtain ⟨hb, hash⟩ := mem_fields (List.mem_of_mem_tail hm) c hc
  rcases h with h | h
  · rw [h] at hb
    cases hb
  · exact absurd h hash

end HostsFile
