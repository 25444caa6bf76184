import Luhut.NginxDirectives
import Luhut.NginxPasses

set_option autoImplicit false

/-! What the rewriting does to a text, against what it should do to the directives
nginx reads from it. -/
namespace Luhut.NginxConf
open DartInt WordDivision TextPattern PatternPairs NginxLexer

def fresh (s : State) : Bool := s.args.isEmpty && s.mode.before.isEmpty

/-- A match, where it stands, may be rewritten. -/
def fineMatch (nginxPort phpPort : ℤ) (s : State) (w : Text) : Bool :=
  match s.mode with
  | .comment => !w.contains '\n'
  | .needSpace => true
  | .word (some _) _ _ => w == newText nginxPort phpPort w
  | _ => plain w && (fresh s || skim w == skim (newText nginxPort phpPort w))

def fineToken (nginxPort phpPort : ℤ) (s : State) (t : Token Char)
    (items : List NginxLexer.Item) : Bool :=
  match t with
  | .letter _ => items.all fun D => update nginxPort phpPort D == D
  | .word w => fineMatch nginxPort phpPort s w

/-- A match does not run out of a comment. -/
def apartToken (s : State) (t : Token Char) (_ : List NginxLexer.Item) : Bool :=
  match t with
  | .letter _ => true
  | .word w => !(s.mode == .comment && w.contains '\n')

/-- Every token is as it should be in the state it is met in. -/
def everyFrom (ok : State → Token Char → List NginxLexer.Item → Bool) :
    State → List (Token Char) → Bool
  | _, [] => true
  | s, t :: T =>
    match read s t.text with
    | none => true
    | some r => ok s t r.1 && everyFrom ok r.2 T

def tokens (x : Text) : List (Token Char) := divide portRegex phpRegex x

def fine (c : AppConfig) (x : Text) : Bool :=
  everyFrom (fineToken c.nginxPort c.phpPort) start (tokens x)

def commentsApart (x : Text) : Bool := everyFrom apartToken start (tokens x)

theorem port_solid (k : Setting) (m : ℤ) : solid (k.host ++ toText m) = true :=
  argument_solid k (toText_ne_nil m) (toText_numeral m)

theorem number_solid (k : Setting) {v : Text} (hv : isNumber v = true) :
    solid (k.host ++ v) = true :=
  argument_solid k (isNumber_iff.mp hv).1 (number_numeral hv)

section
variable {n p : ℤ} {m : Mode} {args : List Text}

theorem read_text (hm : m.Reading) (hq : m.quote = none) (k : Setting) :
    read ⟨m, args⟩ (k.text n p) =
      some ([.directive (args ++ [m.before ++ k.name, k.host ++ toText (k.port n p)]) false],
        start) := by
  rw [text_eq]
  exact read_directive hm hq (name_solid k) (spaces_blank k).1 (spaces_blank k).2 (port_solid k _)

theorem skim_text (k : Setting) :
    skim (k.text n p) = k.name ++ ((k.host ++ toText (k.port n p)) ++ [';']) := by
  rw [text_eq]
  exact skim_directive (name_solid k) (spaces_blank k).2 (port_solid k _)

theorem updateWords_written (k : Setting) (args : List Text) (u : Text) :
    updateWords n p (args ++ [u ++ k.name, k.host ++ toText (k.port n p)]) =
      args ++ [u ++ k.name, k.host ++ toText (k.port n p)] := by
  cases hs : setting? (args ++ [u ++ k.name, k.host ++ toText (k.port n p)]) with
  | none => exact updateWords_other hs
  | some l =>
    obtain ⟨v, hv, heq⟩ := setting_eq_some_iff.mp hs
    obtain ⟨-, -, rfl, hport⟩ := append_eq_setting heq
    rw [heq, updateWords_setting k hv, hport]

theorem plain_parts {k : Setting} {gap h v w : Text} (hm : Matched k gap h v w)
    (hp : plain w = true) :
    ∃ ws v, ws ≠ [] ∧ (∀ c ∈ ws, isBlank c = true) ∧ isNumber v = true ∧
      w = k.name ++ (ws ++ ((k.host ++ v) ++ [';'])) := by
  obtain ⟨l, hl⟩ := plain_iff.mp hp
  have parts := plainPattern_iff.mp hl
  obtain ⟨ws, v, -, -, -, hw⟩ := parts
  obtain rfl := name_head (hm.text.symm.trans hw)
  exact plainPattern_iff.mp hl

theorem read_plain (hm : m.Reading) (hq : m.quote = none) {k : Setting} {gap h d w : Text}
    (hw : Matched k gap h d w) (hp : plain w = true)
    (hf : fresh ⟨m, args⟩ = true ∨ skim w = skim (k.text n p)) {e : List NginxLexer.Item}
    {u : State} (hr : read ⟨m, args⟩ w = some (e, u)) :
    read ⟨m, args⟩ (k.text n p) = some (e.map (update n p), u) := by
  obtain ⟨ws, v, hne, hws, hv, rfl⟩ := plain_parts hw hp
  have directive : read ⟨m, args⟩ (k.name ++ (ws ++ ((k.host ++ v) ++ [';']))) =
      some ([.directive (args ++ [m.before ++ k.name, k.host ++ v]) false], start) :=
    read_directive hm hq (name_solid k) hne hws (number_solid k hv)
  rw [directive] at hr
  cases hr
  have words : updateWords n p (args ++ [m.before ++ k.name, k.host ++ v]) =
      args ++ [m.before ++ k.name, k.host ++ toText (k.port n p)] := by
    rcases hf with hf | hf
    · simp only [fresh, Bool.and_eq_true, List.isEmpty_iff] at hf
      rw [hf.1, hf.2]
      exact updateWords_setting k hv
    · rw [skim_directive (name_solid k) hws (number_solid k hv), skim_text] at hf
      have same := List.append_cancel_left (List.append_cancel_right (List.append_cancel_left hf))
      rw [same]
      exact updateWords_written k args _
  rw [read_text hm hq k, ← words]
  rfl

theorem argument_not_space (k : Setting) {v : Text} (hv : ∀ c ∈ v, isNumeral c = true) :
    ∀ c ∈ k.host ++ v, isSpace c = false := by
  intro c hc
  rcases List.mem_append.mp hc with hc | hc
  · cases k with
    | listen => exact absurd hc List.not_mem_nil
    | fastcgiPass =>
      have none := List.all_eq_true.mp
        (show (Setting.fastcgiPass.host.all fun c => !isSpace c) = true by decide) c hc
      simpa using none
  · by_contra hs
    have hn := space_not_numeral (Bool.eq_true_of_not_eq_false hs)
    rw [hv c hc] at hn
    cases hn

theorem space_reads {c : Char} (h : isSpace c = true) : isBlank c = true ∨ opens c = true := by
  by_cases hb : isBlank c = true
  · exact .inl hb
  · right
    refine opens_of_class (p := fun c => isSpace c && !isBlank c) (by decide) ?_
    simp [h, hb]

section
variable {k : Setting} {ws x t : Text} {words : List Text} {tail : List NginxLexer.Item}
  (hwords : words = args ++ [m.before ++ k.name, k.host ++ x])
include hwords

theorem flatten_words :
    words.flatten = args.flatten ++ (m.before ++ k.name) ++ (k.host ++ x) := by
  simp [hwords]

theorem blanks_of_directive (hx : ∀ c ∈ x, isNumeral c = true) (hws : ∀ c ∈ ws, isSpace c = true)
    (hi : itemsFrom ⟨.word none (m.before ++ k.name) .plain, args⟩ (ws ++ t) =
      some (.directive words false :: tail)) : ∀ c ∈ ws, isBlank c = true := by
  obtain ⟨u, hu, loose, hflat⟩ := read_loose (s := ⟨.word none (m.before ++ k.name) .plain, args⟩)
    (.inr ⟨_, rfl⟩) fun c hc => space_reads (hws c hc)
  change u.flat = args.flatten ++ (m.before ++ k.name) ++ skim ws at hflat
  rw [itemsFrom_silent hu] at hi
  have busy : u.Busy := by
    apply loose.busy
    intro hnil
    rw [hflat] at hnil
    have before := (List.append_eq_nil_iff.mp (List.append_eq_nil_iff.mp hnil).1).2
    exact name_ne_nil k (List.append_eq_nil_iff.mp before).2
  obtain ⟨D, tail', heq, hpre⟩ := first_item busy hi
  obtain ⟨rfl, -⟩ := List.cons.inj heq
  change u.flat <+: words.flatten at hpre
  rw [hflat, flatten_words hwords] at hpre
  have rest := (List.prefix_append_right_inj _).mp hpre
  apply blanks_of_skim
  rw [List.eq_nil_iff_forall_not_mem]
  intro c hc
  have no := argument_not_space k hx c (rest.subset hc)
  rw [hws c (List.mem_of_mem_filter hc)] at no
  cases no

theorem plain_of_directive (hm : m.Reading) (hq : m.quote = none) {h v w : Text}
    (hw : Matched k ws h v w) (hx : ∀ c ∈ x, isNumeral c = true)
    (hi : itemsFrom ⟨m, args⟩ (w ++ t) = some (.directive words false :: tail)) :
    (∀ c ∈ ws, isBlank c = true) ∧ h = k.host := by
  have name : read ⟨m, args⟩ k.name = some ([], ⟨.word none (m.before ++ k.name) .plain, args⟩) :=
    read_solid hm hq (name_solid k)
  rw [hw.text, List.append_assoc, List.append_assoc, List.append_assoc,
    itemsFrom_silent name] at hi
  have blanks := blanks_of_directive hwords hx hw.spaces hi
  refine ⟨blanks, ?_⟩
  rw [itemsFrom_silent (read_gap hw.gap blanks _)] at hi
  refine hw.host.eq_of_space hw.head hi ?_
  change (args ++ [m.before ++ k.name]).flatten ++ k.host <+: words.flatten
  rw [flatten_words hwords, flatten_snoc]
  exact (List.prefix_append_right_inj _).mpr (List.prefix_append _ x)
end

theorem plain_of_items (hm : m.Reading) (hq : m.quote = none) {k : Setting} {ws h v w t t' : Text}
    (hw : Matched k ws h v w) {es : List NginxLexer.Item}
    (hi : itemsFrom ⟨m, args⟩ (w ++ t) = some es)
    (hi' : itemsFrom ⟨m, args⟩ (k.text n p ++ t') = some (es.map (update n p))) :
    plain w = true ∧ (fresh ⟨m, args⟩ = true ∨ skim w = skim (k.text n p)) := by
  obtain ⟨tail', hmap⟩ := first_of_read (read_text hm hq k) hi'
  obtain ⟨D, tail, rfl, hD, -⟩ := List.map_eq_cons_iff.mp hmap
  cases D with
  | close => cases hD
  | directive words block =>
    obtain ⟨hupdate, rfl⟩ := NginxLexer.Item.directive.inj hD
    obtain ⟨x, hx, hwords, alt⟩ := of_updateWords hupdate
    obtain ⟨blanks, rfl⟩ := plain_of_directive hwords hm hq hw hx hi
    have text : w = k.name ++ (ws ++ ((k.host ++ v) ++ [';'])) := by
      rw [hw.text, List.append_assoc k.host]
    refine ⟨plain_iff.mpr ⟨k, plainPattern_iff.mpr ⟨ws, v, hw.gap, blanks, hw.number, text⟩⟩, ?_⟩
    rcases alt with ⟨rfl, hb⟩ | rfl
    · left
      simp [fresh, hb]
    · right
      have solid := number_solid k hw.number
      have directive : read ⟨m, args⟩ w =
          some ([.directive (args ++ [m.before ++ k.name, k.host ++ v]) false], start) := by
        rw [text]
        exact read_directive hm hq (name_solid k) hw.gap blanks solid
      obtain ⟨fs, hfs⟩ := first_of_read directive hi
      have same := (NginxLexer.Item.directive.inj (List.cons.inj hfs).1).1
      rw [hwords] at same
      have arguments := List.append_cancel_left same
      simp only [List.cons.injEq, and_true, true_and] at arguments
      rw [text, skim_directive (name_solid k) blanks solid, skim_text, arguments]
end

theorem name_cons (k : Setting) :
    ∃ c t, k.name = c :: t ∧ opens c = true ∧ c ≠ ')' ∧ ∀ x ∈ t, inert x = true := by
  cases k with
  | listen =>
    exact ⟨'l', "isten".toList, rfl, by decide, by decide, List.all_eq_true.mp (by decide)⟩
  | fastcgiPass =>
    exact ⟨'f', "astcgi_pass".toList, rfl, by decide, by decide, List.all_eq_true.mp (by decide)⟩

theorem blank_inert {c : Char} (h : isBlank c = true) : inert c = true := by
  simp only [isBlank, Bool.or_eq_true, beq_iff_eq] at h
  rcases h with ((rfl | rfl) | rfl) | rfl <;> decide

theorem space_inert {c : Char} (h : isSpace c = true) : inert c = true := by
  rcases space_reads h with hb | ho
  · exact blank_inert hb
  · exact opens_inert ho

theorem number_end_inert {v : Text} (hv : ∀ c ∈ v, isNumeral c = true) :
    ∀ c ∈ v ++ [';'], inert c = true := by
  intro c hc
  rcases List.mem_append.mp hc with hc | hc
  · exact opens_inert (numeral_opens (hv c hc))
  · obtain rfl := List.mem_singleton.mp hc
    decide

theorem semicolon_mem {k : Setting} {ws h v w : Text} (hw : Matched k ws h v w) : ';' ∈ w := by
  rw [hw.text]
  simp

section
variable {n p : ℤ} {m : Mode} {args : List Text} {q : Quote}

theorem read_quoted_match (hm : m.Reading) (hq : m.quote = some q) {k : Setting} {ws h v w : Text}
    (hw : Matched k ws h v w) {r : List NginxLexer.Item × State}
    (hr : read ⟨m, args⟩ w = some r) :
    r = ([], ⟨.word (some q) (m.before ++ w) .plain, args⟩) := by
  obtain ⟨c, t, hname, hc, -, ht⟩ := name_cons k
  have text : w = (c :: (t ++ ws)) ++ (h ++ (v ++ [';'])) := by
    rw [hw.text, hname]
    simp
  have letters : ∀ x ∈ t ++ ws, inert x = true := by
    intro x hx
    rcases List.mem_append.mp hx with hx | hx
    · exact ht x hx
    · exact space_inert (hw.spaces x hx)
  rw [text, read_silent (read_quoted_word hm hq hc letters)] at hr
  have last := hw.host.read_quoted hr
  rw [read_quoted (number_end_inert (number_numeral hw.number))] at last
  rw [← Option.some.inj last, text]
  simp only [List.append_assoc]

theorem read_quoted_text (hm : m.Reading) (hq : m.quote = some q) (k : Setting) :
    read ⟨m, args⟩ (k.text n p) =
      some ([], ⟨.word (some q) (m.before ++ k.text n p) .plain, args⟩) := by
  obtain ⟨c, t, hname, hc, -, ht⟩ := name_cons k
  have text : k.text n p =
      c :: (t ++ (k.spaces ++ (k.host ++ (toText (k.port n p) ++ [';'])))) := by
    rw [text_eq, hname]
    simp
  rw [text]
  refine read_quoted_word hm hq hc ?_
  intro x hx
  simp only [List.mem_append] at hx
  rcases hx with hx | hx | hx | hx
  · exact ht x hx
  · exact blank_inert ((spaces_blank k).2 x hx)
  · exact opens_inert (host_opens k x hx)
  · exact number_end_inert (toText_numeral _) x (List.mem_append.mpr hx)

theorem update_words (D : NginxLexer.Item) : (update n p D).words = updateWords n p D.words := by
  cases D <;> rfl

theorem quoted_first {w t : Text} {es : List NginxLexer.Item}
    (h : itemsFrom ⟨.word (some q) (m.before ++ w) .plain, args⟩ t = some es) :
    ∃ D tail, es = D :: tail ∧ args.flatten ++ m.before ++ w <+: D.words.flatten := by
  obtain ⟨D, tail, heq, hpre⟩ := first_item (.inr ⟨_, _, _, rfl⟩) h
  refine ⟨D, tail, heq, ?_⟩
  rw [List.append_assoc]
  exact hpre

theorem eq_of_quoted (hm : m.Reading) (hq : m.quote = some q) {k : Setting} {ws h v w t t' : Text}
    (hd : w ∈ directives) (hw : Matched k ws h v w) {es : List NginxLexer.Item}
    (hi : itemsFrom ⟨m, args⟩ (w ++ t) = some es)
    (hi' : itemsFrom ⟨m, args⟩ (k.text n p ++ t') = some (es.map (update n p))) :
    w = k.text n p := by
  obtain ⟨e, u, hr⟩ := exists_read hi
  have after := read_quoted_match hm hq hw hr
  rw [after] at hr
  rw [itemsFrom_silent hr] at hi
  rw [itemsFrom_silent (read_quoted_text hm hq k)] at hi'
  obtain ⟨D, tail, rfl, hpre⟩ := quoted_first hi
  obtain ⟨D', tail', heq, hpre'⟩ := quoted_first hi'
  obtain ⟨rfl, -⟩ := List.cons.inj heq
  rw [update_words] at hpre'
  cases hs : setting? D.words with
  | some l =>
    -- the words of a setting hold no semicolon
    obtain ⟨v', hv', hwords⟩ := setting_eq_some_iff.mp hs
    have hmem : ';' ∈ D.words.flatten :=
      hpre.subset (List.mem_append_right _ (semicolon_mem hw))
    rw [hwords] at hmem
    have flat : [l.name, l.host ++ v'].flatten = l.name ++ (l.host ++ v') := by simp
    rw [flat] at hmem
    rcases List.mem_append.mp hmem with hmem | hmem
    · exact absurd (solid_ordinary (name_solid l) _ hmem) (by decide)
    · exact absurd (solid_ordinary (number_solid l hv') _ hmem) (by decide)
  | none =>
    rw [updateWords_other hs] at hpre'
    obtain ⟨r, hr⟩ := hpre
    obtain ⟨r', hr'⟩ := hpre'
    have hu := hr.trans hr'.symm
    rw [List.append_assoc, List.append_assoc _ _ r'] at hu
    have hk : k.text n p ∈ directives := by
      cases k
      · exact listenText_mem n
      · exact fastcgiText_mem p
    exact directives_overlapFree.unique hd hk (List.append_cancel_left hu)

theorem text_line (n p : ℤ) (k : Setting) : '\n' ∉ k.text n p := by
  have notIn {u : Text} (hu : solid u = true) : '\n' ∉ u :=
    fun h => absurd (solid_ordinary hu _ h) (by decide)
  rw [text_eq]
  intro h
  simp only [List.mem_append] at h
  rcases h with h | h | h | h
  · exact notIn (name_solid k) h
  · cases k <;> exact absurd h (by decide)
  · exact notIn (port_solid k (k.port n p)) (List.mem_append.mpr h)
  · exact absurd h (by decide)

theorem read_needSpace {k : Setting} {ws h v w : Text} (hw : Matched k ws h v w) :
    read ⟨.needSpace, args⟩ w = none := by
  obtain ⟨c, t, hname, hc, hp, -⟩ := name_cons k
  rw [hw.text, hname, List.cons_append, NginxLexer.read, step_needSpace hc hp]
  rfl

theorem read_comment_text (k : Setting) :
    read ⟨.comment, args⟩ (k.text n p) = some ([], ⟨.comment, args⟩) :=
  read_comment (text_line n p k)
end

section
variable {n p : ℤ}

theorem fineMatch_free {m : Mode} {args : List Text} (hm : m.Reading) (hq : m.quote = none)
    (w : Text) : fineMatch n p ⟨m, args⟩ w =
      (plain w && (fresh ⟨m, args⟩ || skim w == skim (newText n p w))) := by
  rcases hm with rfl | ⟨quote, u, flag, rfl⟩
  · rfl
  · obtain rfl : quote = none := hq
    rfl

theorem read_newText {s : State} {w : Text} (hw : w ∈ language portRegex ∪ language phpRegex)
    (hf : fineMatch n p s w = true) {e : List NginxLexer.Item} {u : State}
    (hr : read s w = some (e, u)) : read s (newText n p w) = some (e.map (update n p), u) := by
  obtain ⟨k, ws, h, v, hk, hmatched⟩ := exists_matched hw
  obtain ⟨m, args⟩ := s
  have unquoted (hm : m.Reading) (hq : m.quote = none) :
      read ⟨m, args⟩ (newText n p w) = some (e.map (update n p), u) := by
    rw [fineMatch_free hm hq, newText_eq n p hk] at hf
    simp only [Bool.and_eq_true, Bool.or_eq_true, beq_iff_eq] at hf
    rw [newText_eq n p hk]
    exact read_plain hm hq hmatched hf.1 hf.2 hr
  cases m with
  | space => exact unquoted (.inl rfl) rfl
  | needSpace => cases (read_needSpace hmatched).symm.trans hr
  | comment =>
    have line : '\n' ∉ w := by simpa [fineMatch] using hf
    rw [read_comment line] at hr
    cases hr
    rw [newText_eq n p hk]
    exact read_comment_text k
  | word quote b flag =>
    cases quote with
    | none => exact unquoted (.inr ⟨_, _, _, rfl⟩) rfl
    | some q =>
      have same : w = newText n p w := beq_iff_eq.mp hf
      cases read_quoted_match (.inr ⟨_, _, _, rfl⟩) rfl hmatched hr
      rw [← same]
      exact hr

theorem fineMatch_of_items {s : State} {w t t' : Text}
    (hw : w ∈ language portRegex ∪ language phpRegex)
    (apart : (s.mode == .comment && w.contains '\n') = false) {es : List NginxLexer.Item}
    (hi : itemsFrom s (w ++ t) = some es)
    (hi' : itemsFrom s (newText n p w ++ t') = some (es.map (update n p))) :
    fineMatch n p s w = true := by
  obtain ⟨k, ws, h, v, hk, hmatched⟩ := exists_matched hw
  obtain ⟨m, args⟩ := s
  rw [newText_eq n p hk] at hi'
  have unquoted (hm : m.Reading) (hq : m.quote = none) :
      fineMatch n p ⟨m, args⟩ w = true := by
    obtain ⟨hplain, hport⟩ := plain_of_items hm hq hmatched hi hi'
    rw [fineMatch_free hm hq, newText_eq n p hk]
    simp only [Bool.and_eq_true, Bool.or_eq_true, beq_iff_eq]
    exact ⟨hplain, hport⟩
  cases m with
  | space => exact unquoted (.inl rfl) rfl
  | needSpace => rfl
  | comment => simpa [fineMatch] using apart
  | word quote b flag =>
    cases quote with
    | none => exact unquoted (.inr ⟨_, _, _, rfl⟩) rfl
    | some q =>
      have hd : w ∈ directives := hw.elim (portRegex_subset ·) (phpRegex_subset ·)
      have same := eq_of_quoted (.inr ⟨_, _, _, rfl⟩) rfl hd hmatched hi hi'
      rw [← newText_eq n p hk] at same
      exact beq_iff_eq.mpr same

theorem everyFrom_cons {ok : State → Token Char → List NginxLexer.Item → Bool} {s u : State}
    {t : Token Char} {e : List NginxLexer.Item} (hr : read s t.text = some (e, u))
    (T : List (Token Char)) :
    everyFrom ok s (t :: T) = (ok s t e && everyFrom ok u T) := by
  rw [everyFrom, hr]

theorem text_cons (t : Token Char) (T : List (Token Char)) : text (t :: T) = t.text ++ text T :=
  List.flatMap_cons

def newToken (nginxPort phpPort : ℤ) : Token Char → Token Char :=
  Token.map (newText nginxPort phpPort)

theorem kept_iff {e : List NginxLexer.Item} :
    (e.all fun D => update n p D == D) = true ↔ e.map (update n p) = e := by
  constructor
  · intro h
    have each := List.map_congr_left fun D hD => beq_iff_eq.mp (List.all_eq_true.mp h D hD)
    exact each.trans (List.map_id e)
  · intro h
    refine List.all_eq_true.mpr fun D hD => beq_iff_eq.mpr ?_
    exact List.map_inj_left.mp (h.trans (List.map_id e).symm) D hD

theorem read_newToken {s u : State} {t : Token Char} {e : List NginxLexer.Item}
    (ht : ∀ w, t = .word w → w ∈ language portRegex ∪ language phpRegex)
    (hf : fineToken n p s t e = true) (hr : read s t.text = some (e, u)) :
    read s (newToken n p t).text = some (e.map (update n p), u) := by
  cases t with
  | word w => exact read_newText (ht w rfl) hf hr
  | letter c =>
    rw [kept_iff.mp hf]
    exact hr

theorem items_newText {T : List (Token Char)}
    (hT : ∀ w, Token.word w ∈ T → w ∈ language portRegex ∪ language phpRegex) {s : State}
    {es : List NginxLexer.Item} (h : itemsFrom s (text T) = some es)
    (hf : everyFrom (fineToken n p) s T = true) :
    itemsFrom s (text (T.map (newToken n p))) = some (es.map (update n p)) := by
  induction T generalizing s es with
  | nil =>
    obtain ⟨-, rfl⟩ := itemsFrom_nil h
    exact h
  | cons t T ih =>
    rw [text_cons] at h
    obtain ⟨e, u, hr⟩ := exists_read h
    rw [everyFrom_cons hr, Bool.and_eq_true] at hf
    rw [itemsFrom_of_read hr] at h
    obtain ⟨fs, hfs, rfl⟩ := Option.map_eq_some_iff.mp h
    have hnew := read_newToken (fun w hw => hT w (hw ▸ List.mem_cons_self)) hf.1 hr
    have rest := ih (fun w hw => hT w (List.mem_cons_of_mem _ hw)) hfs hf.2
    rw [List.map_cons, text_cons, itemsFrom_of_read hnew, rest, List.map_append]
    rfl

theorem fineToken_of_items {s u : State} {t : Token Char} {e fs : List NginxLexer.Item} {x y : Text}
    (ht : ∀ w, t = .word w → w ∈ language portRegex ∪ language phpRegex)
    (apart : apartToken s t e = true) (hr : read s t.text = some (e, u))
    (h : itemsFrom s (t.text ++ x) = some (e ++ fs))
    (h' : itemsFrom s ((newToken n p t).text ++ y) = some ((e ++ fs).map (update n p))) :
    fineToken n p s t e = true := by
  cases t with
  | word w =>
    have stays : (s.mode == .comment && w.contains '\n') = false := by
      simpa only [apartToken, Bool.not_eq_true'] using apart
    exact fineMatch_of_items (ht w rfl) stays h h'
  | letter c =>
    rw [show (newToken n p (.letter c)).text = (Token.letter c).text from rfl,
      itemsFrom_of_read hr] at h'
    obtain ⟨gs, -, heq⟩ := Option.map_eq_some_iff.mp h'
    rw [List.map_append] at heq
    have same := (List.append_inj heq (by simp)).1
    exact kept_iff.mpr same.symm

theorem fine_of_items {T : List (Token Char)}
    (hT : ∀ w, Token.word w ∈ T → w ∈ language portRegex ∪ language phpRegex) {s : State}
    (apart : everyFrom apartToken s T = true) {es : List NginxLexer.Item}
    (h : itemsFrom s (text T) = some es)
    (h' : itemsFrom s (text (T.map (newToken n p))) = some (es.map (update n p))) :
    everyFrom (fineToken n p) s T = true := by
  induction T generalizing s es with
  | nil => rfl
  | cons t T ih =>
    rw [text_cons] at h
    rw [List.map_cons, text_cons] at h'
    obtain ⟨e, u, hr⟩ := exists_read h
    rw [everyFrom_cons hr, Bool.and_eq_true] at apart ⊢
    have split := h
    rw [itemsFrom_of_read hr] at split
    obtain ⟨fs, hfs, rfl⟩ := Option.map_eq_some_iff.mp split
    have ht : ∀ w, t = .word w → w ∈ language portRegex ∪ language phpRegex :=
      fun w hw => hT w (hw ▸ List.mem_cons_self)
    have hf := fineToken_of_items ht apart.1 hr h h'
    rw [itemsFrom_of_read (read_newToken ht hf hr)] at h'
    obtain ⟨gs, hgs, heq⟩ := Option.map_eq_some_iff.mp h'
    rw [List.map_append] at heq
    rw [List.append_cancel_left heq] at hgs
    exact ⟨hf, ih (fun w hw => hT w (List.mem_cons_of_mem _ hw)) apart.2 hfs hgs⟩
end

theorem matches_overlapFree : OverlapFree (language portRegex ∪ language phpRegex) :=
  directives_overlapFree.mono (Set.union_subset portRegex_subset phpRegex_subset)

theorem tokens_spec (x : Text) :
    Divided (language portRegex ∪ language phpRegex) (tokens x) ∧ text (tokens x) = x :=
  divide_spec portRegex_deterministic phpRegex_deterministic matches_overlapFree x

theorem rewritePorts_tokens (n p : ℤ) (x : Text) :
    rewritePorts n p x = text ((tokens x).map (newToken n p)) := by
  classical
  obtain ⟨hT, hx⟩ := tokens_spec x
  rw [rewritePorts_passes, phpPass_portPass]
  nth_rewrite 1 [← hx]
  rw [replaceEither_text matches_overlapFree portRegex_deterministic phpRegex_deterministic
    Set.subset_union_left Set.subset_union_right _ _ hT]
  congr 1
  refine List.map_congr_left fun t ht => ?_
  cases t with
  | letter c => rfl
  | word w =>
    refine congrArg Token.word ?_
    rcases hT.mem_words ht with hw | hw
    · exact (if_pos hw).trans (newText_eq n p (k := .listen) hw).symm
    · exact (if_neg fun h => port_php_disjoint h hw).trans
        ((if_pos hw).trans (newText_eq n p (k := .fastcgiPass) hw).symm)

/-- The rewriting updates the ports and nothing else where all tokens are fine; where no
    match runs out of a comment, only there. -/
theorem rewrite_updates_iff (c : AppConfig) (x : Text) {is : List NginxLexer.Item}
    (h : items x = some is) :
    (fine c x = true → items (rewrite c x) = some (is.map (update c.nginxPort c.phpPort))) ∧
      (commentsApart x = true →
        (items (rewrite c x) = some (is.map (update c.nginxPort c.phpPort)) ↔
          fine c x = true)) := by
  obtain ⟨hT, hx⟩ := tokens_spec x
  rw [items, ← hx] at h
  have words : ∀ w, Token.word w ∈ tokens x → w ∈ language portRegex ∪ language phpRegex :=
    fun w hw => hT.mem_words hw
  rw [rewrite, rewritePorts_tokens]
  have forward (hf : fine c x = true) := items_newText words h hf
  exact ⟨forward, fun apart => ⟨fine_of_items words apart h, forward⟩⟩

theorem rewrite_updates_server :
    items (rewrite { nginxPort := 8080 } "server \x7b listen 80; # listen 80;\n \x7d".toList) =
      some [.directive ["server".toList] true, .directive ["listen".toList, "8080".toList] false,
        .close] :=
  (rewrite_updates_iff { nginxPort := 8080 } "server \x7b listen 80; # listen 80;\n \x7d".toList
    (show items _ = some [.directive ["server".toList] true,
      .directive ["listen".toList, "80".toList] false, .close] by decide +kernel)).1
    (by decide +kernel)

/-- An update is missed, and a quoted string touched. -/
theorem rewrite_inexact :
    (items "server \x7b listen 80 ; \x7d".toList).isSome = true ∧
      items (rewrite { nginxPort := 8080 } "server \x7b listen 80 ; \x7d".toList) ≠
        (items "server \x7b listen 80 ; \x7d".toList).map (List.map (update 8080 9000)) ∧
      (items "set $note 'listen 81;';".toList).isSome = true ∧
      items (rewrite { nginxPort := 8080 } "set $note 'listen 81;';".toList) ≠
        (items "set $note 'listen 81;';".toList).map (List.map (update 8080 9000)) := by
  decide +kernel

-- a match runs out of a comment, and quotes bring the two readings together again
example :
    let x := "# listen\n80;'\n80; # ' \x22\n # x\n'\\n80; # ' \x22\n # x".toList ++
      "\\n'\\n80; # ' \x22\n;".toList
    fine {} x = false ∧ items (rewrite {} x) = (items x).map (List.map (update 80 9000)) := by
  decide +kernel

end Luhut.NginxConf
