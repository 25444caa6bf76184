import Luhut.NginxLexer
import Luhut.NginxPorts

set_option autoImplicit false

/-! The directives whose port the rewriting is to update, and the parts of the
matches of its two patterns. -/
namespace Luhut.NginxConf
open DartInt TextPattern NginxLexer

def isNumber (t : Text) : Bool := !t.isEmpty && t.all Char.isDigit

def Setting.name : Setting → Text
  | .listen => "listen".toList
  | .fastcgiPass => "fastcgi_pass".toList

def Setting.host : Setting → Text
  | .listen => []
  | .fastcgiPass => "127.0.0.1:".toList

/-- The setting a directive with these words has its port in. -/
def setting? : List Text → Option Setting
  | [name, argument] =>
    if name = Setting.listen.name ∧ isNumber argument then some .listen
    else if name = Setting.fastcgiPass.name ∧ Setting.fastcgiPass.host.isPrefixOf argument ∧
      isNumber (argument.drop Setting.fastcgiPass.host.length) then some .fastcgiPass
    else none
  | _ => none

/-- What should become of the words of a directive. -/
def updateWords (nginxPort phpPort : ℤ) (words : List Text) : List Text :=
  match setting? words with
  | some k => [k.name, k.host ++ toText (k.port nginxPort phpPort)]
  | none => words

def update (nginxPort phpPort : ℤ) (D : NginxLexer.Item) : NginxLexer.Item :=
  D.map (updateWords nginxPort phpPort)

def plainPattern (k : Setting) : List TextPattern.Item :=
  literal k.name ++ [plus isBlank] ++ literal k.host ++ [plus Char.isDigit] ++ literal ";".toList

def plain (w : Text) : Bool :=
  accepts (plainPattern .listen) w || accepts (plainPattern .fastcgiPass) w

def newText (nginxPort phpPort : ℤ) (w : Text) : Text :=
  if accepts portRegex w then listenText nginxPort else fastcgiText phpPort

theorem isNumber_iff {t : Text} :
    isNumber t = true ↔ t ≠ [] ∧ ∀ c ∈ t, c.isDigit = true := by
  simp [isNumber]

theorem name_solid (k : Setting) : solid k.name = true := by
  cases k <;> decide

theorem name_ne_nil (k : Setting) : k.name ≠ [] := by
  cases k <;> decide

theorem numeral_opens {c : Char} (h : isNumeral c = true) : opens c = true :=
  opens_of_class (by decide) h

theorem host_opens (k : Setting) : ∀ c ∈ k.host, opens c = true := by
  cases k
  · exact fun c hc => absurd hc List.not_mem_nil
  · exact List.all_eq_true.mp (by decide)

theorem argument_solid (k : Setting) {v : Text} (hne : v ≠ [])
    (hv : ∀ c ∈ v, isNumeral c = true) : solid (k.host ++ v) = true := by
  have all : ∀ c ∈ k.host ++ v, opens c = true := by
    intro c hc
    rcases List.mem_append.mp hc with hc | hc
    · exact host_opens k c hc
    · exact numeral_opens (hv c hc)
  generalize hu : k.host ++ v = u at all
  cases u with
  | nil => exact absurd (List.append_eq_nil_iff.mp hu).2 hne
  | cons c u =>
    simp only [solid, Bool.and_eq_true, List.all_eq_true]
    exact ⟨all c List.mem_cons_self,
      fun d hd => (opens_spec (all d (List.mem_cons_of_mem _ hd))).1⟩

theorem number_numeral {v : Text} (h : isNumber v = true) : ∀ c ∈ v, isNumeral c = true :=
  fun c hc => numeral_of_digit ((isNumber_iff.mp h).2 c hc)

theorem setting_eq_some_iff {words : List Text} {k : Setting} :
    setting? words = some k ↔ ∃ v, isNumber v = true ∧ words = [k.name, k.host ++ v] := by
  constructor
  · intro h
    unfold setting? at h
    split at h
    · next name argument =>
      split_ifs at h with hl hf
      · obtain rfl := Option.some.inj h
        exact ⟨argument, hl.2, by rw [hl.1]; rfl⟩
      · obtain rfl := Option.some.inj h
        obtain ⟨hn, hp, hv⟩ := hf
        obtain ⟨v, rfl⟩ := List.isPrefixOf_iff_prefix.mp hp
        rw [List.drop_left] at hv
        exact ⟨v, hv, by rw [hn]⟩
    · cases h
  · rintro ⟨v, hv, rfl⟩
    cases k with
    | listen => exact if_pos ⟨rfl, hv⟩
    | fastcgiPass =>
      have other : ¬ (Setting.fastcgiPass.name = Setting.listen.name ∧
          isNumber (Setting.fastcgiPass.host ++ v) = true) :=
        fun h => absurd h.1 (by decide)
      have hit : Setting.fastcgiPass.name = Setting.fastcgiPass.name ∧
          Setting.fastcgiPass.host.isPrefixOf (Setting.fastcgiPass.host ++ v) = true ∧
          isNumber ((Setting.fastcgiPass.host ++ v).drop Setting.fastcgiPass.host.length) =
            true := by
        refine ⟨rfl, List.isPrefixOf_iff_prefix.mpr (List.prefix_append _ _), ?_⟩
        rwa [List.drop_left]
      rw [setting?, if_neg other, if_pos hit]

theorem name_suffix {k l : Setting} {u : Text} (h : u ++ k.name = l.name) : u = [] ∧ k = l := by
  have hs : k.name <:+ l.name := ⟨u, h⟩
  have heq : k = l := by
    cases k <;> cases l <;> first | rfl | exact absurd hs (by decide)
  subst heq
  exact ⟨List.append_left_eq_self.mp h, rfl⟩

theorem append_eq_setting {k l : Setting} {args : List Text} {u x y : Text}
    (h : args ++ [u ++ k.name, x] = [l.name, y]) : args = [] ∧ u = [] ∧ k = l ∧ x = y := by
  cases args with
  | nil =>
    simp only [List.nil_append, List.cons.injEq, and_true] at h
    obtain ⟨hu, hk⟩ := name_suffix h.1
    exact ⟨rfl, hu, hk, h.2⟩
  | cons a args =>
    have hl := congrArg List.length h
    simp at hl

section
variable {n p : ℤ}

theorem updateWords_setting (k : Setting) {v : Text} (hv : isNumber v = true) :
    updateWords n p [k.name, k.host ++ v] = [k.name, k.host ++ toText (k.port n p)] := by
  rw [updateWords, setting_eq_some_iff.mpr ⟨v, hv, rfl⟩]

theorem updateWords_other {words : List Text} (h : setting? words = none) :
    updateWords n p words = words := by
  rw [updateWords, h]

theorem of_updateWords {k : Setting} {args words : List Text} {u : Text}
    (h : updateWords n p words = args ++ [u ++ k.name, k.host ++ toText (k.port n p)]) :
    ∃ v, (∀ c ∈ v, isNumeral c = true) ∧ words = args ++ [u ++ k.name, k.host ++ v] ∧
      ((args = [] ∧ u = []) ∨ v = toText (k.port n p)) := by
  cases hs : setting? words with
  | none =>
    rw [updateWords_other hs] at h
    exact ⟨_, toText_numeral _, h, .inr rfl⟩
  | some l =>
    obtain ⟨v, hv, rfl⟩ := setting_eq_some_iff.mp hs
    rw [updateWords_setting l hv] at h
    obtain ⟨rfl, rfl, rfl, -⟩ := append_eq_setting h.symm
    exact ⟨v, number_numeral hv, rfl, .inl ⟨rfl, rfl⟩⟩
end

def Setting.spaces : Setting → Text
  | .listen => "       ".toList
  | .fastcgiPass => "   ".toList

structure Matched (k : Setting) (ws h v w : Text) : Prop where
  text : w = k.name ++ (ws ++ (h ++ (v ++ [';'])))
  gap : ws ≠ []
  spaces : ∀ c ∈ ws, isSpace c = true
  host : Blurred h k.host
  head : h.head? = k.host.head?
  number : isNumber v = true

theorem number_of_run {v : Text} (h : Matches [plus Char.isDigit] v) : isNumber v = true :=
  isNumber_iff.mpr h.run

theorem matched_port {w : Text} (h : w ∈ language portRegex) :
    ∃ ws v, Matched .listen ws [] v w := by
  obtain ⟨f, e, rfl, hf, he⟩ := Matches.split _ (literal ";".toList) h
  obtain ⟨a, b, rfl, ha, hb⟩ :=
    Matches.split (literal "listen".toList) [plus isSpace, plus Char.isDigit] hf
  obtain ⟨ws, v, rfl, hws, hv⟩ := Matches.split [plus isSpace] [plus Char.isDigit] hb
  obtain rfl := he.eq_literal
  obtain rfl := ha.eq_literal
  refine ⟨ws, v, ?_, hws.run.1, hws.run.2, .nil, rfl, number_of_run hv⟩
  simp only [List.append_assoc, List.nil_append]
  rfl

def hostPattern : List TextPattern.Item :=
  literal "127".toList ++ [one isDot] ++ literal "0".toList ++ [one isDot] ++
    literal "0".toList ++ [one isDot] ++ literal "1:".toList

theorem host_blurred {h : Text} (hm : Matches hostPattern h) :
    Blurred h Setting.fastcgiPass.host ∧ h.head? = Setting.fastcgiPass.host.head? := by
  obtain ⟨h, e, rfl, hm, he⟩ := Matches.split _ (literal "1:".toList) hm
  obtain ⟨h, z, rfl, hm, hz⟩ := Matches.split _ [one isDot] hm
  obtain ⟨h, d, rfl, hm, hd⟩ := Matches.split _ (literal "0".toList) hm
  obtain ⟨h, y, rfl, hm, hy⟩ := Matches.split _ [one isDot] hm
  obtain ⟨h, c, rfl, hm, hc⟩ := Matches.split _ (literal "0".toList) hm
  obtain ⟨b, x, rfl, hb, hx⟩ := Matches.split (literal "127".toList) [one isDot] hm
  obtain ⟨x, rfl, -⟩ := hx.single
  obtain ⟨y, rfl, -⟩ := hy.single
  obtain ⟨z, rfl, -⟩ := hz.single
  obtain rfl := hb.eq_literal
  obtain rfl := hc.eq_literal
  obtain rfl := hd.eq_literal
  obtain rfl := he.eq_literal
  refine ⟨?_, rfl⟩
  have dot {u k : Char} {f g : Text} (hk : opens k = true) (hne : k ≠ '.') (hp : k ≠ ')')
      (tail : Blurred f g) : Blurred (u :: k :: f) ('.' :: k :: g) :=
    .unknown (by decide) hk hne hp tail
  have colon : Blurred [':'] [':'] := .known (by decide) .nil
  have third : Blurred [z, '1', ':'] ['.', '1', ':'] :=
    dot (by decide) (by decide) (by decide) colon
  have second := dot (u := y) (k := '0') (by decide) (by decide) (by decide) third
  have first := dot (u := x) (k := '0') (by decide) (by decide) (by decide) second
  exact .known (by decide) (.known (by decide) (.known (by decide) first))

theorem matched_php {w : Text} (hw : w ∈ language phpRegex) :
    ∃ ws h v, Matched .fastcgiPass ws h v w := by
  obtain ⟨f, e, rfl, hf, he⟩ := Matches.split _ (literal ";".toList) hw
  obtain ⟨g, v, rfl, hg, hv⟩ := Matches.split _ [plus Char.isDigit] hf
  obtain ⟨b, h, rfl, hb, hh⟩ :=
    Matches.split (literal "fastcgi_pass".toList ++ [plus isSpace]) hostPattern hg
  obtain ⟨a, ws, rfl, ha, hws⟩ := Matches.split (literal "fastcgi_pass".toList) [plus isSpace] hb
  obtain rfl := he.eq_literal
  obtain rfl := ha.eq_literal
  have host := host_blurred hh
  refine ⟨ws, h, v, ?_, hws.run.1, hws.run.2, host.1, host.2, number_of_run hv⟩
  simp only [List.append_assoc]
  rfl

theorem exists_matched {w : Text} (hw : w ∈ language portRegex ∪ language phpRegex) :
    ∃ k ws h v, w ∈ language (Setting.regex k) ∧ Matched k ws h v w := by
  rcases hw with hw | hw
  · obtain ⟨ws, v, hm⟩ := matched_port hw
    exact ⟨.listen, ws, [], v, hw, hm⟩
  · obtain ⟨ws, h, v, hm⟩ := matched_php hw
    exact ⟨.fastcgiPass, ws, h, v, hw, hm⟩

theorem newText_eq (n p : ℤ) {k : Setting} {w : Text} (hw : w ∈ language k.regex) :
    newText n p w = k.text n p := by
  cases k with
  | listen => exact if_pos ((accepts_iff portRegex_deterministic).mpr hw)
  | fastcgiPass =>
    exact if_neg fun h => port_php_disjoint ((accepts_iff portRegex_deterministic).mp h) hw

theorem text_eq (n p : ℤ) (k : Setting) : k.text n p =
    k.name ++ (k.spaces ++ ((k.host ++ toText (k.port n p)) ++ [';'])) := by
  cases k with
  | listen =>
    change "listen       ".toList ++ toText n ++ [';'] = _
    rw [List.append_assoc]
    rfl
  | fastcgiPass =>
    change "fastcgi_pass   127.0.0.1:".toList ++ toText p ++ [';'] = _
    rw [List.append_assoc]
    rfl

theorem spaces_blank (k : Setting) : k.spaces ≠ [] ∧ ∀ c ∈ k.spaces, isBlank c = true := by
  cases k <;> exact ⟨by decide, List.all_eq_true.mp (by decide)⟩

theorem plainPattern_deterministic (k : Setting) : Deterministic (plainPattern k) := by
  have digit : ∀ c, Char.isDigit c = true → (c == ';') = false :=
    fun c hc => ne_of_class hc (by decide)
  cases k with
  | listen =>
    change Deterministic (literal "listen".toList ++
      (plus isBlank :: plus Char.isDigit :: literal [';']))
    refine deterministic_single (literal_single _) ⟨fun _ c hb => ?_, fun _ => digit, rfl⟩
    by_contra hd
    have ho := numeral_opens (numeral_of_digit (Bool.eq_true_of_not_eq_false hd))
    exact absurd hb (by simpa [plus] using (ordinary_spec (opens_spec ho).1).1)
  | fastcgiPass =>
    change Deterministic (literal "fastcgi_pass".toList ++
      (plus isBlank :: (literal "127.0.0.1:".toList ++ (plus Char.isDigit :: literal [';']))))
    refine deterministic_single (literal_single _) ⟨fun _ c hb => ne_of_class hb (by decide), ?_⟩
    have last : Deterministic (plus Char.isDigit :: literal [';']) := ⟨fun _ => digit, rfl⟩
    change Deterministic (literal "127.0.0.1:".toList ++ (plus Char.isDigit :: literal [';']))
    exact deterministic_single (literal_single _) last

theorem plainPattern_iff {k : Setting} {w : Text} : accepts (plainPattern k) w = true ↔
    ∃ ws v, ws ≠ [] ∧ (∀ c ∈ ws, isBlank c = true) ∧ isNumber v = true ∧
      w = k.name ++ (ws ++ ((k.host ++ v) ++ [';'])) := by
  rw [accepts_iff (plainPattern_deterministic k)]
  constructor
  · intro h
    obtain ⟨f, e, rfl, hf, he⟩ := Matches.split _ (literal ";".toList) h
    obtain ⟨g, v, rfl, hg, hv⟩ := Matches.split _ [plus Char.isDigit] hf
    obtain ⟨b, h, rfl, hb, hh⟩ := Matches.split _ (literal k.host) hg
    obtain ⟨a, ws, rfl, ha, hws⟩ := Matches.split (literal k.name) [plus isBlank] hb
    obtain rfl := he.eq_literal
    obtain rfl := ha.eq_literal
    obtain rfl := hh.eq_literal
    refine ⟨ws, v, hws.run.1, hws.run.2, number_of_run hv, ?_⟩
    simp only [List.append_assoc]
    rfl
  · rintro ⟨ws, v, hne, hws, hv, rfl⟩
    have number := isNumber_iff.mp hv
    have hm := ((((matches_literal k.name).append (matches_plus hne hws)).append
      (matches_literal k.host)).append (matches_plus number.1 number.2)).append
      (matches_literal ";".toList)
    change Matches (plainPattern k) (k.name ++ (ws ++ ((k.host ++ v) ++ ";".toList)))
    simp only [← List.append_assoc]
    exact hm

theorem plain_iff {w : Text} : plain w = true ↔ ∃ k, accepts (plainPattern k) w = true := by
  rw [plain, Bool.or_eq_true]
  constructor
  · rintro (h | h)
    · exact ⟨.listen, h⟩
    · exact ⟨.fastcgiPass, h⟩
  · rintro ⟨k, h⟩
    cases k
    · exact .inl h
    · exact .inr h

theorem name_head {k l : Setting} {a b : Text} (h : k.name ++ a = l.name ++ b) : k = l := by
  cases k <;> cases l <;> first | rfl | cases (List.cons.inj h).1

end Luhut.NginxConf
