import Luhut.NginxConf

set_option autoImplicit false

/-! A text is read for the integers in the place of `(\d+)`, a minus sign included.
The rewriting reaches those without one and leaves the others as they are. -/
namespace Luhut.NginxConf
open DartInt WordDivision TextPattern

/-- The two settings that hold a port. -/
inductive Setting where
  | listen | fastcgiPass
deriving DecidableEq, Repr

def Setting.port (nginxPort phpPort : ℤ) : Setting → ℤ
  | .listen => nginxPort
  | .fastcgiPass => phpPort

def Setting.portOf (k : Setting) (c : AppConfig) : ℤ := k.port c.nginxPort c.phpPort

def Setting.regex : Setting → List Item
  | .listen => portRegex
  | .fastcgiPass => phpRegex

def Setting.text (nginxPort phpPort : ℤ) : Setting → Text
  | .listen => listenText nginxPort
  | .fastcgiPass => fastcgiText phpPort

def Setting.start : Setting → List Item
  | .listen => literal "listen".toList ++ [plus isSpace]
  | .fastcgiPass => literal "fastcgi_pass".toList ++ [plus isSpace] ++
      (literal "127".toList ++ [one isDot] ++ literal "0".toList ++ [one isDot] ++
        literal "0".toList ++ [one isDot] ++ literal "1:".toList)

inductive Numeral : Bool → ℤ → Text → Prop where
  | unsigned {n : ℕ} {ds : Text} (h : parseDecimal ds = some n) : Numeral false n ds
  | signed {n : ℕ} {ds : Text} (h : parseDecimal ds = some n) : Numeral true (-n) ('-' :: ds)

/-- What the pattern of the setting matches, with an integer in the place of the number. -/
inductive Directive (k : Setting) (sign : Bool) (port : ℤ) : Text → Prop where
  | mk {v t : Text} (start : Matches k.start v) (numeral : Numeral sign port t) :
      Directive k sign port (v ++ (t ++ ";".toList))

/-- The ports in the directives of the text are those of `c`. -/
def Shows (c : AppConfig) (x : Text) : Prop :=
  ∀ (k : Setting) (sign : Bool) (port : ℤ) (w : Text), Directive k sign port w → w <:+: x →
    port = k.portOf c

/-- No directive of the text has a minus sign and a port other than that of `c`. -/
def Rewritable (c : AppConfig) (x : Text) : Prop :=
  ∀ (k : Setting) (port : ℤ) (w : Text), Directive k true port w → w <:+: x → port = k.portOf c

theorem Shows.rewritable {c : AppConfig} {x : Text} (h : Shows c x) : Rewritable c x :=
  fun k port w => h k true port w

theorem parseDecimal_spec {ds : Text} {n : ℕ} (h : parseDecimal ds = some n) :
    ds ≠ [] ∧ ∀ c ∈ ds, c.isDigit = true := by
  unfold parseDecimal at h
  split at h
  · next hd => exact ⟨hd.1, List.all_eq_true.mp hd.2⟩
  · cases h

theorem exists_parseDecimal {ds : Text} (hne : ds ≠ []) (hd : ∀ c ∈ ds, c.isDigit = true) :
    ∃ n, parseDecimal ds = some n :=
  ⟨_, if_pos ⟨hne, List.all_eq_true.mpr hd⟩⟩

theorem Numeral.numeral {sign : Bool} {port : ℤ} {t : Text} (h : Numeral sign port t) :
    t ≠ [] ∧ ∀ c ∈ t, isNumeral c = true := by
  cases h with
  | unsigned h =>
    obtain ⟨hne, hd⟩ := parseDecimal_spec h
    exact ⟨hne, fun c hc => numeral_of_digit (hd c hc)⟩
  | signed h =>
    refine ⟨List.cons_ne_nil _ _, fun c hc => ?_⟩
    rcases List.mem_cons.mp hc with rfl | hc
    · rfl
    · exact numeral_of_digit ((parseDecimal_spec h).2 c hc)

theorem numeral_toText (n : ℤ) : Numeral (decide (n < 0)) n (toText n) := by
  rcases lt_or_ge n 0 with hn | hn
  · obtain ⟨k, hk, ht⟩ := toText_neg hn
    rw [ht, decide_eq_true hn, hk]
    exact .signed (parseDecimal_digits k)
  · obtain ⟨k, hk, ht⟩ := toText_nonneg hn
    rw [ht, decide_eq_false (not_lt.mpr hn), hk]
    exact .unsigned (parseDecimal_digits k)

theorem Numeral.unique {s s' : Bool} {m m' : ℤ} {t : Text} (h : Numeral s m t)
    (h' : Numeral s' m' t) : s = s' ∧ m = m' := by
  have digit : ∀ {ds : Text} {n : ℕ}, parseDecimal ('-' :: ds) ≠ some n := by
    intro ds n hp
    exact absurd ((parseDecimal_spec hp).2 '-' List.mem_cons_self) (by decide)
  cases h with
  | unsigned h =>
    cases h' with
    | unsigned h' => exact ⟨rfl, congrArg _ (Option.some.inj (h.symm.trans h'))⟩
    | signed h' => exact absurd h digit
  | signed h =>
    cases h' with
    | unsigned h' => exact absurd h' digit
    | signed h' => exact ⟨rfl, congrArg (fun n : ℕ => -(n : ℤ)) (Option.some.inj (h.symm.trans h'))⟩

theorem start_last {k : Setting} {v : Text} (h : Matches k.start v) :
    ∃ u c, v = u ++ [c] ∧ isNumeral c = false := by
  cases k with
  | listen =>
    obtain ⟨a, ws, rfl, _, hws⟩ := Matches.split (literal "listen".toList) [plus isSpace] h
    obtain ⟨hne, space⟩ := hws.run
    refine ⟨a ++ ws.dropLast, ws.getLast hne, ?_,
      space_not_numeral (space _ (List.getLast_mem hne))⟩
    rw [List.append_assoc, List.dropLast_append_getLast hne]
  | fastcgiPass =>
    have split : Setting.start .fastcgiPass = (literal "fastcgi_pass".toList ++ [plus isSpace] ++
      (literal "127".toList ++ [one isDot] ++ literal "0".toList ++ [one isDot] ++
        literal "0".toList ++ [one isDot] ++ literal "1".toList)) ++ literal ":".toList := rfl
    rw [split] at h
    obtain ⟨u, e, rfl, _, he⟩ := Matches.split _ (literal ":".toList) h
    obtain rfl := he.eq_literal
    exact ⟨u, ':', rfl, by decide⟩

theorem append_numeral_unique {v v' t t' : Text} {c c' : Char} (ht : ∀ d ∈ t, isNumeral d = true)
    (ht' : ∀ d ∈ t', isNumeral d = true) (hc : isNumeral c = false) (hc' : isNumeral c' = false)
    (h : (v ++ [c]) ++ t = (v' ++ [c']) ++ t') : t = t' := by
  have inside : ∀ {a u u' : Text} {d : Char}, isNumeral d = false →
      (∀ e ∈ u, isNumeral e = true) → u = a ++ u' → ∀ w w', w ++ [d] = w' ++ a → a = [] := by
    intro a u u' d hd hu heq w w' hw
    cases a using List.reverseRecOn with
    | nil => rfl
    | append_singleton a e =>
      rw [← List.append_assoc] at hw
      obtain ⟨_, hde⟩ := List.append_inj' hw rfl
      cases hde
      have mem : d ∈ u := by
        rw [heq]
        simp
      rw [hu d mem] at hd
      cases hd
  rcases List.append_eq_append_iff.mp h with ⟨a, hv, hu⟩ | ⟨a, hv, hu⟩
  · have none := inside hc' ht hu _ _ hv
    rw [hu, none]
    rfl
  · have none := inside hc ht' hu _ _ hv
    rw [hu, none]
    rfl

theorem Directive.unique {k k' : Setting} {s s' : Bool} {m m' : ℤ} {w : Text}
    (h : Directive k s m w) (h' : Directive k' s' m' w) : s = s' ∧ m = m' := by
  obtain ⟨hv, ht⟩ := h
  generalize hw : _ ++ (_ ++ ";".toList) = w at h'
  obtain ⟨hv', ht'⟩ := h'
  obtain ⟨u, c, rfl, hc⟩ := start_last hv
  obtain ⟨u', c', rfl, hc'⟩ := start_last hv'
  rw [← List.append_assoc, ← List.append_assoc] at hw
  have same := append_numeral_unique ht.numeral.2 ht'.numeral.2 hc hc' (List.append_cancel_right hw)
  exact ht.unique (same ▸ ht')

theorem Directive.pattern {k : Setting} {s : Bool} {m : ℤ} {w : Text} (h : Directive k s m w) :
    Matches (k.start ++ ([plus isNumeral] ++ literal ";".toList)) w := by
  obtain ⟨hv, ht⟩ := h
  exact hv.append ((matches_plus ht.numeral.1 ht.numeral.2).append (matches_literal _))

theorem Directive.mem {k : Setting} {s : Bool} {m : ℤ} {w : Text} (h : Directive k s m w) :
    w ∈ directives := by
  cases k with
  | listen => exact ⟨listenKeyword, by simp, h.pattern⟩
  | fastcgiPass => exact ⟨fastcgiKeyword, by simp, h.pattern⟩

theorem mem_regex_iff {k : Setting} {w : Text} :
    w ∈ language k.regex ↔ ∃ port, Directive k false port w := by
  have pattern : k.regex = k.start ++ ([plus Char.isDigit] ++ literal ";".toList) := by
    cases k <;> rfl
  rw [pattern]
  constructor
  · intro h
    obtain ⟨v, u, rfl, hv, hu⟩ := Matches.split k.start _ h
    obtain ⟨t, e, rfl, ht, he⟩ := Matches.split [plus Char.isDigit] _ hu
    obtain rfl := he.eq_literal
    obtain ⟨n, hn⟩ := exists_parseDecimal ht.run.1 ht.run.2
    exact ⟨n, .mk hv (.unsigned hn)⟩
  · rintro ⟨port, hv, ht⟩
    cases ht with
    | unsigned h =>
      obtain ⟨hne, hd⟩ := parseDecimal_spec h
      exact hv.append ((matches_plus hne hd).append (matches_literal _))

theorem Directive.kind {k k' : Setting} {s s' : Bool} {m m' : ℤ} {w : Text}
    (h : Directive k s m w) (h' : Directive k' s' m' w) : k = k' := by
  have head : ∀ {k : Setting} {s : Bool} {m : ℤ} {w : Text}, Directive k s m w →
      w.head? = some (match k with | .listen => 'l' | .fastcgiPass => 'f') := by
    intro k s m w h
    cases k with
    | listen =>
      obtain ⟨c, t, rfl, hc⟩ := Matches.head (i := one (· == 'l')) h.pattern
      rw [beq_iff_eq.mp hc]
      rfl
    | fastcgiPass =>
      obtain ⟨c, t, rfl, hc⟩ := Matches.head (i := one (· == 'f')) h.pattern
      rw [beq_iff_eq.mp hc]
      rfl
  have same := (head h).symm.trans (head h')
  cases k <;> cases k' <;> first | rfl | exact absurd same (by decide)

theorem matches_start (k : Setting) : ∃ v, Matches k.start v ∧
    ∀ n p, k.text n p = v ++ (toText (k.port n p) ++ ";".toList) := by
  cases k with
  | listen =>
    refine ⟨"listen       ".toList, ?_, fun n p => List.append_assoc _ _ _⟩
    exact (matches_literal "listen".toList).append
      (matches_plus (by decide) (List.all_eq_true.mp (by decide)))
  | fastcgiPass =>
    have spaces : Matches [plus isSpace] "   ".toList :=
      matches_plus (by decide) (List.all_eq_true.mp rfl)
    have dot : Matches [one isDot] ".".toList := .one (by decide) .nil
    have address := (((((matches_literal "127".toList).append dot).append
      (matches_literal "0".toList)).append dot).append (matches_literal "0".toList)).append dot
    refine ⟨"fastcgi_pass   127.0.0.1:".toList, ?_, fun n p => List.append_assoc _ _ _⟩
    exact ((matches_literal "fastcgi_pass".toList).append spaces).append
      (address.append (matches_literal "1:".toList))

theorem directive_text (k : Setting) (n p : ℤ) :
    Directive k (decide (k.port n p < 0)) (k.port n p) (k.text n p) := by
  obtain ⟨v, hv, text⟩ := matches_start k
  rw [text]
  exact .mk hv (numeral_toText _)

theorem exchange_regex {k : Setting} {n p : ℤ} {w : Text} (h : w ∈ language k.regex) :
    exchange n p w = k.text n p := by
  cases k with
  | listen => exact exchange_port h
  | fastcgiPass => exact exchange_php h

theorem exchange_signed {k : Setting} {port n p : ℤ} {w : Text} (h : Directive k true port w) :
    exchange n p w = w := by
  have signed : ∀ k' : Setting, w ∉ language k'.regex := by
    intro k' hw
    obtain ⟨m, hm⟩ := mem_regex_iff.mp hw
    cases (h.unique hm).1
  exact exchange_other (signed .listen) (signed .fastcgiPass)

theorem regex_subset (k : Setting) : language k.regex ⊆ directives := by
  cases k with
  | listen => exact portRegex_subset
  | fastcgiPass => exact phpRegex_subset

theorem infix_text_iff {T : List (Token Char)} (hT : Divided directives T) {w : Text}
    (hw : w ∈ directives) : w <:+: text T ↔ Token.word w ∈ T := by
  constructor
  · rintro ⟨a, b, hab⟩
    have one : ({w} : Set Text) ⊆ directives := fun v hv => hv ▸ hw
    rw [List.append_assoc] at hab
    obtain ⟨v, hv, hm⟩ := hT.occurs directives_overlapFree one a (w ++ b) hab.symm
      ⟨w, rfl, b, rfl⟩
    exact hv ▸ hm
  · intro hm
    obtain ⟨before, after, rfl⟩ := List.append_of_mem hm
    exact ⟨text before, text after, by simp [text, Token.text]⟩

section
variable (c d : AppConfig) (x : Text)

/-- After a rewriting for `d` the text has the ports of `c` exactly if no minus sign
    keeps another one and what was found has been given a port of `c`. -/
theorem shows_rewrite_iff : Shows c (rewrite d x) ↔ Rewritable c x ∧
    ∀ k : Setting, occurs k.regex x = true → k.portOf d = k.portOf c := by
  obtain ⟨T, hT, rfl⟩ := exists_divided directives_overlapFree x
  have hR := hT.map directives_overlapFree (exchange_mem d.nginxPort d.phpPort)
  have written : rewrite d (text T) =
      text (T.map (Token.map (exchange d.nginxPort d.phpPort))) := rewritePorts_text _ _ hT
  rw [written]
  constructor
  · intro shows
    have word : ∀ {w : Text}, Token.word w ∈ T →
        Token.word (exchange d.nginxPort d.phpPort w) ∈
          T.map (Token.map (exchange d.nginxPort d.phpPort)) :=
      fun hw => List.mem_map_of_mem (f := Token.map (exchange d.nginxPort d.phpPort)) hw
    refine ⟨fun k port w hw stands => ?_, fun k found => ?_⟩
    · have hm := word ((infix_text_iff hT hw.mem).mp stands)
      rw [exchange_signed hw] at hm
      exact shows k true port w hw ((infix_text_iff hR hw.mem).mpr hm)
    · obtain ⟨w, hw, hm⟩ := (occurs_text directives_overlapFree (regex_subset k) hT).mp found
      have new := word hm
      rw [exchange_regex hw] at new
      have text := directive_text k d.nginxPort d.phpPort
      exact shows k _ _ _ text ((infix_text_iff hR text.mem).mpr new)
  · rintro ⟨signed, given⟩ k sign port w hw stands
    obtain ⟨t, ht, hm⟩ := List.mem_map.mp ((infix_text_iff hR hw.mem).mp stands)
    cases t with
    | letter e => cases hm
    | word v =>
      obtain rfl : exchange d.nginxPort d.phpPort v = w := Token.word.inj hm
      by_cases found : ∃ k' : Setting, v ∈ language k'.regex
      · obtain ⟨k', hv⟩ := found
        rw [exchange_regex hv] at hw
        have text := directive_text k' d.nginxPort d.phpPort
        obtain rfl := hw.kind text
        rw [(hw.unique text).2]
        exact given k ((occurs_text directives_overlapFree (regex_subset k) hT).mpr ⟨v, hv, ht⟩)
      · have same : exchange d.nginxPort d.phpPort v = v :=
          exchange_other (fun hv => found ⟨.listen, hv⟩) fun hv => found ⟨.fastcgiPass, hv⟩
        rw [same] at hw
        cases sign with
        | false => exact absurd ⟨k, mem_regex_iff.mpr ⟨port, hw⟩⟩ found
        | true => exact signed k port v hw ((infix_text_iff hT hw.mem).mpr ht)

theorem shows_rewrite : Shows c (rewrite c x) ↔ Rewritable c x := by
  rw [shows_rewrite_iff]
  exact and_iff_left fun _ _ => rfl

theorem rewrite_of_shows (h : Shows c (rewrite d x)) : rewrite c (rewrite d x) = rewrite d x := by
  obtain ⟨_, given⟩ := (shows_rewrite_iff c d x).mp h
  rw [rewrite, rewrite, rewritePorts_rewritePorts, rewritePorts_eq_iff]
  have port : ∀ k : Setting, occurs k.regex x = true →
      (if k.portOf d < 0 then k.portOf d else k.portOf c) = k.portOf d := by
    intro k found
    rw [given k found, ite_self]
  exact ⟨port .listen, port .fastcgiPass⟩
end

/-- The text is the original with other directives in the place of its own, and those
    the pattern of `k` finds there have been given `port`. -/
def Carries (k : Setting) (port : ℤ) (original x : Text) : Prop :=
  ∃ (T : List (Token Char)) (g : Text → Text), Divided directives T ∧ text T = original ∧
    Divided directives (T.map (Token.map g)) ∧ text (T.map (Token.map g)) = x ∧
    ∀ w, Token.word w ∈ T → w ∈ language k.regex → ∃ sign, Directive k sign port (g w)

theorem carries_rewritePorts_iff (k : Setting) (port n p : ℤ) (x : Text) :
    Carries k port x (rewritePorts n p x) ↔ (occurs k.regex x = true → k.port n p = port) := by
  constructor
  · rintro ⟨T, g, hT, rfl, hR, same, given⟩ found
    obtain ⟨w, hw, hm⟩ := (occurs_text directives_overlapFree (regex_subset k) hT).mp found
    rw [rewritePorts_text n p hT] at same
    have tokens := hR.unique directives_overlapFree
      (hT.map directives_overlapFree (exchange_mem n p)) same
    have new : g w = exchange n p w := Token.word.inj (List.map_inj_left.mp tokens _ hm)
    obtain ⟨sign, hg⟩ := given w hm hw
    rw [new, exchange_regex hw] at hg
    exact ((directive_text k n p).unique hg).2
  · intro given
    obtain ⟨T, hT, rfl⟩ := exists_divided directives_overlapFree x
    refine ⟨T, exchange n p, hT, rfl, hT.map directives_overlapFree (exchange_mem n p),
      (rewritePorts_text n p hT).symm, fun w hm hw => ?_⟩
    have found := (occurs_text directives_overlapFree (regex_subset k) hT).mpr ⟨w, hw, hm⟩
    rw [exchange_regex hw, ← given found]
    exact ⟨_, directive_text k n p⟩

theorem directive_in_text {k k' : Setting} {n p port : ℤ} {sign : Bool} {w : Text}
    (hw : Directive k' sign port w) (stands : w <:+: k.text n p) :
    k' = k ∧ sign = decide (k.port n p < 0) ∧ port = k.port n p := by
  have spelled := directive_text k n p
  have divided : Divided directives [Token.word (k.text n p)] := .word spelled.mem .nil
  have whole : WordDivision.text [Token.word (k.text n p)] = k.text n p := List.append_nil _
  rw [← whole, infix_text_iff divided hw.mem, List.mem_singleton] at stands
  cases stands
  exact ⟨hw.kind spelled, hw.unique spelled⟩

theorem shows_text (k : Setting) (c : AppConfig) : Shows c (k.text c.nginxPort c.phpPort) := by
  intro k' sign port w hw stands
  obtain ⟨rfl, _, rfl⟩ := directive_in_text hw stands
  rfl

theorem rewritable_text {k : Setting} {n p : ℤ} (h : 0 ≤ k.port n p) (c : AppConfig) :
    Rewritable c (k.text n p) := by
  intro k' port w hw stands
  have sign := (directive_in_text hw stands).2.1
  rw [decide_eq_false (not_lt.mpr h)] at sign
  cases sign

end Luhut.NginxConf
