import Luhut.AppConfig
import Luhut.KeywordPattern
import Mathlib.Data.List.Forall2

set_option autoImplicit false

/-! `rewrite c x` is the text `_updateNginxConfig` writes for the file content `x`
when `_config = c`. Matches of the two patterns, and the texts put in their
place, all belong to one overlap-free set of words, so a rewrite exchanges
words of a divided text and touches nothing else. -/
namespace Luhut.NginxConf
open DartInt WordDivision TextPattern KeywordPattern

/-- `\s` -/
def isSpace (c : Char) : Bool :=
  (0x09 ≤ c.toNat && c.toNat ≤ 0x0D) || c.toNat == 0x20 || c.toNat == 0xA0 ||
    c.toNat == 0x1680 || (0x2000 ≤ c.toNat && c.toNat ≤ 0x200A) || c.toNat == 0x2028 ||
    c.toNat == 0x2029 || c.toNat == 0x202F || c.toNat == 0x205F || c.toNat == 0x3000 ||
    c.toNat == 0xFEFF

/-- `.` takes one UTF-16 unit other than a line terminator. Half of a surrogate
    pair is never followed by a literal, so larger characters are left out. -/
def isDot (c : Char) : Bool :=
  c.toNat < 0x10000 && c != '\n' && c != '\r' && c.toNat != 0x2028 && c.toNat != 0x2029

def portPattern (digit : Char → Bool) : List Item :=
  literal "listen".toList ++ [plus isSpace, plus digit] ++ literal ";".toList

def phpPattern (digit : Char → Bool) : List Item :=
  literal "fastcgi_pass".toList ++ [plus isSpace] ++
    (literal "127".toList ++ [one isDot] ++ literal "0".toList ++ [one isDot] ++
      literal "0".toList ++ [one isDot] ++ literal "1:".toList) ++
    [plus digit] ++ literal ";".toList

/-- `listen\s+(\d+);` -/
def portRegex : List Item := portPattern Char.isDigit

/-- `fastcgi_pass\s+127.0.0.1:(\d+);` -/
def phpRegex : List Item := phpPattern Char.isDigit

def listenText (port : ℤ) : Text := "listen       ".toList ++ toText port ++ ";".toList

def fastcgiText (port : ℤ) : Text := "fastcgi_pass   127.0.0.1:".toList ++ toText port ++ ";".toList

def rewritePorts (nginxPort phpPort : ℤ) (content : Text) : Text :=
  replaceAll phpRegex (fastcgiText phpPort) (replaceAll portRegex (listenText nginxPort) content)

def rewrite (c : AppConfig) (content : Text) : Text := rewritePorts c.nginxPort c.phpPort content

def isNumeral (c : Char) : Bool := c.isDigit || c == '-'

def listenKeyword : Keyword := ⟨'l', 'i', (portPattern isNumeral).drop 2⟩

def fastcgiKeyword : Keyword := ⟨'f', 'a', (phpPattern isNumeral).drop 2⟩

def directives : Set Text := words [listenKeyword, fastcgiKeyword]

theorem space_not_numeral {c : Char} (h : isSpace c = true) : isNumeral c = false := by
  by_contra hn
  simp only [isNumeral, Bool.or_eq_false_iff, not_and_or, Bool.not_eq_false, beq_iff_eq] at hn
  rcases hn with hd | rfl
  · have hb : 48 ≤ c.toNat ∧ c.toNat ≤ 57 := by
      simpa [Char.isDigit, UInt32.le_iff_toNat_le] using hd
    simp only [isSpace, Bool.or_eq_true, Bool.and_eq_true, decide_eq_true_eq, beq_iff_eq] at h
    omega
  · exact absurd h (by decide)

theorem numeral_of_digit {c : Char} (h : c.isDigit = true) : isNumeral c = true := by
  rw [isNumeral, h]
  rfl

theorem ne_of_class {p : Char → Bool} {c d : Char} (h : p c = true) (hd : p d = false) :
    (c == d) = false := by
  rw [beq_eq_false_iff_ne]
  rintro rfl
  rw [hd] at h
  cases h

section
variable {digit : Char → Bool} (numeral : ∀ c, digit c = true → isNumeral c = true)
include numeral

theorem portPattern_deterministic : Deterministic (portPattern digit) := by
  change Deterministic (literal "listen".toList ++ (plus isSpace :: plus digit :: literal [';']))
  refine deterministic_single (literal_single _) ⟨fun _ c hs => ?_, fun _ c hd => ?_, rfl⟩
  · by_contra hd
    have hn := numeral c (Bool.eq_true_of_not_eq_false hd)
    rw [space_not_numeral hs] at hn
    cases hn
  · exact ne_of_class (numeral c hd) (by decide)

theorem phpPattern_deterministic : Deterministic (phpPattern digit) := by
  change Deterministic (literal "fastcgi_pass".toList ++ (plus isSpace :: _))
  refine deterministic_single (literal_single _) ⟨fun _ c hs => ne_of_class hs (by decide), ?_⟩
  change Deterministic ((literal "127".toList ++ [one isDot] ++ literal "0".toList ++
    [one isDot] ++ literal "0".toList ++ [one isDot] ++ literal "1:".toList) ++
    (plus digit :: literal [';']))
  refine deterministic_single ?_ ⟨fun _ c hd => ne_of_class (numeral c hd) (by decide), rfl⟩
  intro i hi
  simp only [List.mem_append, List.mem_singleton] at hi
  rcases hi with (((((hi | rfl) | hi) | rfl) | hi) | rfl) | hi
  all_goals first | rfl | exact literal_single _ i hi
end

theorem portRegex_deterministic : Deterministic portRegex :=
  portPattern_deterministic fun _ => numeral_of_digit

theorem phpRegex_deterministic : Deterministic phpRegex :=
  phpPattern_deterministic fun _ => numeral_of_digit

theorem directives_overlapFree : OverlapFree directives := by
  apply overlapFree
  · simp [listenKeyword, fastcgiKeyword]
  · intro k hk
    simp only [List.mem_cons, List.not_mem_nil, or_false] at hk
    rcases hk with rfl | rfl
    · exact portPattern_deterministic fun _ h => h
    · exact phpPattern_deterministic fun _ h => h
  · intro k hk
    simp only [List.mem_cons, List.not_mem_nil, or_false] at hk
    rcases hk with rfl | rfl <;> decide

theorem listen_matches {digit : Char → Bool} {ds : Text} (hne : ds ≠ [])
    (hd : ∀ c ∈ ds, digit c = true) :
    Matches (portPattern digit) ("listen       ".toList ++ ds ++ ";".toList) := by
  have spaces : Matches [plus isSpace] "       ".toList :=
    matches_plus (by decide) (List.all_eq_true.mp rfl)
  exact (((matches_literal "listen".toList).append spaces).append
    (matches_plus hne hd)).append (matches_literal ";".toList)

theorem fastcgi_matches {digit : Char → Bool} {ds : Text} (hne : ds ≠ [])
    (hd : ∀ c ∈ ds, digit c = true) :
    Matches (phpPattern digit) ("fastcgi_pass   127.0.0.1:".toList ++ ds ++ ";".toList) := by
  have spaces : Matches [plus isSpace] "   ".toList :=
    matches_plus (by decide) (List.all_eq_true.mp rfl)
  have dot : Matches [one isDot] ".".toList := .one (by decide) .nil
  have address := (((((matches_literal "127".toList).append dot).append
    (matches_literal "0".toList)).append dot).append (matches_literal "0".toList)).append dot
  have host := address.append (matches_literal "1:".toList)
  exact ((((matches_literal "fastcgi_pass".toList).append spaces).append host).append
    (matches_plus hne hd)).append (matches_literal ";".toList)

theorem toText_ne_nil (n : ℤ) : toText n ≠ [] := by
  cases n with
  | ofNat n => exact Nat.toDigits_ne_nil
  | negSucc n => exact List.cons_ne_nil _ _

theorem toText_numeral (n : ℤ) : ∀ c ∈ toText n, isNumeral c = true := by
  intro c hc
  cases n with
  | ofNat n => exact numeral_of_digit (digit_of_mem hc)
  | negSucc n =>
    rcases List.mem_cons.mp hc with rfl | hc
    · decide
    · exact numeral_of_digit (digit_of_mem hc)

theorem toText_digit {n : ℤ} (h : 0 ≤ n) : ∀ c ∈ toText n, c.isDigit = true := by
  obtain ⟨k, -, hk⟩ := toText_nonneg h
  intro c hc
  rw [hk] at hc
  exact digit_of_mem hc

theorem digits_widen (is js : List Item) :
    List.Forall₂ (fun i j : Item => i.many = j.many ∧ ∀ c, i.cls c = true → j.cls c = true)
      (is ++ [plus Char.isDigit] ++ js) (is ++ [plus isNumeral] ++ js) := by
  have refl : ∀ ks : List Item, List.Forall₂
      (fun i j : Item => i.many = j.many ∧ ∀ c, i.cls c = true → j.cls c = true) ks ks :=
    fun ks => List.forall₂_same.mpr fun _ _ => ⟨rfl, fun _ h => h⟩
  have middle : List.Forall₂
      (fun i j : Item => i.many = j.many ∧ ∀ c, i.cls c = true → j.cls c = true)
      [plus Char.isDigit] [plus isNumeral] :=
    .cons ⟨rfl, fun _ h => numeral_of_digit h⟩ .nil
  exact List.rel_append (List.rel_append (refl is) middle) (refl js)

theorem portRegex_subset : language portRegex ⊆ directives := by
  intro w hw
  refine ⟨listenKeyword, by simp, hw.widen ?_⟩
  exact digits_widen (literal "listen".toList ++ [plus isSpace]) (literal ";".toList)

theorem phpRegex_subset : language phpRegex ⊆ directives := by
  intro w hw
  exact ⟨fastcgiKeyword, by simp, hw.widen (digits_widen _ (literal ";".toList))⟩

theorem listenText_mem (n : ℤ) : listenText n ∈ directives :=
  ⟨listenKeyword, by simp, listen_matches (toText_ne_nil n) (toText_numeral n)⟩

theorem fastcgiText_mem (n : ℤ) : fastcgiText n ∈ directives :=
  ⟨fastcgiKeyword, by simp, fastcgi_matches (toText_ne_nil n) (toText_numeral n)⟩

theorem portRegex_minus (t : Text) :
    matchHead portRegex ("listen       ".toList ++ '-' :: t ++ ";".toList) = none := rfl

theorem phpRegex_minus (t : Text) :
    matchHead phpRegex ("fastcgi_pass   127.0.0.1:".toList ++ '-' :: t ++ ";".toList) = none :=
  rfl

theorem listenText_negative {n : ℤ} (h : n < 0) : matchHead portRegex (listenText n) = none := by
  obtain ⟨k, -, hk⟩ := toText_neg h
  have hl : listenText n = "listen       ".toList ++ toText n ++ ";".toList := rfl
  rw [hl, hk]
  exact portRegex_minus _

theorem fastcgiText_negative {n : ℤ} (h : n < 0) :
    matchHead phpRegex (fastcgiText n) = none := by
  obtain ⟨k, -, hk⟩ := toText_neg h
  have hf : fastcgiText n = "fastcgi_pass   127.0.0.1:".toList ++ toText n ++ ";".toList := rfl
  rw [hf, hk]
  exact phpRegex_minus _

theorem listenText_recognised (n : ℤ) : listenText n ∈ language portRegex ↔ 0 ≤ n := by
  constructor
  · intro h
    by_contra hn
    have hm := matchHead_complete h []
    rw [List.append_nil, listenText_negative (not_le.mp hn)] at hm
    cases hm
  · exact fun h => listen_matches (toText_ne_nil n) (toText_digit h)

theorem fastcgiText_recognised (n : ℤ) : fastcgiText n ∈ language phpRegex ↔ 0 ≤ n := by
  constructor
  · intro h
    by_contra hn
    have hm := matchHead_complete h []
    rw [List.append_nil, fastcgiText_negative (not_le.mp hn)] at hm
    cases hm
  · exact fun h => fastcgi_matches (toText_ne_nil n) (toText_digit h)

theorem port_php_disjoint {w : Text} (hp : w ∈ language portRegex) : w ∉ language phpRegex := by
  intro hq
  obtain ⟨c, t, rfl, hc⟩ := Matches.head hp
  obtain ⟨d, u, hd, hdc⟩ := Matches.head hq
  obtain ⟨rfl, -⟩ := List.cons.inj hd
  obtain rfl := beq_iff_eq.mp hc
  cases hdc

theorem listenText_not_php (n : ℤ) : listenText n ∉ language phpRegex := by
  intro h
  obtain ⟨c, t, hw, hc⟩ := Matches.head h
  obtain ⟨rfl, -⟩ := List.cons.inj hw
  cases hc

theorem fastcgiText_not_port (n : ℤ) : fastcgiText n ∉ language portRegex := by
  intro h
  obtain ⟨c, t, hw, hc⟩ := Matches.head h
  obtain ⟨rfl, -⟩ := List.cons.inj hw
  cases hc

theorem listenText_injective : Function.Injective listenText := by
  intro m n h
  exact toText_injective (List.append_cancel_left (List.append_cancel_right h))

theorem fastcgiText_injective : Function.Injective fastcgiText := by
  intro m n h
  exact toText_injective (List.append_cancel_left (List.append_cancel_right h))

open Classical in
noncomputable def exchange (nginxPort phpPort : ℤ) (w : Text) : Text :=
  if w ∈ language portRegex then listenText nginxPort
  else if w ∈ language phpRegex then fastcgiText phpPort
  else w

theorem exchange_port {n p : ℤ} {w : Text} (h : w ∈ language portRegex) :
    exchange n p w = listenText n := if_pos h

theorem exchange_php {n p : ℤ} {w : Text} (h : w ∈ language phpRegex) :
    exchange n p w = fastcgiText p := by
  rw [exchange, if_neg fun hp => port_php_disjoint hp h, if_pos h]

theorem exchange_other {n p : ℤ} {w : Text} (h : w ∉ language portRegex)
    (h' : w ∉ language phpRegex) : exchange n p w = w := by
  rw [exchange, if_neg h, if_neg h']

theorem exchange_mem (n p : ℤ) : ∀ w ∈ directives, exchange n p w ∈ directives := by
  intro w hw
  unfold exchange
  split_ifs
  · exact listenText_mem n
  · exact fastcgiText_mem p
  · exact hw

theorem rewritePorts_text (n p : ℤ) {T : List (Token Char)} (hT : Divided directives T) :
    rewritePorts n p (text T) = text (T.map (Token.map (exchange n p))) := by
  classical
  have first : ∀ w ∈ directives,
      (if w ∈ language portRegex then listenText n else w) ∈ directives := by
    intro w hw
    split_ifs
    · exact listenText_mem n
    · exact hw
  rw [rewritePorts, replaceAll_text directives_overlapFree portRegex_deterministic
      portRegex_subset _ hT,
    replaceAll_text directives_overlapFree phpRegex_deterministic phpRegex_subset _
      (hT.map directives_overlapFree first), List.map_map]
  congr 2
  funext t
  cases t with
  | letter c => rfl
  | word w =>
    simp only [Function.comp_apply, Token.map, Token.word.injEq]
    by_cases hp : w ∈ language portRegex
    · rw [if_pos hp, if_neg (listenText_not_php n), exchange_port hp]
    · rw [if_neg hp, exchange, if_neg hp]

theorem exchange_exchange (n p m q : ℤ) (w : Text) :
    exchange n p (exchange m q w) =
      exchange (if m < 0 then m else n) (if q < 0 then q else p) w := by
  by_cases hp : w ∈ language portRegex
  · rw [exchange_port hp, exchange_port hp]
    split_ifs with hm
    · exact exchange_other (fun h => absurd ((listenText_recognised m).mp h) (by omega))
        (listenText_not_php m)
    · exact exchange_port ((listenText_recognised m).mpr (by omega))
  · by_cases hq : w ∈ language phpRegex
    · rw [exchange_php hq, exchange_php hq]
      split_ifs with hm
      · exact exchange_other (fastcgiText_not_port q)
          fun h => absurd ((fastcgiText_recognised q).mp h) (by omega)
      · exact exchange_php ((fastcgiText_recognised q).mpr (by omega))
    · rw [exchange_other hp hq, exchange_other hp hq, exchange_other hp hq]

/-- Two rewrites act as one. A negative port, once written, stays. -/
theorem rewritePorts_rewritePorts (n p m q : ℤ) (x : Text) :
    rewritePorts n p (rewritePorts m q x) =
      rewritePorts (if m < 0 then m else n) (if q < 0 then q else p) x := by
  obtain ⟨T, hT, rfl⟩ := exists_divided directives_overlapFree x
  rw [rewritePorts_text m q hT,
    rewritePorts_text n p (hT.map directives_overlapFree (exchange_mem m q)),
    rewritePorts_text _ _ hT, List.map_map]
  congr 2
  funext t
  cases t with
  | letter c => rfl
  | word w => exact congrArg Token.word (exchange_exchange n p m q w)

theorem rewritePorts_eq_iff (n p m q : ℤ) (x : Text) :
    rewritePorts n p x = rewritePorts m q x ↔
      (occurs portRegex x = true → n = m) ∧ (occurs phpRegex x = true → p = q) := by
  obtain ⟨T, hT, rfl⟩ := exists_divided directives_overlapFree x
  rw [rewritePorts_text n p hT, rewritePorts_text m q hT,
    occurs_text directives_overlapFree portRegex_subset hT,
    occurs_text directives_overlapFree phpRegex_subset hT]
  constructor
  · intro h
    have hmap := (hT.map directives_overlapFree (exchange_mem n p)).unique directives_overlapFree
      (hT.map directives_overlapFree (exchange_mem m q)) h
    have word : ∀ w, Token.word w ∈ T → exchange n p w = exchange m q w := by
      intro w hw
      exact Token.word.inj (List.map_inj_left.mp hmap _ hw)
    constructor
    · rintro ⟨w, hw, hm⟩
      have he := word w hm
      rw [exchange_port hw, exchange_port hw] at he
      exact listenText_injective he
    · rintro ⟨w, hw, hm⟩
      have he := word w hm
      rw [exchange_php hw, exchange_php hw] at he
      exact fastcgiText_injective he
  · rintro ⟨hn, hp⟩
    congr 1
    refine List.map_inj_left.mpr fun t ht => ?_
    cases t with
    | letter c => rfl
    | word w =>
      refine congrArg Token.word ?_
      by_cases hw : w ∈ language portRegex
      · rw [exchange_port hw, exchange_port hw, hn ⟨w, hw, ht⟩]
      · by_cases hw' : w ∈ language phpRegex
        · rw [exchange_php hw', exchange_php hw', hp ⟨w, hw', ht⟩]
        · rw [exchange_other hw hw', exchange_other hw hw']

theorem rewrite_idempotent (c : AppConfig) (x : Text) :
    rewrite c (rewrite c x) = rewrite c x := by
  rw [rewrite, rewrite, rewritePorts_rewritePorts]
  split_ifs <;> rfl

end Luhut.NginxConf
