import Mathlib.Data.List.Basic

set_option autoImplicit false

/-! A here-string runs from `@"` and a line end to the first `"@` at the start of a
line. On the way a backtick escapes the next character, and a dollar sign before
a variable name, a brace or a parenthesis starts a substitution. -/
namespace HereString

abbrev Text := List Char

/-- What is left to the rest of PowerShell: which characters outside ASCII are
    letters or digits, and how far the code of a sub-expression reaches, its
    closing parenthesis included. -/
structure Lexer where
  letter : Char → Bool
  code : Text → Option ℕ

inductive Segment where
  | text (c : Char)
  | variable (name : Text)
  | subexpression (code : Text)
deriving DecidableEq, Repr

inductive Dollar where
  | literal
  | broken
  | found (s : Segment) (length : ℕ)
deriving DecidableEq, Repr

def isDoubleQuote (c : Char) : Bool :=
  c == '\x22' || c.toNat == 0x201C || c.toNat == 0x201D || c.toNat == 0x201E

def afterNewline : Text → Option Text
  | '\r' :: '\n' :: rest => some rest
  | '\r' :: rest => some rest
  | '\n' :: rest => some rest
  | _ => none

def afterQuoteAt : Text → Option Text
  | q :: '@' :: rest => if isDoubleQuote q then some rest else none
  | _ => none

def footer (text : Text) : Option Text := (afterNewline text).bind afterQuoteAt

def escape : Char → Char
  | '0' => '\x00'
  | 'a' => '\x07'
  | 'b' => '\x08'
  | 'f' => '\x0C'
  | 'n' => '\n'
  | 'r' => '\r'
  | 't' => '\t'
  | 'v' => '\x0B'
  | c => c

namespace Lexer
variable (L : Lexer)

def isWord (c : Char) : Bool := c.isAlphanum || c == '_' || (128 ≤ c.toNat && L.letter c)

def isSpecial (c : Char) : Bool := c == '$' || c == '?' || c == '^'

def isVariableStart (c : Char) : Bool := L.isWord c || isSpecial c || c == ':'

def starts (c : Char) : Bool := c == '(' || c == '\x7b' || L.isVariableStart c

def name : Text → Text
  | [] => []
  | c :: rest =>
    if isSpecial c then [c] else c :: rest.takeWhile fun c => L.isWord c || c == ':' || c == '?'

def dollar : Text → Dollar
  | [] => .literal
  | c :: rest =>
    if c == '(' then
      match L.code rest with
      | some n => .found (.subexpression (rest.take n)) (n + 1)
      | none => .broken
    else if c == '\x7b' then
      if rest.contains '\x7d' then
        .found (.variable (rest.takeWhile (· != '\x7d')))
          ((rest.takeWhile (· != '\x7d')).length + 2)
      else .broken
    else if L.isVariableStart c then
      .found (.variable (L.name (c :: rest))) (L.name (c :: rest)).length
    else .literal

def push (s : Segment) (r : List Segment × Text) : List Segment × Text := (s :: r.1, r.2)

/-- The segments up to the end of the here-string and the text after it. The
    fuel is the number of characters that may be read. -/
def scan : ℕ → Text → Option (List Segment × Text)
  | 0, _ => none
  | _ + 1, [] => none
  | n + 1, c :: rest =>
    match footer (c :: rest) with
    | some after => some ([], after)
    | none =>
      if c == '\x60' then
        match rest with
        | [] => none
        | e :: rest => (scan n rest).map (push (.text (escape e)))
      else if c == '$' then
        match L.dollar rest with
        | .literal => (scan n rest).map (push (.text '$'))
        | .broken => none
        | .found s k => (scan n (rest.drop k)).map (push s)
      else (scan n rest).map (push (.text c))

def hereString : Text → Option (List Segment × Text)
  | '@' :: q :: rest =>
    if isDoubleQuote q then
      (afterNewline (rest.dropWhile fun c => c == ' ' || c == '\t')).bind fun body =>
        match afterQuoteAt body with
        | some after => some ([], after)
        | none => L.scan body.length body
    else none
  | _ => none

/-- No backtick, and no dollar sign directly before the start of a substitution. -/
def plain : Text → Bool
  | [] => true
  | c :: rest => c != '\x60' && !(c == '$' && rest.head?.any L.starts) && plain rest

variable {L}

theorem afterNewline_length {text rest : Text} (h : afterNewline text = some rest) :
    rest.length + 1 ≤ text.length := by
  unfold afterNewline at h
  split at h
  · cases h
    simp
  · cases h
    simp
  · cases h
    simp
  · cases h

theorem footer_length {text after : Text} (h : footer text = some after) :
    after.length + 3 ≤ text.length := by
  obtain ⟨rest, hn, hq⟩ := Option.bind_eq_some_iff.mp h
  have hlen := afterNewline_length hn
  unfold afterQuoteAt at hq
  split at hq
  · split at hq
    · simp only [Option.some.injEq] at hq
      subst hq
      simp only [List.length_cons] at hlen
      omega
    · cases hq
  · cases hq

theorem scan_length {n : ℕ} {text after : Text} {segs : List Segment}
    (h : L.scan n text = some (segs, after)) : segs.length + 3 + after.length ≤ text.length := by
  induction n generalizing text segs with
  | zero => cases h
  | succ n ih =>
    have pushed : ∀ (s : Segment) (rest : Text), (L.scan n rest).map (push s) = some (segs, after) →
        rest.length < text.length → segs.length + 3 + after.length ≤ text.length := by
      intro s rest hs hlt
      obtain ⟨r, hr, hp⟩ := Option.map_eq_some_iff.mp hs
      have hsegs : segs = s :: r.1 := (congrArg Prod.fst hp).symm
      have hafter : after = r.2 := (congrArg Prod.snd hp).symm
      have hrest : L.scan n rest = some (r.1, after) := by rw [hr, hafter]
      have hle := ih hrest
      rw [hsegs, List.length_cons]
      omega
    cases text with
    | nil => cases h
    | cons c rest =>
      simp only [scan] at h
      split at h
      · next after' hf =>
        have hlen := footer_length hf
        simp only [Option.some.injEq, Prod.mk.injEq] at h
        rw [← h.1, ← h.2]
        simp only [List.length_nil]
        omega
      · split at h
        · split at h
          · cases h
          · exact pushed _ _ h (by simp only [List.length_cons]; omega)
        · split at h
          · split at h
            · exact pushed _ _ h (by simp)
            · cases h
            · exact pushed _ _ h (by simp only [List.length_drop, List.length_cons]; omega)
          · exact pushed _ _ h (by simp)

theorem dollar_starts {rest : Text} (h : rest.head?.any L.starts = true) :
    L.dollar rest = .broken ∨
      ∃ (s : Segment) (k : ℕ), L.dollar rest = .found s k ∧ ∀ c, s ≠ .text c := by
  cases rest with
  | nil => cases h
  | cons c rest =>
    have hc : L.starts c = true := h
    simp only [dollar]
    split
    · split
      · exact Or.inr ⟨_, _, rfl, nofun⟩
      · exact Or.inl rfl
    · next hparen =>
      split
      · split
        · exact Or.inr ⟨_, _, rfl, nofun⟩
        · exact Or.inl rfl
      · next hbrace =>
        have hv : L.isVariableStart c = true := by simpa [starts, hparen, hbrace] using hc
        rw [if_pos hv]
        exact Or.inr ⟨_, _, rfl, nofun⟩

theorem dollar_literal {rest : Text} (h : rest.head?.any L.starts = false) :
    L.dollar rest = .literal := by
  cases rest with
  | nil => rfl
  | cons c rest =>
    have hc : L.starts c = false := h
    simp only [starts, Bool.or_eq_false_iff] at hc
    simp [dollar, hc.1.1, hc.1.2, hc.2]

def Open (rest : Text) : Text → Prop
  | [] => True
  | c :: body => footer (c :: (body ++ rest)) = none ∧ Open rest body

def close : Text := ['\n', '\x22', '@']

theorem push_text_iff {r : Option (List Segment × Text)} {c : Char} {body after : Text} :
    r.map (push (.text c)) = some ((c :: body).map .text, after) ↔
      r = some (body.map .text, after) := by
  constructor
  · intro h
    obtain ⟨q, hq, hp⟩ := Option.map_eq_some_iff.mp h
    have hsegs : q.1 = body.map .text := (List.cons.inj (congrArg Prod.fst hp)).2
    have hafter : q.2 = after := congrArg Prod.snd hp
    rw [hq, ← hafter, ← hsegs]
  · intro h
    rw [h]
    rfl

theorem scan_escape {n : ℕ} {e : Char} {body rest after : Text}
    (hrest : body ++ (close ++ after) = e :: rest) :
    (L.scan n rest).map (push (.text (escape e))) ≠
      some (('\x60' :: body).map .text, after) := by
  intro h
  obtain ⟨r, hr, hp⟩ := Option.map_eq_some_iff.mp h
  have hsegs : r.1 = body.map .text := (List.cons.inj (congrArg Prod.fst hp)).2
  have hafter : r.2 = after := congrArg Prod.snd hp
  have hr' : L.scan n rest = some (r.1, r.2) := hr
  have hlen := scan_length hr'
  have total := congrArg List.length hrest
  rw [hsegs, hafter, List.length_map] at hlen
  simp only [List.length_append, List.length_cons, close, List.length_nil] at total
  omega

theorem scan_iff {n : ℕ} {body after : Text} (hopen : Open (close ++ after) body)
    (hn : body.length < n) :
    L.scan n (body ++ (close ++ after)) = some (body.map .text, after) ↔
      L.plain body = true := by
  induction body generalizing n with
  | nil =>
    cases n with
    | zero => cases hn
    | succ n => exact ⟨fun _ => rfl, fun _ => rfl⟩
  | cons c body ih =>
    cases n with
    | zero => cases hn
    | succ n =>
      have ih := ih hopen.2 (n := n) (by simpa using hn)
      have hfoot : footer (c :: (body ++ (close ++ after))) = none := hopen.1
      have literal : (L.scan n (body ++ (close ++ after))).map (push (.text c)) =
          some ((c :: body).map .text, after) ↔ L.plain body = true := push_text_iff.trans ih
      simp only [List.cons_append, scan, hfoot]
      by_cases htick : c = '\x60'
      · subst htick
        simp only [plain, bne_self_eq_false, Bool.false_and, Bool.false_eq_true, iff_false,
          beq_self_eq_true, if_true]
        cases hrest : body ++ (close ++ after) with
        | nil => simp
        | cons e rest => exact scan_escape hrest
      have htick' : (c == '\x60') = false := by simpa using htick
      by_cases hdollar : c = '$'
      · subst hdollar
        have head : (body ++ (close ++ after)).head?.any L.starts = body.head?.any L.starts := by
          cases body <;> rfl
        simp only [plain, htick', Bool.false_eq_true, if_false, beq_self_eq_true, if_true,
          Bool.true_and]
        cases hs : body.head?.any L.starts with
        | true =>
          rw [hs] at head
          simp only [Bool.not_true, Bool.and_false, Bool.false_and, Bool.false_eq_true, iff_false]
          rcases dollar_starts head with hd | ⟨s, k, hd, htext⟩
          · rw [hd]
            simp
          · rw [hd]
            intro h
            obtain ⟨r, _, hp⟩ := Option.map_eq_some_iff.mp h
            exact htext '$' (List.cons.inj (congrArg Prod.fst hp)).1
        | false =>
          rw [hs] at head
          rw [dollar_literal head]
          simpa [htick'] using literal
      · have hdollar' : (c == '$') = false := by simpa using hdollar
        simpa [plain, htick', hdollar', bne] using literal

/-- An open body between the marks of a here-string is carried literally exactly
    when it is plain. -/
theorem hereString_iff {body after : Text} (hopen : Open (close ++ after) body)
    (hfirst : afterQuoteAt (body ++ (close ++ after)) = none) :
    L.hereString ('@' :: '\x22' :: '\n' :: (body ++ (close ++ after))) =
        some (body.map .text, after) ↔
      L.plain body = true := by
  rw [← scan_iff hopen (n := (body ++ (close ++ after)).length) (by simp [close])]
  have hstring : L.hereString ('@' :: '\x22' :: '\n' :: (body ++ (close ++ after))) =
      match afterQuoteAt (body ++ (close ++ after)) with
      | some after => some ([], after)
      | none => L.scan (body ++ (close ++ after)).length (body ++ (close ++ after)) := rfl
  rw [hstring, hfirst]

theorem plain_append {a b : Text} (h : a.getLast? = some '$' → b.head?.any L.starts = false) :
    L.plain (a ++ b) = (L.plain a && L.plain b) := by
  induction a with
  | nil => rfl
  | cons c a ih =>
    cases a with
    | nil =>
      by_cases hc : c = '$'
      · subst hc
        simp [plain, h rfl]
      · have hc' : (c == '$') = false := by simpa using hc
        simp [plain, hc']
    | cons d a =>
      have tail := ih (by simpa using h)
      change (c != '\x60' && !(c == '$' && L.starts d) && L.plain (d :: a ++ b)) =
        (c != '\x60' && !(c == '$' && L.starts d) && L.plain (d :: a) && L.plain b)
      rw [tail, Bool.and_assoc, Bool.and_assoc, Bool.and_assoc]

theorem footer_line (c : Char) (rest : Text) (hr : c ≠ '\r') (hn : c ≠ '\n') :
    footer (c :: rest) = none := by
  simp [footer, afterNewline, hr, hn]

theorem open_append {rest line body : Text} (hline : ∀ c ∈ line, c ≠ '\r' ∧ c ≠ '\n')
    (hbody : Open rest body) : Open rest (line ++ body) := by
  induction line with
  | nil => exact hbody
  | cons c line ih =>
    have hc := hline c (by simp)
    exact ⟨footer_line _ _ hc.1 hc.2, ih fun d hd => hline d (by simp [hd])⟩

end Lexer
end HereString
