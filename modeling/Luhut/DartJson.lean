import Luhut.DartInt

set_option autoImplicit false

/-! `print` is `jsonEncode`. `step` is the parser of `jsonDecode`: it takes one
character at a time and keeps the open lists and maps on a stack. Half a
surrogate pair escaped on its own reads as U+FFFD; a Dart string can hold it. -/
namespace DartJson
open DartInt

/-- A double is kept as its literal. -/
inductive Value where
  | null
  | bool (b : Bool)
  | int (n : ℤ)
  | double (literal : Text)
  | string (s : Text)
  | list (items : List Value)
  | map (fields : List (Text × Value))

def hexDigit (n : ℕ) : Char := if n < 10 then Char.ofNat (48 + n) else Char.ofNat (87 + n)

def control (c : Char) : Text :=
  if c = '\x08' then ['b']
  else if c = '\t' then ['t']
  else if c = '\n' then ['n']
  else if c = '\x0c' then ['f']
  else if c = '\r' then ['r']
  else ['u', '0', '0', hexDigit (c.toNat / 16), hexDigit (c.toNat % 16)]

def escape (c : Char) : Text :=
  if c.toNat < 32 then '\\' :: control c
  else if c = '\x22' ∨ c = '\\' then ['\\', c]
  else [c]

def quoted (s : Text) : Text := '\x22' :: (s.flatMap escape ++ ['\x22'])

mutual
def print : Value → Text
  | .null => "null".toList
  | .bool true => "true".toList
  | .bool false => "false".toList
  | .int n => toText n
  | .double literal => literal
  | .string s => quoted s
  | .list items => '[' :: printItems items
  | .map fields => '\x7b' :: printFields fields

def printItems : List Value → Text
  | [] => [']']
  | v :: items => print v ++ printMoreItems items

def printMoreItems : List Value → Text
  | [] => [']']
  | v :: items => ',' :: (print v ++ printMoreItems items)

def printFields : List (Text × Value) → Text
  | [] => ['\x7d']
  | (key, v) :: fields => quoted key ++ ':' :: (print v ++ printMoreFields fields)

def printMoreFields : List (Text × Value) → Text
  | [] => ['\x7d']
  | (key, v) :: fields => ',' :: (quoted key ++ ':' :: (print v ++ printMoreFields fields))
end

def isBlank (c : Char) : Bool := c == ' ' || c == '\t' || c == '\n' || c == '\r'

def put (key : Text) (v : Value) : List (Text × Value) → List (Text × Value)
  | [] => [(key, v)]
  | (k, u) :: fields => if k = key then (k, v) :: fields else (k, u) :: put key v fields

inductive Phase where
  | minus | zero | digits | point | fraction | exponent | sign | power
deriving DecidableEq

inductive Target where
  | value
  | key (fields : List (Text × Value))

inductive Mode where
  | value
  | firstItem
  | firstKey
  | key (fields : List (Text × Value))
  | colon (fields : List (Text × Value)) (key : Text)
  | after (v : Value)
  | word (rest : Text) (v : Value)
  | number (phase : Phase) (literal : Text)
  | string (target : Target) (s : Text) (high : Option ℕ)
  | escape (target : Target) (s : Text) (high : Option ℕ)
  | unicode (target : Target) (s : Text) (high : Option ℕ) (code left : ℕ)

inductive Frame where
  | list (items : List Value)
  | map (fields : List (Text × Value)) (key : Text)

structure State where
  mode : Mode
  stack : List Frame

def start : State := ⟨.value, []⟩

def replacement : Char := '\uFFFD'

/-- The string so far, with a high surrogate that found no partner. -/
def flush (s : Text) (high : Option ℕ) : Text := if high.isSome then s ++ [replacement] else s

def pushUnit (s : Text) (high : Option ℕ) (code : ℕ) : Text × Option ℕ :=
  if 0xD800 ≤ code ∧ code < 0xDC00 then (flush s high, some code)
  else if 0xDC00 ≤ code ∧ code < 0xE000 then
    match high with
    | some h => (s ++ [Char.ofNat (0x10000 + (h - 0xD800) * 0x400 + (code - 0xDC00))], none)
    | none => (s ++ [replacement], none)
  else (flush s high ++ [Char.ofNat code], none)

def escaped? (c : Char) : Option Char :=
  if c = 'b' then some '\x08'
  else if c = 't' then some '\t'
  else if c = 'n' then some '\n'
  else if c = 'f' then some '\x0c'
  else if c = 'r' then some '\r'
  else if c = '\x22' ∨ c = '\\' ∨ c = '/' then some c
  else none

def nextPhase : Phase → Char → Option Phase
  | .minus, c => if c = '0' then some .zero else if c.isDigit then some .digits else none
  | .zero, c => if c = '.' then some .point else if c = 'e' ∨ c = 'E' then some .exponent else none
  | .digits, c =>
    if c.isDigit then some .digits
    else if c = '.' then some .point else if c = 'e' ∨ c = 'E' then some .exponent else none
  | .point, c => if c.isDigit then some .fraction else none
  | .fraction, c =>
    if c.isDigit then some .fraction else if c = 'e' ∨ c = 'E' then some .exponent else none
  | .exponent, c =>
    if c.isDigit then some .power else if c = '+' ∨ c = '-' then some .sign else none
  | .sign, c => if c.isDigit then some .power else none
  | .power, c => if c.isDigit then some .power else none

/-- An integer literal outside the 64-bit range is a double. -/
def numberValue (literal : Text) : Phase → Option Value
  | .zero | .digits => some ((tryParse literal).elim (.double literal) .int)
  | .fraction | .power => some (.double literal)
  | _ => none

def begin (stack : List Frame) (c : Char) : Option State :=
  if c = '\x7b' then some ⟨.firstKey, stack⟩
  else if c = '[' then some ⟨.firstItem, .list [] :: stack⟩
  else if c = '\x22' then some ⟨.string .value [] none, stack⟩
  else if c = '-' then some ⟨.number .minus [c], stack⟩
  else if c = '0' then some ⟨.number .zero [c], stack⟩
  else if c.isDigit then some ⟨.number .digits [c], stack⟩
  else if c = 'n' then some ⟨.word "ull".toList .null, stack⟩
  else if c = 't' then some ⟨.word "rue".toList (.bool true), stack⟩
  else if c = 'f' then some ⟨.word "alse".toList (.bool false), stack⟩
  else none

def close (v : Value) : List Frame → Char → Option State
  | .list items :: stack, c =>
    if c = ',' then some ⟨.value, .list (items ++ [v]) :: stack⟩
    else if c = ']' then some ⟨.after (.list (items ++ [v])), stack⟩
    else none
  | .map fields key :: stack, c =>
    if c = ',' then some ⟨.key (put key v fields), stack⟩
    else if c = '\x7d' then some ⟨.after (.map (put key v fields)), stack⟩
    else none
  | [], _ => none

def stepAfter (v : Value) (stack : List Frame) (c : Char) : Option State :=
  if isBlank c then some ⟨.after v, stack⟩ else close v stack c

def endString (target : Target) (s : Text) : Mode :=
  match target with
  | .value => .after (.string s)
  | .key fields => .colon fields s

def step (s : State) (c : Char) : Option State :=
  match s.mode with
  | .value => if isBlank c then some s else begin s.stack c
  | .firstItem =>
    if isBlank c then some s
    else if c = ']' then some ⟨.after (.list []), s.stack.tail⟩
    else begin s.stack c
  | .firstKey =>
    if isBlank c then some s
    else if c = '\x7d' then some ⟨.after (.map []), s.stack⟩
    else if c = '\x22' then some ⟨.string (.key []) [] none, s.stack⟩
    else none
  | .key fields =>
    if isBlank c then some s
    else if c = '\x22' then some ⟨.string (.key fields) [] none, s.stack⟩
    else none
  | .colon fields key =>
    if isBlank c then some s
    else if c = ':' then some ⟨.value, .map fields key :: s.stack⟩
    else none
  | .after v => stepAfter v s.stack c
  | .word [] v => stepAfter v s.stack c
  | .word (d :: rest) v =>
    if c = d then some ⟨if rest = [] then .after v else .word rest v, s.stack⟩ else none
  | .number phase literal =>
    match nextPhase phase c with
    | some next => some ⟨.number next (literal ++ [c]), s.stack⟩
    | none => (numberValue literal phase).bind fun v => stepAfter v s.stack c
  | .string target t high =>
    if c = '\x22' then some ⟨endString target (flush t high), s.stack⟩
    else if c = '\\' then some ⟨.escape target t high, s.stack⟩
    else if c.toNat < 32 then none
    else some ⟨.string target (flush t high ++ [c]) none, s.stack⟩
  | .escape target t high =>
    if c = 'u' then some ⟨.unicode target t high 0 4, s.stack⟩
    else (escaped? c).map fun d => ⟨.string target (flush t high ++ [d]) none, s.stack⟩
  | .unicode target t high code left =>
    (hexValue c).map fun d =>
      if left = 1 then
        ⟨.string target (pushUnit t high (16 * code + d)).1 (pushUnit t high (16 * code + d)).2,
          s.stack⟩
      else ⟨.unicode target t high (16 * code + d) (left - 1), s.stack⟩

def run : State → Text → Option State
  | s, [] => some s
  | s, c :: t => (step s c).bind fun u => run u t

/-- The end of the text: it may stand after a value, which a number is too. -/
def finish (s : State) : Option Value :=
  match s.stack, s.mode with
  | [], .after v => some v
  | [], .number phase literal => numberValue literal phase
  | _, _ => none

def parse (t : Text) : Option Value := (run start t).bind finish

theorem run_append (s : State) (t u : Text) : run s (t ++ u) = (run s t).bind fun v => run v u := by
  induction t generalizing s with
  | nil => rfl
  | cons c t ih =>
    change (step s c).bind (fun v => run v (t ++ u)) = ((step s c).bind fun v => run v t).bind _
    rw [Option.bind_assoc]
    congr 1
    funext v
    exact ih v

theorem run_cons {s u : State} {c : Char} (t : Text) (h : step s c = some u) :
    run s (c :: t) = run u t := by
  change (step s c).bind (fun v => run v t) = _
  rw [h]
  rfl

theorem run_of_append {s u : State} {t : Text} (r : Text) (h : run s t = some u) :
    run s (t ++ r) = run u r := by
  rw [run_append, h]
  rfl

theorem hexValue_hexDigit {n : ℕ} (h : n < 16) : hexValue (hexDigit n) = some n := by
  have all : ∀ n < 16, hexValue (hexDigit n) = some n := by decide
  exact all n h

theorem escaped_control {c d : Char} (h : control c = [d]) : escaped? d = some c ∧ d ≠ 'u' := by
  unfold control at h
  split at h
  · next hc => cases h; exact ⟨by rw [hc]; rfl, by decide⟩
  split at h
  · next hc => cases h; exact ⟨by rw [hc]; rfl, by decide⟩
  split at h
  · next hc => cases h; exact ⟨by rw [hc]; rfl, by decide⟩
  split at h
  · next hc => cases h; exact ⟨by rw [hc]; rfl, by decide⟩
  split at h
  · next hc => cases h; exact ⟨by rw [hc]; rfl, by decide⟩
  · cases h

theorem control_cases (c : Char) : (∃ d, control c = [d]) ∨
    control c = ['u', '0', '0', hexDigit (c.toNat / 16), hexDigit (c.toNat % 16)] := by
  unfold control
  split_ifs
  · exact Or.inl ⟨_, rfl⟩
  · exact Or.inl ⟨_, rfl⟩
  · exact Or.inl ⟨_, rfl⟩
  · exact Or.inl ⟨_, rfl⟩
  · exact Or.inl ⟨_, rfl⟩
  · exact Or.inr rfl

section
variable (target : Target) (s : Text) (stack : List Frame)

theorem step_unicode_last {code d : ℕ} {c : Char} (hd : hexValue c = some d)
    (hcode : 16 * code + d < 0xD800) :
    step ⟨.unicode target s none code 1, stack⟩ c =
      some ⟨.string target (s ++ [Char.ofNat (16 * code + d)]) none, stack⟩ := by
  have hpush : pushUnit s none (16 * code + d) = (s ++ [Char.ofNat (16 * code + d)], none) := by
    unfold pushUnit
    rw [if_neg (by omega), if_neg (by omega)]
    rfl
  simp only [step, hd, Option.map_some, ↓reduceIte, hpush]

theorem run_control {c : Char} (hc : c.toNat < 32) (r : Text) :
    run ⟨.escape target s none, stack⟩ (control c ++ r) =
      run ⟨.string target (s ++ [c]) none, stack⟩ r := by
  rcases control_cases c with ⟨d, hd⟩ | hu
  · obtain ⟨he, hne⟩ := escaped_control hd
    rw [hd]
    apply run_cons
    simp [step, hne, he, flush]
  · rw [hu]
    have high := hexValue_hexDigit (n := c.toNat / 16) (by omega)
    have low := hexValue_hexDigit (n := c.toNat % 16) (by omega)
    have hsum : 16 * (c.toNat / 16) + c.toNat % 16 = c.toNat := by omega
    have last : step ⟨.unicode target s none (c.toNat / 16) 1, stack⟩ (hexDigit (c.toNat % 16)) =
        some ⟨.string target (s ++ [Char.ofNat (16 * (c.toNat / 16) + c.toNat % 16)]) none,
          stack⟩ := step_unicode_last target s stack low (by omega)
    rw [hsum, Char.ofNat_toNat] at last
    have third : step ⟨.unicode target s none 0 2, stack⟩ (hexDigit (c.toNat / 16)) =
        some ⟨.unicode target s none (c.toNat / 16) 1, stack⟩ := by
      simp [step, high]
    change run ⟨.unicode target s none 0 2, stack⟩
      (hexDigit (c.toNat / 16) :: hexDigit (c.toNat % 16) :: r) = _
    rw [run_cons _ third, run_cons _ last]

theorem run_escape (c : Char) (r : Text) :
    run ⟨.string target s none, stack⟩ (escape c ++ r) =
      run ⟨.string target (s ++ [c]) none, stack⟩ r := by
  unfold escape
  split_ifs with hlow hq
  · exact run_control target s stack hlow r
  · rcases hq with rfl | rfl
    · rfl
    · rfl
  · rw [not_or] at hq
    apply run_cons
    simp [step, hq.1, hq.2, hlow, flush]

theorem run_escapes (t r : Text) :
    run ⟨.string target s none, stack⟩ (t.flatMap escape ++ r) =
      run ⟨.string target (s ++ t) none, stack⟩ r := by
  induction t generalizing s with
  | nil => simp
  | cons c t ih =>
    rw [List.flatMap_cons, List.append_assoc, run_escape, ih, List.append_assoc]
    rfl

theorem run_quoted (t r : Text) :
    run ⟨.string target [] none, stack⟩ (t.flatMap escape ++ '\x22' :: r) =
      run ⟨endString target t, stack⟩ r := by
  rw [run_escapes]
  apply run_cons
  simp [step, flush]
end

theorem digits_cons {k : ℕ} (hk : 0 < k) : ∃ c t, Nat.toDigits 10 k = c :: t ∧ c ≠ '0' := by
  induction k using Nat.strongRecOn with
  | ind k ih =>
    by_cases hlt : k < 10
    · refine ⟨k.digitChar, [], Nat.toDigits_of_lt_base hlt, ?_⟩
      rw [Ne, Nat.digitChar_eq_zero]
      omega
    · obtain ⟨c, t, hd, hc⟩ := ih (k / 10) (by omega) (by omega)
      refine ⟨c, t ++ Nat.toDigits 10 (k % 10), ?_, hc⟩
      have hsplit := Nat.toDigits_append_toDigits (b := 10) (n := k / 10) (d := k % 10)
        (by omega) (by omega) (by omega)
      rw [Nat.div_add_mod, hd] at hsplit
      exact hsplit.symm

theorem run_digits (stack : List Frame) (literal t r : Text) (ht : ∀ c ∈ t, c.isDigit = true) :
    run ⟨.number .digits literal, stack⟩ (t ++ r) =
      run ⟨.number .digits (literal ++ t), stack⟩ r := by
  induction t generalizing literal with
  | nil => simp
  | cons c t ih =>
    have hc := ht c List.mem_cons_self
    have first : step ⟨.number .digits literal, stack⟩ c =
        some ⟨.number .digits (literal ++ [c]), stack⟩ := by
      simp [step, nextPhase, hc]
    rw [List.cons_append, run_cons _ first, ih _ fun d hd => ht d (List.mem_cons_of_mem _ hd),
      List.append_assoc]
    rfl

theorem begin_digit {c : Char} (stack : List Frame) (hc : c.isDigit = true) (h0 : c ≠ '0') :
    begin stack c = some ⟨.number .digits [c], stack⟩ := by
  have others : c ≠ '\x7b' ∧ c ≠ '[' ∧ c ≠ '\x22' ∧ c ≠ '-' := by
    refine ⟨?_, ?_, ?_, ?_⟩ <;> (rintro rfl; exact absurd hc (by decide))
  simp [begin, others, h0, hc]

theorem digit_not_blank {c : Char} (hc : c.isDigit = true) : isBlank c = false := by
  have others : c ≠ ' ' ∧ c ≠ '\t' ∧ c ≠ '\n' ∧ c ≠ '\r' := by
    refine ⟨?_, ?_, ?_, ?_⟩ <;> (rintro rfl; exact absurd hc (by decide))
  simp [isBlank, others]

inductive Complete (v : Value) (stack : List Frame) : State → Prop where
  | after : Complete v stack ⟨.after v, stack⟩
  | number {phase : Phase} {literal : Text} (hphase : phase = .zero ∨ phase = .digits)
      (hv : numberValue literal phase = some v) : Complete v stack ⟨.number phase literal, stack⟩

def delimiters : List Char := [',', ']', '\x7d']

theorem Complete.step {v : Value} {stack : List Frame} {s : State} {c : Char}
    (h : Complete v stack s) (hc : c ∈ delimiters) : step s c = close v stack c := by
  have hblank : isBlank c = false := by
    simp only [delimiters, List.mem_cons, List.not_mem_nil, or_false] at hc
    rcases hc with rfl | rfl | rfl <;> rfl
  cases h with
  | after => simp [DartJson.step, stepAfter, hblank]
  | @number phase literal hphase hv =>
    have stop : nextPhase phase c = none := by
      simp only [delimiters, List.mem_cons, List.not_mem_nil, or_false] at hc
      rcases hphase with rfl | rfl <;> rcases hc with rfl | rfl | rfl <;> rfl
    simp [DartJson.step, stop, hv, stepAfter, hblank]

theorem Complete.finish {v : Value} {s : State} (h : Complete v [] s) : finish s = some v := by
  cases h with
  | after => rfl
  | number _ hv => exact hv

def Expects (stack : List Frame) (s : State) : Prop :=
  s = ⟨.value, stack⟩ ∨ s = ⟨.firstItem, stack⟩

theorem Expects.step {stack : List Frame} {s u : State} {c : Char} (h : Expects stack s)
    (hb : isBlank c = false) (hc : c ≠ ']') (hu : begin stack c = some u) :
    step s c = some u := by
  rcases h with rfl | rfl
  · simp [DartJson.step, hb, hu]
  · simp [DartJson.step, hb, hc, hu]

theorem run_natural {stack : List Frame} {s : State} (k : ℕ) (hs : Expects stack s)
    (hr : tryParse (Nat.toDigits 10 k) = some (k : ℤ)) :
    ∃ u, run s (Nat.toDigits 10 k) = some u ∧ Complete (.int k) stack u := by
  rcases Nat.eq_zero_or_pos k with rfl | hk
  · refine ⟨⟨.number .zero ['0'], stack⟩, ?_, .number (Or.inl rfl) ?_⟩
    · exact run_cons [] (hs.step rfl (by decide) rfl)
    · rfl
  · obtain ⟨c, t, hd, h0⟩ := digits_cons hk
    have hdigit : ∀ d ∈ c :: t, d.isDigit = true := fun d hd' => digit_of_mem (n := k) (hd ▸ hd')
    have hc := hdigit c List.mem_cons_self
    have first : DartJson.step s c = some ⟨.number .digits [c], stack⟩ := by
      apply hs.step (digit_not_blank hc) ?_ (begin_digit stack hc h0)
      rintro rfl
      exact absurd hc (by decide)
    have tail := run_digits stack [c] t [] fun d hd' => hdigit d (List.mem_cons_of_mem _ hd')
    rw [List.append_nil] at tail
    refine ⟨⟨.number .digits (c :: t), stack⟩, ?_, .number (Or.inr rfl) ?_⟩
    · rw [hd, run_cons _ first, tail]
      rfl
    · rw [← hd]
      simp [numberValue, hr]

theorem run_negative {stack : List Frame} {s : State} (k : ℕ) (hs : Expects stack s)
    (hr : tryParse ('-' :: Nat.toDigits 10 (k + 1)) = some (.negSucc k)) :
    ∃ u, run s ('-' :: Nat.toDigits 10 (k + 1)) = some u ∧
      Complete (.int (.negSucc k)) stack u := by
  obtain ⟨c, t, hd, h0⟩ := digits_cons (k := k + 1) (by omega)
  have hdigit : ∀ d ∈ c :: t, d.isDigit = true :=
    fun d hd' => digit_of_mem (n := k + 1) (hd ▸ hd')
  have first : DartJson.step s '-' = some ⟨.number .minus ['-'], stack⟩ :=
    hs.step rfl (by decide) rfl
  have second : DartJson.step ⟨.number .minus ['-'], stack⟩ c =
      some ⟨.number .digits ['-', c], stack⟩ := by
    simp [DartJson.step, nextPhase, h0, hdigit c List.mem_cons_self]
  have tail := run_digits stack ['-', c] t [] fun d hd' => hdigit d (List.mem_cons_of_mem _ hd')
  rw [List.append_nil] at tail
  refine ⟨⟨.number .digits ('-' :: c :: t), stack⟩, ?_, .number (Or.inr rfl) ?_⟩
  · rw [hd, run_cons _ first, run_cons _ second, tail]
    rfl
  · rw [← hd]
    simp [numberValue, hr]

theorem run_int {stack : List Frame} {s : State} {n : ℤ} (hs : Expects stack s)
    (hn : InRange n) : ∃ u, run s (toText n) = some u ∧ Complete (.int n) stack u := by
  have hr := tryParse_toText hn
  cases n with
  | ofNat k => exact run_natural k hs hr
  | negSucc k => exact run_negative k hs hr

def Reads (v : Value) : Prop :=
  ∀ (stack : List Frame) (s : State), Expects stack s →
    ∃ u, run s (print v) = some u ∧ Complete v stack u

theorem run_moreItems (stack : List Frame) (items : List Value) (hitems : ∀ v ∈ items, Reads v)
    (done : List Value) (v : Value) (u : State) (hu : Complete v (.list done :: stack) u) :
    run u (printMoreItems items) = some ⟨.after (.list (done ++ v :: items)), stack⟩ := by
  induction items generalizing done v u with
  | nil => exact run_cons [] ((hu.step (by simp [delimiters])).trans rfl)
  | cons w items ih =>
    have comma : step u ',' = some ⟨.value, .list (done ++ [v]) :: stack⟩ :=
      (hu.step (by simp [delimiters])).trans rfl
    obtain ⟨x, hx, hw⟩ :=
      hitems w List.mem_cons_self (.list (done ++ [v]) :: stack) _ (Or.inl rfl)
    have tail := ih (fun y hy => hitems y (List.mem_cons_of_mem _ hy)) _ w x hw
    rw [List.append_assoc] at tail
    change run u (',' :: (print w ++ printMoreItems items)) = _
    rw [run_cons _ comma, run_of_append _ hx, tail]
    rfl

theorem reads_list {items : List Value} (hitems : ∀ v ∈ items, Reads v) :
    Reads (.list items) := by
  intro stack s hs
  have first : step s '[' = some ⟨.firstItem, .list [] :: stack⟩ := hs.step rfl (by decide) rfl
  refine ⟨⟨.after (.list items), stack⟩, ?_, .after⟩
  change run s ('[' :: printItems items) = _
  rw [run_cons _ first]
  cases items with
  | nil => rfl
  | cons v items =>
    obtain ⟨u, hu, hv⟩ := hitems v List.mem_cons_self (.list [] :: stack) _ (Or.inr rfl)
    change run _ (print v ++ printMoreItems items) = _
    rw [run_of_append _ hu]
    exact run_moreItems stack items (fun w hw => hitems w (List.mem_cons_of_mem _ hw)) [] v u hv

theorem put_new {key : Text} {fields : List (Text × Value)} (v : Value)
    (h : key ∉ fields.map Prod.fst) : put key v fields = fields ++ [(key, v)] := by
  induction fields with
  | nil => rfl
  | cons f fields ih =>
    rw [List.map_cons, List.mem_cons, not_or] at h
    have hne : f.1 ≠ key := Ne.symm h.1
    have tail := ih h.2
    simp only [put, if_neg hne, tail, List.cons_append]

theorem run_key (stack : List Frame) (fields : List (Text × Value)) (key : Text) (s : State)
    (hs : step s '\x22' = some ⟨.string (.key fields) [] none, stack⟩) (r : Text) :
    run s (quoted key ++ ':' :: r) = run ⟨.value, .map fields key :: stack⟩ r := by
  have assoc : quoted key ++ ':' :: r = '\x22' :: (key.flatMap escape ++ '\x22' :: (':' :: r)) := by
    simp [quoted]
  rw [assoc, run_cons _ hs, run_quoted]
  rfl

theorem run_moreFields (stack : List Frame) (fields : List (Text × Value))
    (hfields : ∀ f ∈ fields, Reads f.2) (done : List (Text × Value)) (key : Text) (v : Value)
    (u : State) (hu : Complete v (.map done key :: stack) u)
    (hkeys : ((done ++ (key, v) :: fields).map Prod.fst).Nodup) :
    run u (printMoreFields fields) = some ⟨.after (.map (done ++ (key, v) :: fields)), stack⟩ := by
  have fresh : put key v done = done ++ [(key, v)] := by
    apply put_new
    rw [List.map_append, List.map_cons, List.nodup_append] at hkeys
    exact fun hmem => hkeys.2.2 key hmem key List.mem_cons_self rfl
  induction fields generalizing done key v u with
  | nil =>
    refine run_cons [] ((hu.step (by simp [delimiters])).trans ?_)
    rw [← fresh]
    rfl
  | cons f fields ih =>
    obtain ⟨k, w⟩ := f
    have comma : step u ',' = some ⟨.key (done ++ [(key, v)]), stack⟩ := by
      rw [hu.step (by simp [delimiters]), ← fresh]
      rfl
    obtain ⟨x, hx, hw⟩ := hfields (k, w) List.mem_cons_self
      (.map (done ++ [(key, v)]) k :: stack) _ (Or.inl rfl)
    have split : done ++ (key, v) :: (k, w) :: fields =
        (done ++ [(key, v)]) ++ (k, w) :: fields := by simp
    rw [split] at hkeys ⊢
    have tail := ih (fun g hg => hfields g (List.mem_cons_of_mem _ hg)) _ k w x hw hkeys ?_
    · change run u (',' :: (quoted k ++ ':' :: (print w ++ printMoreFields fields))) = _
      rw [run_cons _ comma, run_key stack (done ++ [(key, v)]) k _ rfl, run_of_append _ hx, tail]
    · apply put_new
      rw [List.map_append, List.nodup_append] at hkeys
      exact fun hmem => hkeys.2.2 k hmem k List.mem_cons_self rfl

theorem reads_map {fields : List (Text × Value)} (hfields : ∀ f ∈ fields, Reads f.2)
    (hkeys : (fields.map Prod.fst).Nodup) : Reads (.map fields) := by
  intro stack s hs
  have first : step s '\x7b' = some ⟨.firstKey, stack⟩ := hs.step rfl (by decide) rfl
  refine ⟨⟨.after (.map fields), stack⟩, ?_, .after⟩
  change run s ('\x7b' :: printFields fields) = _
  rw [run_cons _ first]
  cases fields with
  | nil => rfl
  | cons f fields =>
    obtain ⟨key, v⟩ := f
    obtain ⟨u, hu, hv⟩ :=
      hfields (key, v) List.mem_cons_self (.map [] key :: stack) _ (Or.inl rfl)
    change run _ (quoted key ++ ':' :: (print v ++ printMoreFields fields)) = _
    rw [run_key stack [] key _ rfl, run_of_append _ hu]
    exact run_moreFields stack fields (fun g hg => hfields g (List.mem_cons_of_mem _ hg)) [] key v
      u hv hkeys

inductive Encodable : Value → Prop where
  | null : Encodable .null
  | bool (b : Bool) : Encodable (.bool b)
  | int {n : ℤ} (hn : InRange n) : Encodable (.int n)
  | string (s : Text) : Encodable (.string s)
  | list {items : List Value} (hitems : ∀ v ∈ items, Encodable v) : Encodable (.list items)
  | map {fields : List (Text × Value)} (hkeys : (fields.map Prod.fst).Nodup)
      (hfields : ∀ f ∈ fields, Encodable f.2) : Encodable (.map fields)

theorem Encodable.reads {v : Value} (h : Encodable v) : Reads v := by
  induction h with
  | null =>
    intro stack s hs
    have first : step s 'n' = some ⟨.word "ull".toList .null, stack⟩ := hs.step rfl (by decide) rfl
    exact ⟨⟨.after .null, stack⟩, run_cons _ first, .after⟩
  | bool b =>
    intro stack s hs
    cases b with
    | true =>
      have first : step s 't' = some ⟨.word "rue".toList (.bool true), stack⟩ :=
        hs.step rfl (by decide) rfl
      exact ⟨⟨.after (.bool true), stack⟩, run_cons _ first, .after⟩
    | false =>
      have first : step s 'f' = some ⟨.word "alse".toList (.bool false), stack⟩ :=
        hs.step rfl (by decide) rfl
      exact ⟨⟨.after (.bool false), stack⟩, run_cons _ first, .after⟩
  | int hn => exact fun stack s hs => run_int hs hn
  | string t =>
    intro stack s hs
    have first : step s '\x22' = some ⟨.string .value [] none, stack⟩ :=
      hs.step rfl (by decide) rfl
    refine ⟨⟨.after (.string t), stack⟩, ?_, .after⟩
    change run s ('\x22' :: (t.flatMap escape ++ ['\x22'])) = _
    rw [run_cons _ first]
    exact run_quoted .value stack t []
  | list _ ih => exact reads_list ih
  | map hkeys _ ih => exact reads_map ih hkeys

theorem parse_print {v : Value} (h : Encodable v) : parse (print v) = some v := by
  obtain ⟨u, hu, hv⟩ := h.reads [] start (Or.inl rfl)
  change (run start (print v)).bind finish = some v
  rw [hu]
  exact hv.finish

def RangedFields (fields : List (Text × Value)) : Prop :=
  ∀ f ∈ fields, ∀ n, f.2 = .int n → InRange n

def Ranged : Value → Prop
  | .int n => InRange n
  | .map fields => RangedFields fields
  | _ => True

def Target.Ranged : Target → Prop
  | .value => True
  | .key fields => RangedFields fields

def Mode.Ranged : Mode → Prop
  | .key fields | .colon fields _ => RangedFields fields
  | .after v | .word _ v => DartJson.Ranged v
  | .string target _ _ | .escape target _ _ | .unicode target _ _ _ _ => target.Ranged
  | _ => True

def Frame.Ranged : Frame → Prop
  | .list _ => True
  | .map fields _ => RangedFields fields

def State.Ranged (s : State) : Prop := s.mode.Ranged ∧ ∀ f ∈ s.stack, f.Ranged

theorem rangedFields_nil : RangedFields [] := by
  intro f hf
  cases hf

theorem rangedFields_put {key : Text} {v : Value} {fields : List (Text × Value)}
    (hv : Ranged v) (hf : RangedFields fields) : RangedFields (put key v fields) := by
  have new : ∀ (k : Text) (n : ℤ), ((k, v) : Text × Value).2 = .int n → InRange n := by
    rintro k n rfl
    exact hv
  induction fields with
  | nil =>
    intro f hmem
    rw [List.mem_singleton.mp hmem]
    exact new key
  | cons g fields ih =>
    have tail : RangedFields fields := fun f hmem => hf f (List.mem_cons_of_mem _ hmem)
    obtain ⟨k, u⟩ := g
    simp only [put]
    split
    · intro f hmem
      rcases List.mem_cons.mp hmem with rfl | hmem
      · exact new k
      · exact tail f hmem
    · intro f hmem
      rcases List.mem_cons.mp hmem with rfl | hmem
      · exact hf (k, u) List.mem_cons_self
      · exact ih tail f hmem

theorem numberValue_ranged {literal : Text} {phase : Phase} {v : Value}
    (h : numberValue literal phase = some v) : Ranged v := by
  cases phase with
  | zero | digits =>
    cases h
    cases hr : tryParse literal with
    | none => exact trivial
    | some n => exact tryParse_inRange hr
  | fraction | power => cases h; exact trivial
  | _ => cases h

section
variable {stack : List Frame} {c : Char} {u : State} (hstack : ∀ f ∈ stack, f.Ranged)
include hstack

theorem begin_ranged (h : begin stack c = some u) : u.Ranged := by
  unfold begin at h
  split_ifs at h <;> cases h
  · exact ⟨trivial, hstack⟩
  · refine ⟨trivial, fun f hf => ?_⟩
    rcases List.mem_cons.mp hf with rfl | hf
    · exact trivial
    · exact hstack f hf
  all_goals exact ⟨trivial, hstack⟩

theorem close_ranged {v : Value} (hv : Ranged v) (h : close v stack c = some u) : u.Ranged := by
  cases stack with
  | nil => cases h
  | cons f stack =>
    have tail : ∀ g ∈ stack, g.Ranged := fun g hg => hstack g (List.mem_cons_of_mem _ hg)
    cases f with
    | list items =>
      simp only [close] at h
      split_ifs at h <;> cases h
      · exact ⟨trivial, fun g hg => (List.mem_cons.mp hg).elim (fun e => e ▸ trivial) (tail g)⟩
      · exact ⟨trivial, tail⟩
    | map fields key =>
      have hput : RangedFields (put key v fields) :=
        rangedFields_put hv (hstack (.map fields key) List.mem_cons_self)
      simp only [close] at h
      split_ifs at h <;> cases h
      · exact ⟨hput, tail⟩
      · exact ⟨hput, tail⟩

theorem stepAfter_ranged {v : Value} (hv : Ranged v) (h : stepAfter v stack c = some u) :
    u.Ranged := by
  unfold stepAfter at h
  split at h
  · cases h
    exact ⟨hv, hstack⟩
  · exact close_ranged hstack hv h
end

theorem step_ranged {s u : State} {c : Char} (hs : s.Ranged) (h : step s c = some u) :
    u.Ranged := by
  obtain ⟨mode, stack⟩ := s
  obtain ⟨hmode, hstack⟩ := hs
  cases mode with
  | value =>
    simp only [step] at h
    split_ifs at h
    · cases h
      exact ⟨hmode, hstack⟩
    · exact begin_ranged hstack h
  | firstItem =>
    simp only [step] at h
    split_ifs at h
    · cases h
      exact ⟨hmode, hstack⟩
    · cases h
      exact ⟨trivial, fun f hf => hstack f (List.mem_of_mem_tail hf)⟩
    · exact begin_ranged hstack h
  | firstKey =>
    simp only [step] at h
    split_ifs at h <;> cases h
    · exact ⟨hmode, hstack⟩
    · exact ⟨rangedFields_nil, hstack⟩
    · exact ⟨rangedFields_nil, hstack⟩
  | key fields =>
    simp only [step] at h
    split_ifs at h <;> cases h
    · exact ⟨hmode, hstack⟩
    · exact ⟨hmode, hstack⟩
  | colon fields key =>
    simp only [step] at h
    split_ifs at h <;> cases h
    · exact ⟨hmode, hstack⟩
    · exact ⟨trivial, fun f hf => (List.mem_cons.mp hf).elim (fun e => e ▸ hmode) (hstack f)⟩
  | after v => exact stepAfter_ranged hstack hmode h
  | word rest v =>
    cases rest with
    | nil => exact stepAfter_ranged hstack hmode h
    | cons d rest =>
      simp only [step] at h
      split_ifs at h <;> cases h
      · exact ⟨hmode, hstack⟩
      · exact ⟨hmode, hstack⟩
  | number phase literal =>
    simp only [step] at h
    split at h
    · cases h
      exact ⟨trivial, hstack⟩
    · obtain ⟨v, hv, hc⟩ := Option.bind_eq_some_iff.mp h
      exact stepAfter_ranged hstack (numberValue_ranged hv) hc
  | string target t high =>
    simp only [step] at h
    split_ifs at h <;> cases h
    · cases target with
      | value => exact ⟨trivial, hstack⟩
      | key fields => exact ⟨hmode, hstack⟩
    · exact ⟨hmode, hstack⟩
    · exact ⟨hmode, hstack⟩
  | escape target t high =>
    simp only [step] at h
    split_ifs at h
    · cases h
      exact ⟨hmode, hstack⟩
    · obtain ⟨d, _, rfl⟩ := Option.map_eq_some_iff.mp h
      exact ⟨hmode, hstack⟩
  | unicode target t high code left =>
    obtain ⟨d, _, rfl⟩ := Option.map_eq_some_iff.mp h
    split_ifs
    · exact ⟨hmode, hstack⟩
    · exact ⟨hmode, hstack⟩

theorem run_ranged {s u : State} {t : Text} (hs : s.Ranged) (h : run s t = some u) :
    u.Ranged := by
  induction t generalizing s with
  | nil => exact Option.some.inj h ▸ hs
  | cons c t ih =>
    obtain ⟨v, hv, ht⟩ := Option.bind_eq_some_iff.mp h
    exact ih (step_ranged hs hv) ht

theorem parse_ranged {t : Text} {v : Value} (h : parse t = some v) : Ranged v := by
  obtain ⟨⟨mode, stack⟩, hs, hv⟩ := Option.bind_eq_some_iff.mp h
  have initial : start.Ranged := ⟨trivial, by simp [start]⟩
  have final := run_ranged initial hs
  cases stack with
  | cons f stack => cases mode <;> cases hv
  | nil =>
    cases mode with
    | after w =>
      cases hv
      exact final.1
    | number phase literal => exact numberValue_ranged hv
    | _ => cases hv

end DartJson
