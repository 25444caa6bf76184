import Mathlib.Data.List.Infix

set_option autoImplicit false

/-! Words stand between blanks; a word may be quoted, a backslash protects the next
character, a dollar sign a brace, and `#` at the start of a word begins a comment.
A directive is a list of words with `;` or `{` behind it. -/
namespace NginxLexer

inductive Quote where
  | double | single
deriving DecidableEq, Repr

def Quote.char : Quote → Char
  | .double => '\x22'
  | .single => '\x27'

inductive Flag where
  | plain | backslash | dollar
deriving DecidableEq, Repr

inductive Mode where
  | space
  | needSpace
  | comment
  | word (quote : Option Quote) (content : List Char) (flag : Flag)
deriving DecidableEq, Repr

/-- `args` are the words of the directive that is being read. -/
structure State where
  mode : Mode
  args : List (List Char)
deriving DecidableEq, Repr

def start : State := ⟨.space, []⟩

inductive Item where
  | directive (words : List (List Char)) (block : Bool)
  | close
deriving DecidableEq, Repr

def Item.words : Item → List (List Char)
  | .directive words _ => words
  | .close => []

def Item.map (f : List (List Char) → List (List Char)) : Item → Item
  | .directive words block => .directive (f words) block
  | .close => .close

def isBlank (c : Char) : Bool := c == ' ' || c == '\t' || c == '\r' || c == '\n'

def isEnd (c : Char) : Bool := c == ';' || c == '\x7b'

def unescape (c : Char) : List Char :=
  if c = '\x22' ∨ c = '\x27' ∨ c = '\\' then [c]
  else if c = 't' then ['\t']
  else if c = 'r' then ['\r']
  else if c = 'n' then ['\n']
  else ['\\', c]

abbrev Step := Option (List Item × State)

def endWith (words : List (List Char)) (c : Char) : Step :=
  some ([.directive words (c == '\x7b')], start)

def spaceStep (args : List (List Char)) (c : Char) : Step :=
  if isBlank c then some ([], ⟨.space, args⟩)
  else if isEnd c then if args = [] then none else endWith args c
  else if c = '\x7d' then if args = [] then some ([.close], start) else none
  else if c = '#' then some ([], ⟨.comment, args⟩)
  else if c = '\\' then some ([], ⟨.word none [] .backslash, args⟩)
  else if c = '\x22' then some ([], ⟨.word (some .double) [] .plain, args⟩)
  else if c = '\x27' then some ([], ⟨.word (some .single) [] .plain, args⟩)
  else if c = '$' then some ([], ⟨.word none [c] .dollar, args⟩)
  else some ([], ⟨.word none [c] .plain, args⟩)

def wordStep (args : List (List Char)) (quote : Option Quote) (u : List Char) (c : Char) : Step :=
  if c = '\\' then some ([], ⟨.word quote u .backslash, args⟩)
  else if c = '$' then some ([], ⟨.word quote (u ++ [c]) .dollar, args⟩)
  else match quote with
    | some q =>
      if c = q.char then some ([], ⟨.needSpace, args ++ [u]⟩)
      else some ([], ⟨.word quote (u ++ [c]) .plain, args⟩)
    | none =>
      if isBlank c then some ([], ⟨.space, args ++ [u]⟩)
      else if isEnd c then endWith (args ++ [u]) c
      else some ([], ⟨.word none (u ++ [c]) .plain, args⟩)

def step : State → Char → Step
  | ⟨.space, args⟩, c => spaceStep args c
  | ⟨.needSpace, args⟩, c =>
    if isBlank c then some ([], ⟨.space, args⟩)
    else if isEnd c then endWith args c
    else if c = ')' then some ([], ⟨.word none [c] .plain, args⟩)
    else none
  | ⟨.comment, args⟩, c => some ([], ⟨if c = '\n' then .space else .comment, args⟩)
  | ⟨.word quote u .plain, args⟩, c => wordStep args quote u c
  | ⟨.word quote u .backslash, args⟩, c => some ([], ⟨.word quote (u ++ unescape c) .plain, args⟩)
  | ⟨.word quote u .dollar, args⟩, c =>
    if c = '\x7b' then some ([], ⟨.word quote (u ++ [c]) .dollar, args⟩)
    else wordStep args quote u c

def read : State → List Char → Step
  | s, [] => some ([], s)
  | s, c :: t => (step s c).bind fun r => (read r.2 t).map fun q => (r.1 ++ q.1, q.2)

/-- The text may end between directives, or in a comment there. -/
def State.final (s : State) : Bool :=
  s.args.isEmpty && (s.mode == .space || s.mode == .comment)

def itemsFrom (s : State) (t : List Char) : Option (List Item) :=
  (read s t).bind fun r => if r.2.final then some r.1 else none

/-- The directives of a text, `none` when it is not well formed. -/
def items (t : List Char) : Option (List Item) := itemsFrom start t

theorem read_append_eq (s : State) (a b : List Char) :
    read s (a ++ b) = (read s a).bind fun r => (read r.2 b).map fun q => (r.1 ++ q.1, q.2) := by
  induction a generalizing s with
  | nil =>
    change read s b = (read s b).map fun q => ([] ++ q.1, q.2)
    cases read s b <;> rfl
  | cons c a ih =>
    rw [List.cons_append, read, read]
    cases step s c with
    | none => rfl
    | some r =>
      change (read r.2 (a ++ b)).map _ = ((read r.2 a).map _).bind _
      rw [ih]
      cases read r.2 a with
      | none => rfl
      | some r' =>
        change ((read r'.2 b).map _).map _ = (read r'.2 b).map _
        cases read r'.2 b with
        | none => rfl
        | some q => simp

theorem read_append {s u v : State} {a b : List Char} {e f : List Item}
    (ha : read s a = some (e, u)) (hb : read u b = some (f, v)) :
    read s (a ++ b) = some (e ++ f, v) := by
  rw [read_append_eq, ha, Option.bind_some, hb]
  rfl

theorem read_single {s u : State} {c : Char} {e : List Item} (h : step s c = some (e, u)) :
    read s [c] = some (e, u) := by
  rw [read, h]
  change some (e ++ [], u) = _
  rw [List.append_nil]

theorem read_cons {s u v : State} {c : Char} {t : List Char} {f : List Item}
    (hs : step s c = some ([], u)) (ht : read u t = some (f, v)) :
    read s (c :: t) = some (f, v) :=
  read_append (a := [c]) (read_single hs) ht

theorem itemsFrom_of_read {s u : State} {a : List Char} {e : List Item}
    (ha : read s a = some (e, u)) (b : List Char) :
    itemsFrom s (a ++ b) = (itemsFrom u b).map (e ++ ·) := by
  rw [itemsFrom, itemsFrom, read_append_eq, ha, Option.bind_some]
  cases read u b with
  | none => rfl
  | some r =>
    change (if r.2.final then some (e ++ r.1) else none) =
      (if r.2.final then some r.1 else none).map (e ++ ·)
    split <;> rfl

theorem read_silent {s u : State} {a : List Char} (h : read s a = some ([], u)) (b : List Char) :
    read s (a ++ b) = read u b := by
  rw [read_append_eq, h]
  change (read u b).map _ = _
  cases read u b <;> rfl

theorem itemsFrom_silent {s u : State} {a : List Char} (h : read s a = some ([], u))
    (b : List Char) : itemsFrom s (a ++ b) = itemsFrom u b := by
  rw [itemsFrom, read_silent h, itemsFrom]

theorem itemsFrom_step {s u : State} {c : Char} (h : step s c = some ([], u)) (t : List Char) :
    itemsFrom s (c :: t) = itemsFrom u t :=
  itemsFrom_silent (a := [c]) (read_single h) t

theorem exists_read {s : State} {a b : List Char} {es : List Item}
    (h : itemsFrom s (a ++ b) = some es) : ∃ e u, read s a = some (e, u) := by
  cases ha : read s a with
  | none =>
    rw [itemsFrom, read_append_eq, ha] at h
    cases h
  | some r => exact ⟨r.1, r.2, rfl⟩

theorem itemsFrom_nil {s : State} {es : List Item} (h : itemsFrom s [] = some es) :
    s.final = true ∧ es = [] := by
  change (if s.final then some [] else none) = some es at h
  split at h
  · next hf => exact ⟨hf, (Option.some.inj h).symm⟩
  · cases h

theorem itemsFrom_cons {s : State} {c : Char} {t : List Char} {es : List Item}
    (h : itemsFrom s (c :: t) = some es) :
    ∃ e u fs, step s c = some (e, u) ∧ itemsFrom u t = some fs ∧ es = e ++ fs := by
  obtain ⟨e, u, hr⟩ := exists_read (a := [c]) h
  have hs : step s c = some (e, u) := by
    cases hstep : step s c with
    | none => rw [read, hstep] at hr; cases hr
    | some r => exact (read_single hstep).symm.trans hr
  have split := itemsFrom_of_read hr t
  rw [List.singleton_append, h] at split
  obtain ⟨fs, hf, heq⟩ := Option.map_eq_some_iff.mp split.symm
  exact ⟨e, u, fs, hs, hf, heq.symm⟩

theorem first_of_read {s u : State} {a t : List Char} {D : Item} {es : List Item}
    (hr : read s a = some ([D], u)) (h : itemsFrom s (a ++ t) = some es) :
    ∃ tail, es = D :: tail := by
  rw [itemsFrom_of_read hr] at h
  obtain ⟨fs, -, heq⟩ := Option.map_eq_some_iff.mp h
  exact ⟨fs, heq.symm⟩

def ordinary (c : Char) : Bool := !isBlank c && !isEnd c && c != '\\' && c != '$'

def opens (c : Char) : Bool :=
  ordinary c && c != '\x7d' && c != '#' && c != '\x22' && c != '\x27' && c != 't' && c != 'r' &&
    c != 'n'

def inert (c : Char) : Bool := c != '\x22' && c != '\x27' && c != '\\' && c != '$'

def solid : List Char → Bool
  | [] => false
  | c :: v => opens c && v.all ordinary

def Mode.Reading (m : Mode) : Prop := m = .space ∨ ∃ quote u flag, m = .word quote u flag

def Mode.quote : Mode → Option Quote
  | .word quote _ _ => quote
  | _ => none

def Mode.before : Mode → List Char
  | .word _ u .backslash => u ++ ['\\']
  | .word _ u _ => u
  | _ => []

theorem ordinary_spec {c : Char} (h : ordinary c = true) :
    isBlank c = false ∧ isEnd c = false ∧ c ≠ '\\' ∧ c ≠ '$' := by
  simpa [ordinary, and_assoc] using h

theorem opens_spec {c : Char} (h : opens c = true) :
    ordinary c = true ∧ c ≠ '\x7d' ∧ c ≠ '#' ∧ c ≠ '\x22' ∧ c ≠ '\x27' ∧ c ≠ 't' ∧ c ≠ 'r' ∧
      c ≠ 'n' := by
  simpa [opens, and_assoc] using h

theorem opens_unescape {c : Char} (h : opens c = true) : unescape c = ['\\', c] := by
  obtain ⟨ho, _, _, hd, hs, ht, hr, hn⟩ := opens_spec h
  simp [unescape, hd, hs, ht, hr, hn, (ordinary_spec ho).2.2.1]

theorem opens_quote {c : Char} (h : opens c = true) (q : Quote) : c ≠ q.char := by
  obtain ⟨_, _, _, hd, hs, _⟩ := opens_spec h
  cases q
  · exact hd
  · exact hs

theorem opens_inert {c : Char} (h : opens c = true) : inert c = true := by
  obtain ⟨ho, _, _, hd, hs, _⟩ := opens_spec h
  simp [inert, hd, hs, (ordinary_spec ho).2.2]

theorem inert_spec {c : Char} (h : inert c = true) (q : Quote) :
    c ≠ q.char ∧ c ≠ '\\' ∧ c ≠ '$' := by
  simp only [inert, Bool.and_eq_true, bne_iff_ne] at h
  obtain ⟨⟨⟨hd, hs⟩, hb⟩, hv⟩ := h
  refine ⟨?_, hb, hv⟩
  cases q
  · exact hd
  · exact hs

def closing : List Char :=
  [' ', '\t', '\r', '\n', ';', '\x7b', '\\', '$', '\x7d', '#', '\x22', '\x27', 't', 'r', 'n']

theorem opens_of_class {p : Char → Bool} (hp : (closing.all fun d => !p d) = true) {c : Char}
    (h : p c = true) : opens c = true := by
  have hc : c ∉ closing := by
    intro hm
    have hn := List.all_eq_true.mp hp c hm
    simp [h] at hn
  simp only [closing, List.mem_cons, List.not_mem_nil, or_false, not_or] at hc
  simp [opens, ordinary, isBlank, isEnd, hc]

section
variable {args : List (List Char)}

theorem wordStep_ordinary {c : Char} (h : ordinary c = true) (u : List Char) :
    wordStep args none u c = some ([], ⟨.word none (u ++ [c]) .plain, args⟩) := by
  obtain ⟨hb, he, hs, hd⟩ := ordinary_spec h
  simp [wordStep, hs, hd, hb, he]

theorem wordStep_opens {c : Char} (h : opens c = true) (quote : Option Quote) (u : List Char) :
    wordStep args quote u c = some ([], ⟨.word quote (u ++ [c]) .plain, args⟩) := by
  have ho := (opens_spec h).1
  obtain ⟨hb, he, hs, hd⟩ := ordinary_spec ho
  cases quote with
  | none => exact wordStep_ordinary ho u
  | some q => simp [wordStep, hs, hd, opens_quote h q]

theorem step_opens {m : Mode} (hm : m.Reading) {c : Char} (h : opens c = true) :
    step ⟨m, args⟩ c = some ([], ⟨.word m.quote (m.before ++ [c]) .plain, args⟩) := by
  have ho := (opens_spec h).1
  obtain ⟨hb, he, hs, hd⟩ := ordinary_spec ho
  rcases hm with rfl | ⟨quote, u, flag, rfl⟩
  · obtain ⟨_, h1, h2, h3, h4, _⟩ := opens_spec h
    change spaceStep args c = _
    simp [spaceStep, hb, he, h1, h2, h3, h4, hs, hd, Mode.quote, Mode.before]
  · cases flag with
    | plain => exact wordStep_opens h quote u
    | backslash =>
      change some (([] : List Item), (⟨.word quote (u ++ unescape c) .plain, args⟩ : State)) = _
      rw [opens_unescape h]
      simp [Mode.quote, Mode.before]
    | dollar =>
      have brace : c ≠ '\x7b' := by
        rintro rfl
        cases he
      change (if c = '\x7b' then _ else wordStep args quote u c) = _
      rw [if_neg brace]
      exact wordStep_opens h quote u

theorem read_word {v : List Char} (hv : ∀ c ∈ v, ordinary c = true) (u : List Char) :
    read ⟨.word none u .plain, args⟩ v = some ([], ⟨.word none (u ++ v) .plain, args⟩) := by
  induction v generalizing u with
  | nil =>
    rw [List.append_nil]
    rfl
  | cons c v ih =>
    have tail := ih (fun d hd => hv d (List.mem_cons_of_mem _ hd)) (u ++ [c])
    rw [List.append_assoc] at tail
    exact read_cons (wordStep_ordinary (hv c List.mem_cons_self) u) tail

theorem read_solid {m : Mode} (hm : m.Reading) (hq : m.quote = none) {k : List Char}
    (hk : solid k = true) :
    read ⟨m, args⟩ k = some ([], ⟨.word none (m.before ++ k) .plain, args⟩) := by
  cases k with
  | nil => cases hk
  | cons c v =>
    simp only [solid, Bool.and_eq_true, List.all_eq_true] at hk
    have first : step ⟨m, args⟩ c =
        some ([], ⟨.word m.quote (m.before ++ [c]) .plain, args⟩) := step_opens hm hk.1
    rw [hq] at first
    have rest : read ⟨.word none (m.before ++ [c]) .plain, args⟩ v =
        some ([], ⟨.word none (m.before ++ [c] ++ v) .plain, args⟩) := read_word hk.2 _
    rw [List.append_assoc] at rest
    exact read_cons first rest

theorem read_blanks {ws : List Char} (hws : ∀ c ∈ ws, isBlank c = true) :
    read ⟨.space, args⟩ ws = some ([], ⟨.space, args⟩) := by
  induction ws with
  | nil => rfl
  | cons c ws ih =>
    have first : step ⟨.space, args⟩ c = some ([], ⟨.space, args⟩) := by
      change spaceStep args c = _
      rw [spaceStep, if_pos (hws c List.mem_cons_self)]
    exact read_cons first (ih fun d hd => hws d (List.mem_cons_of_mem _ hd))

theorem wordStep_blank {c : Char} (h : isBlank c = true) (u : List Char) :
    wordStep args none u c = some ([], ⟨.space, args ++ [u]⟩) := by
  have hs : c ≠ '\\' := by
    rintro rfl
    cases h
  have hd : c ≠ '$' := by
    rintro rfl
    cases h
  simp [wordStep, hs, hd, h]

theorem read_gap {ws : List Char} (hne : ws ≠ []) (hws : ∀ c ∈ ws, isBlank c = true)
    (u : List Char) :
    read ⟨.word none u .plain, args⟩ ws = some ([], ⟨.space, args ++ [u]⟩) := by
  cases ws with
  | nil => exact absurd rfl hne
  | cons c ws =>
    exact read_cons (wordStep_blank (hws c List.mem_cons_self) u)
      (read_blanks fun d hd => hws d (List.mem_cons_of_mem _ hd))

theorem read_directive {m : Mode} (hm : m.Reading) (hq : m.quote = none) {k ws d : List Char}
    (hk : solid k = true) (hne : ws ≠ []) (hws : ∀ c ∈ ws, isBlank c = true)
    (hd : solid d = true) :
    read ⟨m, args⟩ (k ++ (ws ++ (d ++ [';']))) =
      some ([.directive (args ++ [m.before ++ k, d]) false], start) := by
  have name : read ⟨m, args⟩ k = some ([], ⟨.word none (m.before ++ k) .plain, args⟩) :=
    read_solid hm hq hk
  have gap : read ⟨.word none (m.before ++ k) .plain, args⟩ ws =
      some ([], ⟨.space, args ++ [m.before ++ k]⟩) := read_gap hne hws _
  have argument : read ⟨.space, args ++ [m.before ++ k]⟩ d =
      some ([], ⟨.word none d .plain, args ++ [m.before ++ k]⟩) := read_solid (.inl rfl) rfl hd
  have last : read ⟨.word none d .plain, args ++ [m.before ++ k]⟩ [';'] =
      some ([.directive (args ++ [m.before ++ k] ++ [d]) false], start) := rfl
  rw [List.append_assoc] at last
  exact read_append name (read_append gap (read_append argument last))
end

def Mode.content : Mode → List Char
  | .word _ u _ => u
  | _ => []

def State.flat (s : State) : List Char := s.args.flatten ++ s.mode.content

theorem flat_args {m : Mode} (args : List (List Char)) (hm : m.content = []) :
    (⟨m, args⟩ : State).flat = args.flatten := by
  rw [State.flat, hm, List.append_nil]

def State.Busy (s : State) : Prop := s.args ≠ [] ∨ ∃ quote u flag, s.mode = .word quote u flag

def GoesOn (f : List Char) (r : List Item × State) : Prop :=
  (r.1 = [] ∧ r.2.Busy ∧ f <+: r.2.flat) ∨ ∃ D, r.1 = [D] ∧ f <+: D.words.flatten

section
variable {args : List (List Char)} {f : List Char} {r : List Item × State}

theorem goesOn_word {quote : Option Quote} {u : List Char} {flag : Flag}
    (h : f <+: args.flatten ++ u) : GoesOn f ([], ⟨.word quote u flag, args⟩) :=
  .inl ⟨rfl, .inr ⟨quote, u, flag, rfl⟩, h⟩

theorem goesOn_args {m : Mode} (hne : args ≠ []) (h : f <+: args.flatten) :
    GoesOn f ([], ⟨m, args⟩) :=
  .inl ⟨rfl, .inl hne, h.trans (List.prefix_append _ _)⟩

theorem endWith_goesOn {c : Char} (h : endWith args c = some r) : GoesOn args.flatten r := by
  cases h
  exact .inr ⟨_, rfl, List.prefix_refl _⟩

theorem flatten_snoc (args : List (List Char)) (u : List Char) :
    (args ++ [u]).flatten = args.flatten ++ u := by simp

theorem goesOn_snoc {m : Mode} (u : List Char) :
    GoesOn (args.flatten ++ u) ([], ⟨m, args ++ [u]⟩) :=
  goesOn_args (by simp) (by rw [flatten_snoc])

theorem goesOn_letters {quote : Option Quote} {flag : Flag} (u v : List Char) :
    GoesOn (args.flatten ++ u) ([], ⟨.word quote (u ++ v) flag, args⟩) :=
  goesOn_word (by rw [← List.append_assoc]; exact List.prefix_append _ _)

theorem wordStep_goesOn {quote : Option Quote} {u : List Char} {c : Char}
    (h : wordStep args quote u c = some r) : GoesOn (args.flatten ++ u) r := by
  unfold wordStep at h
  split at h
  · cases h
    exact goesOn_word (List.prefix_refl _)
  · split at h
    · cases h
      exact goesOn_letters u [c]
    · split at h
      · split at h
        · cases h
          exact goesOn_snoc u
        · cases h
          exact goesOn_letters u [c]
      · split at h
        · cases h
          exact goesOn_snoc u
        · split at h
          · rw [← flatten_snoc]
            exact endWith_goesOn h
          · cases h
            exact goesOn_letters u [c]

theorem spaceStep_goesOn (hne : args ≠ []) {c : Char} (h : spaceStep args c = some r) :
    GoesOn args.flatten r := by
  unfold spaceStep at h
  have word : ∀ (quote : Option Quote) (u : List Char) (flag : Flag),
      GoesOn args.flatten ([], ⟨.word quote u flag, args⟩) :=
    fun _ u _ => goesOn_word (List.prefix_append _ u)
  rw [if_neg hne, if_neg hne] at h
  split_ifs at h
  · cases h
    exact goesOn_args hne (List.prefix_refl _)
  · exact endWith_goesOn h
  · cases h
    exact goesOn_args hne (List.prefix_refl _)
  all_goals
    cases h
    exact word _ _ _

theorem step_goesOn {s : State} {c : Char} (busy : s.Busy) (h : step s c = some r) :
    GoesOn s.flat r := by
  obtain ⟨m, args⟩ := s
  have free (hm : ∀ quote u flag, m ≠ .word quote u flag) : args ≠ [] :=
    busy.resolve_right fun hw => by
      obtain ⟨quote, u, flag, rfl⟩ := hw
      exact hm quote u flag rfl
  cases m with
  | space =>
    rw [flat_args args rfl]
    exact spaceStep_goesOn (free (by simp)) h
  | needSpace =>
    have hne := free (by simp)
    rw [flat_args args rfl]
    change (if isBlank c then _ else _) = some r at h
    split_ifs at h
    · cases h
      exact goesOn_args hne (List.prefix_refl _)
    · exact endWith_goesOn h
    · cases h
      exact goesOn_word (List.prefix_append _ _)
  | comment =>
    cases h
    rw [flat_args args rfl]
    exact goesOn_args (free (by simp)) (List.prefix_refl _)
  | word quote u flag =>
    cases flag with
    | plain => exact wordStep_goesOn h
    | backslash =>
      cases h
      exact goesOn_letters u _
    | dollar =>
      change (if c = '\x7b' then _ else wordStep args quote u c) = some r at h
      split at h
      · cases h
        exact goesOn_letters u _
      · exact wordStep_goesOn h
end

theorem Busy.not_final {s : State} (busy : s.Busy) : s.final = false := by
  rcases busy with hne | ⟨quote, u, flag, hm⟩
  · simp [State.final, hne]
  · simp [State.final, hm]

theorem first_item {s : State} {t : List Char} {es : List Item} (busy : s.Busy)
    (h : itemsFrom s t = some es) :
    ∃ D tail, es = D :: tail ∧ s.flat <+: D.words.flatten := by
  induction t generalizing s es with
  | nil => cases (itemsFrom_nil h).1.symm.trans (Busy.not_final busy)
  | cons c t ih =>
    obtain ⟨e, u, fs, hs, hf, rfl⟩ := itemsFrom_cons h
    rcases step_goesOn busy hs with ⟨he, hu, hp⟩ | ⟨D, he, hp⟩
    · obtain ⟨D, tail, rfl, hD⟩ := ih hu hf
      refine ⟨D, tail, ?_, hp.trans hD⟩
      rw [show e = [] from he]
      rfl
    · refine ⟨D, fs, ?_, hp⟩
      rw [show e = [D] from he]
      rfl

def Loose (s : State) : Prop := s.mode = .space ∨ ∃ u, s.mode = .word none u .plain

def skim (v : List Char) : List Char := v.filter fun c => !isBlank c

theorem skim_append (a b : List Char) : skim (a ++ b) = skim a ++ skim b := List.filter_append _ _

theorem skim_blanks {ws : List Char} (h : ∀ c ∈ ws, isBlank c = true) : skim ws = [] := by
  rw [skim, List.filter_eq_nil_iff]
  intro c hc
  simp [h c hc]

theorem blanks_of_skim {ws : List Char} (h : skim ws = []) : ∀ c ∈ ws, isBlank c = true := by
  intro c hc
  simpa using List.filter_eq_nil_iff.mp h c hc

theorem solid_ordinary {k : List Char} (h : solid k = true) : ∀ c ∈ k, ordinary c = true := by
  cases k with
  | nil => cases h
  | cons c v =>
    simp only [solid, Bool.and_eq_true, List.all_eq_true] at h
    intro d hd
    rcases List.mem_cons.mp hd with rfl | hd
    · exact (opens_spec h.1).1
    · exact h.2 d hd

theorem skim_solid {k : List Char} (h : solid k = true) : skim k = k := by
  rw [skim, List.filter_eq_self]
  intro c hc
  simp [(ordinary_spec (solid_ordinary h c hc)).1]

theorem skim_directive {k ws d : List Char} (hk : solid k = true)
    (hws : ∀ c ∈ ws, isBlank c = true) (hd : solid d = true) :
    skim (k ++ (ws ++ (d ++ [';']))) = k ++ (d ++ [';']) := by
  have last : skim [';'] = [';'] := rfl
  rw [skim_append, skim_append, skim_append, skim_solid hk, skim_blanks hws, skim_solid hd, last,
    List.nil_append]

theorem step_loose {s : State} {c : Char} (hs : Loose s)
    (h : isBlank c = true ∨ opens c = true) :
    ∃ u, step s c = some ([], u) ∧ Loose u ∧ u.flat = s.flat ++ skim [c] := by
  obtain ⟨m, args⟩ := s
  rcases h with hb | ho
  · have empty : skim [c] = [] := by simp [skim, hb]
    rw [empty, List.append_nil]
    rcases hs with hm | ⟨u, hm⟩
    · obtain rfl : m = .space := hm
      refine ⟨⟨.space, args⟩, ?_, .inl rfl, rfl⟩
      exact if_pos hb
    · obtain rfl : m = .word none u .plain := hm
      refine ⟨_, wordStep_blank hb u, .inl rfl, ?_⟩
      change (args ++ [u]).flatten ++ [] = args.flatten ++ u
      rw [List.append_nil, flatten_snoc]
  · have hb := (ordinary_spec (opens_spec ho).1).1
    have keep : skim [c] = [c] := by simp [skim, hb]
    rw [keep]
    rcases hs with hm | ⟨u, hm⟩
    · obtain rfl : m = .space := hm
      refine ⟨_, step_opens (.inl rfl) ho, .inr ⟨_, rfl⟩, ?_⟩
      simp [State.flat, Mode.content, Mode.before]
    · obtain rfl : m = .word none u .plain := hm
      refine ⟨_, step_opens (.inr ⟨_, _, _, rfl⟩) ho, .inr ⟨_, rfl⟩, ?_⟩
      simp [State.flat, Mode.content, Mode.before]

theorem read_loose {s : State} {v : List Char} (hs : Loose s)
    (hv : ∀ c ∈ v, isBlank c = true ∨ opens c = true) :
    ∃ u, read s v = some ([], u) ∧ Loose u ∧ u.flat = s.flat ++ skim v := by
  induction v generalizing s with
  | nil => exact ⟨s, rfl, hs, (List.append_nil _).symm⟩
  | cons c v ih =>
    obtain ⟨u, hu, lu, fu⟩ := step_loose hs (hv c List.mem_cons_self)
    obtain ⟨w, hw, lw, fw⟩ := ih lu fun d hd => hv d (List.mem_cons_of_mem _ hd)
    refine ⟨w, read_cons hu hw, lw, ?_⟩
    rw [fw, fu, List.append_assoc, skim, skim, skim, ← List.filter_append]
    rfl

theorem Loose.busy {s : State} (hs : Loose s) (hne : s.flat ≠ []) : s.Busy := by
  rcases hs with hm | ⟨u, hm⟩
  · left
    intro hargs
    rw [State.flat, hm, hargs] at hne
    exact hne rfl
  · exact .inr ⟨none, u, .plain, hm⟩

theorem snoc_prefix_unique {f t : List Char} {a b : Char} (ha : f ++ [a] <+: t)
    (hb : f ++ [b] <+: t) : a = b := by
  have h := List.prefix_of_prefix_length_le ha hb (by simp)
  have heq := h.eq_of_length (by simp)
  exact (List.cons.inj (List.append_cancel_left heq)).1

theorem next_letter {s : State} {t f y : List Char} {x c : Char} {D : Item} {tail : List Item}
    (busy : s.Busy) (h : itemsFrom s t = some (D :: tail)) (hflat : s.flat = f ++ x :: y)
    (hp : f ++ [c] <+: D.words.flatten) : x = c := by
  obtain ⟨D', tail', hD, hpre⟩ := first_item busy h
  obtain ⟨rfl, rfl⟩ := List.cons.inj hD
  rw [hflat] at hpre
  have hx : f ++ [x] <+: f ++ x :: y := by simp
  exact snoc_prefix_unique (hx.trans hpre) hp

theorem letter_of_prefix {args : List (List Char)} {u t : List Char} {c d k : Char}
    {D : Item} {tail : List Item} (hc : opens c = true) (hk : opens k = true) (hkc : k ≠ c)
    (h : itemsFrom ⟨.word none u .plain, args⟩ (d :: k :: t) = some (D :: tail))
    (hp : args.flatten ++ u ++ [c] <+: D.words.flatten) : d = c := by
  obtain ⟨hcb, hce, hcs, hcd⟩ := ordinary_spec (opens_spec hc).1
  -- a backslash and a blank show in the directive with the character behind them
  have second : ∀ {m : Mode} {xs : List (List Char)} {x : Char} {y : List Char}, m.Reading →
      itemsFrom ⟨m, xs⟩ (k :: t) = some (D :: tail) →
      xs.flatten ++ (m.before ++ [k]) = args.flatten ++ u ++ x :: y → x = c := by
    intro m xs x y hm hitems hflat
    rw [itemsFrom_step (step_opens hm hk)] at hitems
    exact next_letter (.inr ⟨_, _, _, rfl⟩) hitems hflat hp
  by_cases hb : d = '\\'
  · subst hb
    rw [itemsFrom_step (u := ⟨.word none u .backslash, args⟩) rfl] at h
    refine absurd (second (x := '\\') (y := [k]) (.inr ⟨_, _, _, rfl⟩) h ?_) hcs.symm
    simp [Mode.before]
  by_cases hd : d = '$'
  · subst hd
    rw [itemsFrom_step (u := ⟨.word none (u ++ ['$']) .dollar, args⟩) rfl] at h
    refine absurd (next_letter (x := '$') (y := []) (.inr ⟨_, _, _, rfl⟩) h ?_ hp) hcd.symm
    simp [State.flat, Mode.content]
  by_cases hblank : isBlank d = true
  · rw [itemsFrom_step (s := ⟨.word none u .plain, args⟩) (wordStep_blank hblank u)] at h
    refine absurd (second (x := k) (y := []) (.inl rfl) h ?_) hkc
    simp [Mode.before]
  by_cases hend : isEnd d = true
  · -- the directive ends here, and is shorter than it should be
    obtain ⟨e, v, fs, hs, -, heq⟩ := itemsFrom_cons h
    change wordStep args none u d = some (e, v) at hs
    rw [wordStep, if_neg hb, if_neg hd] at hs
    simp only [hblank, hend, if_true] at hs
    cases hs
    obtain ⟨rfl, -⟩ := List.cons.inj heq
    have hl := hp.length_le
    simp only [Item.words, flatten_snoc, List.length_append, List.length_singleton] at hl
    omega
  · have hord : ordinary d = true := by simp [ordinary, hb, hd, hblank, hend]
    rw [itemsFrom_step (s := ⟨.word none u .plain, args⟩) (wordStep_ordinary hord u)] at h
    refine next_letter (x := d) (y := []) (.inr ⟨_, _, _, rfl⟩) h ?_ hp
    simp [State.flat, Mode.content]

section
variable {args : List (List Char)}

theorem read_quoted {q : Quote} {v : List Char}
    (hv : ∀ c ∈ v, inert c = true) (u : List Char) :
    read ⟨.word (some q) u .plain, args⟩ v = some ([], ⟨.word (some q) (u ++ v) .plain, args⟩) := by
  induction v generalizing u with
  | nil =>
    rw [List.append_nil]
    rfl
  | cons c v ih =>
    obtain ⟨hq, hb, hd⟩ := inert_spec (hv c List.mem_cons_self) q
    have first : step ⟨.word (some q) u .plain, args⟩ c =
        some ([], ⟨.word (some q) (u ++ [c]) .plain, args⟩) := by
      change wordStep args (some q) u c = _
      simp [wordStep, hq, hb, hd]
    have tail := ih (fun d hd => hv d (List.mem_cons_of_mem _ hd)) (u ++ [c])
    rw [List.append_assoc] at tail
    exact read_cons first tail

theorem read_quoted_word {m : Mode} (hm : m.Reading) {q : Quote} (hq : m.quote = some q)
    {c : Char} (hc : opens c = true) {v : List Char}
    (hv : ∀ x ∈ v, inert x = true) :
    read ⟨m, args⟩ (c :: v) =
      some ([], ⟨.word (some q) (m.before ++ c :: v) .plain, args⟩) := by
  have first : step ⟨m, args⟩ c =
      some ([], ⟨.word m.quote (m.before ++ [c]) .plain, args⟩) := step_opens hm hc
  rw [hq] at first
  have rest : read ⟨.word (some q) (m.before ++ [c]) .plain, args⟩ v =
      some ([], ⟨.word (some q) (m.before ++ [c] ++ v) .plain, args⟩) := read_quoted hv _
  rw [List.append_assoc] at rest
  exact read_cons first rest

theorem step_needSpace {c : Char} (h : opens c = true) (hp : c ≠ ')') :
    step ⟨.needSpace, args⟩ c = none := by
  obtain ⟨hb, he, _⟩ := ordinary_spec (opens_spec h).1
  change (if isBlank c then _ else _) = _
  simp [hb, he, hp]

theorem read_quoted_pair {q : Quote} {u : List Char} {d k : Char} (hk : opens k = true)
    (hp : k ≠ ')') {r : List Item × State}
    (h : read ⟨.word (some q) u .plain, args⟩ [d, k] = some r) :
    r = ([], ⟨.word (some q) (u ++ [d, k]) .plain, args⟩) := by
  have go : ∀ flag v, step ⟨.word (some q) u .plain, args⟩ d =
      some ([], ⟨.word (some q) v flag, args⟩) →
      (Mode.word (some q) v flag).before = u ++ [d] →
      r = ([], ⟨.word (some q) (u ++ [d, k]) .plain, args⟩) := by
    intro flag v hs hbefore
    have second : step ⟨.word (some q) v flag, args⟩ k =
        some ([], ⟨.word (some q) ((Mode.word (some q) v flag).before ++ [k]) .plain, args⟩) :=
      step_opens (.inr ⟨_, _, _, rfl⟩) hk
    have both := read_cons hs (read_single second)
    rw [h, hbefore] at both
    rw [Option.some.inj both]
    simp
  by_cases hb : d = '\\'
  · subst hb
    exact go .backslash u rfl rfl
  · by_cases hd : d = '$'
    · subst hd
      exact go .dollar (u ++ ['$']) rfl rfl
    · by_cases hq : d = q.char
      · have first : step ⟨.word (some q) u .plain, args⟩ d =
            some ([], ⟨.needSpace, args ++ [u]⟩) := by
          change wordStep args (some q) u d = _
          rw [wordStep, if_neg hb, if_neg hd]
          exact if_pos hq
        rw [read, first, Option.bind_some, read, step_needSpace hk hp] at h
        cases h
      · refine go .plain (u ++ [d]) ?_ rfl
        change wordStep args (some q) u d = _
        rw [wordStep, if_neg hb, if_neg hd]
        exact if_neg hq

theorem read_comment {v : List Char} (h : '\n' ∉ v) :
    read ⟨.comment, args⟩ v = some ([], ⟨.comment, args⟩) := by
  induction v with
  | nil => rfl
  | cons c v ih =>
    have hc : c ≠ '\n' := by
      rintro rfl
      exact h List.mem_cons_self
    have first : step ⟨.comment, args⟩ c = some ([], ⟨.comment, args⟩) := by
      change some (([] : List Item), (⟨if c = '\n' then .space else .comment, args⟩ : State)) = _
      rw [if_neg hc]
    exact read_cons first (ih fun hm => h (List.mem_cons_of_mem _ hm))
end

/-- A text and what it should be. Behind a character that may differ stands one that
    does not. -/
inductive Blurred : List Char → List Char → Prop where
  | nil : Blurred [] []
  | known {c : Char} {d e : List Char} (h : opens c = true) (tail : Blurred d e) :
      Blurred (c :: d) (c :: e)
  | unknown {x c k : Char} {d e : List Char} (hc : opens c = true) (hk : opens k = true)
      (hkc : k ≠ c) (hp : k ≠ ')') (tail : Blurred d e) : Blurred (x :: k :: d) (c :: k :: e)

theorem Blurred.tail_of_head {c : Char} {d e : List Char} (b : Blurred d (c :: e))
    (h : d.head? = some c) : opens c = true ∧ ∃ d', d = c :: d' ∧ Blurred d' e := by
  cases b with
  | known hc tail => exact ⟨hc, _, rfl, tail⟩
  | unknown hc hk _ _ tail =>
    obtain rfl := Option.some.inj h
    exact ⟨hc, _, rfl, .known hk tail⟩

/-- When the directive holds what the text should be, nothing differs. -/
theorem Blurred.eq_of_prefix {args : List (List Char)} {u d e t : List Char} {D : Item}
    {tail : List Item} (b : Blurred d e)
    (h : itemsFrom ⟨.word none u .plain, args⟩ (d ++ t) = some (D :: tail))
    (hp : args.flatten ++ u ++ e <+: D.words.flatten) : d = e := by
  induction b generalizing u with
  | nil => rfl
  | @known c d e hc _ ih =>
    have first : step ⟨.word none u .plain, args⟩ c =
        some ([], ⟨.word none (u ++ [c]) .plain, args⟩) := wordStep_opens hc none u
    rw [List.cons_append, itemsFrom_step first] at h
    rw [ih h (by simpa using hp)]
  | @unknown x c k d e hc hk hkc _ _ ih =>
    have hx : x = c := by
      refine letter_of_prefix hc hk hkc h (List.IsPrefix.trans ?_ hp)
      simp
    subst hx
    have pair : read ⟨.word none u .plain, args⟩ [x, k] =
        some ([], ⟨.word none (u ++ [x, k]) .plain, args⟩) := by
      refine read_word ?_ u
      intro y hy
      rcases List.mem_pair.mp hy with rfl | rfl
      · exact (opens_spec hc).1
      · exact (opens_spec hk).1
    have both := itemsFrom_silent pair (d ++ t)
    rw [List.cons_append, List.cons_append] at h
    rw [List.cons_append, List.singleton_append, h] at both
    rw [ih both.symm (by simpa using hp)]

theorem Blurred.eq_of_space {args : List (List Char)} {d e t : List Char} {D : Item}
    {tail : List Item} (b : Blurred d e) (head : d.head? = e.head?)
    (h : itemsFrom ⟨.space, args⟩ (d ++ t) = some (D :: tail))
    (hp : args.flatten ++ e <+: D.words.flatten) : d = e := by
  cases e with
  | nil =>
    cases b
    rfl
  | cons c e =>
    obtain ⟨hc, d, rfl, rest⟩ := b.tail_of_head head
    have first : step ⟨.space, args⟩ c = some ([], ⟨.word none [c] .plain, args⟩) :=
      step_opens (.inl rfl) hc
    rw [List.cons_append, itemsFrom_step first] at h
    have shown : args.flatten ++ [c] ++ e <+: D.words.flatten := by simpa using hp
    rw [rest.eq_of_prefix h shown]

theorem Blurred.read_quoted {args : List (List Char)} {q : Quote} {u d e t : List Char}
    {r : List Item × State} (b : Blurred d e)
    (h : read ⟨.word (some q) u .plain, args⟩ (d ++ t) = some r) :
    read ⟨.word (some q) (u ++ d) .plain, args⟩ t = some r := by
  induction b generalizing u with
  | nil => rwa [List.append_nil]
  | @known c d e hc _ ih =>
    have first : read ⟨.word (some q) u .plain, args⟩ (c :: (d ++ t)) =
        read ⟨.word (some q) (u ++ [c]) .plain, args⟩ (d ++ t) :=
      read_silent (a := [c]) (read_single (step_opens (.inr ⟨some q, u, .plain, rfl⟩) hc)) _
    rw [List.cons_append, first] at h
    have rest := ih h
    rwa [List.append_assoc] at rest
  | @unknown x c k d e _ hk _ hp _ ih =>
    have split := read_append_eq ⟨.word (some q) u .plain, args⟩ [x, k] (d ++ t)
    cases hr : read ⟨.word (some q) u .plain, args⟩ [x, k] with
    | none =>
      rw [hr] at split
      cases split.symm.trans h
    | some r' =>
      obtain rfl := read_quoted_pair hk hp hr
      have both := read_silent hr (d ++ t)
      have rest := ih (both.symm.trans h)
      rwa [List.append_assoc] at rest

end NginxLexer
