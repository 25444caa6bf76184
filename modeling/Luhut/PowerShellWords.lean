import Mathlib.Data.List.Basic

set_option autoImplicit false

/-! Bare words and single-quoted strings, in which a doubled quote stands for one, as
the rules on parsing and quoting say. A command with any other syntax has no words
here, and nothing is said about it. -/
namespace PowerShellWords

/-- PowerShell takes the typographic quotes for the straight one. -/
def isQuote (c : Char) : Bool :=
  c == '\x27' || c == '\u2018' || c == '\u2019' || c == '\u201a' || c == '\u201b'

def isBlank (c : Char) : Bool := c == ' ' || c == '\t'

def isBare (c : Char) : Bool :=
  c.isAlphanum || c == '-' || c == '_' || c == '.' || c == ':' || c == '/' || c == '\\'

/-- `ended` has met a quote, which the next character may double. -/
inductive Mode where
  | between
  | bare (w : List Char)
  | string (w : List Char)
  | ended (w : List Char)
deriving DecidableEq

structure State where
  done : List (List Char)
  mode : Mode
deriving DecidableEq

def begin (done : List (List Char)) (c : Char) : Option State :=
  if isBlank c then some ⟨done, .between⟩
  else if isQuote c then some ⟨done, .string []⟩
  else if isBare c then some ⟨done, .bare [c]⟩
  else none

def step (s : State) (c : Char) : Option State :=
  match s.mode with
  | .between => begin s.done c
  | .bare w =>
    if isBlank c then some ⟨s.done ++ [w], .between⟩
    else if isBare c then some ⟨s.done, .bare (w ++ [c])⟩
    else none
  | .string w => some ⟨s.done, if isQuote c then .ended w else .string (w ++ [c])⟩
  | .ended w => if isQuote c then some ⟨s.done, .string (w ++ [c])⟩ else begin (s.done ++ [w]) c

def run : State → List Char → Option State
  | s, [] => some s
  | s, c :: t => (step s c).bind fun u => run u t

def finish (s : State) : Option (List (List Char)) :=
  match s.mode with
  | .between => some s.done
  | .bare w | .ended w => some (s.done ++ [w])
  | .string _ => none

def words (t : List Char) : Option (List (List Char)) := (run ⟨[], .between⟩ t).bind finish

theorem run_append (s : State) (t u : List Char) :
    run s (t ++ u) = (run s t).bind fun v => run v u := by
  induction t generalizing s with
  | nil => rfl
  | cons c t ih =>
    change (step s c).bind (fun v => run v (t ++ u)) = ((step s c).bind fun v => run v t).bind _
    rw [Option.bind_assoc]
    congr 1
    funext v
    exact ih v

/-- Quotes are doubled in a single-quoted string. -/
def double : List Char → List Char
  | [] => []
  | c :: t => if isQuote c then c :: c :: double t else c :: double t

end PowerShellWords
