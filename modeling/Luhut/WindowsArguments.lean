import Mathlib.Data.List.Basic

set_option autoImplicit false

/-! Windows hands a new process one text. `quoteArgument` and `commandLine` are how
Dart writes a list of arguments into it, `split` reads the arguments back by the
documented rules of the C runtime for blanks, quotes and backslashes. -/
namespace WindowsArguments

def isBlank (c : Char) : Bool := c == ' ' || c == '\t'

def backslashes (n : ℕ) : List Char := List.replicate n '\\'

/-- `slashes` backslashes end the part read so far; `closed` says that a closing
    quote does, which a further quote turns into a quote of the argument. -/
structure Reader where
  done : List (List Char)
  started : Bool
  current : List Char
  slashes : ℕ
  quoted : Bool
  closed : Bool
deriving DecidableEq

def initial : Reader := ⟨[], false, [], 0, false, false⟩

def Reader.whole (r : Reader) : List Char := r.current ++ backslashes r.slashes

def Reader.finished (r : Reader) : List (List Char) :=
  if r.started then r.done ++ [r.whole] else r.done

def Reader.quote (r : Reader) : Reader :=
  let current := r.current ++ backslashes (r.slashes / 2)
  if r.slashes % 2 = 1 then ⟨r.done, true, current ++ ['\x22'], 0, r.quoted, false⟩
  else if r.quoted then ⟨r.done, true, current, 0, false, true⟩
  else if r.closed && r.slashes == 0 then ⟨r.done, true, current ++ ['\x22'], 0, true, false⟩
  else ⟨r.done, true, current, 0, true, false⟩

def Reader.next (r : Reader) (c : Char) : Reader :=
  if c = '\\' then { r with started := true, slashes := r.slashes + 1 }
  else if c = '\x22' then r.quote
  else if isBlank c && !r.quoted then ⟨r.finished, false, [], 0, false, false⟩
  else ⟨r.done, true, r.whole ++ [c], 0, r.quoted, false⟩

def read (r : Reader) (t : List Char) : Reader := t.foldl Reader.next r

def split (t : List Char) : List (List Char) := (read initial t).finished

theorem read_cons (r : Reader) (c : Char) (t : List Char) : read r (c :: t) = read (r.next c) t :=
  rfl

theorem read_append (r : Reader) (t u : List Char) : read r (t ++ u) = read (read r t) u :=
  List.foldl_append

section
variable (done : List (List Char)) (started : Bool) (current : List Char)

end

structure Holds (done : List (List Char)) (argument : List Char) (r : Reader) : Prop where
  done : r.done = done
  started : r.started = true
  whole : r.whole = argument
  quoted : r.quoted = false

theorem Holds.finished {done : List (List Char)} {argument : List Char} {r : Reader}
    (h : Holds done argument r) : r.finished = done ++ [argument] := by
  rw [Reader.finished, if_pos h.started, h.done, h.whole]

theorem next_plain {c : Char} (hb : isBlank c = false) (hq : c ≠ '\x22') {r : Reader}
    (hr : r.quoted = false) : Holds r.done (r.whole ++ [c]) (r.next c) := by
  unfold Reader.next
  by_cases hs : c = '\\'
  · subst hs
    rw [if_pos rfl]
    refine ⟨rfl, rfl, ?_, hr⟩
    simp [Reader.whole, backslashes, List.replicate_succ', List.append_assoc]
  · rw [if_neg hs, if_neg hq, hb, Bool.false_and, if_neg (by decide)]
    refine ⟨rfl, rfl, ?_, hr⟩
    simp [Reader.whole, backslashes]

theorem read_plain {t : List Char} (ht : ∀ c ∈ t, isBlank c = false ∧ c ≠ '\x22')
    {done : List (List Char)} {argument : List Char} {r : Reader} (h : Holds done argument r) :
    Holds done (argument ++ t) (read r t) := by
  induction t generalizing argument r with
  | nil =>
    rw [List.append_nil]
    exact h
  | cons c t ih =>
    have hc := ht c List.mem_cons_self
    have first := next_plain hc.1 hc.2 h.quoted
    rw [h.done, h.whole] at first
    have tail := ih (fun d hd => ht d (List.mem_cons_of_mem _ hd)) first
    rw [List.append_assoc] at tail
    exact tail

theorem next_quote (done : List (List Char)) :
    (⟨done, false, [], 0, false, false⟩ : Reader).next '\x22' =
      ⟨done, true, [], 0, true, false⟩ := by
  simp [Reader.next, Reader.quote, backslashes]

theorem read_quoted_text (done : List (List Char)) {t : List Char} {c : Char}
    (ht : '\x22' ∉ t) (hc : c ≠ '\\' ∧ c ≠ '\x22') :
    Holds done (t ++ [c]) (read ⟨done, false, [], 0, false, false⟩
      ('\x22' :: (t ++ [c] ++ ['\x22']))) := by
  have inside : ∀ (u : List Char) (r : Reader), '\x22' ∉ u → r.quoted = true →
      (read r u).done = r.done ∧ (read r u).whole = r.whole ++ u ∧ (read r u).quoted = true := by
    intro u
    induction u with
    | nil => exact fun r _ hr => ⟨rfl, (List.append_nil _).symm, hr⟩
    | cons d u ih =>
      intro r hu hr
      rw [List.mem_cons, not_or] at hu
      have first : (r.next d).done = r.done ∧ (r.next d).whole = r.whole ++ [d] ∧
          (r.next d).quoted = true := by
        unfold Reader.next
        by_cases hs : d = '\\'
        · subst hs
          rw [if_pos rfl]
          refine ⟨rfl, ?_, hr⟩
          simp [Reader.whole, backslashes, List.replicate_succ', List.append_assoc]
        · rw [if_neg hs, if_neg (Ne.symm hu.1), hr, Bool.not_true, Bool.and_false,
            if_neg (by decide)]
          refine ⟨rfl, ?_, rfl⟩
          simp [Reader.whole, backslashes]
      obtain ⟨hd, hw, hq⟩ := ih (r.next d) hu.2 first.2.2
      refine ⟨hd.trans first.1, ?_, hq⟩
      rw [read_cons, hw, first.2.1, List.append_assoc]
      rfl
  rw [read_cons, next_quote, List.append_assoc, read_append]
  obtain ⟨hd, hw, hq⟩ := inside t ⟨done, true, [], 0, true, false⟩ ht rfl
  generalize read ⟨done, true, [], 0, true, false⟩ t = r at hd hw hq
  have last : r.next c = ⟨done, true, t ++ [c], 0, true, false⟩ := by
    have hwhole : r.whole = t := by simpa [Reader.whole, backslashes] using hw
    rw [Reader.next, if_neg hc.1, if_neg hc.2, hq, Bool.not_true, Bool.and_false,
      if_neg (by decide), hwhole, hd]
  change Holds done (t ++ [c]) ((r.next c).next '\x22')
  rw [last]
  exact ⟨rfl, rfl, by simp [Reader.next, Reader.quote, Reader.whole, backslashes], rfl⟩

end WindowsArguments
