import Luhut.HereString
import Luhut.HostsManager

set_option autoImplicit false

/-! The entries are put into an expandable here-string without any escaping. -/
namespace Luhut.HostsManager
open HereString HereString.Lexer

/-- Evaluating the here-string of the script gives the entries and nothing else,
    and the script goes on as the template does. -/
def CarriesLiterally (L : Lexer) (domains : List Text) : Prop :=
  L.hereString ((scriptContent domains).drop scriptHead.length) =
    some ((entries domains).map .text, scriptTail)

instance (L : Lexer) (domains : List Text) : Decidable (CarriesLiterally L domains) :=
  inferInstanceAs (Decidable (_ = _))

section
variable (L : Lexer)

theorem plain_entry (d : Text) : L.plain (entry d) = L.plain d := by
  have address : L.plain (entry d) = (L.plain "127.0.0.1 ".toList && L.plain d) :=
    plain_append fun h => (by cases h)
  have plainAddress : L.plain "127.0.0.1 ".toList = true := rfl
  rw [address, plainAddress, Bool.true_and]

theorem plain_domain (name : Text) : L.plain (name ++ domainSuffix) = L.plain name := by
  have suffix : L.plain (name ++ domainSuffix) = (L.plain name && L.plain domainSuffix) :=
    plain_append fun _ => rfl
  have plainSuffix : L.plain domainSuffix = true := rfl
  rw [suffix, plainSuffix, Bool.and_true]

theorem plain_join (lines : List Text) :
    L.plain (join "\r\n".toList lines) = lines.all L.plain := by
  induction lines with
  | nil => rfl
  | cons line lines ih =>
    cases lines with
    | nil => simp [join]
    | cons next lines =>
      have first : L.plain (line ++ ("\r\n".toList ++ join "\r\n".toList (next :: lines))) =
          (L.plain line && L.plain ("\r\n".toList ++ join "\r\n".toList (next :: lines))) :=
        plain_append fun _ => rfl
      have newline : L.plain ("\r\n".toList ++ join "\r\n".toList (next :: lines)) =
          (L.plain "\r\n".toList && L.plain (join "\r\n".toList (next :: lines))) :=
        plain_append fun h => (by cases h)
      have plainNewline : L.plain "\r\n".toList = true := rfl
      change L.plain (line ++ ("\r\n".toList ++ join "\r\n".toList (next :: lines))) = _
      rw [first, newline, plainNewline, ih, Bool.true_and, List.all_cons (a := line)]
end

theorem entries_cons (d : Text) (domains : List Text) :
    ∃ after, entries (d :: domains) = '1' :: '2' :: after := by
  cases domains with
  | nil => exact ⟨_, rfl⟩
  | cons => exact ⟨_, rfl⟩

theorem open_entries {rest : Text} {domains : List Text}
    (h : ∀ d ∈ domains, ∀ c ∈ d, c ≠ '\r' ∧ c ≠ '\n') : Open rest (entries domains) := by
  have line : ∀ d ∈ domains, ∀ c ∈ entry d, c ≠ '\r' ∧ c ≠ '\n' :=
    fun d hd => entry_line (h d hd)
  clear h
  induction domains with
  | nil => trivial
  | cons d domains ih =>
    have tail := ih fun e he => line e (List.mem_cons_of_mem _ he)
    cases domains with
    | nil =>
      have alone : Open rest (entry d ++ []) := open_append (line d (by simp)) trivial
      rw [List.append_nil] at alone
      exact alone
    | cons e domains =>
      obtain ⟨after, hafter⟩ := entries_cons e domains
      rw [hafter] at tail
      apply open_append (line d (by simp))
      change Open rest ("\r\n".toList ++ entries (e :: domains))
      rw [hafter]
      exact ⟨rfl, rfl, tail⟩

theorem scriptContent_drop (domains : List Text) :
    (scriptContent domains).drop scriptHead.length =
      '@' :: '\x22' :: '\n' :: (entries domains ++ (close ++ scriptTail)) := by
  have split : scriptContent domains =
      scriptHead ++ ('@' :: '\x22' :: '\n' :: (entries domains ++ (close ++ scriptTail))) := rfl
  rw [split, List.drop_left]

theorem carriesLiterally_entries {L : Lexer} {domains : List Text} (hne : domains ≠ [])
    (h : ∀ d ∈ domains, ∀ c ∈ d, c ≠ '\r' ∧ c ≠ '\n') :
    CarriesLiterally L domains ↔ ∀ d ∈ domains, L.plain d = true := by
  have first : afterQuoteAt (entries domains ++ (close ++ scriptTail)) = none := by
    obtain ⟨d, rest, hd⟩ := List.exists_cons_of_ne_nil hne
    obtain ⟨after, hafter⟩ := entries_cons d rest
    rw [hd, hafter]
    rfl
  have joined : L.plain (entries domains) = (domains.map entry).all L.plain := plain_join L _
  unfold CarriesLiterally
  rw [scriptContent_drop, hereString_iff (open_entries h) first, joined, List.all_map,
    List.all_eq_true]
  constructor
  · intro all d hd
    rw [← plain_entry L d]
    exact all d hd
  · intro all d hd
    change L.plain (entry d) = true
    rw [plain_entry]
    exact all d hd

/-- The entries of a list of sites are carried literally exactly when no folder
    name has a backtick or a dollar sign before the start of a substitution. -/
theorem carriesLiterally_iff (L : Lexer) {folders : List Text} (hne : folders ≠ [])
    (allowed : ∀ name ∈ folders, AllowedName name) :
    CarriesLiterally L (scanSites (some folders)) ↔ ∀ name ∈ folders, L.plain name = true := by
  rw [scanSites_eq allowed, carriesLiterally_entries (by simpa using hne)]
  · constructor
    · intro h name hn
      rw [← plain_domain L name]
      exact h _ (List.mem_map_of_mem hn)
    · intro h d hd
      obtain ⟨name, hn, hname⟩ := List.mem_map.mp hd
      rw [← hname, plain_domain]
      exact h name hn
  · intro d hd
    obtain ⟨name, hn, hname⟩ := List.mem_map.mp hd
    rw [← hname]
    exact allowedName_line (allowed name hn)

/-- Sub-expressions end at the first closing parenthesis, letters are ASCII. -/
def firstParenthesis : Lexer where
  letter := fun _ => false
  code := fun rest => if rest.contains ')' then some (rest.idxOf ')' + 1) else none

theorem carriesLiterally_cash :
    CarriesLiterally firstParenthesis (scanSites (some ["a$ (b)".toList, "c;d&e".toList])) :=
  (carriesLiterally_iff firstParenthesis (List.cons_ne_nil _ _) (by decide +kernel)).mpr
    (by decide +kernel)

/-- A folder name that Windows allows and whose entry runs a command. -/
theorem executes_folder_name :
    AllowedName "shop$(calc)".toList ∧
      ¬ CarriesLiterally firstParenthesis (scanSites (some ["shop$(calc)".toList])) ∧
      firstParenthesis.hereString
          ((scriptContent (scanSites (some ["shop$(calc)".toList]))).drop scriptHead.length) =
        some ("127.0.0.1 shop".toList.map .text ++ [.subexpression "calc)".toList] ++
          ".test".toList.map .text, scriptTail) := by
  refine ⟨by decide +kernel, ?_, by decide +kernel⟩
  unfold CarriesLiterally
  decide +kernel

end Luhut.HostsManager
