import Luhut.NginxTokens
import Luhut.NginxSaves

set_option autoImplicit false

/-! The saves as a machine on directives, and the texts on which the rewriting
follows it whatever is saved. -/
namespace Luhut.NginxConf
open DartInt WordDivision TextPattern PatternPairs NginxLexer

def updates (cs : List AppConfig) (is : List NginxLexer.Item) : List NginxLexer.Item :=
  cs.foldl (fun is c => is.map (update c.nginxPort c.phpPort)) is

def robustMatch (s : State) (w : Text) : Bool :=
  match s.mode with
  | .comment => !w.contains '\n'
  | .needSpace => true
  | .word (some _) _ _ => false
  | _ => plain w && fresh s

def robustToken (s : State) (t : Token Char) (items : List NginxLexer.Item) : Bool :=
  match t with
  | .letter _ => items.all fun D => (setting? D.words).isNone
  | .word w => robustMatch s w

/-- Every directive with a port is found, and nothing else is. -/
def robust (x : Text) : Bool := everyFrom robustToken start (tokens x)

section
variable {n p m q : ℤ}

theorem port_settled (k : Setting) : k.port (if m < 0 then m else n) (if q < 0 then q else p) =
    if k.port m q < 0 then k.port m q else k.port n p := by
  cases k <;> rfl

theorem negative_not_number {i : ℤ} (h : i < 0) : isNumber (toText i) = false := by
  obtain ⟨k, -, hk⟩ := toText_neg h
  rw [hk]
  rfl

theorem setting_negative {k : Setting} {i : ℤ} (h : i < 0) :
    setting? [k.name, k.host ++ toText i] = none := by
  cases hs : setting? [k.name, k.host ++ toText i] with
  | none => rfl
  | some l =>
    exfalso
    obtain ⟨v, hv, he⟩ := setting_eq_some_iff.mp hs
    have hname : [] ++ k.name = l.name := (List.cons.inj he).1
    obtain ⟨-, rfl⟩ := name_suffix hname
    have harg : k.host ++ toText i = k.host ++ v := (List.cons.inj (List.cons.inj he).2).1
    rw [← List.append_cancel_left harg, negative_not_number h] at hv
    cases hv

theorem updateWords_updateWords (words : List Text) :
    updateWords n p (updateWords m q words) =
      updateWords (if m < 0 then m else n) (if q < 0 then q else p) words := by
  cases hs : setting? words with
  | none => rw [updateWords_other hs, updateWords_other hs, updateWords_other hs]
  | some k =>
    obtain ⟨v, hv, rfl⟩ := setting_eq_some_iff.mp hs
    rw [updateWords_setting k hv, updateWords_setting k hv, port_settled]
    split_ifs with hneg
    · exact updateWords_other (setting_negative hneg)
    · have hnum : isNumber (toText (k.port m q)) = true :=
        isNumber_iff.mpr ⟨toText_ne_nil _, toText_digit (by omega)⟩
      exact updateWords_setting k hnum

theorem update_update (D : NginxLexer.Item) :
    update n p (update m q D) =
      update (if m < 0 then m else n) (if q < 0 then q else p) D := by
  cases D with
  | directive words block =>
    exact congrArg (NginxLexer.Item.directive · block) (updateWords_updateWords words)
  | close => rfl
end

theorem updates_settled (cs : List AppConfig) (c : AppConfig) (is : List NginxLexer.Item) :
    updates (cs ++ [c]) is =
      is.map (update (settled (cs.map (·.nginxPort)) c.nginxPort)
        (settled (cs.map (·.phpPort)) c.phpPort)) := by
  induction cs generalizing is with
  | nil => rfl
  | cons d cs ih =>
    change updates (cs ++ [c]) (is.map (update d.nginxPort d.phpPort)) = _
    rw [ih, List.map_map, List.map_cons, List.map_cons, settled_cons, settled_cons]
    exact List.map_congr_left fun D _ => update_update D

theorem everyFrom_of_two {ok₁ ok₂ ok : State → Token Char → List NginxLexer.Item → Bool}
    {T : List (Token Char)}
    (h : ∀ s t e, t ∈ T → ok₁ s t e = true → ok₂ s t e = true → ok s t e = true) {s : State}
    (h₁ : everyFrom ok₁ s T = true) (h₂ : everyFrom ok₂ s T = true) :
    everyFrom ok s T = true := by
  induction T generalizing s with
  | nil => rfl
  | cons t T ih =>
    cases hr : read s t.text with
    | none => rw [everyFrom, hr]
    | some r =>
      rw [everyFrom_cons hr, Bool.and_eq_true] at h₁ h₂ ⊢
      exact ⟨h s t r.1 List.mem_cons_self h₁.1 h₂.1,
        ih (fun s u e hu => h s u e (List.mem_cons_of_mem _ hu)) h₁.2 h₂.2⟩

section
variable {n p m q : ℤ}

theorem fineToken_of_robust (s : State) (t : Token Char) (e : List NginxLexer.Item)
    (h : robustToken s t e = true) : fineToken n p s t e = true := by
  cases t with
  | letter c =>
    refine kept_iff.mpr ?_
    have each : ∀ D ∈ e, update n p D = D := by
      intro D hD
      have hs : setting? D.words = none :=
        Option.isNone_iff_eq_none.mp (List.all_eq_true.mp h D hD)
      cases D with
      | directive words block =>
        exact congrArg (NginxLexer.Item.directive · block) (updateWords_other hs)
      | close => rfl
    exact (List.map_congr_left each).trans (List.map_id e)
  | word w =>
    obtain ⟨mode, args⟩ := s
    change robustMatch ⟨mode, args⟩ w = true at h
    change fineMatch n p ⟨mode, args⟩ w = true
    cases mode with
    | comment => exact h
    | needSpace => rfl
    | space =>
      have hp : plain w = true ∧ fresh ⟨.space, args⟩ = true := by simpa [robustMatch] using h
      simp [fineMatch, hp]
    | word quote u flag =>
      cases quote with
      | some k => cases h
      | none =>
        have hp : plain w = true ∧ fresh ⟨.word none u flag, args⟩ = true := by
          simpa [robustMatch] using h
        simp [fineMatch, hp]

theorem port_ne (hn : n ≠ m) (hp : p ≠ q) (k : Setting) : k.port n p ≠ k.port m q := by
  cases k with
  | listen => exact hn
  | fastcgiPass => exact hp

theorem setting_none_of_two (hn : n ≠ m) (hp : p ≠ q) {D : NginxLexer.Item}
    (h₁ : update n p D = D) (h₂ : update m q D = D) : setting? D.words = none := by
  cases hs : setting? D.words with
  | none => rfl
  | some k =>
    exfalso
    obtain ⟨v, hv, hw⟩ := setting_eq_some_iff.mp hs
    have first := congrArg NginxLexer.Item.words h₁
    have second := congrArg NginxLexer.Item.words h₂
    rw [update_words, hw, updateWords_setting k hv] at first second
    have he := first.trans second.symm
    have harg := (List.cons.inj (List.cons.inj he).2).1
    exact port_ne hn hp k (toText_injective (List.append_cancel_left harg))

theorem newText_ne (hn : n ≠ m) (hp : p ≠ q) {w : Text}
    (hw : w ∈ language portRegex ∪ language phpRegex) :
    newText n p w ≠ newText m q w ∧ skim (newText n p w) ≠ skim (newText m q w) := by
  obtain ⟨k, ws, h, v, hk, -⟩ := exists_matched hw
  have skims : skim (newText n p w) ≠ skim (newText m q w) := by
    rw [newText_eq n p hk, newText_eq m q hk, skim_text, skim_text]
    intro he
    have hport := List.append_cancel_left
      (List.append_cancel_right (List.append_cancel_left he))
    exact port_ne hn hp k (toText_injective hport)
  exact ⟨fun he => skims (congrArg skim he), skims⟩

theorem robustToken_of_two (hn : n ≠ m) (hp : p ≠ q) {s : State} {t : Token Char}
    {e : List NginxLexer.Item}
    (ht : ∀ w, t = .word w → w ∈ language portRegex ∪ language phpRegex)
    (h₁ : fineToken n p s t e = true) (h₂ : fineToken m q s t e = true) :
    robustToken s t e = true := by
  cases t with
  | letter c =>
    refine List.all_eq_true.mpr fun D hD => Option.isNone_iff_eq_none.mpr ?_
    exact setting_none_of_two hn hp (beq_iff_eq.mp (List.all_eq_true.mp h₁ D hD))
      (beq_iff_eq.mp (List.all_eq_true.mp h₂ D hD))
  | word w =>
    have other := newText_ne hn hp (ht w rfl)
    obtain ⟨mode, args⟩ := s
    change fineMatch n p ⟨mode, args⟩ w = true at h₁
    change fineMatch m q ⟨mode, args⟩ w = true at h₂
    change robustMatch ⟨mode, args⟩ w = true
    have unquoted (hm : mode.Reading) (hq : mode.quote = none) :
        plain w = true ∧ fresh ⟨mode, args⟩ = true := by
      rw [fineMatch_free hm hq, Bool.and_eq_true, Bool.or_eq_true, beq_iff_eq] at h₁ h₂
      refine ⟨h₁.1, ?_⟩
      rcases h₁.2 with hf | hs
      · exact hf
      · rcases h₂.2 with hf | hs'
        · exact hf
        · exact absurd (hs.symm.trans hs') other.2
    cases mode with
    | comment => exact h₁
    | needSpace => rfl
    | space =>
      obtain ⟨hplain, hfresh⟩ := unquoted (.inl rfl) rfl
      simp [robustMatch, hplain, hfresh]
    | word quote u flag =>
      cases quote with
      | none =>
        obtain ⟨hplain, hfresh⟩ := unquoted (.inr ⟨_, _, _, rfl⟩) rfl
        simp [robustMatch, hplain, hfresh]
      | some k =>
        have one : w = newText n p w := beq_iff_eq.mp h₁
        have two : w = newText m q w := beq_iff_eq.mp h₂
        exact absurd (one.symm.trans two) other.1
end

/-- Texts that may be rewritten with two pairs of ports may be with all. -/
theorem robust_of_two {n p m q : ℤ} (hn : n ≠ m) (hp : p ≠ q) {x : Text}
    (h₁ : everyFrom (fineToken n p) start (tokens x) = true)
    (h₂ : everyFrom (fineToken m q) start (tokens x) = true) : robust x = true := by
  refine everyFrom_of_two (fun s t e ht f g => robustToken_of_two hn hp ?_ f g) h₁ h₂
  rintro w rfl
  exact (tokens_spec x).1.mem_words ht

theorem fine_of_robust (n p : ℤ) {x : Text} (h : robust x = true) :
    everyFrom (fineToken n p) start (tokens x) = true :=
  everyFrom_of_two (fun s t e _ hr _ => fineToken_of_robust s t e hr) h h

section
variable {n p : ℤ} {x : Text} {is : List NginxLexer.Item}

theorem items_rewritePorts (h : items x = some is)
    (hf : everyFrom (fineToken n p) start (tokens x) = true) :
    items (rewritePorts n p x) = some (is.map (update n p)) := by
  obtain ⟨hT, hx⟩ := tokens_spec x
  rw [items, ← hx] at h
  rw [rewritePorts_tokens]
  exact items_newText (fun w hw => hT.mem_words hw) h hf

theorem fine_of_rewritePorts (h : items x = some is) (apart : commentsApart x = true)
    (h' : items (rewritePorts n p x) = some (is.map (update n p))) :
    everyFrom (fineToken n p) start (tokens x) = true := by
  obtain ⟨hT, hx⟩ := tokens_spec x
  rw [items, ← hx] at h
  rw [rewritePorts_tokens] at h'
  exact fine_of_items (fun w hw => hT.mem_words hw) apart h h'
end

/-- The texts of all sequences of saves hold the directives of the machine where the
    text at the start is robust; where no match runs out of a comment, only there. -/
theorem saves_follow_updates_iff (x : Text) {is : List NginxLexer.Item} (h : items x = some is) :
    (robust x = true → ∀ cs, items (saves cs x) = some (updates cs is)) ∧
      (commentsApart x = true →
        ((∀ cs, items (saves cs x) = some (updates cs is)) ↔ robust x = true)) := by
  have forward (hr : robust x = true) (cs : List AppConfig) :
      items (saves cs x) = some (updates cs is) := by
    rcases List.eq_nil_or_concat cs with rfl | ⟨ds, c, rfl⟩
    · exact h
    · rw [List.concat_eq_append, saves_settled, updates_settled]
      exact items_rewritePorts h (fine_of_robust _ _ hr)
  refine ⟨forward, fun apart => ⟨fun all => ?_, forward⟩⟩
  have fine_ports (n p : ℤ) : everyFrom (fineToken n p) start (tokens x) = true :=
    fine_of_rewritePorts h apart (all [{ nginxPort := n, phpPort := p }])
  exact robust_of_two (n := 0) (p := 0) (m := 1) (q := 1) (by decide) (by decide)
    (fine_ports 0 0) (fine_ports 1 1)

theorem saves_follow_updates_server :
    items (saves [{ nginxPort := 8080 }, { nginxPort := 8081 }]
      "server \x7b listen 80; # listen 80;\n \x7d".toList) =
      some [.directive ["server".toList] true, .directive ["listen".toList, "8081".toList] false,
        .close] :=
  (saves_follow_updates_iff "server \x7b listen 80; # listen 80;\n \x7d".toList
    (show items _ = some [.directive ["server".toList] true,
      .directive ["listen".toList, "80".toList] false, .close] by decide +kernel)).1
    (by decide +kernel) _

end Luhut.NginxConf
