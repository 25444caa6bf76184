import Mathlib.Data.Nat.Digits.Defs
import Mathlib.Data.List.Basic

set_option autoImplicit false

/-! `toText` is `int.toString` and `tryParse` is `int.tryParse` without a radix:
white space around the number, one sign, decimal digits in the signed 64-bit
range, or a `0x` literal, which without a minus sign may fill all 64 bits. -/
namespace DartInt

/-- A Dart string, as its list of Unicode characters. -/
abbrev Text := List Char

def toText : ℤ → Text
  | .ofNat n => Nat.toDigits 10 n
  | .negSucc n => '-' :: Nat.toDigits 10 (n + 1)

/-- The characters `String.trim` removes. -/
def isWhitespace (c : Char) : Bool :=
  (0x09 ≤ c.toNat && c.toNat ≤ 0x0D) || c.toNat == 0x20 || c.toNat == 0x85 ||
    c.toNat == 0xA0 || c.toNat == 0x1680 || (0x2000 ≤ c.toNat && c.toNat ≤ 0x200A) ||
    c.toNat == 0x2028 || c.toNat == 0x2029 || c.toNat == 0x202F || c.toNat == 0x205F ||
    c.toNat == 0x3000 || c.toNat == 0xFEFF

def trim (t : Text) : Text :=
  ((t.dropWhile isWhitespace).reverse.dropWhile isWhitespace).reverse

def InRange (n : ℤ) : Prop := -2 ^ 63 ≤ n ∧ n < 2 ^ 63

instance (n : ℤ) : Decidable (InRange n) := inferInstanceAs (Decidable (_ ∧ _))

def hexValue (c : Char) : Option ℕ :=
  if '0' ≤ c ∧ c ≤ '9' then some (c.toNat - '0'.toNat)
  else if 'a' ≤ c ∧ c ≤ 'f' then some (c.toNat - 'a'.toNat + 10)
  else if 'A' ≤ c ∧ c ≤ 'F' then some (c.toNat - 'A'.toNat + 10)
  else none

def parseHex : Text → Option ℕ
  | [] => none
  | t => t.foldlM (fun n c => (hexValue c).map (16 * n + ·)) 0

def parseDecimal (t : Text) : Option ℕ :=
  if t ≠ [] ∧ t.all Char.isDigit then some (Nat.ofDigitChars 10 t 0) else none

def checked (n : ℤ) : Option ℤ := if InRange n then some n else none

/-- An unsigned hexadecimal literal of 64 bits wraps into the signed range. -/
def wrapped (n : ℕ) : Option ℤ :=
  if n < 2 ^ 63 then some n else if n < 2 ^ 64 then some ((n : ℤ) - 2 ^ 64) else none

def parseUnsigned (negative : Bool) : Text → Option ℤ
  | '0' :: 'x' :: t | '0' :: 'X' :: t =>
    (parseHex t).bind fun n => if negative then checked (-n) else wrapped n
  | t => (parseDecimal t).bind fun n => checked (if negative then -n else n)

def tryParse (t : Text) : Option ℤ :=
  match trim t with
  | '-' :: u => parseUnsigned true u
  | '+' :: u => parseUnsigned false u
  | u => parseUnsigned false u

theorem digit_of_mem {n : ℕ} {c : Char} (h : c ∈ Nat.toDigits 10 n) : c.isDigit = true :=
  Nat.isDigit_of_mem_toDigits (by omega) (by omega) h

theorem digits_injective {m n : ℕ} (h : Nat.toDigits 10 m = Nat.toDigits 10 n) : m = n := by
  rw [← Nat.ofDigitChars_ten_toDigits (n := m), h, Nat.ofDigitChars_ten_toDigits]

theorem not_digits_of_head {n : ℕ} {c : Char} {t : Text} (hc : c.isDigit = false) :
    Nat.toDigits 10 n ≠ c :: t := by
  intro h
  have hd := digit_of_mem (n := n) (c := c) (by rw [h]; exact List.mem_cons_self)
  rw [hc] at hd
  cases hd

theorem toText_injective : Function.Injective toText := by
  intro m n h
  cases m with
  | ofNat m =>
    cases n with
    | ofNat n => exact congrArg Int.ofNat (digits_injective h)
    | negSucc n => exact absurd h (not_digits_of_head (by decide))
  | negSucc m =>
    cases n with
    | ofNat n => exact absurd h.symm (not_digits_of_head (by decide))
    | negSucc n =>
      have hd := digits_injective (List.cons.inj h).2
      have he : m = n := by omega
      rw [he]

theorem toText_nonneg {n : ℤ} (h : 0 ≤ n) : ∃ k : ℕ, n = k ∧ toText n = Nat.toDigits 10 k := by
  obtain ⟨k, rfl⟩ := Int.eq_ofNat_of_zero_le h
  exact ⟨k, rfl, rfl⟩

theorem toText_neg {n : ℤ} (h : n < 0) :
    ∃ k : ℕ, n = -k ∧ toText n = '-' :: Nat.toDigits 10 k := by
  obtain ⟨k, rfl⟩ := Int.eq_negSucc_of_lt_zero h
  exact ⟨k + 1, by omega, rfl⟩

theorem digit_not_whitespace {c : Char} (h : c.isDigit = true) : isWhitespace c = false := by
  have hb : 48 ≤ c.toNat ∧ c.toNat ≤ 57 := by
    simpa [Char.isDigit, UInt32.le_iff_toNat_le] using h
  simp only [isWhitespace, Bool.or_eq_false_iff, Bool.and_eq_false_iff, decide_eq_false_iff_not,
    beq_eq_false_iff_ne]
  omega

theorem trim_eq {t : Text} (h : ∀ c ∈ t, isWhitespace c = false) : trim t = t := by
  have keep : ∀ u : Text, (∀ c ∈ u, isWhitespace c = false) → u.dropWhile isWhitespace = u := by
    intro u hu
    cases u with
    | nil => rfl
    | cons c u => exact List.dropWhile_cons_of_neg (by simp [hu c List.mem_cons_self])
  unfold trim
  rw [keep t h, keep t.reverse (fun c hc => h c (List.mem_reverse.mp hc)), List.reverse_reverse]

theorem parseDecimal_digits (n : ℕ) : parseDecimal (Nat.toDigits 10 n) = some n := by
  have ha : (Nat.toDigits 10 n).all Char.isDigit = true :=
    List.all_eq_true.mpr fun c hc => digit_of_mem hc
  simp only [parseDecimal, Nat.toDigits_ne_nil, ha, ne_eq, not_false_eq_true, and_self,
    ↓reduceIte, Nat.ofDigitChars_ten_toDigits]

theorem parseUnsigned_digits (negative : Bool) (n : ℕ) :
    parseUnsigned negative (Nat.toDigits 10 n) = checked (if negative then -n else n) := by
  unfold parseUnsigned
  split
  · next t h =>
    have hx := digit_of_mem (n := n) (c := 'x') (by rw [h]; simp)
    exact absurd hx (by decide)
  · next t h =>
    have hx := digit_of_mem (n := n) (c := 'X') (by rw [h]; simp)
    exact absurd hx (by decide)
  · rw [parseDecimal_digits]
    rfl

/-- Number to text and back is the identity on Dart integers. -/
theorem tryParse_toText {n : ℤ} (h : InRange n) : tryParse (toText n) = some n := by
  have hchecked : checked n = some n := if_pos h
  rcases le_or_gt 0 n with hn | hn
  · obtain ⟨k, rfl, hk⟩ := toText_nonneg hn
    have ht : trim (toText k) = Nat.toDigits 10 k := by
      rw [hk]
      exact trim_eq fun c hc => digit_not_whitespace (digit_of_mem hc)
    unfold tryParse
    rw [ht]
    split
    · next u hu => exact absurd hu (not_digits_of_head (by decide))
    · next u hu => exact absurd hu (not_digits_of_head (by decide))
    · rw [parseUnsigned_digits]
      exact hchecked
  · obtain ⟨k, rfl, hk⟩ := toText_neg hn
    have ht : trim (toText (-k)) = '-' :: Nat.toDigits 10 k := by
      rw [hk]
      apply trim_eq
      intro c hc
      rcases List.mem_cons.mp hc with rfl | hc
      · decide
      · exact digit_not_whitespace (digit_of_mem hc)
    unfold tryParse
    rw [ht]
    change parseUnsigned true (Nat.toDigits 10 k) = _
    rw [parseUnsigned_digits]
    exact hchecked

theorem parseUnsigned_inRange {negative : Bool} {t : Text} {n : ℤ}
    (h : parseUnsigned negative t = some n) : InRange n := by
  have of_checked : ∀ m, checked m = some n → InRange n := by
    intro m hm
    unfold checked at hm
    split at hm
    · next hr => exact Option.some.inj hm ▸ hr
    · cases hm
  have of_wrapped : ∀ m, wrapped m = some n → InRange n := by
    intro m hm
    unfold wrapped at hm
    unfold InRange
    split at hm
    · cases hm
      omega
    · split at hm
      · cases hm
        omega
      · cases hm
  have of_hex : ∀ m : ℕ, (if negative then checked (-m) else wrapped m) = some n → InRange n := by
    intro m hm
    cases negative with
    | true => exact of_checked _ hm
    | false => exact of_wrapped _ hm
  unfold parseUnsigned at h
  split at h
  · obtain ⟨m, _, hm⟩ := Option.bind_eq_some_iff.mp h
    exact of_hex m hm
  · obtain ⟨m, _, hm⟩ := Option.bind_eq_some_iff.mp h
    exact of_hex m hm
  · obtain ⟨m, _, hm⟩ := Option.bind_eq_some_iff.mp h
    exact of_checked _ hm

theorem tryParse_inRange {t : Text} {n : ℤ} (h : tryParse t = some n) : InRange n := by
  unfold tryParse at h
  split at h
  · exact parseUnsigned_inRange h
  · exact parseUnsigned_inRange h
  · exact parseUnsigned_inRange h

end DartInt
