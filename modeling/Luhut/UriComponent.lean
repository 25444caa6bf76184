import Luhut.DartInt

set_option autoImplicit false

/-! `Uri.encodeComponent` and its relatives write the UTF-8 bytes of a text, those
outside a table as `%` and two digits. Reading one back drops a byte order mark in
front, as every UTF-8 decoding in Dart does. -/
namespace UriComponent
open DartInt

def hexDigits : Text := "0123456789ABCDEF".toList

def hexDigit (n : ℕ) : Char := hexDigits.getD n '0'

def escape (b : UInt8) : Text :=
  ['%', hexDigit (b.toNat / 16), hexDigit (b.toNat % 16)]

/-- A table holds ASCII characters other than the percent sign. -/
structure Table where
  has : UInt8 → Bool
  ascii : ∀ b, has b = true → b.toNat < 128 ∧ b ≠ 0x25

def encodeByte (table : Table) (b : UInt8) : Text :=
  if table.has b then [Char.ofUInt8 b] else escape b

/-- `_uriEncode` -/
def uriEncode (table : Table) (text : Text) : Text :=
  (text.flatMap String.utf8EncodeChar).flatMap (encodeByte table)

def unescape : Text → Option (List UInt8)
  | [] => some []
  | '%' :: a :: b :: rest =>
    (hexValue a).bind fun m => (hexValue b).bind fun n =>
      (unescape rest).map (UInt8.ofNat (16 * m + n) :: ·)
  | ['%'] => none
  | ['%', _] => none
  | c :: rest => if 127 < c.toNat then none else (unescape rest).map (UInt8.ofNat c.toNat :: ·)

def byteOrderMark : Char := Char.ofNat 0xFEFF

def withoutMark : Text → Text
  | [] => []
  | c :: rest => if c == byteOrderMark then rest else c :: rest

def utf8Decode (bytes : List UInt8) : Option Text :=
  bytes.toByteArray.utf8Decode?.map fun text => withoutMark text.toList

/-- `_uriDecode` -/
def uriDecode (text : Text) : Option Text :=
  if text.all (fun c => decide (c.toNat ≤ 127) && c != '%') then some text
  else (unescape text).bind utf8Decode

theorem utf8Decode_encode (text : Text) :
    utf8Decode (text.flatMap String.utf8EncodeChar) = some (withoutMark text) := by
  have read : (text.flatMap String.utf8EncodeChar).toByteArray.utf8Decode? = some text.toArray :=
    List.utf8Decode?_utf8Encode
  rw [utf8Decode, read]
  rfl

theorem hexDigit_spec {n : ℕ} (h : n < 16) : hexValue (hexDigit n) = some n := by
  have all : ∀ n < 16, hexValue (hexDigit n) = some n := by decide
  exact all n h

theorem unescape_escape (b : UInt8) (rest : Text) :
    unescape (escape b ++ rest) = (unescape rest).map (b :: ·) := by
  have size : b.toNat < 256 := UInt8.toNat_lt_size b
  have high := hexDigit_spec (n := b.toNat / 16) (by omega)
  have low := hexDigit_spec (n := b.toNat % 16) (by omega)
  have value : UInt8.ofNat (16 * (b.toNat / 16) + b.toNat % 16) = b := by
    rw [Nat.div_add_mod]
    exact UInt8.ofNat_toNat
  change unescape ('%' :: hexDigit _ :: hexDigit _ :: rest) = _
  rw [unescape, high, low, Option.bind_some, Option.bind_some, value]

theorem unescape_char {c : Char} (h : c.toNat < 128) (hc : c ≠ '%') (rest : Text) :
    unescape (c :: rest) = (unescape rest).map (UInt8.ofNat c.toNat :: ·) := by
  rw [unescape, if_neg (by omega)]
  · rintro a b rest' rfl
    exact absurd rfl hc
  · rintro rfl
    exact absurd rfl hc
  · rintro a rfl
    exact absurd rfl hc

section
variable (table : Table)

theorem Table.char {b : UInt8} (h : table.has b = true) :
    (Char.ofUInt8 b).toNat = b.toNat ∧ (Char.ofUInt8 b).toNat < 128 ∧ Char.ofUInt8 b ≠ '%' := by
  obtain ⟨small, percent⟩ := table.ascii b h
  have code : (Char.ofUInt8 b).toNat = b.toNat := rfl
  refine ⟨code, code ▸ small, fun heq => percent ?_⟩
  have value : b.toNat = 0x25 := code.symm.trans (congrArg Char.toNat heq)
  exact UInt8.toNat_inj.mp value

theorem unescape_encode (bytes : List UInt8) (rest : Text) :
    unescape (bytes.flatMap (encodeByte table) ++ rest) = (unescape rest).map (bytes ++ ·) := by
  induction bytes with
  | nil => exact Option.map_id'.symm
  | cons b bytes ih =>
    rw [List.flatMap_cons, List.append_assoc, encodeByte]
    split
    · next hb =>
      obtain ⟨code, small, percent⟩ := table.char hb
      change unescape (Char.ofUInt8 b :: (bytes.flatMap (encodeByte table) ++ rest)) = _
      rw [unescape_char small percent, ih, code, UInt8.ofNat_toNat, Option.map_map]
      rfl
    · rw [unescape_escape, ih, Option.map_map]
      rfl

def Table.Keeps (c : Char) : Prop := c.toNat < 128 ∧ table.has (UInt8.ofNat c.toNat) = true

theorem utf8EncodeChar_ascii {c : Char} (h : c.toNat < 128) :
    String.utf8EncodeChar c = [UInt8.ofNat c.toNat] := by
  have small : c.val.toNat ≤ 0x7f := Nat.le_of_lt_succ h
  exact if_pos small

theorem exists_high_byte {c : Char} (h : 128 ≤ c.toNat) :
    ∃ b ∈ String.utf8EncodeChar c, 128 ≤ b.toNat := by
  have big : ¬ c.val.toNat ≤ 0x7f := by
    change ¬ c.toNat ≤ 0x7f
    omega
  unfold String.utf8EncodeChar
  rw [if_neg big]
  split
  · refine ⟨_, List.mem_cons_self, ?_⟩
    rw [UInt8.toNat_ofNat']
    omega
  · split
    · refine ⟨_, List.mem_cons_self, ?_⟩
      rw [UInt8.toNat_ofNat']
      omega
    · refine ⟨_, List.mem_cons_self, ?_⟩
      rw [UInt8.toNat_ofNat']
      omega

theorem uriEncode_cons (c : Char) (text : Text) :
    uriEncode table (c :: text) =
      (String.utf8EncodeChar c).flatMap (encodeByte table) ++ uriEncode table text := by
  unfold uriEncode
  rw [List.flatMap_cons, List.flatMap_append]

theorem encodeByte_char {c : Char} (h : table.Keeps c) :
    (String.utf8EncodeChar c).flatMap (encodeByte table) = [c] := by
  have value : (UInt8.ofNat c.toNat).toNat = c.toNat := by
    have small := h.1
    rw [UInt8.toNat_ofNat']
    omega
  have char : Char.ofUInt8 (UInt8.ofNat c.toNat) = c := Char.ext (UInt32.toNat_inj.mp value)
  rw [utf8EncodeChar_ascii h.1, List.flatMap_cons, List.flatMap_nil, List.append_nil, encodeByte,
    if_pos h.2, char]

theorem percent_mem {c : Char} (h : ¬ table.Keeps c) :
    '%' ∈ (String.utf8EncodeChar c).flatMap (encodeByte table) := by
  have outside : ∃ b ∈ String.utf8EncodeChar c, table.has b = false := by
    by_cases small : c.toNat < 128
    · rw [utf8EncodeChar_ascii small]
      exact ⟨_, List.mem_singleton_self _, by simpa [Table.Keeps, small] using h⟩
    · obtain ⟨b, hb, high⟩ := exists_high_byte (Nat.le_of_not_lt small)
      refine ⟨b, hb, ?_⟩
      by_contra has
      have := (table.ascii b (by simpa using has)).1
      omega
  obtain ⟨b, hb, has⟩ := outside
  refine List.mem_flatMap.mpr ⟨b, hb, ?_⟩
  rw [encodeByte, if_neg (by simp [has])]
  exact List.mem_cons_self

theorem uriEncode_cases (text : Text) :
    (∀ c ∈ text, table.Keeps c) ∧ uriEncode table text = text ∨ '%' ∈ uriEncode table text := by
  induction text with
  | nil => exact Or.inl ⟨List.forall_mem_nil _, rfl⟩
  | cons c text ih =>
    rw [uriEncode_cons]
    by_cases hc : table.Keeps c
    · rcases ih with ⟨keeps, same⟩ | escaped
      · refine Or.inl ⟨List.forall_mem_cons.mpr ⟨hc, keeps⟩, ?_⟩
        rw [encodeByte_char table hc, same]
        rfl
      · exact Or.inr (List.mem_append_right _ escaped)
    · exact Or.inr (List.mem_append_left _ (percent_mem table hc))

theorem withoutMark_of_keeps {text : Text} (h : ∀ c ∈ text, table.Keeps c) :
    withoutMark text = text := by
  cases text with
  | nil => rfl
  | cons c text =>
    refine if_neg fun mark => ?_
    have small := (h c List.mem_cons_self).1
    rw [beq_iff_eq.mp mark] at small
    exact absurd small (by decide)

theorem hexDigit_mem {n : ℕ} (h : n < 16) : hexDigit n ∈ hexDigits := by
  have all : ∀ n < 16, hexDigit n ∈ hexDigits := by decide
  exact all n h

theorem not_mem_uriEncode {c : Char} (outside : table.has (UInt8.ofNat c.toNat) = false)
    (other : c ∉ '%' :: hexDigits) (text : Text) : c ∉ uriEncode table text := by
  intro hc
  obtain ⟨b, _, hb⟩ := List.mem_flatMap.mp hc
  have size : b.toNat < 256 := UInt8.toNat_lt_size b
  unfold encodeByte at hb
  split at hb
  · next has =>
    rw [List.mem_singleton.mp hb, (table.char has).1, UInt8.ofNat_toNat, has] at outside
    cases outside
  · refine other ?_
    rcases List.mem_cons.mp hb with rfl | hb
    · exact List.mem_cons_self
    rcases List.mem_cons.mp hb with rfl | hb
    · exact List.mem_cons_of_mem _ (hexDigit_mem (by omega))
    · rw [List.mem_singleton.mp hb]
      exact List.mem_cons_of_mem _ (hexDigit_mem (by omega))

/-- Reading back what was written gives the text without its mark. -/
theorem uriDecode_uriEncode (text : Text) :
    uriDecode (uriEncode table text) = some (withoutMark text) := by
  unfold uriDecode
  rcases uriEncode_cases table text with ⟨keeps, same⟩ | escaped
  · have simple : text.all (fun c => decide (c.toNat ≤ 127) && c != '%') = true := by
      refine List.all_eq_true.mpr fun c hc => ?_
      obtain ⟨small, has⟩ := keeps c hc
      have percent : c ≠ '%' := by
        rintro rfl
        exact (table.ascii _ has).2 rfl
      simp [Nat.le_of_lt_succ small, percent]
    rw [same, if_pos simple, withoutMark_of_keeps table keeps]
  · have special :
        ¬ (uriEncode table text).all (fun c => decide (c.toNat ≤ 127) && c != '%') = true := by
      intro all
      have percent := List.all_eq_true.mp all '%' escaped
      cases percent
    have bytes := unescape_encode table (text.flatMap String.utf8EncodeChar) []
    rw [List.append_nil] at bytes
    rw [if_neg special]
    change (unescape ((text.flatMap String.utf8EncodeChar).flatMap (encodeByte table))).bind _ = _
    rw [bytes]
    change utf8Decode (text.flatMap String.utf8EncodeChar ++ []) = _
    rw [List.append_nil, utf8Decode_encode]
end

end UriComponent
