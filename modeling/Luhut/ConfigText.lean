import Luhut.AppConfig
import Luhut.JsonPrefixes

set_option autoImplicit false

namespace Luhut.AppConfig
open DartInt

def ofValue : DartJson.Value → JsonValue
  | .null => .null
  | .bool b => .bool b
  | .int n => .int n
  | _ => .other

def jsonDecode (content : Text) : JsonText :=
  match DartJson.parse content with
  | none => .malformed
  | some (.map fields) => .map (fields.map fun f => (f.1, ofValue f.2))
  | some _ => .other

def jsonValue (c : AppConfig) : DartJson.Value :=
  .map [("enablePrettyUrls".toList, .bool c.enablePrettyUrls),
    ("nginxPort".toList, .int c.nginxPort),
    ("mysqlPort".toList, .int c.mysqlPort),
    ("phpPort".toList, .int c.phpPort),
    ("autoStart".toList, .bool c.autoStart)]

def jsonEncode (c : AppConfig) : Text := DartJson.print c.jsonValue

/-- `AppConfig.fromJson(jsonDecode(content))`, `none` when it throws. -/
def load (content : Text) : Option AppConfig := decode (jsonDecode content)

structure Ranged (c : AppConfig) : Prop where
  nginxPort : InRange c.nginxPort
  mysqlPort : InRange c.mysqlPort
  phpPort : InRange c.phpPort

instance (c : AppConfig) : Decidable c.Ranged :=
  decidable_of_iff (InRange c.nginxPort ∧ InRange c.mysqlPort ∧ InRange c.phpPort)
    ⟨fun h => ⟨h.1, h.2.1, h.2.2⟩, fun h => ⟨h.nginxPort, h.mysqlPort, h.phpPort⟩⟩

theorem default_ranged : ({} : AppConfig).Ranged := by decide

theorem jsonValue_encodable {c : AppConfig} (hc : c.Ranged) : DartJson.Encodable c.jsonValue := by
  have hkeys : (c.toJson.map Prod.fst).Nodup := by
    change (["enablePrettyUrls".toList, "nginxPort".toList, "mysqlPort".toList, "phpPort".toList,
      "autoStart".toList] : List Text).Nodup
    decide
  refine .map hkeys fun f hf => ?_
  simp only [List.mem_cons, List.not_mem_nil, or_false] at hf
  rcases hf with rfl | rfl | rfl | rfl | rfl
  · exact .bool _
  · exact .int hc.nginxPort
  · exact .int hc.mysqlPort
  · exact .int hc.phpPort
  · exact .bool _

theorem jsonDecode_append {c : AppConfig} (hc : c.Ranged) (t : Text) :
    jsonDecode (c.jsonEncode ++ t) = if t.all DartJson.isBlank then c.encode else .malformed := by
  have hp := DartJson.parse_print_append (jsonValue_encodable hc) rfl t
  unfold jsonDecode jsonEncode
  by_cases hb : t.all DartJson.isBlank = true
  · rw [if_pos hb] at hp ⊢
    rw [hp]
    rfl
  · rw [if_neg hb] at hp ⊢
    rw [hp]

/-- The texts are texts of the maps that the other modules take for them. -/
theorem jsonDecode_jsonEncode {c : AppConfig} (hc : c.Ranged) :
    jsonDecode c.jsonEncode = c.encode := by
  unfold jsonDecode jsonEncode
  rw [DartJson.parse_print (jsonValue_encodable hc)]
  rfl

theorem jsonDecode_cut {c : AppConfig} (hc : c.Ranged) {p t : Text}
    (h : c.jsonEncode = p ++ t) (ht : t ≠ []) : jsonDecode p = .malformed := by
  unfold jsonDecode
  rw [DartJson.parse_prefix (jsonValue_encodable hc) rfl h ht]

theorem load_jsonEncode {c : AppConfig} (hc : c.Ranged) : load c.jsonEncode = some c := by
  unfold load
  rw [jsonDecode_jsonEncode hc]
  rfl

theorem load_append {c : AppConfig} (hc : c.Ranged) (t : Text) :
    load (c.jsonEncode ++ t) = if t.all DartJson.isBlank then some c else none := by
  unfold load
  rw [jsonDecode_append hc]
  split
  · rfl
  · rfl

theorem load_cut {c : AppConfig} (hc : c.Ranged) {p t : Text} (h : c.jsonEncode = p ++ t)
    (ht : t ≠ []) : load p = none := by
  unfold load
  rw [jsonDecode_cut hc h ht]
  rfl

/-- Of the texts that a saved text begins with or that begin with it, those load
    that are all of it, blanks at the end aside, and they load what was saved. -/
theorem load_comparable_iff {c d : AppConfig} {x : Text} (hc : c.Ranged)
    (hx : x <+: c.jsonEncode ∨ c.jsonEncode <+: x) :
    load x = some d ↔ d = c ∧ ∃ t, t.all DartJson.isBlank = true ∧ x = c.jsonEncode ++ t := by
  have whole : ∀ t, load (c.jsonEncode ++ t) = some d ↔
      d = c ∧ t.all DartJson.isBlank = true := by
    intro t
    rw [load_append hc]
    split
    · next hb => simp [hb, eq_comm]
    · next hb => simp [hb]
  constructor
  · intro h
    rcases hx with ⟨t, ht⟩ | ⟨t, rfl⟩
    · have hnil : t = [] := by
        by_contra hne
        rw [load_cut hc ht.symm hne] at h
        cases h
      subst hnil
      rw [List.append_nil] at ht
      subst ht
      refine ⟨?_, [], rfl, (List.append_nil _).symm⟩
      rw [load_jsonEncode hc] at h
      exact (Option.some.inj h).symm
    · obtain ⟨hd, hb⟩ := (whole t).mp h
      exact ⟨hd, t, hb, rfl⟩
  · rintro ⟨hd, t, hb, rfl⟩
    exact (whole t).mpr ⟨hd, hb⟩

theorem load_comparable_torn :
    load "\x7b\"enablePrettyUrls\":true".toList ≠ some {} ∧
      load (({} : AppConfig).jsonEncode ++ "\r\n".toList) = some {} := by
  constructor
  · intro h
    have torn : "\x7b\"enablePrettyUrls\":true".toList <+: ({} : AppConfig).jsonEncode :=
      ⟨(({} : AppConfig).jsonEncode).drop 24, by decide +kernel⟩
    obtain ⟨_, t, _, whole⟩ := (load_comparable_iff default_ranged (Or.inl torn)).mp h
    have shorter : "\x7b\"enablePrettyUrls\":true".toList.length <
        (({} : AppConfig).jsonEncode ++ t).length := by
      rw [List.length_append]
      exact Nat.lt_add_right _ (by decide +kernel)
    rw [whole] at shorter
    exact Nat.lt_irrefl _ shorter
  · exact (load_comparable_iff default_ranged (Or.inr (List.prefix_append _ _))).mpr
      ⟨rfl, "\r\n".toList, by decide, rfl⟩

/-- The text that the installer ships lacks `autoStart`. -/
example : load ("\x7b\"enablePrettyUrls\":true,\"nginxPort\":80,".toList ++
    "\"mysqlPort\":3306,\"phpPort\":9000\x7d".toList) = some {} := by decide +kernel

theorem intField_ranged {fields : List (Text × DartJson.Value)} {key : Text} {n d : ℤ}
    (hf : DartJson.RangedFields fields) (hd : InRange d)
    (h : intField (fields.map fun f => (f.1, ofValue f.2)) key d = some n) : InRange n := by
  unfold intField at h
  split at h
  · exact Option.some.inj h ▸ hd
  · exact Option.some.inj h ▸ hd
  · next m hm =>
    obtain rfl := Option.some.inj h
    obtain ⟨before, rest, hsplit, _⟩ := List.lookup_eq_some_iff.mp hm
    have mem : (key, JsonValue.int m) ∈ fields.map fun f => (f.1, ofValue f.2) := by
      rw [hsplit]
      exact List.mem_append_right _ List.mem_cons_self
    obtain ⟨f, hmem, he⟩ := List.mem_map.mp mem
    obtain ⟨k, v⟩ := f
    cases v with
    | int i =>
      have hi : i = m := JsonValue.int.inj (Prod.mk.inj he).2
      exact hi ▸ hf (k, .int i) hmem i rfl
    | _ => cases (Prod.mk.inj he).2
  · cases h

theorem load_ranged {content : Text} {c : AppConfig} (h : load content = some c) : c.Ranged := by
  unfold load jsonDecode at h
  split at h
  · cases h
  · next fields hp =>
    have hf : DartJson.RangedFields fields := DartJson.parse_ranged hp
    simp only [decode, fromJson, Option.pure_def, Option.bind_eq_bind,
      Option.bind_eq_some_iff] at h
    obtain ⟨pretty, _, nginx, hn, mysql, hm, php, hphp, auto, _, he⟩ := h
    obtain rfl := Option.some.inj he
    exact ⟨intField_ranged hf (by decide) hn, intField_ranged hf (by decide) hm,
      intField_ranged hf (by decide) hphp⟩
  · cases h

end Luhut.AppConfig
