import Luhut.DartInt

set_option autoImplicit false

namespace Luhut
open DartInt

structure AppConfig where
  enablePrettyUrls : Bool := true
  nginxPort : ℤ := 80
  mysqlPort : ℤ := 3306
  phpPort : ℤ := 9000
  autoStart : Bool := false
deriving DecidableEq, Repr

/-- A value of a decoded map; strings, doubles, lists and maps are not told apart. -/
inductive JsonValue where
  | null
  | bool (b : Bool)
  | int (n : ℤ)
  | other
deriving DecidableEq, Repr

abbrev JsonMap := List (Text × JsonValue)

/-- The text of a JSON file, by what `jsonDecode` makes of it: it throws, or it
    returns a map or something else. -/
inductive JsonText where
  | malformed
  | map (fields : JsonMap)
  | other
deriving DecidableEq, Repr

namespace AppConfig

def toJson (c : AppConfig) : JsonMap :=
  [("enablePrettyUrls".toList, .bool c.enablePrettyUrls),
    ("nginxPort".toList, .int c.nginxPort),
    ("mysqlPort".toList, .int c.mysqlPort),
    ("phpPort".toList, .int c.phpPort),
    ("autoStart".toList, .bool c.autoStart)]

/-- `json[key] ?? default`; a value of another type throws. -/
def boolField (json : JsonMap) (key : Text) (default : Bool) : Option Bool :=
  match json.lookup key with
  | none | some .null => some default
  | some (.bool b) => some b
  | _ => none

def intField (json : JsonMap) (key : Text) (default : ℤ) : Option ℤ :=
  match json.lookup key with
  | none | some .null => some default
  | some (.int n) => some n
  | _ => none

def fromJson (json : JsonMap) : Option AppConfig := do
  let enablePrettyUrls ← boolField json "enablePrettyUrls".toList true
  let nginxPort ← intField json "nginxPort".toList 80
  let mysqlPort ← intField json "mysqlPort".toList 3306
  let phpPort ← intField json "phpPort".toList 9000
  let autoStart ← boolField json "autoStart".toList false
  return { enablePrettyUrls, nginxPort, mysqlPort, phpPort, autoStart }

def encode (c : AppConfig) : JsonText := .map c.toJson

/-- `AppConfig.fromJson(jsonDecode(content))`, `none` when it throws. -/
def decode : JsonText → Option AppConfig
  | .map fields => fromJson fields
  | .malformed | .other => none

theorem decode_encode (c : AppConfig) : decode c.encode = some c := rfl

theorem encode_injective : Function.Injective encode := by
  intro c d h
  have hd := congrArg decode h
  rw [decode_encode, decode_encode] at hd
  exact Option.some.inj hd

end AppConfig
end Luhut
