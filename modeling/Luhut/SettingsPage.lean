import Luhut.AppConfig

set_option autoImplicit false

namespace Luhut
open DartInt

structure SettingsPage where
  nginxPortCtrl : Text
  mysqlPortCtrl : Text
  phpPortCtrl : Text
  enablePrettyUrls : Option Bool
  autoStart : Option Bool
deriving DecidableEq, Repr

namespace SettingsPage

def initState (config : AppConfig) : SettingsPage where
  nginxPortCtrl := toText config.nginxPort
  mysqlPortCtrl := toText config.mysqlPort
  phpPortCtrl := toText config.phpPort
  enablePrettyUrls := some config.enablePrettyUrls
  autoStart := some config.autoStart

def newConfig (page : SettingsPage) : AppConfig where
  enablePrettyUrls := page.enablePrettyUrls.getD true
  nginxPort := (tryParse page.nginxPortCtrl).getD 80
  mysqlPort := (tryParse page.mysqlPortCtrl).getD 3306
  phpPort := (tryParse page.phpPortCtrl).getD 9000
  autoStart := page.autoStart.getD false

inductive Edit where
  | enablePrettyUrls (val : Bool)
  | autoStart (val : Bool)
  | nginxPort (text : Text)
  | mysqlPort (text : Text)
  | phpPort (text : Text)
deriving DecidableEq, Repr

def edit (page : SettingsPage) : Edit → SettingsPage
  | .enablePrettyUrls val => { page with enablePrettyUrls := some val }
  | .autoStart val => { page with autoStart := some val }
  | .nginxPort text => { page with nginxPortCtrl := text }
  | .mysqlPort text => { page with mysqlPortCtrl := text }
  | .phpPort text => { page with phpPortCtrl := text }

inductive Field where
  | enablePrettyUrls | autoStart | nginxPort | mysqlPort | phpPort
deriving DecidableEq, Repr

def Field.value (c : AppConfig) : Field → JsonValue
  | .enablePrettyUrls => .bool c.enablePrettyUrls
  | .autoStart => .bool c.autoStart
  | .nginxPort => .int c.nginxPort
  | .mysqlPort => .int c.mysqlPort
  | .phpPort => .int c.phpPort

def Edit.field : Edit → Field
  | .enablePrettyUrls _ => .enablePrettyUrls
  | .autoStart _ => .autoStart
  | .nginxPort _ => .nginxPort
  | .mysqlPort _ => .mysqlPort
  | .phpPort _ => .phpPort

theorem newConfig_edit (page : SettingsPage) {e : Edit} {f : Field} (h : f ≠ e.field) :
    f.value (page.edit e).newConfig = f.value page.newConfig := by
  cases e <;> cases f <;> first | rfl | exact absurd rfl h

def PortsInRange (c : AppConfig) : Prop :=
  InRange c.nginxPort ∧ InRange c.mysqlPort ∧ InRange c.phpPort

theorem newConfig_initState {c : AppConfig} (h : PortsInRange c) :
    (initState c).newConfig = c := by
  obtain ⟨hn, hm, hp⟩ := h
  simp [initState, newConfig, tryParse_toText hn, tryParse_toText hm, tryParse_toText hp]

end SettingsPage
end Luhut
