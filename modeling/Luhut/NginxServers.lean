import Luhut.NginxRuns

set_option autoImplicit false

/-! nginx takes the servers that listen on the port of a request and chooses among them
by the host name. The saves change the ports of the servers; where all of them shared
one port, every host keeps its server. -/
namespace Luhut.NginxConf
open DartInt TextPattern NginxLexer

/-- The directives of a `server` block, without those of the blocks in it. -/
structure Server where
  directives : List (List Text)
deriving DecidableEq, Repr

structure Blocks where
  opened : List (List Text)
  current : Server
  servers : List Server
deriving DecidableEq, Repr

def inServer (opened : List (List Text)) : Bool := opened == [["server".toList], ["http".toList]]

def readItem (s : Blocks) : NginxLexer.Item → Blocks
  | .directive words true =>
    { s with
      opened := words :: s.opened
      current := if inServer (words :: s.opened) then ⟨[]⟩ else s.current }
  | .directive words false =>
    if inServer s.opened then { s with current := ⟨s.current.directives ++ [words]⟩ } else s
  | .close =>
    { s with
      opened := s.opened.tail
      servers := if inServer s.opened then s.servers ++ [s.current] else s.servers }

def servers (is : List NginxLexer.Item) : List Server :=
  (is.foldl readItem ⟨[], ⟨[]⟩, []⟩).servers

def Server.arguments (name : Text) (s : Server) : List (List Text) :=
  s.directives.filterMap fun words =>
    if words.head? = some name then some words.tail else none

def Server.listens (s : Server) : List (List Text) := s.arguments Setting.listen.name

def Server.names (s : Server) : List Text := (s.arguments "server_name".toList).flatten

/-- How nginx reads the arguments of `listen`: their ports, and whether they mark
    the server that answers the hosts no other server has the name of. -/
structure Listening where
  ports : List Text → List ℕ
  marked : List Text → Bool
  number : ∀ {v : Text} {k : ℕ}, parseDecimal v = some k → ports [v] = [k]
  unmarked : ∀ {v : Text} {k : ℕ}, parseDecimal v = some k → marked [v] = false

/-- How nginx chooses among the servers of a port, by their names and marks alone. -/
abbrev Choice := List (List Text × Bool) → Text → Option ℕ

/-- A server without `listen` has the port 80. -/
def Server.ports (L : Listening) (s : Server) : List ℕ :=
  if s.listens.isEmpty then [80] else s.listens.flatMap L.ports

def Server.isDefault (L : Listening) (port : ℕ) (s : Server) : Bool :=
  s.listens.any fun args => (L.ports args).contains port && L.marked args

def candidates (L : Listening) (port : ℕ) (servers : List Server) : List Server :=
  servers.filter fun s => (s.ports L).contains port

def profile (L : Listening) (port : ℕ) (s : Server) : List Text × Bool :=
  (s.names, s.isDefault L port)

/-- The server that answers a request for the host on the port. -/
def answer (L : Listening) (choose : Choice) (port : ℕ) (servers : List Server) (host : Text) :
    Option Server :=
  (choose ((candidates L port servers).map (profile L port)) host).bind fun i =>
    (candidates L port servers)[i]?

def Server.update (n p : ℤ) (s : Server) : Server := ⟨s.directives.map (updateWords n p)⟩

def Blocks.update (n p : ℤ) (s : Blocks) : Blocks :=
  ⟨s.opened.map (updateWords n p), s.current.update n p, s.servers.map (Server.update n p)⟩

section
variable {n p : ℤ}

theorem updateWords_single {words : List Text} {t : Text} :
    updateWords n p words = [t] ↔ words = [t] := by
  cases hs : setting? words with
  | none => rw [updateWords_other hs]
  | some k =>
    obtain ⟨v, hv, rfl⟩ := setting_eq_some_iff.mp hs
    rw [updateWords_setting k hv]
    constructor <;> intro h <;> cases h

theorem inServer_update (opened : List (List Text)) :
    inServer (opened.map (updateWords n p)) = inServer opened := by
  have same : opened.map (updateWords n p) = [["server".toList], ["http".toList]] ↔
      opened = [["server".toList], ["http".toList]] := by
    simp only [List.map_eq_cons_iff, List.map_eq_nil_iff, updateWords_single]
    constructor
    · rintro ⟨a, l, rfl, rfl, b, l', rfl, rfl, rfl⟩
      rfl
    · rintro rfl
      exact ⟨_, _, rfl, rfl, _, _, rfl, rfl, rfl⟩
  exact Bool.eq_iff_iff.mpr (beq_iff_eq.trans (same.trans beq_iff_eq.symm))

theorem readItem_update (s : Blocks) (D : NginxLexer.Item) :
    readItem (s.update n p) (NginxConf.update n p D) = (readItem s D).update n p := by
  cases D with
  | directive words block =>
    cases block with
    | true =>
      have same := inServer_update (n := n) (p := p) (words :: s.opened)
      change Blocks.mk _
        (if inServer ((words :: s.opened).map (updateWords n p)) then _ else _) _ = _
      rw [same]
      cases hb : inServer (words :: s.opened) <;> simp [readItem, Blocks.update, Server.update, hb]
    | false =>
      have same := inServer_update (n := n) (p := p) s.opened
      change (if inServer (s.opened.map (updateWords n p)) then _ else _) = _
      rw [same]
      cases hb : inServer s.opened <;> simp [readItem, Blocks.update, Server.update, hb]
  | close =>
    have same := inServer_update (n := n) (p := p) s.opened
    change Blocks.mk _ _ (if inServer (s.opened.map (updateWords n p)) then _ else _) = _
    rw [same]
    cases hb : inServer s.opened <;> simp [readItem, Blocks.update, hb]

theorem foldl_readItem_update (s : Blocks) (is : List NginxLexer.Item) :
    (is.map (NginxConf.update n p)).foldl readItem (s.update n p) =
      (is.foldl readItem s).update n p := by
  induction is generalizing s with
  | nil => rfl
  | cons D is ih =>
    rw [List.map_cons, List.foldl_cons, readItem_update, ih]
    rfl

theorem servers_update (is : List NginxLexer.Item) :
    servers (is.map (NginxConf.update n p)) = (servers is).map (Server.update n p) :=
  congrArg Blocks.servers (foldl_readItem_update ⟨[], ⟨[]⟩, []⟩ is)

def newArguments (n : ℤ) (args : List Text) : List Text :=
  match args with
  | [argument] => if isNumber argument then [toText n] else [argument]
  | args => args

theorem updateWords_head (words : List Text) : (updateWords n p words).head? = words.head? := by
  cases hs : setting? words with
  | none => rw [updateWords_other hs]
  | some k =>
    obtain ⟨v, hv, rfl⟩ := setting_eq_some_iff.mp hs
    rw [updateWords_setting k hv]
    rfl

theorem updateWords_listen (args : List Text) :
    updateWords n p (Setting.listen.name :: args) = Setting.listen.name :: newArguments n args := by
  match args with
  | [] => rfl
  | [v] =>
    by_cases hv : isNumber v = true
    · refine (updateWords_setting .listen hv).trans ?_
      rw [newArguments, if_pos hv]
      rfl
    · refine (updateWords_other ?_).trans (by rw [newArguments, if_neg hv])
      cases hs : setting? [Setting.listen.name, v] with
      | none => rfl
      | some k =>
        obtain ⟨u, hu, heq⟩ := setting_eq_some_iff.mp hs
        have hk : [] ++ Setting.listen.name = k.name := (List.cons.inj heq).1
        obtain ⟨-, rfl⟩ := name_suffix hk
        have hvu : v = u := (List.cons.inj (List.cons.inj heq).2).1
        exact absurd (hvu ▸ hu) hv
  | _ :: _ :: _ => rfl

theorem updateWords_name {name : Text} (h : ∀ k : Setting, name ≠ k.name) (args : List Text) :
    updateWords n p (name :: args) = name :: args := by
  refine updateWords_other ?_
  cases hs : setting? (name :: args) with
  | none => rfl
  | some k =>
    obtain ⟨v, _, heq⟩ := setting_eq_some_iff.mp hs
    exact absurd (List.cons.inj heq).1 (h k)

theorem arguments_update (name : Text) (f : List Text → List Text)
    (h : ∀ args, updateWords n p (name :: args) = name :: f args) (s : Server) :
    (s.update n p).arguments name = (s.arguments name).map f := by
  unfold Server.arguments Server.update
  rw [List.filterMap_map, List.map_filterMap]
  refine List.filterMap_congr fun words _ => ?_
  change (if (updateWords n p words).head? = some name then _ else _) = _
  rw [updateWords_head]
  by_cases hw : words.head? = some name
  · obtain ⟨args, rfl⟩ := List.head?_eq_some_iff.mp hw
    simp [h]
  · simp [hw]

theorem listens_update (s : Server) :
    (s.update n p).listens = s.listens.map (newArguments n) :=
  arguments_update _ _ updateWords_listen s

theorem names_update (s : Server) : (s.update n p).names = s.names := by
  have other : ∀ k : Setting, "server_name".toList ≠ k.name := by
    intro k
    cases k <;> decide
  unfold Server.names
  rw [arguments_update (n := n) (p := p) _ id (updateWords_name other) s, List.map_id]
end

structure Server.Plain (m : ℕ) (s : Server) : Prop where
  listens : s.listens ≠ []
  plain : ∀ args ∈ s.listens, ∃ v, args = [v] ∧ parseDecimal v = some m

/-- No `listen` of the server is rewritten, and its ports are neither `m` nor `n`. -/
structure Server.Apart (L : Listening) (m n : ℕ) (s : Server) : Prop where
  kept : ∀ args ∈ s.listens, ∀ v, args = [v] → isNumber v = false
  before : m ∉ s.ports L
  after : n ∉ s.ports L

section
variable {L : Listening} {m n : ℕ} {p : ℤ} {s : Server}

theorem parseDecimal_toText (n : ℕ) : parseDecimal (toText n) = some n :=
  parseDecimal_digits n

theorem isNumber_of_parseDecimal {v : Text} {k : ℕ} (h : parseDecimal v = some k) :
    isNumber v = true := by
  unfold parseDecimal at h
  split_ifs at h with hv
  exact isNumber_iff.mpr ⟨hv.1, List.all_eq_true.mp hv.2⟩

theorem Server.Plain.mem_ports (h : s.Plain m) : m ∈ s.ports L := by
  obtain ⟨args, hmem⟩ := List.exists_mem_of_ne_nil _ h.listens
  obtain ⟨v, rfl, hv⟩ := h.plain args hmem
  unfold Server.ports
  rw [if_neg (by simpa using h.listens)]
  exact List.mem_flatMap.mpr ⟨[v], hmem, by simp [L.number hv]⟩

theorem Server.Plain.not_default (h : s.Plain m) (k : ℕ) : s.isDefault L k = false := by
  refine List.any_eq_false.mpr fun args hmem => ?_
  obtain ⟨v, rfl, hv⟩ := h.plain args hmem
  simp [L.unmarked hv]

theorem Server.Plain.update (h : s.Plain m) : (s.update n p).Plain n := by
  constructor
  · rw [listens_update]
    exact fun hnil => h.listens (List.map_eq_nil_iff.mp hnil)
  · intro args hmem
    rw [listens_update] at hmem
    obtain ⟨old, hold, rfl⟩ := List.mem_map.mp hmem
    obtain ⟨v, rfl, hv⟩ := h.plain old hold
    refine ⟨toText n, ?_, parseDecimal_toText n⟩
    rw [newArguments, if_pos (isNumber_of_parseDecimal hv)]

theorem newArguments_other {args : List Text}
    (h : ∀ v, args = [v] → isNumber v = false) (k : ℤ) : newArguments k args = args := by
  match args with
  | [] => rfl
  | [v] => rw [newArguments, if_neg (by simp [h v rfl])]
  | _ :: _ :: _ => rfl

theorem Server.Apart.ports_update (h : s.Apart L m n) (k : ℤ) :
    (s.update k p).ports L = s.ports L := by
  have same : (s.update k p).listens = s.listens := by
    rw [listens_update]
    calc
      s.listens.map (newArguments k) = s.listens.map id :=
        List.map_congr_left fun args hmem => newArguments_other (h.kept args hmem) k
      _ = s.listens := List.map_id _
  unfold Server.ports
  rw [same]

theorem candidates_update {servers : List Server}
    (h : ∀ s ∈ servers, s.Plain m ∨ s.Apart L m n) :
    candidates L n (servers.map (Server.update n p)) =
      (candidates L m servers).map (Server.update n p) := by
  have same : ∀ s ∈ servers,
      ((s.update n p).ports L).contains n = (s.ports L).contains m := by
    intro s hs
    rcases h s hs with plain | apart
    · rw [List.contains_iff_mem.mpr plain.update.mem_ports,
        List.contains_iff_mem.mpr plain.mem_ports]
    · rw [apart.ports_update, Bool.eq_iff_iff, List.contains_iff_mem, List.contains_iff_mem]
      exact ⟨fun hn => absurd hn apart.after, fun hm => absurd hm apart.before⟩
  unfold candidates
  rw [List.filter_map]
  exact congrArg (List.map _) (List.filter_congr same)

theorem profile_update {servers : List Server}
    (h : ∀ s ∈ servers, s.Plain m ∨ s.Apart L m n) :
    ∀ s ∈ candidates L m servers, profile L n (s.update n p) = profile L m s := by
  intro s hs
  obtain ⟨hmem, hport⟩ := List.mem_filter.mp hs
  have plain : s.Plain m := (h s hmem).resolve_right fun apart =>
    apart.before (List.contains_iff_mem.mp hport)
  unfold profile
  rw [names_update, plain.update.not_default, plain.not_default]

theorem answer_update {servers : List Server}
    (h : ∀ s ∈ servers, s.Plain m ∨ s.Apart L m n) (choose : Choice) (host : Text) :
    answer L choose n (servers.map (Server.update n p)) host =
      (answer L choose m servers host).map (Server.update n p) := by
  unfold answer
  have profiles : (candidates L m servers).map (profile L n ∘ Server.update n p) =
      (candidates L m servers).map (profile L m) := List.map_congr_left (profile_update h)
  rw [candidates_update h, List.map_map, profiles, Option.map_bind]
  exact congrArg (Option.bind _) (funext fun i => List.getElem?_map)
end

/-- Where the servers of the port have it as a plain number and the others do not have
    the port of the saves either, every host is answered by the server it had. -/
theorem saves_keep_answers (L : Listening) {x : Text} {is : List NginxLexer.Item}
    (h : items x = some is) (hr : robust x = true) {m n : ℕ} (cs : List AppConfig) (c : AppConfig)
    (hn : settled (cs.map (·.nginxPort)) c.nginxPort = n)
    (moves : ∀ s ∈ servers is, s.Plain m ∨ s.Apart L m n) :
    ∃ js, items (saves (cs ++ [c]) x) = some js ∧
      ∀ (choose : Choice) (host : Text),
        answer L choose n (servers js) host =
          (answer L choose m (servers is) host).map
            (Server.update n (settled (cs.map (·.phpPort)) c.phpPort)) := by
  have hx := items_rewritePorts h
    (fine_of_robust (settled (cs.map (·.nginxPort)) c.nginxPort)
      (settled (cs.map (·.phpPort)) c.phpPort) hr)
  rw [← saves_settled] at hx
  refine ⟨_, hx, fun choose host => ?_⟩
  rw [servers_update, hn]
  exact answer_update moves choose host

/-- A number, or what follows the last colon of an address, or 80. -/
def listenPorts (argument : Text) : List ℕ :=
  match parseDecimal argument with
  | some port => [port]
  | none =>
    if "unix:".toList.isPrefixOf argument then []
    else [(parseDecimal (argument.reverse.takeWhile (· != ':')).reverse).getD 80]

def plainListening : Listening where
  ports args := args.head?.toList.flatMap listenPorts
  marked args := args.tail.contains "default_server".toList
  number h := by simp [listenPorts, h]
  unmarked _ := rfl

/-- The server with the name, or else the one marked, or else the first. -/
def byName : Choice := fun servers host =>
  (servers.findIdx? (·.1.contains host)).or <|
    (servers.findIdx? (·.2)).or (if servers.isEmpty then none else some 0)

def twoServers : Text :=
  ("http \x7b server \x7b listen 80; server_name shop.test; \x7d " ++
    "server \x7b listen 80; server_name localhost; \x7d \x7d").toList

def twoServersItems : List NginxLexer.Item :=
  [.directive ["http".toList] true, .directive ["server".toList] true,
    .directive ["listen".toList, "80".toList] false,
    .directive ["server_name".toList, "shop.test".toList] false, .close,
    .directive ["server".toList] true, .directive ["listen".toList, "80".toList] false,
    .directive ["server_name".toList, "localhost".toList] false, .close, .close]

theorem twoServers_plain (s : Server) (h : s ∈ servers twoServersItems) : s.Plain 80 := by
  have each : (servers twoServersItems).all (fun s => s.listens == [["80".toList]]) = true := by
    decide +kernel
  have hl : s.listens = [["80".toList]] := beq_iff_eq.mp (List.all_eq_true.mp each s h)
  constructor
  · rw [hl]
    exact List.cons_ne_nil _ _
  · intro args hmem
    rw [hl] at hmem
    exact ⟨"80".toList, List.mem_singleton.mp hmem, by decide⟩

theorem saves_keep_answers_localhost :
    ∃ js, items (saves [{ nginxPort := 8080 }, { nginxPort := 8081 }] twoServers) = some js ∧
      answer plainListening byName 8081 (servers js) "localhost".toList =
        some ⟨[["listen".toList, "8081".toList], ["server_name".toList, "localhost".toList]]⟩ := by
  have hx : items twoServers = some twoServersItems := by decide +kernel
  obtain ⟨js, hjs, same⟩ := saves_keep_answers plainListening hx (by decide +kernel)
    (m := 80) (n := 8081) [{ nginxPort := 8080 }] { nginxPort := 8081 } (by decide)
    fun s hs => .inl (twoServers_plain s hs)
  exact ⟨js, hjs, (same byName "localhost".toList).trans (by decide +kernel)⟩

end Luhut.NginxConf
