import Luhut.HostsManager
import Luhut.UriComponent

set_option autoImplicit false

/-! scanSites takes the name of a folder from the URI of its path: the last segment but
one, as a directory URI ends with a slash. The name goes through percent-encoding
and back. -/
namespace Luhut.SitesDirectory
open DartInt UriComponent
open HostsManager (AllowedName domainSuffix join)

inductive Kind where
  | directory
  | file
  | link
deriving DecidableEq

structure Entity where
  kind : Kind
  path : Text
deriving DecidableEq

/-- `Directory('sites').list()` -/
def list (entries : List (Text × Kind)) : List Entity :=
  entries.map fun e => ⟨e.2, "sites\\".toList ++ e.1⟩

def pathChar (b : UInt8) : Bool :=
  (Char.ofUInt8 b).isAlphanum || "-._~!$&'()*+,;=:@".toList.contains (Char.ofUInt8 b)

def pathTable : Table where
  has := pathChar
  ascii := by
    have all : ∀ n < 256, pathChar (UInt8.ofNat n) = true → n < 128 ∧ n ≠ 0x25 := by decide +kernel
    intro b hb
    rw [← UInt8.ofNat_toNat (x := b)] at hb
    obtain ⟨small, percent⟩ := all b.toNat (UInt8.toNat_lt_size b) hb
    exact ⟨small, fun heq => percent (heq ▸ rfl)⟩

def reserved (c : Char) : Bool := "\"*/:<>?\\|".toList.contains c

def schemeChar (c : Char) : Bool := c.isAlphanum || c == '+' || c == '-' || c == '.'

def escapeScheme : Text → Text
  | c :: d :: rest =>
    if c.isAlpha then
      match (d :: rest).dropWhile schemeChar with
      | ':' :: tail => c :: (d :: rest).takeWhile schemeChar ++ "%3A".toList ++ tail
      | _ => c :: d :: rest
    else c :: d :: rest
  | path => path

def mayContainDotSegments (path : Text) : Bool :=
  path.head? == some '.' || decide ("/.".toList <:+: path)

def dotSegment (output : List Text × Bool) (segment : Text) : List Text × Bool :=
  if segment == "..".toList then
    if output.1.isEmpty || output.1.getLast? == some "..".toList then
      (output.1 ++ ["..".toList], false)
    else (output.1.dropLast, true)
  else if segment == ".".toList then (output.1, true)
  else (output.1 ++ [segment], false)

def joinSegments (output : List Text) (appendSlash : Bool) : Text :=
  if output == [] || output == [[]] then "./".toList
  else
    let output :=
      if appendSlash || output.getLast? == some "..".toList then output ++ [[]] else output
    join "/".toList (output.modifyHead escapeScheme)

def normalizeRelativePath (path : Text) : Text :=
  if mayContainDotSegments path then
    let output := (path.splitOn '/').foldl dotSegment ([], false)
    joinSegments output.1 output.2
  else escapeScheme path

def slashTerminated (segments : List Text) : List Text :=
  if segments.getLast? == some [] then segments else segments ++ [[]]

def relativeUri (segments : List Text) : Option Text :=
  if segments.any (·.any reserved) then none
  else some (normalizeRelativePath
    (join "/".toList ((slashTerminated segments).map (uriEncode pathTable))))

/-- `Uri.directory` of a path without a drive or a leading backslash; `none` when it
    throws. -/
def uriDirectory (path : Text) : Option Text :=
  relativeUri ((path.map fun c => if c == '/' then '\\' else c).splitOn '\\')

def pathSegments (path : Text) : Option (List Text) :=
  let pathToSplit := if path.head? == some '/' then path.tail else path
  if pathToSplit.isEmpty then some [] else (pathToSplit.splitOn '/').mapM uriDecode

/-- `entity.uri.pathSegments[entity.uri.pathSegments.length - 2]` -/
def folderName (path : Text) : Option Text :=
  (uriDirectory path).bind fun uri => (pathSegments uri).bind fun segments =>
    if 2 ≤ segments.length then segments[segments.length - 2]? else none

/-- The loop of scanSites; `none` when it throws. -/
def scanEntities : List Entity → Option (List Text)
  | [] => some []
  | ⟨.directory, path⟩ :: rest =>
    (folderName path).bind fun name => (scanEntities rest).map fun domains =>
      if name.isEmpty then domains else (name ++ domainSuffix) :: domains
  | _ :: rest => scanEntities rest

theorem splitOn_two {separator : Char} {a b : Text} (ha : separator ∉ a) (hb : separator ∉ b) :
    (a ++ separator :: b).splitOn separator = [a, b] := by
  have plain {t : Text} (ht : separator ∉ t) : ∀ c ∈ t, (c == separator) = false := by
    intro c hc
    rw [beq_eq_false_iff_ne]
    rintro rfl
    exact ht hc
  unfold List.splitOn
  rw [List.splitOnP_append_cons_of_forall_mem (plain ha) separator (beq_self_eq_true separator),
    List.splitOnP_eq_singleton (plain hb)]

theorem splitOn_three {separator : Char} {a b c : Text} (ha : separator ∉ a) (hb : separator ∉ b)
    (hc : separator ∉ c) :
    (a ++ separator :: (b ++ separator :: c)).splitOn separator = [a, b, c] := by
  have plain : ∀ x ∈ a, (x == separator) = false := by
    intro x hx
    rw [beq_eq_false_iff_ne]
    rintro rfl
    exact ha hx
  have tail := splitOn_two hb hc
  unfold List.splitOn at tail ⊢
  rw [List.splitOnP_append_cons_of_forall_mem plain separator (beq_self_eq_true separator), tail]

theorem mapM_three {f : Text → Option Text} {a b c x y z : Text} (ha : f a = some x)
    (hb : f b = some y) (hc : f c = some z) : [a, b, c].mapM f = some [x, y, z] := by
  simp [ha, hb, hc]

theorem normalizeRelativePath_sites {e : Text} (slash : '/' ∉ e) (dot : e ≠ ".".toList)
    (dots : e ≠ "..".toList) :
    normalizeRelativePath ("sites".toList ++ '/' :: (e ++ '/' :: [])) =
      "sites".toList ++ '/' :: (e ++ '/' :: []) := by
  have scheme (path : Text) : escapeScheme ("sites".toList ++ '/' :: path) =
      "sites".toList ++ '/' :: path := rfl
  have step : dotSegment (["sites".toList], false) e = (["sites".toList, e], false) := by
    have one : (e == ".".toList) = false := beq_eq_false_iff_ne.mpr dot
    have two : (e == "..".toList) = false := beq_eq_false_iff_ne.mpr dots
    unfold dotSegment
    rw [one, two]
    rfl
  unfold normalizeRelativePath
  split
  · rw [splitOn_three (by decide) slash List.not_mem_nil]
    change joinSegments (dotSegment (dotSegment (["sites".toList], false) e) []).1
      (dotSegment (dotSegment (["sites".toList], false) e) []).2 = _
    rw [step]
    rfl
  · exact scheme _

structure Folder (name : Text) : Prop where
  allowed : AllowedName name
  dot : name ≠ ".".toList
  dots : name ≠ "..".toList

section
variable {name : Text} (folder : Folder name)
include folder

theorem Folder.not_mem {c : Char} (h : c ∈ "<>:\"/\\|?*".toList) : c ∉ name :=
  fun hc => (folder.allowed.2 c hc).2 h

theorem Folder.not_reserved : name.any reserved = false := by
  rw [List.any_eq_false]
  intro c hc hr
  have all : ("\"*/:<>?\\|".toList.all fun d => "<>:\"/\\|?*".toList.contains d) = true := by decide
  have same := List.all_eq_true.mp all c (List.contains_iff_mem.mp hr)
  exact folder.not_mem (List.contains_iff_mem.mp same) hc

theorem Folder.segments :
    (("sites\\".toList ++ name).map fun c => if c == '/' then '\\' else c).splitOn '\\' =
      ["sites".toList, name] := by
  have slash : ∀ c ∈ name, (if c == '/' then '\\' else c) = c := by
    intro c hc
    refine if_neg fun heq => ?_
    rw [beq_iff_eq.mp heq] at hc
    exact folder.not_mem (by decide) hc
  have same : (("sites\\".toList ++ name).map fun c => if c == '/' then '\\' else c) =
      "sites".toList ++ '\\' :: name := by
    rw [List.map_append, List.map_congr_left slash, List.map_id']
    rfl
  rw [same]
  exact splitOn_two (by decide) (folder.not_mem (by decide))

theorem Folder.uriDirectory_eq : uriDirectory ("sites\\".toList ++ name) =
    some ("sites".toList ++ '/' :: (uriEncode pathTable name ++ '/' :: [])) := by
  have plain : (["sites".toList, name].any (·.any reserved)) = false := by
    have rest := folder.not_reserved
    change (false || (name.any reserved || false)) = false
    rw [rest]
    rfl
  have last : slashTerminated ["sites".toList, name] = ["sites".toList, name, []] := by
    refine if_neg fun heq => folder.allowed.1 ?_
    exact Option.some.inj (beq_iff_eq.mp heq)
  have slash : '/' ∉ uriEncode pathTable name := not_mem_uriEncode pathTable rfl (by decide) name
  have written {t : Text} (ht : '%' ∉ t) (hne : name ≠ t) : uriEncode pathTable name ≠ t := by
    intro heq
    rcases uriEncode_cases pathTable name with ⟨_, same⟩ | escaped
    · exact hne (same.symm.trans heq)
    · exact ht (heq ▸ escaped)
  have kept := normalizeRelativePath_sites slash (written (by decide) folder.dot)
    (written (by decide) folder.dots)
  unfold uriDirectory relativeUri
  rw [folder.segments, plain, last]
  exact congrArg some kept

theorem Folder.folderName_eq : folderName ("sites\\".toList ++ name) = some (withoutMark name) := by
  have slash : '/' ∉ uriEncode pathTable name := not_mem_uriEncode pathTable rfl (by decide) name
  have read : pathSegments ("sites".toList ++ '/' :: (uriEncode pathTable name ++ '/' :: [])) =
      some ["sites".toList, withoutMark name, []] := by
    have split := splitOn_three (a := "sites".toList) (by decide) slash List.not_mem_nil
    change (List.splitOn '/' ("sites".toList ++ '/' :: (uriEncode pathTable name ++
      '/' :: []))).mapM uriDecode = _
    rw [split]
    exact mapM_three rfl (uriDecode_uriEncode pathTable name) rfl
  unfold folderName
  rw [folder.uriDirectory_eq, Option.bind_some, read]
  rfl
end

def folders (entries : List (Text × Kind)) : List Text :=
  (entries.filter fun e => e.2 == .directory).map (·.1)

theorem scanSites_cons (name : Text) (names : List Text) :
    HostsManager.scanSites (some (name :: names)) =
      if name.isEmpty then HostsManager.scanSites (some names)
      else (name ++ domainSuffix) :: HostsManager.scanSites (some names) := by
  cases name with
  | nil => rfl
  | cons c name => rfl

theorem scanSites_map_iff (f : Text → Text) {names : List Text} (h : ∀ n ∈ names, n ≠ []) :
    HostsManager.scanSites (some (names.map f)) = HostsManager.scanSites (some names) ↔
      ∀ n ∈ names, f n = n := by
  constructor
  · intro same
    rw [HostsManager.scanSites_of_ne_nil h] at same
    have count : ((names.map f).filter fun name => !name.isEmpty).length =
        (names.map f).length := by
      have lengths := congrArg List.length same
      rw [List.length_map] at lengths
      rw [List.length_map]
      exact (List.length_map _).symm.trans lengths
    have all := List.length_filter_eq_length_iff.mp count
    have nonempty : ∀ n ∈ names.map f, n ≠ [] := fun n hn => by simpa using all n hn
    rw [HostsManager.scanSites_of_ne_nil nonempty, List.map_map] at same
    exact fun n hn => List.append_cancel_right (List.map_inj_left.mp same n hn)
  · intro fixed
    rw [List.map_congr_left fixed, List.map_id']

/-- scanSites never throws on a listing, and reads every folder without its mark. -/
theorem scanEntities_list {entries : List (Text × Kind)}
    (h : ∀ name ∈ folders entries, Folder name) :
    scanEntities (list entries) =
      some (HostsManager.scanSites (some ((folders entries).map withoutMark))) := by
  induction entries with
  | nil => rfl
  | cons e entries ih =>
    obtain ⟨name, kind⟩ := e
    cases kind with
    | directory =>
      have folder : Folder name := h name List.mem_cons_self
      have rest := ih fun n hn => h n (List.mem_cons_of_mem name hn)
      change (folderName ("sites\\".toList ++ name)).bind _ = _
      rw [folder.folderName_eq, Option.bind_some]
      change (scanEntities (list entries)).map _ = _
      rw [rest, Option.map_some]
      exact congrArg some (scanSites_cons _ _).symm
    | file => exact ih h
    | link => exact ih h

theorem withoutMark_eq_iff (name : Text) :
    withoutMark name = name ↔ name.head? ≠ some byteOrderMark := by
  cases name with
  | nil => exact ⟨fun _ h => (by cases h), fun _ => rfl⟩
  | cons c rest =>
    by_cases hc : c = byteOrderMark
    · have dropped : withoutMark (c :: rest) = rest := if_pos (beq_iff_eq.mpr hc)
      rw [dropped, hc]
      refine ⟨fun heq => ?_, fun h => absurd rfl h⟩
      exact absurd (congrArg List.length heq) (by simp)
    · have kept : withoutMark (c :: rest) = c :: rest := if_neg fun h => hc (beq_iff_eq.mp h)
      exact ⟨fun _ h => hc (Option.some.inj h), fun _ => kept⟩

/-- The domains that scanSites returns are those of the folders of `sites`, in their
    order, exactly when no folder name begins with a byte order mark. -/
theorem scanEntities_folders_iff {entries : List (Text × Kind)}
    (h : ∀ name ∈ folders entries, Folder name) :
    scanEntities (list entries) = some (HostsManager.scanSites (some (folders entries))) ↔
      ∀ name ∈ folders entries, name.head? ≠ some byteOrderMark := by
  rw [scanEntities_list h, Option.some.injEq, scanSites_map_iff _ fun n hn => (h n hn).allowed.1]
  exact forall₂_congr fun name _ => withoutMark_eq_iff name

def shopEntries : List (Text × Kind) :=
  [("100% café".toList, .directory), ("index.php".toList, .file), (".git".toList, .directory)]

theorem scanEntities_shop :
    scanEntities (list shopEntries) =
      some (HostsManager.scanSites (some ["100% café".toList, ".git".toList])) := by
  have all : ∀ name ∈ folders shopEntries,
      AllowedName name ∧ name ≠ ".".toList ∧ name ≠ "..".toList := by decide +kernel
  have plain : ∀ name ∈ folders shopEntries, Folder name := by
    intro name hn
    obtain ⟨allowed, dot, dots⟩ := all name hn
    exact ⟨allowed, dot, dots⟩
  exact (scanEntities_folders_iff plain).mpr (by decide +kernel)

end Luhut.SitesDirectory
