import Luhut.SitesCard
import Luhut.SiteNames

set_option autoImplicit false

/-! Every build of the page starts a scan and shows a progress indicator until that
scan is there. Refresh starts one scan more, whose result nobody takes. -/
namespace Luhut.SitesPage
open DartInt HostsManager LabelledRuns SiteNames
open SitesCard (Sites)

structure Card where
  folderName : Text
  domainName : Text
  url : Text
deriving DecidableEq

def buildSiteCard (domainName : Text) : Card :=
  ⟨folderName domainName, domainName, "http://".toList ++ domainName⟩

inductive Scan where
  | reading
  | returned (domains : List Text)
  | thrown
  | delivered
deriving DecidableEq

/-- What a completed scan leaves in a snapshot. -/
def Scan.data : Scan → Option (Option (List Text))
  | .returned domains => some (some domains)
  | .thrown => some none
  | _ => none

inductive Snapshot where
  | waiting
  | done (data : Option (List Text))
deriving DecidableEq

inductive Body where
  | progress
  | noSites
  | grid (cards : List Card)
deriving DecidableEq

def Snapshot.body : Snapshot → Body
  | .waiting => .progress
  | .done none => .noSites
  | .done (some []) => .noSites
  | .done (some sites) => .grid (sites.map buildSiteCard)

structure State where
  sites : Option Sites
  scans : List Scan
  subscribed : ℕ
  snapshot : Snapshot

/-- `change` is what others do to the folder `sites`. -/
inductive Action where
  | change (sites : Option Sites)
  | build
  | refresh
  | scan (i : ℕ)
  | throw (i : ℕ)
  | deliver (i : ℕ)

def State.allSites (s : State) : List Text := scanSites (s.sites.map (·.folders))

def build (s : State) : State :=
  { s with
    scans := s.scans ++ [.reading]
    subscribed := s.scans.length
    snapshot := .waiting }

def refresh (s : State) : State := build { s with scans := s.scans ++ [.reading] }

def opened (sites : Option Sites) : State := build ⟨sites, [], 0, .waiting⟩

def step (s : State) : Action → Option State
  | .change sites => some { s with sites }
  | .build => some (build s)
  | .refresh => some (refresh s)
  | .scan i =>
    if s.scans[i]? = some .reading then
      some { s with scans := s.scans.set i (.returned s.allSites) }
    else none
  | .throw i =>
    if s.scans[i]? = some .reading then some { s with scans := s.scans.set i .thrown } else none
  | .deliver i => (s.scans[i]?.bind Scan.data).map fun data => { s with
      scans := s.scans.set i .delivered
      snapshot := if i = s.subscribed then .done data else s.snapshot }

def Action.builds : Action → Bool
  | .build => true
  | .refresh => true
  | _ => false

/-- At some moment since the last build `P` held, of the state and of the actions
    that followed. -/
def Since (start : State) (as : List Action) (s : State) (P : State → List Action → Prop) : Prop :=
  ∃ before after m, as = before ++ after ∧ Runs step always start before m ∧
    Runs step always m after s ∧ (∀ a ∈ after, a.builds = false) ∧ P m after

def Listed (data : Option (List Text)) (m : State) (after : List Action) : Prop :=
  data = some m.allSites ∨ data = none ∧ ∃ i, Action.throw i ∈ after

structure Fresh (start : State) (as : List Action) (s : State) : Prop where
  bound : s.subscribed < s.scans.length
  awaited : ∀ data, s.scans[s.subscribed]?.bind Scan.data = some data →
    Since start as s (Listed data)
  shown : ∀ data, s.snapshot = .done data → Since start as s (Listed data)

section
variable {start s u : State} {as : List Action} {a : Action}

theorem Listed.snoc {data : Option (List Text)} {m : State} {after : List Action}
    (h : Listed data m after) (a : Action) : Listed data m (after ++ [a]) :=
  h.imp id fun failed => ⟨failed.1, failed.2.imp fun _ hi => List.mem_append_left _ hi⟩

theorem Since.snoc {data : Option (List Text)} (h : Since start as s (Listed data))
    (ha : a.builds = false) (hs : step s a = some u) :
    Since start (as ++ [a]) u (Listed data) := by
  obtain ⟨before, after, m, rfl, first, later, quiet, listed⟩ := h
  refine ⟨before, after ++ [a], m, List.append_assoc .., first, later.snoc trivial hs, ?_,
    listed.snoc a⟩
  intro b hb
  rcases List.mem_append.mp hb with hb | hb
  · exact quiet b hb
  · rw [List.mem_singleton.mp hb]
    exact ha

theorem since_now {data : Option (List Text)} (run : Runs step always start as s)
    (ha : a.builds = false) (hs : step s a = some u) (listed : Listed data s [a]) :
    Since start (as ++ [a]) u (Listed data) := by
  refine ⟨as, [a], s, rfl, run, .single trivial hs, fun b hb => ?_, listed⟩
  rw [List.mem_singleton.mp hb]
  exact ha

theorem fresh_build (s : State) : Fresh start as (build s) := by
  refine ⟨?_, fun data hd => ?_, fun data hd => (by cases hd)⟩
  · change s.scans.length < (s.scans ++ [Scan.reading]).length
    simp
  · have reading : (s.scans ++ [Scan.reading])[s.scans.length]? = some .reading :=
      List.getElem?_concat_length
    change (s.scans ++ [Scan.reading])[s.scans.length]?.bind Scan.data = some data at hd
    rw [reading] at hd
    cases hd

theorem fresh_end {i : ℕ} {scan : Scan} {snapshot : Snapshot} (run : Runs step always start as s)
    (fresh : Fresh start as s) (ha : a.builds = false)
    (hs : step s a = some { s with scans := s.scans.set i scan, snapshot := snapshot })
    (listed : ∀ data, scan.data = some data → Listed data s [a])
    (shown : ∀ data, snapshot = .done data → s.snapshot = .done data ∨
      s.scans[s.subscribed]?.bind Scan.data = some data) :
    Fresh start (as ++ [a]) { s with scans := s.scans.set i scan, snapshot := snapshot } := by
  refine ⟨?_, fun data hd => ?_, fun data hd => ?_⟩
  · change s.subscribed < (s.scans.set i scan).length
    rw [List.length_set]
    exact fresh.bound
  · change (s.scans.set i scan)[s.subscribed]?.bind Scan.data = some data at hd
    by_cases hi : i = s.subscribed
    · rw [hi, List.getElem?_set_self fresh.bound] at hd
      exact since_now run ha hs (listed data hd)
    · rw [List.getElem?_set_ne hi] at hd
      exact (fresh.awaited data hd).snoc ha hs
  · rcases shown data hd with old | awaited
    · exact (fresh.shown data old).snoc ha hs
    · exact (fresh.awaited data awaited).snoc ha hs

theorem fresh_step (run : Runs step always start as s) (fresh : Fresh start as s)
    (h : step s a = some u) : Fresh start (as ++ [a]) u := by
  cases a with
  | change sites =>
    have hs := h
    cases h
    exact ⟨fresh.bound, fun data hd => (fresh.awaited data hd).snoc rfl hs,
      fun data hd => (fresh.shown data hd).snoc rfl hs⟩
  | build =>
    cases h
    exact fresh_build s
  | refresh =>
    cases h
    exact fresh_build _
  | scan i =>
    have hs := h
    simp only [step] at h
    split at h
    · cases h
      refine fresh_end run fresh rfl hs (fun data hd => ?_) fun data hd => Or.inl hd
      cases hd
      exact Or.inl rfl
    · cases h
  | throw i =>
    have hs := h
    simp only [step] at h
    split at h
    · cases h
      refine fresh_end run fresh rfl hs (fun data hd => ?_) fun data hd => Or.inl hd
      cases hd
      exact Or.inr ⟨rfl, i, List.mem_singleton_self _⟩
    · cases h
  | deliver i =>
    have hs := h
    obtain ⟨data, hd, hu⟩ := Option.map_eq_some_iff.mp h
    subst hu
    refine fresh_end run fresh rfl hs (fun other ho => (by cases ho)) fun other ho => ?_
    split at ho
    · next hi =>
      cases ho
      exact Or.inr (hi ▸ hd)
    · exact Or.inl ho

theorem fresh_run {sites : Option Sites} (run : Runs step always (opened sites) as s) :
    Fresh (opened sites) as s :=
  run.history (fresh_build _) fun _ _ _ _ first fresh _ h => fresh_step first fresh h
end

/-- In every run the cards are those of one listing of the folder since the last
    build, whatever the scans of earlier builds return, and the page says that there
    are no sites only after an empty listing or a failed scan since then. -/
theorem shows_last_build {sites : Option Sites} {as : List Action} {s : State}
    (run : Runs step always (opened sites) as s) :
    (∀ cards, s.snapshot.body = .grid cards →
      Since (opened sites) as s fun m _ => cards = m.allSites.map buildSiteCard) ∧
    (s.snapshot.body = .noSites →
      Since (opened sites) as s fun m after => m.allSites = [] ∨ ∃ i, .throw i ∈ after) := by
  have fresh := fresh_run run
  have done : ∀ {data : Option (List Text)} {P : State → List Action → Prop},
      s.snapshot = .done data → (∀ m after, Listed data m after → P m after) →
      Since (opened sites) as s P := by
    intro data P hd hP
    obtain ⟨before, after, m, split, first, later, quiet, listed⟩ := fresh.shown data hd
    exact ⟨before, after, m, split, first, later, quiet, hP m after listed⟩
  cases hs : s.snapshot with
  | waiting => exact ⟨fun _ hc => (by cases hc), fun none => (by cases none)⟩
  | done data =>
    cases data with
    | none =>
      refine ⟨fun _ hc => (by cases hc), fun _ => done hs fun m after listed => ?_⟩
      rcases listed with full | ⟨_, failed⟩
      · cases full
      · exact Or.inr failed
    | some domains =>
      cases domains with
      | nil =>
        refine ⟨fun _ hc => (by cases hc), fun _ => done hs fun m after listed => ?_⟩
        rcases listed with full | ⟨failed, _⟩
        · exact Or.inl (Option.some.inj full).symm
        · cases failed
      | cons d domains =>
        refine ⟨fun cards hc => ?_, fun none => (by cases none)⟩
        have same : (d :: domains).map buildSiteCard = cards := Body.grid.inj hc
        refine done hs fun m after listed => ?_
        rcases listed with full | ⟨failed, _⟩
        · rw [← same, Option.some.inj full]
        · cases failed

theorem shows_last_build_refresh : ∃ s,
    Runs step always (opened none) [.scan 0, .change (some ⟨["shop".toList], by decide,
      by decide +kernel⟩), .refresh, .scan 2, .deliver 2, .deliver 0] s ∧
      s.snapshot.body = .grid [buildSiteCard "shop.test".toList] ∧
      Since (opened none) [.scan 0, .change (some ⟨["shop".toList], by decide,
        by decide +kernel⟩), .refresh, .scan 2, .deliver 2, .deliver 0] s fun m _ =>
          [buildSiteCard "shop.test".toList] = m.allSites.map buildSiteCard := by
  have run := exec_runs step (opened none) _ [.scan 0, .change (some ⟨["shop".toList], by decide,
    by decide +kernel⟩), .refresh, .scan 2, .deliver 2, .deliver 0] rfl
  exact ⟨_, run, rfl, (shows_last_build run).1 _ rfl⟩

end Luhut.SitesPage
