import Luhut.SiteReach
import Luhut.SitesDirectory
import Luhut.SitesPage

set_option autoImplicit false

/-! What scanSites reads from a listing becomes the cards of the sites page, and Fix All
registers it. A card works for a folder when it shows and opens the folder and its
domain reaches the folder. -/
namespace Luhut.SiteCards
open DartInt HostsFile HostsManager SitesDirectory SiteReach UriComponent
open FixAllRounds (fixed)
open SitesPage (Card buildSiteCard)
open SiteNames (openFolder sitesRoot)

structure State where
  hosts : Text
  entries : List (Text × Kind)

inductive Event where
  | listing (entries : List (Text × Kind))
  | fixAll

def next (s : State) : Event → State
  | .listing entries => { s with entries }
  | .fixAll => { s with hosts := ((scanEntities (list s.entries)).map fun domains =>
      fixed s.hosts (getMissingDomains (readHosts (some s.hosts)) domains)).getD s.hosts }

def run (s : State) (events : List Event) : State := events.foldl next s

/-- A folder whose name can stand in the hosts file. -/
structure Site (name : Text) : Prop where
  folder : Folder name
  field : FieldText (withoutMark name)

def Listing (entries : List (Text × Kind)) : Prop := ∀ name ∈ folders entries, Site name

def names (entries : List (Text × Kind)) : List Text := (folders entries).map withoutMark

theorem Listing.scan {entries : List (Text × Kind)} (h : Listing entries) :
    scanEntities (list entries) = some (scanSites (some (names entries))) :=
  scanEntities_list fun name hn => (h name hn).folder

theorem Listing.fields {entries : List (Text × Kind)} (h : Listing entries) :
    ∀ n ∈ names entries, FieldText n := by
  intro n hn
  obtain ⟨name, hm, rfl⟩ := List.mem_map.mp hn
  exact (h name hm).field

end Luhut.SiteCards
