import Luhut.HostsManager
import Luhut.WindowsArguments
import Luhut.PowerShellWords

set_option autoImplicit false

/-! The path of the script goes through two command lines and a PowerShell string
before the elevated PowerShell has it. -/
namespace Luhut.HostsManager
open DartInt WindowsArguments

section
variable (split : Text → List Text) (powershell : List Text → Option (List Text))
  (startProcess : List Text → Option Text)

end

end Luhut.HostsManager
