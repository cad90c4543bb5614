import MobileCode.Digest
import MobileCode.Duration
import MobileCode.FileTree

/-! # Settings -/
namespace MobileCode

structure ClientSettings where
  enabled : Bool := true
  defaultEndpoint : Option String := none
  timeout : Duration := Duration.ofMillis 60000
  pollInterval : Duration := Duration.ofMillis 250
  digest : DigestAlgorithm := .sha1
  /-- The type of the parameters that hold endpoints. -/
  addressType : Option String := none
  deriving DecidableEq, Inhabited

/-- A timeout of zero is none. -/
def ClientSettings.deadline (c : ClientSettings) : Option Duration :=
  if c.timeout.nanos = 0 then none else some c.timeout

structure ServerSettings where
  probePaths : List String := []
  /-- Without one, a directory that depends on the machine. -/
  sandbox : Option String := none
  maxDepth : Nat := 256
  deriving DecidableEq, Inhabited

/-- The directory of the modules with a hash. -/
def ServerSettings.sandboxFor? (s : ServerSettings) (hash : String) : Option String :=
  s.sandbox.map (joinPath · hash)

structure Settings where
  client : ClientSettings := {}
  server : ServerSettings := {}
  deriving DecidableEq, Inhabited

namespace Settings

/-- All methods run where they are called. -/
def disabled : Settings where
  client := { enabled := false }

/-- Calls go to one server in the same process. -/
def loopback : Settings where
  client := { defaultEndpoint := some "loopback", timeout := Duration.ofMillis 5000 }

end Settings
end MobileCode
