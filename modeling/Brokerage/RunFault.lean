/-
# What ends a run early

Key definitions: `RunFault`, `RunFault.message`, `RunFault.exitCode`.
-/
import Brokerage.Audit
import Brokerage.Config

namespace Brokerage

inductive RunFault where
  | configFile (path : String) (fault : FileFault)
  | config (error : ConfigError)
  | planFile (path : String) (fault : FileFault)
  | plan (fault : PlanFault)
  /-- The address of the service is of another scheme. -/
  | address (url : String)
  | broker (fault : BrokerFault Float)
  | audit (fault : AuditFault)

namespace RunFault

def message : RunFault → String
  | .configFile path fault => "failed to read config file " ++ path ++ ": " ++ fault.message
  | .config error => error.message
  | .planFile path fault => "failed to read plan file " ++ path ++ ": " ++ fault.message
  | .plan fault => fault.message
  | .address url => "service client error: invalid service url: " ++ url
  | .broker fault => fault.message
  | .audit fault => "audit log error: " ++ fault.message

/-- The run stopped because a fill would have overdrawn the cash. -/
def isInsolvency : RunFault → Bool
  | .broker (.insolvent _) => true
  | _ => false

/-- A run that overdrew its cash is told apart from other failures. -/
def exitCode (fault : RunFault) : Nat :=
  if fault.isInsolvency then 2 else 1

end RunFault
end Brokerage
