import Playbook.Value

/-! Log entries: what the system tells its operator. -/

namespace Playbook

inductive Level where
  | debug
  | info
  | warn
  | error
  deriving DecidableEq, Repr

def Level.name : Level → String
  | .debug => "DEBUG"
  | .info => "INFO"
  | .warn => "WARN"
  | .error => "ERROR"

structure Origin where
  script : String
  actor : Option ActorId
  deriving DecidableEq, Repr

structure LogEntry where
  level : Level
  message : String
  origin : Option Origin
  deriving DecidableEq, Repr

namespace LogEntry

def debug (message : String) : LogEntry := { level := .debug, message, origin := none }

def info (message : String) : LogEntry := { level := .info, message, origin := none }

def warn (message : String) : LogEntry := { level := .warn, message, origin := none }

def error (message : String) : LogEntry := { level := .error, message, origin := none }

end LogEntry

def inspectActor (actor : Option ActorId) : String :=
  Text.optional (actor.map fun id => "ActorId(" ++ Number.natText id.toNat ++ ")")

end Playbook
