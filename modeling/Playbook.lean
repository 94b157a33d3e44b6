import Playbook.LogFile
import Playbook.Probe
import Playbook.Proofs.FlatMachine
import Playbook.Proofs.Loops
import Playbook.Proofs.Sources
import Playbook.Proofs.Termination
import Playbook.Runner
import Playbook.Session
import Playbook.Proofs.Timelines
import Playbook.Proofs.Cursor
import Playbook.Proofs.Lockstep
import Playbook.Proofs.Repeats
import Playbook.Proofs.Isolation
import Playbook.Proofs.Disposal
import Playbook.Proofs.Blocks
import Playbook.Proofs.HotReload
import Playbook.Proofs.Outcomes
import Playbook.Proofs.Lending
import Playbook.Proofs.ScriptNames
import Playbook.Proofs.Targets
import Playbook.Proofs.Recompiling
import Playbook.Proofs.Contents
import Playbook.Proofs.Scopes
import Playbook.Proofs.Independence
import Playbook.Proofs.Acceptance
import Playbook.Proofs.Pacing
import Playbook.Proofs.Verdicts
import Playbook.Proofs.Culprits
import Playbook.Proofs.Surfacing
import Playbook.Proofs.Literals
import Playbook.Proofs.Rereading
import Playbook.Proofs.Grammar
import Playbook.Proofs.Spacing
import Playbook.Proofs.Typing
import Playbook.Proofs.Storing
import Playbook.Proofs.Integers
import Playbook.Proofs.Registrations
import Playbook.Proofs.Scans
import Playbook.Proofs.Doubles
import Playbook.Proofs.Equality
