import Playbook.Error

/-! What a handler says when it is done, and how a run ends. -/

namespace Playbook

/-- The answer of a handler. Stopping ends the run, and disposing releases the context with it;
without stopping, success moves on to the next action. -/
structure Flags where
  success : Bool
  stop : Bool
  dispose : Bool
  deriving DecidableEq, Repr

namespace Flags

def proceed : Flags := { success := true, stop := false, dispose := false }

def halt : Flags := { success := false, stop := true, dispose := true }

def pause : Flags := { success := false, stop := true, dispose := false }

def toBits (f : Flags) : Nat :=
  (if f.success then 1 else 0) + (if f.stop then 2 else 0) + (if f.dispose then 4 else 0)

def ofBits (n : Nat) : Flags :=
  { success := n % 2 = 1, stop := n / 2 % 2 = 1, dispose := n / 4 % 2 = 1 }

def names (f : Flags) : List String :=
  (if f.success then ["SUCCESS"] else []) ++ (if f.stop then ["STOP"] else []) ++
    (if f.dispose then ["DISPOSE"] else [])

def inspect (f : Flags) : String :=
  let shown := if f.names.isEmpty then "0x0" else String.intercalate " | " f.names
  "ResultFlags(" ++ shown ++ ")"

end Flags

inductive Outcome where
  | completed
  | stopped
  | suspended
  | disposed
  | failed (e : RuntimeError)
  deriving DecidableEq, Repr

end Playbook
