import Playbook.Directory
import Playbook.Toml.Document
import Playbook.World

/-! The settings of a runner, and reading them from a document. -/

namespace Playbook

structure Settings where
  enabled : Bool
  scriptDir : Option String
  hotReload : Bool
  scanInterval : Nat
  tickInterval : Nat
  deriving DecidableEq, Repr

inductive SettingsError where
  | notFound (path : String)
  | unreadable (fault : ReadFault)
  | invalid

namespace Settings

def standard : Settings :=
  { enabled := true, scriptDir := none, hotReload := true, scanInterval := 1000,
    tickInterval := 50 }

def scriptDirIn (s : Settings) (dataDir : String) : String :=
  s.scriptDir.getD (dataDir ++ "/scripts")

open Toml (Tree Scalar Entries)

/-- The value of a setting: the default if it is not there, and nothing if it is of another
type. -/
def field {α : Type} (t : Entries) (key : String) (default : α) (read : Scalar → Option α) :
    Option α :=
  match Table.get? t key with
  | none => some default
  | some (.leaf v) => read v
  | some _ => none

def flag : Scalar → Option Bool
  | .bool b => some b
  | _ => none

def count : Scalar → Option Nat
  | .integer (.ofNat n) => some n
  | _ => none

def directory : Scalar → Option (Option String)
  | .text s => some (some s)
  | _ => none

def ofEntries? (t : Entries) : Option Settings :=
  match field t "enabled" standard.enabled flag,
    field t "script_dir" standard.scriptDir directory,
    field t "hot_reload" standard.hotReload flag,
    field t "hot_reload_interval_ms" standard.scanInterval count,
    field t "tick_interval_ms" standard.tickInterval count with
  | some enabled, some scriptDir, some hotReload, some scanInterval, some tickInterval =>
    some { enabled, scriptDir, hotReload, scanInterval, tickInterval }
  | _, _, _, _, _ => none

def parse (source : String) : Except SettingsError Settings :=
  match (Toml.read? source).bind ofEntries? with
  | some s => .ok s
  | none => .error .invalid

def load (d : Directory) (name : FileName) (w : World) : Except SettingsError Settings × World :=
  match d.read name with
  | .error .notFound => (.error (.notFound (d.pathOf name)), w)
  | .error .notADirectory => (.error (.notFound (d.pathOf name)), w)
  | .error fault => (.error (.unreadable fault), w)
  | .ok source =>
    match parse source with
    | .error e => (.error e, w)
    | .ok s => (.ok s, w.log (.info ("Loaded config from " ++ d.pathOf name)))

end Settings

def SettingsError.message : SettingsError → String
  | .notFound path => "config file not found: " ++ path
  | .unreadable fault => "IO error reading config: " ++ fault.message
  | .invalid => "failed to parse config"

end Playbook
