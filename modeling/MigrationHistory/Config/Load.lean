import MigrationHistory.Config.Schema
import MigrationHistory.Toml.Document

/-!
# Loading a configuration

A configuration is read from a file that the caller names, or else from one that the
environment names, if it is there; without either it is the default. What is read must be
UTF-8, fit the format and the shape, and break no rule for values.
-/
namespace MigrationHistory

inductive ConfigError
  | unreadable
  | malformed
  | invalid (reason : String)
deriving DecidableEq, Repr

/-- The wording of a refused value. The other causes are worded by whatever reads files and
formats. -/
def ConfigError.message? : ConfigError → Option String
  | invalid reason => some ("invalid config value: " ++ reason)
  | _ => none

namespace Config

def ofText (text : String) : Except ConfigError Config :=
  match (Toml.parse? text).bind ofValue? with
  | none => .error .malformed
  | some config =>
    match config.fault? with
    | some reason => .error (.invalid reason)
    | none => .ok config

/-- A configuration with the path that it was read from. -/
structure Loaded where
  config : Config
  source : Option String
deriving DecidableEq, Repr

/-- Reads the file at a path, `contents` being what the file holds. -/
def ofFile (path : String) (contents : ByteArray) : Except ConfigError Loaded :=
  match String.fromUTF8? contents with
  | none => .error .unreadable
  | some text => (ofText text).map fun config => ⟨config, some path⟩

/-- Loads the configuration, `file?` giving the contents of the files that exist. A missing
file is an error only where the caller names it. -/
def load (file? : String → Option ByteArray) (explicit environment : Option String) :
    Except ConfigError Loaded :=
  match explicit with
  | some path =>
    match file? path with
    | some contents => ofFile path contents
    | none => .error .unreadable
  | none =>
    match environment.bind fun path => (file? path).map fun contents => (path, contents) with
    | some (path, contents) => ofFile path contents
    | none => .ok ⟨default, none⟩

end Config

end MigrationHistory
