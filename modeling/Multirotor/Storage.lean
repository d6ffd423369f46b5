import Multirotor.Config.Document
import Multirotor.Description.Document

/-!
# Loading robots and configurations

A tree comes from the text of a robot description and a configuration from
the text of a document, each given as text or as a file. The file of a
description is told by its name.
-/

namespace Multirotor

inductive FileEntry where
  | missing
  | directory
  | file (content : ByteArray)

inductive FileError where
  | notFound
  | isDirectory
  | notText
  /-- There is no file of this name, or the name is not that of a description. -/
  | notDescription (name : String)

inductive LoadError (α : Type) where
  | file (cause : FileError)
  | malformed
  | model (cause : ModelError α)
  | config (cause : ConfigError α)

namespace FileError

def message : FileError → String
  | notFound => "no such file"
  | isDirectory => "is a directory"
  | notText => "is not valid UTF-8"
  | notDescription name => s!"{name} is not a urdf file"

end FileError

namespace FileEntry

def text : FileEntry → Except FileError String
  | missing => .error .notFound
  | directory => .error .isDirectory
  | file content =>
    match String.fromUTF8? content with
    | some text => .ok text
    | none => .error .notText

def isMissing : FileEntry → Bool
  | missing => true
  | _ => false

end FileEntry

namespace Tree

def ofText (text : String) : Except (LoadError Float) (Tree Float) :=
  match Description.read? text.toList with
  | some d => d.tree.mapError .model
  | none => .error .malformed

def isDescriptionName (name : String) : Bool :=
  [".urdf", ".URDF"].any fun ending => ending.toList.isSuffixOf name.toList

def ofFile (name : String) (entry : FileEntry) : Except (LoadError Float) (Tree Float) := do
  unless !entry.isMissing && isDescriptionName name do throw (.file (.notDescription name))
  ofText (← entry.text.mapError .file)

end Tree

namespace Config

def ofText (text : String) : Except (LoadError Float) (Config Float) :=
  match Toml.read? text.toList >>= ofEntries? with
  | none => .error .malformed
  | some c => do
    c.validate.mapError .config
    return c

def ofFile (entry : FileEntry) : Except (LoadError Float) (Config Float) := do
  ofText (← entry.text.mapError .file)

end Config

end Multirotor
