import MobileCode.Execution.Run
import MobileCode.FileTree
import MobileCode.Execution.Domain

/-! # What a server keeps outside its domain

A server looks for modules in its probe directories and keeps those it was sent in a sandbox, one
directory for each hash. It remembers with which hash it has served each module and each type, and
keeps a record of all paths it has touched.
-/
namespace MobileCode

/-- The hashes under which modules and types were asked for and found. -/
structure Versions where
  modules : Dict String := []
  types : Dict String := []
  deriving Inhabited

namespace Versions

/-- What is known of the type counts before what is known of the file. -/
def hash? (v : Versions) (type file : String) : Option String :=
  v.types.find? type <|> v.modules.find? file

def record (v : Versions) (m : LoadedModule) (type hash : String) : Versions where
  modules := v.modules.insert m.name hash
  types := if (m.code.type? type).isSome then v.types.insert type hash else v.types

end Versions

structure Storage where
  probePaths : List String := []
  sandbox : String
  disk : FileTree := {}
  /-- The paths tested, read or written, the last one first. -/
  touched : List String := []
  versions : Versions := {}
  deriving Inhabited

namespace Storage

/-- The directory of the modules with a hash. -/
def sandboxFor (s : Storage) (hash : String) : String := joinPath s.sandbox hash

def touch (path : String) : Run Storage Unit :=
  modify fun s => { s with touched := path :: s.touched }

def isFile (path : String) : Run Storage Bool := do
  touch path
  return (← get).disk.isFile path

def read (path : String) : Run Storage Bytes := do
  touch path
  match (← get).disk.read? path with
  | some bytes => return bytes
  | none => throw (.fileSystem ("cannot read " ++ path))

/-- Replaces the disk by what an operation makes of it. -/
def change (path : String) (f : FileTree → Option FileTree) : Run Storage Unit := do
  touch path
  match f (← get).disk with
  | some disk => modify fun s => { s with disk }
  | none => throw (.fileSystem ("cannot write " ++ path))

/-- Keeps a file in the directory of a hash, unless there is one of that name. -/
def keep (hash name : String) (bytes : Bytes) : Run Storage Unit := do
  let directory := (← get).sandboxFor hash
  let path := joinPath directory name
  if ← isFile path then return ()
  else
    change directory (·.createDirectories? directory)
    change path (·.write? path bytes)

end Storage
end MobileCode
