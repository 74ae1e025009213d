import Mathlib.Logic.Basic

/-! The files of a `FileStream` (`stream/file.mbt`), and their relative paths.

A path is taken apart as a text, without being normalized: two paths that lead to one
place need not have the same relative path. -/
namespace Mulp.Stream

/-- `FileContents`, over the type `β` of byte streams. -/
inductive FileContents (β : Type) where
  | empty
  | text (text : String)
  | buffer (bytes : List UInt8)
  | bytes (stream : β)
  | directory
  | symlink (target : String)

structure File (β : Type) where
  cwd : String
  base : String
  path : String
  contents : FileContents β
  metadata : List (String × String)
  sourceMap : Option String

def trimLeadingSlash (path : String) : String :=
  match path.toList with
  | '/' :: rest => String.ofList rest
  | _ => path

def pathIsInsideBase (path base : String) : Bool :=
  path == base || (base ++ "/").toList.isPrefixOf path.toList

def File.relativePath {β : Type} (self : File β) : String :=
  if pathIsInsideBase self.path self.base then
    trimLeadingSlash (String.ofList (self.path.toList.drop self.base.length))
  else self.path

end Mulp.Stream
