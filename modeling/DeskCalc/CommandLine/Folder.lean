import DeskCalc.CommandLine.Execution

/-!
# Folders

A working directory that holds plain files and no directories, as the command line sees it: what a
path relative to it stands for.
-/

namespace DeskCalc.CommandLine

structure Folder where
  files : List (String × ByteArray)

namespace Folder

def missingMessage : String := "No such file or directory (os error 2)"

def notDirectoryMessage : String := "Not a directory (os error 20)"

/-- The message where a path, or a part of it, is longer than the machine allows. -/
def tooLongMessage : String := "File name too long (os error 36)"

def directoryMessage : String := "Is a directory (os error 21)"

/-- A directory can be opened, but not read. -/
def directory : LineSource := .failing "" directoryMessage

/-- Does a part of a path lead from a directory to itself or to the one above it? -/
def isStep (part : List Char) : Bool := part == [] || part == ['.'] || part == ['.', '.']

def longestPart : Nat := 255

def longestPath : Nat := 4095

/-- The message for a part of a path that is not found in a directory. -/
def absenceMessage (part : List Char) : String :=
  if longestPart < (String.ofList part).utf8ByteSize then tooLongMessage else missingMessage

/-- What the rest of a path stands for, outside of the directory: nothing is known of files
there. -/
def outside (parts : List (List Char)) : Except String LineSource :=
  match parts.find? fun part => !isStep part with
  | none => .ok directory
  | some part => .error (absenceMessage part)

/-- What the rest of a path stands for, which leads on from the directory. -/
def follow (folder : Folder) : List (List Char) → Except String LineSource
  | [] => .ok directory
  | part :: parts =>
    if part = ['.', '.'] then outside parts
    else if part = [] ∨ part = ['.'] then follow folder parts
    else
      match folder.files.lookup (String.ofList part) with
      | none => .error (absenceMessage part)
      | some bytes =>
        if parts = [] then .ok { LineSource.ofBytes bytes with owned := true }
        else .error notDirectoryMessage

/--
What a path stands for. Its length is looked at first. A path that starts at the root leads out of
the directory.
-/
def open? (folder : Folder) (path : String) : Except String LineSource :=
  if longestPath < path.utf8ByteSize then .error tooLongMessage
  else
    match path.toList with
    | [] => .error missingMessage
    | '/' :: rest => outside (rest.splitOn '/')
    | chars => folder.follow (chars.splitOn '/')

end Folder

end DeskCalc.CommandLine
