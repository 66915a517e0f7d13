/-!
# Folders

A `Folder` holds files by their path. `Folder.follow` goes one name along a path, and `Folder.read`
gives the text of the file at its end, or the reason why it cannot be read.
-/

namespace FlatScope.CommandLine

inductive ReadFailure where
  | notFound
  | notDirectory
  | isDirectory
  | nameTooLong
  | notText
  /-- any other reason, in the words of the system -/
  | other (text : String)
deriving DecidableEq, Repr

def ReadFailure.message : ReadFailure → String
  | notFound => "No such file or directory (os error 2)"
  | notDirectory => "Not a directory (os error 20)"
  | isDirectory => "Is a directory (os error 21)"
  | nameTooLong => "File name too long (os error 36)"
  | notText => "stream did not contain valid UTF-8"
  | other text => text

/-- The text of a file, which has to be UTF-8. -/
def decodeText (bytes : ByteArray) : Except ReadFailure String :=
  match String.fromUTF8? bytes with
  | some text => .ok text
  | none => .error .notText

structure Folder where
  files : List (String × ByteArray)

namespace Folder

abbrev Name := List Char

/-- Where a path has led so far. -/
inductive Place where
  /-- the folder itself or one in it, by the names that lead there -/
  | within (names : List Name)
  /-- a folder outside -/
  | outside
  | file (bytes : ByteArray)

/-- The names on a path; a slash at the end counts as a dot. -/
def steps (path : String) : List Name :=
  let dot := if path.toList.getLast? = some '/' then [['.']] else []
  (path.toList.splitOn '/').filter (· ≠ []) ++ dot

/-- What has the given names in the folder. -/
def at? (folder : Folder) (names : List Name) : Option Place :=
  match folder.files.find? fun (name, _) => steps name = names with
  | some (_, bytes) => some (.file bytes)
  | none =>
    if folder.files.any fun (name, _) => names.isPrefixOf (steps name) then some (.within names)
    else none

/-- One name further; outside of the folder there is nothing but folders around it. -/
def follow (folder : Folder) : Place → Name → Except ReadFailure Place
  | .file _, _ => .error .notDirectory
  | place, ['.'] => .ok place
  | .outside, ['.', '.'] | .within [], ['.', '.'] => .ok .outside
  | .within names, ['.', '.'] => .ok (.within names.dropLast)
  | place, name =>
    if 255 < (String.ofList name).utf8ByteSize then .error .nameTooLong
    else match place with
      | .within names =>
        match folder.at? (names ++ [name]) with
        | some next => .ok next
        | none => .error .notFound
      | _ => .error .notFound

/-- The text at the end of a path. -/
def read (folder : Folder) (path : String) : Except ReadFailure String := do
  if 4095 < path.utf8ByteSize then throw .nameTooLong
  let start := if path.toList.head? = some '/' then Place.outside else .within []
  match ← (steps path).foldlM folder.follow start with
  | .file bytes => decodeText bytes
  | _ => throw .isDirectory

end Folder

end FlatScope.CommandLine
