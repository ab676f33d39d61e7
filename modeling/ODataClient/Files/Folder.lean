import ODataClient.Files.Path

/-! Folders of files that are held in memory. A path is followed from the folder segment
by segment; nothing but folders lies outside. -/

namespace ODataClient

inductive ReadFault
  | notFound
  | notAFolder
  | isAFolder
  | nameTooLong
  | nulInPath
  deriving DecidableEq

def ReadFault.text : ReadFault → String
  | notFound => "No such file or directory (os error 2)"
  | notAFolder => "Not a directory (os error 20)"
  | isAFolder => "Is a directory (os error 21)"
  | nameTooLong => "File name too long (os error 36)"
  | nulInPath => "file name contained an unexpected NUL byte"

structure Folder where
  files : List (String × String)

inductive Place
  | above (levels : Nat)
  | within (path : List String)

def Place.parent : Place → Place
  | above n => above (n + 1)
  | within [] => above 1
  | within path => within path.dropLast

namespace Folder

def names (path : String) : List String := (segments path).filter fun s => s ≠ "" ∧ s ≠ "."

def fileAt? (f : Folder) (path : List String) : Option String :=
  (f.files.find? fun file => names file.1 == path).map (·.2)

def hasFolder (f : Folder) (path : List String) : Bool :=
  f.files.any fun file => path.isPrefixOf (names file.1) && path.length < (names file.1).length

def nameLimit : Nat := 255

def follow (f : Folder) : Place → List String → Except ReadFault String
  | _, [] => .error .isAFolder
  | at', "" :: rest => follow f at' rest
  | at', "." :: rest => follow f at' rest
  | at', ".." :: rest => follow f at'.parent rest
  | .above _, name :: _ =>
    .error (if nameLimit < name.utf8ByteSize then .nameTooLong else .notFound)
  | .within path, name :: rest =>
    let path := path ++ [name]
    if nameLimit < name.utf8ByteSize then .error .nameTooLong
    else
      match f.fileAt? path with
      | some text => if rest.isEmpty then .ok text else .error .notAFolder
      | none => if f.hasFolder path then follow f (.within path) rest else .error .notFound

def read (f : Folder) (path : String) : Except ReadFault String :=
  if path.toList.contains (Char.ofNat 0) then .error .nulInPath
  else if path.isEmpty then .error .notFound
  else
    let start : Place := if isAbsolute path then .above (segments path).length else .within []
    follow f start (segments path)

end Folder

end ODataClient
