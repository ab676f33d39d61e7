import ODataClient.Text.Parts

/-! Paths of files. -/

namespace ODataClient

def stripReversed : List Char → List Char
  | '/' :: r => stripReversed r
  | '.' :: '/' :: r => stripReversed r
  | s => s

def isAbsolute (path : String) : Bool := path.toList.head? == some '/'

def folderOf (path : String) : String :=
  let folder := stripReversed (path.toList.reverse.dropWhile (· != '/'))
  if folder.isEmpty && isAbsolute path then "/" else String.ofList folder.reverse

def pathFrom (folder path : String) : String :=
  if isAbsolute path || folder.isEmpty then path
  else if folder.toList.getLast? = some '/' then folder ++ path
  else folder ++ "/" ++ path

end ODataClient
