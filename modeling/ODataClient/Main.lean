import ODataClient.CommandLine.Program
import ODataClient.Files.Folder

/-! The program with the files, the environment and the streams of its process. -/

open ODataClient

def diskFaultText : IO.Error → String
  | .noFileOrDirectory .. => ReadFault.notFound.text
  | .inappropriateType _ 21 _ => ReadFault.isAFolder.text
  | .inappropriateType .. => ReadFault.notAFolder.text
  | .permissionDenied .. => "Permission denied (os error 13)"
  | .userError _ => "stream did not contain valid UTF-8"
  | e => toString e

def readDisk : FileReader IO := fun path => do
  match ← (IO.FS.readFile path).toBaseIO with
  | .ok text => return .ok text
  | .error e => return .error (diskFaultText e)

def main (arguments : List String) : IO UInt32 := do
  let config ← IO.getEnv "ODQ_CONFIG"
  let outcome ← runProgram readDisk config arguments
  IO.print outcome.standardOutput
  IO.eprint outcome.standardError
  return outcome.exitCode
