import Chronicle.CommandLine.Report
import Chronicle.StoreFile

/-!
# The inspector program

Reads a store file from the database directory, runs one command on it and prints the result.
A directory without a store file is an empty store.
-/
namespace Chronicle

def storeFileName : String := "store.bin"

def openStore (path : String) : IO KeySpace := do
  let bytes ←
    try IO.FS.readBinFile (path ++ "/" ++ storeFileName)
    catch
      | .noFileOrDirectory .. => return KeySpace.empty
      | fault => throw fault
  match StoreFile.decode bytes.toList with
  | .ok keys => return keys
  | .error cause => throw (IO.userError cause.message)

def runCommand (path : String) (command : CommandLine.Command) : IO UInt32 := do
  let transcript := CommandLine.run path (← openStore path) command
  IO.print transcript.printed
  match transcript.failure with
  | some failure => IO.eprint failure.text
  | none => pure ()
  return UInt32.ofNat transcript.code

def runRequest : CommandLine.Request → IO UInt32
  | .run path command => runCommand path command
  | .print text => do
    IO.print text
    return 0
  | .usage => do
    IO.eprintln "error: the arguments cannot be read; try '--help'"
    return UInt32.ofNat CommandLine.usageCode

end Chronicle

def main (args : List String) : IO UInt32 :=
  Chronicle.runRequest (Chronicle.CommandLine.Request.parse args)
