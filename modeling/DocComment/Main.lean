import DocComment.Command.Arguments

/-!
# The program

The outer layer: it looks at the files, runs the command and writes what the
command leaves behind.
-/

namespace DocComment

/-- Bytes as something that is found. -/
def foundBytes (bytes : ByteArray) : Found :=
  match String.fromUTF8? bytes with
  | some content => .text content.toList
  | none => .binary

/-- Look at a path.  A blocked path cannot be opened, and a directory only fails to be read. -/
def lookAt (path : Text) : IO Found := do
  match ← (IO.FS.readBinFile (String.ofList path)).toBaseIO with
  | .ok bytes => return foundBytes bytes
  | .error (.noFileOrDirectory ..) => return .nothing
  | .error (.inappropriateType (some _) ..) => return .blocked
  | .error (.inappropriateType none ..) => return .directory
  | .error error => return .refused (toString error).toList

/-- Look at the paths that a command may need. -/
def lookAtAll (paths : List Text) : IO (List (Text × Found)) :=
  paths.mapM fun path => return (path, ← lookAt path)

/-- Run the program with the words of its command line. -/
def runProgram (words : List String) : IO UInt32 := do
  match Command.Invocation.ofWords? (words.map String.toList) with
  | none =>
      (← IO.getStderr).putStr (String.ofList Command.usage)
      return 2
  | some invocation =>
      let seen ← lookAtAll (Command.paths invocation)
      let input ←
        if invocation.action.isSome && invocation.file.isNone then
          pure (foundBytes (← (← IO.getStdin).readBinToEnd))
        else pure Found.nothing
      let files : Files := fun path => (List.lookup path seen).getD .nothing
      let outcome := Command.run files input invocation
      (← IO.getStdout).putStr (String.ofList outcome.output)
      (← IO.getStderr).putStr (String.ofList outcome.errors)
      return outcome.status.toUInt32

end DocComment

/-- The program. -/
def main (words : List String) : IO UInt32 :=
  DocComment.runProgram words
