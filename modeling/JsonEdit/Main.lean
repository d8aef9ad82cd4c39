import JsonEdit.Patch.Text
import JsonEdit.Text.Blank

/-!
# The command line

`diff` prints the patch between two files. `patch` applies the patch in a file to the document on
standard input. What goes wrong is printed to standard error, and ends the program with code 1.
-/

namespace JsonEdit

inductive Command where
  | diff (source target : String)
  | patch (file : String) (mode : PatchMode)

def Command.usage : String :=
  "usage: json-edit diff <source.json> <target.json>\n" ++
    "       json-edit patch <patch.json> [strict|lenient|clobber]"

def Command.ofArguments : List String → Except String Command
  | ["diff", source, target] => .ok (.diff source target)
  | ["patch", file] => .ok (.patch file .strict)
  | ["patch", file, mode] =>
    match PatchMode.ofArgument (some mode) with
    | .ok mode => .ok (.patch file mode)
    | .error fault => .error fault.text
  | _ => .error usage

partial def readAll (input : IO.FS.Stream) (text : String) : IO String := do
  let line ← input.getLine
  if line.isEmpty then return text else readAll input (text ++ line)

def Command.run : Command → IO (Except Fault String)
  | .diff source target => return Patch.textBetween (← IO.FS.readFile source) (← IO.FS.readFile target)
  | .patch file mode => do
    let patch ← IO.FS.readFile file
    let document ← readAll (← IO.getStdin) ""
    return Patch.applyText mode (Text.trimmed document) patch

end JsonEdit

def main (arguments : List String) : IO UInt32 := do
  match JsonEdit.Command.ofArguments arguments with
  | .error message =>
    IO.eprintln message
    return 1
  | .ok command =>
    match ← command.run with
    | .ok text =>
      IO.println text
      return 0
    | .error fault =>
      IO.eprintln fault.text
      return 1
