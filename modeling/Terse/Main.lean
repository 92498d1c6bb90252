import Terse.CommandLine

/-!
# The command

Reads the files and the standard input that a command line asks for, and writes what the command
line's report says.
-/

namespace Terse.CommandLine

/-- Reads a file, if it can be read. -/
def readFile? (name : String) : IO (Option (String × String)) := do
  try
    return some (name, ← IO.FS.readFile name)
  catch _ => return none

/-- Reads a stream to its end, behind the bytes read so far. -/
partial def readBytes (stream : IO.FS.Stream) (bytes : ByteArray) : IO ByteArray := do
  let chunk ← stream.read 65536
  if chunk.isEmpty then return bytes else readBytes stream (bytes ++ chunk)

end Terse.CommandLine

open Terse.CommandLine in
/-- The command: runs, lists or packs the program that its arguments give. -/
def main (args : List String) : IO UInt32 := do
  match Arguments.parse? args with
  | none =>
    IO.eprintln
      "usage: [-f] [-p N] [-i LINE]... [-w] [-d FILE] [--tokens] [--ast] [--pack] PROGRAM"
    return 2
  | some arguments =>
    let files ← arguments.files.filterMapM readFile?
    let input ← if arguments.readsInput then readBytes (← IO.getStdin) .empty else pure .empty
    let report := arguments.report (fun name => files.lookup name) input
    IO.print report.output
    IO.eprint report.errors
    return report.status.toUInt32
