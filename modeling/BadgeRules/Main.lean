import BadgeRules.Command.Run

/-!
# The command line

Reads and writes the disk, prints, and ends with the status of the command.
-/

namespace BadgeRules

def fileError (e : IO.Error) : FileError :=
  match e with
  | .noFileOrDirectory .. => .notFound
  | .inappropriateType _ 20 _ => .notDirectory
  | .inappropriateType _ 21 _ => .isDirectory
  | e => .other (toString e)

def disk : Storage IO where
  read path := do
    match ← (IO.FS.readBinFile path).toBaseIO with
    | .ok bytes =>
      match String.fromUTF8? bytes with
      | some text => return .ok text
      | none => return .error .notText
    | .error e => return .error (fileError e)
  write path text := do
    match ← (IO.FS.writeFile path text).toBaseIO with
    | .ok () => return .ok ()
    | .error e => return .error (fileError e)

def usage : String :=
  "Usage: badge-rules [-v] <command>\n\n" ++
  "  compile <canvas> --id <id> --name <name> [--description <text>] [-o <file>]\n" ++
  "  expand <rule> [--layout-config <file>] [-o <file>]\n" ++
  "  validate <rule>\n" ++
  "  connect <canvas> --source <id> --target <id>"

def printEvent (e : Event) : IO Unit :=
  IO.eprintln (" ".intercalate
    (e.level.name :: e.message :: e.fields.map fun (name, value) => name ++ "=" ++ value))

end BadgeRules

open BadgeRules

def main (args : List String) : IO UInt32 := do
  match Command.parse? {} args with
  | none =>
    IO.eprintln usage
    return 2
  | some (verbose, command) =>
    let (status, printed) ← command.run disk
    for e in printed.events do
      if verbose || e.level == .warn then printEvent e
    IO.eprint printed.err
    IO.print printed.out
    return status
