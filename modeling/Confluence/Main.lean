import Confluence.Cli

/-!
# The program

Reads the configuration file, if the command line names one, and prints what the command leaves
behind.
-/

namespace Confluence.Cli

/-- The content of a file, or the reason why it cannot be read. -/
def readFile (path : String) : IO (Except String ByteArray) := do
  match ← (IO.FS.readBinFile path).toBaseIO with
  | .ok content => return .ok content
  | .error (.noFileOrDirectory ..) => return .error "No such file or directory (os error 2)"
  | .error e => return .error (toString e)

end Confluence.Cli

open Confluence

/-- The program: exits with the code of the outcome. -/
def main (arguments : List String) : IO UInt32 := do
  let outcome ← match Cli.parse false arguments with
    | none => pure (Cli.run (fun _ => .error "") arguments)
    | some i =>
      match i.options.config with
      | none => pure (i.execute fun _ => .error "")
      | some path =>
        let content ← Cli.readFile path
        pure (i.execute fun _ => content)
  IO.print outcome.stdout
  IO.eprint outcome.stderr
  return UInt32.ofNat outcome.code
