/-
# The program

Finds the files that the arguments lead to, runs, and puts down what was printed
and written. No connection is made from here: every request is left unanswered.
Audit lines are stamped with the milliseconds of the machine's clock.
-/
import Brokerage.Cli

open Brokerage

/-- The paths that a run with these arguments may read or write. -/
def pathsOf (arguments : List String) (files : FileTree) : List String :=
  match Cli.Invocation.parse arguments with
  | .command config command =>
    let plan := match command with
      | .run plan _ => [plan]
      | _ => []
    let audit := match Cli.loadConfig config files with
      | .ok config => [config.auditPath]
      | .error _ => []
    config :: plan ++ audit
  | _ => []

/-- Enters the files that are there. -/
def enterFiles (files : FileTree) (paths : List String) : IO FileTree :=
  paths.foldlM (fun (files : FileTree) (path : String) => do
    try
      let content ← IO.FS.readFile path
      return files.withFile path content
    catch _ => return files) files

def main (arguments : List String) : IO UInt32 := do
  let found ← enterFiles .empty (pathsOf arguments .empty)
  let found ← enterFiles found (pathsOf arguments found)
  let now ← IO.monoMsNow
  let outcome := Cli.run arguments ⟨found, [], toString now⟩
  for path in pathsOf arguments found do
    match outcome.files.read path with
    | .ok content =>
      if (found.read path).toOption != some content then
        let above := (Route.ofPath path).above
        if !above.isEmpty then IO.FS.createDirAll ("/".intercalate above.reverse)
        IO.FS.writeFile path content
    | .error _ => pure ()
  IO.print outcome.stdout
  IO.eprint outcome.stderr
  return outcome.exitCode.toUInt32
