import MacroExpansion.CommandLine.Run

/-!
# The program

Reads the files that a command may look at, runs the command, and prints its output and the report
of a failure.
-/

namespace MacroExpansion

namespace CommandLine

/-- The paths of an expansion: its rules, its trees, its settings and its source text. -/
def ExpandOptions.paths (o : ExpandOptions) : List String :=
  o.input :: o.rules ++ o.config.toList ++ o.source.toList

/-- The paths that a command reads. -/
def Command.paths : Command → List String
  | expand options => options.paths
  | trace options => options.paths
  | check rules => rules
  | decode _ => []
  | version => []

end CommandLine

/-- Adds what there is at a path and below it.  What cannot be read is left out. -/
def addFiles (files : FileTree) (path : String) : IO FileTree := do
  try
    let root ← IO.FS.realPath path
    let below ← if ← root.isDir then root.walkDir else pure #[]
    let mut files := files
    for place in below.push root do
      let names := FileTree.namesIn place.toString
      if ← place.isDir then files := files.insert names .directory
      else
        try files := files.insert names (.file (← IO.FS.readBinFile place))
        catch _ => pure ()
    return files
  catch _ => return files

/-- The files below the working directory and below some paths. -/
def readFileTree (paths : List String) : IO FileTree := do
  let directory := (← IO.currentDir).toString
  (directory :: paths).foldlM addFiles ⟨[], FileTree.namesIn directory⟩

end MacroExpansion

open MacroExpansion in
def main (arguments : List String) : IO UInt32 := do
  let paths := ((CommandLine.parse arguments).map CommandLine.Command.paths).getD []
  -- Rule sets decide by the tree, so that every run comes to an end.
  let some ending := CommandLine.run (← readFileTree paths) arguments | return 1
  IO.print ending.output
  match ending with
  | .usage => IO.eprintln "usage: expand | trace | decode | check"
  | .ran result =>
    match result.failure with
    | some report => IO.eprintln (report.code ++ ": " ++ report.fault.display)
    | none => pure ()
  return ending.status
