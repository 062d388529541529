import ImplicitPlot.CommandLine.Run

/-
  The command line program: it reads the plot file, writes the drawing, and ends with 0 if all
  went well, with 1 if nothing was plotted and with 2 if the words were not understood.
-/
namespace ImplicitPlot.CommandLine

/-- What the file at a path holds. -/
def readContent (path : String) : IO (Except PlotFile.ReadFailure String) := do
  try return .ok (← IO.FS.readFile path)
  catch
    | .noFileOrDirectory .. => return .error .notFound
    | e => return .error (.other (toString e))

def fail (f : Failure) : IO UInt32 := do
  IO.eprintln ("Error: " ++ f.message)
  return 1

/-- Print a drawing, or write it to a file. -/
def deliver (output? : Option String) (text : String) : IO UInt32 := do
  match output? with
  | none =>
    IO.print text
    return 0
  | some path =>
    try
      IO.FS.writeFile path text
      return 0
    catch _ => fail (.writing path)

def plot (o : Options) : IO UInt32 := do
  let content ← match o.config? with
    | some path => readContent path
    | none => pure (.error .notFound)
  match o.document fun _ => content with
  | .ok text => deliver o.output? text
  | .error f => fail f

end ImplicitPlot.CommandLine

open ImplicitPlot CommandLine

/-- Do what the words of the command line ask for. -/
def main (words : List String) : IO UInt32 := do
  match Options.ofWords words with
  | .ok (.plot o) => plot o
  | .ok .help =>
    IO.print helpText
    return 0
  | .error e =>
    IO.eprintln ("error: " ++ e.message)
    return 2
