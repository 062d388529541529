import ImplicitPlot.CommandLine.Options
import ImplicitPlot.PlotFile.Drawing

/-
  What a command line makes: the text of a drawing, or the reason why there is none.

  Options count more than the plot file, and their relations come after those of the file.
-/
namespace ImplicitPlot.CommandLine

/-- Why nothing was plotted. -/
inductive Failure where
  | loading (path : String)
  | plot (f : PlotFile.Failure)
  | writing (path : String)

def Failure.message : Failure → String
  | loading path => "loading plot file " ++ path
  | plot f => f.message
  | writing path => "writing " ++ path

namespace Options

/-- The plot file that is asked for, or the default one. -/
def file (o : Options) (content : String → Except PlotFile.ReadFailure String) :
    Except Failure PlotFile :=
  match o.config? with
  | none => .ok .default
  | some path => (PlotFile.ofContent path (content path)).mapError fun _ => .loading path

/-- The drawing that is asked for, as text; `content` is what the file at a path holds. -/
def document (o : Options) (content : String → Except PlotFile.ReadFailure String) :
    Except Failure String := do
  let file ← o.file content
  let drawing ← ((o.override file).draw o.withGrid).mapError .plot
  return drawing.text

end Options

/-- What is printed when help is asked for. -/
def helpText : String :=
  "Plot implicit relations such as 'x^2 + y^2 = 25' to SVG\n\n" ++
  "Usage: relplot [OPTIONS] [RELATIONS]...\n\n" ++
  "Arguments:\n" ++
  "  [RELATIONS]...  Relations to plot, e.g. \"y = sin(x)\" or \"x^2 + y^2 < 9\"\n\n" ++
  "Options:\n" ++
  "      --config <CONFIG>  " ++
    "Plot file (YAML) with view, size, sampler settings and relations\n" ++
  "      --view <VIEW>      Visible range as XMIN,XMAX,YMIN,YMAX\n" ++
  "      --width <WIDTH>    Plot width in pixels\n" ++
  "      --height <HEIGHT>  Plot height in pixels\n" ++
  "      --grid             Draw coordinate grid lines and labels\n" ++
  "  -o, --output <OUTPUT>  Output file (stdout when omitted)\n" ++
  "  -h, --help             Print help\n"

end ImplicitPlot.CommandLine
