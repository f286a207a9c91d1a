import TourSearch.Command.Arguments
import TourSearch.Tour.Distance
import TourSearch.Tour.Points
import TourSearch.Tour.Solve

/-!
What the command prints: a heading, the instance, the settings with the progress of the search, and
the results.
-/

namespace TourSearch.Command

open Numeric

inductive FileTrouble where
  | missing
  | directory
  /-- The path goes on behind the name of a file. -/
  | throughFile
  deriving DecidableEq, Repr

def FileTrouble.message (path : String) : FileTrouble → String
  | .missing => "[Errno 2] No such file or directory: " ++ Text.quoted path
  | .throughFile => "[Errno 20] Not a directory: " ++ Text.quoted path
  | .directory => "[Errno 21] Is a directory: " ++ Text.quoted path

inductive Ending where
  | exit (code : Nat)
  | failed (fault : Fault)

/-- The printed lines and the ending. -/
structure Report where
  lines : List String
  ending : Ending

def ruled (mark : Char) (width : Nat) (title : String) : List String :=
  let rule := "".pushn mark width
  ["", rule, " " ++ title, rule]

def heading (title : String) : List String := ruled '=' 70 title

def subheading (title : String) : List String := ruled '-' 50 title

def baseName (path : String) : String :=
  String.ofList (path.toList.reverse.takeWhile (· != '/')).reverse

def opening : List String := heading "TSP Branch-and-Cut Solver" ++ subheading "Instance"

def tourConfig (o : Options) : TourConfig Float where
  maxTime := o.maxTime
  maxNodes := o.maxNodes
  nodeSelection := o.nodeSelection
  cutMode := o.cutMode
  maxCutsPerRound := o.maxCuts
  minCut := o.minCut
  verbose := true

def instanceLines (t : Instance Float) : List String :=
  ["Instance: " ++ t.name, "  Cities: " ++ toString t.cityCount,
    "  Edges: " ++ toString t.pairs.length]

def configLines (o : Options) : List String :=
  subheading "Branch-and-Cut" ++
    ["Config: selection=" ++ o.nodeSelection ++ ", cut_mode=" ++ o.cutMode ++ ", min_cut=" ++
        o.minCut,
      ""]

def amount (x : Float) : String := fixed 4 (Reading.ofFloat x)

def seconds (x : Float) : String := fixed 2 (Reading.ofFloat x) ++ "s"

def resultLines (s : TourSolution Float) : List String :=
  subheading "Results" ++
    ["  Status: " ++ s.found.status.name,
      "  Tour length: " ++ amount s.cost,
      "  Lower bound: " ++ amount s.found.lower,
      "  Gap: " ++ amount (s.found.gap * 100.0) ++ "%",
      "  Nodes explored: " ++ toString s.found.nodesExplored,
      "  Cuts added: " ++ toString s.found.cutsAdded,
      "  Time in LP: " ++ seconds s.found.relaxationTime,
      "  Time in separation: " ++ seconds s.found.separationTime,
      "  Total time: " ++ seconds s.found.totalTime] ++
    if s.tour.isEmpty then []
    else ["", "Tour: [" ++ ", ".intercalate (s.tour.map toString) ++ "]"]

def solvePoints (o : Options) (path text : String) : Report :=
  match readPoints text with
  | .error fault => ⟨opening, .failed fault⟩
  | .ok points =>
      match Instance.ofPoints (points.map fun (x, y) => [x, y]) (baseName path) with
      | .error fault => ⟨opening, .failed fault⟩
      | .ok t =>
          let before := opening ++ instanceLines t ++ configLines o
          let (result, printed) := t.solve (tourConfig o)
          match result with
          | .error fault => ⟨before ++ printed, .failed fault⟩
          | .ok solution => ⟨before ++ printed ++ resultLines solution, .exit 0⟩

def run (o : Options) (path : String) (content : Except FileTrouble String) : Report :=
  match content with
  | .error trouble => ⟨opening ++ ["ERROR loading points: " ++ trouble.message path], .exit 1⟩
  | .ok text => solvePoints o path text

end TourSearch.Command
