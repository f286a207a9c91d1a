import TourSearch.Command.Report

/-!
The command: it reads a file of points, looks for a shortest tour, and prints what it finds.
-/

namespace TourSearch.Command

def fileContent (path : String) : IO (Except FileTrouble String) := do
  try
    return .ok (← IO.FS.readFile path)
  catch error =>
    match error with
    | .inappropriateType none .. => return .error .directory
    | .inappropriateType .. => return .error .throughFile
    | _ => return .error .missing

/-- Prints a report; a failure goes to the error output and gives exit code 1. -/
def deliver (report : Report) : IO UInt32 := do
  report.lines.forM IO.println
  match report.ending with
  | .exit code => return code.toUInt32
  | .failed fault =>
      IO.eprintln fault.message
      return 1

def execute (arguments : List String) : IO UInt32 := do
  match parse arguments with
  | .help => return 0
  | .unusable => return 2
  | .options o =>
      match o.points with
      | none =>
          IO.eprintln "a file of points is required: --points FILE"
          return 2
      | some path => deliver (run o path (← fileContent path))

end TourSearch.Command

def main (arguments : List String) : IO UInt32 := TourSearch.Command.execute arguments
