import SmaliPrune.Report

def main (args : List String) : IO UInt32 := do
  match args with
  | [] =>
    IO.eprintln "usage: simplify <smali-file>"
    return 1
  | path :: _ =>
    try
      IO.print (SmaliPrune.Report.text (← IO.FS.readFile path))
    catch e =>
      IO.println (SmaliPrune.Report.abortLine (toString e))
    return 0
