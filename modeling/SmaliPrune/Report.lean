import SmaliPrune.Graph.Explore
import SmaliPrune.Instr.Printer
import SmaliPrune.Prune.Pass
import SmaliPrune.Source.ClassFile

namespace SmaliPrune.Report

def padLeft (width : Nat) (s : String) : String := String.ofList (List.replicate (width - s.length) ' ') ++ s

def instrLine (i : Instr) : String := "  " ++ padLeft 4 (toString i.address) ++ ": " ++ i.text

def methodLines (before : Nat) (m : Method) : List String :=
  ["",m.descriptor ++ " (" ++ toString before ++ " -> " ++ toString m.code.length ++ " instructions)"] ++
    m.code.map instrLine

def countLine (entry : String × Nat) : String := padLeft 16 entry.1 ++ ": " ++ toString entry.2

-- Works through the methods with one optimizer and one hierarchy. Methods that change are
-- listed; the first that cannot be executed ends the work.
def work (limits : Limits) : List Method → Hierarchy → Optimizer → List String × Checked Optimizer
  | [],_,o => ([],.ok o)
  | m :: rest,h,o =>
    match m.execute limits h with
    | (.error f,_) => ([],.error f)
    | (.ok graph,h) =>
      let (changed,o,t) := o.simplify ⟨m,graph⟩
      let (lines,result) := work limits rest h o
      ((if changed then methodLines m.code.length t.method else []) ++ lines,result)

def classLines (c : Source.ClassFile) : List String × Checked Unit :=
  let (lines,result) := work {} c.methods ((Hierarchy.fresh .standard).add c.head) {}
  let heading := c.head.name ++ ": " ++ toString c.methods.length ++ " methods with code"
  match result with
  | .error f => (heading :: lines,.error f)
  | .ok o => (heading :: lines ++ "" :: o.counts.map countLine,.ok ())

def abortLine (reason : String) : String := "Aborted due to error: " ++ reason

def lines (text : String) : List String :=
  match Source.classFile text.toList with
  | .error f => [abortLine f.outline]
  | .ok c =>
    match classLines c with
    | (lines,.error f) => lines ++ [abortLine f.outline]
    | (lines,.ok _) => lines ++ ["All done"]

def text (source : String) : String := String.join ((lines source).map fun l => l ++ "\n")

end SmaliPrune.Report
