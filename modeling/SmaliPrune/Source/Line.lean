import SmaliPrune.Source.Instruction

namespace SmaliPrune.Source
open Text

inductive Scan where
  | code | string | escaped
  deriving DecidableEq, Repr

def Scan.after : Scan → Char → Scan
  | .escaped,_ => .string
  | .string,'\\' => .escaped
  | .string,'"' => .code
  | .string,_ => .string
  | .code,'"' => .string
  | .code,_ => .code

def beforeComment : Scan → List Char → List Char
  | _,[] => []
  | scan,c :: rest => if scan == .code && c == '#' then [] else c :: beforeComment (scan.after c) rest

def bare (line : List Char) : List Char := trim (beforeComment .code line)

structure Catch where
  type : Option String
  first : String
  stop : String
  handler : String
  deriving DecidableEq, Repr

def readCatchHead (s : List Char) : Reading (Option String) :=
  match after? ".catchall".toList s with
  | some rest => .got none rest
  | none =>
    match after? ".catch".toList s with
    | some (c :: rest) =>
      if isGap c then
        let rest := skipGaps rest
        let type := rest.takeWhile fun c => !isBlank c
        if type.isEmpty then .miss else .got (some (String.ofList type)) (rest.drop type.length)
      else .miss
    | _ => .miss

def catch? (line : List Char) : Option Catch :=
  Reading.whole? <|
  (readCatchHead line).andThen fun type s =>
  (readOpen (skipGaps s)).andThen fun _ s =>
  (readLabel s).andThen fun first s =>
  (readDots s).andThen fun _ s =>
  (readLabel s).andThen fun stop s =>
  (readClose s).andThen fun _ s =>
  (readLabel (skipGaps s)).map fun handler => ⟨type,first,stop,handler⟩

inductive Line where
  | methodEnd
  | registers (count : List Char)
  | locals (count : List Char)
  | remark
  | payload
  | guard (text : List Char)
  | directive
  | label (name : String)
  | instruction (text : List Char)
  deriving DecidableEq, Repr

def startsWith (head : String) (line : List Char) : Bool := head.toList.isPrefixOf line

-- The tests are made in this order: `.locals` before the directives that say nothing,
-- `.end method` before all.
def classify (line : List Char) : Line :=
  if startsWith ".end method" line then .methodEnd
  else if startsWith ".registers" line then .registers (line.drop 10)
  else if startsWith ".locals" line then .locals (line.drop 7)
  else if startsWith ".annotation" line then .remark
  else if startsWith ".packed-switch" line || startsWith ".sparse-switch" line || startsWith ".array-data" line then
    .payload
  else if startsWith ".catch" line then .guard line
  else if startsWith "." line then .directive
  else if startsWith ":" line then .label (String.ofList (line.drop 1))
  else .instruction line

def numbered (text : List Char) : List (Nat × List Char) :=
  ((lines text).zipIdx.map fun (line,i) => (i + 1,bare line)).filter fun l => !l.2.isEmpty

end SmaliPrune.Source
