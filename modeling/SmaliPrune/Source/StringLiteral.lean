import SmaliPrune.Source.Reading

namespace SmaliPrune.Source
open Text

def escapable (c : Char) : Bool :=
  c == '\'' || c == '"' || c == 't' || c == 'b' || c == 'n' || c == 'r' || c == 'f' || c == 'u' || c == '\\'

def scanBody : List Char → Option (List Char × List Char)
  | [] => none
  | '"' :: rest => some ([],rest)
  | ['\\'] => none
  | '\\' :: c :: rest =>
    if escapable c then (scanBody rest).map fun (body,after) => ('\\' :: c :: body,after) else none
  | c :: rest => (scanBody rest).map fun (body,after) => (c :: body,after)

-- The character of a hexadecimal number, which may have a plus sign in front. Surrogates
-- are not characters.
def scalar? (s : List Char) : Option Char :=
  let digits := match s with
    | '+' :: rest => rest
    | s => s
  match digitRun 16 digits with
  | (d :: ds,[]) =>
    let n := ofDigits 16 (d :: ds)
    if n.isValidChar then some (Char.ofNat n) else none
  | _ => none

def unicode (s : List Char) : List Char :=
  match scalar? s with
  | some c => [c]
  | none => s

-- The escape of a code point takes the next four characters, or all if there are fewer.
def unescape : List Char → List Char
  | [] => []
  | '\\' :: 'u' :: a :: b :: c :: d :: rest => unicode [a,b,c,d] ++ unescape rest
  | '\\' :: 'u' :: rest => unicode rest
  | '\\' :: 'n' :: rest => '\n' :: unescape rest
  | '\\' :: 't' :: rest => '\t' :: unescape rest
  | '\\' :: 'r' :: rest => '\r' :: unescape rest
  | '\\' :: 'b' :: rest => '\x08' :: unescape rest
  | '\\' :: 'f' :: rest => '\x0c' :: unescape rest
  | '\\' :: c :: rest => c :: unescape rest
  | c :: rest => c :: unescape rest

def readString : List Char → Reading String
  | '"' :: s =>
    match scanBody s with
    | some (body,rest) => .got (String.ofList (unescape body)) rest
    | none => .miss
  | _ => .miss

end SmaliPrune.Source
