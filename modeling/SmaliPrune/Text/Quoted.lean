import SmaliPrune.Text.Digits
import SmaliPrune.Text.Hidden

namespace SmaliPrune.Text

def escape (c : Char) : List Char :=
  if c == '\x00' then ['\\','0']
  else if c == '\t' then ['\\','t']
  else if c == '\r' then ['\\','r']
  else if c == '\n' then ['\\','n']
  else if c == '\\' || c == '"' then ['\\',c]
  else if isHidden c then ['\\','u','\x7b'] ++ Nat.toDigits 16 c.toNat ++ ['\x7d']
  else [c]

def quoted (s : String) : String := String.ofList ('"' :: s.toList.flatMap escape ++ ['"'])

end SmaliPrune.Text
