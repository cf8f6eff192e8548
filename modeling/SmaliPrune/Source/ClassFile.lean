import SmaliPrune.Hierarchy.Basic
import SmaliPrune.Source.Method

namespace SmaliPrune.Source
open Text

structure ClassFile where
  head : ClassHead
  methods : List Method

-- What the lines of a class have given so far; texts of methods latest first, and the
-- lines of an open method latest first.
structure ClassDraft where
  name : Option String
  superclass : Option String
  interfaces : List String
  finished : List (List (List Char))
  body : Option (List (List Char))

def ClassDraft.start : ClassDraft := ⟨none,none,[],[],none⟩

def lastWord? (line : List Char) : Option String := (words line).getLast?.map String.ofList

def ClassDraft.add (d : ClassDraft) (raw : List Char) : ClassDraft :=
  let line := bare raw
  match d.body with
  | some lines =>
    if startsWith ".end method" line then { d with finished := (raw :: lines) :: d.finished, body := none }
    else { d with body := some (raw :: lines) }
  | none =>
    if startsWith ".class" line then { d with name := lastWord? line }
    else if startsWith ".super" line then { d with superclass := lastWord? line }
    else if startsWith ".implements" line then { d with interfaces := d.interfaces ++ (lastWord? line).toList }
    else if startsWith ".method" line then { d with body := some [raw] }
    else d

def methodText (body : List (List Char)) : List Char := ['\n'].intercalate body.reverse

def classFile (text : List Char) : Checked ClassFile :=
  let d := (lines text).foldl ClassDraft.add .start
  match d.body,d.name with
  | some _,_ => fault .openMethod
  | none,none => fault .noClassDirective
  | none,some name => do
    let methods ← d.finished.reverse.mapM fun body => (method name (methodText body)).within (.owner name)
    return ⟨⟨name,d.superclass,d.interfaces⟩,methods.filter fun m => !m.code.isEmpty⟩

end SmaliPrune.Source
