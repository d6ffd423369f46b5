import Multirotor.Toml.Number
import Multirotor.Toml.Table

/-!
# TOML documents

A document is a list of statements, one a line: a key with its value, or the
header of the table that the next keys belong to. The root table of a
document comes from its statements one by one.
-/

namespace Multirotor.Toml

open Text Text.Reader

inductive Statement where
  | assign (path : List String) (key : String) (value : Value)
  | header (path : List String) (key : String)
  /-- A header in double brackets. -/
  | item (path : List String) (key : String)

/-- Up to the end of the line; the line break itself is left. -/
def comment : Reader Unit := do
  word "#"
  let _ ← run isPlain

/-- Blanks, line breaks and comments, as they may stand between the values of an array. -/
def gap : Reader Unit := do
  let _ ← many ((do let _ ← run₁ isSpacing) <|> lineBreak <|> do comment; lineBreak)

def splitKey : Reader (List String × String) := do
  let parts ← key
  match parts.getLast? with
  | some last => return (parts.dropLast, last)
  | none => failure

/-- Values between brackets, over any number of lines; a comma after the last one is allowed. -/
def array (value : Reader Value) : Reader Value := do
  word "["
  let items ← separated (do gap; let v ← value; gap; return v) (word ",")
  if !items.isEmpty then let _ ← optional (word ",")
  gap
  word "]"
  return .array items

def assignment (value : Reader Value) : Reader (List String × String × Value) := do
  let (path, key) ← splitKey
  word "="
  blanks
  let v ← value
  blanks
  return (path, key, v)

def ofAssignments? (pairs : List (List String × String × Value)) : Option Entries :=
  pairs.foldlM (fun entries (path, key, v) => Entries.assign path key v .inline entries) []

/-- A table between braces, on one line. -/
def inlineTable (value : Reader Value) : Reader Value := do
  word "\x7b"
  let pairs ← separated (assignment value) (word ",")
  blanks
  word "\x7d"
  match ofAssignments? pairs with
  | some entries => return .table .inline entries
  | none => failure

/-- A value that holds no other values. A number is a date if it can be, and then a float. -/
def scalar : Reader Value :=
  .text <$> text
  <|> (do word "true"; return .boolean true)
  <|> (do word "false"; return .boolean false)
  <|> (do moment; return .moment)
  <|> .float <$> float
  <|> .integer <$> integer

def value : Nat → Reader Value
  | 0 => scalar
  | depth + 1 => scalar <|> array (value depth) <|> inlineTable (value depth)

def maxDepth : Nat := 79

def statement : Reader Statement :=
  (do
    word "[["
    let (path, key) ← splitKey
    word "]]"
    return .item path key)
  <|> (do
    word "["
    let (path, key) ← splitKey
    word "]"
    return .header path key)
  <|> do
    let (path, key, v) ← assignment (value maxDepth)
    return .assign path key v

def lineEnd : Reader Unit := do
  blanks
  let _ ← optional comment
  lineBreak <|> finish

def entry : Reader Statement := do
  gap
  let s ← statement
  lineEnd
  return s

/-- The statements of a document. A byte order mark may stand first, and a comment may end the
document without a line break. -/
def statements : Reader (List Statement) := do
  let _ ← optional (word "\ufeff")
  let ss ← many entry
  gap
  let _ ← optional comment
  return ss

/-- A document while it is read: the path of the table that keys belong to, and the root table. -/
structure Document where
  here : List String
  root : Entries

namespace Document

def step (d : Document) : Statement → Option Document
  | .assign path key v => do
    return { d with root := ← Entries.within .passed (Entries.assign path key v) d.here .header d.root }
  | .header path key => do return ⟨path ++ [key], ← d.root.open? path key⟩
  | .item path key => do return ⟨path ++ [key], ← d.root.extend? path key⟩

end Document

def read? (cs : List Char) : Option Entries := do
  let ss ← whole? statements cs
  let d ← ss.foldlM Document.step ⟨[], []⟩
  return d.root

end Multirotor.Toml
