import Multirotor.Text.Reader

/-!
# Events of an XML text

An XML text is a row of tags and what stands between them. Comments,
processing instructions and document types are passed over, but have to be
well formed.
-/

namespace Multirotor.Xml

open Text.Reader
open Text (Reader)

abbrev Attributes := List (String × String)

inductive Event where
  | opening (name : String) (attributes : Attributes)
  | closing (name : String)
  /-- An element without content, in one tag. -/
  | single (name : String) (attributes : Attributes)
  | content (text : String)
  /-- A comment, a processing instruction or a document type. -/
  | aside

def isSpace (c : Char) : Bool := c == ' ' || c == '\t' || c == '\r' || c == '\n'

def isNameStart (c : Char) : Bool := c.isAlpha || c == '_' || c == ':' || '\x80' ≤ c

def isNameChar (c : Char) : Bool := isNameStart c || c.isDigit || c == '-' || c == '.'

def spaces : Reader Unit := do let _ ← run isSpace

def name : Reader String := do
  let first ← char isNameStart
  return String.ofList (first :: (← run isNameChar))

def codePoint (base : Nat) (digits : List Char) : Reader Char := do
  let value (c : Char) : Nat := if c.isDigit then c.toNat - 48 else c.toLower.toNat - 87
  let isDigit (c : Char) : Bool := c.isAlphanum && value c < base
  let number := digits.foldl (fun n c => base * n + value c) 0
  if digits.isEmpty || digits.any (!isDigit ·) then failure
  if number.isValidChar then return Char.ofNat number else failure

def entity : Reader Char := do
  word "&"
  let spelled ← run (· != ';')
  word ";"
  match spelled with
  | ['l', 't'] => return '<'
  | ['g', 't'] => return '>'
  | ['a', 'm', 'p'] => return '&'
  | ['q', 'u', 'o', 't'] => return '"'
  | ['a', 'p', 'o', 's'] => return '\''
  | '#' :: 'x' :: digits => codePoint 16 digits
  | '#' :: digits => codePoint 10 digits
  | _ => failure

def unescaped (cs : List Char) : Reader String :=
  match whole? (many (char (· != '&') <|> entity)) cs with
  | some plain => pure (String.ofList plain)
  | none => failure

def assignment : Reader (String × String) := do
  spaces
  let n ← name
  spaces
  word "="
  spaces
  let quote ← char fun c => c == '"' || c == '\''
  let cs ← run (· != quote)
  let _ ← char (· == quote)
  return (n, ← unescaped cs)

def elementTag : Reader Event := do
  word "<"
  let n ← name
  let attributes ← many assignment
  spaces
  (do word ">"; return .opening n attributes) <|> (do word "/>"; return .single n attributes)

def closingTag : Reader Event := do
  word "</"
  let n ← name
  spaces
  word ">"
  return .closing n

def characters : Reader Event := do
  return .content (← unescaped (← run₁ (· != '<')))

/-- The characters before the first occurrence of a word, which is taken as well. -/
def through (w : String) : Reader (List Char) := do
  let before ← many do
    let cs ← get
    if w.toList.isPrefixOf cs then failure else char fun _ => true
  word w
  return before

/-- Text in which nothing has a meaning of its own. -/
def rawContent : Reader Event := do
  word "<![CDATA["
  return .content (String.ofList (← through "]]>"))

/-- Two hyphens end a comment and stand nowhere else in it. -/
def comment : Reader Event := do
  word "<!--"
  let _ ← through "--"
  word ">"
  return .aside

/-- A processing instruction ends at the first angle bracket after a question mark. -/
def instruction : Reader Event := do
  word "<?"
  let _ ← through "?"
  let _ ← through ">"
  return .aside

def documentType : Reader Event := do
  word "<!DOCTYPE"
  let _ ← char isSpace
  let _ ← through ">"
  return .aside

def event : Reader Event :=
  characters <|> elementTag <|> closingTag <|> comment <|> rawContent <|> instruction <|> documentType

/-- The events of a text, up to where it is no longer well formed. -/
def events (cs : List Char) : List Event := (collect event cs cs).1

end Multirotor.Xml
