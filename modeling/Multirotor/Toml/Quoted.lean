import Multirotor.Text.Reader

/-!
# Quoted text in TOML

Text stands in double quotes, with escapes, or in single quotes, as it is.
Three quotes open text over several lines; a line break right after them is
dropped. Keys are written like text on one line, or bare.
-/

namespace Multirotor.Toml

open Text Text.Reader

/-- Characters that stand for themselves in text and comments: no control character but the tab. -/
def isPlain (c : Char) : Bool := c == '\t' || (' ' ≤ c && c != '\x7f')

def isSpacing (c : Char) : Bool := c == ' ' || c == '\t'

def isBareKey (c : Char) : Bool := c.isAlphanum || c == '_' || c == '-'

def isHexDigit (c : Char) : Bool := c.isDigit || ('a' ≤ c && c ≤ 'f') || ('A' ≤ c && c ≤ 'F')

def digitsIn (base : Nat) (digits : List Char) : Nat :=
  digits.foldl (fun n c => base * n + (if c.isDigit then c.toNat - 48 else c.toLower.toNat - 87)) 0

def blanks : Reader Unit := do let _ ← run isSpacing

def lineBreak : Reader Unit := word "\n" <|> word "\r\n"

def codePoint (n : Nat) : Reader Char := do
  let number := digitsIn 16 (← times (char isHexDigit) n)
  if number.isValidChar then return Char.ofNat number else failure

def escape : Reader Char := do
  word "\\"
  match ← char fun _ => true with
  | 'b' => return '\x08'
  | 't' => return '\t'
  | 'n' => return '\n'
  | 'f' => return '\x0c'
  | 'r' => return '\r'
  | '"' => return '"'
  | '\\' => return '\\'
  | 'u' => codePoint 4
  | 'U' => codePoint 8
  | _ => failure

def escapedLine : Reader String := do
  word "\""
  let cs ← many (char (fun c => isPlain c && c != '"' && c != '\\') <|> escape)
  word "\""
  return String.ofList cs

def literalLine : Reader String := do
  word "'"
  let cs ← run fun c => isPlain c && c != '\''
  word "'"
  return String.ofList cs

/-- One or two quotes inside text over several lines. -/
def innerQuotes (quote : Char) : Reader (List Char) := do
  let quotes ← run₁ (· == quote)
  if quotes.length < 3 then return quotes else failure

/-- The three quotes that close text over several lines, and up to two that still belong to it. -/
def closingQuotes (quote : Char) : Reader (List Char) := do
  let quotes ← run (· == quote)
  if 3 ≤ quotes.length ∧ quotes.length ≤ 5 then return quotes.drop 3 else failure

/-- A backslash at the end of a line: it joins the next line that is not blank. -/
def joinedLine : Reader (List Char) := do
  word "\\"
  blanks
  lineBreak
  let _ ← many (lineBreak <|> do let _ ← char isSpacing)
  return []

/-- Text over several lines, a piece of which is a quote or two, a line break or a `piece`. -/
def lines (quote : Char) (piece : Reader (List Char)) : Reader String := do
  let _ ← times (char (· == quote)) 3
  let _ ← optional lineBreak
  let pieces ← many (innerQuotes quote <|> (do lineBreak; return ['\n']) <|> piece)
  let last ← closingQuotes quote
  return String.ofList (pieces.flatten ++ last)

def escapedLines : Reader String :=
  lines '"' <|
    (do return [← char fun c => isPlain c && c != '"' && c != '\\'])
    <|> (do return [← escape])
    <|> joinedLine

def literalLines : Reader String :=
  lines '\'' do return [← char fun c => isPlain c && c != '\'']

def text : Reader String := escapedLines <|> escapedLine <|> literalLines <|> literalLine

def keyPart : Reader String := do
  blanks
  let part ← escapedLine <|> literalLine <|> String.ofList <$> run₁ isBareKey
  blanks
  return part

/-- A key: its parts are separated by points, and there are fewer than eighty. -/
def key : Reader (List String) := do
  let first ← keyPart
  let more ← many (do word "."; keyPart)
  if more.length < 79 then return first :: more else failure

end Multirotor.Toml
