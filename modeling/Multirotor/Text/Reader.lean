/-!
# Reading text

A reader takes a value off the front of a text, or fails and leaves the text
to the next alternative. What is repeated takes a character at least each
time, so that every reader comes to an end.
-/

namespace Multirotor.Text

/-- Takes a value off the front of a text, or fails. -/
abbrev Reader := StateT (List Char) Option

namespace Reader

variable {β : Type}

def char (p : Char → Bool) : Reader Char := fun cs =>
  match cs with
  | c :: rest => if p c then some (c, rest) else none
  | [] => none

def run (p : Char → Bool) : Reader (List Char) := fun cs => some (cs.takeWhile p, cs.dropWhile p)

def run₁ (p : Char → Bool) : Reader (List Char) := do
  let c ← char p
  return c :: (← run p)

def word (w : String) : Reader Unit := fun cs =>
  if w.toList.isPrefixOf cs then some ((), cs.drop w.length) else none

def finish : Reader Unit := fun cs => if cs.isEmpty then some ((), []) else none

/-- The values that `item` takes one after the other, up to where it fails, and no more than there
are characters in `bound`. -/
def collect (item : Reader β) : List Char → List Char → List β × List Char
  | [], cs => ([], cs)
  | _ :: bound, cs =>
    match item cs with
    | none => ([], cs)
    | some (b, rest) =>
      let (bs, last) := collect item bound rest
      (b :: bs, last)

/-- Again and again. An `item` takes a character at least, so that the text bounds their number. -/
def many (item : Reader β) : Reader (List β) := fun cs => some (collect item cs cs)

def times (item : Reader β) : Nat → Reader (List β)
  | 0 => pure []
  | n + 1 => do
    let b ← item
    return b :: (← times item n)

def separated (item : Reader β) (separator : Reader Unit) : Reader (List β) :=
  (do
    let b ← item
    return b :: (← many (do separator; item)))
  <|> pure []

/-- What `item` reads if it takes the whole text. -/
def whole? (item : Reader β) (cs : List Char) : Option β :=
  match item cs with
  | some (b, []) => some b
  | _ => none

end Reader

end Multirotor.Text
