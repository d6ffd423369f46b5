import Multirotor.Decimal
import Multirotor.Text.Words
import Multirotor.Xml.Element

/-!
# Fields of elements

A field of an element is an attribute or a child of that name, prefixes
aside. It is given once at most; children and attributes of other names are
passed over.
-/

namespace Multirotor.Xml

inductive Field where
  | text (s : String)
  | element (e : Element)

namespace Field

/-- The text of an attribute, or of a child without children of its own. -/
def text? : Field → Option String
  | text s => some s
  | element e => if e.children.isEmpty then some (String.ofList (Text.trim e.text.toList)) else none

def element? : Field → Option Element
  | text _ => none
  | element e => some e

/-- A number with nothing but blanks around it. -/
def number? (f : Field) : Option Float := do Decimal.read? (Text.trim (← f.text?).toList)

/-- Exactly `n` numbers between blanks; words that are no numbers are passed over. -/
def numbers? (n : Nat) (f : Field) : Option (List Float) := do
  let numbers := (Text.words (← f.text?).toList).filterMap Decimal.read?
  if numbers.length = n then some numbers else none

end Field

namespace Element

variable {β : Type}

def childrenNamed (e : Element) (name : String) : List Element :=
  e.children.filter fun c => localName c.name == name

def fields (e : Element) (name : String) : List Field :=
  (e.attributes.filter fun (n, _) => !isDeclaration n && localName n == name).map
      (fun (_, s) => .text s)
    ++ (e.childrenNamed name).map .element

def require (e : Element) (name : String) (decode : Field → Option β) : Option β :=
  match e.fields name with
  | [f] => decode f
  | _ => none

/-- The field of a name, read by `decode`, or `standard` where there is none. -/
def getD (e : Element) (name : String) (decode : Field → Option β) (standard : β) : Option β :=
  match e.fields name with
  | [] => some standard
  | [f] => decode f
  | _ => none

end Element

end Multirotor.Xml
