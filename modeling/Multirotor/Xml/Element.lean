import Multirotor.Xml.Event

/-!
# XML elements

An element has a name, attributes, the elements in it and text. The element
of a text is the first one that is closed with no other open around it; what
follows it does not matter. Every prefix of a name has to be declared on the
way to it.
-/

namespace Multirotor.Xml

structure Element where
  name : String
  attributes : Attributes
  /-- All the text that stands directly in the element. -/
  text : String
  children : List Element

/-- What stands before the first colon of a name, and what follows it. -/
def splitName (name : String) : Option String × String :=
  match name.toList.span (· != ':') with
  | (first, ':' :: rest) => (some (String.ofList first), String.ofList rest)
  | _ => (none, name)

def localName (name : String) : String := (splitName name).2

namespace Element

/-- Whether an attribute declares a prefix or the names without one. -/
def isDeclaration (name : String) : Bool :=
  name == "xmlns" || (splitName name).1 == some "xmlns"

def declared (e : Element) : List String :=
  e.attributes.filterMap fun (name, _) => if isDeclaration name then some (localName name) else none

/-- Whether an element's names have declared prefixes, with the elements open around it. -/
def isBound (e : Element) (around : List Element) : Bool :=
  let scope := ["xml", "xmlns"] ++ (e :: around).flatMap declared
  (e.name :: e.attributes.map (·.1)).all fun name => (splitName name).1.all scope.contains

def addText (e : Element) (text : String) : Element := { e with text := e.text ++ text }

def addChild (e child : Element) : Element := { e with children := e.children ++ [child] }

/-- The first element that is closed with no other open around it; the open ones are given from
the inside out. -/
def build : List Element → List Event → Option Element
  | _, [] => none
  | around, .aside :: rest => build around rest
  | [], .content _ :: rest => build [] rest
  | e :: around, .content text :: rest => build (e.addText text :: around) rest
  | around, .opening name attributes :: rest =>
    let e : Element := ⟨name, attributes, "", []⟩
    if e.isBound around then build (e :: around) rest else none
  | around, .single name attributes :: rest =>
    let e : Element := ⟨name, attributes, "", []⟩
    if e.isBound around then
      match around with
      | [] => some e
      | parent :: more => build (parent.addChild e :: more) rest
    else none
  | [], .closing _ :: _ => none
  | [e], .closing name :: _ => if e.name == name then some e else none
  | e :: parent :: around, .closing name :: rest =>
    if e.name == name then build (parent.addChild e :: around) rest else none

def read? (cs : List Char) : Option Element := build [] (events cs)

end Element

end Multirotor.Xml
