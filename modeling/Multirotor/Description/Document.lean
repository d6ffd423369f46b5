import Multirotor.Description
import Multirotor.Xml.Field

/-!
# Robot descriptions as documents

The element of a robot has links, joints and materials as its children, in
any order; children of other names are passed over. Shapes, colours and the
limits and losses of joints are not kept, but have to be well formed.
-/

namespace Multirotor

namespace Xml.Field

def vec? (f : Field) : Option (Vec3 Float) := do
  match ← f.numbers? 3 with
  | [x, y, z] => some ⟨x, y, z⟩
  | _ => none

/-- A place `xyz` and the turns `rpy` about x, y and z, each zero where it is not given. -/
def frame? (f : Field) : Option (Frame Float) := do
  let e ← f.element?
  let origin ← e.getD "xyz" vec? 0
  let turns ← e.getD "rpy" vec? 0
  return ⟨origin, Quat.ofRollPitchYaw turns.x turns.y turns.z⟩

def fits? (check : Element → Option Unit) (f : Field) : Option Unit := do check (← f.element?)

def value? (f : Field) : Option Float := do (← f.element?).require "value" number?

def link? (f : Field) : Option String := do (← f.element?).require "link" text?

end Xml.Field

namespace Xml.Element

def hasNumbers (e : Element) (names : List String) : Option Unit :=
  names.forM fun name => do let _ ← e.require name Field.number?

def mayHaveNumbers (e : Element) (names : List String) : Option Unit :=
  names.forM fun name => do let _ ← e.getD name (some <$> ·.number?) none

def hasText (e : Element) (name : String) : Option Unit := do let _ ← e.require name Field.text?

def mayHave (e : Element) (name : String) (check : Element → Option Unit) : Option Unit :=
  e.getD name (Field.fits? check) ()

def mayHaveFrame (e : Element) : Option Unit := do let _ ← e.getD "origin" Field.frame? Frame.identity

def isMaterial (e : Element) : Option Unit := do
  e.hasText "name"
  e.mayHave "color" fun c => do let _ ← c.require "rgba" (·.numbers? 4)
  e.mayHave "texture" (·.hasText "filename")

def isGeometry (e : Element) : Option Unit :=
  match e.children with
  | [shape] =>
    match localName shape.name with
    | "box" => do let _ ← shape.require "size" Field.vec?
    | "cylinder" | "capsule" => shape.hasNumbers ["radius", "length"]
    | "sphere" => shape.hasNumbers ["radius"]
    | "mesh" => do
      shape.hasText "filename"
      let _ ← shape.getD "scale" Field.vec? 0
    | _ => none
  | _ => none

def isBody (e : Element) : Option Unit := do
  let _ ← e.getD "name" Field.text? ""
  e.mayHaveFrame
  e.require "geometry" (Field.fits? isGeometry)

def isVisual (e : Element) : Option Unit := do
  e.isBody
  e.mayHave "material" isMaterial

/-- Whether the children of a name stand together, those of the name `apart` not counted. -/
def together (e : Element) (name apart : String) : Bool :=
  let others := e.children.filter fun c => localName c.name != apart
  (others.dropWhile fun c => localName c.name != name).dropWhile (fun c => localName c.name == name)
    |>.all fun c => localName c.name != name

def inertia? (e : Element) : Option (Inertia Float) := do
  let frame ← e.getD "origin" Field.frame? Frame.identity
  let mass ← e.require "mass" Field.value?
  let tensor ← e.require "inertia" Field.element?
  let entry := fun name => tensor.require name Field.number?
  return Inertia.ofInertialFrame mass frame
    (Mat3.symmetric (← entry "ixx") (← entry "ixy") (← entry "ixz") (← entry "iyy") (← entry "iyz")
      (← entry "izz"))

end Xml.Element

/-- The inertia of a link without one: that of its inertial frame, of no mass, at the origin. -/
def LinkRecord.noInertia : Inertia Float := Inertia.ofInertialFrame 0 Frame.identity 0

def LinkRecord.ofElement? (e : Xml.Element) : Option (LinkRecord Float) := do
  let name ← e.require "name" (·.text?)
  let inertia ← e.getD "inertial" (fun f => do (← f.element?).inertia?) noInertia
  (e.childrenNamed "visual").forM (·.isVisual)
  (e.childrenNamed "collision").forM (·.isBody)
  if e.together "collision" "visual" then return { name, inertia } else none

namespace JointRecord

def standardAxis : Vec3 Float := Vec3.unitX

def ofElement? (e : Xml.Element) : Option (JointRecord Float) := do
  let name ← e.require "name" (·.text?)
  let motion ← e.require "type" fun f => do JointMotion.ofName? (← f.text?)
  let parent ← e.require "parent" (·.link?)
  let child ← e.require "child" (·.link?)
  let origin ← e.getD "origin" (·.frame?) Frame.identity
  let axis ← e.getD "axis" (fun f => do (← f.element?).require "xyz" (·.vec?)) standardAxis
  e.mayHave "limit" fun l => do
    l.hasNumbers ["effort", "velocity"]
    l.mayHaveNumbers ["lower", "upper"]
  e.mayHave "calibration" (·.mayHaveNumbers ["rising", "falling"])
  e.mayHave "dynamics" (·.mayHaveNumbers ["damping", "friction"])
  e.mayHave "mimic" fun m => do
    m.hasText "joint"
    m.mayHaveNumbers ["multiplier", "offset"]
  e.mayHave "safety_controller" fun s => do
    s.hasNumbers ["k_velocity"]
    s.mayHaveNumbers ["k_position", "soft_lower_limit", "soft_upper_limit"]
  return { name, motion, parent, child, origin, axis }

end JointRecord

namespace Description

def ofElement? (e : Xml.Element) : Option (Description Float) := do
  let links ← (e.childrenNamed "link").mapM LinkRecord.ofElement?
  let joints ← (e.childrenNamed "joint").mapM JointRecord.ofElement?
  (e.childrenNamed "material").forM (·.isMaterial)
  return { links, joints }

def read? (cs : List Char) : Option (Description Float) := do ofElement? (← Xml.Element.read? cs)

end Description

end Multirotor
