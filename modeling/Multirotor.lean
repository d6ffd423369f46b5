import Multirotor.Proofs.CentreOfGravity
import Multirotor.Proofs.Margin
import Multirotor.Proofs.Requests
import Multirotor.Proofs.Thrust
import Multirotor.Storage
import Multirotor.Proofs.Exact.Rate
import Multirotor.Proofs.Exact.Turn
import Multirotor.Proofs.JointPath
import Multirotor.Proofs.Bend
import Multirotor.Proofs.Posture
import Multirotor.Proofs.Hover
import Multirotor.Proofs.Equilibrium
import Multirotor.Proofs.LinearSystem.Inverse
import Multirotor.Proofs.LinearSystem.LeastSolution
import Multirotor.Proofs.Sensitivity.ThrustEquations
import Multirotor.Proofs.Sensitivity.Displacement
import Multirotor.Proofs.Sensitivity.Momentum
import Multirotor.Proofs.Sensitivity.StaticThrust
import Multirotor.Proofs.Sensitivity.JointTorque
import Multirotor.Proofs.Sensitivity.VirtualWork
import Multirotor.Proofs.Acceptance
import Multirotor.Proofs.NamedCoordinates
import Multirotor.Proofs.SmoothMargin
import Multirotor.Proofs.Verdict
import Multirotor.Proofs.CoordinateMotion
import Multirotor.Proofs.History
import Multirotor.Proofs.Determined
import Multirotor.Proofs.RotatedMargin
import Multirotor.Proofs.Upright
import Multirotor.Proofs.Yaw
import Multirotor.Proofs.Embedding
import Multirotor.Proofs.Sensitivity.Embedding
import Multirotor.Proofs.Leaf
import Multirotor.Proofs.LeafGroups
import Multirotor.Proofs.FixedSegment
import Multirotor.Proofs.DeclarationOrder
import Multirotor.Proofs.DescribedJoints
import Multirotor.Proofs.SignedMass
import Multirotor.Proofs.BoundedRegion
import Multirotor.Proofs.Floating
import Multirotor.Proofs.FiniteInertia
import Multirotor.Proofs.ValidInertia
import Multirotor.Proofs.Sensitivity.FaceDistance
import Multirotor.Proofs.Sensitivity.Report
import Multirotor.Proofs.Sensitivity.RigidMotion
import Multirotor.Proofs.Sensitivity.LockedInertia
import Multirotor.Proofs.ThrustDemand
import Multirotor.Proofs.JointNumbering
import Multirotor.Proofs.RootPath
import Multirotor.Proofs.RigidBodies
import Multirotor.Proofs.Refusals
import Multirotor.Proofs.Sensitivity.RootMotion
import Multirotor.Proofs.GeneratorSet
import Multirotor.Proofs.NamedBatches
import Multirotor.Proofs.PayloadChanges
import Multirotor.Proofs.AdmissibleConfig
import Multirotor.Proofs.InertiaAction
import Multirotor.Proofs.AttainedMargin
