import Planar.Binary64.Bits
import Planar.Json.Document
import Planar.Proofs.Json.Printer
import Planar.Proofs.Numeral.Extent
import Planar.Proofs.Turns
import Planar.Proofs.Vec.Clamp
import Planar.Proofs.Vec.Direction
import Planar.Proofs.Vec.Literal
import Planar.Proofs.Vec.Normalize
import Planar.Proofs.Vec.Print
import Planar.Proofs.Vec.QuarterTurn
import Planar.Proofs.Vec.Repair
import Planar.Proofs.Vec.Rotation
import Planar.Proofs.Vec.Split
import Planar.Proofs.Vec.Symmetry
import Planar.Proofs.Vec.Template
import Planar.Vec.Json
import Planar.Vec.Operation
import Planar.Vec.Strict
import Planar.Vec.Text
import Planar.Version
