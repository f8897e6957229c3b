import Georeferencing.Proofs.Matrix.Alignment
import Georeferencing.Proofs.Matrix.ColumnScaling
import Georeferencing.Proofs.Matrix.FaithfulCopies
import Georeferencing.Proofs.Matrix.Fields
import Georeferencing.Proofs.Matrix.Hashing
import Georeferencing.Proofs.Matrix.Identity
import Georeferencing.Proofs.Matrix.NotANumber
import Georeferencing.Proofs.Matrix.ProductLaws
import Georeferencing.Proofs.Matrix.UnitColumns
import Georeferencing.Proofs.Projection.Failure
import Georeferencing.Proofs.Projection.Settling
import Georeferencing.Proofs.Projection.Sphere
import Georeferencing.Proofs.Projection.Totality
import Georeferencing.Proofs.Transform.Affine
import Georeferencing.Proofs.Transform.Column
import Georeferencing.Proofs.Transform.Envelopes
import Georeferencing.Proofs.Transform.GeoTransforms
import Georeferencing.Proofs.Transform.PassThrough
import Georeferencing.Proofs.Transform.Selection
import Georeferencing.Proofs.Transform.Unchanged
