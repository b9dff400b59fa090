import QuantityCalculus.Arithmetic.Double
import QuantityCalculus.Equation
import QuantityCalculus.Expr.Basic
import QuantityCalculus.Json.Codec
import QuantityCalculus.Quantity.Verbose
import QuantityCalculus.Proofs.Spelling
import QuantityCalculus.Proofs.Formula
import QuantityCalculus.Proofs.Postorder
import QuantityCalculus.Proofs.Agreement
import QuantityCalculus.Proofs.DimensionChecking
import QuantityCalculus.Proofs.RationalArithmetic
import QuantityCalculus.Proofs.Value
import QuantityCalculus.Proofs.ScaleInvariance
import QuantityCalculus.Proofs.Reordering
import QuantityCalculus.Proofs.Substitution
import QuantityCalculus.Proofs.StoredProgram
import QuantityCalculus.Proofs.SerializedForm
import QuantityCalculus.Proofs.SerializedFields
import QuantityCalculus.Proofs.Normalization
import QuantityCalculus.Proofs.ArgumentCount
import QuantityCalculus.Proofs.Nesting
import QuantityCalculus.Proofs.Pieces
import QuantityCalculus.Proofs.Homogeneity
import QuantityCalculus.Proofs.JsonRoundTrip
import QuantityCalculus.Proofs.Conservation
import QuantityCalculus.Proofs.Failures
import QuantityCalculus.Proofs.Lookup
import QuantityCalculus.Proofs.Replacement
import QuantityCalculus.Proofs.Products
import QuantityCalculus.Proofs.WordBounds
import QuantityCalculus.Proofs.DoubleUnit
import QuantityCalculus.Proofs.Powers
import QuantityCalculus.Proofs.Calls
import QuantityCalculus.Proofs.UnitText
import QuantityCalculus.Proofs.VerboseText
import QuantityCalculus.Proofs.CommonPrefixes
