import MapStyle.Main
import MapStyle.Proofs.Wire.RoundTrip
import MapStyle.Proofs.Eval.Lexical
import MapStyle.Proofs.Eval.Constancy
import MapStyle.Proofs.Curve.Places
import MapStyle.Proofs.Style.Create
import MapStyle.Proofs.Style.ZoomCurve
import MapStyle.Proofs.Typing.Expected
import MapStyle.Proofs.Eval.Lengths
import MapStyle.Proofs.Style.Lengths
import MapStyle.Proofs.Decimal.Shortest
import MapStyle.Proofs.Decimal.NumberText
import MapStyle.Proofs.Typing.Branches
import MapStyle.Proofs.Eval.Outcomes
import MapStyle.Proofs.Style.Reading
import MapStyle.Proofs.Style.StepLike
import MapStyle.Proofs.Style.Data
import MapStyle.Proofs.Style.Position
import MapStyle.Proofs.Style.Registries
import MapStyle.Proofs.Style.Fallback
import MapStyle.Proofs.Typing.Verdicts
import MapStyle.Proofs.Typing.Inference
import MapStyle.Proofs.Typing.Slots
import MapStyle.Proofs.Eval.Slots
import MapStyle.Proofs.Style.UnsetExpression
import MapStyle.Proofs.Eval.Histories
import MapStyle.Proofs.Curve.Reading
import MapStyle.Proofs.Typing.Keys
import MapStyle.Proofs.Typing.Sources
import MapStyle.Proofs.Eval.Dispatch
import MapStyle.Proofs.Value.Fits
import MapStyle.Proofs.Style.Identity
import MapStyle.Proofs.Typing.Placement
import MapStyle.Proofs.Eval.Coalesce
import MapStyle.Proofs.Curve.Fractions
import MapStyle.Proofs.Text.Runs
import MapStyle.Proofs.Ty.Names
import MapStyle.Proofs.Typing.Siblings
import MapStyle.Proofs.Decimal.ReadBack
import MapStyle.Proofs.Decimal.Spelling
import MapStyle.Proofs.Value.Documents
import MapStyle.Proofs.Value.NumberTexts
import MapStyle.Proofs.Eval.Internal
import MapStyle.Proofs.Style.Groups
