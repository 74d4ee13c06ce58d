import PlanarArea.Decimal.Scientific
import PlanarArea.Main
import PlanarArea.Version
import PlanarArea.Proofs.Expr.Grammar
import PlanarArea.Proofs.Expr.Acceptance
import PlanarArea.Proofs.Expr.Lexeme
import PlanarArea.Proofs.Expr.Render
import PlanarArea.Proofs.Eval.Consistency
import PlanarArea.Proofs.Eval.Faults
import PlanarArea.Proofs.Eval.Leaves
import PlanarArea.Proofs.Eval.OperandOrder
import PlanarArea.Proofs.Eval.SelfCombination
import PlanarArea.Proofs.Eval.SetAlgebra
import PlanarArea.Proofs.Plane.Exact
import PlanarArea.Proofs.Circle.ArcCut
import PlanarArea.Proofs.Circle.CircleCut
import PlanarArea.Proofs.Circle.Membership
import PlanarArea.Proofs.Circle.Chord
import PlanarArea.Proofs.Plane.Translation
import PlanarArea.Proofs.Region.Translation
import PlanarArea.Proofs.Circle.Translation
import PlanarArea.Proofs.Eval.Translation
import PlanarArea.Proofs.Eval.Renaming
import PlanarArea.Proofs.Expr.Scanning
import PlanarArea.Proofs.Expr.Layout
import PlanarArea.Proofs.Expr.Place
import PlanarArea.Proofs.Expr.Failure
import PlanarArea.Proofs.Expr.DepthLimit
import PlanarArea.Proofs.Expr.Viable
import PlanarArea.Proofs.Expr.Balance
import PlanarArea.Proofs.Scene.RoundTrip
import PlanarArea.Proofs.Shape.Forms
import PlanarArea.Proofs.Region.NormalForm
import PlanarArea.Proofs.Region.Spelling
import PlanarArea.Proofs.Circle.Reversal
import PlanarArea.Proofs.Plane.Chain
import PlanarArea.Proofs.Plane.Hull
import PlanarArea.Proofs.Circle.LineHits
import PlanarArea.Proofs.Circle.Endpoints
import PlanarArea.Proofs.Region.FewPoints
import PlanarArea.Proofs.Eval.Halves
import PlanarArea.Proofs.Eval.IntersectionOrder
import PlanarArea.Proofs.Region.ArcLength
import PlanarArea.Proofs.Region.EqualSteps
import PlanarArea.Proofs.Expr.RecursionDepth
import PlanarArea.Proofs.Eval.NonFinite
import PlanarArea.Proofs.Region.EllipseArea
import PlanarArea.Proofs.Shape.EdgeChain
import PlanarArea.Proofs.Json.RoundTrip
import PlanarArea.Proofs.Scene.Text
import PlanarArea.Proofs.Eval.ReportRoundTrip
import PlanarArea.Proofs.Command.Listing
import PlanarArea.Proofs.Plane.Sweep
