import CodelCurve.Curve.Walk
import CodelCurve.Main
import CodelCurve.Proofs.Curve.Runs
import CodelCurve.Proofs.Curve.Course
import CodelCurve.Proofs.Curve.InducedPath
import CodelCurve.Proofs.Curve.Legs
import CodelCurve.Proofs.Curve.Ending
import CodelCurve.Proofs.Formula.Evaluation
import CodelCurve.Proofs.Machine.Pass
import CodelCurve.Proofs.Machine.Effect
import CodelCurve.Proofs.Layout.Meaning
import CodelCurve.Proofs.Layout.Segments
import CodelCurve.Proofs.Layout.Capacities
import CodelCurve.Proofs.Layout.Escalation
import CodelCurve.Proofs.Picture.Squares
import CodelCurve.Proofs.Picture.Reading
import CodelCurve.Proofs.Synthesis.Output
import CodelCurve.Proofs.Synthesis.Tracking
import CodelCurve.Proofs.Formula.Search
import CodelCurve.Proofs.Table.Entries
import CodelCurve.Proofs.Table.Acceptance
import CodelCurve.Proofs.Machine.Shifts
import CodelCurve.Proofs.Machine.Blocks
import CodelCurve.Proofs.Synthesis.Blocks
import CodelCurve.Proofs.Synthesis.Wrapping
import CodelCurve.Proofs.Synthesis.Reading
import CodelCurve.Proofs.Synthesis.Trap
import CodelCurve.Proofs.Machine.Levels
import CodelCurve.Proofs.Layout.Exactness
import CodelCurve.Proofs.Data.Text
import CodelCurve.Proofs.Data.Packed
import CodelCurve.Proofs.Data.Json
import CodelCurve.Proofs.Table.Format
import CodelCurve.Proofs.Table.Files
import CodelCurve.Proofs.Formula.Descent
import CodelCurve.Proofs.Formula.Coverage
import CodelCurve.Proofs.Layout.Grammar
import CodelCurve.Proofs.Machine.Footprint
import CodelCurve.Proofs.Machine.Arithmetic
import CodelCurve.Proofs.Formula.Infix
import CodelCurve.Proofs.Layout.Smallest
import CodelCurve.Proofs.Machine.Surroundings
import CodelCurve.Proofs.Machine.Codels
