import PatternAudit.Main
import PatternAudit.Proofs.OnePass
import PatternAudit.Proofs.Acceptance
import PatternAudit.Proofs.ReadBack
import PatternAudit.Proofs.Tiling
import PatternAudit.Proofs.Payload
import PatternAudit.Proofs.NormalForm
import PatternAudit.Proofs.AnchorPlaces
import PatternAudit.Proofs.FaultPlaces
import PatternAudit.Proofs.UniversalTruth
import PatternAudit.Proofs.Written
import PatternAudit.Proofs.RoundTrip
import PatternAudit.Proofs.NodePlaces
import PatternAudit.Proofs.Continuation
import PatternAudit.Proofs.Relocation
import PatternAudit.Proofs.MovedFindings
import PatternAudit.Proofs.Wrapping
import PatternAudit.Proofs.LiteralText
import PatternAudit.Proofs.TextUnion
import PatternAudit.Proofs.Derivation
import PatternAudit.Proofs.Locality
import PatternAudit.Proofs.JoinedPatterns
import PatternAudit.Proofs.Insertions
import PatternAudit.Proofs.OptionSettings
import PatternAudit.Proofs.Cursors
import PatternAudit.Proofs.CursorEscapes
import PatternAudit.Proofs.CursorClasses
import PatternAudit.Proofs.CursorTokens
import PatternAudit.Proofs.Attempts
import PatternAudit.Proofs.Draws
import PatternAudit.Proofs.Outcomes
import PatternAudit.Proofs.EditRuns
import PatternAudit.Proofs.Iterations
import PatternAudit.Proofs.FuzzRuns
import PatternAudit.Proofs.EditCounts
import PatternAudit.Proofs.Verdicts
import PatternAudit.Proofs.TypeUniverse
import PatternAudit.Proofs.Segments
import PatternAudit.Proofs.UniversalPhrases
import PatternAudit.Proofs.ShownParts
import PatternAudit.Proofs.DelimitedTexts
import PatternAudit.Proofs.Carets
import PatternAudit.Proofs.ClassPlaces
import PatternAudit.Proofs.BracedCodes
import PatternAudit.Proofs.LeadingBrackets
import PatternAudit.Proofs.RemovedQuantifiers
import PatternAudit.Proofs.ItemsBetween
import PatternAudit.Proofs.SubroutineCalls
import PatternAudit.Proofs.BracedBounds
import PatternAudit.Proofs.DashesBeforeSets
import PatternAudit.Proofs.NestedResolvers
import PatternAudit.Proofs.ClassRounds
