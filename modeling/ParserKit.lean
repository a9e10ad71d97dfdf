import ParserKit.Grammar.Custom
import ParserKit.Main
import ParserKit.Proofs.DuplicateAlternatives
import ParserKit.Proofs.ReportedDuplicates
import ParserKit.Proofs.Congruence
import ParserKit.Proofs.FuelIndependence
import ParserKit.Proofs.OffsetSafety
import ParserKit.Sample.Typed
import ParserKit.Variant.Bare
import ParserKit.Variant.Payload
import ParserKit.Variant.Workspace
import ParserKit.Proofs.CheckCorrect
import ParserKit.Proofs.Reading
import ParserKit.Proofs.Locating
import ParserKit.Proofs.LocationOrder
import ParserKit.Proofs.LocatedRejection
import ParserKit.Proofs.BracketLanguage
import ParserKit.Proofs.CallLanguage
import ParserKit.Proofs.Recognition
import ParserKit.Proofs.Translation
import ParserKit.Proofs.Termination
import ParserKit.Proofs.Accounting
import ParserKit.Proofs.TextConservation
import ParserKit.Proofs.TraceNesting
import ParserKit.Proofs.ControlFlow
import ParserKit.Proofs.HonestFailure
import ParserKit.Proofs.Inlining
import ParserKit.Proofs.Blame
import ParserKit.Proofs.BracketRejection
import ParserKit.Proofs.CallRejection
import ParserKit.Proofs.LocationInverse
import ParserKit.Proofs.LineEndingsCompared
import ParserKit.Proofs.Segments
import ParserKit.Proofs.Selection
import ParserKit.Proofs.CheckAgain
import ParserKit.Proofs.RepetitionByRule
import ParserKit.Proofs.OrderedChoice
import ParserKit.Proofs.LinkedMatches
import ParserKit.Proofs.LeftFactoring
import ParserKit.Proofs.Regrouping
import ParserKit.Proofs.TaggedChoice
import ParserKit.Proofs.TerminalsCompared
import ParserKit.Proofs.MaximalRun
import ParserKit.Proofs.Reports
