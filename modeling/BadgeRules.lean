import BadgeRules.Json.RoundTrip
import BadgeRules.Canvas.Edit
import BadgeRules.Main
import BadgeRules.Storage.Folder
import BadgeRules.Proofs.Connections
import BadgeRules.Proofs.Editing
import BadgeRules.Proofs.Numbering
import BadgeRules.Proofs.Recompiling
import BadgeRules.Proofs.Occurrences
import BadgeRules.Proofs.SavedPlaces
import BadgeRules.Proofs.Forest
import BadgeRules.Proofs.Renaming
import BadgeRules.Proofs.FixedPoint
import BadgeRules.Proofs.Tracing
import BadgeRules.Proofs.Rereading
import BadgeRules.Proofs.Loading
import BadgeRules.Proofs.DrawingOrder
import BadgeRules.Proofs.FreshForest
import BadgeRules.Proofs.NothingDropped
import BadgeRules.Proofs.Sites
import BadgeRules.Proofs.Verdicts
import BadgeRules.Proofs.UnknownKinds
import BadgeRules.Proofs.CanvasDocuments
import BadgeRules.Proofs.StoringAgain
import BadgeRules.Proofs.Sharing
import BadgeRules.Proofs.Crossings
import BadgeRules.Proofs.Upstream
import BadgeRules.Proofs.Spelling
import BadgeRules.Proofs.SurplusSlots
import BadgeRules.Proofs.NoOverlap
import BadgeRules.Proofs.OperandEquality
import BadgeRules.Proofs.SummaryTokens
import BadgeRules.Proofs.MemberOrder
import BadgeRules.Proofs.Violations
import BadgeRules.Proofs.Lookups
