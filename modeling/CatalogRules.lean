import CatalogRules.Definition.Canonical
import CatalogRules.Main
import CatalogRules.Proofs.Collections
import CatalogRules.Proofs.Looking
import CatalogRules.Proofs.Resolution.Single
import CatalogRules.Proofs.Resolution.Tables
import CatalogRules.Proofs.Resolution.Requests
import CatalogRules.Proofs.Resolution.Evaluators
import CatalogRules.Proofs.Resolution.Aspects
import CatalogRules.Proofs.Resolution.Pooled
import CatalogRules.Proofs.Definition.Accepted
import CatalogRules.Proofs.Cache.Loaded
import CatalogRules.Proofs.Evaluation.Pointwise
import CatalogRules.Proofs.Evaluation.History
import CatalogRules.Proofs.Definition.RoundTrip
import CatalogRules.Proofs.Cache.Indexes
import CatalogRules.Proofs.Cache.Sweeps
import CatalogRules.Proofs.Predicate.Shape
import CatalogRules.Proofs.Evaluation.Failures
import CatalogRules.Proofs.Resolution.Conforming
import CatalogRules.Proofs.Resolution.Realized
import CatalogRules.Proofs.Logging
import CatalogRules.Proofs.Resolution.Calls
import CatalogRules.Proofs.Inquiry
import CatalogRules.Proofs.Evaluation.Inquiring
import CatalogRules.Proofs.Evaluation.Pipeline
import CatalogRules.Proofs.Evaluation.Stages
import CatalogRules.Proofs.Evaluation.Duo
import CatalogRules.Proofs.Evaluation.Interleaving
import CatalogRules.Proofs.Backfill.Pages
import CatalogRules.Proofs.Backfill.Listing
import CatalogRules.Proofs.Backfill.Reading
import CatalogRules.Proofs.Backfill.Coverage
import CatalogRules.Proofs.Cache.RefreshLoop
import CatalogRules.Proofs.Cache.Timing
import CatalogRules.Proofs.Cache.Timetable
import CatalogRules.Proofs.Cache.Refreshing
import CatalogRules.Proofs.Cache.Overlap
import CatalogRules.Proofs.Predicate.Meaning
import CatalogRules.Proofs.Definition.NewerNames
import CatalogRules.Proofs.Definition.PlainForm
import CatalogRules.Proofs.Definition.PlainRules
import CatalogRules.Proofs.Definition.Sugar
import CatalogRules.Proofs.Pattern.Lawful
import CatalogRules.Proofs.Pattern.Matching
import CatalogRules.Proofs.Pattern.Parallel
import CatalogRules.Proofs.Pattern.Escapes
import CatalogRules.Proofs.Pattern.Classes
import CatalogRules.Proofs.Pattern.Groups
import CatalogRules.Proofs.Pattern.Bodies
import CatalogRules.Proofs.Pattern.Anchored
import CatalogRules.Proofs.Definition.FullMatch
import CatalogRules.Proofs.Evaluation.Dispatching
import CatalogRules.Proofs.Action.ListEdits
import CatalogRules.Proofs.Action.Handling
import CatalogRules.Proofs.Store.Definitions
import CatalogRules.Proofs.Cache.StoreSweeps
import CatalogRules.Proofs.Predicate.Reread
import CatalogRules.Proofs.Definition.Written
import CatalogRules.Proofs.Definition.Reread
import CatalogRules.Proofs.Action.Admission
import CatalogRules.Proofs.Definition.Validation
import CatalogRules.Proofs.Recursion
import CatalogRules.Proofs.Resolution.Nesting
import CatalogRules.Proofs.Json.Reading
import CatalogRules.Proofs.Definition.Levels
import CatalogRules.Proofs.Store.Scrolling
import CatalogRules.Proofs.Recording
import CatalogRules.Proofs.Evaluation.Fetches
import CatalogRules.Proofs.Decimal.Rounding
import CatalogRules.Proofs.Predicate.Comparison
import CatalogRules.Proofs.Toml.Paths
import CatalogRules.Proofs.Toml.Distinct
import CatalogRules.Proofs.Settings.Lawful
import CatalogRules.Proofs.Settings.Standard
import CatalogRules.Proofs.Settings.Layers
import CatalogRules.Proofs.Settings.Conversion
import CatalogRules.Proofs.Settings.Overriding
import CatalogRules.Proofs.Resolution.Walking
