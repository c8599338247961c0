import CatalogRules.Text.Case

/-! # Settings

The settings of the service: its name and environment, what is logged and measured, and how
definitions are loaded and entities are scanned. -/

namespace CatalogRules

/-- What is logged and measured. -/
structure ObservabilitySettings where
  logLevel : String
  logFormat : String
  metricsEnabled : Bool
  metricsPort : Nat
  deriving DecidableEq, Repr

/-- The settings in the absence of others. -/
def ObservabilitySettings.standard : ObservabilitySettings := ⟨"info", "pretty", false, 9090⟩

/-- Logs are written as JSON. -/
def ObservabilitySettings.isJson (s : ObservabilitySettings) : Bool :=
  Text.sameIgnoringCase s.logFormat "json"

/-- How definitions are loaded and entities are scanned. -/
structure EngineSettings where
  refreshIntervalSecs : Nat
  pageSize : Nat
  backfillBatchSize : Nat
  backfillConcurrency : Nat
  deriving DecidableEq, Repr

/-- The settings in the absence of others. -/
def EngineSettings.standard : EngineSettings := ⟨180, 30, 1000, 4⟩

/-- All settings. -/
structure Settings where
  serviceName : String
  environment : String
  observability : ObservabilitySettings
  engine : EngineSettings
  deriving DecidableEq, Repr

/-- The name of the environment in production. -/
def Settings.production : String := "production"

/-- The service runs in production. -/
def Settings.isProduction (s : Settings) : Bool := s.environment == Settings.production

end CatalogRules
