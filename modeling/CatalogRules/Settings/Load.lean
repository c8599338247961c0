import CatalogRules.Settings.Basic
import CatalogRules.Settings.Layers

/-! # Loading settings

Each setting has the value that the last layer gives to it, converted to the type of the setting, or
a standard value if no layer mentions it. Loading fails if a file cannot be read or a value cannot
be converted; settings that are not known are passed over. -/

namespace CatalogRules

/-- Why settings cannot be loaded. -/
inductive SettingsFault where
  | file (name : String)
  | value (setting : String)
  deriving DecidableEq, Repr

namespace Settings

variable [Library]

open Library (text? truth? natural? short?)

/-! ### Records -/

/-- The field of a record with a given name and place: a record is a table, or an array of its
fields in order. -/
def slot (name : String) (place : Nat) : Toml.Value → Option Toml.Value
  | .table fs => fs.lookup name
  | .array items => items[place]?
  | _ => none

/-- A field of a record that may be missing. -/
def convert {α : Type} (read : Toml.Value → Option α) (default : α) (name : String) (place : Nat)
    (record : Toml.Value) : Except SettingsFault α :=
  match slot name place record with
  | none => .ok default
  | some v =>
    match read v with
    | some a => .ok a
    | none => .error (.value name)

/-- The value is a record. -/
def isRecord : Toml.Value → Bool
  | .table _ => true
  | .array _ => true
  | _ => false

/-- What is logged and measured, in a record. -/
def observabilitySection (v : Toml.Value) : Except SettingsFault ObservabilitySettings := do
  let standard := ObservabilitySettings.standard
  let level ← convert text? standard.logLevel "log_level" 0 v
  let format ← convert text? standard.logFormat "log_format" 1 v
  let enabled ← convert truth? standard.metricsEnabled "metrics_enabled" 2 v
  let metricsPort ← convert short? standard.metricsPort "metrics_port" 3 v
  .ok ⟨level, format, enabled, metricsPort⟩

/-- How definitions are loaded and entities are scanned, in a record. -/
def engineSection (v : Toml.Value) : Except SettingsFault EngineSettings := do
  let standard := EngineSettings.standard
  let interval ← convert natural? standard.refreshIntervalSecs "refresh_interval_secs" 0 v
  let page ← convert natural? standard.pageSize "page_size" 1 v
  let batch ← convert natural? standard.backfillBatchSize "backfill_batch_size" 2 v
  let concurrency ← convert natural? standard.backfillConcurrency "backfill_concurrency" 3 v
  .ok ⟨interval, page, batch, concurrency⟩

/-- A section of the settings: a record that may be missing. -/
def partOf {α : Type} (read : Toml.Value → Except SettingsFault α) (name : String)
    (settings : Toml.Value) : Except SettingsFault α := do
  let record ← convert (fun v => if isRecord v then some v else none) (.table []) name 0 settings
  read record

/-- The settings in a table. -/
def ofTable (t : Toml.Value) : Except SettingsFault Settings := do
  let service ← convert text? "" "service_name" 0 t
  let environment ← convert text? "" "environment" 0 t
  let observability ← partOf observabilitySection "observability" t
  let engine ← partOf engineSection "test_engine" t
  .ok ⟨service, environment, observability, engine⟩

/-! ### Loading -/

/-- The layer of the file for a name. -/
def fileLayer (files : List (String × String)) (name : String) : Except SettingsFault Layer :=
  match Library.file? files (name ++ ".toml") with
  | some l => .ok l
  | none => .error (.file name)

/-- The layer of the names of the service and of the environment. -/
def names (service environment : String) : Layer :=
  [("service_name", .string service), ("environment", .string environment)]

/-- The layers, from the first to the last. -/
def layers (service environment : String) (files vars : List (String × String)) :
    Except SettingsFault (List Layer) := do
  let general ← fileLayer files "default"
  let special ← fileLayer files environment
  let own ← fileLayer files service
  .ok [names service environment, general, special, own, Layer.ofVariables vars]

/-- The settings for a service in an environment, given the files and the environment variables. -/
def load (service environment : String) (files vars : List (String × String)) :
    Except SettingsFault Settings := do
  ofTable (Layer.combine (← layers service environment files vars))

/-- The names of the variables that set a single known setting. -/
def variableNames : List String :=
  ["CATALOG_SERVICE_NAME", "CATALOG_ENVIRONMENT", "CATALOG_OBSERVABILITY__LOG_LEVEL",
    "CATALOG_OBSERVABILITY__LOG_FORMAT", "CATALOG_OBSERVABILITY__METRICS_ENABLED",
    "CATALOG_OBSERVABILITY__METRICS_PORT", "CATALOG_TEST_ENGINE__REFRESH_INTERVAL_SECS",
    "CATALOG_TEST_ENGINE__PAGE_SIZE", "CATALOG_TEST_ENGINE__BACKFILL_BATCH_SIZE",
    "CATALOG_TEST_ENGINE__BACKFILL_CONCURRENCY"]

/-- The variable that names the environment. -/
def environmentVariable : String := "CATALOG_ENV"

/-- The environment if no variable names it. -/
def defaultEnvironment : String := "development"

/-- The environment that the variables name. -/
def environmentIn (vars : List (String × String)) : String :=
  (vars.lookup environmentVariable).getD defaultEnvironment

end Settings
end CatalogRules
