import CatalogRules.Settings.Library

/-! # Layers of settings

Settings come from layers, of which a later one overrides an earlier one setting by setting: the
names of the service and of the environment, the files for all environments, for the environment and
for the service, and environment variables. -/

namespace CatalogRules

/-- Settings that are laid over others: values with their keys. -/
abbrev Layer := List (String × Toml.Value)

namespace Layer

variable [Settings.Library]

/-- A layer laid over the settings of the layers before. -/
def applyTo (settings : Toml.Value) (l : Layer) : Toml.Value :=
  l.foldl (fun t (key, v) => Settings.Library.set t key v) settings

/-- The settings of some layers together. -/
def combine (ls : List Layer) : Toml.Value := ls.foldl applyTo (.table [])

/-- The layer of some variables. -/
def ofVariables (vars : List (String × String)) : Layer :=
  vars.filterMap fun (name, text) => Settings.Library.ofVariable? name text

end Layer
end CatalogRules
