import CatalogRules.Registry.Basic

/-! # The standard registry

The entity types of the catalog: data assets, which share a number of aspects, glossary terms and
nodes, domains, tags, users, groups and platforms. -/

namespace CatalogRules.Registry

/-- The owners of an entity. -/
def ownership : AspectSpec := AspectSpec.plain.refer "owners.owner" ["corpuser", "corpGroup"]

/-- The tags of an entity. -/
def globalTags : AspectSpec := AspectSpec.plain.refer "tags.tag" ["tag"]

/-- The glossary terms of an entity. -/
def glossaryTerms : AspectSpec := AspectSpec.plain.refer "terms.urn" ["glossaryTerm"]

/-- The domains of an entity. -/
def domains : AspectSpec := AspectSpec.plain.refer "domains" ["domain"]

/-- The container of an entity. -/
def container : AspectSpec := AspectSpec.plain.refer "container" ["container"]

/-- The platform of an entity, which its schema names as well. -/
def platformInstance : AspectSpec := AspectSpec.plain.refer "platform" ["dataPlatform"]

/-- A data asset with a given key aspect. -/
def asset (key : String) : EntitySpec :=
  ((EntitySpec.ofKey key).withAspect "ownership" ownership
    |>.withAspect "globalTags" globalTags
    |>.withAspect "glossaryTerms" glossaryTerms
    |>.withAspect "domains" domains
    |>.withAspect "container" container
    |>.withAspect "dataPlatformInstance" platformInstance).withPlains
      ["status", "subTypes", "deprecation", "browsePaths", "institutionalMemory", "testResults"]

/-- The entity types of the catalog with their specifications. -/
def standardEntries : List (String × EntitySpec) := [
  ("dataset",
    ((asset "datasetKey").withAspect "upstreamLineage"
        (AspectSpec.plain.refer "upstreams.dataset" ["dataset"])
      |>.withAspect "schemaMetadata" platformInstance).withPlains
        ["datasetProperties", "editableDatasetProperties", "editableSchemaMetadata",
          "datasetProfile"]),
  ("chart",
    ((asset "chartKey").withAspect "chartInfo"
      (AspectSpec.plain.refer "inputs" ["dataset"])).withPlains ["editableChartProperties"]),
  ("dashboard",
    ((asset "dashboardKey").withAspect "dashboardInfo"
      ((AspectSpec.plain.refer "charts" ["chart"]).refer "datasets" ["dataset"])).withPlains
        ["editableDashboardProperties"]),
  ("dataJob",
    ((asset "dataJobKey").withAspect "dataJobInputOutput"
      ((AspectSpec.plain.refer "inputDatasets" ["dataset"]).refer "outputDatasets"
        ["dataset"])).withPlains ["dataJobInfo", "editableDataJobProperties"]),
  ("dataFlow", (asset "dataFlowKey").withPlains ["dataFlowInfo", "editableDataFlowProperties"]),
  ("container",
    (asset "containerKey").withPlains ["containerProperties", "editableContainerProperties"]),
  ("glossaryTerm",
    ((EntitySpec.ofKey "glossaryTermKey").withAspect "glossaryTermInfo"
        (AspectSpec.plain.refer "parentNode" ["glossaryNode"])
      |>.withAspect "ownership" ownership
      |>.withAspect "domains" domains).withPlains ["status", "deprecation"]),
  ("glossaryNode",
    (EntitySpec.ofKey "glossaryNodeKey").withAspect "glossaryNodeInfo"
        (AspectSpec.plain.refer "parentNode" ["glossaryNode"])
      |>.withAspect "ownership" ownership),
  ("domain",
    ((EntitySpec.ofKey "domainKey").withAspect "ownership" ownership).withPlains
      ["domainProperties"]),
  ("tag",
    ((EntitySpec.ofKey "tagKey").withAspect "ownership" ownership).withPlains
      ["tagProperties", "status"]),
  ("corpuser",
    ((EntitySpec.ofKey "corpUserKey").withAspect "corpUserInfo"
        (AspectSpec.plain.refer "managerUrn" ["corpuser"])
      |>.withAspect "globalTags" globalTags).withPlains
        ["corpUserEditableInfo", "corpUserStatus", "status"]),
  ("corpGroup",
    ((EntitySpec.ofKey "corpGroupKey").withAspect "ownership" ownership).withPlains
      ["corpGroupInfo", "corpGroupEditableInfo", "status"]),
  ("dataPlatform", (EntitySpec.ofKey "dataPlatformKey").withPlains ["dataPlatformInfo"])]

/-- The registry of the catalog. -/
def standard : Registry := Sorted.ofPairs standardEntries

end CatalogRules.Registry
