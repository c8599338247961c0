import CatalogRules.Action.Edit
import CatalogRules.Platform.Metrics

/-! # The platform

The platform is what the engine works on: the store, the handlers of actions, the clock and the
metrics. Every use of it by the engine is a call, which is logged before anything else happens; an
outage makes calls of a sort fail: all of them, those with one subject, or the one in some place of
the log, so that any pattern of failures is a list of outages.

A `Run` is a computation on the platform. It may fail, and what it did before it failed remains. -/

namespace CatalogRules

/-- A use of the platform. -/
inductive Call where
  | fetchAspects (entityType : String) (urns : List Urn) (aspects : List String)
  | fetchDefinitions (offset count : Nat)
  | persistResult (u : Urn) (r : Results)
  | applyAction (kind : ActionKind) (urns : List Urn) (params : Params)
  | scroll (entityType : String) (batch : Nat) (cursor : Option String)
  deriving DecidableEq

/-- The sorts of calls. -/
inductive CallSort where
  | fetchAspects | fetchDefinitions | persistResult | applyAction | scroll
  deriving DecidableEq, Repr

namespace Call

/-- The sort of a call. -/
def sort : Call → CallSort
  | .fetchAspects _ _ _ => .fetchAspects
  | .fetchDefinitions _ _ => .fetchDefinitions
  | .persistResult _ _ => .persistResult
  | .applyAction _ _ _ => .applyAction
  | .scroll _ _ _ => .scroll

/-- The name of what a call is about: the entity type, the offset, the entity name or the kind of the
action. -/
def subject : Call → String
  | .fetchAspects entityType _ _ => entityType
  | .fetchDefinitions offset _ => toString offset
  | .persistResult u _ => u.text
  | .applyAction kind _ _ => kind.name
  | .scroll entityType _ _ => entityType

/-- The failure of a call with a message. -/
def failure (c : Call) (message : String) : Failure :=
  match c with
  | .fetchAspects _ _ _ => .entityStore message
  | .fetchDefinitions _ _ => .definitionFetch message
  | .persistResult _ _ => .persist message
  | .applyAction kind _ _ => .action kind (.reported message)
  | .scroll _ _ _ => .search message

end Call

/-- What an outage of a sort of calls goes by: the name of what they are about, or the place of a
single call in the log. -/
inductive OutageSubject where
  | named (name : String)
  | place (n : Nat)
  deriving DecidableEq, Repr

instance : Coe String OutageSubject := ⟨.named⟩

/-- Which calls an outage is about. -/
structure OutageScope where
  sort : CallSort
  subject : OutageSubject
  deriving DecidableEq, Repr

/-- The name that stands for all. -/
def OutageScope.any : String := "*"

/-- The outages, with the messages of the failures. -/
abbrev Outages := List (OutageScope × String)

/-- The message with which a call fails in a place of the log, if it is out. -/
def Outages.message? (os : Outages) (n : Nat) (c : Call) : Option String :=
  os.lookup ⟨c.sort, c.subject⟩ <|> os.lookup ⟨c.sort, .place n⟩ <|>
    os.lookup ⟨c.sort, OutageScope.any⟩

/-- A page of definitions or the message of a failure. -/
abbrev ScriptedPage := Except String DefinitionPage

/-- Where definitions come from: the store, or a list of pages that are served one by one. -/
inductive DefinitionSource where
  | store
  | script (pages : List ScriptedPage)

/-- The platform. The clock shows milliseconds; searches of some entity types may be answered from
a list of pages. -/
structure Platform where
  store : Store
  handlers : Handlers
  now : Int
  definitions : DefinitionSource
  searches : List (String × List (Except String ScrollPage))
  outages : Outages
  calls : List Call
  fetches : Nat
  metrics : Metrics

/-- The platform over a store, with handlers for the given kinds and no history. -/
def Platform.ofStore (s : Store) (h : Handlers) (now : Int) : Platform :=
  ⟨s, h, now, .store, [], [], [], 0, []⟩

/-- The message with which the next call fails, if it is out. -/
def Platform.outage? (p : Platform) (c : Call) : Option String :=
  p.outages.message? p.calls.length c

/-- A computation on the platform. -/
abbrev Run := ExceptT Failure (StateM Platform)

namespace Run

/-- Increases a counter. -/
def count (m : Meter) : Run Unit :=
  modify fun p => { p with metrics := p.metrics.increment m }

/-- Sets a gauge. -/
def gauge (m : Meter) (n : Nat) : Run Unit :=
  modify fun p => { p with metrics := p.metrics.set m n }

/-- Logs a call and fails if it is out. -/
def call (c : Call) : Run Unit := do
  let p ← get
  set { p with calls := p.calls ++ [c] }
  match p.outage? c with
  | some message => throw (c.failure message)
  | none => pure ()

/-- The selected aspects of the known ones among some entities of a type. -/
def fetchAspects (entityType : String) (us : List Urn) (names : List String) :
    Run (List (Urn × Aspects)) := do
  call (.fetchAspects entityType us names)
  modify fun p => { p with fetches := p.fetches + 1 }
  return (← get).store.fetch us names

/-- Stores the results of an entity. -/
def persistResult (u : Urn) (r : Results) : Run Unit := do
  call (.persistResult u r)
  modify fun p => { p with store := p.store.putResults p.now u r }

/-- Applies an action to some entities. -/
def applyAction (a : Action) (us : List Urn) : Run Unit := do
  call (.applyAction a.kind us a.params)
  let p ← get
  match p.handlers.apply p.now a.kind a.params us p.store with
  | .ok s => set { p with store := s }
  | .error e => throw e

/-- A page of definitions; a script that is used up serves empty pages. -/
def fetchDefinitions (offset count : Nat) : Run DefinitionPage := do
  call (.fetchDefinitions offset count)
  let p ← get
  match p.definitions with
  | .store => return p.store.definitionPage offset count
  | .script [] => return ⟨[], 0⟩
  | .script (page :: rest) => do
    set { p with definitions := .script rest }
    match page with
    | .ok page => return page
    | .error message => throw (.definitionFetch message)

/-- A page of the names of the entities of a type. The cursors that a store of at most `2⁶³` names
serves do not lead to where the program stops; the message of the stop stands in for it. -/
def scroll (entityType : String) (batch : Nat) (cursor : Option String) : Run ScrollPage := do
  call (.scroll entityType batch cursor)
  let p ← get
  match p.searches.lookup entityType with
  | none =>
    liftExcept ((p.store.scroll entityType batch cursor).getD (.error (.search Word.overflow)))
  | some [] => return ⟨[], none⟩
  | some (page :: rest) => do
    set { p with searches := Keyed.put entityType rest p.searches }
    match page with
    | .ok page => return page
    | .error message => throw (.search message)
where
  liftExcept (e : Except Failure ScrollPage) : Run ScrollPage := match e with
    | .ok page => pure page
    | .error f => throw f

end Run
end CatalogRules
