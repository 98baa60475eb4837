import QueryProjection.Expansion

/-!
# Registries side by side

A session holds any number of registries by name.  Each has a source and the filters that
it has made; what was learnt about types is kept in caches, and registries may share one.
`perform` carries out one step and tells what came of it: the answer or the fault, the
notices, and the types that the source was asked about on the way.

A step that fails keeps what was learnt before it failed, and the session goes on.
-/

namespace QueryProjection

/-- A registry of a session: its cache is one of those of the session. -/
structure RegistryState where
  source : Source
  cache : Nat
  filters : List (FilterKey × IssuedFilter)
  asked : List TypeName

/-- Registries, caches, and the names under which caches are shared. -/
structure Session where
  caches : List FieldCache
  cacheNames : OrderedMap String Nat
  registries : OrderedMap String RegistryState
  nextSerial : Nat

inductive Request where
  | hasType (type : TypeName)
  | modelFields (type : TypeName)
  | related (type : TypeName) (field : String)
  /-- the names are an empty list also where no set of names is given -/
  | fieldFilter (type : TypeName) (exclude : List String)
  | compile (exclude : Exclusion) (model : Option String) (strict : Bool)
      (fragments : Option FragmentTable) (bindings : Option Bindings) (nodes : List Field)

inductive Answer where
  | nothing
  | truth (value : Bool)
  | fields (fields : ModelFields)
  | related (target : Option RelationTarget)
  | filter (issued : IssuedFilter)
  | projection (projection : Projection)
  | types (names : List TypeName)

inductive SessionStep where
  | openRegistry (id : String) (source : Source) (cache : Option String)
  | putFields (cache : String) (type : TypeName) (fields : ModelFields)
  | listTypes (cache : String)
  | amendSource (id : String) (type : TypeName) (fields : Option ModelFields)
  | request (id : String) (request : Request)

inductive StepFault where
  | options (fault : OptionsFault)
  | compilation (fault : Fault)
  | noRegistry (id : String)
  deriving DecidableEq, Repr

structure StepReport where
  result : Except StepFault Answer
  notices : List Notice
  asked : List TypeName

namespace Session

def start : Session := { caches := [], cacheNames := [], registries := [], nextSerial := 0 }

def cacheAt (session : Session) (cache : Nat) : FieldCache :=
  session.caches[cache]?.getD []

def newCache (session : Session) : Session × Nat :=
  ({ session with caches := session.caches ++ [[]] }, session.caches.length)

/-- The cache shared under a name, made when the name is first used. -/
def sharedCache (session : Session) (name : String) : Session × Nat :=
  match OrderedMap.get? session.cacheNames name with
  | some cache => (session, cache)
  | none =>
      let (session, cache) := session.newCache
      ({ session with cacheNames := OrderedMap.insert session.cacheNames name cache }, cache)

def memoryOf (session : Session) (registry : RegistryState) : Memory :=
  { cache := session.cacheAt registry.cache, filters := registry.filters,
    asked := registry.asked, nextSerial := session.nextSerial }

def keep (session : Session) (id : String) (registry : RegistryState) (memory : Memory) :
    Session :=
  { session with
    caches := session.caches.set registry.cache memory.cache
    registries := OrderedMap.insert session.registries id
      { registry with filters := memory.filters, asked := memory.asked }
    nextSerial := memory.nextSerial }

/-- What a request asks of a source, once its options are checked. -/
def answer (source : Source) : Request → Except OptionsFault (Compile Answer)
  | .hasType type => .ok do
      return .truth (← Compile.ofLookup (Registry.hasType source type))
  | .modelFields type => .ok do
      return .fields (← Compile.ofLookup (Registry.modelFields source type))
  | .related type field => .ok do
      return .related (← Compile.ofLookup (Registry.related source type field))
  | .fieldFilter type exclude => .ok do
      return .filter (← Compile.ofLookup (Registry.fieldFilter source type exclude))
  | .compile exclude model strict fragments bindings nodes => do
      let options ← Options.check exclude (some source) model strict
      return do
        return .projection (← compileFields { fragments, bindings, options } nodes)

/-- A report on a step that only changes the session. -/
def quiet (answer : Answer) : StepReport := { result := .ok answer, notices := [], asked := [] }

def refused (fault : StepFault) : StepReport :=
  { result := .error fault, notices := [], asked := [] }

def perform (session : Session) : SessionStep → StepReport × Session
  | .openRegistry id source cacheName =>
      let (session, cache) := match cacheName with
        | some name => session.sharedCache name
        | none => session.newCache
      let registry : RegistryState := { source, cache, filters := [], asked := [] }
      (quiet .nothing,
        { session with registries := OrderedMap.insert session.registries id registry })
  | .putFields cacheName type fields =>
      let (session, cache) := session.sharedCache cacheName
      let entries := (session.cacheAt cache).enter type fields
      (quiet .nothing, { session with caches := session.caches.set cache entries })
  | .listTypes cacheName =>
      let (session, cache) := session.sharedCache cacheName
      (quiet (.types (session.cacheAt cache).types), session)
  | .amendSource id type fields =>
      match OrderedMap.get? session.registries id with
      | none => (refused (.noRegistry id), session)
      | some registry =>
          let amended := { registry with source := registry.source.amend type.key fields }
          (quiet .nothing,
            { session with registries := OrderedMap.insert session.registries id amended })
  | .request id request =>
      match OrderedMap.get? session.registries id with
      | none => (refused (.noRegistry id), session)
      | some registry =>
          match answer registry.source request with
          | .error fault => (refused (.options fault), session)
          | .ok compile =>
              let outcome := compile (session.memoryOf registry)
              ({ result := outcome.result.mapError StepFault.compilation
                 notices := outcome.notices
                 asked := outcome.memory.asked.drop registry.asked.length },
               session.keep id registry outcome.memory)

end Session

end QueryProjection
