import DocQuery.Expression
/-!
# DocQuery.Engine

Engines compile texts and keep what they have compiled. Copies of an engine share
its cache. An engine also has three expressions of its own, which are compiled when
they are first asked for; copies share them until one of them is given another
backend.

What engines share is in a store. A compiled expression has a number in the store by
which it is the same expression or another one.
-/

namespace DocQuery

/-- A compiled expression and the number that tells it from others. -/
structure Shared where
  number : Nat
  expression : Expression

/-- What a compiled expression is kept under. -/
structure CacheKey where
  code : String
  scope : Scope
  mode : ParseMode
  backend : Backend
deriving DecidableEq, Repr

/-- Compiled expressions by key. -/
abbrev Cache := List (CacheKey × Shared)

/-- The expressions that every engine has. -/
inductive Predefined where
  /-- The number of documents. -/
  | count
  /-- Whether there is a document. -/
  | exists
  /-- The identifier of a document. -/
  | idKey
deriving DecidableEq, Repr

namespace Predefined

/-- The text of the expression. -/
def code : Predefined → String
  | .count => "\x7bcount:COUNT(*._id)\x7d"
  | .exists => "\x7bexists:ANY(*._id)\x7d"
  | .idKey => "\x7bi:_id\x7d"

end Predefined

/-- The predefined expressions that have been compiled. -/
abbrev Slots := List (Predefined × Shared)

/-- What engines share. -/
structure Store where
  caches : List Cache := []
  slots : List Slots := []
  /-- The number of the next expression. -/
  next : Nat := 0

/-- What an engine compiles with. -/
structure Options where
  backend : Backend := Backend.standard
  caching : Bool := true
deriving DecidableEq, Repr

/-- An engine: its options, and what of the store it shares with its copies. -/
structure Engine where
  options : Options
  cache : Nat
  slots : Nat
deriving DecidableEq, Repr

/-- What is done with a store. -/
abbrev Session := StateM Store

namespace Engine

/-- The version of the library. -/
def version : String := "0.3.0"

/-- A new engine, which shares nothing. -/
def create (options : Options) : Session Engine := do
  let store ← get
  set { store with caches := store.caches ++ [[]], slots := store.slots ++ [[]] }
  return { options, cache := store.caches.length, slots := store.slots.length }

/-- The engine with another backend. It no longer shares its predefined expressions. -/
def setBackend (engine : Engine) (backend : Backend) : Session Engine := do
  let store ← get
  set { store with slots := store.slots ++ [[]] }
  return { engine with options := { engine.options with backend }, slots := store.slots.length }

/-- The engine with its cache in use or not. -/
def setCaching (engine : Engine) (caching : Bool) : Engine :=
  { engine with options := { engine.options with caching } }

/-- Empties the cache that the engine shares. -/
def clearCache (engine : Engine) : Session Unit :=
  modify fun store => { store with caches := store.caches.set engine.cache [] }

/-- The cache of the engine. -/
def cacheIn (engine : Engine) (store : Store) : Cache := store.caches[engine.cache]?.getD []

/-- The predefined expressions of the engine. -/
def slotsIn (engine : Engine) (store : Store) : Slots := store.slots[engine.slots]?.getD []

/-- The number of expressions that the engine has kept. -/
def cached (engine : Engine) (store : Store) : Nat := (engine.cacheIn store).length

/-- Compiles a text into an expression with a number of its own. -/
def build (engine : Engine) (code : String) (options : CompileOptions) :
    Session (Except Error Shared) := do
  match Expression.build engine.options.backend code options with
  | .error error => return .error error
  | .ok expression =>
    let store ← get
    set { store with next := store.next + 1 }
    return .ok ⟨store.next, expression⟩

/-- Compiles a text, or takes what has been compiled for it. Expressions with
parameters of their own are never kept. -/
def compile (engine : Engine) (code : String) (options : CompileOptions) :
    Session (Except Error Shared) := do
  if !engine.options.caching || !options.parameters.isEmpty then engine.build code options
  else
    let key : CacheKey := ⟨code, options.scope, options.mode, engine.options.backend⟩
    match (engine.cacheIn (← get)).lookup key with
    | some shared => return .ok shared
    | none =>
      match ← engine.build code options with
      | .error error => return .error error
      | .ok shared =>
        modify fun store =>
          { store with
            caches := store.caches.set engine.cache (engine.cacheIn store ++ [(key, shared)]) }
        return .ok shared

/-- One of the predefined expressions. -/
def predefined (engine : Engine) (which : Predefined) : Session (Except Error Shared) := do
  match (engine.slotsIn (← get)).lookup which with
  | some shared => return .ok shared
  | none =>
    match ← engine.build which.code {} with
    | .error error => return .error error
    | .ok shared =>
      modify fun store =>
        { store with
          slots := store.slots.set engine.slots (engine.slotsIn store ++ [(which, shared)]) }
      return .ok shared

end Engine

end DocQuery
