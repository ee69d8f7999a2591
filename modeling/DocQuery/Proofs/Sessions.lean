import DocQuery.Engine
import DocQuery.Proofs.Parsed
/-!
# DocQuery.Proofs.Sessions

What engines answer over a whole history. Whatever has been done with any number of engines and
their copies, an engine answers as if it compiled afresh (`World.answers_fresh`): what is kept in
a cache was compiled as its key says, and the predefined expressions that engines share were
compiled by the backend that they have.
-/

namespace DocQuery

/-! ### Histories

A world is all engines with what they share. A request is served by one of them, and a copy is
another one that shares its caches. -/

/-- What is asked of one engine. -/
inductive Request where
  | copy
  | setBackend (backend : Backend)
  | setCaching (caching : Bool)
  | clearCache
  | compile (code : String) (options : CompileOptions)
  | predefined (which : Predefined)

/-- What is done next. An engine is named by its place among all engines. -/
inductive Operation where
  | create (options : Options)
  | ask (engine : Nat) (request : Request)

/-- What an operation answers, if it compiles something. -/
abbrev Answer := Option (Except Error Shared)

/-- All engines, and what they share. -/
structure World where
  engines : List Engine := []
  store : Store := {}

namespace World

/-- The engine at a place does what it is asked for. -/
def serve (world : World) (place : Nat) (engine : Engine) : Request → World × Answer
  | .copy => ({ world with engines := world.engines ++ [engine] }, none)
  | .setBackend backend =>
    let (changed, store) := (engine.setBackend backend).run world.store
    ({ engines := world.engines.set place changed, store }, none)
  | .setCaching caching =>
    ({ world with engines := world.engines.set place (engine.setCaching caching) }, none)
  | .clearCache =>
    let (_, store) := engine.clearCache.run world.store
    ({ world with store }, none)
  | .compile code options =>
    let (answer, store) := (engine.compile code options).run world.store
    ({ world with store }, some answer)
  | .predefined which =>
    let (answer, store) := (engine.predefined which).run world.store
    ({ world with store }, some answer)

/-- One operation. Nothing comes of asking an engine that there is not. -/
def step (world : World) : Operation → World × Answer
  | .create options =>
    let (engine, store) := (Engine.create options).run world.store
    ({ engines := world.engines ++ [engine], store }, none)
  | .ask place request =>
    match world.engines[place]? with
    | some engine => world.serve place engine request
    | none => (world, none)

/-- The world after some operations. -/
def run (world : World) : List Operation → World
  | [] => world
  | operation :: rest => (world.step operation).1.run rest

/-- The world with other caches. -/
def withCaches (world : World) (caches : List Cache) : World :=
  { world with store := { world.store with caches } }

end World

/-! ### One request

What `compile` and `predefined` do, one equation for each way that they can go. An engine looks for
an expression in its cache only if caching is on and no parameters are given, and it keeps only what
could be built. -/

namespace CacheKey

/-- What is compiled under a key. -/
def build (key : CacheKey) : Except Error Expression :=
  Expression.build key.backend key.code { scope := key.scope, mode := key.mode }

end CacheKey

namespace Engine

variable (engine : Engine) (store : Store)

/-- What the engine keeps a text under. -/
def keyOf (code : String) (options : CompileOptions) : CacheKey :=
  ⟨code, options.scope, options.mode, engine.options.backend⟩

/-- The engine looks for what it compiles in its cache, and keeps it there. -/
def Caches (options : CompileOptions) : Prop :=
  engine.options.caching = true ∧ options.parameters.isEmpty = true

/-- What cannot be built leaves the store as it was. -/
theorem build_error {code : String} {options : CompileOptions} {error : Error}
    (h : Expression.build engine.options.backend code options = .error error) :
    (engine.build code options).run store = (.error error, store) := by
  simp only [Engine.build, h]
  rfl

/-- What is built gets the next number, by which it is known from others. -/
theorem build_ok {code : String} {options : CompileOptions} {expression : Expression}
    (h : Expression.build engine.options.backend code options = .ok expression) :
    (engine.build code options).run store =
      (.ok ⟨store.next, expression⟩, { store with next := store.next + 1 }) := by
  simp only [Engine.build, h]
  rfl

/-- Past the cache, compiling is building. -/
theorem compile_direct {code : String} {options : CompileOptions} (h : ¬ engine.Caches options) :
    engine.compile code options = engine.build code options := by
  unfold Engine.compile
  rw [if_pos]
  cases hcaching : engine.options.caching <;> simp_all [Caches]

section Cached

variable {code : String} {options : CompileOptions} (hcaches : engine.Caches options)
include hcaches

/-- The key of a text says all that building it depends on, as there are no parameters. -/
theorem build_keyOf :
    (engine.keyOf code options).build = Expression.build engine.options.backend code options := by
  obtain ⟨scope, mode, parameters⟩ := options
  obtain rfl : parameters = [] := List.isEmpty_iff.mp hcaches.2
  rfl

/-- What is found under the key is the answer. -/
theorem compile_hit {shared : Shared}
    (h : (engine.cacheIn store).lookup (engine.keyOf code options) = some shared) :
    (engine.compile code options).run store = (.ok shared, store) := by
  unfold Engine.compile
  rw [if_neg (by simp [hcaches.1, hcaches.2])]
  simp only [StateT.run_bind, StateT.run_get, pure_bind]
  simp only [keyOf] at h
  rw [h]
  rfl

/-- What is not found is built and, if that succeeds, kept behind all others of this cache. -/
theorem compile_miss (h : (engine.cacheIn store).lookup (engine.keyOf code options) = none) :
    (engine.compile code options).run store =
      match Expression.build engine.options.backend code options with
      | .error error => (.error error, store)
      | .ok expression =>
        let shared : Shared := ⟨store.next, expression⟩
        (.ok shared, { store with
          next := store.next + 1
          caches := store.caches.set engine.cache
            (engine.cacheIn store ++ [(engine.keyOf code options, shared)]) }) := by
  unfold Engine.compile
  rw [if_neg (by simp [hcaches.1, hcaches.2])]
  simp only [StateT.run_bind, StateT.run_get, pure_bind]
  simp only [keyOf] at h
  rw [h]
  cases hbuild : Expression.build engine.options.backend code options with
  | error error =>
      have := engine.build_error store hbuild
      simp only [StateT.run_bind, this]
      rfl
  | ok expression =>
      simp only [StateT.run_bind, engine.build_ok store hbuild]
      rfl

end Cached

/-- A predefined expression that has been built is the answer. -/
theorem predefined_hit {which : Predefined} {shared : Shared}
    (h : (engine.slotsIn store).lookup which = some shared) :
    (engine.predefined which).run store = (.ok shared, store) := by
  unfold Engine.predefined
  simp only [StateT.run_bind, StateT.run_get, pure_bind, h]
  rfl

/-- One that has not been is built and kept for all engines with this place. -/
theorem predefined_miss {which : Predefined} (h : (engine.slotsIn store).lookup which = none) :
    (engine.predefined which).run store =
      match Expression.build engine.options.backend which.code {} with
      | .error error => (.error error, store)
      | .ok expression =>
        let shared : Shared := ⟨store.next, expression⟩
        (.ok shared, { store with
          next := store.next + 1
          slots := store.slots.set engine.slots
            (engine.slotsIn store ++ [(which, shared)]) }) := by
  unfold Engine.predefined
  simp only [StateT.run_bind, StateT.run_get, pure_bind, h]
  cases hbuild : Expression.build engine.options.backend which.code {} with
  | error error =>
      simp only [engine.build_error store hbuild]
      rfl
  | ok expression =>
      simp only [engine.build_ok store hbuild]
      rfl

end Engine

namespace World

/-- Everything that one operation can do to a world, with its answer. -/
inductive Step (world : World) : Operation → World → Answer → Prop where
  | create (options : Options) :
      Step world (.create options)
        { engines := world.engines ++
            [⟨options, world.store.caches.length, world.store.slots.length⟩]
          store := { world.store with
            caches := world.store.caches ++ [[]], slots := world.store.slots ++ [[]] } } none
  | nobody {place : Nat} (request : Request) (hnone : world.engines[place]? = none) :
      Step world (.ask place request) world none
  | copy {place : Nat} {engine : Engine} (hengine : world.engines[place]? = some engine) :
      Step world (.ask place .copy) { world with engines := world.engines ++ [engine] } none
  | setBackend {place : Nat} {engine : Engine} (backend : Backend)
      (hengine : world.engines[place]? = some engine) :
      Step world (.ask place (.setBackend backend))
        { engines := world.engines.set place
            { options := { engine.options with backend }, cache := engine.cache
              slots := world.store.slots.length }
          store := { world.store with slots := world.store.slots ++ [[]] } } none
  | setCaching {place : Nat} {engine : Engine} (caching : Bool)
      (hengine : world.engines[place]? = some engine) :
      Step world (.ask place (.setCaching caching))
        { world with engines := world.engines.set place (engine.setCaching caching) } none
  | clearCache {place : Nat} {engine : Engine} (hengine : world.engines[place]? = some engine) :
      Step world (.ask place .clearCache)
        (world.withCaches (world.store.caches.set engine.cache [])) none
  | failed {place : Nat} {engine : Engine} {code : String} {options : CompileOptions}
      {error : Error} (hengine : world.engines[place]? = some engine)
      (hbuild : Expression.build engine.options.backend code options = .error error) :
      Step world (.ask place (.compile code options)) world (some (.error error))
  | direct {place : Nat} {engine : Engine} {code : String} {options : CompileOptions}
      {expression : Expression} (hengine : world.engines[place]? = some engine)
      (hdirect : ¬ engine.Caches options)
      (hbuild : Expression.build engine.options.backend code options = .ok expression) :
      Step world (.ask place (.compile code options))
        { world with store := { world.store with next := world.store.next + 1 } }
        (some (.ok ⟨world.store.next, expression⟩))
  | hit {place : Nat} {engine : Engine} {code : String} {options : CompileOptions}
      {shared : Shared} (hengine : world.engines[place]? = some engine)
      (hcaches : engine.Caches options)
      (hlookup : (engine.cacheIn world.store).lookup (engine.keyOf code options) = some shared) :
      Step world (.ask place (.compile code options)) world (some (.ok shared))
  | kept {place : Nat} {engine : Engine} {code : String} {options : CompileOptions}
      {expression : Expression} (hengine : world.engines[place]? = some engine)
      (hcaches : engine.Caches options)
      (hlookup : (engine.cacheIn world.store).lookup (engine.keyOf code options) = none)
      (hbuild : Expression.build engine.options.backend code options = .ok expression) :
      Step world (.ask place (.compile code options))
        { world with store := { world.store with
            next := world.store.next + 1
            caches := world.store.caches.set engine.cache (engine.cacheIn world.store ++
              [(engine.keyOf code options, ⟨world.store.next, expression⟩)]) } }
        (some (.ok ⟨world.store.next, expression⟩))
  | predefinedFailed {place : Nat} {engine : Engine} {which : Predefined} {error : Error}
      (hengine : world.engines[place]? = some engine)
      (hbuild : Expression.build engine.options.backend which.code {} = .error error) :
      Step world (.ask place (.predefined which)) world (some (.error error))
  | predefinedHit {place : Nat} {engine : Engine} {which : Predefined} {shared : Shared}
      (hengine : world.engines[place]? = some engine)
      (hlookup : (engine.slotsIn world.store).lookup which = some shared) :
      Step world (.ask place (.predefined which)) world (some (.ok shared))
  | predefinedKept {place : Nat} {engine : Engine} {which : Predefined} {expression : Expression}
      (hengine : world.engines[place]? = some engine)
      (hlookup : (engine.slotsIn world.store).lookup which = none)
      (hbuild : Expression.build engine.options.backend which.code {} = .ok expression) :
      Step world (.ask place (.predefined which))
        { world with store := { world.store with
            next := world.store.next + 1
            slots := world.store.slots.set engine.slots (engine.slotsIn world.store ++
              [(which, ⟨world.store.next, expression⟩)]) } }
        (some (.ok ⟨world.store.next, expression⟩))

/-- The ways of `compile`, of which `failed` covers building past the cache and for it. -/
theorem step_compile {world : World} {place : Nat} {engine : Engine}
    (hengine : world.engines[place]? = some engine) (code : String) (options : CompileOptions) :
    Step world (.ask place (.compile code options))
      (world.serve place engine (.compile code options)).1
      (world.serve place engine (.compile code options)).2 := by
  simp only [serve]
  by_cases hcaches : engine.Caches options
  · cases hlookup : (engine.cacheIn world.store).lookup (engine.keyOf code options) with
    | some shared =>
        rw [engine.compile_hit world.store hcaches hlookup]
        exact .hit hengine hcaches hlookup
    | none =>
        rw [engine.compile_miss world.store hcaches hlookup]
        cases hbuild : Expression.build engine.options.backend code options with
        | error error => exact .failed hengine hbuild
        | ok expression => exact .kept hengine hcaches hlookup hbuild
  · rw [engine.compile_direct hcaches]
    cases hbuild : Expression.build engine.options.backend code options with
    | error error =>
        rw [engine.build_error world.store hbuild]
        exact .failed hengine hbuild
    | ok expression =>
        rw [engine.build_ok world.store hbuild]
        exact .direct hengine hcaches hbuild

theorem step_predefined {world : World} {place : Nat} {engine : Engine}
    (hengine : world.engines[place]? = some engine) (which : Predefined) :
    Step world (.ask place (.predefined which))
      (world.serve place engine (.predefined which)).1
      (world.serve place engine (.predefined which)).2 := by
  simp only [serve]
  cases hlookup : (engine.slotsIn world.store).lookup which with
  | some shared =>
      rw [engine.predefined_hit world.store hlookup]
      exact .predefinedHit hengine hlookup
  | none =>
      rw [engine.predefined_miss world.store hlookup]
      cases hbuild : Expression.build engine.options.backend which.code {} with
      | error error => exact .predefinedFailed hengine hbuild
      | ok expression => exact .predefinedKept hengine hlookup hbuild

/-- Every operation does one of these steps. -/
theorem step_cases (world : World) (operation : Operation) :
    Step world operation (world.step operation).1 (world.step operation).2 := by
  cases operation with
  | create options => exact .create options
  | ask place request =>
      simp only [step]
      cases hengine : world.engines[place]? with
      | none => exact .nobody request hengine
      | some engine =>
          cases request with
          | copy => exact .copy hengine
          | setBackend backend => exact .setBackend backend hengine
          | setCaching caching => exact .setCaching caching hengine
          | clearCache => exact .clearCache hengine
          | compile code options => exact step_compile hengine code options
          | predefined which => exact step_predefined hengine which

/-! ### What is kept

Two invariants of a world, kept by every step and therefore by every history: each entry of a cache
was built as its key says (`Kept`), and engines that share a place for predefined expressions have
the same backend (`Owned`). The second one is about pairs of engines, so a step that adds an engine
compares it with all others. -/

/-- Every expression in a cache is what is compiled under its key. -/
def Kept (store : Store) : Prop :=
  ∀ cache ∈ store.caches, ∀ entry ∈ cache, entry.1.build = .ok entry.2.expression

/-- Every engine has a cache and a place for its predefined expressions, and whoever shares
that place has the backend that they were compiled with. -/
structure Owned (engines : List Engine) (store : Store) : Prop where
  cache_lt : ∀ engine ∈ engines, engine.cache < store.caches.length
  slots_lt : ∀ engine ∈ engines, engine.slots < store.slots.length
  backend_eq : ∀ engine ∈ engines, ∀ other ∈ engines, engine.slots = other.slots →
    engine.options.backend = other.options.backend
  built : ∀ engine ∈ engines, ∀ entry ∈ engine.slotsIn store,
    Expression.build engine.options.backend entry.1.code {} = .ok entry.2.expression

/-- What an engine finds stands in a cache of the store; without a cache it finds nothing. -/
theorem mem_cacheIn {engine : Engine} {store : Store} {entry : CacheKey × Shared}
    (h : entry ∈ engine.cacheIn store) : ∃ cache ∈ store.caches, entry ∈ cache := by
  unfold Engine.cacheIn at h
  cases hcache : store.caches[engine.cache]? with
  | none => simp [hcache] at h
  | some cache => exact ⟨cache, List.mem_of_getElem? hcache, by simpa [hcache] using h⟩

/-- Keeping one more expression under its key. -/
theorem Kept.cache {store : Store} (h : Kept store) (engine : Engine) {key : CacheKey}
    {expression : Expression} (hbuild : key.build = .ok expression) :
    Kept { store with
      next := store.next + 1
      caches := store.caches.set engine.cache
        (engine.cacheIn store ++ [(key, ⟨store.next, expression⟩)]) } := by
  intro cache hcache entry hentry
  rcases List.mem_or_eq_of_mem_set hcache with hold | rfl
  · exact h cache hold entry hentry
  · rcases List.mem_append.mp hentry with hold | hnew
    · obtain ⟨cache, hcache, hentry⟩ := mem_cacheIn hold
      exact h cache hcache entry hentry
    · rw [List.mem_singleton.mp hnew]
      exact hbuild

/-- No step keeps anything under a wrong key: only one step adds an expression to a cache, and it
has just been built as its key says. -/
theorem kept_step {world world' : World} {operation : Operation} {answer : Answer}
    (h : Kept world.store) (hstep : Step world operation world' answer) : Kept world'.store := by
  cases hstep with
  | nobody | copy | setBackend | setCaching | failed | direct | hit | predefinedFailed
  | predefinedHit | predefinedKept => exact h
  | create =>
      intro cache hcache
      rcases List.mem_append.mp hcache with hold | hnew
      · exact h cache hold
      · simp [List.mem_singleton.mp hnew]
  | clearCache =>
      intro cache hcache
      rcases List.mem_or_eq_of_mem_set hcache with hold | rfl
      · exact h cache hold
      · simp
  | @kept _ engine _ _ _ _ hcaches _ hbuild =>
      exact h.cache engine ((engine.build_keyOf hcaches).trans hbuild)

/-- Caches may change as they like, as long as there are as many. -/
theorem Owned.of_slots_eq {engines : List Engine} {store store' : Store} (h : Owned engines store)
    (hcaches : store'.caches.length = store.caches.length) (hslots : store'.slots = store.slots) :
    Owned engines store' where
  cache_lt engine hengine := hcaches ▸ h.cache_lt engine hengine
  slots_lt engine hengine := hslots ▸ h.slots_lt engine hengine
  backend_eq := h.backend_eq
  built engine hengine entry hentry := by
    rw [Engine.slotsIn, hslots] at hentry
    exact h.built engine hengine entry hentry

/-- Engines that share everything with engines there were, and compile as those do. -/
theorem Owned.of_twins {engines engines' : List Engine} {store : Store} (h : Owned engines store)
    (htwin : ∀ engine ∈ engines', ∃ twin ∈ engines, engine.cache = twin.cache ∧
      engine.slots = twin.slots ∧ engine.options.backend = twin.options.backend) :
    Owned engines' store where
  cache_lt engine hengine := by
    obtain ⟨twin, hmem, hcache, -, -⟩ := htwin engine hengine
    exact hcache ▸ h.cache_lt twin hmem
  slots_lt engine hengine := by
    obtain ⟨twin, hmem, -, hslots, -⟩ := htwin engine hengine
    exact hslots ▸ h.slots_lt twin hmem
  backend_eq engine hengine other hother heq := by
    obtain ⟨twin, hmem, -, hslots, hbackend⟩ := htwin engine hengine
    obtain ⟨twin', hmem', -, hslots', hbackend'⟩ := htwin other hother
    rw [hbackend, hbackend']
    exact h.backend_eq twin hmem twin' hmem' (by rw [← hslots, ← hslots', heq])
  built engine hengine entry hentry := by
    obtain ⟨twin, hmem, -, hslots, hbackend⟩ := htwin engine hengine
    rw [hbackend]
    rw [Engine.slotsIn, hslots] at hentry
    exact h.built twin hmem entry hentry

/-- An engine that shares its predefined expressions with none of the engines there were. -/
theorem Owned.of_fresh {engines engines' : List Engine} {store store' : Store} {fresh : Engine}
    (h : Owned engines store) (hengines : ∀ engine ∈ engines', engine ∈ engines ∨ engine = fresh)
    (hcache : fresh.cache < store'.caches.length) (hslots : fresh.slots = store.slots.length)
    (hgrown : store.caches.length ≤ store'.caches.length)
    (hadded : store'.slots = store.slots ++ [[]]) : Owned engines' store' where
  cache_lt engine hengine := by
    rcases hengines engine hengine with hold | rfl
    · exact Nat.lt_of_lt_of_le (h.cache_lt engine hold) hgrown
    · exact hcache
  slots_lt engine hengine := by
    rw [hadded, List.length_append]
    rcases hengines engine hengine with hold | rfl
    · exact Nat.lt_succ_of_lt (h.slots_lt engine hold)
    · rw [hslots]
      exact Nat.lt_succ_self _
  backend_eq engine hengine other hother heq := by
    rcases hengines engine hengine with hold | rfl <;>
      rcases hengines other hother with hold' | rfl
    · exact h.backend_eq engine hold other hold' heq
    · -- an engine there was has a place before the new one
      have hlt := h.slots_lt engine hold
      omega
    · have hlt := h.slots_lt other hold'
      omega
    · rfl
  built engine hengine entry hentry := by
    rw [Engine.slotsIn, hadded] at hentry
    rcases hengines engine hengine with hold | rfl
    · rw [List.getElem?_append_left (h.slots_lt engine hold)] at hentry
      exact h.built engine hold entry hentry
    · simp [hslots] at hentry

/-- Keeping one of the predefined expressions of an engine. -/
theorem Owned.predefine {engines : List Engine} {store : Store} (h : Owned engines store)
    {engine : Engine} (hengine : engine ∈ engines) {which : Predefined} {expression : Expression}
    (hbuild : Expression.build engine.options.backend which.code {} = .ok expression) :
    Owned engines { store with
      next := store.next + 1
      slots := store.slots.set engine.slots
        (engine.slotsIn store ++ [(which, ⟨store.next, expression⟩)]) } where
  cache_lt := h.cache_lt
  slots_lt other hother := by
    rw [List.length_set]
    exact h.slots_lt other hother
  backend_eq := h.backend_eq
  built other hother entry hentry := by
    simp only [Engine.slotsIn, List.getElem?_set] at hentry
    -- Engines with the same place have the same backend, so the new expression is right for them
    -- too.
    by_cases hshares : engine.slots = other.slots
    · have hlt := h.slots_lt engine hengine
      have hbackend := h.backend_eq engine hengine other hother hshares
      rw [if_pos hshares, if_pos hlt, Option.getD_some] at hentry
      rw [← hbackend]
      rcases List.mem_append.mp hentry with hold | hnew
      · exact h.built engine hengine entry hold
      · rw [List.mem_singleton.mp hnew]
        exact hbuild
    · rw [if_neg hshares] at hentry
      exact h.built other hother entry hentry

/-- The places for predefined expressions go with backends, whatever is asked. -/
theorem owned_step {world world' : World} {operation : Operation} {answer : Answer}
    (h : Owned world.engines world.store) (hstep : Step world operation world' answer) :
    Owned world'.engines world'.store := by
  cases hstep with
  | nobody | failed | hit | predefinedFailed | predefinedHit => exact h
  -- A new engine, and one with another backend, get a place of their own for what is predefined;
  -- a copy shares that of the engine that it was copied from.
  | create options =>
      have hadded := fun engine (hengine : engine ∈ world.engines ++
          [⟨options, world.store.caches.length, world.store.slots.length⟩]) =>
        (List.mem_append.mp hengine).imp_right List.mem_singleton.mp
      exact h.of_fresh hadded (by simp) rfl (by simp) rfl
  | @setBackend place engine backend hengine =>
      refine h.of_fresh (fun other hother => List.mem_or_eq_of_mem_set hother) ?_ rfl
        (Nat.le_refl _) rfl
      exact h.cache_lt engine (List.mem_of_getElem? hengine)
  | @copy place engine hengine =>
      refine h.of_twins fun other hother => ?_
      rcases List.mem_append.mp hother with hold | hnew
      · exact ⟨other, hold, rfl, rfl, rfl⟩
      · rw [List.mem_singleton.mp hnew]
        exact ⟨engine, List.mem_of_getElem? hengine, rfl, rfl, rfl⟩
  | @setCaching place engine caching hengine =>
      refine h.of_twins fun other hother => ?_
      rcases List.mem_or_eq_of_mem_set hother with hold | rfl
      · exact ⟨other, hold, rfl, rfl, rfl⟩
      · exact ⟨engine, List.mem_of_getElem? hengine, rfl, rfl, rfl⟩
  | clearCache => exact h.of_slots_eq List.length_set rfl
  | direct => exact h.of_slots_eq rfl rfl
  | kept => exact h.of_slots_eq List.length_set rfl
  | predefinedKept hengine _ hbuild => exact h.predefine (List.mem_of_getElem? hengine) hbuild

/-- What holds of a world that has come about by operations. -/
structure Sound (world : World) : Prop where
  kept : Kept world.store
  owned : Owned world.engines world.store

/-- Where nothing has been done there is nothing to go wrong. -/
theorem sound_empty : Sound {} where
  kept := List.forall_mem_nil _
  owned := ⟨List.forall_mem_nil _, List.forall_mem_nil _, List.forall_mem_nil _,
    List.forall_mem_nil _⟩

theorem Sound.step {world : World} (h : world.Sound) (operation : Operation) :
    (world.step operation).1.Sound :=
  ⟨kept_step h.kept (world.step_cases operation), owned_step h.owned (world.step_cases operation)⟩

/-- By induction on the operations, each of which keeps it. -/
theorem Sound.run {world : World} (h : world.Sound) (operations : List Operation) :
    (world.run operations).Sound := by
  induction operations generalizing world with
  | nil => exact h
  | cons operation rest ih => exact ih (h.step operation)

/-! ### Answers -/

/-- What compiling afresh would answer. -/
def fresh (world : World) : Operation → Option (Except Error Expression)
  | .ask place (.compile code options) => world.engines[place]?.map fun engine =>
    Expression.build engine.options.backend code options
  | .ask place (.predefined which) => world.engines[place]?.map fun engine =>
    Expression.build engine.options.backend which.code {}
  | _ => none

theorem mem_of_lookup {κ α : Type} [BEq κ] [LawfulBEq κ] {key : κ} {value : α}
    {entries : List (κ × α)} (h : entries.lookup key = some value) : (key, value) ∈ entries := by
  obtain ⟨before, after, heq, -⟩ := List.lookup_eq_some_iff.mp h
  simp [heq]

/-- An answer is what compiling afresh would give: it has just been built, or it is found and was
built from the same text with the same backend. -/
theorem Sound.answer_eq {world world' : World} (h : world.Sound) {operation : Operation}
    {answer : Answer} (hstep : Step world operation world' answer) :
    answer.map (·.map Shared.expression) = world.fresh operation := by
  cases hstep with
  | create | copy | setBackend | setCaching | clearCache => rfl
  | nobody request hnone => cases request <;> simp [fresh, hnone]
  | failed hengine hbuild | direct hengine _ hbuild | kept hengine _ _ hbuild =>
      simp [fresh, hengine, hbuild, Except.map]
  | predefinedFailed hengine hbuild | predefinedKept hengine _ hbuild =>
      simp [fresh, hengine, hbuild, Except.map]
  | @hit _ engine _ _ _ hengine hcaches hlookup =>
      obtain ⟨cache, hcache, hentry⟩ := mem_cacheIn (mem_of_lookup hlookup)
      have hbuild := (engine.build_keyOf hcaches).symm.trans (h.kept cache hcache _ hentry)
      simp [fresh, hengine, hbuild, Except.map]
  | @predefinedHit _ engine _ _ hengine hlookup =>
      have hbuild := h.owned.built engine (List.mem_of_getElem? hengine) _ (mem_of_lookup hlookup)
      simp [fresh, hengine, hbuild, Except.map]

/-- Where compiling fails, nothing has happened. -/
theorem eq_of_failed {world world' : World} {operation : Operation} {error : Error}
    (hstep : Step world operation world' (some (.error error))) : world' = world := by
  cases hstep with
  | failed | predefinedFailed => rfl

/-! ### Finding again

What has been compiled into a cache is found there by any engine that shares the cache, until it is
cleared. Nothing else takes an entry away, whatever is done with other caches. -/

/-- The operation empties a cache. -/
def Clears (world : World) (cache : Nat) : Operation → Prop
  | .ask place .clearCache => ∃ engine, world.engines[place]? = some engine ∧ engine.cache = cache
  | _ => False

/-- None of the operations, one after the other, empties the cache. -/
def Spares (world : World) (cache : Nat) : List Operation → Prop
  | [] => True
  | operation :: rest =>
    ¬ world.Clears cache operation ∧ (world.step operation).1.Spares cache rest

/-- What is kept in a cache under a key. -/
def keptIn (world : World) (cache : Nat) (key : CacheKey) : Option Shared :=
  (world.store.caches[cache]?.getD []).lookup key

/-- What is found under a key is found after any step that does not empty the cache. -/
theorem keptIn_step {world world' : World} {operation : Operation} {answer : Answer}
    {cache : Nat} {key : CacheKey} {shared : Shared} (h : world.keptIn cache key = some shared)
    (hstep : Step world operation world' answer) (hspares : ¬ world.Clears cache operation) :
    world'.keptIn cache key = some shared := by
  have hlt : cache < world.store.caches.length := by
    refine Nat.lt_of_not_le fun hge => ?_
    simp [keptIn, List.getElem?_eq_none hge] at h
  cases hstep with
  | nobody | copy | setBackend | setCaching | failed | direct | hit | predefinedFailed
  | predefinedHit | predefinedKept => exact h
  | create =>
      unfold keptIn at h ⊢
      rwa [List.getElem?_append_left hlt]
  | clearCache hengine =>
      unfold keptIn at h ⊢
      rwa [withCaches, List.getElem?_set_ne fun heq => hspares ⟨_, hengine, heq⟩]
  | @kept _ engine =>
      unfold keptIn at h ⊢
      by_cases heq : engine.cache = cache
      · -- what is added stands behind what is found
        subst heq
        rw [List.getElem?_set_self hlt, Option.getD_some, List.lookup_append]
        unfold Engine.cacheIn
        rw [h]
        rfl
      · rwa [List.getElem?_set_ne heq]

/-- By induction on the operations. -/
theorem keptIn_run {world : World} {cache : Nat} {key : CacheKey} {shared : Shared}
    (h : world.keptIn cache key = some shared) {operations : List Operation}
    (hspares : world.Spares cache operations) :
    (world.run operations).keptIn cache key = some shared := by
  induction operations generalizing world with
  | nil => exact h
  | cons operation rest ih =>
      exact ih (keptIn_step h (world.step_cases operation) hspares.1) hspares.2

/-- What has been compiled with a cache is in it. -/
theorem Sound.keptIn_compile {world world' : World} (h : world.Sound) {place : Nat}
    {engine : Engine} {code : String} {options : CompileOptions} {shared : Shared}
    (hengine : world.engines[place]? = some engine) (hcaches : engine.Caches options)
    (hstep : Step world (.ask place (.compile code options)) world' (some (.ok shared))) :
    world'.keptIn engine.cache (engine.keyOf code options) = some shared := by
  cases hstep with
  | direct hengine' hdirect =>
      cases hengine.symm.trans hengine'
      exact absurd hcaches hdirect
  | hit hengine' _ hlookup =>
      cases hengine.symm.trans hengine'
      exact hlookup
  | kept hengine' _ hlookup =>
      cases hengine.symm.trans hengine'
      have hlt := h.owned.cache_lt engine (List.mem_of_getElem? hengine)
      simp [keptIn, List.lookup_append, hlookup, hlt]

/-- An engine that finds an expression under its key answers with it and does nothing else. -/
theorem compile_of_keptIn {world : World} {place : Nat} {engine : Engine} {code : String}
    {options : CompileOptions} {shared : Shared} (hengine : world.engines[place]? = some engine)
    (hcaches : engine.Caches options)
    (h : world.keptIn engine.cache (engine.keyOf code options) = some shared) :
    world.step (.ask place (.compile code options)) = (world, some (.ok shared)) := by
  simp only [step, hengine, serve, engine.compile_hit world.store hcaches h]

/-! ### Past the cache -/

/-- What is compiled past the cache is compiled alike with any caches, and leaves them alone. -/
theorem step_direct {world : World} {place : Nat} {engine : Engine} {code : String}
    {options : CompileOptions} (hengine : world.engines[place]? = some engine)
    (hdirect : ¬ engine.Caches options) (caches : List Cache) :
    (world.withCaches caches).step (.ask place (.compile code options)) =
      ((world.step (.ask place (.compile code options))).1.withCaches caches,
        (world.step (.ask place (.compile code options))).2) := by
  have hengine' : (world.withCaches caches).engines[place]? = some engine := hengine
  simp only [step, hengine, hengine', serve, engine.compile_direct hdirect]
  cases hbuild : Expression.build engine.options.backend code options with
  | error error =>
      rw [engine.build_error world.store hbuild, engine.build_error _ hbuild]
  | ok expression =>
      rw [engine.build_ok world.store hbuild, engine.build_ok _ hbuild]
      rfl

/-- An expression has the backend that it was built with. -/
theorem backend_of_build {backend : Backend} {code : String} {options : CompileOptions}
    {expression : Expression} (h : Expression.build backend code options = .ok expression) :
    expression.backend = backend := by
  obtain ⟨n, program, -, -, rfl⟩ := Expression.exists_of_build h
  rfl

/-- After any history, an engine answers `compile` and `predefined` with what compiling afresh with
its backend would, and a failure changes nothing. What it has kept is found again by every engine
with the same cache as long as this is not emptied; what it compiles past its cache has nothing to
do with any cache; and its predefined expressions are made for its backend. -/
theorem answers_fresh (before : List Operation) :
    let world := World.run {} before
    (∀ operation,
      (world.step operation).2.map (·.map Shared.expression) = world.fresh operation) ∧
    (∀ operation error, (world.step operation).2 = some (.error error) →
      (world.step operation).1 = world) ∧
    (∀ place engine code options shared, world.engines[place]? = some engine →
      engine.Caches options →
      (world.step (.ask place (.compile code options))).2 = some (.ok shared) →
      ∀ between, (world.step (.ask place (.compile code options))).1.Spares engine.cache between →
      let later := (world.step (.ask place (.compile code options))).1.run between
      ∀ place' engine' options', later.engines[place']? = some engine' →
        engine'.Caches options' → engine'.cache = engine.cache →
        engine'.keyOf code options' = engine.keyOf code options →
        (later.step (.ask place' (.compile code options'))).2 = some (.ok shared)) ∧
    (∀ place engine code options caches, world.engines[place]? = some engine →
      ¬ engine.Caches options →
      (world.withCaches caches).step (.ask place (.compile code options)) =
        ((world.step (.ask place (.compile code options))).1.withCaches caches,
          (world.step (.ask place (.compile code options))).2)) ∧
    ∀ place engine which shared, world.engines[place]? = some engine →
      (world.step (.ask place (.predefined which))).2 = some (.ok shared) →
      shared.expression.backend = engine.options.backend := by
  intro world
  -- All of it holds in any sound world, and any history leads to one.
  have hsound : world.Sound := sound_empty.run before
  refine ⟨fun operation => hsound.answer_eq (world.step_cases operation),
    fun operation error hfailed => ?_, ?_, fun _ _ _ _ caches hengine hdirect =>
      step_direct hengine hdirect caches, fun place engine which shared hengine hanswer => ?_⟩
  · have hstep := world.step_cases operation
    rw [hfailed] at hstep
    exact eq_of_failed hstep
  · intro place engine code options shared hengine hcaches hanswer between hspares later place'
      engine' options' hengine' hcaches' hcache hkey
    have hstep := world.step_cases (.ask place (.compile code options))
    rw [hanswer] at hstep
    have hkept : later.keptIn engine.cache (engine.keyOf code options) = some shared :=
      keptIn_run (hsound.keptIn_compile hengine hcaches hstep) hspares
    -- Another engine with this cache looks under the same key.
    rw [← hcache, ← hkey] at hkept
    rw [compile_of_keptIn hengine' hcaches' hkept]
  · have hanswers := hsound.answer_eq (world.step_cases (.ask place (.predefined which)))
    rw [hanswer] at hanswers
    simp only [fresh, hengine, Option.map_some, Except.map, Option.some.injEq] at hanswers
    exact backend_of_build hanswers.symm

/-- A copy finds what the engine that it was copied from has compiled. -/
theorem answers_fresh_copy : ∃ shared,
    ((World.run {} [.create {}]).step (.ask 0 (.compile "1" {}))).2 = some (.ok shared) ∧
      ((((World.run {} [.create {}]).step (.ask 0 (.compile "1" {}))).1.run [.ask 0 .copy]).step
        (.ask 1 (.compile "1" {}))).2 = some (.ok shared) := by
  obtain ⟨hfresh, -, hagain, -⟩ := answers_fresh [.create {}]
  have hengine : (World.run {} [.create {}]).engines[0]? = some ⟨{}, 0, 0⟩ := rfl
  have hbuilt : (Expression.build .instructions "1" {}).toOption.isSome = true := by
    decide +kernel
  have hanswer : _ = some (Expression.build .instructions "1" {}) :=
    hfresh (.ask 0 (.compile "1" {}))
  obtain ⟨shared, hshared⟩ : ∃ shared,
      ((World.run {} [.create {}]).step (.ask 0 (.compile "1" {}))).2 = some (.ok shared) := by
    obtain ⟨answer, hsome, heq⟩ := Option.map_eq_some_iff.mp hanswer
    cases answer with
    | ok shared => exact ⟨shared, hsome⟩
    | error error =>
        rw [← heq] at hbuilt
        cases hbuilt
  refine ⟨shared, hshared, ?_⟩
  exact hagain 0 _ "1" {} shared hengine ⟨rfl, rfl⟩ hshared [.ask 0 .copy] ⟨by rintro ⟨⟩, trivial⟩
    1 ⟨{}, 0, 0⟩ {} rfl ⟨rfl, rfl⟩ rfl rfl

end World

end DocQuery
