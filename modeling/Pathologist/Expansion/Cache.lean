import Mathlib.Data.List.AList

/-!
# The include-expansion cache

Stored expansions of headers, each under the macro environment its expansion read.
A header has a list of variants per language; a list is only ever appended to, so
an index once handed out keeps naming the same variant. `Rest` is what an entry
carries besides the data the cache looks at.
-/
open Function
namespace Pathologist.Expansion
variable {Name Path Def Rest : Type*}

inductive Language
  | c
  | cpp
  deriving DecidableEq

/-- Key of the cache: a header and the language it was lexed as. -/
abbrev ExpansionKey (Path : Type*) := Path × Language

/-- What a cached expansion read from the environment that produced it. -/
structure MacroFingerprint (Name Path : Type*) where
  incompatible : Bool
  /-- Names read while bound, each with a hash of the binding. -/
  defined : List (Name × ℕ)
  /-- Names read while unbound. -/
  undefined : List Name
  /-- The system bundles whose declarations the expansion requires. -/
  requiredHeaders : List (Path × ℕ)
  /-- The exact number of preceding system bundles. -/
  headerContextSize : Option ℕ
  deriving DecidableEq

/-- Whether an environment, given by what it answers, satisfies the fingerprint. -/
def MacroFingerprint.satisfiedBy (deps : MacroFingerprint Name Path)
    (binding : Name → Option ℕ) (anyBound : List Name → Bool) (header : Path → Option ℕ)
    (headerCount : ℕ) : Bool :=
  !deps.incompatible &&
    deps.headerContextSize.all (fun size => decide (size = headerCount)) &&
    deps.defined.all (fun entry => decide (binding entry.1 = some entry.2)) &&
    (deps.undefined.isEmpty || !anyBound deps.undefined) &&
    deps.requiredHeaders.all (fun entry => decide (header entry.1 = some entry.2))

/-- The environment of a run: its macro table, which of the bindings are builtin
fallbacks, and the system bundles supplied so far. -/
structure MacroEnv (Name Path Def : Type*) where
  macros : Name → Option Def
  fallbacks : Name → Bool
  headers : AList fun _ : Path => ℕ

namespace MacroEnv
variable [DecidableEq Name] [DecidableEq Path]

/-- What `name` is bound to, and whether that is a builtin fallback. -/
def binding (env : MacroEnv Name Path Def) (name : Name) : Option (Def × Bool) :=
  (env.macros name).map fun definition => (definition, env.fallbacks name)

/-- Does `deps` describe this environment? `hash` is the hash of a binding. -/
def satisfies (hash : Def → Bool → ℕ) (env : MacroEnv Name Path Def)
    (deps : MacroFingerprint Name Path) : Bool :=
  deps.satisfiedBy (fun name => (env.binding name).map fun b => hash b.1 b.2)
    (fun names => names.any fun name => (env.macros name).isSome)
    (fun path => env.headers.lookup path) env.headers.entries.length

def insertMacro (env : MacroEnv Name Path Def) (name : Name) (definition : Def) :
    MacroEnv Name Path Def :=
  { env with
    macros := update env.macros name (some definition)
    fallbacks := update env.fallbacks name false }

def removeMacro (env : MacroEnv Name Path Def) (name : Name) : MacroEnv Name Path Def :=
  { env with
    macros := update env.macros name none
    fallbacks := update env.fallbacks name false }

def provideSystemHeader (env : MacroEnv Name Path Def) (path : Path) (signature : ℕ) :
    MacroEnv Name Path Def :=
  { env with headers := env.headers.insert path signature }

end MacroEnv

/-- How a record names a variant: by its index in the list, or by its id until it
has an index. -/
inductive Handle
  | index (n : ℕ)
  | provisional (id : ℕ)
  deriving DecidableEq

/-- A cached expansion of a header. -/
structure IncludeExpansion (Name Path Rest : Type*) where
  /-- Unique for the process. -/
  id : ℕ
  signature : ℕ
  deps : MacroFingerprint Name Path
  /-- The variants this expansion replayed for the headers it brought in. -/
  nestedVariants : List (Path × Handle)
  rest : Rest

/-- The variants of each header. A header nobody published has none. -/
abbrev Cache (Name Path Rest : Type*) :=
  ExpansionKey Path → List (IncludeExpansion Name Path Rest)

/-- Whether a list of variants with these signatures takes one more: it is not
full and holds none with that signature. -/
def admitsVariant (signatures : List ℕ) (cap signature : ℕ) : Bool :=
  !signatures.contains signature && decide (signatures.length < cap)

section Direct
variable [DecidableEq Name] [DecidableEq Path]

/-- The first variant whose fingerprint the environment satisfies, with its index. -/
def Cache.matchingVariant (cache : Cache Name Path Rest) (hash : Def → Bool → ℕ)
    (env : MacroEnv Name Path Def) (key : ExpansionKey Path) :
    Option (Handle × IncludeExpansion Name Path Rest) :=
  ((cache key).findIdx? fun e => env.satisfies hash e.deps).bind fun n =>
    (cache key)[n]?.map fun e => (.index n, e)

/-- Append `entry` if the list admits it. The handle names the entry, or the
variant that already holds its signature. -/
def Cache.publishVariant (cache : Cache Name Path Rest) (cap : ℕ) (key : ExpansionKey Path)
    (entry : IncludeExpansion Name Path Rest) : Option Handle × Cache Name Path Rest :=
  if entry.deps.incompatible then (none, cache)
  else if admitsVariant ((cache key).map IncludeExpansion.signature) cap entry.signature then
    (some (.index (cache key).length), update cache key (cache key ++ [entry]))
  else
    (((cache key).findIdx? fun e => decide (e.signature = entry.signature)).map .index, cache)

end Direct

end Pathologist.Expansion
