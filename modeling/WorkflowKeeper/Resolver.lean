import WorkflowKeeper.Cache

namespace WorkflowKeeper

/-- A lookup that reads and changes a state. -/
abbrev Lookup (σ : Type) := ExceptT LookupError (StateM σ)

structure Resolver (σ : Type) where
  commitHash : (owner repo ref : String) → Lookup σ String
  /-- The newest tag that a pattern allows, as seen from a ref. -/
  latest : (owner repo ref pattern : String) → Lookup σ Release
  newest : (owner repo : String) → Lookup σ Release
  tagOf : (owner repo hash : String) → Lookup σ (Option String)
  latestInMajor : (owner repo major : String) → Lookup σ Release

end WorkflowKeeper
