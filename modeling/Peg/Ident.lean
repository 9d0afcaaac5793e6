/-! Names for the nodes of a grammar, for the rules and for the hooks.
Two nodes built at different places have different names even when they look alike; a node keeps
its name wherever it is used. -/
namespace Peg

/-- A rule is known by a name of the library or by the order in which rules were made. -/
inductive RuleId
  | named (name : String)
  | numbered (n : Nat)
deriving DecidableEq

/-- Where a node was built: at the top of a library definition, of a statement or of a rule's
body, or as a part of another node. -/
inductive Ident
  | named (name : String)
  | statement (n : Nat)
  | body (rule : RuleId)
  | part (i : Nat) (whole : Ident)
deriving DecidableEq

/-- The standard hook prints; the others are known by the order in which they were made. -/
inductive HookId
  | standard
  | numbered (n : Nat)
deriving DecidableEq

end Peg
