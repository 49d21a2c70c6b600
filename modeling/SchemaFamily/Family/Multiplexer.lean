import SchemaFamily.Definition.Slot

/-
  Multiplexers. A multiplexer is the declaration that reconciles the two shapes of a group: it
  stands for the values of one usage and keys them by a flag, or takes one value or an array.
-/

namespace SchemaFamily

/-- How a multiplexer holds its values. -/
inductive MultiplexMode where
  | singletonOrArray
  | byKey (indexFlag : String)
deriving DecidableEq, Repr

/-- A declaration that reconciles the shapes of a group. -/
structure Multiplexer where
  id : MultiplexerId
  name : String
  owner : DocumentId
  usage : UsageRef
  wrapped : DeclarationId
  wrappedName : String
  kind : Kind
  group : GroupAs
  mode : MultiplexMode
deriving DecidableEq, Repr

/-- The flag by which the values are keyed, if they are. -/
def Multiplexer.indexFlag? (m : Multiplexer) : Option String :=
  match m.mode with
  | .byKey indexFlag => some indexFlag
  | .singletonOrArray => none

/-- The name of the multiplexer of a declaration. -/
def multiplexerName (declarationName suffix : String) : String := declarationName ++ suffix

end SchemaFamily
