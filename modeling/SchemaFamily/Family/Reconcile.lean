import SchemaFamily.Family.Link

/-
  Multiplexers for a family. A usage in a model whose values form a group with two shapes is
  represented by a multiplexer, named after what it uses. Documents are taken after their imports,
  so that a name is first met in the document nearest to the definition; later usages with the
  same name share the multiplexer, and another document that needs it depends on it. Values that
  are keyed need a key flag in the definition that is used.
-/

namespace SchemaFamily

/-- A usage in a model whose values form a group with two shapes. -/
structure Candidate where
  usage : UsageRef
  holder : String
  value : Usage
  group : GroupAs
deriving DecidableEq, Repr

/-- The usages of a declaration that need a multiplexer, in order. -/
def Declaration.candidates (d : Declaration) : List Candidate :=
  d.definition.usages.filterMap fun (slot, u) =>
    match u.groupAs with
    | some group =>
      if slot.isModel && group.requiresMultiplexer then some ⟨⟨d.id, slot⟩, d.name, u, group⟩
      else none
    | none => none

/-- How the values of a group are held, unless they are to be keyed and there is no key flag. -/
def MultiplexMode.of? (group : GroupAs) (target : Declaration) : Option MultiplexMode :=
  match group.inJson, target.definition.jsonKey with
  | .byKey, none => none
  | .byKey, some indexFlag => some (.byKey indexFlag)
  | _, _ => some .singletonOrArray

/-- The usages of all declarations that a document owns that need a multiplexer. -/
def Graph.candidates (g : Graph) (document : DocumentId) : Except Dangling (List Candidate) := do
  let owner ← g.document document
  let holders ← Graph.collect (owner.owned.map g.declaration)
  return holders.flatMap Declaration.candidates

/-- Lets a usage in a document be represented by the multiplexer of its name, which is made when
    there is none; the number made. -/
def reconcileUsage (suffix : String) (document : DocumentId) (c : Candidate) : Pass Nat := do
  let owner ← Pass.ask (·.document document)
  let site := owner.site c.holder c.value.position
  match c.value.declaration? with
  | none => throw (.unresolved site c.value.kind (c.value.referenceName?.getD ""))
  | some wrapped =>
    let target ← Pass.ask (·.declaration wrapped)
    match MultiplexMode.of? c.group target with
    | none => throw (.missingIndexKey site target.name c.group.name)
    | some mode =>
      let name := multiplexerName target.name suffix
      match (← get).multiplexerNamed? name with
      | some existing =>
        let m ← Pass.ask (·.multiplexer existing)
        Pass.change fun g =>
          (g.registerDependency document m.owner name (.multiplexer existing)).map (·.1)
        modify (·.bindUsage c.usage existing)
        return 0
      | none =>
        let (g, added) := (← get).addMultiplexer fun id =>
          { id, name, owner := document, usage := c.usage, wrapped, wrappedName := target.name,
            kind := target.kind, group := c.group, mode }
        set g
        match added with
        | .ok _ => return 1
        | .error handle => throw (.dangling handle)

/-- Lets every usage in a document that needs one be represented by a multiplexer, and puts the
    document's multiplexers in order; the number made. -/
def reconcileDocument (suffix : String) (document : DocumentId) : Pass Nat := do
  let candidates ← Pass.ask (·.candidates document)
  let made ← Pass.total (reconcileUsage suffix document) candidates
  Pass.change (·.sortMultiplexers document)
  return made

/-- Lets every usage of a family that needs one be represented by a multiplexer; the number
    made. -/
def reconcile (suffix : String) : Pass Nat := do
  match (← get).root? with
  | none => return 0
  | some root =>
    let documents ← Pass.ask (·.postorder root)
    Pass.total (reconcileDocument suffix) documents

end SchemaFamily
