import SchemaFamily.Data.Basic
import SchemaFamily.Family.Graph

/-
  How a family is shown as data. Every structure is a record of all its fields in a fixed order,
  every choice without contents is its name, and every choice with contents is a variant. Handles
  are their numbers, counted from 1.
-/

namespace SchemaFamily

/-! ## Handles, places and words -/

instance {arena : Arena} : ToData (Handle arena) := ⟨fun h => .number h.raw⟩

instance : ToData Path := ⟨fun p => .text p.text⟩

instance : ToData Position where
  toData p := .record [("line", toData p.line), ("column", toData p.column)]

/-- The name of a datatype. -/
def Datatype.label : Datatype → String
  | .boolean => "Boolean"
  | .empty => "Empty"
  | .string => "String"
  | .mixed => "Mixed"
  | .markupLine => "MarkupLine"
  | .markupMultiline => "MarkupMultiline"
  | .date => "Date"
  | .dateTime => "DateTime"
  | .dateWithTimezone => "DateWithTimezone"
  | .dateTimeWithTimezone => "DateTimeWithTimezone"
  | .ncName => "NcName"
  | .token => "Token"
  | .email => "Email"
  | .uri => "Uri"
  | .uriReference => "UriReference"
  | .anyUri => "AnyUri"
  | .base64 => "Base64"
  | .idRef => "IdRef"
  | .nmToken => "NmToken"
  | .id => "Id"
  | .uuid => "Uuid"
  | .integer => "Integer"
  | .nonNegativeInteger => "NonNegativeInteger"
  | .positiveInteger => "PositiveInteger"
  | .decimal => "Decimal"

instance : ToData Datatype := ⟨fun d => .text d.label⟩

/-- The name of a kind. -/
def Kind.label : Kind → String
  | .assembly => "Assembly"
  | .field => "Field"
  | .flag => "Flag"

instance : ToData Kind := ⟨fun k => .text k.label⟩

instance : ToData JsonGrouping where
  toData
    | .singletonOrArray => .text "SingletonOrArray"
    | .array => .text "Array"
    | .byKey => .text "ByKey"

instance : ToData XmlGrouping where
  toData
    | .ungrouped => .text "Ungrouped"
    | .grouped => .text "Grouped"

instance : ToData FieldWrapping where
  toData
    | .wrapped => .text "Wrapped"
    | .unwrapped => .text "Unwrapped"
    | .withWrapper => .text "WithWrapper"

instance : ToData MaxOccurs where
  toData
    | .bounded count => .variant "Bounded" (toData count)
    | .unbounded => .text "Unbounded"

instance : ToData Scope where
  toData
    | .everywhere => .text "Global"
    | .inline => .text "Inline"

/-! ## Definitions -/

instance : ToData GroupAs where
  toData g := .record
    [("name", toData g.name), ("in_json", toData g.inJson), ("in_xml", toData g.inXml)]

instance : ToData Target where
  toData
    | .reference name resolved =>
      .variant "Reference" (.record [("name", toData name), ("resolved", toData resolved)])
    | .inline declaration => .variant "Inline" (toData declaration)

instance : ToData Usage where
  toData u := .record
    [("kind", toData u.kind), ("target", toData u.target), ("group_as", toData u.groupAs),
     ("required", toData u.required), ("min_occurs", toData u.minOccurs),
     ("max_occurs", toData u.maxOccurs), ("in_xml", toData u.inXml),
     ("datatype", toData u.datatype), ("allowed_values", toData u.allowedValues),
     ("description", toData u.description), ("remarks", toData u.remarks),
     ("position", toData u.position)]

instance : ToData ModelItem where
  toData
    | .usage u => .variant "Usage" (toData u)
    | .choice members => .variant "Choice" (toData members)
    | .prose => .text "Prose"
    | .any => .text "Any"

instance : ToData Example where
  toData e := .record
    [("href", toData e.href), ("path", toData e.path), ("description", toData e.description),
     ("remarks", toData e.remarks), ("content", toData e.content)]

instance : ToData Metadata where
  toData m := .record
    [("formal_name", toData m.formalName), ("description", toData m.description),
     ("remarks", toData m.remarks), ("examples", toData m.examples),
     ("position", toData m.position)]

instance : ToData Body where
  toData
    | .assembly body => .variant "Assembly" <| .record
      [("flags", toData body.flags), ("model", toData body.model),
       ("json_key", toData body.jsonKey), ("root_name", toData body.rootName),
       ("address", toData body.address)]
    | .field body => .variant "Field" <| .record
      [("flags", toData body.flags), ("datatype", toData body.datatype),
       ("json_key", toData body.jsonKey), ("json_value_key", toData body.jsonValueKey),
       ("json_value_key_flag", toData body.jsonValueKeyFlag)]
    | .flag body => .variant "Flag" <| .record
      [("datatype", toData body.datatype), ("allowed_values", toData body.allowedValues)]

instance : ToData Definition where
  toData d := .record
    [("name", toData d.name), ("metadata", toData d.metadata), ("body", toData d.body)]

instance : ToData Slot where
  toData
    | .flag index => .variant "Flag" (toData index)
    | .model item => .variant "Model" (toData item)
    | .choice item member =>
      .variant "Choice" (.record [("item", toData item), ("member", toData member)])

instance : ToData UsageRef where
  toData ref := .record
    [("declaration", toData ref.declaration), ("slot", toData ref.slot)]

/-! ## Documents and families -/

instance : ToData Header where
  toData h := .record
    [("name", toData h.name), ("source", toData h.source), ("top", toData h.top),
     ("root", toData h.root), ("schema_name", toData h.schemaName),
     ("schema_version", toData h.schemaVersion), ("namespace", toData h.nameSpace),
     ("remarks", toData h.remarks), ("is_abstract", toData h.isAbstract)]

instance : ToData Import where
  toData i := .record [("href", toData i.href), ("position", toData i.position)]

instance : ToData Dependency where
  toData
    | .declaration id => .variant "Declaration" (toData id)
    | .multiplexer id => .variant "Multiplexer" (toData id)

instance : ToData Namespace where
  toData
    | .declaration kind => .variant "declaration" (toData kind)
    | .multiplexer => .text "multiplexer"

instance : ToData DependencyEntry where
  toData e := .record
    [("name", toData e.name), ("namespace", toData e.nameSpace),
     ("dependency", toData e.dependency)]

instance : ToData Document where
  toData d := .record
    [("id", toData d.id), ("header", toData d.header), ("imports", toData d.imports),
     ("assemblies", toData d.assemblies), ("fields", toData d.fields), ("flags", toData d.flags),
     ("inline", toData d.inline), ("imported", toData d.imported),
     ("dependencies", toData d.dependencies.entries), ("multiplexers", toData d.multiplexers)]

instance : ToData Declaration where
  toData d := .record
    [("id", toData d.id), ("owner", toData d.owner), ("scope", toData d.scope),
     ("definition", toData d.definition)]

instance : ToData MultiplexMode where
  toData
    | .singletonOrArray => .text "SingletonOrArray"
    | .byKey indexFlag => .variant "ByKey" (.record [("index_flag", toData indexFlag)])

instance : ToData Multiplexer where
  toData m := .record
    [("id", toData m.id), ("name", toData m.name), ("owner", toData m.owner),
     ("usage", toData m.usage), ("wrapped", toData m.wrapped),
     ("wrapped_name", toData m.wrappedName), ("kind", toData m.kind), ("group", toData m.group),
     ("mode", toData m.mode)]

instance : ToData Graph where
  toData g := .record
    [("documents", toData g.documents.toList), ("declarations", toData g.declarations.toList),
     ("multiplexers", toData g.multiplexers.toList)]

end SchemaFamily
