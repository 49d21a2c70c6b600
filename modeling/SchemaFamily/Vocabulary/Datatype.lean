/-
  Datatypes. A field or a flag carries a value of one of 25 datatypes, each written as a keyword.
  No two datatypes share a keyword, so a keyword determines its datatype (`ofKeyword?_keyword`).
-/

namespace SchemaFamily

/-- The datatype of a value. -/
inductive Datatype where
  | boolean
  | empty
  | string
  | mixed
  | markupLine
  | markupMultiline
  | date
  | dateTime
  | dateWithTimezone
  | dateTimeWithTimezone
  | ncName
  | token
  | email
  | uri
  | uriReference
  | anyUri
  | base64
  | idRef
  | nmToken
  | id
  | uuid
  | integer
  | nonNegativeInteger
  | positiveInteger
  | decimal
deriving DecidableEq, Repr

namespace Datatype

/-- The datatype of a value that names none. -/
instance : Inhabited Datatype := ⟨.string⟩

/-- Every datatype. -/
def all : List Datatype :=
  [.boolean, .empty, .string, .mixed, .markupLine, .markupMultiline, .date, .dateTime,
   .dateWithTimezone, .dateTimeWithTimezone, .ncName, .token, .email, .uri, .uriReference,
   .anyUri, .base64, .idRef, .nmToken, .id, .uuid, .integer, .nonNegativeInteger,
   .positiveInteger, .decimal]

/-- The keyword of a datatype. -/
def keyword : Datatype → String
  | .boolean => "boolean"
  | .empty => "empty"
  | .string => "string"
  | .mixed => "mixed"
  | .markupLine => "markup-line"
  | .markupMultiline => "markup-multiline"
  | .date => "date"
  | .dateTime => "dateTime"
  | .dateWithTimezone => "date-with-timezone"
  | .dateTimeWithTimezone => "dateTime-with-timezone"
  | .ncName => "NCName"
  | .token => "token"
  | .email => "email"
  | .uri => "uri"
  | .uriReference => "uri-reference"
  | .anyUri => "anyURI"
  | .base64 => "base64Binary"
  | .idRef => "IDREF"
  | .nmToken => "NMTOKEN"
  | .id => "ID"
  | .uuid => "uuid"
  | .integer => "integer"
  | .nonNegativeInteger => "nonNegativeInteger"
  | .positiveInteger => "positiveInteger"
  | .decimal => "decimal"

/-- The datatype of a keyword. -/
def ofKeyword? (s : String) : Option Datatype := all.find? (·.keyword == s)

theorem ofKeyword?_keyword (d : Datatype) : ofKeyword? d.keyword = some d := by
  cases d <;> decide

theorem keyword_of_ofKeyword? {s : String} {d : Datatype} (h : ofKeyword? s = some d) :
    d.keyword = s := by
  simpa using List.find?_some h

/-- Values with inner markup. -/
def isMarkup : Datatype → Bool
  | .markupLine | .markupMultiline => true
  | _ => false

/-- Values that are numbers. -/
def isNumeric : Datatype → Bool
  | .integer | .nonNegativeInteger | .positiveInteger | .decimal => true
  | _ => false

end Datatype

end SchemaFamily
