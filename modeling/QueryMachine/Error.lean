/-!
# Errors

What can be wrong with a statement, a configuration or the bytes of a record. Each constructor is a
cause; `Error.message` is the one place that words it.

* `Category` — found before any instruction is written, in bytes, or while compiling.
* `ResultCode` — the numeric code reported to a caller.
-/

namespace QueryMachine

/-- Why a statement was not compiled or a record not read. -/
inductive Error where
  | missingStatement
  | emptyTableName
  | emptyValues (table : String)
  | emptyRecord
  | columnCountMismatch (row expected actual : Nat)
  | assignmentCountMismatch (columns values : Nat)
  | noSuchTable (name : String)
  | noSuchColumn (name : String)
  | noSuchIndex (name : String)
  | tableExists (name : String)
  | indexExists (name : String)
  | invalidConfig (detail : String)
  | truncatedHeader (detail : String)
  | invalidVarint (offset : Nat)
  | truncatedBody (column needed available : Nat)
  | headerLengthMismatch (declared actual : Nat)
  | reservedSerialType (code column : Nat)
  | invalidText (column : Nat)
  | unresolvedReference (name : String)
  | unsupported (construct : String)
  | misuseOfAggregate (name : String)
  | compoundArity (operator : String)
  | orderByTermMismatch (ordinal : String)
  | internal (detail : String)
deriving DecidableEq, Repr, Inhabited

/-- The three families of errors. -/
inductive Category where
  /-- Bad input, found before anything is compiled. -/
  | validation
  /-- Malformed record bytes. -/
  | codec
  /-- A well-formed statement that cannot be compiled. -/
  | compile
deriving DecidableEq, Repr

/-- The code reported to a caller. -/
inductive ResultCode where
  | error
  | internal
  | corrupt
  | mismatch
  | misuse
  | noLfs
deriving DecidableEq, Repr

def ResultCode.number : ResultCode → Nat
  | .error => 1
  | .internal => 2
  | .corrupt => 11
  | .mismatch => 20
  | .misuse => 21
  | .noLfs => 22

namespace Error

def message : Error → String
  | missingStatement => "no statement to compile"
  | emptyTableName => "table name must not be empty"
  | emptyValues table => "INSERT into " ++ table ++ " has no rows"
  | emptyRecord => "cannot encode an empty record"
  | columnCountMismatch row expected actual =>
    "row " ++ toString row ++ " has " ++ toString actual ++ " values for "
      ++ toString expected ++ " columns"
  | assignmentCountMismatch columns values =>
    toString columns ++ " columns assigned " ++ toString values ++ " values"
  | noSuchTable name => "no such table: " ++ name
  | noSuchColumn name => "no such column: " ++ name
  | noSuchIndex name => "no such index: " ++ name
  | tableExists name => "table " ++ name ++ " already exists"
  | indexExists name => "index " ++ name ++ " already exists"
  | invalidConfig detail => "invalid codegen configuration: " ++ detail
  | truncatedHeader detail => "record header truncated: " ++ detail
  | invalidVarint offset => "invalid varint at offset " ++ toString offset
  | truncatedBody column needed available =>
    "record body truncated: column " ++ toString column ++ " needs " ++ toString needed
      ++ " bytes, " ++ toString available ++ " remain"
  | headerLengthMismatch declared actual =>
    "record header length " ++ toString declared ++ " does not match parsed length "
      ++ toString actual
  | reservedSerialType code column =>
    "reserved serial type " ++ toString code ++ " in column " ++ toString column
  | invalidText column => "column " ++ toString column ++ " holds text that is not valid UTF-8"
  | unresolvedReference name => "unresolved reference: " ++ name
  | unsupported construct => "unsupported construct: " ++ construct
  | misuseOfAggregate name => "misuse of aggregate: " ++ name ++ "()"
  | compoundArity operator =>
    "SELECTs to the left and right of " ++ operator 
      ++ " do not have the same number of result columns"
  | orderByTermMismatch ordinal =>
    ordinal ++ " ORDER BY term does not match any column in the result set"
  | internal detail => "internal error: " ++ detail

def category : Error → Category
  | missingStatement | emptyTableName | emptyValues _ | emptyRecord | columnCountMismatch ..
  | assignmentCountMismatch .. | noSuchTable _ | noSuchColumn _ | noSuchIndex _ | tableExists _
  | indexExists _ | invalidConfig _ => .validation
  | truncatedHeader _ | invalidVarint _ | truncatedBody .. | headerLengthMismatch ..
  | reservedSerialType .. | invalidText _ => .codec
  | unresolvedReference _ | unsupported _ | misuseOfAggregate _ | compoundArity _
  | orderByTermMismatch _ | internal _ => .compile

def resultCode : Error → ResultCode
  | missingStatement | emptyRecord | invalidConfig _ => .misuse
  | truncatedHeader _ | invalidVarint _ | truncatedBody .. | headerLengthMismatch ..
  | reservedSerialType .. => .corrupt
  | invalidText _ => .mismatch
  | unsupported _ => .noLfs
  | internal _ => .internal
  | _ => .error

/-- The name an error is about, when it is about one. -/
def offendingName? : Error → Option String
  | noSuchTable name | noSuchColumn name | noSuchIndex name | tableExists name | indexExists name
  | unresolvedReference name | misuseOfAggregate name => some name
  | emptyValues table => some table
  | unsupported construct => some construct
  | compoundArity operator => some operator
  | _ => none

/-- Whether the caller can mend the error by changing the statement. -/
def isRecoverable (e : Error) : Bool :=
  match e with
  | internal _ => false
  | _ => e.category != .codec

def suggestion? : Error → Option String
  | noSuchTable _ | noSuchIndex _ => some "Check the name against the schema catalog"
  | noSuchColumn _ => some "Qualify the column or check its spelling"
  | columnCountMismatch .. | assignmentCountMismatch .. =>
    some "Supply exactly one value per listed column"
  | unsupported _ => some "Rewrite the statement without this construct"
  | misuseOfAggregate _ => some "Move aggregate calls into the result list or HAVING"
  | truncatedHeader _ | truncatedBody .. | invalidVarint _ | headerLengthMismatch .. =>
    some "The record bytes are corrupt or incomplete"
  | _ => none

end Error

end QueryMachine
