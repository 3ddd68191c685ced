import QueryMachine.Compile.Catalog
import QueryMachine.Compile.Change
import QueryMachine.Compile.Deletion
import QueryMachine.Compile.Insertion
import QueryMachine.Compile.Query

/-!
# Statements as programs

Every program starts with `init`, ends with its only `halt`, and is given out only when the whole
statement compiled.
-/

namespace QueryMachine

def Statement.compile (schema : Schema) (options : Options) : Statement → Except Error Program
  | select query => do
    let (program, _) ← compileQuery schema options query
    pure program
  | insert insertion => insertion.compile schema options
  | update change => change.compile schema options
  | delete deletion => deletion.compile schema options
  | createTable table => table.compile schema options
  | createIndex index => index.compile schema options

/-- The program of what a parser gave, which may be nothing. -/
def compileParsed (schema : Schema) (options : Options) : Option Statement → Except Error Program
  | none => .error .missingStatement
  | some statement => statement.compile schema options

end QueryMachine
