import QueryMachine.Sql.Printer

/-!
# Expressions and their text

One word has two meanings: a column called NULL that is not qualified is written like the null literal.
-/

namespace QueryMachine.Expr

/-- A column called NULL is written like the null literal. -/
theorem sql_null_column : (ref (.column none "NULL") : Term).sql = (lit .null : Term).sql ∧
    (ref (.column none "NULL") : Term) ≠ lit .null :=
  ⟨rfl, nofun⟩

end QueryMachine.Expr
