import Mathlib.Algebra.Ring.Int.Defs
import Mathlib.Algebra.Ring.Nat
import QueryMachine.Compile.Plan
import QueryMachine.Record
import QueryMachine.Tree
import QueryMachine.Value.Arithmetic

/-!
# What expressions and clauses mean

The value of an expression, given what its places hold, and what clauses make of lists of rows,
independent of any program.

* `Operator.apply` — an operator on two values.
* `Expr.eval` — the value of an expression.
* `Expr.holds` — whether a filter lets a row pass.
* `Window` — the rows that OFFSET and LIMIT leave.
* `combinations` — one entry of each table, the first table varying slowest.
* `Plan.rows` — the rows of a query that neither groups nor drops duplicates.
-/

namespace QueryMachine

/-- The cursor that a place is read through. -/
def Place.cursor : Place → Int
  | .field c _ => c
  | .rowid c => c

/-- Whether a comparison holds of two values that compare as `o`. -/
def Operator.holds : Operator → Ordering → Bool
  | .eq, o => o == .eq
  | .ne, o => o != .eq
  | .lt, o => o == .lt
  | .le, o => o != .gt
  | .gt, o => o == .gt
  | .ge, o => o != .lt
  | _, _ => false

/-- The value of an operator: comparisons with NULL are unknown. -/
def Operator.apply (operator : Operator) (a b : Value) : Value :=
  match operator with
  | .add => a.add b
  | .subtract => a.sub b
  | .multiply => a.mul b
  | .divide => a.div b
  | .and => .ofTruth (Value.both a.truth? b.truth?)
  | .or => .ofTruth (Value.either a.truth? b.truth?)
  | comparison =>
    .ofTruth (if a.isNull || b.isNull then none else some (comparison.holds (a.order b)))

namespace Expr

/-- The value of an expression without aggregate calls. -/
def eval (read : Place → Value) : Resolved → Value
  | .ref p => read p
  | .lit v => v
  | .binary operator left right => operator.apply (left.eval read) (right.eval read)
  | .aggregate _ _ => .null

/-- The places that an expression reads outside aggregate calls. -/
def places : Resolved → List Place
  | .ref p => [p]
  | .lit _ => []
  | .binary _ left right => left.places ++ right.places
  | .aggregate _ _ => []

mutual

/-- Every reference in an expression, also inside aggregate calls. -/
def refs {ρ : Type} : Expr ρ → List ρ
  | .ref r => [r]
  | .lit _ => []
  | .binary _ left right => left.refs ++ right.refs
  | .aggregate _ args => refsAll args

/-- Every reference in a list of expressions. -/
def refsAll {ρ : Type} : List (Expr ρ) → List ρ
  | [] => []
  | e :: es => e.refs ++ refsAll es

end

theorem mem_refsAll {ρ : Type} {q : ρ} : ∀ {es : List (Expr ρ)}, q ∈ refsAll es ↔ ∃ e ∈ es, q ∈ e.refs
  | [] => by simp [refsAll]
  | _ :: _ => by simp [refsAll, mem_refsAll]

/-- A filter lets a row pass where its truth value is true. -/
def holds (read : Place → Value) : Option Resolved → Bool
  | none => true
  | some filter => (filter.eval read).truth? == some true

end Expr

/-- An entry of a table: the rowid and the fields. -/
abbrev Entry := Int64 × List Value

/-- The entries of a table; a record that cannot be decoded shows no fields. -/
def Rows.entries (rows : List (Int64 × Bytes)) : List Entry :=
  rows.map fun row => (row.1, (Record.decode row.2).toOption.getD [])

/-- What a place of an entry holds; NULL where the row has no such field. -/
def Entry.read (e : Entry) : Place → Value
  | .field _ index => e.2.getD index .null
  | .rowid _ => .int e.1

/-- What a place holds, where each cursor stands on an entry. -/
def readFrom (cursors : List Int) (combination : List Entry) (p : Place) : Value :=
  match (cursors.zip combination).lookup p.cursor with
  | some e => e.read p
  | none => .null

/-- The rows of the table that a source reads. -/
def Source.rows (store : Store) (source : Source) : List (Int64 × Bytes) :=
  match source.table.bind fun table => store.tree? table.1 with
  | some (.table rows) => rows
  | _ => []

/-- The entries of the table that a source reads. -/
def Source.entries (store : Store) (source : Source) : List Entry := Rows.entries (source.rows store)

/-- One element of each list, the first list varying slowest. -/
def combinations {α : Type} : List (List α) → List (List α)
  | [] => [[]]
  | xs :: rest => xs.flatMap fun x => (combinations rest).map (x :: ·)

/-! ## Plans -/

namespace Plan

/-- The cursors of the sources. -/
def cursors (p : Plan) : List Int := p.sources.map (·.cursor)

/-- What is read for each combination of entries that the filter lets pass. -/
def found (p : Plan) (tables : List (List Entry)) : List (Place → Value) :=
  ((combinations tables).filter fun combination =>
    Expr.holds (readFrom p.cursors combination) p.filter).map (readFrom p.cursors)

/-- The result row, after its keys for sorting. -/
def keyed (p : Plan) (read : Place → Value) : List Value × List Value :=
  (p.orderBy.map (·.1.eval read), p.projection.map (·.eval read))

/-- The expressions that are computed for rows or groups. -/
def exprs (p : Plan) : List Resolved :=
  p.projection ++ p.filter.toList ++ p.groupBy ++ p.having.toList ++ p.orderBy.map (·.1)

/-- A plan reads through its sources only, each of which has a cursor of its own; LIMIT and OFFSET
read nothing. -/
structure Scoped (p : Plan) : Prop where
  nodup : p.cursors.Nodup
  refs : ∀ e ∈ p.exprs, ∀ q ∈ e.refs, q.cursor ∈ p.cursors
  limit : ∀ e, p.limit = some e → e.refs = []
  offset : ∀ e, p.offset = some e → e.refs = []

end Plan

/-! ## ORDER BY -/

/-- How two lists of keys compare: by the first keys that differ, each in its direction. -/
def orderTuples : List Direction → List Value → List Value → Ordering
  | direction :: directions, a :: as, b :: bs =>
    match a.order b with
    | .eq => orderTuples directions as bs
    | o => if direction = .desc then o.swap else o
  | _, _, _ => .eq

/-- The rows in the order of their keys; rows with equal keys stay as they came. -/
def Plan.arrange (p : Plan) (rows : List (List Value × List Value)) : List (List Value) :=
  (rows.mergeSort fun a b => orderTuples (p.orderBy.map (·.2)) a.1 b.1 != .gt).map (·.2)

/-! ## OFFSET and LIMIT -/

/-- What OFFSET and LIMIT leave of a list: `skip` rows are dropped, and at most `keep` kept. -/
structure Window where
  skip : Nat
  keep : Option Nat
deriving DecidableEq, Repr

/-- The rows in a window. -/
def Window.apply {α : Type} (w : Window) (rows : List α) : List α :=
  match w.keep with
  | none => rows.drop w.skip
  | some n => (rows.drop w.skip).take n

/-- How many rows an OFFSET drops. -/
def skipCount (offset : Value) : Nat :=
  match offset.withAffinity .integer with
  | .int n => n.toInt.toNat
  | _ => 0

/-- How many rows a LIMIT keeps; all of them where it is NULL or negative. -/
def keepCount (limit : Value) : Option Nat :=
  match limit.withAffinity .integer with
  | .int n => if 0 ≤ n.toInt then some n.toInt.toNat else none
  | _ => none

/-- The window of a plan; OFFSET and LIMIT read no places. -/
def Plan.window (p : Plan) : Window where
  skip := (p.offset.map fun e => skipCount (e.eval fun _ => .null)).getD 0
  keep := p.limit.bind fun e => keepCount (e.eval fun _ => .null)

/-- The rows of a query without aggregates and without DISTINCT. -/
def Plan.rows (p : Plan) (tables : List (List Entry)) : List (List Value) :=
  p.window.apply (p.arrange ((p.found tables).map p.keyed))

/-! ## Lemmas -/

theorem Expr.refs_of_mem_places {q : Place} : ∀ {e : Resolved}, q ∈ e.places → q ∈ e.refs
  | .ref _, h => h
  | .lit _, h => h
  | .binary _ _ _, h => by
    rcases List.mem_append.mp h with h | h
    · exact List.mem_append_left _ (refs_of_mem_places h)
    · exact List.mem_append_right _ (refs_of_mem_places h)
  | .aggregate _ _, h => (List.not_mem_nil h).elim

theorem Expr.places_of_refs {e : Resolved} (h : e.refs = []) : e.places = [] := by
  rw [List.eq_nil_iff_forall_not_mem] at h ⊢
  exact fun q hq => h q (refs_of_mem_places hq)

namespace Plan.Scoped

variable {p : Plan}

theorem places (h : p.Scoped) {e : Resolved} (he : e ∈ p.exprs) : ∀ q ∈ e.places, q.cursor ∈ p.cursors :=
  fun q hq => h.refs e he q (Expr.refs_of_mem_places hq)

theorem projection (h : p.Scoped) : ∀ e ∈ p.projection, ∀ q ∈ e.places, q.cursor ∈ p.cursors := by
  intro e he
  apply h.places
  simp [Plan.exprs, he]

theorem filter (h : p.Scoped) : ∀ e, p.filter = some e → ∀ q ∈ e.places, q.cursor ∈ p.cursors := by
  intro e he
  apply h.places
  simp [Plan.exprs, he]

theorem orderBy (h : p.Scoped) : ∀ e ∈ p.orderBy.map (·.1), ∀ q ∈ e.places, q.cursor ∈ p.cursors := by
  intro e he
  apply h.places
  exact List.mem_append_right _ he

end Plan.Scoped

theorem Value.truth?_ofTruth (t : Option Bool) : (Value.ofTruth t).truth? = t := by
  rcases t with _ | _ | _ <;> rfl

theorem Value.both_eq_true (p q : Option Bool) : Value.both p q = some true ↔ p = some true ∧ q = some true := by
  rcases p with _ | _ | _ <;> rcases q with _ | _ | _ <;> simp [Value.both]

theorem Expr.truth?_eval_conjuncts (read : Place → Value) (e : Resolved) :
    (e.eval read).truth? = some true ↔ ∀ c ∈ e.conjuncts, (c.eval read).truth? = some true := by
  fun_induction Expr.conjuncts e with
  | case1 left right ihl ihr =>
    simp only [Expr.eval, Operator.apply, Value.truth?_ofTruth, Value.both_eq_true, ihl, ihr,
      List.mem_append, or_imp, forall_and]
  | case2 e _ => simp

end QueryMachine
