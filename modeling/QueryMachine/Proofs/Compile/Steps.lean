import QueryMachine.Proofs.Form.Size
import QueryMachine.Proofs.Program.Steps
import QueryMachine.Proofs.Query.Calls

/-!
# Rules that expressions and changes obey

What is asked of the code of a statement comes down to a few questions: whether its expressions can be loaded, which
trees it may open, and which it may change. `Rules.Loads`, `Rules.Opens` and `Rules.Clears` are these questions; the
rest is found by going through the steps.

* `Rules.Loads` — the expressions fit into operands and their calls are bound, or their errors may be raised.
* `Insertion.emit_builds`, `Change.emit_builds`, `Deletion.emitRows_builds` — the statements that write rows.
-/

namespace QueryMachine

open Emit

variable {R : Rules} {K : List Label} {bindings : Bindings} {target : Int} {es : List Resolved} {skip : Label}
  {source : KeySource} {table : Table}

/-! ## Expressions -/

/-- The expressions can be loaded: they fit into operands, and every aggregate call in them is bound to a register,
unless the errors for that may be raised. -/
class Rules.Loads (R : Rules) (bindings : Bindings) (es : List Resolved) : Prop where
  sized : R.Fits (∀ e ∈ es, e.SizedPlaces)
  bound : (∀ e ∈ es, ∀ c ∈ e.calls, (bindings.register? (.aggregate c.1 c.2)).isSome) ∨
    ∀ name, R.raises (.misuseOfAggregate name)

namespace Rules.Loads

variable {e : Resolved} {es ts : List Resolved}

instance [h : R.Tolerant] : R.Loads bindings es := ⟨inferInstance, .inr fun _ => h.raises _⟩

theorem of_calls (h : R.Loads bindings es)
    (hts : ∀ t ∈ ts, ∃ e ∈ es, t.calls ⊆ e.calls ∧ (e.SizedPlaces → t.SizedPlaces)) : R.Loads bindings ts where
  sized := h.sized.imp fun hes t ht => by
    obtain ⟨e, he, -, hsized⟩ := hts t ht
    exact hsized (hes e he)
  bound := h.bound.imp_left fun hes t ht c hc => by
    obtain ⟨e, he, hsub, -⟩ := hts t ht
    exact hes e he c (hsub hc)

theorem of_subset (h : R.Loads bindings es) (hts : ts ⊆ es) : R.Loads bindings ts :=
  h.of_calls fun t ht => ⟨t, hts ht, List.Subset.refl _, id⟩

theorem head (h : R.Loads bindings (e :: es)) : R.Loads bindings [e] := h.of_subset (by simp)

theorem tail (h : R.Loads bindings (e :: es)) : R.Loads bindings es := h.of_subset (List.subset_cons_self e es)

instance append [h : R.Loads bindings es] [k : R.Loads bindings ts] : R.Loads bindings (es ++ ts) where
  sized := ⟨h.sized.fits.elim (fun hes => k.sized.fits.imp_left fun hts => List.forall_mem_append.mpr ⟨hes, hts⟩) .inr⟩
  bound := h.bound.elim (fun hes => k.bound.imp_left fun hts => List.forall_mem_append.mpr ⟨hes, hts⟩) .inr

theorem of_plain (hsized : R.Fits (∀ e ∈ es, e.SizedPlaces)) (h : ∀ e ∈ es, e.containsAggregate = false) :
    R.Loads bindings es := by
  refine ⟨hsized, .inl fun e he => ?_⟩
  rw [Expr.calls_eq_nil.mpr (h e he)]
  exact nofun

end Rules.Loads

instance {i : Int64} : Obeys R K (emitInt i target) := by
  unfold emitInt
  infer_instance

instance {v : Value} [h : R.Fits v.Sized] : Obeys R K (emitValue v target) := by
  cases v with
  | blob bytes =>
    have : R.Fits (bytes.length < 0x80000000) := h
    simp only [emitValue]
    infer_instance
  | null | int | real | text =>
    simp only [emitValue]
    infer_instance

instance {p : Place} [h : R.Fits p.Sized] : Obeys R K (emitPlace p target) := by
  cases p with
  | field cursor index =>
    have : R.Fits (index < 0x80000000) := h
    simp only [emitPlace]
    infer_instance
  | rowid cursor =>
    simp only [emitPlace]
    infer_instance

/-- An operator that leaves its value in a register does not jump. -/
instance {operator : Operator} {left right : Int} : Obeys R K (emitOperator operator left right target) := by
  have hstored : Flag.storeResult ≠ 0 := by decide
  cases operator
  case and | or | add | subtract | multiply | divide =>
    simp only [emitOperator]
    infer_instance
  all_goals
    refine obeys_opFlagged (R.straight ⟨?_, .inr rfl⟩)
    simp [Operator.opcode, Instruction.jumpTarget?, Opcode.isJump, Opcode.isComparison, Instruction.has, hstored]

theorem emitExpr_obeys {e : Resolved} (h : R.Loads bindings [e]) : Obeys R K (emitExpr bindings e target) := by
  fun_induction emitExpr bindings e target with
  | case1 => infer_instance
  | case2 target p =>
    have : R.Fits p.Sized := h.sized.imp (· _ (List.mem_singleton_self _))
    infer_instance
  | case3 target v =>
    have : R.Fits v.Sized := h.sized.imp (· _ (List.mem_singleton_self _))
    infer_instance
  | case4 target operator left right _ ihl ihr =>
    have hl := fun l => ihl l (h.of_calls (by simp +contextual [Expr.calls, Expr.Sized]))
    have hr := fun r => ihr r (h.of_calls (by simp [Expr.calls, Expr.Sized]))
    infer_instance
  | case5 target func args hnone =>
    refine builds_throw (h.bound.resolve_left (fun hbound => ?_) _)
    have := hbound _ (List.mem_singleton_self _) (func, args) (List.mem_singleton_self _)
    rw [hnone] at this
    cases this

instance {e : Resolved} [h : R.Loads bindings [e]] : Obeys R K (emitExpr bindings e target) :=
  emitExpr_obeys h

theorem emitExprs_obeys (h : R.Loads bindings es) : Obeys R K (emitExprs bindings es target) := by
  induction es generalizing target with
  | nil => exact inferInstanceAs (Obeys R K (pure ()))
  | cons e es ih =>
    have := h.head
    have : ∀ target, Obeys R K (emitExprs bindings es target) := fun _ => ih h.tail
    unfold emitExprs
    infer_instance

instance [h : R.Loads bindings es] : Obeys R K (emitExprs bindings es target) :=
  emitExprs_obeys h

theorem emitTests_obeys [R.Knows K skip] (h : R.Loads bindings es) : Obeys R K (emitTests bindings skip es) := by
  induction es with
  | nil => exact inferInstanceAs (Obeys R K (pure ()))
  | cons e es ih =>
    have := h.head
    have := ih h.tail
    unfold emitTests
    infer_instance

instance [R.Knows K skip] [h : R.Loads bindings es] :
    Obeys R K (emitTests bindings skip es) := emitTests_obeys h

instance {filter : Option Resolved} [R.Knows K skip] [h : R.Loads bindings filter.toList] :
    Obeys R K (emitFilter bindings skip filter) := by
  cases filter with
  | none => exact inferInstanceAs (Obeys R K (pure ()))
  | some filter =>
    refine emitTests_obeys (h.of_calls fun t ht => ⟨filter, by simp, Expr.calls_of_conjuncts ht, fun hsized => ?_⟩)
    exact hsized.conjuncts t ht

instance : Obeys R K emitInit := by
  unfold emitInit
  infer_instance

instance {cursors : List Int} : Obeys R K (emitClose cursors) := by
  induction cursors <;> (unfold emitClose; infer_instance)

/-! ## Keys -/

namespace Rules

/-- The trees with the given roots may be opened for writing. -/
class Opens (R : Rules) (roots : List Int) : Prop where
  opens : ∀ root ∈ roots, ∀ c payload, R.admits ⟨.openWrite, c, root, 0, payload, 0⟩

/-- The trees with the given roots may be cleared. -/
class Clears (R : Rules) (roots : List Int) : Prop where
  clears : ∀ root ∈ roots, ∀ payload, R.admits ⟨.clear, root, 0, 0, payload, 0⟩

instance {roots : List Int} [h : R.Trees] : R.Opens roots := ⟨fun _ _ _ _ => h.trees rfl⟩

instance {roots : List Int} [h : R.Trees] : R.Clears roots := ⟨fun _ _ _ => h.trees rfl⟩

end Rules

instance : Obeys R K (source.emitRowid target) := by
  unfold KeySource.emitRowid
  split <;> infer_instance

instance {index : Nat} : Obeys R K (source.emitField index target) := by
  unfold KeySource.emitField
  split <;> infer_instance

instance {names : List String} :
    Obeys R K (emitKeyColumns table source names target) := by
  induction names generalizing target with
  | nil => exact inferInstanceAs (Obeys R K (pure ()))
  | cons name names ih =>
    unfold emitKeyColumns
    split <;> infer_instance

instance {columns : List String} : Obeys R K (emitKey table columns source) := by
  unfold emitKey
  infer_instance

instance {o : Opcode} {indexes : List OpenIndex} [R.Changes o] [R.Free] :
    Obeys R K (emitKeys o table source indexes) := by
  induction indexes <;> (unfold emitKeys; infer_instance)

theorem emitOpenIndexes_obeys {roots : List Int} (hopens : R.Opens roots) {indexes : List Index}
    (h : indexes.map (·.root) ⊆ roots) : Obeys R K (emitOpenIndexes indexes) := by
  induction indexes with
  | nil => exact inferInstanceAs (Obeys R K (pure []))
  | cons index rest ih =>
    have hrest := ih fun _ hin => h (List.mem_cons_of_mem _ hin)
    have hopen : ∀ c, Obeys R K (opWith .openWrite c index.root 0 (.index index.name)) :=
      fun c => obeys_opFlagged (hopens.opens _ (h List.mem_cons_self) c _)
    unfold emitOpenIndexes
    infer_instance

instance {indexes : List Index} [R.Trees] : Obeys R K (emitOpenIndexes indexes) :=
  emitOpenIndexes_obeys inferInstance (List.Subset.refl _)

/-- The roots that a statement writes to: that of a table, and those of its indexes if they are maintained. -/
def Table.touched (table : Table) (options : Options) : List Int :=
  table.root :: (if options.maintainIndexes then table.indexes else []).map (·.root)

theorem Rules.Opens.parts {options : Options} (h : R.Opens (table.touched options)) :
    (∀ K c, Obeys R K (opWith .openWrite c table.root 0 (.table table.name))) ∧
      ∀ K, Obeys R K (emitOpenIndexes (if options.maintainIndexes then table.indexes else [])) :=
  ⟨fun _ c => obeys_opFlagged (h.opens _ List.mem_cons_self c _),
    fun _ => emitOpenIndexes_obeys h fun _ => List.mem_cons_of_mem _⟩

/-! ## INSERT -/

namespace Insertion

/-- The values of a row can be loaded. -/
abbrev Loads (R : Rules) (values : List (Nat × Resolved)) : Prop := ∀ k, R.Loads [] (valueAt? values k).toList

/-- The defaults of the columns fit into operands. -/
abbrev Defaults (R : Rules) (columns : List Column) : Prop :=
  R.Fits (∀ c ∈ columns, ∀ v, c.default = some v → v.Sized)

variable {target base rowid : Int} {values : List (Nat × Resolved)} {table : Table}
  {rows : List (List (Nat × Resolved))}

instance {column : Column} {k : Nat} [h : Loads R values] [hdefault : R.Fits (∀ v, column.default = some v → v.Sized)] :
    Obeys R K (emitColumn values column k target) := by
  have hk := h k
  unfold emitColumn
  split
  · rename_i e he
    rw [he] at hk
    have : R.Loads [] [e] := hk
    infer_instance
  · have : R.Fits (column.default.getD .null).Sized := hdefault.imp fun hsized => by
      cases hv : column.default with
      | none => trivial
      | some v => exact hsized v hv
    infer_instance

theorem emitColumns_obeys {columns : List Column} {index : Nat} [Loads R values] (h : Defaults R columns) :
    Obeys R K (emitColumns values columns index target) := by
  induction columns generalizing index target with
  | nil => exact inferInstanceAs (Obeys R K (pure ()))
  | cons column columns ih =>
    have := h.imp fun hall => hall column List.mem_cons_self
    have hrest : ∀ index target, Obeys R K (emitColumns values columns index target) := fun _ _ =>
      ih (h.imp fun hall c hc => hall c (List.mem_cons_of_mem _ hc))
    unfold emitColumns
    infer_instance

instance {columns : List Column} {index : Nat} [Loads R values] [h : Defaults R columns] :
    Obeys R K (emitColumns values columns index target) := emitColumns_obeys h

instance : Obeys R K (emitGivenRowid table base rowid) := by
  unfold emitGivenRowid
  split <;> infer_instance

theorem emitRows_obeys [R.Free] [R.Writes] {indexes : List OpenIndex} {cursor record : Int} [Defaults R table.columns]
    (h : ∀ values ∈ rows, Loads R values) : Obeys R K (emitRows table indexes cursor rowid base record rows) := by
  induction rows with
  | nil => exact inferInstanceAs (Obeys R K (pure ()))
  | cons values rows ih =>
    have := h values List.mem_cons_self
    have := ih fun values hin => h values (List.mem_cons_of_mem _ hin)
    unfold emitRows
    infer_instance

instance [R.Lax] [R.Tolerant] [R.Free] {indexes : List OpenIndex} {cursor record : Int} :
    Obeys R K (emitRows table indexes cursor rowid base record rows) :=
  emitRows_obeys fun _ _ _ => inferInstance

theorem emit_builds {options : Options} [R.Free] [R.Writes] [hopens : R.Opens (table.touched options)]
    [Defaults R table.columns] (h : ∀ values ∈ rows, Loads R values) :
    Builds R K [] [] [.plain .halt 0 0 0] (emit options table rows) := by
  obtain ⟨htable, hindexes⟩ := hopens.parts
  have hrows : ∀ indexes cursor rowid base record, Obeys R K (emitRows table indexes cursor rowid base record rows) :=
    fun _ _ _ _ _ => emitRows_obeys h
  unfold emit
  infer_instance

end Insertion

/-! ## UPDATE -/

namespace Change

instance {cursor : Int} {columns : List Column} {index : Nat} {target : Int} :
    Obeys R K (emitOld cursor columns index target) := by
  induction columns generalizing index target <;> (unfold emitOld; infer_instance)

theorem emitNew_obeys {base : Int} {assignments : List (Nat × Resolved)} (h : R.Loads [] (assignments.map (·.2))) :
    Obeys R K (emitNew base assignments) := by
  induction assignments with
  | nil => exact inferInstanceAs (Obeys R K (pure ()))
  | cons a assignments ih =>
    have := h.head
    have := ih h.tail
    unfold emitNew
    infer_instance

instance {base : Int} {assignments : List (Nat × Resolved)} [h : R.Loads [] (assignments.map (·.2))] :
    Obeys R K (emitNew base assignments) := emitNew_obeys h

-- The steps are more than the default number of instances.
set_option synthInstance.maxSize 512 in
theorem emit_builds {options : Options} {r : Resolution} [R.Free] [R.Writes] [hopens : R.Opens (r.table.touched options)]
    [R.Loads [] r.filter.toList] [R.Loads [] (r.assignments.map (·.2))] :
    Builds R K [] [] [.plain .halt 0 0 0] (emit options r) := by
  obtain ⟨htable, hindexes⟩ := hopens.parts
  simp only [emit]
  infer_instance

end Change

/-! ## DELETE -/

namespace Deletion

theorem emitClear_obeys {roots : List Int} (hclears : R.Clears roots) {indexes : List Index}
    (h : indexes.map (·.root) ⊆ roots) : Obeys R K (emitClear indexes) := by
  induction indexes with
  | nil => exact inferInstanceAs (Obeys R K (pure ()))
  | cons index rest ih =>
    have hrest := ih fun _ hin => h (List.mem_cons_of_mem _ hin)
    have hindex : Obeys R K (opWith .clear index.root 0 0 (.index index.name)) :=
      obeys_opFlagged (hclears.clears _ (h List.mem_cons_self) _)
    unfold emitClear
    infer_instance

instance {indexes : List Index} [R.Trees] : Obeys R K (emitClear indexes) :=
  emitClear_obeys inferInstance (List.Subset.refl _)

variable {options : Options} {table : Table} {done collected : Label} {cursor rowSet : Int}

theorem emitTruncate_builds [hclears : R.Clears (table.touched options)] :
    Builds R K [] [] [.plain .halt 0 0 0] (emitTruncate options table) := by
  have htable : Obeys R K (opWith .clear table.root 0 0 (.table table.name)) :=
    obeys_opFlagged (hclears.clears _ List.mem_cons_self _)
  have hindexes : Obeys R K (emitClear (if options.maintainIndexes then table.indexes else [])) :=
    emitClear_obeys hclears fun _ => List.mem_cons_of_mem _
  unfold emitTruncate
  infer_instance

instance {limit : Option Int64} [R.Knows K done] : Obeys R K (emitLimit done limit) := by
  unfold emitLimit
  split <;> infer_instance

instance {limit : Option Int} [R.Knows K collected] : Obeys R K (emitCount limit collected) := by
  unfold emitCount
  split <;> infer_instance

instance {filter : Option Resolved} {limit : Option Int} [R.Loads [] filter.toList] [R.Knows K collected] :
    Obeys R K (emitCollect cursor rowSet filter limit collected) := by
  unfold emitCollect
  infer_instance

instance : Obeys R K (emitCheck options table cursor) := by
  unfold emitCheck
  infer_instance

theorem emitDelete_builds [R.Free] [R.Writes] {indexes : List OpenIndex} [R.Knows K collected] [R.Knows K done] :
    Builds R K [collected] [] [] (emitDelete options table indexes cursor rowSet collected done) := by
  unfold emitDelete
  infer_instance

instance {β : Type} {L rest : List Label} {G : List Int} {T : List Instruction} [R.Free] [R.Writes]
    {indexes : List OpenIndex} [R.Knows K collected] [R.Knows K done] {n : Emit β} [Drops L collected rest]
    [Builds R K rest G T n] :
    Builds R K L G T (emitDelete options table indexes cursor rowSet collected done >>= fun _ => n) :=
  emitDelete_builds.binding

theorem emitRows_builds {filter : Option Resolved} {limit : Option Int64} [R.Free] [R.Writes]
    [hopens : R.Opens (table.touched options)] [R.Loads [] filter.toList] :
    Builds R K [] [] [.plain .halt 0 0 0] (emitRows options table filter limit) := by
  obtain ⟨htable, hindexes⟩ := hopens.parts
  unfold emitRows
  infer_instance

end Deletion

/-! ## CREATE -/

set_option synthInstance.maxSize 256 in
instance {cursor : Int} {e : Catalog.Entry} [R.Free] [R.Writes] [R.Trees] : Obeys R K (Catalog.emitEntry cursor e) := by
  unfold Catalog.emitEntry
  infer_instance

theorem Catalog.emitNothing_builds : Builds R K [] [] [.plain .halt 0 0 0] emitNothing := by
  unfold emitNothing
  infer_instance

theorem TableDef.emit_builds {t : TableDef} [R.Free] [R.Writes] [R.Trees] :
    Builds R K [] [] [.plain .halt 0 0 0] t.emit := by
  unfold emit
  infer_instance

theorem IndexDef.emit_builds {i : IndexDef} [R.Free] [R.Writes] [R.Trees] :
    Builds R K [] [] [.plain .halt 0 0 0] (i.emit table) := by
  unfold emit
  infer_instance

end QueryMachine
