import QueryMachine.Proofs.Compile.Whole
import QueryMachine.Proofs.Form.WellFormed
import QueryMachine.Proofs.Query.Steps
import QueryMachine.Proofs.Query.Validation

/-!
# The form of compiled programs

A statement whose sizes fit into operands is planned to expressions that fit, so its code obeys the rules of a good
form: compiling never reports a fault of its own, and what it gives has the form of a program.

* `compileQuery_ends` — the program of a query gives out rows with a column for each name.
* `Insertion.emit_inserts` — the program of an INSERT inserts once for each row.
* `Statement.compile_formed` — every program has a good form.
-/

namespace QueryMachine

open Emit

variable {width : Int} {K : List Label} {schema : Schema}

theorem Rules.formed_excuses {calls : Bool} : (formed width).Excuses calls := .inr fun _ => nofun

theorem Schema.lookup_ends (h : schema.Sized) (name : String) : Except.Ends (schema.lookup name) Table.Sized :=
  .of (fun t ht => h t (mem_of_lookup ht)) fun _ => raises_of_lookup (R := .formed 0)

theorem Scope.resolvePlain?_ends {scope : Scope} (h : scope.Sized) {e : Option Term} (he : ∀ t ∈ e, t.SizedTerm) :
    Except.Ends (scope.resolvePlain? e) fun r => ∀ e' ∈ r, e'.SizedPlaces := by
  refine .of (fun r hr e' he' => ?_) fun _ => raises_of_resolvePlain? (R := .formed 0) Rules.formed_excuses
  obtain ⟨term, hterm, hresolve, -⟩ := exists_of_resolvePlain? hr e' he'
  exact sized_resolve h (he term hterm) hresolve

/-! ## Queries -/

theorem Plan.Sized.obeys {p : Plan} (h : p.Sized) : p.Obeys (.formed width) where
  opens _ _ _ _ _ := Rules.Trees.trees rfl
  plain := by
    refine .of_sized fun e he => ?_
    simp only [List.mem_append, Option.mem_toList] at he
    rcases he with ((he | he) | he) | he
    · exact h.filter e he
    · exact h.groupBy e he
    · exact h.limit e he
    · exact h.offset e he
  sized := by
    refine ⟨.inl fun e he => ?_⟩
    simp only [Grouping.outputs, List.mem_append, Option.mem_toList, List.mem_map] at he
    rcases he with (he | he) | ⟨term, he, rfl⟩
    · exact h.projection e he
    · exact h.having e he
    · exact h.orderBy term he
  outputs := .inr fun _ => nofun

section Selection

variable {s : Selection} {orderBy : List OrderingTerm} {limit : Option LimitClause}

section

variable (hschema : schema.Sized) (hs : s.Sized schema) (horder : ∀ t ∈ orderBy, t.expr.SizedTerm)
  (hlimit : ∀ l ∈ limit, l.Sized)

include hschema hs horder hlimit

theorem planSelection_sized {b b' : Builder} {p : Plan} (h : (planSelection schema s orderBy limit).Gives b p b') :
    p.Sized ∧ p.projection.length = s.width schema := by
  obtain ⟨scope, hscope, hplan, -⟩ := Scope.planSelection_gives h
  exact Scope.plan_sized hschema hscope hplan hs horder hlimit

theorem Selection.Sized.obeys : s.Obeys (.formed width) schema orderBy limit where
  plan K := Builds.bind_of inferInstance fun _ _ => obeys_check fun _ =>
    Scope.raises_of_plan Rules.formed_excuses Rules.formed_excuses fun _ _ _ _ _ _ _ => Rules.formed_excuses
  obeys h := (planSelection_sized hschema hs horder hlimit h).1.obeys

theorem Selection.Sized.sends : s.Sends (.formed (s.width schema)) schema orderBy limit .output where
  toObeys := hs.obeys hschema horder hlimit
  accepts {_ p _} h := by
    obtain ⟨hp, hwidth⟩ := planSelection_sized hschema hs horder hlimit h
    have hwidth' : p.width = s.width schema := congrArg Int.ofNat hwidth
    rw [hwidth', hp.names, hwidth]
    exact ⟨⟨.inl hs.width⟩, inferInstance, inferInstance⟩

end

end Selection

theorem emitQuery_formed (hschema : schema.Sized) {q : Query} (hq : q.Sized schema) :
    Obeys (.formed (q.first.width schema)) K (emitQuery schema q .output) := by
  refine emitQuery_obeys (fun _ => hq.first.sends hschema hq.orderBy hq.limit)
    (hq.first.sends hschema (by simp) (by simp)) (fun arm harm => ?_)
    (fun _ => Scope.raises_of_resolveLimit Rules.formed_excuses) fun limit offset hresolve => ?_
  · exact (hq.arms arm harm).obeys hschema (by simp) (by simp)
  · exact .of_sized (sized_resolveLimit hresolve hq.limit)

/-- There is one name for each result column. -/
theorem length_names_of_emitQuery (hschema : schema.Sized) {q : Query} (hq : q.Sized schema) {d : Destination}
    {b b' : Builder} {names : List String} (h : (emitQuery schema q d).Gives b names b') :
    names.length = q.first.width schema := by
  have hnames : ∀ {orderBy limit b p b'}, (planSelection schema q.first orderBy limit).Gives b p b' →
      (∀ t ∈ orderBy, t.expr.SizedTerm) → (∀ l ∈ limit, l.Sized) → p.names.length = q.first.width schema := by
    intro orderBy limit b p b' hplan horder hlimit
    obtain ⟨hp, hwidth⟩ := planSelection_sized hschema hq.first horder hlimit hplan
    exact hp.names.trans hwidth
  unfold emitQuery at h
  split at h
  · obtain ⟨p, _, hplan, h⟩ := gives_bind.mp h
    obtain ⟨_, _, -, h⟩ := gives_bind.mp h
    obtain ⟨rfl, -⟩ := gives_pure.mp h
    exact hnames hplan hq.orderBy hq.limit
  · unfold Compound.emit at h
    split at h
    · exact (gives_throw h).elim
    obtain ⟨p, _, hplan, h⟩ := gives_bind.mp h
    simp only [gives_bind, gives_pure] at h
    obtain ⟨_, _, -, _, _, -, _, _, -, _, _, -, _, _, -, _, _, -, rfl, -⟩ := h
    exact hnames hplan (by simp) (by simp)

/-- The program of a query has a good form, and all its rows have a column for each name. -/
theorem compileQuery_ends (hschema : schema.Sized) (options : Options) {q : Query} (hq : q.Sized schema) :
    Except.Ends (compileQuery schema options q) fun built => built.1.WellFormed ∧
      ∀ i ∈ built.1.code, i.opcode = .resultRow → i.p2 = built.2.length := by
  have hquery : ∀ K, Obeys (.formed (q.first.width schema)) K (emitQuery schema q .output) := fun _ =>
    emitQuery_formed hschema hq
  have hbuilds : Builds (.formed (q.first.width schema)) [] [] [] [.plain .halt 0 0 0] (emitInit >>= fun _ =>
      emitQuery schema q .output >>= fun names => emitHalt >>= fun _ => pure names) := inferInstance
  refine (build_formed (P := fun names => names.length = q.first.width schema) hbuilds fun h => ?_).mono fun built hbuilt => ⟨hbuilt.2.1, fun i hi hrow => ?_⟩
  · obtain ⟨_, _, -, h⟩ := gives_bind.mp h
    obtain ⟨_, _, hquery, h⟩ := gives_bind.mp h
    obtain ⟨_, _, -, h⟩ := gives_bind.mp h
    obtain ⟨rfl, -⟩ := gives_pure.mp h
    exact length_names_of_emitQuery hschema hq hquery
  · rw [hbuilt.2.2 i hi hrow, hbuilt.1]

theorem Emit.build_ends {reuse : Bool} {m : Emit Unit} [Starts m]
    (h : Builds (.formed 0) [] [] [] [.plain .halt 0 0 0] m) :
    Except.Ends (Emit.build reuse m >>= fun built => (pure built.1 : Except Error Program)) Program.WellFormed :=
  (build_formed (P := fun _ => True) h fun _ => trivial).bind fun _ hbuilt => hbuilt.2.1

/-! ## INSERT -/

namespace Insertion

/-- Every value is one that operands can hold. -/
def SizedValues (values : List (Nat × Resolved)) : Prop := ∀ v ∈ values, v.2.SizedPlaces

theorem validate_ends (hschema : schema.Sized) {i : Insertion} (hi : ∀ row ∈ i.rows, ∀ e ∈ row, e.SizedTerm) :
    Except.Ends (i.validate schema) fun r =>
      r.1.Sized ∧ r.2.length = i.rows.length ∧ ∀ values ∈ r.2, SizedValues values := by
  refine .of (fun r h => ?_) fun _ => raises_of_validate (R := .formed 0)
  have hempty : Scope.Sized [] := nofun
  obtain ⟨hlookup, -, _, -, hrows⟩ := gives_of_validate h
  refine ⟨hschema r.1 (Schema.mem_of_lookup hlookup), hrows.length_eq.symm, fun values hvalues v hv => ?_⟩
  obtain ⟨terms, hterms, term, hterm, hresolve⟩ := values_of_validate h values hvalues v hv
  exact Scope.sized_resolve hempty (hi terms hterms term hterm) hresolve

theorem SizedValues.loads {values : List (Nat × Resolved)} (h : SizedValues values) : Loads (.formed width) values := by
  refine fun k => .of_sized fun e he => ?_
  obtain ⟨before, after, hsplit, -⟩ := List.lookup_eq_some_iff.mp (Option.mem_toList.mp he)
  refine h (k, e) (List.mem_reverse.mp ?_)
  rw [hsplit]
  exact List.mem_append_right _ List.mem_cons_self

instance {options : Options} {table : Table} {rows : List (List (Nat × Resolved))} : Starts (emit options table rows) := by
  unfold emit
  infer_instance

end Insertion

/-! ### Counting insertions -/

/-- No row is inserted. -/
def Rules.sterile : Rules where
  admits i := i.opcode ≠ .insert
  reads _ := False
  raises _ := True
  straight h hinsert := by rcases h.2 with h | h <;> simp [hinsert] at h
  reports _ _ := trivial

instance : Rules.sterile.Tolerant := ⟨fun _ => trivial⟩

instance : Rules.sterile.Free := ⟨fun _ => id⟩

instance : Rules.sterile.Trees := ⟨fun h hinsert => by simp [hinsert] at h⟩

instance : Rules.sterile.Changes .idxInsert := ⟨fun _ => nofun⟩

/-- How many instructions of a kind there are so far. -/
def Builder.uses (o : Opcode) (b : Builder) : Nat :=
  b.drafts.toList.countP fun d => d.instruction.opcode == o

theorem Builder.count_code {b : Builder} {program : Program} (h : program.code = b.code)
    (o : Opcode) : program.count o = b.uses o := by
  have hopcode : ∀ d, (b.resolve d).opcode = d.instruction.opcode := by
    intro d
    unfold resolve
    split <;> rfl
  simp only [Program.count, uses, h, code, Array.toList_map, List.countP_map]
  exact List.countP_congr fun d _ => by simp [hopcode]

namespace Emit

/-- When the step succeeds, it has appended `n` insertions. -/
def Inserts {α : Type} (n : Nat) (m : Emit α) : Prop :=
  ∀ {b a b'}, m.Gives b a b' → b.Valid → b'.Valid ∧ b'.uses .insert = b.uses .insert + n

variable {α β : Type} {n i : Nat} {m : Emit α} {f : α → Emit β} {o : Opcode} {p1 p2 p3 : Int} {payload : Payload}

theorem Inserts.bind (h : m.Inserts n) (hf : ∀ a, (f a).Inserts i) : (m >>= f).Inserts (n + i) := by
  intro b c b' hgives hb
  obtain ⟨a, b1, hm, hrest⟩ := gives_bind.mp hgives
  obtain ⟨hb1, hn⟩ := h hm hb
  obtain ⟨hb', hi⟩ := hf a hrest hb1
  exact ⟨hb', by rw [hi, hn, Nat.add_assoc]⟩

/-- A step that inserts nothing, before others. -/
theorem inserts_after [hm : Obeys .sterile [] m] (hf : ∀ a, (f a).Inserts i) : (m >>= f).Inserts i := by
  have hnone : m.Inserts 0 := by
    intro b a b' hgives hb
    have hext := hm.gives hgives (hb.ready fun _ _ => id)
    obtain ⟨more, hcode, hmore⟩ := hext.code
    refine ⟨hext.valid, ?_⟩
    have hinsert : more.countP (fun d => d.instruction.opcode == .insert) = 0 := by
      refine List.countP_eq_zero.mpr fun d hd hinsert => ?_
      have hobeys := hmore d hd
      unfold Draft.Obeys at hobeys
      split at hobeys
      · rw [beq_iff_eq.mp hinsert] at hobeys
        cases hobeys.2
      · exact hobeys (beq_iff_eq.mp hinsert)
    rw [Builder.uses, hcode, List.countP_append, List.map_nil, List.append_nil, hinsert]
    rfl
  have hboth : (m >>= f).Inserts (0 + i) := Inserts.bind hnone hf
  rwa [Nat.zero_add] at hboth

theorem inserts_opWith : (opWith o p1 p2 p3 payload).Inserts (if o == .insert then 1 else 0) := by
  intro b u b' hgives hb
  obtain rfl := gives_opWith.mp hgives
  refine ⟨hb, ?_⟩
  simp only [Builder.uses, Builder.emit, Array.toList_push, List.countP_append, List.countP_singleton]

end Emit

namespace Insertion

/-- One row, one insertion. -/
theorem emitRows_inserts (table : Table) (indexes : List OpenIndex) (cursor rowid base record : Int)
    (rows : List (List (Nat × Resolved))) :
    (emitRows table indexes cursor rowid base record rows).Inserts rows.length := by
  induction rows with
  | nil =>
    intro b a b' h hb
    obtain ⟨-, rfl⟩ := gives_pure.mp h
    exact ⟨hb, rfl⟩
  | cons values rows ih =>
    refine inserts_after fun _ => inserts_after fun _ => inserts_after fun _ => inserts_after fun _ => ?_
    rw [List.length_cons, Nat.add_comm]
    exact Inserts.bind inserts_opWith fun _ => inserts_after fun _ => ih

theorem emit_inserts (options : Options) (table : Table) (rows : List (List (Nat × Resolved))) :
    (emit options table rows).Inserts rows.length := by
  refine inserts_after fun _ => inserts_after fun cursor => inserts_after fun _ => inserts_after fun indexes => ?_
  refine inserts_after fun rowid => inserts_after fun base => inserts_after fun record => ?_
  exact Inserts.bind (emitRows_inserts table indexes cursor rowid base record rows) fun _ => inserts_after fun _ =>
    (inserts_opWith : (opWith .halt 0 0 0 .empty).Inserts 0)

/-- The program of an INSERT has a good form, and inserts once for each row. -/
theorem compile_ends (hschema : schema.Sized) (options : Options) {i : Insertion}
    (hi : ∀ row ∈ i.rows, ∀ e ∈ row, e.SizedTerm) : Except.Ends (i.compile schema options) fun program =>
      program.WellFormed ∧ program.count .insert = i.rows.length := by
  refine (validate_ends hschema hi).bind fun (table, rows) ⟨htable, hlen, hrows⟩ => ?_
  dsimp only at htable hlen hrows ⊢
  have hdefaults : Defaults (.formed 0) table.columns := ⟨.inl htable.defaults⟩
  have hform : Except.Ends (Emit.build options.reuseTemps (emit options table rows) >>= fun built => pure built.1)
      Program.WellFormed := build_ends (emit_builds fun values hin => (hrows values hin).loads)
  cases hbuild : Emit.build options.reuseTemps (emit options table rows) with
  | error e =>
    rw [hbuild] at hform
    exact hform
  | ok built =>
    rw [hbuild] at hform
    obtain ⟨b, hgives, hcode⟩ := build_gives hbuild
    refine ⟨hform, ?_⟩
    show built.1.count .insert = i.rows.length
    rw [Builder.count_code hcode, (emit_inserts options table rows hgives (Builder.valid_fresh _)).2, ← hlen]
    exact Nat.zero_add _

end Insertion

/-! ## UPDATE -/

namespace Change

theorem sized_single {table : Table} (h : table.Sized) (cursor : Int) : (Scope.single table cursor).Sized := by
  intro s hs
  rw [List.mem_singleton.mp hs]
  exact h

/-- What a resolved UPDATE assigns and tests is sized. -/
structure Resolution.Sized (r : Resolution) : Prop where
  table : r.table.Sized
  assignments : Insertion.SizedValues r.assignments
  filter : ∀ e ∈ r.filter, e.SizedPlaces

theorem validate_ends (hschema : schema.Sized) {c : Change} (hvalues : ∀ e ∈ c.values, e.SizedTerm)
    (hfilter : ∀ e ∈ c.filter, e.SizedTerm) : Except.Ends (c.validate schema) Resolution.Sized := by
  refine .of (fun r h => ?_) fun _ => raises_of_validate (R := .formed 0) Rules.formed_excuses
  obtain ⟨hlookup, -, -, hresolved⟩ := parts_of_validate h
  have htable := hschema r.table (Schema.mem_of_lookup hlookup)
  have hscope := sized_single htable tableCursor
  refine ⟨htable, fun a ha => ?_, (Scope.resolvePlain?_ends hscope hfilter).ok hresolved⟩
  obtain ⟨term, hterm, hresolve, -⟩ := assigned_of_validate h a ha
  exact Scope.sized_resolve hscope (hvalues term hterm) hresolve

set_option synthInstance.maxSize 512 in
instance {options : Options} {r : Resolution} : Starts (emit options r) := by
  simp only [emit]
  infer_instance

theorem compile_ends (hschema : schema.Sized) (options : Options) {c : Change} (hvalues : ∀ e ∈ c.values, e.SizedTerm)
    (hfilter : ∀ e ∈ c.filter, e.SizedTerm) : Except.Ends (c.compile schema options) Program.WellFormed := by
  refine (validate_ends hschema hvalues hfilter).bind fun r hr => build_ends ?_
  have hnew : (Rules.formed 0).Loads [] (r.assignments.map (·.2)) :=
    .of_sized (List.forall_mem_map.mpr fun v hv => hr.assignments v hv)
  have htest : (Rules.formed 0).Loads [] r.filter.toList :=
    .of_sized fun e he => hr.filter e (Option.mem_toList.mp he)
  exact emit_builds

end Change

/-! ## DELETE -/

namespace Deletion

instance {options : Options} {table : Table} : Starts (emitTruncate options table) := by
  unfold emitTruncate
  infer_instance

set_option synthInstance.maxSize 512 in
instance {options : Options} {table : Table} {filter : Option Resolved} {limit : Option Int64} :
    Starts (emitRows options table filter limit) := by
  unfold emitRows
  infer_instance

theorem compile_ends (hschema : schema.Sized) (options : Options) {d : Deletion}
    (hfilter : ∀ e ∈ d.filter, e.SizedTerm) : Except.Ends (d.compile schema options) Program.WellFormed := by
  refine (Schema.lookup_ends hschema d.table).bind fun table htable => ?_
  have hscope := Change.sized_single htable 0
  refine (Scope.resolvePlain?_ends hscope hfilter).bind fun filter hfilter => build_ends ?_
  have htest : (Rules.formed 0).Loads [] filter.toList :=
    .of_sized fun e he => hfilter e (Option.mem_toList.mp he)
  split
  · exact emitTruncate_builds
  · exact emitRows_builds

end Deletion

/-! ## CREATE -/

instance : Starts Catalog.emitNothing := by
  unfold Catalog.emitNothing
  infer_instance

instance {t : TableDef} : Starts t.emit := by
  unfold TableDef.emit
  infer_instance

theorem TableDef.compile_ends (schema : Schema) (options : Options) (t : TableDef) :
    Except.Ends (t.compile schema options) Program.WellFormed := by
  have hvalid : Except.Ends (t.validate schema) fun _ => True :=
    .of (fun _ _ => trivial) fun _ => raises_of_validate (R := .formed 0)
  refine hvalid.bind fun fresh _ => build_ends ?_
  split
  · exact emit_builds
  · exact Catalog.emitNothing_builds

instance {i : IndexDef} {table : Table} : Starts (i.emit table) := by
  unfold IndexDef.emit
  infer_instance

theorem IndexDef.compile_ends (options : Options) (i : IndexDef) :
    Except.Ends (i.compile schema options) Program.WellFormed := by
  have hvalid : Except.Ends (i.validate schema) fun _ => True :=
    .of (fun _ _ => trivial) fun _ => raises_of_validate (R := .formed 0)
  refine hvalid.bind fun table _ => ?_
  cases table with
  | some table => exact build_ends emit_builds
  | none => exact build_ends Catalog.emitNothing_builds

/-! ## Statements -/

theorem Statement.compile_ends (hschema : schema.Sized) (options : Options) {s : Statement} (hs : s.Sized schema) :
    Except.Ends (s.compile schema options) Program.WellFormed := by
  cases s with
  | select q => exact (compileQuery_ends hschema options hs).bind fun _ hbuilt => hbuilt.1
  | insert i => exact (Insertion.compile_ends hschema options hs).mono fun _ h => h.1
  | update c => exact Change.compile_ends hschema options hs.1 hs.2
  | delete d => exact Deletion.compile_ends hschema options hs
  | createTable t => exact TableDef.compile_ends schema options t
  | createIndex i => exact IndexDef.compile_ends options i

/-- A table with a default that is a blob. -/
def Table.measured : Table :=
  .ofColumns "t" 2 [⟨"a", "INTEGER", .integer, false, false, none⟩,
    ⟨"b", "", .blob, false, false, some (.blob [0])⟩]

/-- A grouped selection and another one, joined, ordered and limited. -/
def Query.joined : Query where
  first := ⟨true, [.term (.ref (.column none "a")) (some "x"),
    .term (.aggregate .count [.ref (.column none "b")]) (some "n")], [⟨"t", none⟩],
    some (.binary .gt (.ref (.column none "b")) (.lit (.blob []))), [.ref (.column none "a")],
    some (.binary .gt (.aggregate .count [.ref (.column none "b")]) (.lit (.int 1)))⟩
  arms := [(.union, ⟨false, [.tableStar "t"], [⟨"t", none⟩], none, [], none⟩)]
  orderBy := [⟨.lit (.int 2), .desc⟩]
  limit := some ⟨.lit (.int 3), some (.lit (.int 1))⟩

end QueryMachine
