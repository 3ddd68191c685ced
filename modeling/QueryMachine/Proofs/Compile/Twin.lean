import Mathlib.Data.List.Forall2
import QueryMachine.Compile.Statement
import QueryMachine.Proofs.Program.Pairing

/-!
# Expressions in corresponding registers

The code of an expression writes the register it was given and temporaries, which it gives back.
-/

namespace QueryMachine

open Emit Builder

/-! ## Temporaries -/

namespace Emit

variable {W : Ties} {T V : Temps} {r r' : Int} {i i' : Instruction}

theorem meets_temp : Meets (Twin W T V) temp temp fun r r' => Twin W ((r, r') :: T) V := .of_modifyGet fun hb => hb.temp

theorem meets_giveBack {U : Temps} (hU : ∀ x ∈ U, x ∈ V ∧ W.plus T x.1 x.2) :
    Meets (Twin W ((r, r') :: T) V) (giveBack r) (giveBack r') fun _ _ => Twin W T U :=
  .of_modify fun hb => (hb.weaken fun x hx => (hU x hx).1).giveBack fun x hx => (hU x hx).2

/-- An instruction that writes no temporary. -/
theorem meets_read (hi : Straight W.links (W.plus V) (W.plus V) i i') :
    Meets (Twin W T V) (modify (Builder.emit i) : Emit Unit) (modify (Builder.emit i')) fun _ _ => Twin W T V :=
  .of_modify fun hb => hb.push (.straight hi) hb.within

/-- An instruction that writes a register that is held. -/
theorem meets_write (hr : W.plus T r r') (hi : Straight W.links (W.plus V) (W.plus ((r, r') :: V)) i i') :
    Meets (Twin W T V) (modify (Builder.emit i) : Emit Unit) (modify (Builder.emit i')) fun _ _ => Twin W T ((r, r') :: V) :=
  .of_modify fun hb => hb.push (.straight hi) (List.forall_mem_cons.mpr ⟨hr, hb.within⟩)

end Emit

namespace Ties

variable {W : Ties} {V : Temps} {r r' : Int}

theorem plus_self : W.plus ((r, r') :: V) r r' := .inr List.mem_cons_self

theorem writes : (W.plus V).Writes (W.plus ((r, r') :: V)) r r' :=
  ⟨plus_self, fun hq => (plus_cons.mp hq).symm⟩

end Ties

/-! ## Expressions -/

/-- The same expressions are bound to corresponding registers. -/
abbrev Bound : Ties → Bindings → Bindings → Prop := fun W => List.Forall₂ fun x x' => x'.1 = x.1 ∧ W.mates x.2 x'.2

instance : Stable Bound := ⟨fun hW h => h.imp fun _ _ => And.imp_right hW.mates⟩

variable {W : Ties} {T V : Temps} {bs bs' : Bindings} {t t' : Int}

instance : Tie Bound W [] [] := ⟨.nil⟩

instance {cs cs' : Bindings} [h : Tie Bound W bs bs'] [k : Tie Bound W cs cs'] : Tie Bound W (bs ++ cs) (bs' ++ cs') :=
  ⟨List.rel_append h.rel k.rel⟩

theorem Bound.register? (h : Bound W bs bs') (e : Resolved) : (bs.register? e = none ∧ bs'.register? e = none) ∨
    ∃ r r', bs.register? e = some r ∧ bs'.register? e = some r' ∧ W.mates r r' := by
  induction h with
  | nil => exact .inl ⟨rfl, rfl⟩
  | @cons x x' bs bs' hx _ ih =>
    obtain ⟨heq, hmate⟩ := hx
    simp only [Bindings.register?, List.find?_cons, heq]
    cases x.1.same e
    · exact ih
    · exact .inr ⟨x.2, x'.2, rfl, rfl, hmate⟩

theorem Bound.register?_none {e : Resolved} (h : Bound W bs bs') (hno : bs.register? e = none) : bs'.register? e = none := by
  obtain ⟨-, hno'⟩ | ⟨q, q', hq, -, -⟩ := h.register? e
  · exact hno'
  · rw [hno] at hq
    cases hq

theorem emitValue_meets (v : Value) (ht : W.plus T t t') :
    Meets (Twin W T V) (emitValue v t) (emitValue v t') fun _ _ => Twin W T ((t, t') :: V) := by
  have hload : ∀ {o p1 payload}, o.form = .load →
      Meets (Twin W T V) (opWith o p1 t 0 payload) (opWith o p1 t' 0 payload) fun _ _ => Twin W T ((t, t') :: V) :=
    fun ho => meets_write ht (.load _ ho Ties.writes)
  cases v with
  | null => exact meets_write ht (.null Ties.writes)
  | int i =>
    simp only [emitValue, emitInt]
    split
    · exact meets_write ht (.load _ rfl Ties.writes)
    · exact hload rfl
  | real x => exact hload rfl
  | text s => exact hload rfl
  | blob bytes =>
    simp only [emitValue, operand]
    split
    · exact hload rfl
    · exact fun _ _ _ => rfl

theorem emitOperator_meets (o : Operator) {l l' r r' : Int} (ht : W.plus T t t') (hl : W.plus V l l') (hr : W.plus V r r') :
    Meets (Twin W T V) (emitOperator o l r t) (emitOperator o l' r' t') fun _ _ => Twin W T ((t, t') :: V) := by
  cases o with
  | and | or => exact meets_write ht (.combine _ rfl hl hr Ties.writes)
  | add | subtract | multiply | divide => exact meets_write ht (.combine _ rfl hr hl Ties.writes)
  | _ => exact meets_write ht (.compare _ rfl (by decide) hr hl Ties.writes)

theorem emitPlace_meets (p : Place) (ht : W.plus T t t') :
    Meets (Twin W T V) (emitPlace p t) (emitPlace p t') fun _ _ => Twin W T ((t, t') :: V) := by
  cases p with
  | rowid cursor => exact meets_write ht (.load _ rfl Ties.writes)
  | field cursor index =>
    simp only [emitPlace, operand]
    split
    · exact meets_write ht (.field Ties.writes)
    · exact fun _ _ _ => rfl

/-- **Expressions**: whatever is held and in use meanwhile, the target is in use afterwards. -/
theorem emitExpr_meets (hbs : Bound W bs bs') (e : Resolved) (ht : W.plus T t t') :
    Meets (Twin W T V) (emitExpr bs e t) (emitExpr bs' e t') fun _ _ => Twin W T ((t, t') :: V) := by
  fun_induction emitExpr bs e t generalizing T V t' with
  | case1 e t r hr =>
    obtain ⟨hno, -⟩ | ⟨q, q', hq, hq', hmate⟩ := hbs.register? e
    · rw [hno] at hr
      cases hr
    · cases hr.symm.trans hq
      rw [emitExpr.eq_def, hq']
      exact meets_write ht (.move (.inl hmate) Ties.writes)
  | case2 t p hno =>
    rw [emitExpr.eq_def, hbs.register?_none hno]
    exact emitPlace_meets p ht
  | case3 t v hno =>
    rw [emitExpr.eq_def, hbs.register?_none hno]
    exact emitValue_meets v ht
  | case4 t o left right hno ihl ihr =>
    rw [emitExpr.eq_def, hbs.register?_none hno]
    intro b b' hb
    have hin : ∀ x ∈ (t, t') :: V, W.plus T x.1 x.2 := List.forall_mem_cons.mpr ⟨ht, hb.within⟩
    refine Meets.bind meets_temp (fun l l' => (ihl l Ties.plus_self).bind fun _ _ => ?_) b b' hb
    refine meets_temp.bind fun r r' => (ihr r Ties.plus_self).bind fun _ _ => ?_
    have hcons : ∀ {x : Int × Int} {U : Temps}, ∀ y, W.plus U x.1 x.2 → W.plus (y :: U) x.1 x.2 := fun y hx =>
      Ties.plus_cons.mpr (.inr hx)
    refine (emitOperator_meets o (hcons (x := (t, t')) (r, r') (hcons (l, l') ht))
      (hcons (x := (l, l')) (r, r') Ties.plus_self) Ties.plus_self).bind fun _ _ => ?_
    refine (meets_giveBack (U := (t, t') :: V) fun x hx => ⟨?_, hcons (l, l') (hin x hx)⟩).bind fun _ _ =>
      meets_giveBack fun x hx => ⟨hx, hin x hx⟩
    rcases List.mem_cons.mp hx with rfl | hx
    · exact List.mem_cons_self
    · simp [hx]
  | case5 t func args hno =>
    rw [emitExpr.eq_def, hbs.register?_none hno]
    exact fun _ _ _ => rfl

section

variable [hbs : Tie Bound W bs bs'] [ht : Tie Mated W t t']

instance {e : Resolved} : Keeps W (emitExpr bs e t) (emitExpr bs' e t') :=
  ⟨(emitExpr_meets hbs.rel e (.inl ht.rel)).imp fun hb => ⟨rfl, hb.weaken nofun⟩⟩

end

instance {v : Value} [ht : Tie Mated W t t'] : Keeps W (emitValue v t) (emitValue v t') :=
  ⟨(emitValue_meets v (.inl ht.rel)).imp fun hb => ⟨rfl, hb.weaken nofun⟩⟩

theorem emitExprs_keeps (bs bs' : Bindings) [Tie Bound W bs bs'] {es : List Resolved} (ht : W.mates.Block t t' es.length) :
    Keeps W (emitExprs bs es t) (emitExprs bs' es t') := by
  induction es generalizing t t' with
  | nil => exact inferInstanceAs (Keeps W (pure ()) (pure ()))
  | cons e es ih =>
    have : Tie Mated W t t' := ⟨ht.head⟩
    have := ih ht.tail
    unfold emitExprs
    infer_instance

instance {es : List Resolved} [Tie Bound W bs bs'] [ht : Tie (Blocks es.length) W t t'] :
    Keeps W (emitExprs bs es t) (emitExprs bs' es t') := emitExprs_keeps bs bs' ht.rel

instance {skip : Label} {es : List Resolved} [hbs : Tie Bound W bs bs'] :
    Keeps W (emitTests bs skip es) (emitTests bs' skip es) := by
  induction es with
  | nil => exact inferInstanceAs (Keeps W (pure ()) (pure ()))
  | cons e es ih =>
    refine ⟨meets_temp.bind fun r r' => (emitExpr_meets hbs.rel e Ties.plus_self).bind fun _ _ => ?_⟩
    refine (meets_jump (o := .ifNot) nofun fun _ => .test .ifNot rfl Ties.plus_self).bind fun _ _ => ?_
    exact (meets_giveBack (List.forall_mem_nil _)).bind fun _ _ => ih.meets

instance {skip : Label} {filter : Option Resolved} [Tie Bound W bs bs'] :
    Keeps W (emitFilter bs skip filter) (emitFilter bs' skip filter) := by
  cases filter <;> (unfold emitFilter; infer_instance)

instance : Keeps W emitInit emitInit := by
  unfold emitInit
  infer_instance

instance : Keeps W emitHalt emitHalt := by
  unfold emitHalt
  infer_instance

instance {cursors : List Int} : Keeps W (emitClose cursors) (emitClose cursors) := by
  induction cursors with
  | nil => exact inferInstanceAs (Keeps W (pure ()) (pure ()))
  | cons c cursors ih =>
    unfold emitClose
    infer_instance

/-! ## Keys of indexes -/

theorem Table.block_column {n : Nat} {table : Table} {name : String} {base base' : Int}
    (h : W.mates.Block base base' table.columns.length) (hn : table.columnIndex? name = some n) :
    Tie Mated W (base + n) (base' + n) :=
  ⟨h n (List.findIdx?_eq_some_iff_findIdx_eq.mp hn).1⟩

/-- A row of `n` columns stands in corresponding registers, or under the same cursor. -/
inductive KeySource.Twin (n : Nat) (W : Ties) : KeySource → KeySource → Prop
  | registers {base base' r r'} (hbase : W.mates.Block base base' n) (hr : W.mates r r') :
    Twin n W (.registers base r) (.registers base' r')
  | row (c : Int) : Twin n W (.row c) (.row c)

section

variable {n : Nat} {source source' : KeySource} {table : Table} {r r' : Int}

instance : Stable (KeySource.Twin n) where
  mono hW h := by
    cases h with
    | registers hbase hr => exact .registers (hbase.mono hW.mates) (hW.mates hr)
    | row c => exact .row c

instance {c : Int} : Tie (KeySource.Twin n) W (.row c) (.row c) := ⟨.row c⟩

instance {base base' : Int} [hb : Tie (Blocks n) W base base'] [hr : Tie Mated W r r'] :
    Tie (KeySource.Twin n) W (.registers base r) (.registers base' r') := ⟨.registers hb.rel hr.rel⟩

theorem KeySource.Twin.emitRowid (h : KeySource.Twin n W source source') (t t' : Int) [Tie Mated W t t'] :
    Keeps W (source.emitRowid t) (source'.emitRowid t') := by
  obtain ⟨hbase, hr⟩ | c := h
  · have : Tie Mated W _ _ := ⟨hr⟩
    unfold KeySource.emitRowid
    infer_instance
  · unfold KeySource.emitRowid
    infer_instance

theorem emitKeyColumns_keeps [h : Tie (KeySource.Twin table.columns.length) W source source'] {names : List String}
    (ht : W.mates.Block t t' names.length) :
    Keeps W (emitKeyColumns table source names t) (emitKeyColumns table source' names t') := by
  induction names generalizing t t' with
  | nil => exact inferInstanceAs (Keeps W (pure ()) (pure ()))
  | cons name names ih =>
    have : Tie Mated W t t' := ⟨ht.head⟩
    have := ih ht.tail
    unfold emitKeyColumns
    cases hn : table.columnIndex? name with
    | none =>
      dsimp only
      infer_instance
    | some n =>
      have := h.rel.emitRowid t t'
      have : Keeps W (source.emitField n t) (source'.emitField n t') := by
        obtain ⟨⟨hbase, hr⟩ | c⟩ := h
        · have := Table.block_column hbase hn
          unfold KeySource.emitField
          infer_instance
        · unfold KeySource.emitField
          infer_instance
      dsimp only
      infer_instance

instance {columns : List String} [h : Tie (KeySource.Twin table.columns.length) W source source'] :
    Gets W (emitKey table columns source) (emitKey table columns source') Mated where
  twins := by
    unfold emitKey
    dsimp only
    have hcolumns : ∀ (x : Later W (Blocks (columns.length + 1))),
        Keeps x.world (emitKeyColumns table source columns x.left) (emitKeyColumns table source' columns x.right) := fun x =>
      emitKeyColumns_keeps fun k hk => x.rel k (by omega)
    have hrowid := fun {t t'} (x : Later W (Blocks (columns.length + 1))) [Tie Mated x.world t t'] =>
      (Stable.mono x.le h.rel).emitRowid t t'
    infer_instance

end

instance {indexes : List Index} : Keeps W (emitOpenIndexes indexes) (emitOpenIndexes indexes) := by
  induction indexes with
  | nil => exact inferInstanceAs (Keeps W (pure []) (pure []))
  | cons index rest ih =>
    unfold emitOpenIndexes
    infer_instance

instance {o : Opcode} {table : Table} {source source' : KeySource} {indexes : List OpenIndex} [Fact (o.form = .take)]
    [Tie (KeySource.Twin table.columns.length) W source source'] :
    Gets W (emitKeys o table source indexes) (emitKeys o table source' indexes) Equal where
  twins := by
    induction indexes generalizing W with
    | nil => exact inferInstanceAs (Twins W (pure ()) (pure ()) Equal)
    | cons index rest ih =>
      unfold emitKeys
      infer_instance

/-! ## INSERT and UPDATE -/

section

variable {table : Table} {base base' rowid rowid' record record' : Int}

theorem Insertion.emitColumns_keeps {values : List (Nat × Resolved)} {columns : List Column} (index : Nat)
    (ht : W.mates.Block t t' columns.length) :
    Keeps W (emitColumns values columns index t) (emitColumns values columns index t') := by
  induction columns generalizing index t t' with
  | nil => exact inferInstanceAs (Keeps W (pure ()) (pure ()))
  | cons column columns ih =>
    have : Tie Mated W t t' := ⟨ht.head⟩
    have := ih (index + 1) ht.tail
    have : Keeps W (emitColumn values column index t) (emitColumn values column index t') := by
      unfold emitColumn
      split <;> infer_instance
    unfold emitColumns
    infer_instance

instance {values : List (Nat × Resolved)} {index : Nat} [h : Tie (Blocks table.columns.length) W base base'] :
    Keeps W (Insertion.emitColumns values table.columns index base) (Insertion.emitColumns values table.columns index base') :=
  Insertion.emitColumns_keeps index h.rel

instance [h : Tie (Blocks table.columns.length) W base base'] [Tie Mated W rowid rowid'] :
    Keeps W (Insertion.emitGivenRowid table base rowid) (Insertion.emitGivenRowid table base' rowid') := by
  unfold Insertion.emitGivenRowid
  cases hn : table.rowidIndex? with
  | none => infer_instance
  | some n =>
    have : Tie Mated W (base + n) (base' + n) := ⟨h.rel n (List.findIdx?_eq_some_iff_findIdx_eq.mp hn).1⟩
    dsimp only
    infer_instance

instance {indexes : List OpenIndex} {cursor : Int} {rows : List (List (Nat × Resolved))}
    [Tie (Blocks table.columns.length) W base base'] [Tie Mated W rowid rowid'] [Tie Mated W record record'] :
    Gets W (Insertion.emitRows table indexes cursor rowid base record rows)
      (Insertion.emitRows table indexes cursor rowid' base' record' rows) Equal where
  twins := by
    induction rows generalizing W with
    | nil => exact inferInstanceAs (Twins W (pure ()) (pure ()) Equal)
    | cons values rows ih =>
      unfold Insertion.emitRows
      infer_instance

instance {options : Options} {rows : List (List (Nat × Resolved))} :
    Gets W (Insertion.emit options table rows) (Insertion.emit options table rows) Equal where
  twins := by
    unfold Insertion.emit
    infer_instance

theorem Change.emitOld_keeps {cursor : Int} {columns : List Column} (index : Nat) (ht : W.mates.Block t t' columns.length) :
    Keeps W (emitOld cursor columns index t) (emitOld cursor columns index t') := by
  induction columns generalizing index t t' with
  | nil => exact inferInstanceAs (Keeps W (pure ()) (pure ()))
  | cons column columns ih =>
    have : Tie Mated W t t' := ⟨ht.head⟩
    have := ih (index + 1) ht.tail
    unfold emitOld
    dsimp only
    infer_instance

instance {cursor : Int} {index : Nat} [h : Tie (Blocks table.columns.length) W base base'] :
    Keeps W (Change.emitOld cursor table.columns index base) (Change.emitOld cursor table.columns index base') :=
  Change.emitOld_keeps index h.rel

theorem Change.emitNew_keeps {assignments : List (Nat × Resolved)} (hb : W.mates.Block base base' table.columns.length)
    (h : ∀ x ∈ assignments, x.1 < table.columns.length) :
    Keeps W (emitNew base assignments) (emitNew base' assignments) := by
  induction assignments with
  | nil => exact inferInstanceAs (Keeps W (pure ()) (pure ()))
  | cons x rest ih =>
    obtain ⟨hx, hrest⟩ := List.forall_mem_cons.mp h
    have : Tie Mated W (base + x.1) (base' + x.1) := ⟨hb x.1 hx⟩
    have := ih hrest
    unfold emitNew
    infer_instance

set_option synthInstance.maxSize 512 in
/-- An UPDATE that assigns to columns of its table. -/
theorem Change.emit_twins {options : Options} {r : Change.Resolution} (h : ∀ x ∈ r.assignments, x.1 < r.table.columns.length) :
    Twins W (Change.emit options r) (Change.emit options r) Equal := by
  have hnew : ∀ {V base base'} [hb : Tie (Blocks r.table.columns.length) V base base'],
      Keeps V (Change.emitNew base r.assignments) (Change.emitNew base' r.assignments) := fun {_ _ _ hb} =>
    Change.emitNew_keeps hb.rel h
  unfold Change.emit
  dsimp only
  infer_instance

end

/-! ## DELETE -/

/-- Corresponding registers, or none. -/
abbrev Mated? : Ties → Option Int → Option Int → Prop := fun W => Option.Rel W.mates

instance : Stable Mated? where
  mono hW h := by
    cases h with
    | some h => exact .some (hW.mates h)
    | none => exact .none

instance : Tie Mated? W none none := ⟨.none⟩

instance {r r' : Int} [h : Tie Mated W r r'] : Tie Mated? W (some r) (some r') := ⟨.some h.rel⟩

namespace Deletion

variable {options : Options} {table : Table} {limit limit' : Option Int} {rowSet rowSet' cursor : Int} {l done : Label}

instance {i : Int64} [Tie Mated W t t'] : Keeps W (emitInt i t) (emitInt i t') := by
  unfold emitInt
  infer_instance

instance {limit : Option Int64} : Gets W (emitLimit done limit) (emitLimit done limit) Mated? where
  twins := by
    cases limit <;> (unfold emitLimit; infer_instance)

instance [h : Tie Mated? W limit limit'] : Keeps W (emitCount limit l) (emitCount limit' l) := by
  obtain ⟨h⟩ := h
  cases h with
  | none => exact inferInstanceAs (Keeps W (pure ()) (pure ()))
  | some h =>
    have : Tie Mated W _ _ := ⟨h⟩
    unfold emitCount
    infer_instance

/-- The rowid of a row goes through a temporary into the row set. -/
theorem keeps_add (W : Ties) (rowSet rowSet' cursor : Int) [h : Tie Mated W rowSet rowSet'] (n n' : Emit Unit) [hn : Keeps W n n'] :
    Keeps W (do let rowid ← temp; op .rowid cursor rowid 0; op .rowSetAdd rowSet rowid 0; giveBack rowid; n)
      (do let rowid ← temp; op .rowid cursor rowid 0; op .rowSetAdd rowSet' rowid 0; giveBack rowid; n') := by
  refine ⟨meets_temp.bind fun r r' => (meets_write Ties.plus_self (.load .rowid rfl Ties.writes)).bind fun _ _ => ?_⟩
  refine (meets_read (.collect (.inl h.rel) Ties.plus_self)).bind fun _ _ => ?_
  exact (meets_giveBack (List.forall_mem_nil _)).bind fun _ _ => hn.meets

instance {filter : Option Resolved} [Tie Mated W rowSet rowSet'] [Tie Mated? W limit limit'] :
    Keeps W (emitCollect cursor rowSet filter limit l) (emitCollect cursor rowSet' filter limit' l) := by
  have (next scan : Label) := keeps_add W rowSet rowSet' cursor
    (do emitCount limit l; bindHere next; jump .next cursor 0 scan)
    (do emitCount limit' l; bindHere next; jump .next cursor 0 scan)
  unfold emitCollect
  infer_instance

instance : Keeps W (emitCheck options table cursor) (emitCheck options table cursor) := by
  unfold emitCheck
  infer_instance

instance {indexes : List OpenIndex} [Tie Mated W rowSet rowSet'] :
    Gets W (emitDelete options table indexes cursor rowSet l done) (emitDelete options table indexes cursor rowSet' l done) Equal where
  twins := by
    unfold emitDelete
    infer_instance

instance {filter : Option Resolved} {limit : Option Int64} :
    Gets W (emitRows options table filter limit) (emitRows options table filter limit) Equal where
  twins := by
    unfold emitRows
    infer_instance

instance {indexes : List Index} : Keeps W (emitClear indexes) (emitClear indexes) := by
  induction indexes with
  | nil => exact inferInstanceAs (Keeps W (pure ()) (pure ()))
  | cons index rest ih =>
    unfold emitClear
    infer_instance

instance : Keeps W (emitTruncate options table) (emitTruncate options table) := by
  unfold emitTruncate
  infer_instance

end Deletion

/-! ## CREATE TABLE and CREATE INDEX -/

set_option synthInstance.maxSize 512 in
instance {cursor : Int} {e : Catalog.Entry} : Gets W (Catalog.emitEntry cursor e) (Catalog.emitEntry cursor e) Mated where
  twins := by
    have h0 {V : Ties} {r r' : Int} [h : Tie (Blocks 5) V r r'] : Tie Mated V r r' := ⟨h.rel.head⟩
    have h1 {V : Ties} {r r' : Int} [h : Tie (Blocks 5) V r r'] : Tie Mated V (r + 1) (r' + 1) := ⟨h.rel 1 (by decide)⟩
    have h2 {V : Ties} {r r' : Int} [h : Tie (Blocks 5) V r r'] : Tie Mated V (r + 2) (r' + 2) := ⟨h.rel 2 (by decide)⟩
    have h3 {V : Ties} {r r' : Int} [h : Tie (Blocks 5) V r r'] : Tie Mated V (r + 3) (r' + 3) := ⟨h.rel 3 (by decide)⟩
    have h4 {V : Ties} {r r' : Int} [h : Tie (Blocks 5) V r r'] : Tie Mated V (r + 4) (r' + 4) := ⟨h.rel 4 (by decide)⟩
    unfold Catalog.emitEntry
    infer_instance

instance : Keeps W Catalog.emitNothing Catalog.emitNothing := by
  unfold Catalog.emitNothing
  infer_instance

instance {table : TableDef} : Gets W table.emit table.emit Equal where
  twins := by
    unfold TableDef.emit
    infer_instance

set_option synthInstance.maxSize 512 in
instance {index : IndexDef} {table : Table} : Gets W (index.emit table) (index.emit table) Equal where
  twins := by
    have hroot {V : Ties} {c r r' : Int} {payload : Payload} [h : Tie Mated V r r'] :
        Keeps V (opFlagged .openWrite c r 0 payload Flag.rootInRegister) (opFlagged .openWrite c r' 0 payload Flag.rootInRegister) :=
      keeps_op (.root .openWrite rfl (by decide) (Tie.plus []))
    unfold IndexDef.emit
    infer_instance

end QueryMachine
