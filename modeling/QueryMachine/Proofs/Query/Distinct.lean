import QueryMachine.Proofs.Query.Duplicates
import QueryMachine.Proofs.Query.Select

/-!
# Queries that drop duplicates

Where the stored values are no NaNs, a SELECT DISTINCT without aggregates gives each row once, in the order
of ORDER BY, and then what OFFSET and LIMIT leave of that. If ORDER BY covers the columns, duplicates are
dropped behind the sorter; an index in front of it would have given equal rows, one by one.

* `Store.NaNFree` — no stored value is a NaN.
* `Plan.computed_found` — what a plan computes from such a store.
* `Database.distinct_rows` — the rows of a SELECT DISTINCT.
-/

namespace QueryMachine

open Machine Emit Value

/-! ## Stores without NaNs -/

/-- No value in a tree is a NaN. -/
def Tree.NaNFree : Tree → Prop
  | .table rows => ∀ e ∈ Rows.entries rows, Comparable e.2
  | .index keys => ∀ key ∈ keys, Comparable key

instance : ∀ tree : Tree, Decidable tree.NaNFree
  | .table rows => inferInstanceAs (Decidable (∀ e ∈ Rows.entries rows, Comparable e.2))
  | .index keys => inferInstanceAs (Decidable (∀ key ∈ keys, Comparable key))

/-- No stored value is a NaN. -/
def Store.NaNFree (store : Store) : Prop := ∀ root tree, store.tree? root = some tree → tree.NaNFree

theorem Store.nanFree_of_forall {store : Store} (h : ∀ slot ∈ store.trees.entries, slot.2.NaNFree) : store.NaNFree := by
  intro root tree htree
  obtain ⟨before, after, heq, -⟩ := List.lookup_eq_some_iff.mp htree
  exact h (root, tree) (by simp [heq])

theorem Store.NaNFree.entries {store : Store} (h : store.NaNFree) (source : Source) :
    ∀ e ∈ source.entries store, Comparable e.2 := by
  intro e he
  unfold Source.entries Source.rows at he
  split at he
  · rename_i rows hrows
    obtain ⟨table, -, htree⟩ := Option.bind_eq_some_iff.mp hrows
    exact h table.1 _ htree e he
  · cases he

theorem exists_mem_of_mem_combinations {α : Type} : ∀ {tables : List (List α)} {combination : List α},
    combination ∈ combinations tables → ∀ x ∈ combination, ∃ table ∈ tables, x ∈ table
  | [], _, h, x, hx => by
    rw [List.mem_singleton.mp h] at hx
    cases hx
  | table :: tables, _, h, x, hx => by
    obtain ⟨y, hy, h⟩ := List.mem_flatMap.mp h
    obtain ⟨rest, hrest, rfl⟩ := List.mem_map.mp h
    rcases List.mem_cons.mp hx with rfl | hx
    · exact ⟨table, List.mem_cons_self, hy⟩
    · obtain ⟨table', hin, hx⟩ := exists_mem_of_mem_combinations hrest x hx
      exact ⟨table', List.mem_cons_of_mem _ hin, hx⟩

theorem isNaN_readFrom (cursors : List Int) {combination : List Entry}
    (h : ∀ e ∈ combination, Comparable e.2) (q : Place) : (readFrom cursors combination q).isNaN = false := by
  unfold readFrom
  split
  · rename_i e hlookup
    obtain ⟨before, after, heq, -⟩ := List.lookup_eq_some_iff.mp hlookup
    have hin : (q.cursor, e) ∈ cursors.zip combination := by simp [heq]
    cases q with
    | rowid => rfl
    | field cursor index =>
      rw [Entry.read, List.getD_eq_getElem?_getD]
      cases hfield : e.2[index]? with
      | none => rfl
      | some v => exact h e (List.of_mem_zip hin).2 v (List.mem_of_getElem? hfield)
  · rfl

/-- What a plan computes from a store without NaNs. -/
theorem Plan.computed_found {store : Store} (h : store.NaNFree) (p : Plan) :
    p.Computed ((p.found (p.sources.map fun source => source.entries store)).map p.keyed) := by
  intro a ha
  obtain ⟨read, hread, rfl⟩ := List.mem_map.mp ha
  obtain ⟨combination, hin, rfl⟩ := List.mem_map.mp hread
  refine ⟨_, isNaN_readFrom p.cursors fun e he => ?_, rfl⟩
  obtain ⟨entries, hentries, he⟩ := exists_mem_of_mem_combinations (List.mem_filter.mp hin).1 e he
  obtain ⟨source, -, rfl⟩ := List.mem_map.mp hentries
  exact h.entries source e he

theorem Window.forall₂_apply {α β : Type} {R : α → β → Prop} (w : Window) {l : List α} {l' : List β}
    (h : List.Forall₂ R l l') : List.Forall₂ R (w.apply l) (w.apply l') := by
  unfold Window.apply
  cases w.keep with
  | none => exact List.forall₂_drop w.skip h
  | some n => exact List.forall₂_take n (List.forall₂_drop w.skip h)

/-! ## What is delivered -/

/-- **What reaches the window is each row once**, whichever way duplicates are dropped. -/
theorem Output.Prepared.deliver_condenses {o : Output} {p : Plan} {b b' : Builder}
    {items : List (List Value × List Value)} (h : Prepared p (!p.orderBy.isEmpty) o b b')
    (hdistinct : p.distinct = true) (hitems : p.Computed items) :
    ∃ kept, p.Condenses items kept ∧ o.deliver p.descending items = kept.map (·.2) := by
  have hlengths : ∀ row ∈ items, row.1.length = p.orderBy.length := fun row => hitems.length_keys
  have hdrops := h.drops hdistinct
  split at hdrops
  · rename_i hcovers
    obtain ⟨hsorts, hcovers⟩ := (Bool.and_eq_true _ _).mp hcovers
    obtain ⟨first, previous, ho⟩ := hdrops
    obtain ⟨t, ht⟩ := Option.isSome_iff_exists.mp (h.sorts.trans hsorts)
    obtain ⟨kept, hkept, hfresh⟩ := hitems.condenses_ordered hcovers first previous
    refine ⟨kept, hkept, ?_⟩
    simp only [Output.deliver, ho, ht]
    rw [Distinct.admitted_of_not_unordered (d := .ordered first previous) (by simp),
      sorted_eq_arrange (h.keys ht) hlengths, hfresh]
  · obtain ⟨k, ho⟩ := hdrops
    obtain ⟨kept, hkept, harrange⟩ := hitems.condenses_unordered k
    have hdeliver := h.deliver_eq_arrange (.unordered k) (by simp) hlengths
    rw [← ho] at hdeliver
    exact ⟨kept, hkept, hdeliver.trans (ho ▸ harrange)⟩

variable {db db' : Database} {q : Query} {answer : Answer}

/-- The answer of a query without aggregates is the window of what its output delivers. -/
theorem Database.plain_delivers (hdb : db.Reachable) (harms : q.arms = []) (hnamed : q.Named)
    (hplain : ∀ p, db.schema.plan q = .ok p → p.isAggregate = false)
    (htables : ∀ ref ∈ q.first.tables, ∀ table, db.schema.lookup ref.name = .ok table →
      ∃ rows, db.store.tree? table.root = some (.table rows))
    (hrun : db.execute (.select q) = (.ok answer, db')) :
    ∃ p o b b', db.schema.plan q = .ok p ∧ Output.Prepared p (!p.orderBy.isEmpty) o b b' ∧
      answer.execution.rows.toList = p.window.apply (o.deliver p.descending
        ((p.found (p.sources.map fun source => source.entries db.store)).map p.keyed)) := by
  obtain ⟨p, b, b', hplan, hemit, hb, hbelow, hends⟩ := Database.query_ends hrun harms
  have hscoped := Schema.plan_scoped hplan hnamed
  have hstored := stored_of_ascending hdb.ascending fun source hin => by
    obtain ⟨ref, href, table, hlookup, htable⟩ := Schema.lookup_of_plan hplan source hin
    obtain ⟨rows, hrows⟩ := htables ref href table hlookup
    exact ⟨table.root, table.name, rows, htable, hrows⟩
  unfold emitPlan at hemit
  rw [hplain p hplan, if_neg Bool.false_ne_true] at hemit
  obtain ⟨s, ⟨o, b1, b2, hprepared, hrows⟩, hanswer⟩ := hends (fun s => ∃ o b1 b2,
      Output.Prepared p (!p.orderBy.isEmpty) o b1 b2 ∧ s.rows.toList = p.window.apply (o.deliver p.descending
        ((p.found (p.sources.map fun source => source.entries db.store)).map p.keyed))) <| by
    intro σ _ hend
    refine ⟨hemit.grows hb, ?_⟩
    have hnone : (Sink.output σ).Received [] (State.start db.store) := rfl
    obtain ⟨o, b1, b2, hprepared, hleads⟩ := emitPlain_leads hemit hb hend hscoped hbelow
      (fun _ => False.elim) (fun _ => False.elim) (hstored.imp fun _ _ h => h.ready) hnone
    refine hleads.mono ?_
    rintro pc s ⟨rfl, hreceived⟩
    refine ⟨rfl, o, b1, b2, hprepared, Eq.trans hreceived ?_⟩
    simp only [List.map_map, Function.comp_def, Rows.map_walk]
    rfl
  exact ⟨p, o, b1, b2, hplan, hprepared, by rw [hanswer, hrows]⟩

/-- **A SELECT DISTINCT gives each row once, in the order of ORDER BY**, and then what OFFSET and LIMIT leave.
Where ORDER BY covers the columns, an index in front of the sorter leads to equal rows. -/
theorem Database.distinct_rows (hdb : db.Reachable) (hfree : db.store.NaNFree) (harms : q.arms = [])
    (hnamed : q.Named) (hdistinct : q.first.distinct = true)
    (hplain : ∀ p, db.schema.plan q = .ok p → p.isAggregate = false)
    (htables : ∀ ref ∈ q.first.tables, ∀ table, db.schema.lookup ref.name = .ok table →
      ∃ rows, db.store.tree? table.root = some (.table rows))
    (hrun : db.execute (.select q) = (.ok answer, db')) :
    ∃ p o b b' items kept, db.schema.plan q = .ok p ∧ Output.Prepared p (!p.orderBy.isEmpty) o b b' ∧
      items = (p.found (p.sources.map fun source => source.entries db.store)).map p.keyed ∧
      p.Condenses items kept ∧ o.deliver p.descending items = kept.map (·.2) ∧
      answer.execution.rows.toList = p.window.apply (kept.map (·.2)) ∧
      (p.orderCoversProjection = true → ∀ k, List.Forall₂ (fun x y => orderRows x y = .eq)
        answer.execution.rows.toList
        (p.window.apply ({ o with distinct := .unordered k }.deliver p.descending items))) := by
  obtain ⟨p, o, b, b', hplan, hprepared, hrows⟩ :=
    Database.plain_delivers hdb harms hnamed hplain htables hrun
  have hdrops : p.distinct = true := by
    obtain ⟨scope, -, hp⟩ := bind_eq_ok.mp hplan
    obtain ⟨-, -, -, -, -, -, -, -, hd, -⟩ := Scope.plan_gives hp
    rw [hd, hdistinct]
  have hitems := p.computed_found hfree
  obtain ⟨kept, hkept, hdeliver⟩ := hprepared.deliver_condenses hdrops hitems
  rw [hdeliver] at hrows
  refine ⟨p, o, b, b', _, kept, hplan, hprepared, rfl, hkept, hdeliver, hrows, fun hcovers k => ?_⟩
  obtain ⟨kept', hkept', harrange⟩ := hitems.condenses_unordered k
  rw [hprepared.deliver_eq_arrange (.unordered k) nofun fun row => hitems.length_keys, harrange, hrows]
  exact p.window.forall₂_apply (hkept.unique hkept' hitems hcovers)

/-! ## Rows that repeat -/

/-- A table with rows that repeat: one of them with `1` and `1.0`, another with NULLs. -/
def Database.repetitions : Database :=
  (((empty .standard).execute (.createTable ⟨"t", [⟨"a", "", false, false⟩, ⟨"b", "INTEGER", false, false⟩],
    false⟩)).2.execute (.insert ⟨"t", [], [[.lit (.int 1), .lit (.int 7)], [.lit .null, .lit (.int 8)],
      [.lit (.int 2), .lit (.int 7)], [.lit (.real (.ofInt 1)), .lit (.int 7)],
      [.lit .null, .lit (.int 8)]]⟩)).2

theorem Database.reachable_repetitions : repetitions.Reachable := .execute (.execute (.empty _) _) _

theorem Database.nanFree_repetitions : repetitions.store.NaNFree :=
  Store.nanFree_of_forall (by decide +kernel)

/-- The rows of `t` each once, by both columns in the other order, without the first one. -/
def Query.eachOnce : Query where
  first := {
    distinct := true
    columns := [.term (.ref (.column none "a")) none, .term (.ref (.column none "b")) none]
    tables := [⟨"t", none⟩]
    filter := none
    groupBy := []
    having := none }
  arms := []
  orderBy := [⟨.ref (.column none "b"), .desc⟩, ⟨.ref (.column none "a"), .asc⟩]
  limit := some ⟨.lit (.int 2), some (.lit (.int 1))⟩

theorem Query.named_eachOnce : eachOnce.Named := by
  refine ⟨⟨?_, nofun, nofun, nofun⟩, nofun, ?_, ?_⟩
  · simp [eachOnce, ResultColumn.Named, Expr.Named, Expr.refs]
  · simp [eachOnce, Expr.Named, Expr.refs]
  · simp [eachOnce, Expr.Named, Expr.refs]

theorem Database.lookup_repetitions : repetitions.schema.lookup "t" = .ok ⟨"t", 2,
    [⟨"a", "", .blob, false, false, none⟩, ⟨"b", "INTEGER", .integer, false, false, none⟩], [], []⟩ := by
  decide +kernel

theorem Database.tree_repetitions : repetitions.store.tree? 2 = some (.table
    [(1, [3, 9, 1, 7]), (2, [3, 0, 1, 8]), (3, [3, 1, 1, 2, 7]), (4, [3, 7, 1, 63, 240, 0, 0, 0, 0, 0, 0, 7]),
      (5, [3, 0, 1, 8])]) := by decide +kernel

theorem Database.distinct_rows_repetitions : ∃ answer db' p o b b' items kept,
    repetitions.execute (.select .eachOnce) = (.ok answer, db') ∧
      answer.execution.rows.toList = [[.int 1, .int 7], [.int 2, .int 7]] ∧
      repetitions.schema.plan .eachOnce = .ok p ∧ Output.Prepared p (!p.orderBy.isEmpty) o b b' ∧
      items = (p.found (p.sources.map fun source => source.entries repetitions.store)).map p.keyed ∧
      p.Condenses items kept ∧ o.deliver p.descending items = kept.map (·.2) ∧
      answer.execution.rows.toList = p.window.apply (kept.map (·.2)) ∧ p.orderCoversProjection = true ∧
      ∀ k, List.Forall₂ (fun x y => orderRows x y = .eq) answer.execution.rows.toList
        (p.window.apply ({ o with distinct := .unordered k }.deliver p.descending items)) := by
  have hresult : (repetitions.execute (.select .eachOnce)).1.toOption.map (·.execution.rows) =
      some #[[.int 1, .int 7], [.int 2, .int 7]] := by decide +kernel
  have hplans : (repetitions.schema.plan .eachOnce).toOption.map
      (fun p => (p.isAggregate, p.orderCoversProjection)) = some (false, true) := by decide +kernel
  rcases hrun : repetitions.execute (.select .eachOnce) with ⟨result, db'⟩
  rw [hrun] at hresult
  cases result with
  | error f => cases hresult
  | ok answer =>
    obtain ⟨p, o, b, b', items, kept, hplan, hprepared, hitems, hkept, hdeliver, hrows, hagree⟩ :=
      Database.distinct_rows reachable_repetitions nanFree_repetitions rfl Query.named_eachOnce rfl
        (fun p hp => by
          rw [hp] at hplans
          exact (Prod.mk.inj (Option.some.inj hplans)).1)
        (fun ref href table hlookup => by
          rw [List.mem_singleton.mp href, lookup_repetitions] at hlookup
          cases hlookup
          exact ⟨_, tree_repetitions⟩) hrun
    have hcovers : p.orderCoversProjection = true := by
      rw [hplan] at hplans
      exact (Prod.mk.inj (Option.some.inj hplans)).2
    exact ⟨answer, db', p, o, b, b', items, kept, rfl, congrArg Array.toList (Option.some.inj hresult), hplan,
      hprepared, hitems, hkept, hdeliver, hrows, hcovers, hagree hcovers⟩

/-! ## Computed NaNs

The sum of a text that reads as a NaN is a NaN, and so the rows of an aggregate query can hold NaNs where no
stored value is one. Those rows are not totally ordered, and the probe of an index of them fails. -/

/-- A table of texts, one of which reads as a NaN. -/
def Database.readings : Database :=
  (((empty .standard).execute (.createTable ⟨"t", [⟨"g", "INTEGER", false, false⟩, ⟨"a", "TEXT", false, false⟩,
    ⟨"b", "INTEGER", false, false⟩], false⟩)).2.execute
      (.insert ⟨"t", [], [[.lit (.int 1), .lit (.text "1.0"), .lit (.int 5)],
        [.lit (.int 2), .lit (.text "nan"), .lit (.int 4)], [.lit (.int 3), .lit (.text "2.0"), .lit (.int 3)],
        [.lit (.int 4), .lit (.text "1.0"), .lit (.int 5)]]⟩)).2

/-- The sums and maxima of the groups, each once. -/
def Query.summary : Query where
  first := {
    distinct := true
    columns := [.term (.aggregate .sum [.ref (.column none "a")]) none,
      .term (.aggregate .max [.ref (.column none "b")]) none]
    tables := [⟨"t", none⟩]
    filter := none
    groupBy := [.ref (.column none "g")]
    having := none }
  arms := []
  orderBy := []
  limit := none

/-- No stored value is a NaN, and the row of the first group comes twice. -/
theorem Database.distinct_rows_readings : readings.Reachable ∧ readings.store.NaNFree ∧ ∃ answer db',
    readings.execute (.select .summary) = (.ok answer, db') ∧
      answer.execution.rows.toList = [[.real (.ofInt 1), .int 5], [.real .nan, .int 4],
        [.real (.ofInt 2), .int 3], [.real (.ofInt 1), .int 5]] := by
  refine ⟨.execute (.execute (.empty _) _) _, Store.nanFree_of_forall (by decide +kernel), ?_⟩
  have hresult : (readings.execute (.select .summary)).1.toOption.map (·.execution.rows) =
      some #[[.real (.ofInt 1), .int 5], [.real .nan, .int 4], [.real (.ofInt 2), .int 3],
        [.real (.ofInt 1), .int 5]] := by decide +kernel
  rcases hrun : readings.execute (.select .summary) with ⟨result, db'⟩
  rw [hrun] at hresult
  cases result with
  | error f => cases hresult
  | ok answer => exact ⟨answer, db', rfl, congrArg Array.toList (Option.some.inj hresult)⟩

end QueryMachine
