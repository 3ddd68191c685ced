import QueryMachine.Proofs.Compile.Steps

/-!
# Rules that queries obey

What a query has to be like for its code to obey rules: its tables may be opened, its expressions can be loaded, and
what takes its rows may be written to. A call in its outputs is bound to a register, unless a NaN is written in it.

* `Plan.Obeys`, `Destination.Accepts` — what a plan and a destination have to be like.
* `Compound.emitRest_obeys` — what follows the plans of a compound query.
-/

namespace QueryMachine

open Emit

variable {R : Rules} {K : List Label} {bindings : Bindings} {p : Plan} {d : Destination} {width : Int}
  {sources : List Source} {done : Label}

/-- What a plan has to be like for its code to obey rules: its tables may be opened, its expressions fit into operands,
and unless calls may be refused, they stand in its outputs only, not in each other, and with no NaN. -/
class Plan.Obeys (R : Rules) (p : Plan) : Prop where
  opens : ∀ source ∈ p.sources, ∀ root name, source.table = some (root, name) →
    R.admits ⟨.openRead, source.cursor, root, 0, .table name, 0⟩
  plain : R.Loads [] (p.filter.toList ++ p.groupBy ++ p.limit.toList ++ p.offset.toList)
  sized : R.Fits (∀ e ∈ Grouping.outputs p, e.SizedPlaces)
  outputs : (∀ e ∈ Grouping.outputs p, e.nests = false ∧ e.callsNaN = false) ∨
    ∀ name, R.raises (.misuseOfAggregate name)

instance [hlax : R.Lax] [htolerant : R.Tolerant] : p.Obeys R :=
  ⟨fun _ _ _ _ _ => hlax.lax _, inferInstance, inferInstance, .inr fun _ => htolerant.raises _⟩

instance [h : p.Obeys R] : R.Loads [] p.filter.toList := h.plain.of_subset fun e he => by simp [Option.mem_toList.mp he]

instance [h : p.Obeys R] : R.Loads [] p.groupBy := h.plain.of_subset fun e he => by simp [he]

instance [h : p.Obeys R] : R.Loads [] p.limit.toList := h.plain.of_subset fun e he => by simp [Option.mem_toList.mp he]

instance [h : p.Obeys R] : R.Loads [] p.offset.toList := h.plain.of_subset fun e he => by simp [Option.mem_toList.mp he]

/-! ## From a row to its destination -/

/-- Rows of the width may be given out, and go through no cursor that only reads. -/
class Destination.Accepts (R : Rules) (d : Destination) (width : Int) : Prop where
  apart : ∀ c, d = .table c ∨ d = .set c → ¬ R.reads c
  rows : d = .output → R.Rows width

instance [h : R.Rows width] : Destination.output.Accepts R width := ⟨nofun, fun _ => h⟩

instance {c : Int} [h : Fact (¬ R.reads c)] : (Destination.table c).Accepts R width :=
  ⟨by rintro _ (⟨⟨⟩⟩ | ⟨⟨⟩⟩); exact h.out, nofun⟩

instance {c : Int} [h : Fact (¬ R.reads c)] : (Destination.set c).Accepts R width :=
  ⟨by rintro _ (⟨⟨⟩⟩ | ⟨⟨⟩⟩); exact h.out, nofun⟩

instance (priority := low) [R.Lax] [h : R.Free] : d.Accepts R width :=
  ⟨fun c _ => h.free c, fun _ => inferInstance⟩

instance {result : Int} [R.Writes] [h : d.Accepts R width] : Obeys R K (d.emit result width) := by
  cases d with
  | output =>
    have := h.rows rfl
    simp only [Destination.emit]
    infer_instance
  | table c =>
    have := Fact.mk (h.apart c (.inl rfl))
    simp only [Destination.emit]
    infer_instance
  | set c =>
    have := Fact.mk (h.apart c (.inr rfl))
    simp only [Destination.emit]
    infer_instance
  | registers | coroutine =>
    simp only [Destination.emit]
    infer_instance

theorem emitOpenSources_obeys
    (h : ∀ source ∈ sources, ∀ root name, source.table = some (root, name) →
      R.admits ⟨.openRead, source.cursor, root, 0, .table name, 0⟩) :
    Obeys R K (emitOpenSources sources) := by
  induction sources with
  | nil => exact inferInstanceAs (Obeys R K (pure ()))
  | cons source rest ih =>
    obtain ⟨hsource, hrest⟩ := List.forall_mem_cons.mp h
    have := ih hrest
    unfold emitOpenSources
    split
    · rename_i root name htable
      have : Obeys R K (opWith .openRead source.cursor root 0 (.table name)) := obeys_opFlagged (hsource root name htable)
      infer_instance
    · infer_instance

instance [h : p.Obeys R] : Obeys R K (emitOpenSources p.sources) := emitOpenSources_obeys h.opens

instance [h : R.Trees] : Obeys R K (emitOpenSources sources) :=
  emitOpenSources_obeys fun _ _ _ _ _ => h.trees rfl

instance : Obeys R K (emitCloseSources sources) := by
  unfold emitCloseSources
  infer_instance

/-- A scan binds the labels of its loops. Its body may be written where more labels are known. -/
theorem emitScan_obeys {body : Label → Emit Unit} : ∀ {K : List Label} {exit : Label},
    R.Knows K exit → (∀ skip, Obeys R (skip :: K) (body skip)) → Obeys R K (emitScan sources exit body) := by
  induction sources with
  | nil =>
    intro K exit hexit hbody
    exact (hbody exit).weaken (List.forall_mem_cons.mpr ⟨hexit, fun _ hl => ⟨.inl hl⟩⟩)
  | cons source rest ih =>
    intro K exit hexit hbody
    have hrest : ∀ head next : Label, Obeys R (head :: next :: K) (emitScan rest next body) := fun head next =>
      ih inferInstance fun skip => (hbody skip).weaken fun l hl => ⟨.inl (by simp at hl ⊢; tauto)⟩
    unfold emitScan
    infer_instance

instance {exit : Label} {body : Label → Emit Unit} [hexit : R.Knows K exit]
    [hbody : ∀ skip, Obeys R (skip :: K) (body skip)] : Obeys R K (emitScan sources exit body) :=
  emitScan_obeys hexit hbody

instance {limit : Option Resolved} [R.Knows K done] [h : R.Loads [] limit.toList] :
    Obeys R K (emitLimit done limit) := by
  unfold emitLimit
  split
  · infer_instance
  · have := h.head
    infer_instance

instance {offset : Option Resolved} [h : R.Loads [] offset.toList] : Obeys R K (emitOffset offset) := by
  unfold emitOffset
  split
  · infer_instance
  · have := h.head
    infer_instance

instance [R.Knows K done] [p.Obeys R] : Obeys R K (emitCounters p done) := by
  unfold emitCounters
  infer_instance

instance {c : Counters} {skip : Label} [R.Knows K skip] : Obeys R K (c.emitSkip skip) := by
  unfold Counters.emitSkip
  split <;> infer_instance

instance {c : Counters} [R.Knows K done] : Obeys R K (c.emitStop done) := by
  unfold Counters.emitStop
  split <;> infer_instance

/-- The outputs of a plan can be loaded. -/
class Plan.Served (R : Rules) (bindings : Bindings) (p : Plan) : Prop where
  served : R.Loads bindings (Grouping.outputs p)

instance [h : p.Served R bindings] : R.Loads bindings p.projection :=
  h.served.of_subset fun e he => by simp [Grouping.outputs, he]

instance [h : p.Served R bindings] : R.Loads bindings p.having.toList :=
  h.served.of_subset fun e he => by simp [Grouping.outputs, Option.mem_toList.mp he]

instance [h : p.Served R bindings] : R.Loads bindings (p.orderBy.map (·.1)) :=
  h.served.of_subset fun _ he => List.mem_append_right _ he

instance [R.Tolerant] : p.Served R bindings := ⟨inferInstance⟩

namespace Output

/-- The way of a row has the width of the plan, duplicates are not looked up through a cursor that only reads, and rows
are sorted by ORDER BY. -/
structure Follows (R : Rules) (p : Plan) (o : Output) : Prop where
  width : o.width = p.width
  distinct : ∀ c, o.distinct = .unordered c → ¬ R.reads c
  keys : ∀ s, o.sorting = some s → s.keys = p.orderBy.map (·.1)

variable {useSorter : Bool} {skip done : Label} {counters : Counters} {o : Output}

instance : Obeys R K (prepareDistinct p useSorter) := by
  unfold prepareDistinct
  infer_instance

instance : Obeys R K (prepareSorting p) := by
  unfold prepareSorting
  infer_instance

instance : Obeys R K (prepare p useSorter) := by
  unfold prepare
  infer_instance

instance : Yields R (prepare p useSorter) (Follows R p) where
  yields {b o b'} h hb := by
    simp only [prepare, gives_bind] at h
    obtain ⟨result, b1, hresult, x, b2, hx, h⟩ := h
    obtain ⟨-, rfl⟩ := gives_modifyGet.mp hresult
    have hdistinct : ∀ c, x = .unordered c → ¬ R.reads c := by
      unfold prepareDistinct at hx
      split at hx
      · obtain ⟨rfl, -⟩ := gives_pure.mp hx
        exact nofun
      · split at hx
        · simp only [gives_bind, gives_pure] at hx
          obtain ⟨_, _, -, _, _, -, _, _, -, rfl, -⟩ := hx
          exact nofun
        · simp only [gives_bind, gives_pure] at hx
          obtain ⟨c, b3, hc, _, _, -, rfl, -⟩ := hx
          rintro _ ⟨⟩
          exact Yields.yields (m := newCursor) hc hb
    split at h
    · simp only [gives_bind, gives_pure, prepareSorting] at h
      obtain ⟨_, _, ⟨_, _, -, _, _, -, _, _, -, _, _, -, rfl, -⟩, rfl, -⟩ := h
      exact ⟨rfl, hdistinct, by rintro _ ⟨⟩; rfl⟩
    · obtain ⟨rfl, -⟩ := gives_pure.mp h
      exact ⟨rfl, hdistinct, nofun⟩

instance (o : Subtype (Follows R p)) : Fact (o.1.Follows R p) := ⟨o.2⟩

instance {o : Subtype (Follows R p)} [h : d.Accepts R p.width] : d.Accepts R o.1.width := o.2.width ▸ h

instance {distinct : Distinct} {result width : Int} [R.Writes] [R.Knows K skip]
    [h : Fact (∀ c, distinct = .unordered c → ¬ R.reads c)] : Obeys R K (emitProbe distinct result width skip) := by
  unfold emitProbe
  split
  · have := Fact.mk (h.out _ rfl)
    infer_instance
  · infer_instance

instance {distinct : Distinct} [h : R.Free] : Fact (∀ c, distinct = .unordered c → ¬ R.reads c) := ⟨fun c _ => h.free c⟩

theorem emitRow_obeys {projection : List Resolved} [R.Writes] [R.Knows K skip] [R.Knows K done]
    [R.Loads bindings projection] [d.Accepts R o.width] (hdistinct : ∀ c, o.distinct = .unordered c → ¬ R.reads c)
    (hkeys : ∀ s, o.sorting = some s → R.Loads bindings s.keys) :
    Obeys R K (o.emitRow projection bindings counters d skip done) := by
  have := Fact.mk hdistinct
  unfold emitRow
  split
  · rename_i s hs
    have := hkeys s hs
    simp only
    infer_instance
  · infer_instance

instance [R.Writes] [R.Knows K skip] [R.Knows K done] [h : Fact (o.Follows R p)] [p.Served R bindings]
    [hd : d.Accepts R p.width] :
    Obeys R K (o.emitRow p.projection bindings counters d skip done) := by
  have : d.Accepts R o.width := h.out.width ▸ hd
  exact emitRow_obeys h.out.distinct fun s hs => h.out.keys s hs ▸ inferInstance

instance (priority := low) {projection : List Resolved} [R.Lax] [R.Tolerant] [h : R.Free] :
    Obeys R K (o.emitRow projection bindings counters d skip done) :=
  emitRow_obeys (fun c _ => h.free c) fun _ _ => inferInstance

instance {cursor field target : Int} {count : Nat} : Obeys R K (emitFields cursor count field target) := by
  induction count generalizing field target <;> (unfold emitFields; infer_instance)

instance {fresh : Label} {count : Nat} {current previous : Int} [R.Knows K fresh] :
    Obeys R K (emitDiffers fresh count current previous) := by
  induction count generalizing current previous <;> (unfold emitDiffers; infer_instance)

instance [R.Knows K skip] : Obeys R K (o.emitCompare skip) := by
  unfold emitCompare
  split <;> infer_instance

instance [R.Writes] [R.Knows K done] [d.Accepts R o.width] :
    Obeys R K (o.emitDrain counters d done) := by
  unfold emitDrain
  split <;> infer_instance

instance : Obeys R K o.emitCloseAll := by
  unfold emitCloseAll
  cases o.distinct <;> cases o.sorting <;> (dsimp only; infer_instance)

end Output

/-! ## Grouping -/

theorem Expr.Sized.calls {ρ : Type} {S : ρ → Prop} : ∀ {e : Expr ρ}, e.Sized S →
    ∀ c ∈ e.calls, c.2.length < 256 ∧ ∀ a ∈ c.2, a.Sized S
  | .ref _, _ | .lit _, _ => nofun
  | .aggregate _ _, he => by
    rintro _ (_ | ⟨_, ⟨⟩⟩)
    exact ⟨he.1, Expr.sizedAll_iff.mp he.2⟩
  | .binary _ _ _, he => List.forall_mem_append.mpr ⟨he.1.calls, he.2.calls⟩

namespace Grouping

variable {calls : List Call} {bare : List Resolved} {found : List (Aggregate × List Resolved)}

/-- The arguments of the calls can be counted. -/
abbrev Counts (R : Rules) (calls : List Call) : Prop := R.Fits (∀ c ∈ calls, c.args.length < 256)

/-- What is known of the calls that were gathered: their arguments can be counted and loaded, and where they are bound
the outputs are served. -/
class Gathered (R : Rules) (p : Plan) (calls : List Call) : Prop where
  counts : Counts R calls
  args : R.Loads [] (calls.flatMap (·.args))
  serves : ∀ bindings : Bindings, bindCalls calls ⊆ bindings → p.Served R bindings

instance : Obeys R K (allocate found) := by
  induction found <;> (unfold allocate; infer_instance)

theorem allocate_calls {b b' : Builder} :
    (allocate found).Gives b calls b' → calls.map (fun c => (c.func, c.args)) = found ∧
      ∀ c ∈ calls, c.expr = .aggregate c.func c.args := by
  induction found generalizing b calls with
  | nil =>
    intro h
    obtain ⟨rfl, rfl⟩ := gives_pure.mp h
    exact ⟨rfl, nofun⟩
  | cons call found ih =>
    intro h
    simp only [allocate, gives_bind, gives_pure] at h
    obtain ⟨_, _, -, _, _, -, rest, _, hrest, rfl, rfl⟩ := h
    obtain ⟨hfound, hexpr⟩ := ih hrest
    exact ⟨by rw [List.map_cons, hfound], List.forall_mem_cons.mpr ⟨rfl, hexpr⟩⟩

instance : Yields R (allocate found) fun calls =>
    calls.map (fun c => (c.func, c.args)) = found ∧ ∀ c ∈ calls, c.expr = .aggregate c.func c.args :=
  ⟨fun h _ => allocate_calls h⟩

instance : Obeys R K (emitReset calls) := by
  induction calls with
  | nil => exact inferInstanceAs (Obeys R K (pure ()))
  | cons call calls ih =>
    unfold emitReset
    split <;> infer_instance

instance {call : Call} [R.Fits (call.args.length < 256)] : Obeys R K (argCount call) := obeys_of_fits

theorem emitSteps_obeys (h : Counts R calls) : Obeys R K (emitSteps calls) := by
  induction calls with
  | nil => exact inferInstanceAs (Obeys R K (pure ()))
  | cons call calls ih =>
    have := h.imp fun hall => hall call List.mem_cons_self
    have := ih (h.imp fun hall c hc => hall c (List.mem_cons_of_mem _ hc))
    unfold emitSteps
    infer_instance

theorem emitFinals_obeys (h : Counts R calls) : Obeys R K (emitFinals calls) := by
  induction calls with
  | nil => exact inferInstanceAs (Obeys R K (pure ()))
  | cons call calls ih =>
    have := h.imp fun hall => hall call List.mem_cons_self
    have := ih (h.imp fun hall c hc => hall c (List.mem_cons_of_mem _ hc))
    unfold emitFinals
    infer_instance

instance [h : Counts R calls] : Obeys R K (emitSteps calls) := emitSteps_obeys h

instance [h : Counts R calls] : Obeys R K (emitFinals calls) := emitFinals_obeys h

instance {first : Int} {count : Nat} : Obeys R K (emitNulls first count) := by
  unfold emitNulls
  infer_instance

instance {cursor field : Int} : Obeys R K (emitArgFields cursor calls field) := by
  induction calls generalizing field <;> (unfold emitArgFields; infer_instance)

theorem emitArgs_obeys (h : R.Loads [] (calls.flatMap (·.args))) : Obeys R K (emitArgs calls) := by
  induction calls with
  | nil => exact inferInstanceAs (Obeys R K (pure ()))
  | cons call calls ih =>
    have : R.Loads [] call.args := h.of_subset (List.subset_append_left ..)
    have := ih (h.of_subset (List.subset_append_right ..))
    unfold emitArgs
    infer_instance

instance [h : R.Loads [] (calls.flatMap (·.args))] : Obeys R K (emitArgs calls) := emitArgs_obeys h

instance : Obeys R K (prepareWalk p calls bare) := by
  unfold prepareWalk
  infer_instance

instance {sorter record : Int} {w : Walk} : Obeys R K (emitLoad p calls bare sorter record w) := by
  unfold emitLoad
  infer_instance

instance {w : Walk} [Counts R calls] : Obeys R K (emitTake p calls bare w) := by
  unfold emitTake
  infer_instance

section Rows

variable [R.Writes] [p.Obeys R] [hcalls : Gathered R p calls] [R.Loads [] bare]

instance {bareBase : Int} : Obeys R K (emitGather p calls bare bareBase) := by
  have := hcalls.args
  have := hcalls.counts
  unfold emitGather
  infer_instance

theorem emitSingleGroup_builds {counters : Counters} {done : Label} [R.Knows K done] [d.Accepts R p.width] :
    Builds R K [done] [] [] (emitSingleGroup p d calls bare counters done) := by
  have := hcalls.counts
  have hserved : ∀ base, p.Served R (bindCalls calls ++ bindFrom bare base) := fun base =>
    hcalls.serves _ (List.subset_append_left ..)
  unfold emitSingleGroup
  simp only
  infer_instance

instance : Obeys R K (emitSortRows p calls bare) := by
  have := hcalls.args
  have : R.Loads [] (sortedFields p calls bare) := by
    unfold sortedFields
    infer_instance
  unfold emitSortRows
  infer_instance

instance {counters : Counters} {o : Output} {w : Walk} {done : Label} [R.Knows K done] [Fact (o.Follows R p)]
    [d.Accepts R p.width] : Obeys R K (emitGroupEnd p d calls bare counters o w done) := by
  have := hcalls.counts
  have hserved : p.Served R (groupBindings p calls bare w) := hcalls.serves _ fun _ hc =>
    List.mem_append_left _ (List.mem_append_right _ hc)
  unfold emitGroupEnd
  infer_instance

-- The steps are more than the default number of instances.
set_option synthInstance.maxSize 512 in
instance {counters : Counters} {o : Output} {sorter record : Int} {w : Walk} {done : Label} [R.Knows K done]
    [Fact (o.Follows R p)] [d.Accepts R p.width] :
    Obeys R K (emitGroupLoop p d calls bare counters o sorter record w done) := by
  have := hcalls.counts
  unfold emitGroupLoop emitWalk emitEnter
  simp only [bind_assoc, pure_bind]
  infer_instance

theorem emitGroups_builds {counters : Counters} {done : Label} [R.Knows K done] [d.Accepts R p.width] :
    Builds R K [done] [] [] (emitGroups p d calls bare counters done) := by
  unfold emitGroups
  refine @Builds.bind _ _ _ _ _ _ _ _ _ inferInstance fun sorted => ?_
  dsimp only
  infer_instance

variable {β : Type} {counters : Counters} {done : Label} [R.Knows K done] [d.Accepts R p.width] {L rest : List Label}
  {G : List Int} {T : List Instruction} {n : Emit β} [Drops L done rest] [Builds R K rest G T n]

instance : Builds R K L G T (emitSingleGroup p d calls bare counters done >>= fun _ => n) :=
  emitSingleGroup_builds.binding

instance : Builds R K L G T (emitGroups p d calls bare counters done >>= fun _ => n) := emitGroups_builds.binding

end Rows

theorem Gathers.gathered [hp : p.Obeys R] (h : Gathers ((outputs p).flatMap (·.calls)) [] found)
    (hfound : calls.map (fun c => (c.func, c.args)) = found) (hexpr : ∀ c ∈ calls, c.expr = .aggregate c.func c.args) :
    Gathered R p calls := by
  have horigin : ∀ c ∈ calls, (c.func, c.args) ∈ (outputs p).flatMap (·.calls) := fun c hc =>
    h.origin (hfound ▸ List.mem_map_of_mem (f := fun c : Call => (c.func, c.args)) hc)
  have hsized : R.Fits (∀ c ∈ calls, c.args.length < 256 ∧ ∀ a ∈ c.args, a.SizedPlaces) := hp.sized.imp fun hall c hc => by
    obtain ⟨e, he, hin⟩ := List.mem_flatMap.mp (horigin c hc)
    exact (hall e he).calls _ hin
  refine ⟨hsized.imp fun hall c hc => (hall c hc).1, .of_plain (hsized.imp fun hall a ha => ?_) fun a ha => ?_,
    fun bindings hbound => ⟨hp.sized, hp.outputs.imp_left fun houtputs e he c hc => ?_⟩⟩
  · obtain ⟨c, hc, ha⟩ := List.mem_flatMap.mp ha
    exact (hall c hc).2 a ha
  · obtain ⟨c, hc, ha⟩ := List.mem_flatMap.mp ha
    exact h.plain _ (horigin c hc) a ha
  · have hnan := Expr.anyArgument_eq_false.mp (houtputs e he).2
    obtain ⟨c', hc', hsame⟩ := h.again c (List.mem_flatMap.mpr ⟨e, he, hc⟩) (hnan c hc)
    obtain ⟨call, hcall, rfl⟩ := List.mem_map.mp (hfound ▸ hc')
    exact register?_isSome (hbound (List.mem_map_of_mem hcall)) (hexpr call hcall ▸ hsame)

instance [hp : p.Obeys R] : R.Loads [] (bareColumns p) := by
  have hrefs := bareColumns_reads p
  refine .of_plain (hp.sized.imp fun hall x hx => ?_) fun x hx => ?_
  · obtain ⟨q, rfl, e, he, hq⟩ := hrefs x hx
    exact (hall e he).refs q hq
  · obtain ⟨q, rfl, -⟩ := hrefs x hx
    rfl

instance [hp : p.Obeys R] : Obeys R K (check (addAllCalls (outputs p) [])) := by
  have hends := addAllCalls_ends (outputs p) []
  refine obeys_check fun x herror => ?_
  rw [herror] at hends
  obtain ⟨⟨e, he, hnests⟩, name, rfl⟩ := hends
  refine hp.outputs.resolve_left (fun houtputs => ?_) name
  rw [(houtputs e he).1] at hnests
  cases hnests

instance [R.Writes] [d.Accepts R p.width] [hp : p.Obeys R] : Obeys R K (emit p d) := by
  have hends := addAllCalls_ends (outputs p) []
  have hgathered : ∀ (found : Subtype fun found => addAllCalls (outputs p) [] = .ok found)
      (calls : Subtype fun calls : List Call => calls.map (fun c => (c.func, c.args)) = found.1 ∧
        ∀ c ∈ calls, c.expr = .aggregate c.func c.args), Gathered R p calls.1 := by
    intro found calls
    rw [found.2] at hends
    exact hends.gathered calls.2.1 calls.2.2
  simp only [emit]
  infer_instance

end Grouping

/-! ## Plans -/

theorem Plan.plain_of_not_isAggregate (h : p.isAggregate = false) :
    ∀ e ∈ Grouping.outputs p, e.containsAggregate = false := by
  simp only [isAggregate, Bool.or_eq_false_iff, List.any_eq_false, Bool.not_eq_true, Prod.forall] at h
  obtain ⟨⟨⟨-, hprojection⟩, hhaving⟩, horder⟩ := h
  intro e he
  simp only [Grouping.outputs, List.mem_append, Option.mem_toList, List.mem_map, Prod.exists] at he
  rcases he with (he | he) | ⟨e, direction, he, rfl⟩
  · exact hprojection e he
  · simpa [he] using hhaving
  · exact horder e direction he

theorem emitPlain_obeys [R.Writes] [p.Obeys R] [d.Accepts R p.width] [p.Served R []] : Obeys R K (emitPlain p d) := by
  have hrest : ∀ (done : Label) (counters : Counters) (o : Subtype (Output.Follows R p)),
      Builds R (done :: K) [done] [] [] (do
        let scanEnd ← if o.1.sorting.isSome then newLabel else pure done
        emitScan p.sources scanEnd fun skip => do
          emitFilter [] skip p.filter
          o.1.emitRow p.projection [] counters d skip done
        if o.1.sorting.isSome then
          bindHere scanEnd
          o.1.emitDrain counters d done
        bindHere done
        o.1.emitCloseAll
        emitCloseSources p.sources) := by
    intro done counters o
    cases o.1.sorting.isSome <;> (simp only [if_true, Bool.false_eq_true, if_false, pure_bind]; infer_instance)
  unfold emitPlain
  infer_instance

instance [R.Writes] [hp : p.Obeys R] [d.Accepts R p.width] : Obeys R K (emitPlan p d) := by
  unfold emitPlan
  split
  · infer_instance
  · rename_i hplain
    have hserved : p.Served R [] := ⟨.of_plain hp.sized (Plan.plain_of_not_isAggregate (Bool.eq_false_iff.mpr hplain))⟩
    exact emitPlain_obeys

instance [R.Lax] [R.Tolerant] [R.Free] : Obeys R K (emitPlain p d) := emitPlain_obeys

theorem emitPlans_obeys {plans : List Plan} [R.Writes] (hd : ∀ width, d.Accepts R width) (h : ∀ p ∈ plans, p.Obeys R) :
    Obeys R K (emitPlans d plans) := by
  induction plans with
  | nil => exact inferInstanceAs (Obeys R K (pure ()))
  | cons p plans ih =>
    obtain ⟨hp, hplans⟩ := List.forall_mem_cons.mp h
    have := ih hplans
    unfold emitPlans
    infer_instance

/-- A plan over a cursor that is open already opens nothing and calls nothing. -/
theorem Plan.obeys_ofCursor (cursor : Int) {names : List String} (orderBy : List (Nat × Direction))
    (hsized : R.Fits (names.length < sizeLimit ∧ ∀ c ∈ orderBy, c.1 < names.length)) {limit offset : Option Resolved}
    (h : R.Loads [] (limit.toList ++ offset.toList)) :
    Plan.Obeys R { ofCursor cursor names with
      orderBy := orderBy.map fun (column, direction) => (.ref (.field cursor column), direction), limit, offset } := by
  refine ⟨fun source hin root name hname => ?_, by simpa [ofCursor] using h, hsized.imp fun hlt e he => ?_,
    .inl fun e he => ?_⟩
  · obtain rfl := List.mem_singleton.mp hin
    cases hname
  all_goals simp only [Grouping.outputs, ofCursor, Option.toList_none, List.append_nil, List.mem_append, List.mem_map] at he
  · rcases he with ⟨index, hin, rfl⟩ | ⟨_, ⟨column, hin, rfl⟩, rfl⟩
    · exact Nat.lt_trans (List.mem_range.mp hin) hlt.1
    · exact Nat.lt_trans (hlt.2 column hin) hlt.1
  · rcases he with ⟨index, -, rfl⟩ | ⟨_, ⟨column, -, rfl⟩, rfl⟩ <;> exact ⟨rfl, rfl⟩

/-! ## Selections joined by operators -/

namespace Compound

theorem emitCollect_obeys [R.Writes] {names : List String} {united rest : List Plan}
    (hsized : R.Fits (names.length < sizeLimit)) (hunited : ∀ p ∈ united, p.Obeys R) (hrest : ∀ p ∈ rest, p.Obeys R) :
    Obeys R K (emitCollect names united rest) := by
  have hset : ∀ c : Subtype fun c => ¬ R.reads c, Obeys R K (emitPlans (.set c.1) united) :=
    fun _ => emitPlans_obeys (fun _ => inferInstance) hunited
  have htable : ∀ c : Subtype fun c => ¬ R.reads c, Obeys R K (emitPlans (.table c.1) rest) :=
    fun _ => emitPlans_obeys (fun _ => inferInstance) hrest
  have hcopy : ∀ (c : Subtype fun c => ¬ R.reads c) set, Obeys R K (emitCopy names c.1 set) := by
    intro c set
    cases set with
    | none => exact inferInstanceAs (Obeys R K (pure ()))
    | some index =>
      have : (Plan.ofCursor index names).Obeys R := Plan.obeys_ofCursor index []
        (hsized.imp fun hlt => ⟨hlt, nofun⟩) ⟨⟨.inl nofun⟩, .inl nofun⟩
      exact inferInstanceAs (Obeys R K (emitPlan (Plan.ofCursor index names) (.table c.1)))
  unfold emitCollect emitTable emitSet
  infer_instance

/-- What follows the plans of the selections. -/
theorem emitRest_obeys [R.Writes] (names : List String) [hd : d.Accepts R names.length] {plans : List Plan}
    (hplans : ∀ p ∈ plans, p.Obeys R) (reach : Nat) (columns : List (Nat × Direction)) (limit offset : Option Resolved)
    (hsized : R.Fits (names.length < sizeLimit ∧ ∀ c ∈ columns, c.1 < names.length))
    (h : R.Loads [] (limit.toList ++ offset.toList)) :
    Obeys R K (do
      let cursors ← emitCollect names (plans.take reach) (plans.drop reach)
      let scanned := cursors.getLast?.getD 0
      let orderBy := columns.map fun (column, direction) => (.ref (.field scanned column), direction)
      emitPlan { Plan.ofCursor scanned names with orderBy, limit, offset } d
      emitClose cursors
      pure names) := by
  have hcollect : Obeys R K (emitCollect names (plans.take reach) (plans.drop reach)) :=
    emitCollect_obeys (hsized.imp And.left) (fun p hp => hplans p (List.mem_of_mem_take hp))
      fun p hp => hplans p (List.mem_of_mem_drop hp)
  have hplan := fun scanned => Plan.obeys_ofCursor scanned columns hsized h
  have haccepts : ∀ scanned orderBy, d.Accepts R { Plan.ofCursor scanned names with orderBy, limit, offset }.width :=
    fun scanned orderBy => by simpa [Plan.width, Plan.ofCursor] using hd
  infer_instance

end Compound

/-! ## Queries -/

variable {schema : Schema}

instance {name : String} : Obeys R K (check (schema.lookup name)) := obeys_check fun _ => Schema.raises_of_lookup

instance {tables : List TableRef} : Obeys R K (openScope schema tables) := by
  induction tables <;> (unfold openScope; infer_instance)

instance {s : Selection} {orderBy : List OrderingTerm} {limit : Option LimitClause} [R.Tolerant] :
    Obeys R K (planSelection schema s orderBy limit) := by
  unfold planSelection
  infer_instance

/-- Planning a selection obeys rules, and so does the code for its plan. -/
structure Selection.Obeys (R : Rules) (schema : Schema) (s : Selection) (orderBy : List OrderingTerm)
    (limit : Option LimitClause) : Prop where
  plan : ∀ K, Emit.Obeys R K (planSelection schema s orderBy limit)
  obeys : ∀ {b p b'}, (planSelection schema s orderBy limit).Gives b p b' → p.Obeys R

/-- The destination accepts the rows of the selection. -/
structure Selection.Sends (R : Rules) (schema : Schema) (s : Selection) (orderBy : List OrderingTerm)
    (limit : Option LimitClause) (d : Destination) : Prop extends s.Obeys R schema orderBy limit where
  accepts : ∀ {b p b'}, (planSelection schema s orderBy limit).Gives b p b' →
    R.Fits (p.names.length < sizeLimit) ∧ d.Accepts R p.names.length ∧ d.Accepts R p.width

namespace Compound

variable {names : List String} {arms : List (CompoundOp × Selection)} {width : Nat}

instance {i : Nat} {terms : List OrderingTerm} :
    Obeys R K (check (orderColumns names i terms)) := by
  refine obeys_check fun e h => ?_
  induction terms generalizing i with
  | nil => cases h
  | cons term terms ih =>
    unfold orderColumns at h
    repeat' split at h
    all_goals cases h
    · exact R.reports nofun nofun
    · exact ih (by assumption)

theorem lt_orderColumn? {t : Term} {column : Nat} (h : orderColumn? names t = some column) : column < names.length := by
  unfold orderColumn? at h
  split at h
  · split at h
    · cases h
      omega
    · cases h
  · exact (List.findIdx?_eq_some_iff_getElem.mp h).1
  · cases h

theorem lt_of_orderColumns {i : Nat} {terms : List OrderingTerm} {columns : List (Nat × Direction)}
    (h : orderColumns names i terms = .ok columns) : ∀ c ∈ columns, c.1 < names.length := by
  induction terms generalizing i columns with
  | nil =>
    cases h
    exact nofun
  | cons term terms ih =>
    unfold orderColumns at h
    repeat' split at h
    all_goals cases h
    exact List.forall_mem_cons.mpr ⟨lt_orderColumn? (by assumption), ih (by assumption)⟩

theorem planArms_obeys (h : ∀ arm ∈ arms, arm.2.Obeys R schema [] none) : Obeys R K (planArms schema width arms) := by
  induction arms with
  | nil => exact inferInstanceAs (Obeys R K (pure []))
  | cons arm arms ih =>
    obtain ⟨harm, harms⟩ := List.forall_mem_cons.mp h
    have hplan := harm.plan K
    have hrest := ih harms
    unfold planArms
    infer_instance

instance [R.Lax] [R.Tolerant] :
    Obeys R K (planArms schema width arms) := planArms_obeys fun _ _ => ⟨fun _ => inferInstance, fun _ => inferInstance⟩

theorem obeys_of_planArms {b b' : Builder} {plans : List Plan} (harms : ∀ arm ∈ arms, arm.2.Obeys R schema [] none)
    (h : (planArms schema width arms).Gives b plans b') : ∀ p ∈ plans, p.Obeys R := by
  induction arms generalizing b b' plans with
  | nil =>
    obtain ⟨rfl, -⟩ := gives_pure.mp h
    exact nofun
  | cons arm arms ih =>
    obtain ⟨harm, harms⟩ := List.forall_mem_cons.mp harms
    obtain ⟨p, b1, hp, h⟩ := gives_bind.mp h
    split at h
    · obtain ⟨more, b2, hmore, h⟩ := gives_bind.mp h
      obtain ⟨rfl, -⟩ := gives_pure.mp h
      exact List.forall_mem_cons.mpr ⟨harm.obeys hp, ih harms hmore⟩
    · exact (gives_throw h).elim

/-- Code for selections joined by operators. -/
theorem emit_obeys [R.Writes] {q : Query} (hfirst : q.first.Sends R schema [] none d)
    (harms : ∀ arm ∈ q.arms, arm.2.Obeys R schema [] none)
    (herror : ∀ e, resolveLimit q.limit = .error e → R.raises e)
    (hlimit : ∀ limit offset, resolveLimit q.limit = .ok (limit, offset) → R.Loads [] (limit.toList ++ offset.toList)) :
    Obeys R K (emit schema q d) := by
  unfold emit
  split
  · exact builds_throw (R.reports nofun nofun)
  refine (hfirst.plan K).bind_of fun {_ first _} hplan _ => ?_
  refine (planArms_obeys harms).bind_of fun {_ arms _} hplans _ => ?_
  refine Builds.bind_of inferInstance fun {_ columns _} hcolumns _ => ?_
  refine (obeys_check herror).bind_of fun {_ window _} hwindow _ => ?_
  obtain ⟨limit, offset⟩ := window
  obtain ⟨hsized, hd, -⟩ := hfirst.accepts hplan
  refine emitRest_obeys first.names ?_ (unionReach q.arms) columns limit offset (hsized.imp fun hlt => ⟨hlt, ?_⟩) (hlimit _ _ (gives_check.mp hwindow).1)
  · exact List.forall_mem_cons.mpr ⟨hfirst.obeys hplan, obeys_of_planArms harms hplans⟩
  · exact lt_of_orderColumns (gives_check.mp hcolumns).1

end Compound

/-- Code for a query, from what its selections are like. -/
theorem emitQuery_obeys [R.Writes] {q : Query} (hsingle : q.arms = [] → q.first.Sends R schema q.orderBy q.limit d)
    (hfirst : q.first.Sends R schema [] none d) (harms : ∀ arm ∈ q.arms, arm.2.Obeys R schema [] none)
    (herror : ∀ e, resolveLimit q.limit = .error e → R.raises e)
    (hlimit : ∀ limit offset, resolveLimit q.limit = .ok (limit, offset) → R.Loads [] (limit.toList ++ offset.toList)) :
    Obeys R K (emitQuery schema q d) := by
  unfold emitQuery
  split
  · rename_i hempty
    have hone := hsingle (List.isEmpty_iff.mp hempty)
    refine (hone.plan K).bind_of fun {_ p _} hplan _ => ?_
    have := hone.obeys hplan
    have := (hone.accepts hplan).2.2
    infer_instance
  · exact Compound.emit_obeys hfirst harms herror hlimit

instance [R.Lax] [h : R.Tolerant] [R.Free] {q : Query} : Obeys R K (emitQuery schema q d) := by
  have hselect : ∀ s orderBy limit, Selection.Sends R schema s orderBy limit d := fun _ _ _ =>
    ⟨⟨fun _ => inferInstance, fun _ => inferInstance⟩, fun _ => ⟨inferInstance, inferInstance, inferInstance⟩⟩
  exact emitQuery_obeys (fun _ => hselect _ _ _) (hselect _ _ _) (fun _ _ => (hselect _ _ _).toObeys)
    (fun _ _ => h.raises _) fun _ _ _ => inferInstance

end QueryMachine
