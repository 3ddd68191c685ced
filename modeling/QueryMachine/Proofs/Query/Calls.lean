import QueryMachine.Compile.Grouping
import QueryMachine.Proofs.Query.Meaning
import QueryMachine.Proofs.Value.Order

/-!
# Aggregate calls of expressions

The calls of the outputs of a query are gathered, each once, and an output finds its call again by comparing
expressions. An expression in which a NaN is written is not the same as itself.

* `Expr.calls`, `Expr.nests`, `Expr.callsNaN` — the calls of an expression, and what stands in their arguments.
* `Grouping.Gathers`, `Grouping.addAllCalls_ends` — how calls are gathered.
* `Grouping.bareColumns_reads` — bare columns are places that the outputs read.
-/

namespace QueryMachine

/-! ## Calls of expressions -/

namespace Expr

variable {ρ : Type}

/-- The aggregate calls that stand in no other one, left to right. -/
def calls : Expr ρ → List (Aggregate × List (Expr ρ))
  | aggregate func args => [(func, args)]
  | binary _ left right => left.calls ++ right.calls
  | _ => []

theorem calls_eq_nil : ∀ {e : Expr ρ}, e.calls = [] ↔ e.containsAggregate = false
  | .ref _ | .lit _ | .aggregate _ _ => by simp [calls, containsAggregate]
  | .binary _ left right => by simp [calls, containsAggregate, calls_eq_nil]

theorem calls_of_conjuncts {e t : Expr ρ} (h : t ∈ e.conjuncts) : t.calls ⊆ e.calls := by
  fun_induction conjuncts e with
  | case1 left right ihl ihr =>
    rcases List.mem_append.mp h with h | h
    · exact List.subset_append_of_subset_left _ (ihl h)
    · exact List.subset_append_of_subset_right _ (ihr h)
  | case2 e => exact List.mem_singleton.mp h ▸ List.Subset.refl _

/-- Whether a NaN is written outside of aggregate calls. -/
def holdsNaN : Expr ρ → Bool
  | lit v => v.isNaN
  | binary _ left right => left.holdsNaN || right.holdsNaN
  | _ => false

/-- Whether an argument of an aggregate call has a property. -/
def anyArgument (p : Expr ρ → Bool) (e : Expr ρ) : Bool := e.calls.any fun c => c.2.any p

/-- Whether an aggregate call stands in an argument of another one. -/
def nests (e : Expr ρ) : Bool := e.anyArgument containsAggregate

/-- Whether a NaN is written in an argument of an aggregate call. -/
def callsNaN (e : Expr ρ) : Bool := e.anyArgument holdsNaN

theorem anyArgument_eq_false {p : Expr ρ → Bool} {e : Expr ρ} :
    e.anyArgument p = false ↔ ∀ c ∈ e.calls, ∀ a ∈ c.2, p a = false := by
  simp [anyArgument]

variable [BEq ρ] [ReflBEq ρ]

/-- An expression is the same as itself, unless a NaN is written in it. -/
theorem same_self : ∀ {e : Expr ρ}, e.containsAggregate = false → e.holdsNaN = false → e.same e = true
  | .ref _, _, _ => by simp [same]
  | .lit v, _, h => by
    cases v with
    | real x =>
      have h : x.isNaN = false := h
      simp [same, Value.sameLiteral, Binary64.equal, Binary64.compare?, h]
    | _ => simp [same, Value.sameLiteral]
  | .binary _ left right, h, hnan => by
    obtain ⟨hl, hr⟩ := Bool.or_eq_false_iff.mp h
    obtain ⟨hl', hr'⟩ := Bool.or_eq_false_iff.mp hnan
    simp [same, same_self hl hl', same_self hr hr']
  | .aggregate _ _, h, _ => by cases h

theorem sameAll_self {es : List (Expr ρ)} (h : ∀ e ∈ es, e.containsAggregate = false)
    (hnan : ∀ e ∈ es, e.holdsNaN = false) : sameAll es es = true := by
  induction es with
  | nil => rfl
  | cons e es ih =>
    rw [List.forall_mem_cons] at h hnan
    rw [sameAll, same_self h.1 hnan.1, ih h.2 hnan.2, Bool.and_self]

end Expr

namespace Grouping

/-- The calls are gathered, each once: none stands in an argument of another, and those in which no NaN is
written are found again. -/
structure Gathers (calls found found' : List (Aggregate × List Resolved)) : Prop where
  kept : found ⊆ found'
  origin : found' ⊆ found ++ calls
  plain : ∀ c ∈ calls, ∀ a ∈ c.2, a.containsAggregate = false
  again : ∀ c ∈ calls, (∀ a ∈ c.2, a.holdsNaN = false) →
    ∃ c' ∈ found', (Expr.aggregate c'.1 c'.2).same (.aggregate c.1 c.2) = true

theorem Gathers.nil (found : List (Aggregate × List Resolved)) : Gathers [] found found :=
  ⟨List.Subset.refl _, List.subset_append_left .., nofun, nofun⟩

theorem Gathers.append {calls calls' found middle found' : List (Aggregate × List Resolved)}
    (h : Gathers calls found middle) (k : Gathers calls' middle found') : Gathers (calls ++ calls') found found' where
  kept := List.Subset.trans h.kept k.kept
  origin c hc := by
    rcases List.mem_append.mp (k.origin hc) with hc | hc
    · exact List.append_assoc .. ▸ List.mem_append_left _ (h.origin hc)
    · simp [hc]
  plain := List.forall_mem_append.mpr ⟨h.plain, k.plain⟩
  again := by
    refine List.forall_mem_append.mpr ⟨fun c hc hnan => ?_, k.again⟩
    obtain ⟨c', hc', hsame⟩ := h.again c hc hnan
    exact ⟨c', k.kept hc', hsame⟩

/-- A call in an argument of another one is all that keeps calls from being gathered. -/
theorem addCalls_ends (e : Resolved) (found : List (Aggregate × List Resolved)) :
    match addCalls e found with
    | .ok found' => Gathers e.calls found found'
    | .error x => e.nests = true ∧ ∃ name, x = .misuseOfAggregate name := by
  fun_induction addCalls e found with
  | case1 found func args hnested => exact ⟨by simpa [Expr.nests, Expr.anyArgument, Expr.calls] using hnested, _, rfl⟩
  | case2 found func args hplain hfound =>
    obtain ⟨c, hc, hsame⟩ := List.any_eq_true.mp hfound
    refine ⟨List.Subset.refl _, List.subset_append_left .., ?_, ?_⟩
    · simpa [Expr.calls] using hplain
    · rintro _ (_ | ⟨_, ⟨⟩⟩) -
      exact ⟨c, hc, hsame⟩
  | case3 found func args hplain =>
    have hargs : ∀ a ∈ args, a.containsAggregate = false := by simpa using hplain
    refine ⟨List.subset_append_left .., List.Subset.refl _, by simpa [Expr.calls] using hargs, ?_⟩
    rintro _ (_ | ⟨_, ⟨⟩⟩) hnan
    refine ⟨(func, args), List.mem_append_right _ (List.mem_singleton_self _), ?_⟩
    rw [Expr.same, Expr.sameAll_self hargs hnan, beq_self_eq_true, Bool.and_self]
  | case4 found operator left right x hleft ihl =>
    rw [hleft] at ihl
    refine ⟨?_, ihl.2⟩
    rw [Expr.nests, Expr.anyArgument, Expr.calls, List.any_append, Bool.or_eq_true]
    exact .inl ihl.1
  | case5 found operator left right middle hleft ihl ihr =>
    rw [hleft] at ihl
    cases hright : addCalls right middle with
    | ok found' =>
      rw [hright] at ihr
      exact ihl.append ihr
    | error x =>
      rw [hright] at ihr
      refine ⟨?_, ihr.2⟩
      rw [Expr.nests, Expr.anyArgument, Expr.calls, List.any_append, Bool.or_eq_true]
      exact .inr ihr.1
  | case6 e found hcall hbinary =>
    cases e with
    | ref | lit => exact .nil found
    | binary => exact (hbinary _ _ _ rfl).elim
    | aggregate => exact (hcall _ _ rfl).elim

theorem addAllCalls_ends (es : List Resolved) (found : List (Aggregate × List Resolved)) :
    match addAllCalls es found with
    | .ok found' => Gathers (es.flatMap (·.calls)) found found'
    | .error x => (∃ e ∈ es, e.nests = true) ∧ ∃ name, x = .misuseOfAggregate name := by
  induction es generalizing found with
  | nil => exact .nil found
  | cons e es ih =>
    have hfirst := addCalls_ends e found
    unfold addAllCalls
    cases hone : addCalls e found with
    | error x =>
      rw [hone] at hfirst
      exact ⟨⟨e, List.mem_cons_self, hfirst.1⟩, hfirst.2⟩
    | ok middle =>
      rw [hone] at hfirst
      have hrest := ih middle
      dsimp only
      cases hmore : addAllCalls es middle with
      | ok found' =>
        rw [hmore] at hrest
        exact hfirst.append hrest
      | error x =>
        rw [hmore] at hrest
        obtain ⟨⟨e', he', hnests⟩, hname⟩ := hrest
        exact ⟨⟨e', List.mem_cons_of_mem _ he', hnests⟩, hname⟩

theorem register?_isSome {bindings : Bindings} {bound e : Resolved} {r : Int}
    (hmem : (bound, r) ∈ bindings) (hsame : bound.same e = true) : (bindings.register? e).isSome := by
  rw [Bindings.register?, Option.isSome_map, List.find?_isSome]
  exact ⟨(bound, r), hmem, hsame⟩

/-! ## What calls and bare columns read -/

theorem mem_refs_of_calls {q : Place} {a : Resolved} : ∀ {e : Resolved} {c : Aggregate × List Resolved},
    c ∈ e.calls → a ∈ c.2 → q ∈ a.refs → q ∈ e.refs
  | .aggregate _ _, _, hc, ha, hq => by
    rw [List.mem_singleton.mp hc] at ha
    exact Expr.mem_refsAll.mpr ⟨a, ha, hq⟩
  | .binary _ _ _, _, hc, ha, hq => by
    rcases List.mem_append.mp hc with hc | hc
    · exact List.mem_append_left _ (mem_refs_of_calls hc ha hq)
    · exact List.mem_append_right _ (mem_refs_of_calls hc ha hq)

theorem Gathers.reads {es : List Resolved} {found : List (Aggregate × List Resolved)}
    (h : Gathers (es.flatMap (·.calls)) [] found) {c : Aggregate × List Resolved} (hc : c ∈ found) {a : Resolved}
    (ha : a ∈ c.2) {q : Place} (hq : q ∈ a.refs) : ∃ e ∈ es, q ∈ e.refs := by
  obtain ⟨e, he, hc⟩ := List.mem_flatMap.mp (h.origin hc)
  exact ⟨e, he, mem_refs_of_calls hc ha hq⟩

/-- A bare column is a place that is read. -/
theorem addBare_reads {keys es : List Resolved} : ∀ {e : Resolved} {found : List Resolved},
    (∀ q ∈ e.refs, ∃ e ∈ es, q ∈ e.refs) → (∀ x ∈ found, ∃ q, x = .ref q ∧ ∃ e ∈ es, q ∈ e.refs) →
    ∀ x ∈ addBare keys e found, ∃ q, x = .ref q ∧ ∃ e ∈ es, q ∈ e.refs
  | .ref p, found, hrefs, hfound => by
    unfold addBare
    split
    · exact hfound
    · dsimp only
      split
      · exact hfound
      · intro x hx
        rcases List.mem_append.mp hx with hx | hx
        · exact hfound x hx
        · obtain rfl := List.mem_singleton.mp hx
          exact ⟨p, rfl, hrefs p (List.mem_singleton_self p)⟩
  | .binary _ left right, found, hrefs, hfound => by
    unfold addBare
    split
    · exact hfound
    · refine addBare_reads (fun q hq => hrefs q (List.mem_append_right _ hq)) ?_
      exact addBare_reads (fun q hq => hrefs q (List.mem_append_left _ hq)) hfound
  | .lit _, found, _, hfound => by
    unfold addBare
    split <;> exact hfound
  | .aggregate _ _, found, _, hfound => by
    unfold addBare
    split <;> exact hfound

theorem bareColumns_reads (p : Plan) : ∀ x ∈ bareColumns p, ∃ q, x = .ref q ∧ ∃ e ∈ outputs p, q ∈ e.refs := by
  have hfold : ∀ (rest found : List Resolved), (∀ e ∈ rest, e ∈ outputs p) →
      (∀ x ∈ found, ∃ q, x = .ref q ∧ ∃ e ∈ outputs p, q ∈ e.refs) →
      ∀ x ∈ rest.foldl (fun found e => addBare p.groupBy e found) found,
        ∃ q, x = .ref q ∧ ∃ e ∈ outputs p, q ∈ e.refs := by
    intro rest
    induction rest with
    | nil => exact fun found _ hfound => hfound
    | cons e rest ih =>
      intro found hin hfound
      refine ih _ (fun e he => hin e (List.mem_cons_of_mem _ he)) ?_
      exact addBare_reads (fun q hq => ⟨e, hin e List.mem_cons_self, hq⟩) hfound
  exact hfold (outputs p) [] (fun _ he => he) fun _ hx => (List.not_mem_nil hx).elim

end Grouping

end QueryMachine
