import QueryMachine.Proofs.Compile.Drain

/-!
# From the first row to the last

An output is prepared, takes rows one after the other, is drained if it sorts, and is closed. What
its destination receives over all of this is a function of the rows that came, with their keys.

* `Distinct.admitted` — the rows that were not there when they came.
* `Output.deliver` — the rows that reach the window, in their order.
* `Output.prepare_leads` — an output is ready for its first row.
* `Output.foldlM_arrive_sorted`, `Output.foldlM_arrive_unsorted` — all rows came.
-/

namespace QueryMachine

open Machine Emit

variable {σ : Setting} {b b' : Builder} {s s' : State}

/-! ## All rows -/

/-- The items whose rows were not there when they came. -/
def Distinct.admitted {α : Type} (d : Distinct) (columns : α → List Value) :
    List (List Value) → List α → List α
  | _, [] => []
  | seen, a :: rest =>
    match d.pass (columns a) seen with
    | .none => d.admitted columns seen rest
    | some seen => a :: d.admitted columns seen rest

theorem Distinct.admitted_of_not_unordered {α : Type} {d : Distinct} (h : ∀ k, d ≠ .unordered k)
    (columns : α → List Value) (seen : List (List Value)) : ∀ items, d.admitted columns seen items = items := by
  intro items
  induction items with
  | nil => rfl
  | cons a rest ih =>
    cases d with
    | none | ordered => exact congrArg (a :: ·) ih
    | unordered k => exact absurd rfl (h k)

theorem Distinct.admitted_sublist {α : Type} (d : Distinct) (columns : α → List Value)
    (seen : List (List Value)) (items : List α) : (d.admitted columns seen items).Sublist items := by
  induction items generalizing seen with
  | nil => exact List.Sublist.slnil
  | cons a rest ih =>
    rw [Distinct.admitted]
    cases d.pass (columns a) seen with
    | none => exact (ih seen).cons a
    | some seen => exact (ih seen).cons_cons a

/-- For each ORDER BY term, whether it sorts in descending order. -/
def Plan.descending (p : Plan) : List Bool := p.orderBy.map fun term => decide (term.2 = .desc)

/-- The rows that reached the destination. -/
def Progress.result : Except (List (List Value)) Progress → List (List Value)
  | .ok x => x.out
  | .error out => out

namespace Output

variable {o : Output} {c : Counters} {d : Destination} {sink : Sink σ d} {p : Plan}
  {rows : List (List Value × List Value)} {t : Sorting} {useSorter : Bool} {x : Distinct}

/-- The rows that reach the window, given each row that came after its keys. -/
def deliver (o : Output) (descending : List Bool) (rows : List (List Value × List Value)) :
    List (List Value) :=
  let admitted := o.distinct.admitted (·.2) [] rows
  match o.sorting with
  | none => admitted.map (·.2)
  | some t => o.distinct.fresh none (sorted t descending (admitted.map fun row => row.1 ++ row.2))

/-- Comparing records by their first fields is comparing the keys that stand there. -/
theorem orderKeys_append (directions : List Direction) {a b : List Value} (x y : List Value)
    (ha : a.length = directions.length) (hb : b.length = directions.length) :
    Sorter.orderKeys directions.length (directions.map fun d => decide (d = .desc)) (a ++ x)
      (b ++ y) = orderTuples directions a b := by
  induction directions generalizing a b with
  | nil => simp [Sorter.orderKeys, orderTuples]
  | cons direction directions ih =>
    obtain ⟨v, a, rfl⟩ := List.exists_cons_of_length_eq_add_one ha
    obtain ⟨w, b, rfl⟩ := List.exists_cons_of_length_eq_add_one hb
    have hrest := @ih a b (Nat.succ.inj ha) (Nat.succ.inj hb)
    cases hvw : v.order w <;>
      simp only [Sorter.orderKeys, Sorter.orderFields, orderTuples, List.length_cons, List.map_cons,
        List.cons_append, List.head?_cons, List.tail_cons, List.headD_cons, hrest, hvw, decide_eq_true_eq]

theorem sorted_eq_arrange (ht : t.keys = p.orderBy.map (·.1)) (hrows : ∀ row ∈ rows, row.1.length = p.orderBy.length) :
    sorted t p.descending (rows.map fun row => row.1 ++ row.2) = p.arrange rows := by
  have hcount : t.keys.length = p.orderBy.length := by simp [ht]
  have hkeys : ∀ a ∈ rows, ∀ b ∈ rows,
      (orderTuples (p.orderBy.map (·.2)) a.1 b.1 != .gt) =
        (Sorter.orderKeys p.orderBy.length p.descending (a.1 ++ a.2) (b.1 ++ b.2) != .gt) := by
    intro a ha b hb
    have hsame := orderKeys_append (p.orderBy.map (·.2)) a.2 b.2
      ((hrows a ha).trans (List.length_map _).symm) ((hrows b hb).trans (List.length_map _).symm)
    simp only [List.length_map, List.map_map] at hsame
    exact congrArg (· != .gt) hsame.symm
  have hmap := List.map_mergeSort
    (r := fun a b => orderTuples (p.orderBy.map (·.2)) a.1 b.1 != .gt)
    (s := fun a b => Sorter.orderKeys p.orderBy.length p.descending a b != .gt)
    (f := fun row : List Value × List Value => row.1 ++ row.2) hkeys
  simp only [sorted, sortRows, hcount, ← hmap, Plan.arrange, List.map_map]
  apply List.map_congr_left
  intro row hrow
  exact List.drop_left' (hrows row (List.mem_mergeSort.mp hrow))

theorem arrive_of_pass {keys columns : List Value} {x : Progress} (h : o.distinct.pass columns x.seen = none) :
    o.arrive keys columns x = .ok x := by
  simp only [arrive, h]

/-- Without a sorter the rows that are let in go through the window one by one. -/
theorem foldlM_arrive_unsorted (h : o.sorting = none) (rows : List (List Value × List Value)) (x : Progress) :
    Progress.result (rows.foldlM (fun x row => o.arrive row.1 row.2 x) x) =
      Window.passed (((o.distinct.admitted (·.2) x.seen rows).map (·.2)).foldlM Window.step (x.window, x.out)) := by
  induction rows generalizing x with
  | nil => rfl
  | cons row rows ih =>
    rw [List.foldlM_cons, Distinct.admitted]
    cases hpass : o.distinct.pass row.2 x.seen with
    | none =>
      rw [arrive_of_pass hpass]
      exact ih x
    | some seen =>
      simp only [List.map_cons, List.foldlM_cons]
      have hstep : o.arrive row.1 row.2 x = { x with seen }.pass row.2 := by
        simp [arrive, hpass, h]
      rw [hstep, Progress.pass]
      cases Window.step (x.window, x.out) row.2 with
      | error out => rfl
      | ok y => exact ih ⟨seen, x.pending, y.1, y.2⟩

/-- With a sorter the rows that are let in are put aside. -/
theorem foldlM_arrive_sorted (h : o.sorting.isSome = true)
    (rows : List (List Value × List Value)) (x : Progress) :
    ∃ seen, rows.foldlM (fun x row => o.arrive row.1 row.2 x) x = .ok { x with
      seen
      pending := x.pending ++
        (o.distinct.admitted (·.2) x.seen rows).map fun row => row.1 ++ row.2 } := by
  induction rows generalizing x with
  | nil => exact ⟨x.seen, by simp [Distinct.admitted, pure, Except.pure]⟩
  | cons row rows ih =>
    rw [List.foldlM_cons, Distinct.admitted]
    cases hpass : o.distinct.pass row.2 x.seen with
    | none =>
      rw [arrive_of_pass hpass]
      exact ih x
    | some seen =>
      have hstep : o.arrive row.1 row.2 x =
          .ok { x with seen, pending := x.pending ++ [row.1 ++ row.2] } := by
        simp only [arrive, hpass, h, if_true]
      rw [hstep]
      obtain ⟨seen', hrest⟩ := ih { x with seen, pending := x.pending ++ [row.1 ++ row.2] }
      refine ⟨seen', hrest.trans ?_⟩
      simp

/-! ## Preparing -/

/-- What is new in a builder once it is settled how duplicates are dropped. -/
def New (p : Plan) (useSorter : Bool) (b b' : Builder) : Distinct → Prop
  | .none => b' = b
  | .unordered k => k = b.cursors ∧ b'.cursors = b.cursors + 1 ∧ b'.pool = b.pool
  | .ordered first previous => useSorter = true ∧ first = b.pool.next ∧ previous = first + 1 ∧
      b'.pool.next = previous + p.width ∧ b'.cursors = b.cursors ∧
      ∀ r, first ≤ r → r < previous + p.width → b'.Holds r

theorem New.next_le (h : New p useSorter b b' x) : b.pool.next ≤ b'.pool.next := by
  have hwidth : 0 ≤ p.width := Int.natCast_nonneg _
  cases x with
  | none => exact Int.le_of_eq (by rw [h])
  | unordered k => exact Int.le_of_eq (by rw [h.2.2])
  | ordered first previous =>
    obtain ⟨-, hfirst, hprevious, hnext, -⟩ := h
    omega

/-- What is needed to drop duplicates is in place, and no row has come. -/
def Fresh (s : State) : Distinct → Prop
  | .none => True
  | .unordered k => s.cursors.get? k = some ⟨.transient (.index []), none⟩
  | .ordered first _ => s.number first = 1

/-- How it is settled that duplicates are dropped. They are next to each other where the leading terms of ORDER BY
are the columns. -/
structure Settles (p : Plan) (useSorter : Bool) (b b' : Builder) (x : Distinct) : Prop where
  grows : b.Grows b'
  new : New p useSorter b b' x
  keeps_all : p.distinct = false → x = .none
  drops : p.distinct = true →
    if useSorter && p.orderCoversProjection then ∃ first previous, x = .ordered first previous
    else ∃ k, x = .unordered k
  leads : ∀ {σ : Setting} (s : State), b'.Begins σ.final →
    σ.Leads (fun pc s' => pc = b'.address ∧ Quiet b.Holds (· < b.cursors) s s' ∧ Fresh s' x) b.address s

theorem prepareDistinct_settles (h : (prepareDistinct p useSorter).Gives b x b') (hb : b.Valid) :
    Settles p useSorter b b' x := by
  unfold prepareDistinct at h
  split at h
  · rename_i hall
    obtain ⟨rfl, rfl⟩ := gives_pure.mp h
    refine ⟨.refl hb, rfl, fun _ => rfl, fun hp => ?_, fun s _ => .here ⟨rfl, .refl s, trivial⟩⟩
    rw [hp] at hall
    cases hall
  · rename_i hdrops
    have hp : p.distinct ≠ false := fun hp => hdrops (by rw [hp]; rfl)
    split at h
    · rename_i huse
      simp only [gives_bind, gives_op, gives_pure] at h
      obtain ⟨first, b1, hfirst, _, b2, rfl, previous, b3, hprevious, rfl, rfl⟩ := h
      have htakes := takes_register hfirst hb
      have h2 := htakes.grows.emit (.plain .integer 1 first 0)
      have htakes' := takes_registers hprevious h2.valid
      have hnext := next_of_register hfirst
      have hsame : previous = b1.pool.next := by
        have hstart := registers_eq_next hprevious
        exact hstart
      have hwidth : 0 ≤ p.width := Int.natCast_nonneg _
      refine ⟨h2.trans htakes'.grows, ⟨(Bool.and_eq_true _ _ ▸ huse).1, register_eq_next hfirst, hsame.trans hnext,
        next_of_registers hprevious hwidth, htakes'.cursors.trans htakes.cursors, fun r hle hlt => ?_⟩,
        fun hall => (hp hall).elim, fun _ => (if_pos huse).symm ▸ ⟨first, previous, rfl⟩, fun s hend => ?_⟩
      · by_cases hr : r = first
        · exact htakes'.grows.holds _ (htakes.held hr)
        · exact htakes'.held ⟨by omega, hlt⟩
      · rw [← htakes.address, htakes'.address]
        refine .op (htakes'.grows.begins.trans hend) rfl rfl (.here ⟨rfl, ?_, number_set ..⟩)
        exact .set s _ fun q hq => ⟨hq.1, fun hqf => htakes.new hqf hq⟩
    · rename_i huse
      simp only [gives_bind, gives_newCursor, gives_opWith, gives_pure] at h
      obtain ⟨k, b1, ⟨rfl, rfl⟩, _, b2, rfl, rfl, rfl⟩ := h
      refine ⟨(Builder.Grows.refl hb).newCursor.emit _, ⟨rfl, rfl, rfl⟩, fun hall => (hp hall).elim,
        fun _ => (if_neg huse).symm ▸ ⟨_, rfl⟩, fun s hend => ?_⟩
      refine .op (b := b.newCursor.2) hend rfl rfl (.here ⟨rfl, ?_, Slots.get?_set_self ..⟩)
      exact .setCursor s _ fun k hk => Int.ne_of_lt hk

/-- A sorter has a new cursor and new registers, and is opened empty. -/
theorem prepareSorting_spec (h : (prepareSorting p).Gives b t b') (hb : b.Valid) :
    b.Grows b' ∧ t.cursor = b.cursors ∧ t.keys = p.orderBy.map (·.1) ∧ t.block = b.pool.next ∧
      t.record = t.block + t.keys.length + p.width ∧ (∀ r, t.block ≤ r → r ≤ t.record → b'.Holds r) ∧
      ∀ {σ : Setting} (s : State), b'.Begins σ.final → σ.Leads (fun pc s' => pc = b'.address ∧
        Quiet (fun _ => True) (· < b.cursors) s s' ∧ s'.Sorts t.cursor t.keys.length p.descending []) b.address s := by
  simp only [prepareSorting, gives_bind, gives_newCursor, gives_opWith, gives_pure] at h
  obtain ⟨k, b1, ⟨rfl, rfl⟩, _, b2, rfl, block, b3, hblock, record, b4, hrecord, rfl, rfl⟩ := h
  have h2 := (Builder.Grows.refl hb).newCursor.emit
    ⟨.sorterOpen, b.cursors, (p.orderBy.length : Int), 0, p.directions, 0⟩
  have htakes := takes_registers hblock h2.valid
  have htakes' := takes_register hrecord htakes.grows.valid
  have hwidth : 0 ≤ p.width := Int.natCast_nonneg _
  have hnext := next_of_registers hblock (by omega)
  have hlast := register_eq_next hrecord
  have hkeys : ((p.orderBy.map (·.1)).length : Int) = p.orderBy.length := by simp
  have hstart := registers_eq_next hblock
  refine ⟨(h2.trans htakes.grows).trans htakes'.grows, rfl, rfl, hstart, ?_, fun r hle hlt => ?_, fun s hend => ?_⟩
  · show record = block + ((p.orderBy.map (·.1)).length : Int) + p.width
    omega
  · have hle : block ≤ r := hle
    have hlt : r ≤ record := hlt
    by_cases hr : r = record
    · exact htakes'.held hr
    · exact htakes'.grows.holds _ (htakes.held ⟨hle, by omega⟩)
  · rw [htakes'.address, htakes.address]
    refine .op (b := b.newCursor.2) ((htakes.grows.trans htakes'.grows).begins.trans hend) rfl rfl
      (.here ⟨rfl, .setCursor s _ fun k hk => Int.ne_of_lt hk, ?_⟩)
    refine ⟨_, Slots.get?_set_self .., ?_, ?_, rfl⟩
    · simp [Sorter.empty]
    · simp only [Sorter.empty, Plan.directions, Plan.descending, String.toList_ofList, List.map_map]
      apply List.map_congr_left
      rintro ⟨e, direction⟩ -
      cases direction <;> rfl

/-- The registers and cursors of an output are new ones, apart from each other. -/
structure Prepared (p : Plan) (useSorter : Bool) (o : Output) (b b' : Builder) : Prop where
  grows : b.Grows b'
  width : o.width = p.width
  result : o.result = b.pool.next
  owns : ∀ r, o.Owns ⟨none, none⟩ r → b'.Holds r ∧ b.pool.next ≤ r
  ordered : ∀ {first previous}, o.distinct = .ordered first previous →
    o.result + o.width ≤ first ∧ first < previous
  sorting : ∀ {t}, o.sorting = some t → o.result + o.width ≤ t.block ∧
    t.block + t.keys.length + o.width ≤ t.record ∧
    ∀ {first previous}, o.distinct = .ordered first previous → previous + o.width ≤ t.block
  cursors : ∀ {t k}, o.sorting = some t → o.distinct = .unordered k → t.cursor ≠ k
  owns_cursor : ∀ k, o.OwnsCursor k → b.cursors ≤ k
  sorts : o.sorting.isSome = useSorter
  keys : ∀ {t}, o.sorting = some t → t.keys = p.orderBy.map (·.1)
  keeps_all : p.distinct = false → o.distinct = .none
  drops : p.distinct = true →
    if useSorter && p.orderCoversProjection then ∃ first previous, o.distinct = .ordered first previous
    else ∃ k, o.distinct = .unordered k

/-- How the preparation of an output goes. -/
theorem prepare_gives (h : (prepare p useSorter).Gives b o b') :
    ∃ b1 b2, (registers p.width).Gives b o.result b1 ∧
      (prepareDistinct p useSorter).Gives b1 o.distinct b2 ∧ o.width = p.width ∧
      match o.sorting with
      | none => useSorter = false ∧ b' = b2
      | some t => useSorter = true ∧ (prepareSorting p).Gives b2 t b' := by
  simp only [prepare, gives_bind] at h
  obtain ⟨result, b1, hresult, distinct, b2, hdistinct, hrest⟩ := h
  cases useSorter with
  | false =>
    obtain ⟨rfl, rfl⟩ := gives_pure.mp hrest
    exact ⟨b1, _, hresult, hdistinct, rfl, rfl, rfl⟩
  | true =>
    simp only [if_true, gives_bind, gives_pure] at hrest
    obtain ⟨t, b3, ht, rfl, rfl⟩ := hrest
    exact ⟨b1, b2, hresult, hdistinct, rfl, rfl, ht⟩

/-- Where duplicates are not dropped behind the sorter, the rows that were let in are sorted. -/
theorem Prepared.deliver_eq_arrange (h : Prepared p (!p.orderBy.isEmpty) o b b') (x : Distinct)
    (hx : ∀ first previous, x ≠ .ordered first previous) (hrows : ∀ row ∈ rows, row.1.length = p.orderBy.length) :
    { o with distinct := x }.deliver p.descending rows = p.arrange (x.admitted (·.2) [] rows) := by
  have hlet : ∀ row ∈ x.admitted (·.2) [] rows, row.1.length = p.orderBy.length :=
    fun row hrow => hrows row ((Distinct.admitted_sublist ..).subset hrow)
  simp only [deliver]
  cases ht : o.sorting with
  | none =>
    have hempty : p.orderBy = [] := by
      have hsorts := h.sorts
      rw [ht] at hsorts
      simpa using hsorts
    have hsame : ∀ rows : List (List Value × List Value),
        rows.mergeSort (fun a b => orderTuples [] a.1 b.1 != .gt) = rows :=
      fun rows => List.mergeSort_of_pairwise (List.pairwise_of_forall fun _ _ => rfl)
    simp only [Plan.arrange, hempty, List.map_nil, hsame]
  | some t =>
    dsimp only
    rw [Distinct.fresh_of_not_ordered hx, sorted_eq_arrange (h.keys ht) hlet]

theorem Prepared.deliver_eq (h : Prepared p (!p.orderBy.isEmpty) o b b') (hp : p.distinct = false)
    (hrows : ∀ row ∈ rows, row.1.length = p.orderBy.length) : o.deliver p.descending rows = p.arrange rows := by
  have hall := h.deliver_eq_arrange .none nofun hrows
  rwa [Distinct.admitted_of_not_unordered (d := .none) nofun, ← h.keeps_all hp] at hall

theorem prepare_spec (h : (prepare p useSorter).Gives b o b') (hb : b.Valid) : Prepared p useSorter o b b' := by
  obtain ⟨b1, b2, hresult, hdistinct, hwidth, hsorting⟩ := prepare_gives h
  have htakes := takes_registers hresult hb
  have hnonneg : 0 ≤ p.width := Int.natCast_nonneg _
  have hstart := registers_eq_next hresult
  have hnext := next_of_registers hresult hnonneg
  obtain ⟨h2, hspec, hkeeps, hdrops, -⟩ := prepareDistinct_settles hdistinct htakes.grows.valid
  -- What the sorter adds, if there is one.
  have h3 : b2.Grows b' ∧ ∀ t, o.sorting = some t → t.cursor = b2.cursors ∧
      t.keys = p.orderBy.map (·.1) ∧ t.block = b2.pool.next ∧
      t.record = t.block + t.keys.length + p.width ∧
      ∀ r, t.block ≤ r → r ≤ t.record → b'.Holds r := by
    cases ho : o.sorting with
    | none =>
      rw [ho] at hsorting
      obtain ⟨-, rfl⟩ := hsorting
      exact ⟨.refl h2.valid, nofun⟩
    | some t =>
      rw [ho] at hsorting
      obtain ⟨hgrows, hcursor, hkeys, hblock, hrecord, hheld, -⟩ := prepareSorting_spec hsorting.2 h2.valid
      refine ⟨hgrows, ?_⟩
      rintro t' ⟨⟩
      exact ⟨hcursor, hkeys, hblock, hrecord, hheld⟩
  obtain ⟨hgrows, hsorter⟩ := h3
  have hcursors1 := htakes.cursors
  have hsorts : o.sorting.isSome = useSorter := by
    cases ho : o.sorting with
    | none =>
      rw [ho] at hsorting
      exact hsorting.1.symm
    | some t =>
      rw [ho] at hsorting
      exact hsorting.1.symm
  refine ⟨(htakes.grows.trans h2).trans hgrows, hwidth, hstart, ?_, ?_, ?_, ?_, ?_, hsorts,
    fun ht => (hsorter _ ht).2.1, hkeeps, hdrops⟩
  · rintro r (hr | hr | hr | ⟨first, previous, ho, hr⟩ | ⟨t, ht, hr⟩)
    · exact ⟨hgrows.holds r (h2.holds r (htakes.held (hwidth ▸ hr))), by omega⟩
    · cases hr
    · cases hr
    · rw [ho] at hspec
      obtain ⟨huse, hfirst, hprevious, hnext2, -, hheld⟩ := hspec
      refine ⟨?_, by omega⟩
      by_cases hin : r < previous + p.width
      · exact hgrows.holds r (hheld r (by omega) hin)
      · -- No columns: the register copied to is the first one of the sorter.
        obtain ⟨t, ht⟩ := Option.isSome_iff_exists.mp (hsorts.trans huse)
        obtain ⟨-, -, hblock, hrecord, hheld'⟩ := hsorter t ht
        exact hheld' r (by omega) (by omega)
    · obtain ⟨-, -, hblock, hrecord, hheld⟩ := hsorter t ht
      have hle := hspec.next_le
      exact ⟨hheld r (by omega) (by omega), by omega⟩
  · intro first previous ho
    rw [ho] at hspec
    obtain ⟨-, hfirst, hprevious, -⟩ := hspec
    omega
  · intro t ht
    obtain ⟨-, -, hblock, hrecord, -⟩ := hsorter t ht
    have hle := hspec.next_le
    refine ⟨by omega, by omega, fun ho => ?_⟩
    rw [ho] at hspec
    obtain ⟨-, -, -, hnext2, -⟩ := hspec
    omega
  · intro t k ht ho
    rw [ho] at hspec
    obtain ⟨hk, hcursors2, -⟩ := hspec
    have hcursor := (hsorter t ht).1
    omega
  · rintro k (ho | ⟨t, ht, rfl⟩)
    · rw [ho] at hspec
      obtain ⟨hk, -⟩ := hspec
      omega
    · have hcursor := (hsorter t ht).1
      have hle := h2.cursors
      omega

theorem Prepared.counter_or_new (h : Prepared p useSorter o b b') {r : Int} (hr : o.Owns c r) :
    (c.limit = some r ∨ c.offset = some r) ∨ b'.Holds r ∧ b.pool.next ≤ r := by
  rcases hr with hr | hr | hr | hr | hr
  · exact .inr (h.owns r (.inl hr))
  · exact .inl (.inl hr)
  · exact .inl (.inr hr)
  · exact .inr (h.owns r (.inr (.inr (.inr (.inl hr)))))
  · exact .inr (h.owns r (.inr (.inr (.inr (.inr hr)))))

/-- An output that was prepared is laid out apart from its counters and its sink. -/
theorem Prepared.laid (h : Prepared p useSorter o b b') (hb : b.Valid) (hapart : c.Apart)
    (hcounters : ∀ r, c.limit = some r ∨ c.offset = some r → b.Holds r ∧ ¬ sink.registers r)
    (hsink : ∀ r, sink.registers r → b.Holds r) (hcursors : ∀ k, sink.cursors k → k < b.cursors) :
    o.Laid c sink b' := by
  refine ⟨?_, ?_, fun r hr => ?_, hapart, fun r hr => ?_, h.ordered, h.sorting, h.cursors,
    fun r hr => h.grows.holds r (hsink r hr), fun r hr howns => ?_, fun k hk howns => ?_⟩
  · rw [h.width]
    exact Int.natCast_nonneg _
  · rw [h.result]
    exact hb.next_pos
  · rcases h.counter_or_new hr with hr | hr
    · exact h.grows.holds r (hcounters r hr).1
    · exact hr.1
  · rw [h.result]
    exact (hcounters r hr).1.2.1
  · rcases h.counter_or_new howns with hr' | hr'
    · exact (hcounters r hr').2 hr
    · have hlt := (hsink r hr).2.1
      omega
  · have hle := h.owns_cursor k howns
    have hlt := hcursors k hk
    omega

/-- **An output is ready for its first row.** -/
theorem prepare_leads {w : Window} {out : List (List Value)} (h : (prepare p useSorter).Gives b o b') (hb : b.Valid)
    (hend : b'.Begins σ.final) (hcounters : ∀ r, c.limit = some r ∨ c.offset = some r → b.Holds r)
    (hsink : ∀ r, sink.registers r → b.Holds r) (hcursors : ∀ k, sink.cursors k → k < b.cursors) (hw : c.Counts s w)
    (hkeep : w.keep ≠ some 0) (hout : sink.Received out s) :
    σ.Leads (fun pc s' => pc = b'.address ∧ Quiet b.Holds (· < b.cursors) s s' ∧
      o.Carries c sink p.descending s' ⟨[], [], w, out⟩) b.address s := by
  obtain ⟨b1, b2, hresult, hdistinct, hwidth, hsorting⟩ := prepare_gives h
  have htakes := takes_registers hresult hb
  obtain ⟨h2, hspec, -, -, hleads⟩ := prepareDistinct_settles hdistinct htakes.grows.valid
  have hcursors1 := htakes.cursors
  have hcursors2 := h2.cursors
  have hgrows : b2.Grows b' := by
    cases ho : o.sorting with
    | none =>
      rw [ho] at hsorting
      obtain ⟨-, rfl⟩ := hsorting
      exact .refl h2.valid
    | some t =>
      rw [ho] at hsorting
      exact (prepareSorting_spec hsorting.2 h2.valid).1
  rw [← htakes.address]
  refine (hleads s (hgrows.begins.trans hend)).bind ?_
  rintro pc s1 ⟨rfl, hq1, hfresh⟩
  have hq1 : Quiet b.Holds (· < b.cursors) s s1 :=
    hq1.mono (fun r hr => htakes.grows.holds r hr) fun k hk => hcursors1.symm ▸ hk
  -- What follows depends on whether there is a sorter.
  have hlast : σ.Leads (fun pc s' => pc = b'.address ∧ Quiet (fun _ => True) (· < b2.cursors) s1 s' ∧
      ∀ {t}, o.sorting = some t → s'.Sorts t.cursor t.keys.length p.descending []) b2.address s1 := by
    cases ho : o.sorting with
    | none =>
      rw [ho] at hsorting
      obtain ⟨-, rfl⟩ := hsorting
      exact .here ⟨rfl, .refl s1, nofun⟩
    | some t =>
      rw [ho] at hsorting
      obtain ⟨-, -, -, -, -, -, hopens⟩ := prepareSorting_spec hsorting.2 h2.valid
      refine (hopens s1 hend).mono ?_
      rintro pc s' ⟨rfl, hq, hsorts⟩
      refine ⟨rfl, hq, ?_⟩
      rintro t' ⟨⟩
      exact hsorts
  refine hlast.mono ?_
  rintro pc s2 ⟨rfl, hq2, hsorts⟩
  have hq : Quiet b.Holds (· < b.cursors) s s2 :=
    hq1.trans (hq2.mono (fun _ _ => trivial) fun k hk => by omega)
  refine ⟨rfl, hq, ⟨?_, hkeep, ?_, fun ho => ?_, fun ho => ?_, hsorts⟩⟩
  · exact hw.congr (fun r hr => hq.get r (hcounters r (.inr hr)))
      fun r hr => hq.get r (hcounters r (.inl hr))
  · exact sink.stable hout (hq.mono hsink hcursors)
  · rw [ho] at hspec hfresh
    obtain ⟨rfl, hnext, -⟩ := hspec
    exact (hq2.cursors _ (by omega)).trans hfresh
  · rw [ho] at hfresh
    rw [State.number, hq2.get _ trivial]
    exact hfresh

/-! ## Closing -/

/-- The cursors of an output, in the order in which they are closed. -/
def ownCursors (o : Output) : List Int :=
  (match o.distinct with
    | .unordered k => [k]
    | _ => []) ++
  match o.sorting with
  | some t => [t.cursor]
  | none => []

theorem mem_ownCursors {k : Int} : k ∈ o.ownCursors ↔ o.OwnsCursor k := by
  unfold ownCursors OwnsCursor
  cases o.distinct <;> cases o.sorting <;> simp [eq_comm]

theorem emitCloseAll_eq (o : Output) : o.emitCloseAll = emitClose o.ownCursors := by
  obtain ⟨width, result, distinct, sorting⟩ := o
  cases distinct <;> cases sorting <;> rfl

end Output

end QueryMachine
