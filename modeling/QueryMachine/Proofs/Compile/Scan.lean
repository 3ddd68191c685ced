import QueryMachine.Proofs.Compile.Expression
import QueryMachine.Proofs.Query.Steps
import QueryMachine.Proofs.Tree

/-!
# Nested loops over trees

The loops of a scan run through the combinations of the entries of their trees, the first tree
outermost. The body is given as a fold step: what it makes of a result so far and a combination.

* `Tree.Lists` — the entries of a tree in the order in which a cursor meets them.
* `emitScan_leads` — a scan computes the fold of its body over the combinations.
-/

namespace QueryMachine

open Machine Emit

/-! ## Trees as lists of entries -/

/-- The rowid that a key of an index ends with. -/
def Keys.rowid (key : List Value) : Int64 := (key.getLast?.map Value.toInt64).getD 0

/-- At a position of a tree stands an entry. The fields of a key are those of its entry. -/
def Tree.Reads : Tree → Position → Entry → Prop
  | .table rows, .rowid id, e =>
    e.1 = id ∧ ∃ record, Rows.get? rows id = some record ∧
      e.2 = (Record.decode record).toOption.getD []
  | .index _, .key key, e => e = (Keys.rowid key, key)
  | _, _, _ => False

/-- The positions that a cursor meets from the first on, and the entries there. -/
structure Tree.Lists (t : Tree) (steps : List (Position × Entry)) : Prop where
  first : t.first? = steps.head?.map (·.1)
  after : ∀ before p rest, steps = before ++ p :: rest → t.after? p.1 = rest.head?.map (·.1)
  reads : ∀ p ∈ steps, t.Reads p.1 p.2

/-- The rows of a table with their places. -/
def Rows.walk (rows : List (Int64 × Bytes)) : List (Position × Entry) :=
  rows.map fun row => (.rowid row.1, (row.1, (Record.decode row.2).toOption.getD []))

theorem Rows.map_walk (rows : List (Int64 × Bytes)) : (walk rows).map (·.2) = entries rows := by
  simp [walk, entries, Function.comp_def]

/-- A cursor meets the rows of a table in the order of their rowids. -/
theorem Tree.lists_table {rows : List (Int64 × Bytes)} (h : Rows.Ascending rows) :
    (Tree.table rows).Lists (Rows.walk rows) where
  first := by simp [first?, Rows.walk, Function.comp_def]
  after before p rest heq := by
    obtain ⟨ahead, more, rfl, -, hmore⟩ := List.map_eq_append_iff.mp heq
    obtain ⟨row, behind, rfl, rfl, rfl⟩ := List.map_eq_cons_iff.mp hmore
    obtain ⟨-, hlater, hahead⟩ := List.pairwise_append.mp h
    obtain ⟨hbehind, -⟩ := List.pairwise_cons.mp hlater
    have hnone : (ahead ++ [row]).find? (fun r => decide (row.1 < r.1)) = none := by
      rw [List.find?_eq_none]
      intro r hr hlt
      rcases List.mem_append.mp hr with hr | hr
      · have := hahead r hr row List.mem_cons_self
        exact Int64.lt_irrefl (Int64.lt_trans (of_decide_eq_true hlt) this)
      · rw [List.mem_singleton.mp hr] at hlt
        exact Int64.lt_irrefl (of_decide_eq_true hlt)
    have hsome : behind.find? (fun r => decide (row.1 < r.1)) = behind.head? := by
      cases behind with
      | nil => rfl
      | cons r behind => simp [hbehind r List.mem_cons_self]
    have hsplit : ahead ++ row :: behind = (ahead ++ [row]) ++ behind := by simp
    simp only [after?, hsplit, List.find?_append, hnone, Option.none_or, hsome]
    simp [Function.comp_def]
  reads p hp := by
    obtain ⟨row, hrow, rfl⟩ := List.mem_map.mp hp
    exact ⟨rfl, row.2, (Rows.get?_eq_some h).mpr hrow, rfl⟩

namespace Machine

/-- The tree that a cursor moves over. -/
def Backing.tree? (store : Store) : Backing → Option Tree
  | .stored root => store.tree? root
  | .transient tree => some tree
  | .sorter _ => none

namespace State

/-- A cursor is open on a tree with the given entries. -/
def Walks (s : State) (c : Int) (steps : List (Position × Entry)) : Prop :=
  ∃ cursor tree, s.cursors.get? c = some cursor ∧ cursor.backing.tree? s.store = some tree ∧
    tree.Lists steps

/-- The entry under a cursor. Reading the rowid of an empty key is a fault, and so is reading the fields of
a record that cannot be decoded. -/
def StandsOn (s : State) (c : Int) (e : Entry) : Prop :=
  ((∀ pc, s.currentRowid pc c = .ok e.1) ∨ ∀ pc, s.currentRowid pc c = .error (.noCurrentRow c pc)) ∧
    ((∀ pc, s.currentRow pc c = .ok e.2) ∨ ∃ error, ∀ pc, s.currentRow pc c = .error (.rejected error))

variable {s : State} {c : Int} {cursor : Cursor} {tree : Tree}

theorem tree_eq (hc : s.cursors.get? c = some cursor) (ht : cursor.backing.tree? s.store = some tree) (pc : Nat)
    (opener : Opcode) : s.tree pc opener c = .ok tree := by
  unfold State.tree State.cursor
  rw [hc]
  cases hb : cursor.backing with
  | stored root =>
    rw [hb] at ht
    have ht : s.store.tree? root = some tree := ht
    simp only [hb, ht]
  | transient t =>
    rw [hb] at ht
    cases ht
    simp only [hb]
  | sorter t =>
    rw [hb] at ht
    cases ht

theorem standsOn_of_reads {backing : Backing} {p : Position} {e : Entry}
    (hc : s.cursors.get? c = some ⟨backing, some p⟩) (ht : backing.tree? s.store = some tree)
    (hr : tree.Reads p e) : s.StandsOn c e := by
  cases tree with
  | index keys =>
    cases p with
    | rowid id => exact hr.elim
    | key key =>
      obtain rfl := hr
      refine ⟨?_, .inl fun pc => ?_⟩
      · cases hlast : key.getLast? with
        | none => exact .inr fun pc => by simp only [currentRowid, cursor, hc, hlast]
        | some v =>
          refine .inl fun pc => ?_
          simp only [currentRowid, cursor, hc, hlast, Keys.rowid, Option.map_some, Option.getD_some]
      · have htree := tree_eq hc ht pc .openRead
        cases backing with
        | stored root => simp only [currentRow, cursor, hc, htree]
        | transient t => simp only [currentRow, cursor, hc, htree]
        | sorter t => cases ht
  | table rows =>
    cases p with
    | key k => exact hr.elim
    | rowid id =>
      obtain ⟨rfl, record, hget, hfields⟩ := hr
      have hrow : ∀ pc, s.currentRow pc c = Fault.lift (Record.decode record) := by
        intro pc
        have htree := tree_eq hc ht pc .openRead
        cases backing with
        | stored root => simp only [currentRow, cursor, hc, htree, hget]
        | transient t => simp only [currentRow, cursor, hc, htree, hget]
        | sorter t => cases ht
      refine ⟨.inl fun pc => by simp only [currentRowid, cursor, hc], ?_⟩
      cases hdecode : Record.decode record with
      | error error =>
        refine .inr ⟨error, fun pc => ?_⟩
        rw [hrow, hdecode]
        rfl
      | ok values =>
        refine .inl fun pc => ?_
        rw [hdecode] at hfields
        rw [hrow, hdecode, hfields]
        rfl

theorem setPosition_eq (hc : s.cursors.get? c = some cursor) (position : Option Position) :
    s.setPosition c position =
      { s with cursors := s.cursors.set c { cursor with position } } := by
  simp only [setPosition, hc]

theorem quiet_setPosition (s : State) (c : Int) (position : Option Position) :
    Quiet (fun _ => True) (· ≠ c) s (s.setPosition c position) := by
  unfold setPosition
  split
  · exact .setCursor s _ fun d hd => hd
  · exact .refl s

variable {walk : List (Position × Entry)}

theorem Walks.congr {s' : State} (h : s.Walks c walk) (hstore : s'.store = s.store)
    (hcursor : s'.cursors.get? c = s.cursors.get? c) : s'.Walks c walk := by
  obtain ⟨cursor, tree, hc, ht, hlists⟩ := h
  exact ⟨cursor, tree, hcursor.trans hc, hstore ▸ ht, hlists⟩

theorem Walks.setPosition (h : s.Walks c walk) (k : Int) (position : Option Position) :
    (s.setPosition k position).Walks c walk := by
  by_cases hk : c = k
  · subst hk
    obtain ⟨cursor, tree, hc, ht, hlists⟩ := h
    rw [setPosition_eq hc]
    exact ⟨{ cursor with position }, tree, Slots.get?_set_self .., ht, hlists⟩
  · have hq := quiet_setPosition s k position
    exact h.congr hq.store (hq.cursors c hk)

end State

end Machine

variable {σ : Setting} {b b' : Builder} {s : State} {walk : List (Position × Entry)} {sources : List Source}
  {walks : List (List (Position × Entry))} {c : Int} {a : Nat} {exit : Label} {β γ : Type}

/-! ## Opening and closing -/

/-- The source is a stored table with the given entries. -/
def Source.Stored (store : Store) (source : Source) (walk : List (Position × Entry)) : Prop :=
  ∃ root name tree, source.table = some (root, name) ∧ store.tree? root = some tree ∧
    tree.Lists walk

/-- The source has the given entries: the tree at its root, if there is one, or else the tree under its
cursor, which is open already. -/
def Source.Ready (s : State) (source : Source) (walk : List (Position × Entry)) : Prop :=
  match source.table with
  | some (root, _) => ∀ tree, s.store.tree? root = some tree → tree.Lists walk
  | none => s.Walks source.cursor walk

theorem Source.Stored.ready {s : State} {source : Source} (h : source.Stored s.store walk) : source.Ready s walk := by
  obtain ⟨root, name, tree, htable, htree, hlists⟩ := h
  rw [Source.Ready, htable]
  intro tree' htree'
  rw [htree] at htree'
  cases htree'
  exact hlists

/-- Every stored source has its cursor open, and at no entry. -/
def Parked (s : State) (sources : List Source) : Prop :=
  ∀ source ∈ sources, source.table.isSome →
    ∃ backing, s.cursors.get? source.cursor = some ⟨backing, none⟩

theorem Source.Ready.congr {s s' : State} {source : Source} (h : source.Ready s walk) (hstore : s'.store = s.store)
    (hcursor : s'.cursors.get? source.cursor = s.cursors.get? source.cursor) : source.Ready s' walk := by
  unfold Source.Ready at h ⊢
  split at h
  · rwa [hstore]
  · exact h.congr hstore hcursor

/-- Every stored source is opened, and stands at no entry. -/
theorem emitOpenSources_leads [σ.Lenient] (h : (emitOpenSources sources).Gives b () b') (hb : b.Valid)
    (hend : b'.Begins σ.final) (hnodup : (sources.map (·.cursor)).Nodup)
    (hready : List.Forall₂ (Source.Ready s) sources walks) : σ.Leads (fun pc s' => pc = b'.address ∧
      Quiet (fun _ => True) (fun k => k ∉ sources.map (·.cursor)) s s' ∧ Parked s' sources ∧
      List.Forall₂ (fun source walk => s'.Walks source.cursor walk) sources walks) b.address s := by
  induction sources generalizing b s walks with
  | nil =>
    cases hready
    obtain ⟨-, rfl⟩ := gives_pure.mp h
    exact .here ⟨rfl, .refl s, fun _ hin => (List.not_mem_nil hin).elim, .nil⟩
  | cons source rest ih =>
    obtain ⟨walk, walks, hsource, hrest, rfl⟩ := List.forall₂_cons_left_iff.mp hready
    obtain ⟨hnot, hnodup⟩ := List.nodup_cons.mp hnodup
    unfold emitOpenSources at h
    cases htable : source.table with
    | none =>
      rw [htable] at h
      refine (ih h hb hnodup hrest).mono ?_
      rintro pc s' ⟨rfl, hq, hparked, hwalks⟩
      rw [Source.Ready, htable] at hsource
      refine ⟨rfl, hq.mono (fun _ h => h) fun k hk hin => hk (List.mem_cons_of_mem _ hin), ?_, ?_⟩
      · intro t ht hsome
        rcases List.mem_cons.mp ht with rfl | ht
        · rw [htable] at hsome
          cases hsome
        · exact hparked t ht hsome
      · exact .cons (hsource.congr hq.store (hq.cursors _ hnot)) hwalks
    | some table =>
      obtain ⟨root, name⟩ := table
      simp only [htable, gives_bind, gives_opWith] at h
      obtain ⟨_, b1, rfl, hmore⟩ := h
      rw [Source.Ready, htable] at hsource
      have h1 := (Builder.Grows.refl hb).emit ⟨.openRead, source.cursor, root, 0, .table name, 0⟩
      have hend1 := (hmore.grows h1.valid).begins.trans hend
      cases htree : s.store.tree? root with
      | none =>
        refine .failed hend1 (f := .noSuchRoot root) ?_ (σ.admits _ rfl)
        simp only [execute, openTree, rootOf_plain, htree]
      | some tree =>
        refine .op hend1 rfl (t := s.openCursor source.cursor (.stored root)) ?_ ?_
        · simp only [execute, openTree, rootOf_plain, htree]
        have hopened : Quiet (fun _ => True) (· ≠ source.cursor) s
            (s.openCursor source.cursor (.stored root)) := .setCursor s _ fun d hd => hd
        have hrest' : List.Forall₂ (Source.Ready (s.openCursor source.cursor (.stored root))) rest walks := by
          refine List.forall₂_iff_get.mpr ⟨hrest.length_eq, fun i hi hi' => ?_⟩
          refine (List.forall₂_iff_get.mp hrest |>.2 i hi hi').congr rfl (hopened.cursors _ ?_)
          exact fun heq => hnot (List.mem_map.mpr ⟨_, List.get_mem .., heq⟩)
        refine (ih hmore h1.valid hnodup hrest').mono ?_
        rintro pc s' ⟨rfl, hq, hparked, hwalks⟩
        have hcursor : s'.cursors.get? source.cursor = some ⟨.stored root, none⟩ :=
          (hq.cursors _ hnot).trans (Slots.get?_set_self ..)
        refine ⟨rfl, ?_, ?_, .cons ?_ hwalks⟩
        · refine .trans (hopened.mono (fun _ h => h) fun k hk hkc => ?_)
            (hq.mono (fun _ h => h) fun k hk hin => hk (List.mem_cons_of_mem _ hin))
          exact hk (hkc ▸ List.mem_cons_self)
        · intro t ht hsome
          rcases List.mem_cons.mp ht with rfl | ht
          · exact ⟨.stored root, hcursor⟩
          · exact hparked t ht hsome
        · refine ⟨_, tree, hcursor, ?_, hsource tree htree⟩
          show s'.store.tree? root = some tree
          rw [hq.store]
          exact htree

theorem close_leads (hend : (b.emit (.plain .close c 0 0)).Begins σ.final) :
    σ.Leads (fun pc s' => pc = (b.emit (.plain .close c 0 0)).address ∧
      Quiet (fun _ => True) (· ≠ c) s s') b.address s := by
  refine .op hend rfl rfl (.here ⟨rfl, ⟨⟨rfl, fun _ _ => rfl, fun _ _ => rfl, fun _ _ => rfl,
    fun k hk => ?_⟩, rfl⟩⟩)
  exact Slots.get?_erase_of_ne _ hk

theorem emitClose_leads {cursors : List Int} (h : (emitClose cursors).Gives b () b') (hb : b.Valid)
    (hend : b'.Begins σ.final) : σ.Leads (fun pc s' => pc = b'.address ∧ Quiet (fun _ => True) (· ∉ cursors) s s')
      b.address s := by
  induction cursors generalizing b s with
  | nil =>
    obtain ⟨-, rfl⟩ := gives_pure.mp h
    exact .here ⟨rfl, .refl s⟩
  | cons c rest ih =>
    simp only [emitClose, gives_bind, gives_op] at h
    obtain ⟨_, b1, rfl, hrest⟩ := h
    have h1 := (Builder.Grows.refl hb).emit (.plain .close c 0 0)
    refine (close_leads ((hrest.grows h1.valid).begins.trans hend)).bind ?_
    rintro pc s1 ⟨rfl, hq1⟩
    refine (ih hrest h1.valid).mono ?_
    rintro pc s' ⟨rfl, hq⟩
    refine ⟨rfl, .trans (hq1.mono (fun _ h => h) fun k hk hkc => ?_)
      (hq.mono (fun _ h => h) fun k hk hin => hk (List.mem_cons_of_mem _ hin))⟩
    exact hk (hkc ▸ List.mem_cons_self)

/-! ## Reading the entries under the cursors -/

theorem Machine.State.StandsOn.reads [σ.Lenient] {e : Entry} {p : Place} (h : s.StandsOn p.cursor e) :
    s.Shows p (e.read p) ∨ s.Hides σ.Admits p := by
  obtain ⟨hid, hrow⟩ := h
  cases p with
  | rowid c =>
    rcases hid with hid | hid
    · exact .inl ⟨e.1, hid, rfl⟩
    · exact .inr fun pc => ⟨_, σ.admits _ rfl, hid pc⟩
  | field c index =>
    rcases hrow with hrow | ⟨error, hrow⟩
    · exact .inl ⟨e.2, hrow, (fieldAt_natCast e.2 index).symm⟩
    · exact .inr fun pc => ⟨_, σ.admits_rejected error, hrow pc⟩

/-- What the cursors of the sources show is what is read from the combination they stand on. -/
theorem reads_of_standsOn [σ.Lenient] {combination : List Entry}
    (h : List.Forall₂ (fun source e => s.StandsOn source.cursor e) sources combination) {p : Place}
    (hp : p.cursor ∈ sources.map (·.cursor)) :
    s.Shows p (readFrom (sources.map (·.cursor)) combination p) ∨ s.Hides σ.Admits p := by
  induction h with
  | nil => exact (List.not_mem_nil hp).elim
  | cons hon _ ih =>
    rename_i source e rest entries _
    by_cases hsame : p.cursor = source.cursor
    · have hread : readFrom ((source :: rest).map (·.cursor)) (e :: entries) p = e.read p := by
        simp [readFrom, hsame]
      rw [hread]
      exact (hsame ▸ hon : s.StandsOn p.cursor e).reads
    · have hread : readFrom ((source :: rest).map (·.cursor)) (e :: entries) p =
          readFrom (rest.map (·.cursor)) entries p := by
        have hne : (p.cursor == source.cursor) = false := by simpa using hsame
        simp only [readFrom, List.map_cons, List.zip_cons_cons, List.lookup_cons, hne]
      rw [hread]
      refine ih ?_
      rcases List.mem_cons.mp hp with hp | hp
      · exact absurd hp hsame
      · exact hp

/-! ## How loops end -/

/-- A piece of work ends: with a result that satisfies `Inv` at one of the places in `At`, or early
and finally, with `Final`, at `done`. -/
def Ends {β γ : Type} (Inv : β → State → Prop) (Final : γ → State → Prop) (At : Nat → Prop)
    (done : Nat) (r : Except γ β) (pc : Nat) (s : State) : Prop :=
  match r with
  | .ok x => Inv x s ∧ At pc
  | .error g => Final g s ∧ pc = done

/-! ## The code of a scan -/

theorem Parked.setCursor {cursor : Cursor} (h : Parked s sources) (hc : c ∉ sources.map (·.cursor)) :
    Parked { s with cursors := s.cursors.set c cursor } sources := by
  intro source hin hsome
  obtain ⟨backing, hb⟩ := h source hin hsome
  refine ⟨backing, ?_⟩
  have hne : source.cursor ≠ c := by
    rintro rfl
    exact hc (List.mem_map_of_mem hin)
  exact (Slots.get?_set_of_ne _ _ hne).trans hb

/-- Going to the first entry, or out of the loop if there is none. -/
theorem rewind_leads (hend : (b.emitJump .rewind c 0 exit .empty 0).Begins σ.final) (hl : exit < b.labels.size)
    (hat : σ.At exit a) (hw : s.Walks c walk) : σ.Leads (fun pc s' => s' = s.setPosition c (walk.head?.map (·.1)) ∧
      pc = if walk.isEmpty then a else b.address + 1) b.address s := by
  obtain ⟨cursor, tree, hc, ht, hlists⟩ := hw
  have htree := State.tree_eq hc ht b.address .openRead
  cases walk with
  | nil =>
    refine .taken hend hl hat rfl (t := s.setPosition c none) ?_ (.here ⟨rfl, rfl⟩)
    simp only [execute, moveToEnd, htree, hlists.first, List.head?_nil, Option.map_none,
      Option.isNone_none, jumpIf, if_true]
  | cons p rest =>
    refine .passed hend hl hat rfl (t := s.setPosition c (some p.1)) ?_ (.here ⟨rfl, ?_⟩)
    · simp only [execute, moveToEnd, htree, hlists.first, List.head?_cons, Option.map_some,
        Option.isNone_some, jumpIf]
      rfl
    · exact Builder.address_emitJump ..

/-- Going to the next entry at the end of a loop, or out of it if there is none. -/
theorem next_leads {head : Label} {before rest : List (Position × Entry)} {p : Position × Entry} {backing : Backing}
    (hend : (b.emitJump .next c 0 head .empty 0).Begins σ.final) (hl : head < b.labels.size) (hat : σ.At head a)
    (hw : s.Walks c (before ++ p :: rest)) (hc : s.cursors.get? c = some ⟨backing, some p.1⟩) :
    σ.Leads (fun pc s' => s' = s.setPosition c (rest.head?.map (·.1)) ∧
      pc = if rest.isEmpty then b.address + 1 else a) b.address s := by
  obtain ⟨cursor, tree, hc', ht, hlists⟩ := hw
  rw [hc] at hc'
  cases hc'
  have htree := State.tree_eq hc ht b.address .openRead
  have hafter := hlists.after before p rest rfl
  cases rest with
  | nil =>
    refine .passed hend hl hat rfl (t := s.setPosition c none) ?_ (.here ⟨rfl, ?_⟩)
    · simp only [execute, moveOn, htree, State.cursor, hc, Option.bind_some, hafter,
        List.head?_nil, Option.map_none, Option.isSome_none, jumpIf]
      rfl
    · exact Builder.address_emitJump ..
  | cons q rest =>
    refine .taken hend hl hat rfl (t := s.setPosition c (some q.1)) ?_ (.here ⟨rfl, rfl⟩)
    simp only [execute, moveOn, htree, State.cursor, hc, Option.bind_some, hafter,
      List.head?_cons, Option.map_some, Option.isSome_some, jumpIf, if_true]

theorem foldlM_combinations {α : Type} {step : β → List α → Except γ β} {rest : List (List α)} :
    ∀ (xs : List α) (acc : β), (combinations (xs :: rest)).foldlM step acc =
      xs.foldlM (fun acc x => (combinations rest).foldlM (fun acc c => step acc (x :: c)) acc) acc
  | [], _ => rfl
  | x :: xs, acc => by
    show ((combinations rest).map (x :: ·) ++ combinations (xs :: rest)).foldlM step acc = _
    rw [List.foldlM_append, List.foldlM_map, List.foldlM_cons]
    congr 1
    funext acc'
    exact foldlM_combinations xs acc'

/-- **A scan computes the fold of its body over the combinations of entries.** The invariant does
not depend on where the scanned cursors stand, and the body leaves them where they are. -/
theorem emitScan_leads {body : Label → Emit Unit} {done : Nat} {Final : γ → State → Prop}
    [∀ K skip, Obeys .lax K (body skip)] {step : β → List Entry → Except γ β} {Inv : β → State → Prop}
    (h : (emitScan sources exit body).Gives b () b') (hb : b.Valid) (hend : b'.Begins σ.final)
    (hl : exit < b.labels.size) (hat : σ.At exit a) (hnodup : (sources.map (·.cursor)).Nodup)
    (hopen : ∀ x s, Inv x s → List.Forall₂ (fun source walk => s.Walks source.cursor walk) sources walks)
    (hmove : ∀ x s c position, Inv x s → c ∈ sources.map (·.cursor) → Inv x (s.setPosition c position))
    (hbody : ∀ {skip b1 b2 a1}, (body skip).Gives b1 () b2 → b.Grows b1 → b2.Begins σ.final →
      skip < b1.labels.size → σ.At skip a1 → ∀ x s combination, Inv x s →
      List.Forall₂ (fun source e => s.StandsOn source.cursor e) sources combination →
      σ.Leads (Ends (fun x' s' => Inv x' s' ∧
          ∀ source ∈ sources, s'.cursors.get? source.cursor = s.cursors.get? source.cursor) Final
        (fun pc => pc = b2.address ∨ pc = a1) done (step x combination)) b1.address s)
    {x : β} (hinv : Inv x s) (hparked : Parked s sources) :
    σ.Leads (Ends (fun x' s' => Inv x' s' ∧ Parked s' sources) Final
      (fun pc => pc = b'.address ∨ pc = a) done
      ((combinations (walks.map (·.map (·.2)))).foldlM step x)) b.address s := by
  induction sources generalizing walks step Inv exit a b b' s x with
  | nil =>
    cases hopen x s hinv
    refine (hbody h (.refl hb) hend hl hat x s [] hinv .nil).mono fun pc s' hends => ?_
    have hfold : (combinations (([] : List (List (Position × Entry))).map (·.map (·.2)))).foldlM
        step x = step x [] := by
      show (step x [] >>= pure) = step x []
      exact bind_pure _
    rw [hfold]
    cases hr : step x [] with
    | error g =>
      rw [hr] at hends
      exact hends
    | ok x' =>
      rw [hr] at hends
      exact ⟨⟨hends.1.1, fun _ hin => (List.not_mem_nil hin).elim⟩, hends.2⟩
  | cons source rest ih =>
    obtain ⟨walk, walks, -, -, rfl⟩ := List.forall₂_cons_left_iff.mp (hopen x s hinv)
    simp only [emitScan, gives_bind, gives_newLabel, gives_jump, gives_labelHere,
      gives_bindHere] at h
    obtain ⟨next, b1, ⟨rfl, rfl⟩, _, b2, rfl, head, b3, ⟨rfl, rfl⟩, _, b4, hinner, _, b5, rfl,
      rfl⟩ := h
    -- The stages of the builder, from the label of the next round to the end of the loop.
    have h1 := (Builder.Grows.refl hb).newLabel
    have h2 := h1.emitJump .rewind source.cursor 0 exit .empty 0
    have h3 := h2.newLabel.bindHere h2.labels_le
    have h34 := hinner.grows h3.valid
    have h13 := ((Builder.Grows.refl h1.valid).emitJump .rewind source.cursor 0 exit .empty
      0).newLabel.bindHere (Nat.le_refl _)
    have h14 := h13.trans h34
    have hnext : b.labels.size < b4.labels.size :=
      Nat.lt_of_lt_of_le (Builder.lt_newLabel b) h14.labels_le
    have hend5 := (Builder.Begins.emitJump ..).trans hend
    have hend4 := (Builder.Begins.bindHere (h14.unbound (Builder.lt_newLabel b)
      (Builder.target?_newLabel b))).trans hend5
    have hend3 := h34.begins.trans hend4
    have hend2 := ((Builder.Begins.newLabel _).trans
      (Builder.Begins.bindHere (Builder.target?_newLabel _))).trans hend3
    have hatNext := Setting.at_of_bindHere hend5 hnext
    have hatHead := Setting.at_of_bindHere hend3 (Builder.lt_newLabel _)
    have hl1 : exit < b.newLabel.2.labels.size := Nat.lt_trans hl (Builder.lt_newLabel b)
    have hc : source.cursor ∉ rest.map (·.cursor) := (List.nodup_cons.mp hnodup).1
    have hrest : Parked s rest := fun t ht => hparked t (List.mem_cons_of_mem _ ht)
    -- Moving the cursor of this loop keeps the invariant and the inner cursors.
    have hmoved : ∀ x s position, Inv x s → Parked s rest → Inv x (s.setPosition source.cursor
        position) ∧ Parked (s.setPosition source.cursor position) rest ∧
        ∃ backing, (s.setPosition source.cursor position).cursors.get? source.cursor =
          some ⟨backing, position⟩ := by
      intro x s position hinv hrest
      refine ⟨hmove x s _ position hinv List.mem_cons_self, ?_⟩
      obtain ⟨walk', walks', ⟨cursor, tree, hcur, -⟩, -, -⟩ :=
        List.forall₂_cons_left_iff.mp (hopen x s hinv)
      rw [State.setPosition_eq hcur]
      exact ⟨hrest.setCursor hc, cursor.backing, Slots.get?_set_self ..⟩
    have hwalk : ∀ x s, Inv x s → s.Walks source.cursor walk := fun x s hinv =>
      (List.forall₂_cons.mp (hopen x s hinv)).1
    refine (rewind_leads hend2 hl1 hat (hwalk x s hinv)).bind ?_
    rintro pc s1 ⟨rfl, hpc⟩
    obtain ⟨hinv1, hrest1, backing, hcur1⟩ := hmoved x s (walk.head?.map (·.1)) hinv hrest
    cases walk with
    | nil =>
      refine .here ⟨⟨hinv1, ?_⟩, .inr hpc⟩
      intro t ht hsome
      rcases List.mem_cons.mp ht with rfl | ht
      · exact ⟨backing, hcur1⟩
      · exact hrest1 t ht hsome
    | cons p tail =>
      have hfold : (combinations (((p :: tail) :: walks).map (·.map (·.2)))).foldlM step x =
          (p :: tail).foldlM (fun x q => (combinations (walks.map (·.map (·.2)))).foldlM
            (fun x c => step x (q.2 :: c)) x) x := by
        rw [List.map_cons, foldlM_combinations, List.foldlM_map]
      have hhead : pc = (Builder.emitJump .rewind source.cursor 0 exit .empty 0
          b.newLabel.2).address := hpc.trans (Builder.address_emitJump ..).symm
      rw [hfold, hhead]
      -- At the head of a round the cursor stands on the first of the entries still to come.
      refine Setting.Leads.foldlM (I := fun remaining x s => Inv x s ∧ Parked s rest ∧
        ∃ (q : Position × Entry) (before more : List (Position × Entry)) (backing : Backing),
          remaining = q :: more ∧ p :: tail = before ++ q :: more ∧
          s.cursors.get? source.cursor = some ⟨backing, some q.1⟩) ?_
        ⟨hinv1, hrest1, p, [], tail, backing, rfl, rfl, hcur1⟩
      rintro q more y s ⟨hinv, hrest, q', before, more', backing, heq, hsplit, hcur⟩
      cases heq
      have hround : σ.Leads (Ends (fun x s => (Inv x s ∧
            s.cursors.get? source.cursor = some ⟨backing, some q.1⟩) ∧ Parked s rest) Final
          (fun pc => pc = b4.address ∨ pc = b4.address) done
          ((combinations (walks.map (·.map (·.2)))).foldlM (fun x c => step x (q.2 :: c)) y))
          (Builder.emitJump .rewind source.cursor 0 exit .empty 0 b.newLabel.2).address s := by
        refine ih hinner h3.valid hend4 ?_ hatNext (List.nodup_cons.mp hnodup).2 ?_ ?_ ?_
          ⟨hinv, hcur⟩ hrest
        · exact Nat.lt_of_lt_of_le (Builder.lt_newLabel b) h13.labels_le
        · exact fun x s h => (List.forall₂_cons.mp (hopen x s h.1)).2
        · rintro x s c position ⟨hinv, hcur⟩ hin
          refine ⟨hmove x s c position hinv (List.mem_cons_of_mem _ hin), ?_⟩
          have hne : source.cursor ≠ c := fun hsame => hc (hsame ▸ hin)
          unfold State.setPosition
          split
          · exact (Slots.get?_set_of_ne _ _ hne).trans hcur
          · exact hcur
        · intro skip b1 b2 a1 hb1 hg hend' hl' hat' x s combination hI hstands
          have hw := hwalk x s hI.1
          have hon : s.StandsOn source.cursor q.2 := by
            obtain ⟨cursor, tree, hcur', htree, hlists⟩ := hw
            rw [hI.2] at hcur'
            cases hcur'
            refine State.standsOn_of_reads hI.2 htree (hlists.reads q ?_)
            rw [hsplit]
            exact List.mem_append_right _ List.mem_cons_self
          refine (hbody hb1 (h3.trans hg) hend' hl' hat' x s (q.2 :: combination) hI.1
            (.cons hon hstands)).mono fun pc s' hends => ?_
          revert hends
          cases step x (q.2 :: combination) with
          | error g => exact id
          | ok x' =>
            rintro ⟨⟨hinv', hsame⟩, hpc⟩
            refine ⟨⟨⟨hinv', ?_⟩, fun t ht => hsame t (List.mem_cons_of_mem _ ht)⟩, hpc⟩
            rw [hsame source List.mem_cons_self]
            exact hI.2
      refine hround.bind fun pc s' hends => ?_
      revert hends
      cases (combinations (walks.map (·.map (·.2)))).foldlM (fun x c => step x (q.2 :: c)) y with
      | error g => exact fun hends => .here hends
      | ok x' =>
        rintro ⟨⟨⟨hinv', hcur'⟩, hrest'⟩, hpc⟩
        have hpc : pc = (b4.bindHere b.labels.size).address := by
          rcases hpc with hpc | hpc <;> exact hpc
        have hlHead : (Builder.emitJump .rewind source.cursor 0 exit .empty 0
            b.newLabel.2).labels.size < (b4.bindHere b.labels.size).labels.size := by
          have hle := h34.labels_le
          rw [Builder.labels_size_bindHere] at hle ⊢
          exact Nat.lt_of_lt_of_le (Builder.lt_newLabel _) hle
        have hw := hwalk x' s' hinv'
        rw [hsplit] at hw
        rw [hpc]
        refine (next_leads hend hlHead hatHead hw hcur').mono ?_
        rintro pc s'' ⟨rfl, hpc⟩
        obtain ⟨hinv2, hrest2, backing', hcur2⟩ := hmoved x' s' (more.head?.map (·.1)) hinv' hrest'
        cases more with
        | nil =>
          refine ⟨⟨hinv2, ?_⟩, .inl (hpc.trans (Builder.address_emitJump ..).symm)⟩
          intro t ht hsome
          rcases List.mem_cons.mp ht with rfl | ht
          · exact ⟨backing', hcur2⟩
          · exact hrest2 t ht hsome
        | cons r more =>
          refine ⟨hpc, hinv2, hrest2, r, before ++ [q], more, backing', rfl, ?_, hcur2⟩
          rw [hsplit, List.append_assoc]
          rfl

/-! ## Scans with a filter -/

/-- **A scan with a filter computes the fold over the combinations that the filter lets pass.** The
invariant does not depend on registers that are not held. -/
theorem emitFilteredScan_leads [σ.Lenient] {inner : Label → Emit Unit} {done : Nat} {Final : γ → State → Prop}
    {filter : Option Resolved} [∀ K skip, Obeys .lax K (inner skip)] {step : β → List Entry → Except γ β}
    {Inv : β → State → Prop}
    (h : (emitScan sources exit fun skip => do emitFilter [] skip filter; inner skip).Gives b () b') (hb : b.Valid)
    (hend : b'.Begins σ.final) (hl : exit < b.labels.size) (hat : σ.At exit a)
    (hnodup : (sources.map (·.cursor)).Nodup)
    (hplaces : ∀ e, filter = some e → ∀ p ∈ e.places, p.cursor ∈ sources.map (·.cursor))
    (hopen : ∀ x s, Inv x s → List.Forall₂ (fun source walk => s.Walks source.cursor walk) sources walks)
    (hmove : ∀ x s c position, Inv x s → c ∈ sources.map (·.cursor) → Inv x (s.setPosition c position))
    (hquiet : ∀ x s s', Inv x s → Quiet b.Holds (fun _ => True) s s' → Inv x s')
    (hinner : ∀ {skip b1 b2 a1}, (inner skip).Gives b1 () b2 → b.Grows b1 → b2.Begins σ.final →
      skip < b1.labels.size → σ.At skip a1 → ∀ x s combination, Inv x s →
      (∀ p : Place, p.cursor ∈ sources.map (·.cursor) →
        s.Shows p (readFrom (sources.map (·.cursor)) combination p) ∨ s.Hides σ.Admits p) →
      σ.Leads (Ends (fun x' s' => Inv x' s' ∧
          ∀ source ∈ sources, s'.cursors.get? source.cursor = s.cursors.get? source.cursor) Final
        (fun pc => pc = b2.address ∨ pc = a1) done (step x combination)) b1.address s)
    {x : β} (hinv : Inv x s) (hparked : Parked s sources) :
    σ.Leads (Ends (fun x' s' => Inv x' s' ∧ Parked s' sources) Final
      (fun pc => pc = b'.address ∨ pc = a) done
      (((combinations (walks.map (·.map (·.2)))).filter fun combination =>
        Expr.holds (readFrom (sources.map (·.cursor)) combination) filter).foldlM step x))
      b.address s := by
  rw [List.foldlM_filter]
  refine emitScan_leads h hb hend hl hat hnodup hopen hmove ?_ hinv hparked
  intro skip b1 b2 a1 hbody hg hend2 hl1 hat1 x s combination hx hstands
  obtain ⟨_, b1', hfilter, hrest⟩ := gives_bind.mp hbody
  have h1 := hfilter.grows hg.valid
  have hreads : ∀ p : Place, p.cursor ∈ sources.map (·.cursor) →
      s.Shows p (readFrom (sources.map (·.cursor)) combination p) ∨ s.Hides σ.Admits p :=
    fun p hp => reads_of_standsOn hstands hp
  refine (emitFilter_leads_of_reads hfilter hg.valid ((hrest.grows h1.valid).begins.trans hend2) hl1
    hat1 fun e he p hp => hreads p (hplaces e he p hp)).bind ?_
  rintro pc s1 ⟨hq, hcase⟩
  have hx1 := hquiet x s s1 hx (hq.mono hg.holds fun _ h => h)
  by_cases hholds : Expr.holds (readFrom (sources.map (·.cursor)) combination) filter = true
  · rw [if_pos hholds] at hcase ⊢
    rw [hcase]
    refine (hinner hrest (hg.trans h1) hend2 (Nat.lt_of_lt_of_le hl1 h1.labels_le) hat1 x s1
      combination hx1 fun p hp => ?_).mono ?_
    · exact (hreads p hp).imp (hq.toFrame.shows trivial) (hq.toFrame.hides trivial)
    · intro pc s2 hends
      revert hends
      cases step x combination with
      | error g => exact id
      | ok x' =>
        rintro ⟨⟨hx', hsame⟩, hpc⟩
        exact ⟨⟨hx', fun source hin => (hsame source hin).trans (hq.cursors _ trivial)⟩, hpc⟩
  · rw [if_neg hholds] at hcase ⊢
    exact .here ⟨⟨hx1, fun _ _ => hq.cursors _ trivial⟩, .inr hcase⟩

end QueryMachine
