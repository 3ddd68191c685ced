import QueryMachine.Proofs.Compile.Scan
import QueryMachine.Proofs.Outline.Expression

/-!
# Outlines of scans

What is known of a cursor is that it is open on a tree of some kind, and inside of a loop also that it
stands on an entry of that tree. A scan needs nothing more of its cursors, and gives its body cursors
that stand on entries.

* `Use.on`, `Use.row` — a cursor is open on a tree, and stands on an entry.
* `Contract.Outlines.rewind`, `Contract.Outlines.next` — the ends of a loop.
* `emitScan_outlines` — nested loops around a body.
-/

namespace QueryMachine

open Machine Emit

variable {κ : Contract} {O : Outline} {b b' : Builder} {F F' G : Facts} {c : Int} {l : Label}

/-! ## Trees under cursors -/

/-- There is an entry at the position. -/
def Tree.Has : Tree → Position → Prop
  | .table rows, .rowid id => (Rows.get? rows id).isSome
  | .index keys, .key key => key ∈ keys
  | _, _ => False

theorem Rows.get?_isSome_of_mem {rows : List (Int64 × Bytes)} {row : Int64 × Bytes} (h : row ∈ rows) :
    (get? rows row.1).isSome := by
  induction rows with
  | nil => cases h
  | cons first rows ih =>
    rw [get?, List.lookup_cons]
    split
    · rfl
    · rename_i hne
      rcases List.mem_cons.mp h with rfl | h
      · rw [beq_self_eq_true] at hne
        cases hne
      · exact ih h

theorem Tree.has_first {tree : Tree} {p : Position} (h : tree.first? = some p) : tree.Has p := by
  cases tree with
  | table rows =>
    obtain ⟨row, hrow, rfl⟩ := Option.map_eq_some_iff.mp h
    exact Rows.get?_isSome_of_mem (List.mem_of_mem_head? hrow)
  | index keys =>
    obtain ⟨key, hkey, rfl⟩ := Option.map_eq_some_iff.mp h
    exact List.mem_of_mem_head? hkey

theorem Tree.has_after {tree : Tree} {p q : Position} (h : tree.after? p = some q) : tree.Has q := by
  cases tree with
  | table rows =>
    cases p with
    | rowid id =>
      obtain ⟨row, hrow, rfl⟩ := Option.map_eq_some_iff.mp h
      exact Rows.get?_isSome_of_mem (List.mem_of_find?_eq_some hrow)
    | key key => cases h
  | index keys =>
    cases p with
    | rowid id => cases h
    | key key =>
      obtain ⟨found, hfound, rfl⟩ := Option.map_eq_some_iff.mp h
      exact List.mem_of_find?_eq_some hfound

namespace Use

/-- Nothing is known of the cursor. -/
def any : Store → Option Cursor → Prop := fun _ _ => True

/-- The cursor is open on a tree with the given property. -/
def on (K : Backing → Tree → Prop) : Store → Option Cursor → Prop := fun st cursor =>
  ∃ backing position tree, cursor = some ⟨backing, position⟩ ∧ backing.tree? st = some tree ∧
    K backing tree

/-- The cursor stands on an entry of a tree with the given property. -/
def row (K : Backing → Tree → Prop) : Store → Option Cursor → Prop := fun st cursor =>
  ∃ backing position tree, cursor = some ⟨backing, some position⟩ ∧ backing.tree? st = some tree ∧
    K backing tree ∧ tree.Has position

theorem forget (use : Store → Option Cursor → Prop) (hany : F.cursor c = any) : (F.put c use).Entails F := by
  have hput : (F.put c use).Entails (F.put c any) := Facts.put_entails fun _ _ _ _ => trivial
  rwa [Facts.put_eq_self hany] at hput

theorem on_of_row {K : Backing → Tree → Prop} {st : Store} {cursor : Option Cursor}
    (h : row K st cursor) : on K st cursor := by
  obtain ⟨backing, position, tree, rfl, htree, hK, -⟩ := h
  exact ⟨backing, _, tree, rfl, htree, hK⟩

end Use

/-! ## What can be read -/

/-- The rows of the trees decode, or that they do not is a fault that is admitted. -/
def Contract.Decodes (κ : Contract) (K : Backing → Tree → Prop) : Prop :=
  ∀ backing rows, K backing (.table rows) → ∀ row ∈ rows, ∀ e, Record.decode row.2 = .error e →
    κ.Admits (.rejected e)

/-- The keys of the trees have a last field, or that they have none is a fault that is admitted. -/
def Contract.Numbers (κ : Contract) (K : Backing → Tree → Prop) : Prop :=
  ∀ backing keys, K backing (.index keys) → [] ∈ keys → ∀ c pc, κ.Admits (.noCurrentRow c pc)

theorem Rows.mem_of_get? {rows : List (Int64 × Bytes)} {id : Int64} {record : Bytes}
    (h : get? rows id = some record) : (id, record) ∈ rows := by
  obtain ⟨before, after, rfl, -⟩ := List.lookup_eq_some_iff.mp h
  exact List.mem_append_right _ List.mem_cons_self

/-- A cursor that stands on an entry can be read. -/
theorem reads_of_row {K : Backing → Tree → Prop} (hdecodes : κ.Decodes K) (hnumbers : κ.Numbers K)
    {p : Place} (hp : F.cursor p.cursor = Use.row K) : κ.Reads F p := by
  intro s hs
  obtain ⟨backing, position, tree, hc, htree, hK, hhas⟩ := hs.used hp
  have hat : ∀ pc, s.cursor pc p.cursor = .ok ⟨backing, some position⟩ := by
    intro pc
    simp only [State.cursor, hc]
  cases p with
  | field c index =>
    have htree' : ∀ pc, s.tree pc .openRead c = .ok tree := fun pc => State.tree_eq hc htree pc _
    change ∀ pc, s.cursor pc c = _ at hat
    cases tree with
    | table rows =>
      cases position with
      | key key => exact hhas.elim
      | rowid id =>
        obtain ⟨record, hrecord⟩ := Option.isSome_iff_exists.mp hhas
        have hrow : ∀ pc, s.currentRow pc c = Fault.lift (Record.decode record) := by
          intro pc
          cases backing with
          | sorter sorter => cases htree
          | stored root => simp only [State.currentRow, hat, htree', hrecord]
          | transient own => simp only [State.currentRow, hat, htree', hrecord]
        cases hdecode : Record.decode record with
        | ok values =>
          refine .inl ⟨fieldAt values index, values, fun pc => ?_, rfl⟩
          rw [hrow, hdecode]
          rfl
        | error e =>
          refine .inr fun pc => ⟨.rejected e, ?_, ?_⟩
          · exact hdecodes backing rows hK _ (Rows.mem_of_get? hrecord) e hdecode
          · rw [hrow, hdecode]
            rfl
    | index keys =>
      cases position with
      | rowid id => exact hhas.elim
      | key key =>
        refine .inl ⟨fieldAt key index, key, fun pc => ?_, rfl⟩
        cases backing with
        | sorter sorter => cases htree
        | stored root => simp only [State.currentRow, hat, htree']
        | transient own => simp only [State.currentRow, hat, htree']
  | rowid c =>
    change ∀ pc, s.cursor pc c = _ at hat
    cases position with
    | rowid id =>
      refine .inl ⟨.int id, id, fun pc => ?_, rfl⟩
      simp only [State.currentRowid, hat]
    | key key =>
      cases tree with
      | table rows => exact hhas.elim
      | index keys =>
        cases hlast : key.getLast? with
        | some v =>
          refine .inl ⟨.int v.toInt64, v.toInt64, fun pc => ?_, rfl⟩
          simp only [State.currentRowid, hat, hlast]
        | none =>
          rw [List.getLast?_eq_none_iff.mp hlast] at hhas
          refine .inr fun pc => ⟨_, hnumbers backing keys hK hhas c pc, ?_⟩
          simp only [State.currentRowid, hat, hlast]

/-- Every fault is admitted. -/
def Contract.Lax (κ : Contract) : Prop := ∀ f, κ.Admits f

theorem Contract.Lax.reads (h : κ.Lax) (F : Facts) (p : Place) : κ.Reads F p :=
  fun s _ => s.shows_or_hides h p

/-! ## Loops -/

namespace Contract.Outlines

variable {K : Backing → Tree → Prop}

/-- Going to the first entry, or out of the loop. -/
theorem rewind (ho : κ.Outlines O b F) (hc : F.cursor c = Use.on K) (hl : O.Marks b l G) (hG : F.Entails G) :
    κ.Reaches O b (b.emitJump .rewind c 0 l .empty 0) (F.put c (Use.row K)) := by
  refine ho.jump hl (ho.within.put c _) ho.keeps_here fun s hs t => ?_
  obtain ⟨backing, position, tree, hget, htree, hK⟩ := hs.used hc
  simp only [execute, moveToEnd, State.tree_eq hget htree, State.setPosition_eq hget, jumpIf]
  cases hfirst : tree.first? with
  | none =>
    refine ⟨rfl, hG _ (hs.sameCursor ?_)⟩
    rw [hc]
    exact ⟨backing, none, tree, rfl, htree, hK⟩
  | some p => exact hs.setCursor ⟨backing, p, tree, rfl, htree, hK, Tree.has_first hfirst⟩

/-- Going to the next entry at the end of a loop, or out of it. -/
theorem next (ho : κ.Outlines O b (F.put c (Use.row K))) (hc : F.cursor c = Use.on K)
    (hl : O.Marks b l (F.put c (Use.row K))) : κ.Reaches O b (b.emitJump .next c 0 l .empty 0) F := by
  refine ho.jump hl (fun r hr => ho.within r hr) (fun st hst => ho.keeps_here st hst) fun s hs t => ?_
  obtain ⟨backing, position, tree, hget, htree, hK, -⟩ := hs.used (Facts.put_cursor_self ..)
  have hat : s.cursor b.address c = .ok ⟨backing, some position⟩ := by simp only [State.cursor, hget]
  simp only [execute, moveOn, State.tree_eq hget htree, hat, State.setPosition_eq hget, jumpIf,
    Option.bind_some]
  cases hafter : tree.after? position with
  | none =>
    refine hs.resetCursor ?_
    rw [hc]
    exact ⟨backing, none, tree, rfl, htree, hK⟩
  | some p =>
    refine ⟨rfl, hs.sameCursor ?_⟩
    rw [Facts.put_cursor_self]
    exact ⟨backing, p, tree, rfl, htree, hK, Tree.has_after hafter⟩

end Contract.Outlines

/-! ## All sources -/

namespace Facts

/-- What is known of the cursors of the sources, replaced. -/
def each (F : Facts) (use : Source → Store → Option Cursor → Prop) (sources : List Source) : Facts :=
  sources.foldl (fun F source => F.put source.cursor (use source)) F

/-- All sources stand on entries. -/
def inside (F : Facts) (K : Source → Backing → Tree → Prop) (sources : List Source) : Facts :=
  F.each (fun source => Use.row (K source)) sources

variable {use : Source → Store → Option Cursor → Prop} {K : Source → Backing → Tree → Prop}
  {sources : List Source}

theorem each_register (F : Facts) : (F.each use sources).register = F.register := by
  induction sources generalizing F with
  | nil => rfl
  | cons source sources ih => exact ih _

theorem each_store (F : Facts) : (F.each use sources).store = F.store := by
  induction sources generalizing F with
  | nil => rfl
  | cons source sources ih => exact ih _

theorem each_cursor_of_not_mem (h : c ∉ sources.map (·.cursor)) : (F.each use sources).cursor c = F.cursor c := by
  induction sources generalizing F with
  | nil => rfl
  | cons source sources ih =>
    rw [List.map_cons, List.mem_cons, not_or] at h
    exact (ih h.2).trans (put_cursor_of_ne h.1 ..)

theorem each_cursor_of_mem (hnodup : (sources.map (·.cursor)).Nodup) {source : Source}
    (h : source ∈ sources) : (F.each use sources).cursor source.cursor = use source := by
  induction sources generalizing F with
  | nil => cases h
  | cons first sources ih =>
    rw [List.map_cons, List.nodup_cons] at hnodup
    rcases List.mem_cons.mp h with rfl | h
    · exact (each_cursor_of_not_mem hnodup.1).trans (put_cursor_self ..)
    · exact ih hnodup.2 h

theorem free_each {r : Int} : (F.each use sources).Free r ↔ F.Free r := by
  rw [Free, each_register, Free]

/-- What is known of the cursors of the sources may be weakened. -/
theorem each_entails (hnodup : (sources.map (·.cursor)).Nodup)
    (h : ∀ source ∈ sources, ∀ st cursor, use source st cursor → F.cursor source.cursor st cursor) :
    (F.each use sources).Entails F := by
  intro s hs
  have hstore := hs.store
  have hregister := hs.register
  rw [each_store] at hstore
  rw [each_register] at hregister
  refine ⟨hstore, fun c => ?_, hregister⟩
  have hcursor := hs.cursor c
  by_cases hc : c ∈ sources.map (·.cursor)
  · obtain ⟨source, hin, rfl⟩ := List.mem_map.mp hc
    rw [each_cursor_of_mem hnodup hin] at hcursor
    exact h source hin _ _ hcursor
  · rwa [each_cursor_of_not_mem hc] at hcursor

end Facts

/-- The stored tables among the sources are opened. -/
theorem emitOpenSources_outlines {K : Source → Backing → Tree → Prop} {sources : List Source} :
    (emitOpenSources sources).Gives b () b' → κ.Outlines O b F →
    (∀ source ∈ sources, source.table = none → F.cursor source.cursor = Use.on (K source)) →
    (∀ source ∈ sources, ∀ root name, source.table = some (root, name) → ∀ st, F.store st →
      (∀ tree, st.tree? root = some tree → K source (.stored root) tree) ∧
        (st.tree? root = none → κ.Admits (.noSuchRoot root))) → (sources.map (·.cursor)).Nodup →
    κ.Reaches O b b' (F.each (fun source => Use.on (K source)) sources) := by
  induction sources generalizing b b' O F with
  | nil => exact fun h ho _ _ _ => ho.pure h
  | cons source sources ih =>
    intro h ho hown hstored hnodup
    rw [List.map_cons, List.nodup_cons] at hnodup
    have hput : ∀ source' ∈ sources, (F.put source.cursor (Use.on (K source))).cursor source'.cursor =
        F.cursor source'.cursor := by
      intro source' hin
      have hne : source'.cursor ≠ source.cursor :=
        fun heq => hnodup.1 (heq ▸ List.mem_map_of_mem (f := (·.cursor)) hin)
      exact Facts.put_cursor_of_ne hne ..
    have hrest : ∀ {O1 b1}, (emitOpenSources sources).Gives b1 () b' →
        κ.Outlines O1 b1 (F.put source.cursor (Use.on (K source))) →
        κ.Reaches O1 b1 b' (F.each (fun source => Use.on (K source)) (source :: sources)) := by
      intro O1 b1 h1 ho1
      refine ih h1 ho1 (fun source' hin hnone => ?_) (fun source' hin => ?_) hnodup.2
      · rw [hput source' hin]
        exact hown source' (List.mem_cons_of_mem _ hin) hnone
      · exact hstored source' (List.mem_cons_of_mem _ hin)
    unfold emitOpenSources at h
    split at h
    · rename_i root name htable
      simp only [gives_bind, gives_opWith] at h
      obtain ⟨_, b1, rfl, hmore⟩ := h
      refine .bind (ho.op (ho.within.put source.cursor (Use.on (K source))) ho.keeps_here
        fun s hs => ?_) fun O1 _ ho1 => hrest hmore ho1
      obtain ⟨hK, hroot⟩ := hstored source List.mem_cons_self root name htable s.store hs.store
      simp only [execute, openTree, rootOf_plain]
      cases htree : s.store.tree? root with
      | none => exact hroot htree
      | some tree => exact hs.setCursor ⟨.stored root, none, tree, rfl, htree, hK tree htree⟩
    · rename_i htable
      have hself := Facts.put_eq_self (hown source List.mem_cons_self htable)
      exact hrest h (by rw [hself]; exact ho)

/-- **Nested loops around a body.** The body finds all cursors on entries, and may go to the label that
drops the row. -/
theorem emitScan_outlines {K : Source → Backing → Tree → Prop} {body : Label → Emit Unit} {sources : List Source}
    {exit : Label} : (emitScan sources exit body).Gives b () b' → κ.Outlines O b F → (sources.map (·.cursor)).Nodup →
    (∀ source ∈ sources, F.cursor source.cursor = Use.on (K source)) → O.Marks b exit G → F.Entails G →
    (∀ {O1 b1 b2 skip H}, (body skip).Gives b1 () b2 → O.Grows b O1 b1 →
      κ.Outlines O1 b1 (F.inside K sources) → O1.Marks b1 skip H → (F.inside K sources).Entails H →
      κ.Reaches O1 b1 b2 (F.inside K sources)) → κ.Reaches O b b' F := by
  induction sources generalizing b b' O F G exit with
  | nil =>
    intro h ho _ _ hexit hG hbody
    exact hbody h (.refl O b) ho hexit hG
  | cons source sources ih =>
    intro h ho hnodup hopen hexit hG hbody
    simp only [emitScan, gives_bind, gives_newLabel, gives_jump, gives_labelHere, gives_bindHere] at h
    obtain ⟨next, b1, ⟨rfl, rfl⟩, _, b2, rfl, head, b3, ⟨rfl, rfl⟩, _, b4, hscan, _, b5, rfl, rfl⟩ := h
    rw [List.map_cons, List.nodup_cons] at hnodup
    have hc := hopen source List.mem_cons_self
    obtain ⟨O1, g1, ho1, hnext⟩ := ho.newLabel (F.put source.cursor (Use.row (K source)))
    obtain ⟨O2, g2, ho2⟩ := ho1.rewind hc (g1.marks hexit) hG
    obtain ⟨O3, g3, ho3, hhead⟩ := ho2.labelHere
    have g13 := g2.trans g3
    have hopen' : ∀ source' ∈ sources, (F.put source.cursor (Use.row (K source))).cursor source'.cursor =
        Use.on (K source') := by
      intro source' hin
      have hne : source'.cursor ≠ source.cursor :=
        fun heq => hnodup.1 (heq ▸ List.mem_map_of_mem (f := (·.cursor)) hin)
      rw [Facts.put_cursor_of_ne hne]
      exact hopen source' (List.mem_cons_of_mem _ hin)
    obtain ⟨O4, g4, ho4⟩ := ih hscan ho3 hnodup.2 hopen' (g13.marks hnext) (.refl _)
      fun hbody' g ho' hskip hH => hbody hbody' ((g1.trans g13).trans g) ho' hskip hH
    obtain ⟨O5, g5, ho5⟩ := ho4.bindHere ((g13.trans g4).marks hnext) (.refl _) ho4.within
      ho4.keeps_here
    obtain ⟨O6, g6, ho6⟩ := ho5.next hc ((g4.trans g5).marks hhead)
    exact ⟨O6, ((((g1.trans g13).trans g4).trans g5).trans g6), ho6⟩

end QueryMachine
