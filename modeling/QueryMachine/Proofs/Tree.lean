import QueryMachine.Proofs.Machine.Change
import QueryMachine.Proofs.Value

/-!
# Trees in order

The rows of a table stand in the order of their rowids, each rowid once, and no instruction changes
that.

* `Rows.Ascending` — rows in the order of their rowids.
* `Rows.mem_put`, `Rows.get?_eq_some` — what is stored, and what is found.
* `Store.Ascending.changes` — every run leaves tables in order.
-/

namespace QueryMachine

namespace Rows

variable {rows : List (Int64 × Bytes)} {row : Int64 × Bytes} {id : Int64} {record : Bytes}

/-- The rowids ascend. -/
def Ascending (rows : List (Int64 × Bytes)) : Prop := rows.Pairwise fun a b => a.1 < b.1

theorem Ascending.tail (h : Ascending (row :: rows)) : Ascending rows := (List.pairwise_cons.mp h).2

theorem Ascending.ne_of_mem (h : Ascending (row :: rows)) : ∀ other ∈ rows, other.1 ≠ row.1 :=
  fun other hin => Ne.symm (Int64.ne_of_lt ((List.pairwise_cons.mp h).1 other hin))

/-- Storing a record replaces the one under its rowid, and leaves the others. -/
theorem mem_put (h : Ascending rows) : row ∈ put id record rows ↔ row = (id, record) ∨ row ∈ rows ∧ row.1 ≠ id := by
  induction rows with
  | nil => simp [put]
  | cons first rows ih =>
    have hlater := (List.pairwise_cons.mp h).1
    unfold put
    split
    · rename_i hlt
      have hother : ∀ other ∈ first :: rows, other.1 ≠ id := by
        intro other hin
        rcases List.mem_cons.mp hin with rfl | hin
        · exact (Int64.ne_of_lt hlt).symm
        · exact (Int64.ne_of_lt (Int64.lt_trans hlt (hlater other hin))).symm
      rw [List.mem_cons]
      exact or_congr_right ⟨fun hin => ⟨hin, hother row hin⟩, And.left⟩
    · split
      · rename_i heq
        rw [List.mem_cons, List.mem_cons]
        refine or_congr_right ⟨fun hin => ⟨.inr hin, heq ▸ h.ne_of_mem row hin⟩, ?_⟩
        rintro ⟨rfl | hin, hne⟩
        · exact absurd heq.symm hne
        · exact hin
      · rename_i hne
        rw [List.mem_cons, ih h.tail, List.mem_cons]
        constructor
        · rintro (rfl | hrow | ⟨hin, hid⟩)
          · exact .inr ⟨.inl rfl, Ne.symm hne⟩
          · exact .inl hrow
          · exact .inr ⟨.inr hin, hid⟩
        · rintro (hrow | ⟨rfl | hin, hid⟩)
          · exact .inr (.inl hrow)
          · exact .inl rfl
          · exact .inr (.inr ⟨hin, hid⟩)

theorem mem_of_mem_put (h : row ∈ put id record rows) : row = (id, record) ∨ row ∈ rows := by
  fun_induction put id record rows <;> grind

theorem Ascending.put (h : Ascending rows) : Ascending (put id record rows) := by
  induction rows with
  | nil => exact List.pairwise_singleton ..
  | cons first rows ih =>
    have hlater := (List.pairwise_cons.mp h).1
    unfold Rows.put
    split
    · rename_i hlt
      refine List.pairwise_cons.mpr ⟨?_, h⟩
      intro other hin
      rcases List.mem_cons.mp hin with rfl | hin
      · exact hlt
      · exact Int64.lt_trans hlt (hlater other hin)
    · rename_i hnlt
      split
      · rename_i heq
        exact List.pairwise_cons.mpr ⟨fun other hin => heq ▸ hlater other hin, h.tail⟩
      · rename_i hne
        have hgt : first.1 < id := by
          rw [Int64.lt_iff_toInt_lt] at hnlt ⊢
          rw [← Int64.toInt_inj] at hne
          omega
        refine List.pairwise_cons.mpr ⟨?_, ih h.tail⟩
        intro other hin
        rcases (mem_put h.tail).mp hin with rfl | ⟨hin, -⟩
        · exact hgt
        · exact hlater other hin

theorem Ascending.nodup_rowids (h : Ascending rows) : (rows.map (·.1)).Nodup :=
  List.pairwise_map.mpr (h.imp fun hlt => Int64.ne_of_lt hlt)

theorem Ascending.erase (h : Ascending rows) : Ascending (erase id rows) := List.Pairwise.filter _ h

theorem mem_erase : row ∈ erase id rows ↔ row ∈ rows ∧ row.1 ≠ id := by
  simp [erase]

/-- Where the rowids ascend, the row under a rowid is found. -/
theorem get?_eq_some (h : Ascending rows) : get? rows id = some record ↔ (id, record) ∈ rows := by
  induction rows with
  | nil => simp [get?]
  | cons first rows ih =>
    obtain ⟨key, bytes⟩ := first
    simp only [get?] at ih ⊢
    by_cases heq : id = key
    · subst heq
      have hnot : (id, record) ∉ rows := fun hin => h.ne_of_mem _ hin rfl
      simp [hnot, eq_comm]
    · have hne : (id == key) = false := by simpa using heq
      rw [List.lookup_cons, hne, List.mem_cons]
      exact (ih h.tail).trans ⟨.inr, fun hin => hin.resolve_left fun hrow => heq (congrArg Prod.fst hrow)⟩

/-- A row that is deleted and stored again stands where it stood. -/
theorem put_erase {before rest : List (Int64 × Bytes)} {old : Bytes} (h : Ascending (before ++ (id, old) :: rest)) :
    put id record (erase id (before ++ (id, old) :: rest)) = before ++ (id, record) :: rest := by
  obtain ⟨-, hlater, hahead⟩ := List.pairwise_append.mp h
  have hbehind := (List.pairwise_cons.mp hlater).1
  have hgone : erase id (before ++ (id, old) :: rest) = before ++ rest := by
    have hbefore : erase id before = before := by
      refine List.filter_eq_self.mpr fun row hrow => ?_
      have hlt : row.1 < id := hahead row hrow _ List.mem_cons_self
      simpa using Int64.ne_of_lt hlt
    have hrest : erase id rest = rest := by
      refine List.filter_eq_self.mpr fun row hrow => ?_
      simpa using (Int64.ne_of_lt (hbehind row hrow)).symm
    unfold erase at hbefore hrest ⊢
    rw [List.filter_append, List.filter_cons_of_neg (by simp), hbefore, hrest]
  rw [hgone]
  have hput : put id record rest = (id, record) :: rest := by
    cases rest with
    | nil => rfl
    | cons row rest => exact if_pos (hbehind row List.mem_cons_self)
  clear hgone hlater h
  induction before with
  | nil => exact hput
  | cons row before ih =>
    have hlt : row.1 < id := hahead row List.mem_cons_self _ List.mem_cons_self
    have hnlt : ¬ id < row.1 := fun hgt => Int64.lt_irrefl (Int64.lt_trans hlt hgt)
    rw [List.cons_append, List.cons_append, put, if_neg hnlt, if_neg (Int64.ne_of_lt hlt).symm]
    exact congrArg (row :: ·) (ih fun other hin => hahead other (List.mem_cons_of_mem _ hin))

theorem put_of_forall_lt (h : ∀ row ∈ rows, row.1 < id) : put id record rows = rows ++ [(id, record)] := by
  induction rows with
  | nil => rfl
  | cons row rows ih =>
    have hlt := h row List.mem_cons_self
    have hnlt : ¬ id < row.1 := fun hgt => Int64.lt_irrefl (Int64.lt_trans hlt hgt)
    rw [put, if_neg hnlt, if_neg (Int64.ne_of_lt hlt).symm, List.cons_append]
    exact congrArg (row :: ·) (ih fun other hin => h other (List.mem_cons_of_mem _ hin))

end Rows

namespace Keys

variable {keys : List (List Value)} {key k : List Value}

/-- A key is added, where no other key equals it. -/
theorem mem_add (h : ∀ k ∈ keys, Value.orderRows key k = .eq → k = key) : k ∈ add key keys ↔ k = key ∨ k ∈ keys := by
  induction keys with
  | nil => simp [add]
  | cons first keys ih =>
    unfold add
    cases horder : Value.orderRows key first with
    | lt => exact List.mem_cons
    | eq =>
      have hsame := h first List.mem_cons_self horder
      rw [hsame]
      exact ⟨.inr, fun hin => hin.elim (fun heq => heq ▸ List.mem_cons_self) fun hin => hin⟩
    | gt =>
      simp only [List.mem_cons, ih fun k hk => h k (List.mem_cons_of_mem _ hk)]
      exact or_left_comm

theorem mem_of_mem_add (h : k ∈ add key keys) : k = key ∨ k ∈ keys := by
  fun_induction add key keys <;> grind

theorem mem_erase : k ∈ erase key keys ↔ k ∈ keys ∧ Value.orderRows k key ≠ .eq := by
  simp [erase]

end Keys

/-! ## Stores -/

namespace Store

variable {st st' : Store} {root : Int} {tree : Tree}

/-- The rows of the table at a root; there are none where the root holds no table. -/
def rows (st : Store) (root : Int) : List (Int64 × Bytes) :=
  match st.tree? root with
  | some (.table rows) => rows
  | _ => []

theorem rows_eq {rows : List (Int64 × Bytes)} (h : st.tree? root = some (.table rows)) : st.rows root = rows := by
  simp only [Store.rows, h]

theorem tree?_setTree_self (st : Store) (root : Int) (tree : Tree) :
    (st.setTree root tree).tree? root = some tree := Slots.get?_set_self ..

theorem tree?_setTree_of_ne {other : Int} (h : other ≠ root) :
    (st.setTree root tree).tree? other = st.tree? other := Slots.get?_set_of_ne _ _ h

theorem tree?_create_self (st : Store) (tree : Tree) :
    (st.create tree).2.tree? st.nextRoot = some tree := Slots.get?_set_self ..

theorem tree?_create_of_ne (h : root ≠ st.nextRoot) :
    (st.create tree).2.tree? root = st.tree? root := Slots.get?_set_of_ne _ _ h

/-- Nothing changed but the trees with the given roots. -/
structure OnlyAt (roots : List Int) (st st' : Store) : Prop where
  nextRoot : st'.nextRoot = st.nextRoot
  other : ∀ root, root ∉ roots → st'.tree? root = st.tree? root

theorem OnlyAt.refl (roots : List Int) (st : Store) : st.OnlyAt roots st :=
  ⟨rfl, fun _ _ => rfl⟩

theorem OnlyAt.trans {roots : List Int} {st'' : Store} (h : st.OnlyAt roots st')
    (k : st'.OnlyAt roots st'') : st.OnlyAt roots st'' :=
  ⟨k.nextRoot.trans h.nextRoot, fun root hroot => (k.other root hroot).trans (h.other root hroot)⟩

theorem OnlyAt.setTree {roots : List Int} {root : Int} (h : root ∈ roots) (st : Store)
    (tree : Tree) : st.OnlyAt roots (st.setTree root tree) :=
  ⟨rfl, fun _ hother => tree?_setTree_of_ne fun heq => hother (heq ▸ h)⟩

/-- Every table is in order. -/
def Ascending (st : Store) : Prop :=
  ∀ root rows, st.tree? root = some (.table rows) → Rows.Ascending rows

theorem Ascending.setTree (h : st.Ascending) (root : Int)
    (ht : ∀ rows, tree = .table rows → Rows.Ascending rows) : (st.setTree root tree).Ascending := by
  intro other rows hother
  by_cases hsame : other = root
  · rw [hsame, tree?_setTree_self] at hother
    exact ht rows (Option.some.inj hother)
  · rw [tree?_setTree_of_ne hsame] at hother
    exact h other rows hother

theorem Ascending.change (h : st.Ascending) (hc : st.Change st') : st'.Ascending := by
  cases hc with
  | same => exact h
  | put id record hroot =>
    refine h.setTree _ ?_
    rintro _ ⟨⟩
    exact (h _ _ hroot).put
  | erase id hroot =>
    refine h.setTree _ ?_
    rintro _ ⟨⟩
    exact (h _ _ hroot).erase
  | addKey key hroot => exact h.setTree _ nofun
  | eraseKey key hroot => exact h.setTree _ nofun
  | clear hroot =>
    rename_i tree
    refine h.setTree _ ?_
    intro rows hrows
    cases tree with
    | table old => cases hrows; exact .nil
    | index keys => cases hrows
  | create htree =>
    intro root rows hroot
    by_cases hnew : root = st.nextRoot
    · rw [hnew, tree?_create_self] at hroot
      rcases htree with rfl | rfl
      · cases hroot
        exact .nil
      · cases hroot
    · rw [tree?_create_of_ne hnew] at hroot
      exact h root rows hroot

/-- Whatever runs, tables stay in order. -/
theorem Ascending.changes (h : st.Ascending) (hc : st.Changes st') : st'.Ascending := by
  induction hc with
  | refl => exact h
  | tail _ hstep ih => exact ih.change hstep

end Store

end QueryMachine
