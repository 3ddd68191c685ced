import QueryMachine.Proofs.Compile.Setting
import QueryMachine.Proofs.Tree

/-!
# What the check of foreign keys finds out

A check that passes has read every row of every child table. What it found stays true while tables only
lose rows.

* `Store.Unreferenced` — no row of a child table refers to a rowid.
* `Machine.unreferenced_of_checkKeys`, `Machine.checkKeys_violation` — the two ends of a check.
* `Store.Shrinks` — tables lose rows and gain none.
-/

namespace QueryMachine

/-- The child table of a foreign key is there, and none of its rows refers to a rowid. -/
def Store.Unreferenced (st : Store) (schema : Schema) (key : ForeignKey) (id : Int64) : Prop :=
  ∃ child index rows, Machine.childColumn schema key = .ok (child, index) ∧
    st.tree? child.root = some (.table rows) ∧
    ∀ row ∈ rows, ∃ v, Machine.columnValue child index row = .ok v ∧ v.equal (.int id) = false

/-- Tables lose rows and gain none. -/
def Store.Shrinks (st st' : Store) : Prop :=
  ∀ root rows, st.tree? root = some (.table rows) →
    ∃ rows', st'.tree? root = some (.table rows') ∧ rows' ⊆ rows

namespace Store.Shrinks

variable {st st1 st' : Store}

theorem refl (st : Store) : st.Shrinks st := fun _ rows h => ⟨rows, h, List.Subset.refl rows⟩

theorem trans (h : st.Shrinks st1) (h' : st1.Shrinks st') : st.Shrinks st' := by
  intro root rows hrows
  obtain ⟨rows1, hrows1, hsub1⟩ := h root rows hrows
  obtain ⟨rows', hrows', hsub'⟩ := h' root rows1 hrows1
  exact ⟨rows', hrows', List.Subset.trans hsub' hsub1⟩

theorem setTree {root : Int} {rows rows' : List (Int64 × Bytes)} (h : st.tree? root = some (.table rows))
    (hsub : rows' ⊆ rows) : st.Shrinks (st.setTree root (.table rows')) := by
  intro other more hmore
  by_cases hsame : other = root
  · subst hsame
    cases h.symm.trans hmore
    exact ⟨rows', Store.tree?_setTree_self .., hsub⟩
  · exact ⟨more, (Store.tree?_setTree_of_ne hsame).trans hmore, List.Subset.refl more⟩

theorem unreferenced {schema : Schema} {key : ForeignKey} {id : Int64} (h : st.Shrinks st')
    (hfree : st.Unreferenced schema key id) : st'.Unreferenced schema key id := by
  obtain ⟨child, index, rows, hchild, hrows, hnone⟩ := hfree
  obtain ⟨rows', hrows', hsub⟩ := h _ rows hrows
  exact ⟨child, index, rows', hchild, hrows', fun row hrow => hnone row (hsub hrow)⟩

end Store.Shrinks

namespace Machine

variable {schema : Schema} {store : Store} {parent : String} {id : Int64}

theorem forall_of_anyRefers {table : Table} {index : Nat} {rows : List (Int64 × Bytes)}
    (h : anyRefers table index id rows = .ok false) :
    ∀ row ∈ rows, ∃ v, columnValue table index row = .ok v ∧ v.equal (.int id) = false := by
  induction rows with
  | nil => exact nofun
  | cons row rows ih =>
    unfold anyRefers at h
    split at h
    · cases h
    · rename_i v hv
      split at h
      · cases h
      · rename_i hother
        intro row' hrow'
        rcases List.mem_cons.mp hrow' with rfl | hrow'
        · exact ⟨v, hv, Bool.eq_false_iff.mpr hother⟩
        · exact ih h row' hrow'

theorem unreferenced_of_checkKey {key : ForeignKey} (h : checkKey schema store parent id key = .ok ()) :
    store.Unreferenced schema key id := by
  unfold checkKey at h
  split at h
  · cases h
  · rename_i child index hchild
    split at h
    · rename_i rows hrows
      split at h
      · cases h
      · cases h
      · rename_i hnone
        exact ⟨child, index, rows, hchild, hrows, forall_of_anyRefers hnone⟩
    · cases h

/-- Where a check passes, no row refers to the rowid. -/
theorem unreferenced_of_checkKeys {keys : List ForeignKey} (h : checkKeys schema store parent id keys = .ok ()) :
    ∀ key ∈ keys, store.Unreferenced schema key id := by
  induction keys with
  | nil => exact nofun
  | cons key keys ih =>
    unfold checkKeys at h
    split at h
    · cases h
    · rename_i hkey
      intro key' hkey'
      rcases List.mem_cons.mp hkey' with rfl | hkey'
      · exact unreferenced_of_checkKey hkey
      · exact ih h key' hkey'

/-- A foreign key that stands against a deletion does so for the row that is checked. -/
theorem checkKeys_violation {keys : List ForeignKey} {f : Fault}
    (h : checkKeys schema store parent id keys = .error f) (hf : f.isViolation = true) :
    ∃ child, f = .foreignKeyViolation parent child id := by
  induction keys with
  | nil => cases h
  | cons key keys ih =>
    unfold checkKeys at h
    split at h
    · rename_i hkey
      cases h
      unfold checkKey at hkey
      split at hkey
      · cases hkey
        cases hf
      · split at hkey
        · split at hkey
          · cases hkey
            cases hf
          · cases hkey
            exact ⟨key.child, rfl⟩
          · cases hkey
        · cases hkey
          cases hf
    · exact ih h

end Machine

end QueryMachine
