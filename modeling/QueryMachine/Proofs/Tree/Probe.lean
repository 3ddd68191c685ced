import QueryMachine.Proofs.Tree.Keys

/-!
# Probing an index for leading fields

A probe looks at one key only, the first that is not before the given fields. As the keys stand in the
order of rows, all keys that begin with the fields stand together, and that key is the first of them.

* `Keys.Ordered` — the keys of an index, each before the next.
* `Keys.FirstFrom` — the first key that is not before given fields.
* `Tree.probe_decides` — the probe, the first key and the search through all keys agree.
-/

namespace QueryMachine

open Std Value

namespace Keys

variable {keys : List (List Value)} {lead k : List Value}

/-- Every key is before all keys behind it. -/
def Ordered (keys : List (List Value)) : Prop := keys.Pairwise fun a b => orderRows a b = .lt

instance (keys : List (List Value)) : Decidable (Ordered keys) :=
  inferInstanceAs (Decidable (keys.Pairwise _))

instance (keys : List (List Value)) : Decidable (Comparable keys) :=
  inferInstanceAs (Decidable (∀ k ∈ keys, Value.Comparable k))

theorem Ordered.ascending (h : Ordered keys) (hc : Comparable keys) : Ascending keys := by
  refine List.Pairwise.imp_of_mem ?_ h
  intro a b ha hb hlt
  rw [← orderRows_eq_gradeRows (hc a ha) (hc b hb)]
  exact hlt

/-- `k` is a key that is not before the fields, and no such key is before `k`. -/
structure FirstFrom (keys : List (List Value)) (lead k : List Value) : Prop where
  mem : k ∈ keys
  notBefore : orderRows k lead ≠ .lt
  least : ∀ other ∈ keys, orderRows other lead ≠ .lt → orderRows other k ≠ .lt

/-- Searching from the front finds the first key that is not before the fields. -/
theorem find?_eq_some_iff (h : Ordered keys) (hc : Comparable keys) :
    (keys.find? fun k => orderRows k lead != .lt) = some k ↔ FirstFrom keys lead k := by
  constructor
  · intro hfind
    obtain ⟨hk, before, behind, rfl, hbefore⟩ := List.find?_eq_some_iff_append.mp hfind
    refine ⟨by simp, by simpa using hk, ?_⟩
    intro other hother hnot hlt
    rcases List.mem_append.mp hother with hin | hin
    · have := hbefore other hin
      simp_all
    · rcases List.mem_cons.mp hin with rfl | hin
      · rw [orderRows_self] at hlt
        cases hlt
      · -- What stands behind `k` is after it.
        have hafter : orderRows k other = .lt :=
          (List.pairwise_cons.mp (List.pairwise_append.mp h).2.1).1 other hin
        rw [orderRows_eq_gradeRows (hc _ (by simp)) (hc _ (by simp [hin]))] at hafter
        rw [orderRows_eq_gradeRows (hc _ (by simp [hin])) (hc _ (by simp)),
          @OrientedCmp.eq_swap _ gradeRows, hafter] at hlt
        cases hlt
  · intro hfirst
    have hsome : (keys.find? fun k => orderRows k lead != .lt).isSome :=
      List.find?_isSome.mpr ⟨k, hfirst.mem, by simpa using hfirst.notBefore⟩
    obtain ⟨found, hfound⟩ := Option.isSome_iff_exists.mp hsome
    rw [hfound]
    obtain ⟨hnot, before, behind, rfl, hbefore⟩ := List.find?_eq_some_iff_append.mp hfound
    rcases List.mem_append.mp hfirst.mem with hin | hin
    · have := hbefore k hin
      have := hfirst.notBefore
      simp_all
    · rcases List.mem_cons.mp hin with rfl | hin
      · rfl
      · have hlt : orderRows found k = .lt :=
          (List.pairwise_cons.mp (List.pairwise_append.mp h).2.1).1 k hin
        exact absurd hlt (hfirst.least found (by simp) (by simpa using hnot))

end Keys

namespace Tree

/-- **A probe decides what a search through all keys decides**: some key begins with the fields exactly
where the probe says so, and then the first key that is not before the fields does. -/
theorem probe_decides {keys : List (List Value)} {lead : List Value} (h : Keys.Ordered keys)
    (hkeys : Keys.Comparable keys) (hlead : Value.Comparable lead) :
    ((index keys).hasKeyWith lead = true ↔ ∃ k ∈ keys, startsWith k lead = true) ∧
      ((index keys).hasKeyWith lead = true ↔ ∃ k, Keys.FirstFrom keys lead k ∧ startsWith k lead = true) := by
  refine ⟨hasKeyWith_iff (h.ascending hkeys) hkeys hlead, ?_⟩
  simp only [← Keys.find?_eq_some_iff h hkeys, hasKeyWith]
  cases keys.find? fun k => orderRows k lead != .lt <;> simp

/-- The keys of an index on two fields next to shorter and longer ones. -/
def severalWidths : List (List Value) :=
  [[], [.int 7], [.int 7, .int 100], [.int 9, .int 101, .null], [.text "7", .int 2]]

/-- The real 7.0 equals the first field of the second key, which the probe looks at. -/
theorem probe_decides_real :
    (Keys.Ordered severalWidths ∧ Keys.Comparable severalWidths ∧
      Value.Comparable [.real ⟨0x401C000000000000⟩]) ∧
      ∃ k ∈ severalWidths, startsWith k [.real ⟨0x401C000000000000⟩] = true := by
  have hordered : Keys.Ordered severalWidths := by decide +kernel
  have hkeys : Keys.Comparable severalWidths := by decide +kernel
  have hlead : Value.Comparable [.real ⟨0x401C000000000000⟩] := by decide +kernel
  refine ⟨⟨hordered, hkeys, hlead⟩, ?_⟩
  exact (probe_decides hordered hkeys hlead).1.mp (by decide +kernel)

end Tree

end QueryMachine
