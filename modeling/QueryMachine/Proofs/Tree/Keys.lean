import QueryMachine.Proofs.Tree
import QueryMachine.Proofs.Value.Order

/-!
# Keys without NaNs

An index whose keys are free of NaNs is a set: its keys ascend, adding a key puts it where it belongs unless
an equal one is there, and the probe for leading fields looks at one key only.

* `Keys.Ascending` — keys in strict order.
* `Tree.hasKeyWith_iff` — the probe finds a key with given leading fields exactly where there is one.
-/

namespace QueryMachine

open Std Value

namespace Value

variable {a b c lead : List Value}

/-- Whether two rows are equal as keys. -/
def equalRows (a b : List Value) : Bool := orderRows a b == .eq

theorem equalRows_iff (ha : Comparable a) (hb : Comparable b) : equalRows a b = true ↔ gradeRows a b = .eq := by
  rw [equalRows, orderRows_eq_gradeRows ha hb, beq_iff_eq]

theorem equalRows_self (a : List Value) : equalRows a a = true := by
  rw [equalRows, orderRows_self]
  rfl

theorem equalRows_comm (ha : Comparable a) (hb : Comparable b) : equalRows a b = equalRows b a := by
  rw [Bool.eq_iff_iff, equalRows_iff ha hb, equalRows_iff hb ha]
  exact OrientedCmp.eq_comm

/-! ## Leading fields -/

theorem startsWith_of_length : ∀ {a lead : List Value}, a.length = lead.length → startsWith a lead = equalRows a lead
  | [], [], _ => rfl
  | v :: a, w :: lead, h => by
    have ih := startsWith_of_length (Nat.succ.inj h)
    rw [startsWith, ih, equalRows, equalRows, orderRows]
    cases v.order w <;> rfl

theorem isLE_of_startsWith : ∀ {a lead : List Value}, Comparable a → Comparable lead →
    startsWith a lead = true → (gradeRows lead a).isLE = true
  | [], [], _, _, _ => rfl
  | _ :: _, [], _, _, _ => rfl
  | v :: a, w :: lead, ha, hlead, h => by
    obtain ⟨hv, ha⟩ := List.forall_mem_cons.mp ha
    obtain ⟨hw, hlead⟩ := List.forall_mem_cons.mp hlead
    rw [startsWith, order_eq_grade hv hw, Bool.and_eq_true, beq_iff_eq] at h
    rw [gradeRows, List.compareLex_cons_cons, OrientedCmp.eq_comm.mp h.1, Ordering.eq_then]
    exact isLE_of_startsWith ha hlead h.2

/-- What lies between the fields and a row that begins with them begins with them too. -/
theorem startsWith_of_between : ∀ {a k lead : List Value}, Comparable a → Comparable k → Comparable lead →
    startsWith a lead = true → (gradeRows lead k).isLE = true → (gradeRows k a).isLE = true → startsWith k lead = true
  | _, _, [], _, _, _, _, _, _ => by simp [startsWith]
  | _ :: _, [], _ :: _, _, _, _, _, hle, _ => by cases hle
  | v :: a, u :: k, w :: lead, ha, hk, hlead, h, hle, hle' => by
    obtain ⟨hv, ha⟩ := List.forall_mem_cons.mp ha
    obtain ⟨hu, hk⟩ := List.forall_mem_cons.mp hk
    obtain ⟨hw, hlead⟩ := List.forall_mem_cons.mp hlead
    rw [startsWith, order_eq_grade hv hw, Bool.and_eq_true, beq_iff_eq] at h
    rw [gradeRows, List.compareLex_cons_cons, Ordering.isLE_then_iff_or] at hle hle'
    rw [startsWith, order_eq_grade hu hw, Bool.and_eq_true, beq_iff_eq]
    rw [TransCmp.congr_right h.1] at hle'
    -- The first fields lie between equal ones, so they are equal.
    have hwu : grade w u = .eq := by
      have hswap : grade w u = (grade u w).swap := OrientedCmp.eq_swap
      rcases hle with hlt | ⟨heq, -⟩
      · rcases hle' with hlt' | ⟨heq', -⟩
        · rw [hswap, hlt'] at hlt
          cases hlt
        · rw [hswap, heq'] at hlt
          cases hlt
      · exact heq
    have huw := OrientedCmp.eq_comm.mp hwu
    rw [hwu] at hle
    rw [huw] at hle'
    simp only [reduceCtorEq, true_and, false_or] at hle hle'
    exact ⟨huw, startsWith_of_between ha hk hlead h.2 hle hle'⟩

end Value

/-! ## Keys in order -/

namespace Keys

variable {keys : List (List Value)} {key k lead : List Value}

/-- The keys ascend, and no two are equal. -/
def Ascending (keys : List (List Value)) : Prop := keys.Pairwise fun a b => gradeRows a b = .lt

/-- The keys are without NaNs. -/
def Comparable (keys : List (List Value)) : Prop := ∀ k ∈ keys, Value.Comparable k

theorem contains_iff : contains keys key = true ↔ ∃ k ∈ keys, equalRows k key = true := by
  simp [contains, equalRows]

theorem Comparable.add (hc : Comparable keys) (hkey : Value.Comparable key) : Comparable (add key keys) := by
  intro k hk
  rcases mem_of_mem_add hk with rfl | hk
  · exact hkey
  · exact hc k hk

/-- A key is put where it belongs, unless an equal one is there. -/
theorem add_perm (h : Ascending keys) (hc : Comparable keys) (hkey : Value.Comparable key) :
    (add key keys).Perm (if contains keys key then keys else key :: keys) := by
  induction keys with
  | nil => exact .refl _
  | cons first keys ih =>
    obtain ⟨hfirst, h⟩ := List.pairwise_cons.mp h
    obtain ⟨hcfirst, hc⟩ := List.forall_mem_cons.mp hc
    have horder := orderRows_eq_gradeRows hkey hcfirst
    have hswap : gradeRows first key = (gradeRows key first).swap := OrientedCmp.eq_swap
    have hequal : equalRows first key = (gradeRows key first == .eq) := by
      rw [equalRows, orderRows_eq_gradeRows hcfirst hkey, hswap]
      cases gradeRows key first <;> rfl
    have hcontains : contains (first :: keys) key = (equalRows first key || contains keys key) := rfl
    unfold add
    rw [horder, hcontains, hequal]
    cases hg : gradeRows key first with
    | lt =>
      -- All keys are beyond the first one.
      have hnone : contains keys key = false := by
        rw [Bool.eq_false_iff]
        intro hin
        obtain ⟨k, hk, heq⟩ := contains_iff.mp hin
        have hlt := TransCmp.lt_trans hg (hfirst k hk)
        rw [equalRows_iff (hc k hk) hkey, OrientedCmp.eq_comm, hlt] at heq
        cases heq
      rw [hnone]
      exact .refl _
    | eq => exact .refl _
    | gt =>
      refine ((ih h hc).cons first).trans ?_
      cases contains keys key with
      | true => exact .refl _
      | false => exact .swap ..

theorem Ascending.add (h : Ascending keys) (hc : Comparable keys) (hkey : Value.Comparable key) :
    Ascending (add key keys) := by
  induction keys with
  | nil => exact List.pairwise_singleton ..
  | cons first keys ih =>
    obtain ⟨hfirst, hrest⟩ := List.pairwise_cons.mp h
    obtain ⟨hcfirst, hc⟩ := List.forall_mem_cons.mp hc
    have hswap : gradeRows first key = (gradeRows key first).swap := OrientedCmp.eq_swap
    unfold Keys.add
    rw [orderRows_eq_gradeRows hkey hcfirst]
    cases hg : gradeRows key first with
    | lt =>
      refine List.pairwise_cons.mpr ⟨fun k hk => ?_, h⟩
      rcases List.mem_cons.mp hk with rfl | hk
      · exact hg
      · exact TransCmp.lt_trans hg (hfirst k hk)
    | eq => exact h
    | gt =>
      refine List.pairwise_cons.mpr ⟨fun k hk => ?_, ih hrest hc⟩
      rcases mem_of_mem_add hk with rfl | hk
      · rw [hswap, hg]
        rfl
      · exact hfirst k hk

end Keys

/-! ## Each row once -/

/-- The first of the items whose rows are equal. -/
def distinctRows {α : Type} (columns : α → List Value) (items : List α) : List α :=
  items.eraseDupsBy fun a b => equalRows (columns a) (columns b)

section

variable {α : Type} {columns : α → List Value} {items : List α}

theorem distinctRows_cons (columns : α → List Value) (a : α) (items : List α) : distinctRows columns (a :: items) =
      a :: distinctRows columns (items.filter fun b => !equalRows (columns b) (columns a)) := by
  rw [distinctRows, List.eraseDupsBy_cons, distinctRows]
  congr 3
  funext b
  cases equalRows (columns b) (columns a) <;> rfl

/-- An induction over the items that are left in. -/
theorem distinctRows_induction (columns : α → List Value) {P : List α → Prop} (hnil : P [])
    (hcons : ∀ a items, P (items.filter fun b => !equalRows (columns b) (columns a)) → P (a :: items)) :
    ∀ items, P items := by
  intro items
  induction hlength : items.length using Nat.strongRecOn generalizing items with
  | ind n ih =>
    cases items with
    | nil => exact hnil
    | cons a items =>
      refine hcons a items (ih _ ?_ _ rfl)
      subst hlength
      exact Nat.lt_succ_of_le (List.length_filter_le ..)

theorem distinctRows_sublist (columns : α → List Value) (items : List α) :
    (distinctRows columns items).Sublist items := by
  induction items using distinctRows_induction columns with
  | hnil => exact .refl _
  | hcons a items ih =>
    rw [distinctRows_cons]
    exact (ih.trans List.filter_sublist).cons_cons a

theorem pairwise_distinctRows (columns : α → List Value) (items : List α) :
    (distinctRows columns items).Pairwise fun a b => equalRows (columns b) (columns a) = false := by
  induction items using distinctRows_induction columns with
  | hnil => exact .nil
  | hcons a items ih =>
    rw [distinctRows_cons]
    refine List.pairwise_cons.mpr ⟨fun b hb => ?_, ih⟩
    simpa using (List.mem_filter.mp ((distinctRows_sublist ..).subset hb)).2

/-- Every item has an equal row among those left in. -/
theorem exists_mem_distinctRows (hc : ∀ a ∈ items, Comparable (columns a)) {a : α} (ha : a ∈ items) :
    ∃ b ∈ distinctRows columns items, equalRows (columns a) (columns b) = true := by
  induction items using distinctRows_induction columns with
  | hnil => cases ha
  | hcons first items ih =>
    rw [distinctRows_cons]
    by_cases hequal : equalRows (columns a) (columns first) = true
    · exact ⟨first, List.mem_cons_self, hequal⟩
    · rcases List.mem_cons.mp ha with rfl | ha
      · exact absurd (equalRows_self _) hequal
      · obtain ⟨b, hb, hab⟩ := ih (fun b hb => hc b (List.mem_cons_of_mem _ ((List.mem_filter.mp hb).1)))
          (List.mem_filter.mpr ⟨ha, by simpa using hequal⟩)
        exact ⟨b, List.mem_cons_of_mem _ hb, hab⟩

end

/-! ## Probes and positions -/

namespace Tree

variable {keys : List (List Value)} {lead : List Value}

/-- **The probe finds a key that begins with the fields exactly where there is one.** -/
theorem hasKeyWith_iff (h : Keys.Ascending keys) (hc : Keys.Comparable keys) (hlead : Value.Comparable lead) :
    (index keys).hasKeyWith lead = true ↔ ∃ k ∈ keys, startsWith k lead = true := by
  constructor
  · intro hhas
    simp only [hasKeyWith] at hhas
    split at hhas
    · rename_i k hk
      exact ⟨k, List.mem_of_find?_eq_some hk, hhas⟩
    · cases hhas
  · rintro ⟨a, ha, hstarts⟩
    have hbeyond : orderRows a lead ≠ .lt := by
      rw [orderRows_eq_gradeRows (hc a ha) hlead]
      intro hlt
      have hle := isLE_of_startsWith (hc a ha) hlead hstarts
      have hswap : gradeRows lead a = (gradeRows a lead).swap := OrientedCmp.eq_swap
      rw [hswap, hlt] at hle
      cases hle
    have hfound : (keys.find? fun k => orderRows k lead != .lt).isSome :=
      List.find?_isSome.mpr ⟨a, ha, by simpa using hbeyond⟩
    obtain ⟨k, hk⟩ := Option.isSome_iff_exists.mp hfound
    obtain ⟨hk', before, after, rfl, hbefore⟩ := List.find?_eq_some_iff_append.mp hk
    have hcomparable : Value.Comparable k := hc k (by simp)
    -- The key found is not beyond the one that is known to begin with the fields.
    have hle : (gradeRows k a).isLE = true := by
      rcases List.mem_append.mp ha with hin | hin
      · have := hbefore a hin
        simp_all
      · rcases List.mem_cons.mp hin with rfl | hin
        · rw [show gradeRows a a = .eq from ReflCmp.compare_self]
          rfl
        · rw [(List.pairwise_cons.mp (List.pairwise_append.mp h).2.1).1 a hin]
          rfl
    have hge : (gradeRows lead k).isLE = true := by
      have hswap : gradeRows lead k = (gradeRows k lead).swap := OrientedCmp.eq_swap
      rw [orderRows_eq_gradeRows hcomparable hlead] at hk'
      rw [hswap]
      cases hg : gradeRows k lead <;> simp_all
    simp only [hasKeyWith, hk]
    exact startsWith_of_between (hc a ha) hcomparable hlead hstarts hge hle

theorem hasKeyWith_eq (h : Keys.Ascending keys) (hc : Keys.Comparable keys) (hlead : Value.Comparable lead)
    (hwidth : ∀ k ∈ keys, k.length = lead.length) : (index keys).hasKeyWith lead = Keys.contains keys lead := by
  rw [Bool.eq_iff_iff, hasKeyWith_iff h hc hlead, Keys.contains_iff]
  refine exists_congr fun k => and_congr_right fun hk => ?_
  rw [startsWith_of_length (hwidth k hk)]

end Tree

end QueryMachine
