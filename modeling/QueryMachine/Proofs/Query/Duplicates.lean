import QueryMachine.Proofs.Compile.Delivery
import QueryMachine.Proofs.Query.Same
import QueryMachine.Proofs.Tree.Keys

/-!
# Each row once

Duplicates are dropped in one of two ways. Rows are looked up in an index of the rows so far before they
are sorted; or, where the leading terms of ORDER BY are the result columns in some order, each row is
compared with the row before it after they are sorted. Both leave one of the rows that are equal, in the
order of ORDER BY, and in the second case there is only one such list, up to equal rows.

A computed value is a NaN only where the expression is a NaN literal, so NaNs stand in the same columns
of all rows. There they can be read as NULLs, and what is left is a total order.

* `Expr.isNaN_eval` — where computed NaNs come from.
* `Plan.Condenses` — the rows each once, in order.
* `Plan.Computed.condenses_unordered`, `Plan.Computed.condenses_ordered` — both ways leave each row once.
* `Plan.Condenses.unique` — where ORDER BY covers the columns, the rows that are left are determined.
-/

namespace QueryMachine

open Std Value

/-! ## Where NaNs stand -/

namespace Value

variable {a b : List Value}

/-- NULL in the place of a NaN. -/
def orNull (v : Value) : Value := if v.isNaN then .null else v

theorem isNaN_orNull (v : Value) : v.orNull.isNaN = false := by
  unfold orNull
  split
  · rfl
  · exact Bool.eq_false_iff.mpr ‹_›

theorem comparable_orNull (row : List Value) : Comparable (row.map orNull) := by
  intro v hv
  obtain ⟨w, -, rfl⟩ := List.mem_map.mp hv
  exact isNaN_orNull w

/-- NaNs compare as equal, and so do NULLs. -/
theorem order_eq_grade_orNull {v w : Value} (h : v.isNaN = w.isNaN) : v.order w = grade v.orNull w.orNull := by
  rw [← order_eq_grade (isNaN_orNull v) (isNaN_orNull w)]
  cases hv : v.isNaN with
  | false => simp only [orNull, hv, ← h, Bool.false_eq_true, if_false]
  | true =>
    have hreal : ∀ u : Value, u.isNaN = true → ∃ x : Binary64, u = .real x ∧ x.isNaN = true
      | .real x, hu => ⟨x, rfl, hu⟩
    obtain ⟨x, rfl, hx⟩ := hreal v hv
    obtain ⟨y, rfl, hy⟩ := hreal w (h ▸ hv)
    simp [orNull, hv, ← h, order, compare?, Binary64.compare?, hx]

theorem orderRows_eq_gradeRows_orNull : ∀ {a b : List Value}, a.map isNaN = b.map isNaN →
    orderRows a b = gradeRows (a.map orNull) (b.map orNull)
  | [], [], _ => rfl
  | v :: a, w :: b, h => by
    obtain ⟨hv, h⟩ := List.cons.inj h
    rw [orderRows, order_eq_grade_orNull hv, orderRows_eq_gradeRows_orNull h, List.map_cons, List.map_cons,
      gradeRows, List.compareLex_cons_cons]

theorem orderRows_orNull (h : a.map isNaN = b.map isNaN) : orderRows (a.map orNull) (b.map orNull) = orderRows a b := by
  rw [orderRows_eq_gradeRows_orNull h, orderRows_eq_gradeRows (comparable_orNull a) (comparable_orNull b)]

theorem isNaN_ofReal (x : Binary64) : (ofReal x).isNaN = false := by
  unfold ofReal
  split
  · rfl
  · exact Bool.eq_false_iff.mpr ‹_›

theorem isNaN_arithmetic (onInts : Int → Int → Int) (onReals : Binary64 → Binary64 → Binary64) (v w : Value) :
    (arithmetic onInts onReals v w).isNaN = false := by
  unfold arithmetic
  split
  · rfl
  · rfl
  · split
    · rfl
    · exact isNaN_ofReal _
  · exact isNaN_ofReal _

end Value

/-- No operator gives a NaN. -/
theorem Operator.isNaN_apply (operator : Operator) (v w : Value) : (operator.apply v w).isNaN = false := by
  have htruth : ∀ t, (Value.ofTruth t).isNaN = false := by
    rintro (_ | _ | _) <;> rfl
  cases operator with
  | add | subtract | multiply => exact isNaN_arithmetic ..
  | divide =>
    simp only [Operator.apply, Value.div]
    split
    · rfl
    · split
      · rfl
      · exact isNaN_arithmetic ..
  | _ => exact htruth _

/-- Whether an expression is a NaN literal. -/
def Expr.isNaNLiteral : Resolved → Bool
  | .lit v => v.isNaN
  | _ => false

/-- **Where computed NaNs come from.** -/
theorem Expr.isNaN_eval {read : Place → Value} (h : ∀ q, (read q).isNaN = false) (e : Resolved) :
    (e.eval read).isNaN = e.isNaNLiteral := by
  cases e with
  | ref q => exact h q
  | lit v => rfl
  | binary operator left right => exact operator.isNaN_apply _ _
  | aggregate => rfl

/-! ## The order of keys -/

/-- How values compare in a direction. -/
def Direction.grade (direction : Direction) (v w : Value) : Ordering :=
  if direction = .desc then Value.grade w v else Value.grade v w

instance (direction : Direction) : TransCmp direction.grade := by
  cases direction with
  | asc => exact inferInstanceAs (TransCmp Value.grade)
  | desc => exact inferInstanceAs (TransCmp fun v w => Value.grade w v)

/-- Keys one after the other, each in its direction; a missing key counts as NULL. -/
def gradeTuples : List Direction → List Value → List Value → Ordering
  | [] => fun _ _ => .eq
  | direction :: directions =>
    compareLex (fun a b => direction.grade (a.headD .null) (b.headD .null))
      fun a b => gradeTuples directions a.tail b.tail

theorem transCmp_on {α β : Type} (cmp : β → β → Ordering) [TransCmp cmp] (f : α → β) :
    TransCmp fun a b => cmp (f a) (f b) where
  eq_swap := OrientedCmp.eq_swap
  isLE_trans := TransCmp.isLE_trans

instance transCmp_gradeTuples : ∀ directions, TransCmp (gradeTuples directions)
  | [] => { eq_swap := rfl, isLE_trans := fun _ _ => rfl }
  | direction :: directions =>
    have : TransCmp fun a b : List Value => direction.grade (a.headD .null) (b.headD .null) :=
      transCmp_on direction.grade fun a : List Value => a.headD .null
    have := transCmp_gradeTuples directions
    have : TransCmp fun a b : List Value => gradeTuples directions a.tail b.tail :=
      transCmp_on (gradeTuples directions) List.tail
    inferInstanceAs (TransCmp (compareLex _ _))

/-- Where NaNs stand in the same places, tuples of keys are totally ordered. -/
theorem orderTuples_eq_gradeTuples : ∀ {directions : List Direction} {a b : List Value},
    a.length = directions.length → a.map isNaN = b.map isNaN →
    orderTuples directions a b = gradeTuples directions (a.map orNull) (b.map orNull)
  | [], [], [], _, _ => rfl
  | direction :: directions, v :: a, w :: b, hlength, h => by
    obtain ⟨hv, h⟩ := List.cons.inj h
    have hswap : Value.grade w.orNull v.orNull = (Value.grade v.orNull w.orNull).swap := OrientedCmp.eq_swap
    have hrest := orderTuples_eq_gradeTuples (Nat.succ.inj hlength) h
    rw [orderTuples, order_eq_grade_orNull hv, hrest]
    show _ = Ordering.then (direction.grade v.orNull w.orNull) _
    unfold Direction.grade
    rw [hswap]
    cases direction <;> cases Value.grade v.orNull w.orNull <;> rfl

theorem isLE_gradeTuples_take : ∀ {directions : List Direction} (n : Nat) {a b : List Value},
    (gradeTuples directions a b).isLE = true → (gradeTuples (directions.take n) a b).isLE = true
  | _, 0, _, _, _ => rfl
  | [], _ + 1, _, _, h => h
  | direction :: directions, n + 1, a, b, h => by
    rw [gradeTuples, compareLex, Ordering.isLE_then_iff_or] at h
    rw [List.take_succ_cons, gradeTuples, compareLex, Ordering.isLE_then_iff_or]
    exact h.imp_right fun h => ⟨h.1, isLE_gradeTuples_take n h.2⟩

/-! ## One list in order -/

section

variable {α : Type} {cmp : α → α → Ordering} [TransCmp cmp]

/-- Two ascending lists whose members have equals in each other are equal member by member. -/
theorem forall₂_of_ascending : ∀ {l l' : List α}, l.Pairwise (cmp · · = .lt) → l'.Pairwise (cmp · · = .lt) →
    (∀ a ∈ l, ∃ b ∈ l', cmp a b = .eq) → (∀ b ∈ l', ∃ a ∈ l, cmp a b = .eq) → List.Forall₂ (cmp · · = .eq) l l'
  | [], [], _, _, _, _ => .nil
  | [], b :: _, _, _, _, h => by
    obtain ⟨a, ha, -⟩ := h b List.mem_cons_self
    cases ha
  | a :: _, [], _, _, h, _ => by
    obtain ⟨b, hb, -⟩ := h a List.mem_cons_self
    cases hb
  | a :: l, b :: l', hl, hl', h, h' => by
    obtain ⟨hfirst, hl⟩ := List.pairwise_cons.mp hl
    obtain ⟨hfirst', hl'⟩ := List.pairwise_cons.mp hl'
    -- The first member of each list has an equal in the other, so neither can be before the other.
    have hab : cmp a b = .eq := by
      obtain ⟨b', hb', hequal⟩ := h a List.mem_cons_self
      obtain ⟨a', ha', hequal'⟩ := h' b List.mem_cons_self
      rcases List.mem_cons.mp hb' with rfl | hb'
      · exact hequal
      · rcases List.mem_cons.mp ha' with rfl | ha'
        · exact hequal'
        · have hba : cmp b a = .lt := (TransCmp.congr_right hequal).trans (hfirst' b' hb')
          have hab : cmp a b = .lt := (TransCmp.congr_right hequal').symm.trans (hfirst a' ha')
          rw [OrientedCmp.gt_iff_lt.mpr hab] at hba
          cases hba
    refine .cons hab (forall₂_of_ascending hl hl' (fun x hx => ?_) fun y hy => ?_)
    · obtain ⟨y, hy, hxy⟩ := h x (List.mem_cons_of_mem _ hx)
      rcases List.mem_cons.mp hy with rfl | hy
      · have hlt := hfirst x hx
        rw [TransCmp.congr_right hxy, hab] at hlt
        cases hlt
      · exact ⟨y, hy, hxy⟩
    · obtain ⟨x, hx, hxy⟩ := h' y (List.mem_cons_of_mem _ hy)
      rcases List.mem_cons.mp hx with rfl | hx
      · have hlt := hfirst' y hy
        rw [← TransCmp.congr_left hab, hxy] at hlt
        cases hlt
      · exact ⟨x, hx, hxy⟩

/-- Comparing each row with the row before leaves each row once, where equal rows are next to each
other. -/
theorem Distinct.exists_fresh {columns : α → List Value} (first previous : Int) :
    ∀ {items : List α} {last : α}, (last :: items).Pairwise (fun a b => (cmp a b).isLE = true) →
      (∀ a ∈ last :: items, ∀ b ∈ last :: items, orderRows (columns a) (columns b) = .eq ↔ cmp a b = .eq) →
      ∃ kept, kept.Sublist items ∧ kept.map columns =
          (Distinct.ordered first previous).fresh (some (columns last)) (items.map columns) ∧
        (last :: kept).Pairwise (cmp · · = .lt) ∧ ∀ a ∈ items, ∃ b ∈ last :: kept, cmp a b = .eq
  | [], last, _, _ => ⟨[], .slnil, rfl, List.pairwise_singleton .., nofun⟩
  | a :: items, last, hsorted, hrows => by
    have hla := hrows last List.mem_cons_self a (List.mem_cons_of_mem _ List.mem_cons_self)
    obtain ⟨hlast, hsorted⟩ := List.pairwise_cons.mp hsorted
    obtain ⟨ha, hitems⟩ := List.pairwise_cons.mp hsorted
    by_cases hequal : cmp last a = .eq
    · have hrepeats : (Distinct.ordered first previous).repeats (some (columns last)) (columns a) = true :=
        beq_iff_eq.mpr (hla.mpr hequal)
      obtain ⟨kept, hsub, hfresh, hascends, hcovers⟩ := exists_fresh first previous
        (List.pairwise_cons.mpr ⟨fun b hb => hlast b (List.mem_cons_of_mem _ hb), hitems⟩)
        fun b hb c hc => hrows b (by grind) c (by grind)
      refine ⟨kept, hsub.cons a, ?_, hascends, fun b hb => ?_⟩
      · rw [List.map_cons, Distinct.fresh, if_pos hrepeats, hfresh]
      · rcases List.mem_cons.mp hb with rfl | hb
        · exact ⟨last, List.mem_cons_self, OrientedCmp.eq_comm.mp hequal⟩
        · exact hcovers b hb
    · have hrepeats : ¬(Distinct.ordered first previous).repeats (some (columns last)) (columns a) = true :=
        fun h => hequal (hla.mp (beq_iff_eq.mp h))
      have hlt : cmp last a = .lt := by
        have hle := hlast a List.mem_cons_self
        cases hcmp : cmp last a <;> simp_all
      obtain ⟨kept, hsub, hfresh, hascends, hcovers⟩ := exists_fresh first previous hsorted
        fun b hb c hc => hrows b (List.mem_cons_of_mem _ hb) c (List.mem_cons_of_mem _ hc)
      refine ⟨a :: kept, hsub.cons_cons a, ?_, ?_, fun b hb => ?_⟩
      · rw [List.map_cons, List.map_cons, Distinct.fresh, if_neg hrepeats, hfresh]
      · refine List.pairwise_cons.mpr ⟨fun b hb => ?_, hascends⟩
        rcases List.mem_cons.mp hb with rfl | hb
        · exact hlt
        · exact TransCmp.lt_trans hlt ((List.pairwise_cons.mp hascends).1 b hb)
      · rcases List.mem_cons.mp hb with rfl | hb
        · exact ⟨b, by simp, ReflCmp.compare_self⟩
        · obtain ⟨c, hc, hbc⟩ := hcovers b hb
          exact ⟨c, List.mem_cons_of_mem _ hc, hbc⟩

end

/-! ## Rows that are looked up -/

section

variable {α : Type} {columns : α → List Value} {mask : List Bool} {seen : List (List Value)} {items : List α}

theorem Keys.add_orNull {key : List Value} (hkey : key.map isNaN = mask) (hseen : ∀ k ∈ seen, k.map isNaN = mask) :
    (Keys.add key seen).map (·.map orNull) = Keys.add (key.map orNull) (seen.map (·.map orNull)) := by
  induction seen with
  | nil => rfl
  | cons k seen ih =>
    obtain ⟨hk, hseen⟩ := List.forall_mem_cons.mp hseen
    rw [List.map_cons, Keys.add, Keys.add, orderRows_orNull (hkey.trans hk.symm)]
    cases orderRows key k with
    | lt | eq => rfl
    | gt => exact congrArg _ (ih hseen)

theorem Tree.hasKeyWith_orNull {key : List Value} (hkey : key.map isNaN = mask)
    (hseen : ∀ k ∈ seen, k.map isNaN = mask) :
    (Tree.index (seen.map (·.map orNull))).hasKeyWith (key.map orNull) = (Tree.index seen).hasKeyWith key := by
  induction seen with
  | nil => rfl
  | cons k seen ih =>
    obtain ⟨hk, hseen⟩ := List.forall_mem_cons.mp hseen
    have hsame := hk.trans hkey.symm
    have hlength : k.length = key.length := by simpa using congrArg List.length hsame
    simp only [Tree.hasKeyWith, List.map_cons, List.find?_cons, orderRows_orNull hsame]
    cases horder : orderRows k key with
    | lt => exact ih hseen
    | eq | gt =>
      show startsWith (k.map orNull) (key.map orNull) = startsWith k key
      rw [startsWith_of_length (by simpa using hlength), startsWith_of_length hlength, equalRows, equalRows,
        orderRows_orNull hsame]

/-- The probe of the rows so far, with NULLs in the place of NaNs. -/
theorem Distinct.admitted_orNull (k : Int) (hitems : ∀ a ∈ items, (columns a).map isNaN = mask)
    (hseen : ∀ key ∈ seen, key.map isNaN = mask) : (unordered k).admitted columns seen items =
      (unordered k).admitted (fun a => (columns a).map orNull) (seen.map (·.map orNull)) items := by
  induction items generalizing seen with
  | nil => rfl
  | cons a items ih =>
    obtain ⟨ha, hitems⟩ := List.forall_mem_cons.mp hitems
    have hadd : ∀ key ∈ Keys.add (columns a) seen, key.map isNaN = mask := by
      intro key hkey
      rcases Keys.mem_of_mem_add hkey with rfl | hkey
      · exact ha
      · exact hseen key hkey
    simp only [Distinct.admitted, Distinct.pass, Tree.hasKeyWith_orNull ha hseen]
    cases (Tree.index seen).hasKeyWith (columns a) with
    | true => exact ih hitems hseen
    | false =>
      simp only [Bool.false_eq_true, if_false, ← Keys.add_orNull ha hseen]
      exact congrArg _ (ih hitems hadd)

/-- Without NaNs, the rows that were not there when they came are the first of those that are equal. -/
theorem Distinct.admitted_eq_distinctRows (k : Int) {width : Nat} (hc : ∀ a ∈ items, Comparable (columns a))
    (hwidth : ∀ a ∈ items, (columns a).length = width) (hascends : Keys.Ascending seen) (hseen : Keys.Comparable seen)
    (hwide : ∀ key ∈ seen, key.length = width) : (unordered k).admitted columns seen items =
      distinctRows columns (items.filter fun a => !Keys.contains seen (columns a)) := by
  induction items generalizing seen with
  | nil => simp [Distinct.admitted, distinctRows]
  | cons a items ih =>
    obtain ⟨ha, hc⟩ := List.forall_mem_cons.mp hc
    obtain ⟨hawidth, hwidth⟩ := List.forall_mem_cons.mp hwidth
    have hprobe := Tree.hasKeyWith_eq hascends hseen ha fun key hkey => (hwide key hkey).trans hawidth.symm
    simp only [Distinct.admitted, Distinct.pass, hprobe]
    cases hin : Keys.contains seen (columns a) with
    | true =>
      rw [List.filter_cons_of_neg (by simp [hin])]
      exact ih hc hwidth hascends hseen hwide
    | false =>
      have hadd := Keys.add_perm hascends hseen ha
      rw [hin, if_neg Bool.false_ne_true] at hadd
      have hrest := ih hc hwidth (hascends.add hseen ha) (hseen.add ha) fun key hkey => by
        rcases List.mem_cons.mp (hadd.mem_iff.mp hkey) with rfl | hkey
        · exact hawidth
        · exact hwide key hkey
      rw [List.filter_cons_of_pos (by simp [hin]), distinctRows_cons, List.filter_filter]
      simp only [Bool.false_eq_true, if_false, hrest]
      congr 2
      refine List.filter_congr fun b hb => ?_
      have hcontains : Keys.contains (Keys.add (columns a) seen) (columns b) =
          (equalRows (columns a) (columns b) || Keys.contains seen (columns b)) := hadd.any_eq
      rw [hcontains, equalRows_comm ha (hc b hb), Bool.not_or]

end

/-! ## Rows of a plan -/

namespace Plan

variable {p : Plan} {items kept kept' : List (List Value × List Value)} {a b : List Value × List Value}

/-- Each item is what the plan computes from places that hold no NaN. -/
def Computed (p : Plan) (items : List (List Value × List Value)) : Prop :=
  ∀ a ∈ items, ∃ read : Place → Value, (∀ q, (read q).isNaN = false) ∧ p.keyed read = a

/-- The items each once, in the order of their keys: of items with equal rows there is one. -/
structure Condenses (p : Plan) (items kept : List (List Value × List Value)) : Prop where
  subset : kept ⊆ items
  apart : kept.Pairwise fun a b => orderRows a.2 b.2 ≠ .eq
  covers : ∀ a ∈ items, ∃ b ∈ kept, orderRows a.2 b.2 = .eq
  ordered : kept.Pairwise fun a b => orderTuples (p.orderBy.map (·.2)) a.1 b.1 ≠ .gt

/-- How items compare by their keys, with NULLs in the place of NaNs. -/
def gradeItems (directions : List Direction) (a b : List Value × List Value) : Ordering :=
  gradeTuples directions (a.1.map orNull) (b.1.map orNull)

instance (directions : List Direction) : TransCmp (gradeItems directions) :=
  transCmp_on (gradeTuples directions) fun a : List Value × List Value => a.1.map orNull

namespace Computed

section

variable (h : p.Computed items) (ha : a ∈ items)

include h ha

theorem masks :
    a.1.map isNaN = p.orderBy.map (·.1.isNaNLiteral) ∧ a.2.map isNaN = p.projection.map Expr.isNaNLiteral := by
  obtain ⟨read, hread, rfl⟩ := h a ha
  simp only [keyed, List.map_map, Function.comp_def, Expr.isNaN_eval hread, and_self]

theorem length_keys : a.1.length = p.orderBy.length := by
  simpa using congrArg List.length (h.masks ha).1

theorem orderRows_eq (hb : b ∈ items) : orderRows a.2 b.2 = gradeRows (a.2.map orNull) (b.2.map orNull) :=
  orderRows_eq_gradeRows_orNull ((h.masks ha).2.trans (h.masks hb).2.symm)

theorem equalRows_iff (hb : b ∈ items) :
    equalRows (a.2.map orNull) (b.2.map orNull) = true ↔ orderRows a.2 b.2 = .eq := by
  rw [Value.equalRows_iff (comparable_orNull _) (comparable_orNull _), h.orderRows_eq ha hb]

theorem orderTuples_eq (hb : b ∈ items) :
    orderTuples (p.orderBy.map (·.2)) a.1 b.1 = gradeItems (p.orderBy.map (·.2)) a b :=
  orderTuples_eq_gradeTuples (by simpa using h.length_keys ha) ((h.masks ha).1.trans (h.masks hb).1.symm)

end

/-- Sorting puts the items in the order of their keys. -/
theorem pairwise_mergeSort (h : p.Computed items) :
    (items.mergeSort fun a b => orderTuples (p.orderBy.map (·.2)) a.1 b.1 != .gt).Pairwise
      fun a b => orderTuples (p.orderBy.map (·.2)) a.1 b.1 ≠ .gt := by
  have hsame := List.map_mergeSort (f := id) (l := items)
    (r := fun a b => orderTuples (p.orderBy.map (·.2)) a.1 b.1 != .gt)
    (s := fun a b => (gradeItems (p.orderBy.map (·.2)) a b).isLE) fun a ha b hb => by
      rw [h.orderTuples_eq ha hb, id_eq, id_eq]
      cases gradeItems (p.orderBy.map (·.2)) a b <;> rfl
  rw [List.map_id, List.map_id] at hsame
  rw [hsame]
  refine (List.pairwise_mergeSort (fun _ _ _ => TransCmp.isLE_trans) (fun a b => ?_) items).imp_of_mem ?_
  · have hswap : gradeItems (p.orderBy.map (·.2)) a b = (gradeItems (p.orderBy.map (·.2)) b a).swap :=
      OrientedCmp.eq_swap
    rw [hswap]
    cases gradeItems (p.orderBy.map (·.2)) b a <;> rfl
  · intro a b ha hb hle
    rw [h.orderTuples_eq (List.mem_mergeSort.mp ha) (List.mem_mergeSort.mp hb)]
    intro hgt
    rw [hgt] at hle
    cases hle

/-- **Looking rows up in an index before they are sorted leaves each row once.** -/
theorem condenses_unordered (h : p.Computed items) (k : Int) : ∃ kept, p.Condenses items kept ∧
      p.arrange ((Distinct.unordered k).admitted (·.2) [] items) = kept.map (·.2) := by
  have hadmitted : (Distinct.unordered k).admitted (·.2) [] items =
      distinctRows (fun a => a.2.map orNull) items := by
    have hwidth : ∀ a ∈ items, (a.2.map orNull).length = p.projection.length :=
      fun a ha => by simpa using congrArg List.length (h.masks ha).2
    refine (Distinct.admitted_orNull k (fun a ha => (h.masks ha).2) (List.forall_mem_nil _)).trans ?_
    refine (Distinct.admitted_eq_distinctRows k (fun a _ => comparable_orNull a.2) hwidth .nil
      (List.forall_mem_nil _) (List.forall_mem_nil _)).trans ?_
    exact congrArg _ (List.filter_eq_self.mpr fun _ _ => rfl)
  have hsub := (distinctRows_sublist (fun a => a.2.map orNull) items).subset
  have hcomputed : p.Computed (distinctRows (fun a => a.2.map orNull) items) := fun a ha => h a (hsub ha)
  have hperm := List.mergeSort_perm (distinctRows (fun a => a.2.map orNull) items)
    fun a b => orderTuples (p.orderBy.map (·.2)) a.1 b.1 != .gt
  refine ⟨_, ⟨fun a ha => hsub (hperm.mem_iff.mp ha), ?_, fun a ha => ?_, hcomputed.pairwise_mergeSort⟩,
    congrArg p.arrange hadmitted⟩
  · have hapart : (distinctRows (fun a => a.2.map orNull) items).Pairwise
        fun a b => equalRows (a.2.map orNull) (b.2.map orNull) = false :=
      (pairwise_distinctRows _ items).imp fun hab => by
        rwa [equalRows_comm (comparable_orNull _) (comparable_orNull _)]
    refine ((hperm.pairwise_iff fun hab => ?_).mpr hapart).imp_of_mem fun ha hb hab heq => ?_
    · rwa [equalRows_comm (comparable_orNull _) (comparable_orNull _)]
    · rw [(h.equalRows_iff (hsub (hperm.mem_iff.mp ha)) (hsub (hperm.mem_iff.mp hb))).mpr heq] at hab
      cases hab
  · obtain ⟨b, hb, hab⟩ := exists_mem_distinctRows (fun a _ => comparable_orNull a.2) ha
    exact ⟨b, hperm.mem_iff.mpr hb, (h.equalRows_iff ha (hsub hb)).mp hab⟩

end Computed

/-! ## Where ORDER BY covers the columns -/

/-- What does not tell expressions apart that are the same holds of all leading terms where it holds of
all columns, if each term is paired off with a column. -/
theorem forall_mem_iff_of_pairsOff {P : Resolved → Prop} (hP : ∀ e e' : Resolved, e.same e' = true → (P e ↔ P e')) :
    ∀ {lead es : List Resolved}, pairsOff lead es = true → lead.length = es.length → ((∀ e ∈ lead, P e) ↔ ∀ e ∈ es, P e)
  | lead, [], _, hlength => by rw [List.length_eq_zero_iff.mp hlength]
  | lead, e :: es, h, hlength => by
    rw [pairsOff, Bool.and_eq_true] at h
    obtain ⟨hany, hrest⟩ := h
    obtain ⟨e0, hin, hsame0⟩ := List.any_eq_true.mp hany
    obtain ⟨e', before, after, -, hsame, rfl, herase⟩ :=
      List.exists_of_eraseP (p := fun e' : Resolved => e'.same e) hin hsame0
    rw [herase] at hrest
    have ih := forall_mem_iff_of_pairsOff hP hrest (by simp at hlength ⊢; omega)
    rw [List.forall_mem_cons, ← ih, ← hP e' e hsame]
    simp only [List.mem_append, List.mem_cons, or_imp, forall_and, forall_eq]
    tauto

/-- Keys are equal where each of them is. -/
theorem gradeTuples_eq_iff {read read' : Place → Value} (h : ∀ q, (read q).isNaN = false)
    (h' : ∀ q, (read' q).isNaN = false) (rest rest' : List Value) : ∀ terms : List (Resolved × Direction),
    gradeTuples (terms.map (·.2)) (terms.map (fun t => (t.1.eval read).orNull) ++ rest)
        (terms.map (fun t => (t.1.eval read').orNull) ++ rest') = .eq ↔
      ∀ e ∈ terms.map (·.1), order (e.eval read) (e.eval read') = .eq
  | [] => by simp [gradeTuples]
  | (e, direction) :: terms => by
    have hnan := (Expr.isNaN_eval h e).trans (Expr.isNaN_eval h' e).symm
    have hturn : direction.grade (e.eval read).orNull (e.eval read').orNull = .eq ↔
        order (e.eval read) (e.eval read') = .eq := by
      rw [order_eq_grade_orNull hnan]
      cases direction with
      | asc => exact Iff.rfl
      | desc => exact OrientedCmp.eq_comm
    simp only [List.map_cons, List.cons_append, gradeTuples, compareLex, List.headD_cons, List.tail_cons,
      Ordering.then_eq_eq, hturn, gradeTuples_eq_iff h h' rest rest' terms, List.forall_mem_cons]

/-- The directions of the terms that are the columns. -/
def leading (p : Plan) : List Direction := (p.orderBy.map (·.2)).take p.projection.length

/-- Where ORDER BY covers the columns, rows are equal where the leading keys are. -/
theorem Computed.leading_eq_iff (h : p.Computed items) (hcovers : p.orderCoversProjection = true)
    (ha : a ∈ items) (hb : b ∈ items) : orderRows a.2 b.2 = .eq ↔ gradeItems p.leading a b = .eq := by
  obtain ⟨read, hread, rfl⟩ := h a ha
  obtain ⟨read', hread', rfl⟩ := h b hb
  rw [orderCoversProjection, Bool.and_eq_true, decide_eq_true_eq] at hcovers
  obtain ⟨hlength, hpairs⟩ := hcovers
  have hkeys : ∀ r : Place → Value, (p.keyed r).1.map orNull =
      (p.orderBy.take p.projection.length).map (fun t => (t.1.eval r).orNull) ++
        (p.orderBy.drop p.projection.length).map fun t => (t.1.eval r).orNull := by
    intro r
    rw [← List.map_append, List.take_append_drop, keyed, List.map_map]
    rfl
  rw [gradeItems, leading, ← List.map_take, hkeys, hkeys, gradeTuples_eq_iff hread hread',
    forall_mem_iff_of_pairsOff (P := fun e => order (e.eval read) (e.eval read') = .eq) ?_ hpairs
      (by simp; omega)]
  · simp only [keyed, orderRows_eq_eq_iff, List.forall₂_map_left_iff, List.forall₂_map_right_iff,
      List.forall₂_same]
  · intro e e' hsame
    rw [(Expr.alike_eval read hsame).order (Expr.alike_eval read' hsame)]

theorem Computed.isLE_leading (h : p.Computed items) (ha : a ∈ items) (hb : b ∈ items)
    (hab : orderTuples (p.orderBy.map (·.2)) a.1 b.1 ≠ .gt) : (gradeItems p.leading a b).isLE = true := by
  rw [h.orderTuples_eq ha hb] at hab
  refine isLE_gradeTuples_take _ ?_
  rw [← Ordering.ne_gt_iff_isLE]
  exact hab

/-- **Comparing each row with the row before, after they are sorted, leaves each row once.** -/
theorem Computed.condenses_ordered (h : p.Computed items) (hcovers : p.orderCoversProjection = true)
    (first previous : Int) : ∃ kept, p.Condenses items kept ∧
      (Distinct.ordered first previous).fresh none (p.arrange items) = kept.map (·.2) := by
  have hmem : ∀ a, a ∈ items.mergeSort (fun a b => orderTuples (p.orderBy.map (·.2)) a.1 b.1 != .gt) →
      a ∈ items := fun a => List.mem_mergeSort.mp
  have hmem' : ∀ a ∈ items, a ∈ items.mergeSort fun a b => orderTuples (p.orderBy.map (·.2)) a.1 b.1 != .gt :=
    fun a => List.mem_mergeSort.mpr
  have hsorted := h.pairwise_mergeSort
  unfold arrange
  generalize items.mergeSort (fun a b => orderTuples (p.orderBy.map (·.2)) a.1 b.1 != .gt) = sorted at *
  cases sorted with
  | nil => exact ⟨[], ⟨List.nil_subset _, .nil, fun a ha => (nomatch hmem' a ha), .nil⟩, rfl⟩
  | cons a rest =>
    have hle := hsorted.imp_of_mem fun hx hy => h.isLE_leading (hmem _ hx) (hmem _ hy)
    have hrows := fun x hx y hy => h.leading_eq_iff hcovers (hmem x hx) (hmem y hy)
    obtain ⟨kept, hsub, hfresh, hascends, hall⟩ := Distinct.exists_fresh first previous hle hrows
    have hsub := hsub.cons_cons a
    have hkept : ∀ x ∈ a :: kept, x ∈ items := fun x hx => hmem x (hsub.subset hx)
    refine ⟨a :: kept, ⟨hkept, ?_, fun x hx => ?_, hsorted.sublist hsub⟩, congrArg _ hfresh.symm⟩
    · refine hascends.imp_of_mem fun {x y} hx hy hlt heq => ?_
      rw [(h.leading_eq_iff hcovers (hkept x hx) (hkept y hy)).mp heq] at hlt
      cases hlt
    · obtain ⟨y, hy, hxy⟩ : ∃ y ∈ a :: kept, gradeItems p.leading x y = .eq := by
        rcases List.mem_cons.mp (hmem' x hx) with rfl | hx
        · exact ⟨x, List.mem_cons_self, ReflCmp.compare_self⟩
        · exact hall x hx
      exact ⟨y, hy, (h.leading_eq_iff hcovers hx (hkept y hy)).mpr hxy⟩

theorem Condenses.ascends (hkept : p.Condenses items kept) (h : p.Computed items)
    (hcovers : p.orderCoversProjection = true) : kept.Pairwise (gradeItems p.leading · · = .lt) := by
  refine (hkept.apart.and hkept.ordered).imp_of_mem fun {a b} ha hb hab => ?_
  have hle := h.isLE_leading (hkept.subset ha) (hkept.subset hb) hab.2
  have hne := mt (h.leading_eq_iff hcovers (hkept.subset ha) (hkept.subset hb)).mpr hab.1
  cases hcmp : gradeItems p.leading a b <;> simp_all

/-- **Where ORDER BY covers the columns, the rows that are left are determined**, up to equal rows. -/
theorem Condenses.unique (hkept : p.Condenses items kept) (hkept' : p.Condenses items kept')
    (h : p.Computed items) (hcovers : p.orderCoversProjection = true) :
    List.Forall₂ (fun a b => orderRows a b = .eq) (kept.map (·.2)) (kept'.map (·.2)) := by
  have hrows := fun a ha b hb => h.leading_eq_iff hcovers (a := a) (b := b) ha hb
  have hequal := forall₂_of_ascending (hkept.ascends h hcovers) (hkept'.ascends h hcovers)
    (fun a ha => by
      obtain ⟨b, hb, hab⟩ := hkept'.covers a (hkept.subset ha)
      exact ⟨b, hb, (hrows a (hkept.subset ha) b (hkept'.subset hb)).mp hab⟩)
    fun b hb => by
      obtain ⟨a, ha, hba⟩ := hkept.covers b (hkept'.subset hb)
      exact ⟨a, ha, OrientedCmp.eq_comm.mp ((hrows b (hkept'.subset hb) a (hkept.subset ha)).mp hba)⟩
  rw [List.forall₂_map_left_iff, List.forall₂_map_right_iff, List.forall₂_iff_zip]
  rw [List.forall₂_iff_zip] at hequal
  refine ⟨hequal.1, fun {a b} hzip => ?_⟩
  obtain ⟨ha, hb⟩ := List.of_mem_zip hzip
  exact (hrows a (hkept.subset ha) b (hkept'.subset hb)).mpr (hequal.2 hzip)

end Plan

end QueryMachine
