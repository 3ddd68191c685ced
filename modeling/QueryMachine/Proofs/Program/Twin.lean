import QueryMachine.Proofs.Machine.Twin
import QueryMachine.Proofs.Program.Growth

/-!
# Programs that differ in their registers

Two programs are built side by side, by the same steps but with registers from pools that hand them out in
different ways. Registers that are never given back correspond for good. Temporaries correspond from where they
are written to where they are given back; no label is bound in between, so a jump never leads to where one is in
use.

* `Ties` — the registers that correspond for good.
* `Builder.Twin` — two programs under construction that differ in their registers only.
* `Builder.Twin.runFrom_eq` — such programs do the same when they run.
* `Builder.Twin.finish` — when they are finished, both fail alike or are such programs.
-/

namespace QueryMachine

open Machine

/-- The registers that correspond for good: those that hold values, and those that hold return addresses. -/
structure Ties where
  mates : Mates
  links : Mates

/-- Temporaries of two programs. -/
abbrev Temps := List (Int × Int)

namespace Ties

/-- The registers that correspond for good, and temporaries. -/
def plus (W : Ties) (v : Temps) : Mates := fun r r' => W.mates r r' ∨ (r, r') ∈ v

structure Le (W W' : Ties) : Prop where
  mates : ∀ {r r'}, W.mates r r' → W'.mates r r'
  links : ∀ {r r'}, W.links r r' → W'.links r r'

variable {W W' W'' : Ties} {u v : Temps} {r r' : Int}

theorem Le.refl (W : Ties) : W.Le W := ⟨id, id⟩

theorem Le.trans (h : W.Le W') (k : W'.Le W'') : W.Le W'' := ⟨fun hr => k.mates (h.mates hr), fun hr => k.links (h.links hr)⟩

theorem Le.or (h : W.Le W') (v : Temps) : (W.plus v).or W'.mates = W'.plus v := by
  funext r r'
  refine propext ⟨?_, fun hr => hr.elim .inr fun hr => .inl (.inr hr)⟩
  rintro ((hr | hr) | hr)
  · exact .inl (h.mates hr)
  · exact .inr hr
  · exact .inl hr

theorem plus_cons {q q' : Int} : W.plus ((r, r') :: v) q q' ↔ (q = r ∧ q' = r') ∨ W.plus v q q' := by
  simp only [plus, List.mem_cons, Prod.mk.injEq]
  exact or_left_comm

theorem plus_mono (h : ∀ x ∈ v, x ∈ u) (hr : W.plus v r r') : W.plus u r r' := hr.imp_right (h _)

end Ties

/-- The drafts differ in their registers only; `v` are the temporaries in use before, `u` those after. -/
inductive Draft.Twin (W : Ties) : Temps → Temps → Draft → Draft → Prop
  | straight {v u i i'} (h : Straight W.links (W.plus v) (W.plus u) i i') : Twin W v u ⟨i, none⟩ ⟨i', none⟩
  | branching (l : Option Label) {v o p1 p1' p3 p3' payload flags} (hcall : o = .gosub → v = [])
    (h : ∀ t, Branching W.links (W.plus v) ⟨o, p1, t, p3, payload, flags⟩ ⟨o, p1', t, p3', payload, flags⟩) :
    Twin W v v ⟨⟨o, p1, 0, p3, payload, flags⟩, l⟩ ⟨⟨o, p1', 0, p3', payload, flags⟩, l⟩

theorem Draft.Twin.mono {W W' : Ties} {v u : Temps} {d d' : Draft} (h : Twin W v u d d') (hW : W.Le W') :
    Twin W' v u d d' := by
  cases h with
  | straight h =>
    have := h.or hW.links W'.mates
    rw [hW.or, hW.or] at this
    exact .straight this
  | branching l hcall h => exact .branching l hcall fun t => (h t).mono hW.links (·.imp_left hW.mates)

theorem Draft.Twin.label_eq {W : Ties} {v u : Temps} {d d' : Draft} (h : Twin W v u d d') : d'.label = d.label := by
  cases h <;> rfl

theorem RegisterPool.next_takeTemp (p : RegisterPool) : p.next ≤ p.takeTemp.2.next ∧ p.takeTemp.2.next ≤ p.next + 1 := by
  unfold takeTemp
  split <;> simp only [takeOne] <;> omega

namespace Builder

/-- Along the code of two programs: the temporaries `us` correspond when an address is reached from the one
before it, and of these the temporaries `vs` are still in use. -/
structure Traced (W : Ties) (us vs : Nat → Temps) (b b' : Builder) : Prop where
  size : b'.address = b.address
  drafts : ∀ a (d d' : Draft), b.drafts[a]? = some d → b'.drafts[a]? = some d' → d.Twin W (vs a) (us (a + 1)) d'
  used : ∀ a, ∀ x ∈ vs a, x ∈ us a
  start : vs 0 = []
  labels : ∀ l t, b.target? l = some t → ∃ a : Nat, t = a ∧ a ≤ b.address ∧ vs a = []
  bond : ∀ a ≤ b.address, (W.plus (us a)).Bond W.links
  below : ∀ a ≤ b.address, ∀ x ∈ us a, x.1 < b.pool.next ∧ x.2 < b'.pool.next

/-- The programs differ in their registers only. The temporaries `T` are held, and of these `V` are written. -/
structure Twin (W : Ties) (T V : Temps) (b b' : Builder) : Prop where
  code : ∃ us vs, vs b.address = V ∧ Traced W us vs b b'
  labels : b'.labels = b.labels
  cursors : b'.cursors = b.cursors
  valid : b.Valid ∧ b'.Valid
  held : ∀ {r r'}, W.plus T r r' ∨ W.links r r' → b.Holds r ∧ b'.Holds r'
  nodup : T.Nodup
  fresh : ∀ x ∈ T, ¬ W.mates x.1 x.2
  bond : (W.plus T).Bond W.links
  within : ∀ x ∈ V, W.plus T x.1 x.2
  fewer : b.pool.reuse = false ∧ b.pool.free = [] ∧ b'.pool.next ≤ b.pool.next

/-- The registers stand at the same place of the blocks of `n` registers that are handed out next. -/
def NewPair (n : Int) (b b' : Builder) (r r' : Int) : Prop :=
  b.pool.next ≤ r ∧ r < b.pool.next + n ∧ r' - b'.pool.next = r - b.pool.next

variable {W W' : Ties} {T V U : Temps} {b b' : Builder} {l : Label} {r r' : Int}

theorem twin_fresh (reuse : Bool) :
    Twin ⟨fun _ _ => False, fun _ _ => False⟩ [] [] (fresh false) (fresh reuse) where
  code := ⟨fun _ => [], fun _ => [], rfl, rfl, fun a d d' hd => by simp [fresh] at hd, fun _ _ h => h, rfl,
    fun l t h => by simp [fresh, target?] at h, fun _ _ => ⟨by simp [Ties.plus], by simp [Ties.plus], by simp [Ties.plus]⟩,
    nofun⟩
  labels := rfl
  cursors := rfl
  valid := ⟨valid_fresh _, valid_fresh _⟩
  held := by simp [Ties.plus]
  nodup := List.nodup_nil
  fresh := nofun
  bond := ⟨by simp [Ties.plus], by simp [Ties.plus], by simp [Ties.plus]⟩
  within := nofun
  fewer := ⟨rfl, rfl, Int.le_refl _⟩

namespace Twin

/-- Temporaries go out of use. -/
theorem weaken (h : Twin W T V b b') (hU : ∀ x ∈ U, x ∈ V) : Twin W T U b b' := by
  obtain ⟨us, vs, rfl, ht⟩ := h.code
  refine { h with within := fun x hx => h.within x (hU x hx), code := ⟨us, Function.update vs b.address U, ?_, ?_⟩ }
  · exact Function.update_self ..
  · have hle : ∀ a, ∀ x ∈ Function.update vs b.address U a, x ∈ vs a := by
      intro a x hx
      by_cases ha : a = b.address
      · subst ha
        rw [Function.update_self] at hx
        exact hU x hx
      · rwa [Function.update_of_ne ha] at hx
    have hnil : ∀ {a}, vs a = [] → Function.update vs b.address U a = [] := fun {a} ha =>
      List.eq_nil_iff_forall_not_mem.mpr fun x hx => by
        have := hle a x hx
        rw [ha] at this
        cases this
    refine { ht with
      drafts := fun a d d' hd hd' => ?_
      used := fun a x hx => ht.used a x (hle a x hx)
      start := hnil ht.start
      labels := fun l t hl => (ht.labels l t hl).imp fun a => And.imp_right (And.imp_right hnil) }
    have hne : a ≠ b.address := Nat.ne_of_lt (Array.getElem?_eq_some_iff.mp hd).1
    rw [Function.update_of_ne hne]
    exact ht.drafts a d d' hd hd'

/-- Drafts are appended. -/
theorem push {d d' : Draft} (h : Twin W T V b b') (hd : d.Twin W V U d') (hU : ∀ x ∈ U, W.plus T x.1 x.2) :
    Twin W T U { b with drafts := b.drafts.push d } { b' with drafts := b'.drafts.push d' } := by
  obtain ⟨us, vs, rfl, ht⟩ := h.code
  have hsize : ({ b with drafts := b.drafts.push d } : Builder).address = b.address + 1 := Array.size_push ..
  have hold : ∀ {a} (f : Nat → Temps), a ≤ b.address → Function.update f (b.address + 1) U a = f a := fun f ha =>
    Function.update_of_ne (by omega) ..
  refine { h with within := hU, code := ⟨Function.update us (b.address + 1) U, Function.update vs (b.address + 1) U, ?_, ?_⟩ }
  · rw [hsize, Function.update_self]
  · refine ⟨?_, fun a x x' hx hx' => ?_, fun a x hx => ?_, ?_, fun l t hl => ?_, fun a ha => ?_, fun a ha x hx => ?_⟩
    · simp only [address, Array.size_push]
      exact congrArg (· + 1) ht.size
    · rw [show ({ b with drafts := b.drafts.push d } : Builder).drafts = b.drafts.push d from rfl, Array.getElem?_push] at hx
      rw [show ({ b' with drafts := b'.drafts.push d' } : Builder).drafts = b'.drafts.push d' from rfl, Array.getElem?_push,
        show b'.drafts.size = b.drafts.size from ht.size] at hx'
      split at hx
      · rename_i ha
        rw [if_pos ha] at hx'
        obtain rfl := Option.some.inj hx
        obtain rfl := Option.some.inj hx'
        obtain rfl : a = b.address := ha
        rw [hold vs (Nat.le_refl _), Function.update_self]
        exact hd
      · rename_i ha
        rw [if_neg ha] at hx'
        have hlt : a < b.address := (Array.getElem?_eq_some_iff.mp hx).1
        rw [hold vs (Nat.le_of_lt hlt), hold us hlt]
        exact ht.drafts a x x' hx hx'
    · by_cases ha : a = b.address + 1
      · subst ha
        rwa [Function.update_self] at hx ⊢
      · rw [Function.update_of_ne ha] at hx ⊢
        exact ht.used a x hx
    · rw [hold vs (Nat.zero_le _)]
      exact ht.start
    · obtain ⟨a, rfl, hle, ha⟩ := ht.labels l t hl
      exact ⟨a, rfl, by omega, (hold vs hle).trans ha⟩
    · by_cases hlast : a = b.address + 1
      · rw [hlast, Function.update_self]
        exact h.bond.mono fun {r r'} hr => hr.elim .inl (hU (r, r'))
      · rw [Function.update_of_ne hlast]
        exact ht.bond a (by omega)
    · by_cases hlast : a = b.address + 1
      · rw [hlast, Function.update_self] at hx
        have := h.held (.inl (hU x hx))
        exact ⟨this.1.2.1, this.2.2.1⟩
      · rw [Function.update_of_ne hlast] at hx
        exact ht.below a (by omega) x hx

theorem newLabel (h : Twin W T V b b') : Twin W T V b.newLabel.2 b'.newLabel.2 := by
  obtain ⟨us, vs, rfl, ht⟩ := h.code
  have htarget : ∀ {l t}, b.newLabel.2.target? l = some t → b.target? l = some t := by
    intro l t hl
    simp only [target?, Builder.newLabel, Array.getElem?_push] at hl ⊢
    split at hl
    · cases hl
    · exact hl
  exact { h with
    labels := by simp only [Builder.newLabel, h.labels]
    code := ⟨us, vs, rfl, { ht with labels := fun l t hl => ht.labels l t (htarget hl) }⟩ }

/-- A label is bound where no temporary is in use. -/
theorem bindHere (h : Twin W T [] b b') (l : Label) : Twin W T [] (b.bindHere l) (b'.bindHere l) := by
  obtain ⟨us, vs, hnil, ht⟩ := h.code
  have hlabels : ∀ k t, (b.bindHere l).target? k = some t → ∃ a : Nat, t = a ∧ a ≤ b.address ∧ vs a = [] := by
    intro k t hk
    by_cases hkl : k = l
    · subst hkl
      have hlt : k < b.labels.size := labels_size_bindHere b k ▸ lt_of_target? hk
      rw [target?_bindHere hlt] at hk
      exact ⟨b.address, (Option.some.inj hk).symm, Nat.le_refl _, hnil⟩
    · refine ht.labels k t ?_
      simp only [target?, Builder.bindHere, bindTo] at hk ⊢
      rwa [Array.getElem?_setIfInBounds_ne (Ne.symm hkl)] at hk
  exact { h with
    labels := by simp only [Builder.bindHere, bindTo, h.labels, ht.size]
    code := ⟨us, vs, hnil, { ht with labels := hlabels }⟩ }

theorem newCursor (h : Twin W T V b b') : Twin W T V b.newCursor.2 b'.newCursor.2 := by
  obtain ⟨us, vs, hV, ht⟩ := h.code
  exact { h with code := ⟨us, vs, hV, { ht with }⟩, cursors := congrArg (· + 1) h.cursors }

/-- Registers are handed out or given back. -/
theorem pools (h : Twin W T V b b') {pool pool' : RegisterPool} {U : Temps} (hW : W.Le W') (hvalid : pool.Valid ∧ pool'.Valid)
    (hnext : b.pool.next ≤ pool.next ∧ b'.pool.next ≤ pool'.next)
    (hheld : ∀ {r r'}, W'.plus U r r' ∨ W'.links r r' → pool.Holds r ∧ pool'.Holds r')
    (hbond : ∀ {v : Temps}, (W.plus v).Bond W.links → (∀ x ∈ v, x.1 < b.pool.next ∧ x.2 < b'.pool.next) →
      (W'.plus v).Bond W'.links)
    (hnodup : U.Nodup) (hfresh : ∀ x ∈ U, ¬ W'.mates x.1 x.2) (hU : (W'.plus U).Bond W'.links) (hwithin : ∀ x ∈ V, W'.plus U x.1 x.2)
    (hfewer : pool.reuse = false ∧ pool.free = [] ∧ pool'.next ≤ pool.next) :
    Twin W' U V { b with pool } { b' with pool := pool' } := by
  obtain ⟨us, vs, hV, ht⟩ := h.code
  exact {
    code := ⟨us, vs, hV, { ht with
      drafts := fun a d d' hd hd' => (ht.drafts a d d' hd hd').mono hW
      bond := fun a ha => hbond (ht.bond a ha) (ht.below a ha)
      below := fun a ha x hx => ⟨Int.lt_of_lt_of_le (ht.below a ha x hx).1 hnext.1,
        Int.lt_of_lt_of_le (ht.below a ha x hx).2 hnext.2⟩ }⟩
    labels := h.labels
    cursors := h.cursors
    valid := hvalid
    held := hheld
    nodup := hnodup
    fresh := hfresh
    bond := hU
    within := hwithin
    fewer := hfewer }

/-- A temporary is handed out. -/
theorem temp (h : Twin W T V b b') : Twin W ((b.pool.takeTemp.1, b'.pool.takeTemp.1) :: T) V
    { b with pool := b.pool.takeTemp.2 } { b' with pool := b'.pool.takeTemp.2 } := by
  have ht := RegisterPool.takes_temp h.valid.1
  have ht' := RegisterPool.takes_temp h.valid.2
  have hnew := ht.new _ rfl
  have hnew' := ht'.new _ rfl
  generalize hr : b.pool.takeTemp.1 = r at *
  generalize hr' : b'.pool.takeTemp.1 = r' at *
  have hcases : ∀ {q q'}, W.plus ((r, r') :: T) q q' ∨ W.links q q' →
      (q = r ∧ q' = r') ∨ (q ≠ r ∧ q' ≠ r' ∧ (W.plus T q q' ∨ W.links q q')) := by
    intro q q' hq
    have hold : W.plus T q q' ∨ W.links q q' → q ≠ r ∧ q' ≠ r' ∧ (W.plus T q q' ∨ W.links q q') := fun hq =>
      ⟨fun heq => hnew (heq ▸ (h.held hq).1), fun heq => hnew' (heq ▸ (h.held hq).2), hq⟩
    rw [Ties.plus_cons, or_assoc] at hq
    exact hq.imp_right hold
  have hheld : ∀ {q q'}, W.plus ((r, r') :: T) q q' ∨ W.links q q' →
      b.pool.takeTemp.2.Holds q ∧ b'.pool.takeTemp.2.Holds q' := fun hq => by
    rw [ht.holds, ht'.holds]
    rcases hcases hq with ⟨rfl, rfl⟩ | ⟨-, -, hq⟩
    · exact ⟨.inr rfl, .inr rfl⟩
    · exact ⟨.inl (h.held hq).1, .inl (h.held hq).2⟩
  have hfresh : ¬ W.plus T r r' := fun hr => hnew (h.held (.inl hr)).1
  refine h.pools (.refl W) ⟨ht.valid, ht'.valid⟩ ⟨(RegisterPool.next_takeTemp _).1, (RegisterPool.next_takeTemp _).1⟩
    hheld (fun hv _ => hv) (List.nodup_cons.mpr ⟨fun hin => hfresh (.inr hin), h.nodup⟩)
    (List.forall_mem_cons.mpr ⟨fun hr => hfresh (.inl hr), h.fresh⟩) ⟨fun hq hs => ?_, fun hs => ?_, fun hq hs => ?_⟩
    (fun x hx => Ties.plus_cons.mpr (.inr (h.within x hx))) ?_
  · rcases hcases hq with ⟨rfl, rfl⟩ | ⟨hne, hne', hq⟩ <;> rcases hcases hs with ⟨rfl, rfl⟩ | ⟨hne, hne', hs⟩
    · simp
    · simp [hne.symm, hne'.symm]
    · simp [hne, hne']
    · exact h.bond.one hq hs
  · exact ⟨(hheld hs).1.1, (hheld hs).2.1⟩
  · rcases Ties.plus_cons.mp hq with ⟨rfl, rfl⟩ | hq
    · rintro rfl
      exact hnew (h.held (.inr hs)).1
    · exact h.bond.apart hq hs
  · obtain ⟨hreuse, hfree, hle⟩ := h.fewer
    have hone : b.pool.takeTemp = b.pool.takeOne := by
      unfold RegisterPool.takeTemp
      rw [hfree]
    have := (RegisterPool.next_takeTemp b'.pool).2
    rw [hone]
    exact ⟨hreuse, hfree, by simp only [RegisterPool.takeOne]; omega⟩

theorem giveBack (h : Twin W ((r, r') :: T) V b b') (hV : ∀ x ∈ V, W.plus T x.1 x.2) :
    Twin W T V { b with pool := b.pool.giveBack r } { b' with pool := b'.pool.giveBack r' } := by
  have hself := h.held (.inl (Ties.plus_cons.mpr (.inl ⟨rfl, rfl⟩)))
  have hold : ∀ {q q'}, W.plus T q q' ∨ W.links q q' → W.plus ((r, r') :: T) q q' ∨ W.links q q' := fun hq =>
    hq.imp_left fun hq => Ties.plus_cons.mpr (.inr hq)
  have hapart : ∀ {q q'}, W.plus T q q' ∨ W.links q q' → q ≠ r := by
    rintro q q' hq rfl
    have heq := (h.bond.one (hold hq) (.inl (Ties.plus_cons.mpr (.inl ⟨rfl, rfl⟩)))).mp rfl
    subst heq
    rcases hq with (hq | hq) | hq
    · exact h.fresh _ List.mem_cons_self hq
    · exact (List.nodup_cons.mp h.nodup).1 hq
    · exact h.bond.apart (Ties.plus_cons.mpr (.inl ⟨rfl, rfl⟩)) hq rfl
  have hnext : ∀ (p : RegisterPool) r, (p.giveBack r).next = p.next := fun p r => by
    unfold RegisterPool.giveBack
    split <;> rfl
  refine h.pools (.refl W) ⟨RegisterPool.valid_giveBack h.valid.1 hself.1, RegisterPool.valid_giveBack h.valid.2 hself.2⟩
    ⟨Int.le_of_eq (hnext ..).symm, Int.le_of_eq (hnext ..).symm⟩ (fun hq => ?_) (fun hv _ => hv)
    (List.nodup_cons.mp h.nodup).2 (fun x hx => h.fresh x (List.mem_cons_of_mem _ hx))
    (h.bond.mono fun hq => Ties.plus_cons.mpr (.inr hq)) hV ?_
  · have hne' := fun heq => hapart hq ((h.bond.one (hold hq) (.inl (Ties.plus_cons.mpr (.inl ⟨rfl, rfl⟩)))).mpr heq)
    exact ⟨RegisterPool.holds_giveBack (h.held (hold hq)).1 (hapart hq), RegisterPool.holds_giveBack (h.held (hold hq)).2 hne'⟩
  · have hsame : b.pool.giveBack r = b.pool := by
      simp [RegisterPool.giveBack, h.fewer.1]
    rw [hnext, hsame]
    exact h.fewer

/-- A block of registers that are never given back is handed out, to hold values or return addresses. -/
theorem block (h : Twin W [] [] b b') (n : Int) (hmates : ∀ {r r'}, W'.mates r r' → W.mates r r' ∨ NewPair n b b' r r')
    (hlinks : ∀ {r r'}, W'.links r r' → W.links r r' ∨ NewPair n b b' r r') (hW : W.Le W')
    (hapart : ∀ {q q' r r'}, W'.mates q q' → W'.links r r' → NewPair n b b' q q' → NewPair n b b' r r' → q ≠ r) :
    Twin W' [] [] { b with pool := (b.pool.takeBlock n).2 } { b' with pool := (b'.pool.takeBlock n).2 } := by
  have ht := RegisterPool.takes_block h.valid.1 n
  have ht' := RegisterPool.takes_block h.valid.2 n
  have hpos := h.valid.1.next_pos
  have hpos' := h.valid.2.next_pos
  -- What corresponded before is below the new registers.
  have hold : ∀ {v : Temps}, (∀ x ∈ v, x.1 < b.pool.next ∧ x.2 < b'.pool.next) → ∀ {q q'},
      W.plus v q q' ∨ W.links q q' → q < b.pool.next ∧ q' < b'.pool.next := by
    rintro v hv q q' ((hq | hq) | hq)
    · exact ⟨(h.held (.inl (.inl hq))).1.2.1, (h.held (.inl (.inl hq))).2.2.1⟩
    · exact hv _ hq
    · exact ⟨(h.held (.inr hq)).1.2.1, (h.held (.inr hq)).2.2.1⟩
  have hplus : ∀ {v q q'}, W'.plus v q q' → W.plus v q q' ∨ (W'.mates q q' ∧ NewPair n b b' q q') := fun hq =>
    hq.elim (fun hq => (hmates hq).imp .inl (⟨hq, ·⟩)) fun hq => .inl (.inr hq)
  have hcases : ∀ {v q q'}, W'.plus v q q' ∨ W'.links q q' → (W.plus v q q' ∨ W.links q q') ∨ NewPair n b b' q q' := by
    rintro v q q' (hq | hq)
    · exact (hplus hq).imp .inl And.right
    · exact (hlinks hq).imp_left .inr
  have hbond : ∀ {v : Temps}, (W.plus v).Bond W.links → (∀ x ∈ v, x.1 < b.pool.next ∧ x.2 < b'.pool.next) →
      (W'.plus v).Bond W'.links := by
    intro v hv hbelow
    refine ⟨fun {q q' r r'} hq hr => ?_, fun {r r'} hr => ?_, fun {q q' r r'} hq hr => ?_⟩
    · rcases hcases hq with hq | ⟨hle, hlt, heq⟩ <;> rcases hcases hr with hr | ⟨hle', hlt', heq'⟩
      · exact hv.one hq hr
      · have := hold hbelow hq
        omega
      · have := hold hbelow hr
        omega
      · omega
    · rcases hcases hr with hr | ⟨hle, hlt, heq⟩
      · exact hv.pos hr
      · omega
    · rcases hplus hq with hq | ⟨hmate, hnew⟩ <;> rcases hlinks hr with hlink | hnew'
      · exact hv.apart hq hlink
      · have := hold hbelow (.inl hq)
        have := hnew'.1
        omega
      · have := hold hbelow (.inr hlink)
        have := hnew.1
        omega
      · exact hapart hmate hr hnew hnew'
  refine h.pools hW ⟨ht.valid, ht'.valid⟩ ?_ (fun hq => ?_) hbond List.nodup_nil nofun (hbond h.bond nofun) nofun ?_
  · simp only [RegisterPool.takeBlock]
    omega
  · rw [ht.holds, ht'.holds]
    rcases hcases hq with hq | ⟨hle, hlt, heq⟩
    · exact ⟨.inl (h.held hq).1, .inl (h.held hq).2⟩
    · exact ⟨.inr ⟨hle, hlt⟩, .inr (by omega)⟩
  · obtain ⟨hreuse, hfree, hle⟩ := h.fewer
    exact ⟨hreuse, hfree, by simp only [RegisterPool.takeBlock]; omega⟩

end Twin

/-! ## Runs -/

/-- The values of registers that hold return addresses: no temporary is in use at such an address. -/
def Linked (vs : Nat → Temps) (b : Builder) (v : Value) : Prop :=
  v = .null ∨ ∃ a < b.address, vs (a + 1) = [] ∧ v = returnAddress a

/-- Where jumps lead: nowhere, or to where no temporary is in use. -/
def Landing (vs : Nat → Temps) (t : Int) : Prop := t < 0 ∨ ∃ n : Nat, t = n ∧ vs n = []

theorem Twin.target?_eq (h : Twin W T V b b') (l : Label) : b'.target? l = b.target? l := by
  rw [target?, target?, h.labels]

theorem Twin.shape_eq {v u : Temps} {d d' : Draft} (h : Twin W T V b b') (hd : d.Twin W v u d') :
    (b'.resolve d').shape = (b.resolve d).shape := by
  cases hd with
  | straight hi => exact hi.shape_eq
  | branching l hcall hi =>
    have htarget : l.bind b'.target? = l.bind b.target? := congrArg l.bind (funext h.target?_eq)
    simp only [resolve, htarget]
    split
    · exact (hi _).shape_eq
    · exact (hi 0).shape_eq

section

variable {us vs : Nat → Temps} {env env' : Environment} {pc : Nat} {d d' : Draft} {s s' : State}
  (h : Twin W [] [] b b') (ht : Traced W us vs b b') (hsize : b.address ≤ 2 ^ 63)

include ht

theorem Traced.drafts_pair (a : Nat) : (b.drafts[a]? = none ∧ b'.drafts[a]? = none) ∨
    ∃ d d', b.drafts[a]? = some d ∧ b'.drafts[a]? = some d' := by
  by_cases ha : a < b.address
  · have ha' : a < b'.address := by rwa [ht.size]
    exact .inr ⟨_, _, Array.getElem?_eq_getElem ha, Array.getElem?_eq_getElem ha'⟩
  · have ha' : ¬ a < b'.address := by rwa [ht.size]
    exact .inl ⟨Array.getElem?_eq_none (Nat.not_lt.mp ha), Array.getElem?_eq_none (Nat.not_lt.mp ha')⟩

theorem Traced.nil {a : Nat} (ha : us a = []) : vs a = [] :=
  List.eq_nil_iff_forall_not_mem.mpr fun x hx => by
    have := ht.used a x hx
    rw [ha] at this
    cases this

include hsize

theorem Traced.linked_target {v : Value} (hv : Linked vs b v) : Landing vs v.toInt64.toInt := by
  rcases hv with rfl | ⟨a, ha, hv, rfl⟩
  · exact .inr ⟨0, rfl, ht.start⟩
  · rcases Nat.lt_or_eq_of_le (Nat.le_trans ha hsize) with hlt | heq
    · exact .inr ⟨a + 1, toInt_returnAddress hlt, hv⟩
    · obtain rfl : a = 2 ^ 63 - 1 := by omega
      exact .inl (by decide)

include h

/-- **One step of twin programs**: it fails alike or goes the same way, and keeps what corresponds. -/
theorem Twin.execute_same (hd : b.drafts[pc]? = some d) (hd' : b'.drafts[pc]? = some d')
    (hs : Agree (Linked vs b) W.links (W.plus (vs pc)) s s') (hschema : env'.schema = env.schema)
    (hkeys : env'.foreignKeys = env.foreignKeys) :
    Same (Landing vs) (Agree (Linked vs b) W.links (W.plus (us (pc + 1))))
      (Agree (Linked vs b) W.links (W.plus (vs pc))) (execute env pc (b.resolve d) s) (execute env' pc (b'.resolve d') s') := by
  have hpc : pc < b.address := (Array.getElem?_eq_some_iff.mp hd).1
  have hbond : (W.plus (vs pc)).Bond W.links :=
    (ht.bond pc (Nat.le_of_lt hpc)).mono fun hr => Ties.plus_mono (ht.used pc) hr
  have hbond' := ht.bond (pc + 1) hpc
  have htwin := ht.drafts pc d d' hd hd'
  generalize hu : us (pc + 1) = u at htwin hbond' ⊢
  generalize hv : vs pc = v at htwin hbond hs ⊢
  cases htwin with
  | straight hi => exact Straight.same hi hs hbond hbond' (fun _ => ht.linked_target hsize) hschema hkeys
  | @branching l v o p1 p1' p3 p3' payload flags hcall hi =>
    have htarget : l.bind b'.target? = l.bind b.target? := congrArg l.bind (funext h.target?_eq)
    have hlinked : o = .gosub → Linked vs b (returnAddress pc) := fun ho =>
      .inr ⟨pc, hpc, ht.nil (hu.trans (hcall ho)), rfl⟩
    simp only [resolve, htarget]
    cases hl : l.bind b.target? with
    | none => exact Branching.same (hi 0) hs hbond (.inr ⟨0, rfl, ht.start⟩) hlinked
    | some t =>
      obtain ⟨l, -, hl⟩ := Option.bind_eq_some_iff.mp hl
      obtain ⟨a, ha, -, hnil⟩ := ht.labels l t hl
      exact Branching.same (hi t) hs hbond (.inr ⟨a, ha, hnil⟩) hlinked

/-- **Twin programs run alike**: with the same faults, rows, operations and trees. -/
theorem Twin.runFrom_eq (hcode : env.code = b.code) (hcode' : env'.code = b'.code)
    (hschema : env'.schema = env.schema) (hkeys : env'.foreignKeys = env.foreignKeys)
    (hlimit : env'.stepLimit = env.stepLimit) (fuel : Nat) : ∀ {pc : Nat} {s s' : State} {trace : Array Opcode},
      Agree (Linked vs b) W.links (W.plus (vs pc)) s s' → runFrom env' fuel pc s' trace = runFrom env fuel pc s trace := by
  have hend : env'.code.size = env.code.size := by
    rw [hcode, hcode', code_size, code_size, ht.size]
  have hget : ∀ a : Nat, env.code[a]? = b.drafts[a]?.map b.resolve ∧ env'.code[a]? = b'.drafts[a]?.map b'.resolve := by
    intro a
    rw [hcode, hcode']
    exact ⟨Array.getElem?_map, Array.getElem?_map⟩
  induction fuel with
  | zero =>
    intro pc s s' trace hs
    rcases ht.drafts_pair pc with ⟨hd, hd'⟩ | ⟨d, d', hd, hd'⟩
    all_goals
      rw [runFrom, runFrom, (hget pc).1, (hget pc).2, hd, hd']
      simp only [Option.map_none, Option.map_some, hs.rows, hs.store, hlimit]
  | succ fuel ih =>
    intro pc s s' trace hs
    rcases ht.drafts_pair pc with ⟨hd, hd'⟩ | ⟨d, d', hd, hd'⟩
    · rw [runFrom, runFrom, (hget pc).1, (hget pc).2, hd, hd']
      simp only [Option.map_none, hs.rows, hs.store]
    · have hop : (b'.resolve d').opcode = (b.resolve d).opcode := congrArg Shape.opcode (h.shape_eq (ht.drafts pc d d' hd hd'))
      have hsame := h.execute_same ht hsize hd hd' hs hschema hkeys
      rw [runFrom, runFrom, (hget pc).1, (hget pc).2, hd, hd']
      simp only [Option.map_some, hop, step]
      revert hsame
      rcases execute env pc (b.resolve d) s with f | ⟨flow, t⟩ <;>
        rcases execute env' pc (b'.resolve d') s' with f' | ⟨flow', t'⟩
      · rintro rfl
        simp only [hs.store]
      · exact False.elim
      · cases flow <;> exact False.elim
      · cases flow <;> cases flow' <;> try exact False.elim
        case next => exact fun hnext => ih (hnext.mono fun hr => Ties.plus_mono (ht.used _) hr)
        case halt =>
          intro hnext
          simp only [follow, hnext.rows, hnext.store]
        case jump t t' =>
          rintro ⟨rfl, hland, hjump⟩
          simp only [follow, hend]
          by_cases hbound : 0 ≤ t ∧ t ≤ env.code.size
          · obtain ⟨n, rfl, hn⟩ := hland.resolve_left (Int.not_lt.mpr hbound.1)
            simp only [if_pos hbound]
            refine ih ?_
            rw [Int.toNat_natCast, hn]
            exact hjump.mono fun hr => hr.imp_right fun hx => absurd hx List.not_mem_nil
          · simp only [if_neg hbound, hs.store]

end

end Builder

/-- The programs differ in their registers only, of which the second has no more, and do the same on every store:
they give the same rows and execute the same operations, or end with the same fault, and leave the same trees. -/
structure Program.Twin (p p' : Program) : Prop where
  shape : p'.code.map (·.shape) = p.code.map (·.shape)
  registers : p'.registers ≤ p.registers
  run : p.code.size ≤ 2 ^ 63 → ∀ schema foreignKeys stepLimit store,
    Machine.run ⟨p'.code, schema, foreignKeys, stepLimit⟩ store = Machine.run ⟨p.code, schema, foreignKeys, stepLimit⟩ store

/-- Both give the same error, or results as asked. -/
def Except.Both (R : α → β → Prop) : Except Error α → Except Error β → Prop
  | .error e, .error e' => e = e'
  | .ok a, .ok a' => R a a'
  | _, _ => False

namespace Builder

variable {W : Ties} {b b' : Builder}

theorem Twin.references_eq (h : Twin W [] [] b b') (l : Label) : b'.references l = b.references l := by
  obtain ⟨us, vs, -, ht⟩ := h.code
  have hlabels : b'.drafts.toList.map (·.label) = b.drafts.toList.map (·.label) := by
    refine List.ext_getElem? fun a => ?_
    rw [List.getElem?_map, List.getElem?_map, Array.getElem?_toList, Array.getElem?_toList]
    rcases ht.drafts_pair a with ⟨hd, hd'⟩ | ⟨d, d', hd, hd'⟩
    · rw [hd, hd']
    · rw [hd, hd']
      exact congrArg some (ht.drafts a d d' hd hd').label_eq
  have := congrArg (List.countP (· == some l)) hlabels
  rwa [List.countP_map, List.countP_map] at this

/-- Finished, the programs fail alike or are twins. -/
theorem Twin.finish (h : Twin W [] [] b b') : Except.Both Program.Twin b.finish b'.finish := by
  have hunbound : b'.unbound? = b.unbound? := by
    simp only [unbound?, h.target?_eq, h.references_eq, h.labels]
  rw [Builder.finish, Builder.finish, hunbound]
  cases b.unbound? with
  | some l => simp only [Except.Both, h.references_eq]
  | none =>
    obtain ⟨us, vs, -, ht⟩ := h.code
    refine ⟨?_, Int.sub_le_sub_right h.fewer.2.2 1, fun hsize schema foreignKeys stepLimit store => ?_⟩
    · refine Array.ext_getElem? fun a => ?_
      simp only [Array.getElem?_map]
      rcases ht.drafts_pair a with ⟨hd, hd'⟩ | ⟨d, d', hd, hd'⟩
      · rw [hd, hd']
        rfl
      · rw [hd, hd']
        exact congrArg some (h.shape_eq (ht.drafts a d d' hd hd'))
    · rw [Array.size_map] at hsize
      rw [Machine.run, Machine.run]
      refine h.runFrom_eq ht hsize ?_ ?_ ?_ ?_ ?_ stepLimit (.start _ _ (.inl rfl) store)
      all_goals rfl

end Builder

end QueryMachine
