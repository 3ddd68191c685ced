import QueryMachine.Proofs.Compile.Expression
import QueryMachine.Proofs.Program.Outline

/-!
# Outlines of the code of expressions

The code of an expression writes its target and temporaries, so it keeps everything that is known of
the trees, the cursors and the other registers. It can fail only where a place that it reads cannot be
read.

* `Contract.Reads` — a place can be read, or its fault is admitted.
* `emitExpr_outlines`, `emitFilter_outlines` — the code of an expression and of a filter.
-/

namespace QueryMachine

open Machine Emit

variable {κ : Contract} {O : Outline} {b b' : Builder} {F F' G : Facts} {target : Int} {bindings : Bindings}

/-- A place can be read where `F` holds, or that it cannot is a fault that is admitted. -/
def Contract.Reads (κ : Contract) (F : Facts) (p : Place) : Prop :=
  ∀ s, F.Holds s → (∃ v, s.Shows p v) ∨ s.Hides κ.Admits p

namespace Contract.Outlines

variable {i : Instruction}

theorem writes (ho : κ.Outlines O b F) (hfree : F.Free target)
    (hx : ∀ s, F.Holds s → κ.Leaves (fun s' => ∃ v, s' = s.set target v) (fun _ _ => False)
      (execute κ.env b.address i s)) :
    κ.Reaches O b (b.emit i) F := by
  refine ho.op ho.within ho.keeps_here fun s hs => (hx s hs).mono ?_ fun _ _ h => h.elim
  rintro s' ⟨v, rfl⟩
  exact hs.set ho.within hfree v

theorem stores (ho : κ.Outlines O b F) (hfree : F.Free target) (hi : ∀ s, F.Holds s → ∃ v, Stores i s target v) :
    κ.Reaches O b (b.emit i) F := by
  refine ho.writes hfree fun s hs => ?_
  obtain ⟨v, hv⟩ := hi s hs
  rw [hv.runs]
  exact ⟨v, rfl⟩

theorem passes (ho : κ.Outlines O b F)
    (hx : ∀ s, F.Holds s → κ.Leaves (· = s) (fun _ _ => False) (execute κ.env b.address i s)) :
    κ.Reaches O b (b.emit i) F :=
  ho.op ho.within ho.keeps_here fun s hs => (hx s hs).mono (fun _ h => h ▸ hs) fun _ _ h => h.elim

theorem branches (ho : κ.Outlines O b F) {o : Opcode} {p1 p3 : Int} {l : Label} {flags : UInt8}
    (hl : O.Marks b l G) (hG : F.Entails G)
    (hx : ∀ s, F.Holds s → ∀ t, κ.Leaves (· = s) (fun t' s' => t' = t ∧ s' = s)
      (execute κ.env b.address ⟨o, p1, t, p3, .empty, flags⟩ s)) :
    κ.Reaches O b (b.emitJump o p1 p3 l .empty flags) F := by
  refine ho.jump hl ho.within ho.keeps_here fun s hs t => (hx s hs t).mono (fun _ h => h ▸ hs) ?_
  rintro t' s' ⟨rfl, rfl⟩
  exact ⟨rfl, hG _ hs⟩

theorem goto (ho : κ.Outlines O b F) {o : Opcode} {l : Label} (hl : O.Marks b l G) (hG : F.Entails G)
    (hx : ∀ s t, execute κ.env b.address ⟨o, 0, t, 0, .empty, 0⟩ s = .ok (.jump t, s)) :
    κ.Reaches O b (b.emitJump o 0 0 l .empty 0) .never := by
  refine ho.jump hl (Facts.within_never b) (fun _ h => h.elim) fun s hs t => ?_
  rw [hx]
  exact ⟨rfl, hG _ hs⟩

end Contract.Outlines

/-! ## Expressions -/

/-- The places that the code of an expression reads: not those inside of what is bound. -/
def Expr.needs (bindings : Bindings) (e : Resolved) : List Place :=
  if (bindings.register? e).isSome then []
  else
    match e with
    | .ref p => [p]
    | .binary _ left right => left.needs bindings ++ right.needs bindings
    | _ => []

theorem Expr.needs_sublist_places (bindings : Bindings) : ∀ e : Resolved, ∀ p ∈ e.needs bindings, p ∈ e.places
  | .ref q, p, hp => by
    unfold needs at hp
    split at hp
    · cases hp
    · exact hp
  | .lit _, p, hp => by
    unfold needs at hp
    split at hp <;> cases hp
  | .aggregate _ _, p, hp => by
    unfold needs at hp
    split at hp <;> cases hp
  | .binary _ left right, p, hp => by
    unfold needs at hp
    split at hp
    · cases hp
    · rcases List.mem_append.mp hp with hl | hr
      · exact List.mem_append_left _ (needs_sublist_places bindings left p hl)
      · exact List.mem_append_right _ (needs_sublist_places bindings right p hr)

theorem emitValue_outlines {v : Value} (h : (emitValue v target).Gives b () b')
    (ho : κ.Outlines O b F) (hpos : 0 < target) (hfree : F.Free target) : κ.Reaches O b b' F := by
  obtain ⟨i, rfl, hi⟩ := emitValue_stores h
  exact ho.stores hfree fun s _ => ⟨v, hi s (Int.le_of_lt hpos)⟩

/-- **The code of an expression keeps what is known**, where its places can be read. -/
theorem emitExpr_outlines {e : Resolved} :
    (emitExpr bindings e target).Gives b () b' → κ.Outlines O b F → 0 < target → F.Free target →
    (∀ p ∈ e.needs bindings, κ.Reads F p) → κ.Reaches O b b' F := by
  fun_induction emitExpr bindings e target generalizing b b' O with
  | case1 e target r hr =>
    intro h ho _ hfree _
    obtain rfl := gives_op.mp h
    exact ho.stores hfree fun s _ => ⟨s.get r, rfl, fun _ _ => rfl⟩
  | case2 target p hn =>
    intro h ho _ hfree hreads
    obtain ⟨i, rfl, hshows, hhides⟩ := emitPlace_stores h
    have hp : p ∈ Expr.needs bindings (.ref p) := by
      unfold Expr.needs
      rw [hn]
      exact List.mem_singleton_self p
    refine ho.writes hfree fun s hs => ?_
    rcases hreads p hp s hs with ⟨v, hv⟩ | hidden
    · rw [(hshows s v hv).runs]
      exact ⟨v, rfl⟩
    · obtain ⟨f, hf, hx⟩ := hhides _ s hidden κ.env b.address
      rw [hx]
      exact hf
  | case3 target v hn =>
    intro h ho hpos hfree _
    exact emitValue_outlines h ho hpos hfree
  | case4 target operator left right hn ihl ihr =>
    intro h ho _ hfree hreads
    simp only [gives_bind, gives_giveBack] at h
    obtain ⟨l, b1, hl, _, b2, hleft, r, b3, hr, _, b4, hright, _, b5, hop, _, b6, rfl, rfl⟩ := h
    have hneeds : Expr.needs bindings (.binary operator left right) =
        left.needs bindings ++ right.needs bindings := by
      rw [Expr.needs, hn]
      rfl
    rw [hneeds] at hreads
    have hl := takes_temp hl ho.valid
    have hlfree : F.Free l := ho.within l (hl.new rfl)
    refine .borrowing (.bind (ihl l hleft (ho.takes hl) (hl.held rfl).1 hlfree
      fun p hp => hreads p (List.mem_append_left _ hp)) fun O2 _ ho2 => ?_) hl hlfree
    have hr := takes_temp hr ho2.valid
    have hrfree : F.Free r := ho2.within r (hr.new rfl)
    refine .borrowing (.bind (ihr r hright (ho2.takes hr) (hr.held rfl).1 hrfree
      fun p hp => hreads p (List.mem_append_right _ hp)) fun O4 _ ho4 => ?_) hr hrfree
    obtain ⟨i, rfl, hi⟩ := emitOperator_stores hop
    exact ho4.stores hfree fun s _ => ⟨_, hi s⟩
  | case5 target func args hn =>
    intro h
    exact (gives_throw h).elim

/-- The code of expressions keeps what is known, where their places can be read. -/
theorem emitExprs_outlines {es : List Resolved} : (emitExprs bindings es target).Gives b () b' → κ.Outlines O b F →
    (∀ r, target ≤ r → r < target + es.length → 0 < r ∧ F.Free r) →
    (∀ e ∈ es, ∀ p ∈ e.needs bindings, κ.Reads F p) → κ.Reaches O b b' F := by
  induction es generalizing target b O with
  | nil => exact fun h ho _ _ => ho.pure h
  | cons e es ih =>
    intro h ho hblock hreads
    obtain ⟨_, b1, hexpr, hrest⟩ := gives_bind.mp h
    rw [List.length_cons] at hblock
    obtain ⟨hpos, hfree⟩ := hblock target (Int.le_refl _) (by omega)
    refine (emitExpr_outlines hexpr ho hpos hfree (hreads e List.mem_cons_self)).bind fun O1 _ ho1 => ?_
    exact ih hrest ho1 (fun r hle hlt => hblock r (by omega) (by omega))
      fun e he => hreads e (List.mem_cons_of_mem _ he)

/-! ## Filters -/

theorem jumpIf_leaves {condition : Bool} {t : Int} {s : State} :
    κ.Leaves (· = s) (fun t' s' => t' = t ∧ s' = s) (.ok (jumpIf condition t s)) := by
  cases condition
  · exact rfl
  · exact ⟨rfl, rfl⟩

theorem jumpOnTruth_leaves {wanted : Bool} {i : Instruction} {s : State} :
    κ.Leaves (· = s) (fun t s' => t = i.p2 ∧ s' = s) (.ok (jumpOnTruth wanted i s)) :=
  jumpIf_leaves

theorem emitTests_outlines {skip : Label} {es : List Resolved} :
    (emitTests bindings skip es).Gives b () b' → κ.Outlines O b F → O.Marks b skip G → F.Entails G →
    (∀ e ∈ es, ∀ p ∈ e.needs bindings, κ.Reads F p) → κ.Reaches O b b' F := by
  induction es generalizing b O with
  | nil => exact fun h ho _ _ _ => ho.pure h
  | cons e es ih =>
    intro h ho hskip hG hreads
    simp only [emitTests, gives_bind, gives_jump, gives_giveBack] at h
    obtain ⟨r, b1, hr, _, b2, hexpr, _, b3, rfl, _, b4, rfl, hrest⟩ := h
    have hr := takes_temp hr ho.valid
    have hfree : F.Free r := ho.within r (hr.new rfl)
    have htest : κ.Reaches O b1 (b2.emitJump .ifNot r 1 skip .empty 0) F :=
      (emitExpr_outlines hexpr (ho.takes hr) (hr.held rfl).1 hfree
        (hreads e List.mem_cons_self)).bind fun O2 g2 ho2 =>
          ho2.branches (g2.marks ((Outline.Grows.takes hr O).marks hskip)) hG
            fun s _ t => jumpOnTruth_leaves
    exact (htest.borrowing hr hfree).bind fun O4 g4 ho4 =>
      ih hrest ho4 (g4.marks hskip) hG fun e he => hreads e (List.mem_cons_of_mem _ he)

/-- **The code of a filter keeps what is known**, whether or not it jumps. -/
theorem emitFilter_outlines {skip : Label} {filter : Option Resolved}
    (h : (emitFilter bindings skip filter).Gives b () b') (ho : κ.Outlines O b F) (hskip : O.Marks b skip G)
    (hG : F.Entails G) (hreads : ∀ e, filter = some e → ∀ c ∈ e.conjuncts, ∀ p ∈ c.needs bindings, κ.Reads F p) :
    κ.Reaches O b b' F := by
  cases filter with
  | none => exact ho.pure h
  | some e => exact emitTests_outlines h ho hskip hG (hreads e rfl)

/-! ## Beginning, closing and end -/

theorem Contract.Outlines.close {k : Int} (ho : κ.Outlines O b F) (hclosed : ∀ st, F.cursor k st none) :
    κ.Reaches O b (b.emit (.plain .close k 0 0)) F :=
  ho.op ho.within ho.keeps_here fun _ hs => hs.eraseCursor (hclosed _)

theorem emitClose_outlines {cursors : List Int} : (emitClose cursors).Gives b () b' → κ.Outlines O b F →
    (∀ c ∈ cursors, ∀ st, F.cursor c st none) → κ.Reaches O b b' F := by
  induction cursors generalizing b O with
  | nil => exact fun h ho _ => ho.pure h
  | cons c cursors ih =>
    intro h ho hclosed
    obtain ⟨_, b1, hclose, hrest⟩ := gives_bind.mp h
    obtain rfl := gives_op.mp hclose
    exact (ho.close (hclosed c List.mem_cons_self)).bind fun O1 _ ho1 =>
      ih hrest ho1 fun d hd => hclosed d (List.mem_cons_of_mem _ hd)

theorem emitInit_outlines (h : emitInit.Gives b () b') (ho : κ.Outlines O b F) : κ.Reaches O b b' F := by
  simp only [emitInit, gives_bind, gives_newLabel, gives_jump, gives_bindHere] at h
  obtain ⟨start, b1, ⟨rfl, rfl⟩, _, b2, rfl, rfl⟩ := h
  obtain ⟨O1, g1, ho1, hl⟩ := ho.newLabel F
  obtain ⟨O2, g2, ho2⟩ := ho1.goto (o := .init) hl (.refl F) fun _ _ => rfl
  obtain ⟨O3, g3, ho3⟩ := ho2.bindHere (g2.marks hl) (Facts.never_entails F)
    (ho.within.mono fun r hr => hr) ho.keeps_here
  exact ⟨O3, (g1.trans g2).trans g3, ho3⟩

theorem emitHalt_outlines (h : emitHalt.Gives b () b') (ho : κ.Outlines O b F)
    (hends : ∀ s, F.Holds s → κ.Ends s) : κ.Reaches O b b' .never := by
  obtain rfl := gives_op.mp h
  exact ho.op (Facts.within_never b) (fun _ h => h.elim) fun s hs => hends s hs

end QueryMachine
