import QueryMachine.Compile.Expression
import QueryMachine.Proofs.Program.Twin

/-!
# Steps of two programs side by side

The same steps, with corresponding registers, are taken by two builders. They fail alike or give results that
correspond; the steps that follow may rely on that.

* `Emit.Meets` — what steps side by side give.
* `Emit.Twins`, `Emit.Keeps` — steps that make twins of twins, with and without new registers.
-/

namespace QueryMachine

/-! ## What corresponds -/

/-- More registers correspond. -/
structure Wider (W : Ties) where
  world : Ties
  le : W.Le world

/-- Results that correspond when more registers do. -/
structure Later {α : Type} (W : Ties) (Q : Ties → α → α → Prop) extends Wider W where
  left : α
  right : α
  rel : Q world left right

variable {α β : Type} {W : Ties}

/-- The results are the same. -/
abbrev Equal : Ties → α → α → Prop := fun _ a a' => a' = a

abbrev Mated : Ties → Int → Int → Prop := fun W r r' => W.mates r r'

abbrev Linking : Ties → Int → Int → Prop := fun W r r' => W.links r r'

/-- Blocks of registers. -/
abbrev Blocks (n : Int) : Ties → Int → Int → Prop := fun W r r' => W.mates.Block r r' n.toNat

/-- What corresponds still does when more registers correspond. -/
class Stable (Q : Ties → α → α → Prop) : Prop where
  mono : ∀ {W W' : Ties} {a a' : α}, W.Le W' → Q W a a' → Q W' a a'

class Tie (Q : Ties → α → α → Prop) (W : Ties) (a a' : α) : Prop where
  rel : Q W a a'

instance : Stable (@Equal α) := ⟨fun _ h => h⟩

instance : Stable Mated := ⟨fun hW h => hW.mates h⟩

instance : Stable Linking := ⟨fun hW h => hW.links h⟩

instance {n : Int} : Stable (Blocks n) := ⟨fun hW h => h.mono hW.mates⟩

instance {Q : Ties → α → α → Prop} (x : Later W Q) : Tie Q x.world x.left x.right := ⟨x.rel⟩

instance {Q : Ties → α → α → Prop} [hQ : Stable Q] (x : Wider W) {a a' : α} [h : Tie Q W a a'] : Tie Q x.world a a' :=
  ⟨hQ.mono x.le h.rel⟩

instance {a : α} : Tie Equal W a a := ⟨rfl⟩

instance {n : Nat} {r r' : Int} [h : Tie (Blocks (n + 1)) W r r'] : Tie Mated W (r + n) (r' + n) := ⟨h.rel n (by omega)⟩

namespace Emit

open Builder

/-! ## Steps side by side -/

/-- From builders that are as asked the steps fail alike, or give results and builders as asked. -/
def Meets (P : Builder → Builder → Prop) (m m' : Emit α) (K : α → α → Builder → Builder → Prop) : Prop :=
  ∀ b b', P b b' →
    match m b, m' b' with
    | .ok a c, .ok a' c' => K a a' c c'
    | .error e _, .error e' _ => e = e'
    | _, _ => False

variable {P : Builder → Builder → Prop} {K : α → α → Builder → Builder → Prop} {L : β → β → Builder → Builder → Prop}
  {m m' : Emit α} {f f' : α → Emit β}

theorem Meets.bind (hm : Meets P m m' K) (hf : ∀ a a', Meets (K a a') (f a) (f' a') L) : Meets P (m >>= f) (m' >>= f') L := by
  intro b b' h
  have := hm b b' h
  simp only [Bind.bind, EStateM.bind]
  revert this
  rcases m b with ⟨a, c⟩ | ⟨e, c⟩ <;> rcases m' b' with ⟨a', c'⟩ | ⟨e', c'⟩
  · exact hf a a' c c'
  · exact False.elim
  · exact False.elim
  · exact id

theorem Meets.imp {K' : α → α → Builder → Builder → Prop} (hm : Meets P m m' K) (hK : ∀ {a a' b b'}, K a a' b b' → K' a a' b b') :
    Meets P m m' K' := by
  intro b b' h
  have := hm b b' h
  revert this
  rcases m b with ⟨a, c⟩ | ⟨e, c⟩ <;> rcases m' b' with ⟨a', c'⟩ | ⟨e', c'⟩
  · exact hK
  · exact id
  · exact id
  · exact id

theorem Meets.of_modify {g g' : Builder → Builder} {K : Unit → Unit → Builder → Builder → Prop}
    (h : ∀ {b b'}, P b b' → K () () (g b) (g' b')) : Meets P (modify g) (modify g') K := fun _ _ => h

theorem Meets.of_modifyGet {g g' : Builder → α × Builder} (h : ∀ {b b'}, P b b' → K (g b).1 (g' b').1 (g b).2 (g' b').2) :
    Meets P (modifyGet g : Emit α) (modifyGet g' : Emit α) K := fun _ _ => h

/-- The steps make twins of twins, with the same result and no new registers. -/
class Keeps (W : Ties) (m m' : Emit α) : Prop where
  meets : Meets (Twin W [] []) m m' fun a a' b b' => a' = a ∧ Twin W [] [] b b'

/-- The steps make twins of twins, and their results correspond. -/
class Twins (W : Ties) (m m' : Emit α) (Q : Ties → α → α → Prop) : Prop where
  meets : Meets (Twin W [] []) m m' fun a a' b b' => ∃ x : Wider W, Q x.world a a' ∧ Twin x.world [] [] b b'

/-- How the results of steps correspond. -/
class Gets (W : Ties) (m m' : Emit α) (Q : outParam (Ties → α → α → Prop)) : Prop where
  twins : Twins W m m' Q

section

variable {Q : Ties → α → α → Prop} {R : Ties → β → β → Prop}

theorem Gets.bind (hm : Gets W m m' Q) (hf : ∀ (x : Wider W) {a a'}, Q x.world a a' → Twins x.world (f a) (f' a') R) :
    Twins W (m >>= f) (m' >>= f') R := by
  refine ⟨hm.twins.meets.bind fun a a' b b' => ?_⟩
  rintro ⟨x, hQ, hb⟩
  refine Meets.imp (hf x hQ).meets ?_ b b' hb
  rintro c c' b b' ⟨y, hR, hb⟩
  exact ⟨⟨y.world, x.le.trans y.le⟩, hR, hb⟩

theorem Keeps.bind (hm : Keeps W m m') (hf : ∀ a, Twins W (f a) (f' a) R) : Twins W (m >>= f) (m' >>= f') R := by
  refine ⟨hm.meets.bind fun a a' b b' => ?_⟩
  rintro ⟨rfl, hb⟩
  exact (hf _).meets b b' hb

instance (priority := low) [h : Keeps W m m'] : Twins W m m' Equal :=
  ⟨h.meets.imp fun ⟨ha, hb⟩ => ⟨⟨W, .refl W⟩, ha, hb⟩⟩

instance (priority := low) [h : Gets W m m' Q] : Twins W m m' Q := h.twins

instance {a a' : α} [h : Tie Q W a a'] : Twins W (pure a) (pure a') Q := ⟨fun _ _ hb => ⟨⟨W, .refl W⟩, h.rel, hb⟩⟩

instance {e : Error} : Twins W (throw e : Emit α) (throw e) Q := ⟨fun _ _ _ => rfl⟩

-- Where a result is not used, the search is told so: it would count the steps that follow twice.
instance {n n' : Emit β} [hm : Keeps W m m'] [hn : Twins W n n' R] : Twins W (m >>= fun _ => n) (m' >>= fun _ => n') R :=
  hm.bind fun _ => hn

instance (priority := 900) [hm : Keeps W m m'] [hf : ∀ a, Twins W (f a) (f' a) R] : Twins W (m >>= f) (m' >>= f') R :=
  hm.bind hf

instance (priority := 800) {n n' : Emit β} [hm : Gets W m m' Equal] [hn : ∀ x : Wider W, Twins x.world n n' R] :
    Twins W (m >>= fun _ => n) (m' >>= fun _ => n') R :=
  hm.bind fun x _ _ _ => hn x

instance (priority := 700) [hm : Gets W m m' Equal] [hf : ∀ (x : Wider W) a, Twins x.world (f a) (f' a) R] :
    Twins W (m >>= f) (m' >>= f') R :=
  hm.bind fun x a _ ha => ha ▸ hf x a

instance (priority := 600) [hm : Gets W m m' Q] [hf : ∀ x : Later W Q, Twins x.world (f x.left) (f' x.right) R] :
    Twins W (m >>= f) (m' >>= f') R :=
  hm.bind fun x a a' h => hf ⟨x, a, a', h⟩

instance {c : Prop} [Decidable c] {n n' : Emit α} [hm : Twins W m m' Q] [hn : Twins W n n' Q] :
    Twins W (if c then m else n) (if c then m' else n') Q := by
  split
  · exact hm
  · exact hn

end

/-! ## Steps without new registers -/

instance {a : α} : Keeps W (pure a) (pure a) := ⟨fun _ _ hb => ⟨rfl, hb⟩⟩

instance {e : Error} : Keeps W (throw e : Emit α) (throw e) := ⟨fun _ _ _ => rfl⟩

theorem Keeps.then (hm : Keeps W m m') (hf : ∀ a, Keeps W (f a) (f' a)) : Keeps W (m >>= f) (m' >>= f') := by
  refine ⟨hm.meets.bind fun a a' b b' => ?_⟩
  rintro ⟨rfl, hb⟩
  exact (hf _).meets b b' hb

instance {n n' : Emit β} [hm : Keeps W m m'] [hn : Keeps W n n'] : Keeps W (m >>= fun _ => n) (m' >>= fun _ => n') :=
  hm.then fun _ => hn

instance (priority := 900) [hm : Keeps W m m'] [hf : ∀ a, Keeps W (f a) (f' a)] : Keeps W (m >>= f) (m' >>= f') := hm.then hf

instance {c : Prop} [Decidable c] {n n' : Emit α} [hm : Keeps W m m'] [hn : Keeps W n n'] :
    Keeps W (if c then m else n) (if c then m' else n') := by
  split
  · exact hm
  · exact hn

instance {x : Except Error α} : Keeps W (check x) (check x) := by
  cases x <;> (unfold check; infer_instance)

instance {n : Nat} : Keeps W (operand n) (operand n) := by
  unfold operand
  infer_instance

instance : Keeps W newLabel newLabel :=
  ⟨.of_modifyGet fun hb => ⟨congrArg Array.size hb.labels, hb.newLabel⟩⟩

instance {l : Label} : Keeps W (bindHere l) (bindHere l) := ⟨.of_modify fun hb => ⟨rfl, hb.bindHere l⟩⟩

instance : Keeps W labelHere labelHere :=
  inferInstanceAs (Keeps W (newLabel >>= fun l => bindHere l >>= fun _ => pure l) (newLabel >>= fun l => bindHere l >>= fun _ => pure l))

instance : Keeps W newCursor newCursor := ⟨.of_modifyGet fun hb => ⟨hb.cursors, hb.newCursor⟩⟩

/-! ## Instructions -/

section

variable {o : Opcode} {p1 p2 p3 p1' p2' p3' p p' q q' r r' c n : Int} {l : Label} {payload : Payload} {flags : UInt8}

theorem keeps_op {i i' : Instruction} (h : Straight W.links (W.plus []) (W.plus []) i i') :
    Keeps W (modify (Builder.emit i) : Emit Unit) (modify (Builder.emit i')) :=
  ⟨.of_modify fun hb => ⟨rfl, hb.push (.straight h) nofun⟩⟩

theorem meets_jump {T V : Temps} (hcall : o = .gosub → V = [])
    (h : ∀ t, Branching W.links (W.plus V) ⟨o, p1, t, p3, .empty, flags⟩ ⟨o, p1', t, p3', .empty, flags⟩) :
    Meets (Twin W T V) (jumpFlagged o p1 p3 l flags) (jumpFlagged o p1' p3' l flags) fun _ _ => Twin W T V := by
  refine .of_modify fun {b b'} hb => ?_
  have := hb.push (.branching (if l < b.labels.size then some l else none) hcall h) hb.within
  simpa only [emitJump, hb.labels] using this

theorem keeps_jump (h : ∀ t, Branching W.links (W.plus []) ⟨o, p1, t, p3, .empty, flags⟩ ⟨o, p1', t, p3', .empty, flags⟩) :
    Keeps W (jumpFlagged o p1 p3 l flags) (jumpFlagged o p1' p3' l flags) :=
  ⟨(meets_jump (fun _ => rfl) h).imp (⟨rfl, ·⟩)⟩

theorem Tie.plus [h : Tie Mated W r r'] (T : Temps) : W.plus T r r' := .inl h.rel

theorem Tie.writes [h : Tie Mated W r r'] : (W.plus []).Writes (W.plus []) r r' := ⟨.inl h.rel, .inl⟩

theorem Tie.block [h : Tie (Blocks n) W r r'] (T : Temps) : (W.plus T).Block r r' n.toNat := Mates.Block.mono h.rel .inl

instance [h : Keeps W (opFlagged o p1 p2 p3 .empty 0) (opFlagged o p1' p2' p3' .empty 0)] :
    Keeps W (op o p1 p2 p3) (op o p1' p2' p3') := h

instance [h : Keeps W (opFlagged o p1 p2 p3 payload 0) (opFlagged o p1' p2' p3' payload 0)] :
    Keeps W (opWith o p1 p2 p3 payload) (opWith o p1' p2' p3' payload) := h

instance [h : Keeps W (jumpFlagged o p1 p3 l 0) (jumpFlagged o p1' p3' l 0)] :
    Keeps W (jump o p1 p3 l) (jump o p1' p3' l) := h

instance {x : Opcode.Form} : Fact (x = x) := ⟨rfl⟩

instance [ho : Fact (o.form = .plain)] : Keeps W (opFlagged o p1 p2 p3 payload flags) (opFlagged o p1 p2 p3 payload flags) :=
  keeps_op (.plain o ho.out)

instance [ho : Fact (o.form = .load)] [Tie Mated W r r'] :
    Keeps W (opFlagged o p1 r p3 payload flags) (opFlagged o p1 r' p3 payload flags) :=
  keeps_op (.load o ho.out Tie.writes)

instance [Tie Mated W r r'] : Keeps W (opFlagged .column p1 p2 r payload flags) (opFlagged .column p1 p2 r' payload flags) :=
  keeps_op (.field Tie.writes)

instance [ho : Fact (o.form = .take)] [Tie Mated W r r'] :
    Keeps W (opFlagged o p1 r p3 payload flags) (opFlagged o p1 r' p3 payload flags) :=
  keeps_op (.take o ho.out (Tie.plus []))

instance [Tie Mated W r r'] : Keeps W (opFlagged .mustBeInt r 0 p3 payload flags) (opFlagged .mustBeInt r' 0 p3 payload flags) :=
  keeps_op (.whole (Tie.plus []))

instance [Tie Mated W r r'] : Keeps W (opFlagged .aggFinal r p2 p3 payload flags) (opFlagged .aggFinal r' p2 p3 payload flags) :=
  keeps_op (.final (Tie.plus []))

instance [Tie Mated W q q'] [Tie Mated W r r'] :
    Keeps W (opFlagged .shallowCopy q r p3 payload flags) (opFlagged .shallowCopy q' r' p3 payload flags) :=
  keeps_op (.move (Tie.plus []) Tie.writes)

instance [Tie Mated W q q'] [Tie Mated W r r'] :
    Keeps W (opFlagged .insert p1 q r payload flags) (opFlagged .insert p1 q' r' payload flags) :=
  keeps_op (.store (Tie.plus []) (Tie.plus []))

instance [Tie (Blocks n) W q q'] [Tie Mated W r r'] :
    Keeps W (opFlagged .makeRecord q n r payload flags) (opFlagged .makeRecord q' n r' payload flags) :=
  keeps_op (.record (Tie.block []) Tie.writes)

instance [Tie (Blocks n) W q q'] : Keeps W (opFlagged .resultRow q n p3 payload flags) (opFlagged .resultRow q' n p3 payload flags) :=
  keeps_op (.row (Tie.block []))

instance [Tie Mated W r r'] : Keeps W (opFlagged .null p1 r 0 payload flags) (opFlagged .null p1 r' 0 payload flags) :=
  keeps_op (.null Tie.writes)

instance [ho : Fact (o.form = .tree)] : Keeps W (opFlagged o p1 p2 p3 payload 0) (opFlagged o p1 p2 p3 payload 0) :=
  keeps_op (.opened o ho.out rfl)

instance [ho : Fact (o.form = .branch)] : Keeps W (jumpFlagged o p1 p3 l flags) (jumpFlagged o p1 p3 l flags) :=
  keeps_jump fun _ => .plain o ho.out

instance [ho : Fact (o.form = .test)] [Tie Mated W r r'] : Keeps W (jumpFlagged o r p3 l flags) (jumpFlagged o r' p3 l flags) :=
  keeps_jump fun _ => .test o ho.out (Tie.plus [])

instance [ho : Fact (o.form = .count)] [Tie Mated W r r'] : Keeps W (jumpFlagged o r p3 l flags) (jumpFlagged o r' p3 l flags) :=
  keeps_jump fun _ => .count o ho.out (Tie.plus [])

instance [ho : Fact (o.form = .seek)] [Tie Mated W r r'] : Keeps W (jumpFlagged o p1 r l flags) (jumpFlagged o p1 r' l flags) :=
  keeps_jump fun _ => .seek o ho.out (Tie.plus [])

instance [Tie Mated W r r'] [Tie Mated W q q'] :
    Keeps W (jumpFlagged .rowSetRead r q l flags) (jumpFlagged .rowSetRead r' q' l flags) :=
  keeps_jump fun _ => .draw (Tie.plus []) (Tie.plus [])

instance [h : Tie Linking W r r'] : Keeps W (jumpFlagged .gosub r p3 l flags) (jumpFlagged .gosub r' p3 l flags) :=
  keeps_jump fun _ => .call h.rel

instance [h : Tie Linking W r r'] : Keeps W (opFlagged .ret r p2 p3 payload flags) (opFlagged .ret r' p2 p3 payload flags) :=
  keeps_op (.back h.rel)

end

/-! ## New registers -/

/-- Twins from which the registers from `r` and `r'` on are handed out next. -/
def From (W : Ties) (r r' : Int) (b b' : Builder) : Prop := Twin W [] [] b b' ∧ b.pool.next = r ∧ b'.pool.next = r'

theorem Meets.of_from (h : ∀ r r', Meets (From W r r') m m' K) : Meets (Twin W [] []) m m' K :=
  fun b b' hb => h _ _ b b' ⟨hb, rfl, rfl⟩

/-- A block of registers that hold values is handed out. -/
theorem Meets.registers {n r r' : Int} {f f' : Int → Emit β}
    (hf : ∀ x : Wider W, Blocks n x.world r r' → Meets (From x.world (r + max n 0) (r' + max n 0)) (f r) (f' r') L) :
    Meets (From W r r') (registers n >>= f) (Emit.registers n >>= f') L := by
  rintro b b' ⟨hb, rfl, rfl⟩
  let W' : Ties := ⟨fun q q' => W.mates q q' ∨ NewPair n b b' q q', W.links⟩
  have hW : W.Le W' := ⟨.inl, id⟩
  refine hf ⟨W', hW⟩ (fun k hk => .inr ?_) _ _ ⟨hb.block n id .inl hW ?_, rfl, rfl⟩
  · simp only [NewPair]
    omega
  · intro q q' r r' _ hlink _ hnew
    have := (hb.held (.inr hlink)).1.2.1
    have := hnew.1
    omega

/-- A step is taken that leaves the registers alone. -/
theorem Keeps.from {r r' : Int} (h : Keeps W m m') (hm : ∀ b, ∃ a c, m b = .ok a c ∧ c.pool = b.pool)
    (hm' : ∀ b, ∃ a c, m' b = .ok a c ∧ c.pool = b.pool) (hf : ∀ a, Meets (From W r r') (f a) (f' a) L) :
    Meets (From W r r') (m >>= f) (m' >>= f') L := by
  refine Meets.bind (fun b b' hb => ?_) (K := fun a a' b b' => a' = a ∧ From W r r' b b') fun a a' b b' hb => hb.1 ▸ hf a b b' hb.2
  have := h.meets b b' hb.1
  obtain ⟨a, c, heq, hpool⟩ := hm b
  obtain ⟨a', c', heq', hpool'⟩ := hm' b'
  rw [heq, heq'] at this ⊢
  exact ⟨this.1, this.2, hpool ▸ hb.2.1, hpool' ▸ hb.2.2⟩

instance {n : Int} : Gets W (registers n) (registers n) (Blocks n) where
  twins.meets := .of_from fun _ _ => .registers (f := pure) fun x hx _ _ hb => ⟨x, hx, hb.1⟩

instance : Gets W register register Mated where
  twins.meets := .of_from fun _ _ => .registers (n := 1) (f := pure) fun x hx _ _ hb => ⟨x, hx.head, hb.1⟩

/-- A register that holds return addresses. -/
theorem gets_link : Gets W register register Linking where
  twins.meets b b' hb := by
    let W' : Ties := ⟨W.mates, fun q q' => W.links q q' ∨ NewPair 1 b b' q q'⟩
    have hW : W.Le W' := ⟨id, .inl⟩
    refine ⟨⟨W', hW⟩, .inr ?_, hb.block 1 .inl id hW ?_⟩
    · simp only [NewPair]
      omega
    · intro q q' r r' hmate _ hnew _
      have := (hb.held (.inl (.inl hmate))).1.2.1
      have := hnew.1
      omega

end Emit

end QueryMachine
