import Mathlib.Logic.Function.Basic
import QueryMachine.Proofs.Machine.Frame
import QueryMachine.Proofs.Program.Growth

/-!
# Proof outlines

A proof outline gives each address of a program, and each label, an assertion about the states that
come there. It is made along with the program, one building step after the other, and then holds of
every run, also of one that a fault or the step limit cuts short.

* `Facts` — an assertion: what is known of the trees, of each cursor and of each register.
* `Contract` — what is asked of the runs: the faults they may end with, and what they keep.
* `Contract.Outlines` — the outline of a program under construction.
* `Contract.Outlines.op`, `jump`, `bindHere` — one building step.
* `Contract.Outlines.run` — what an outline says about a run.
-/

namespace QueryMachine

open Machine Emit

/-! ## Assertions -/

/-- What is known of a state. -/
structure Facts where
  store : Store → Prop
  cursor : Int → Store → Option Cursor → Prop
  register : Int → Value → Prop

namespace Facts

/-- The state is as known. -/
structure Holds (F : Facts) (s : State) : Prop where
  store : F.store s.store
  cursor : ∀ c, F.cursor c s.store (s.cursors.get? c)
  register : ∀ r, F.register r (s.get r)

/-- Nothing is known of the register. -/
def Free (F : Facts) (r : Int) : Prop := ∀ v, F.register r v

/-- Nothing is known of a register that is not held. -/
def Within (F : Facts) (b : Builder) : Prop := ∀ r, ¬ b.Holds r → F.Free r

/-- Whatever is as `F` says is as `G` says. -/
def Entails (F G : Facts) : Prop := ∀ s, F.Holds s → G.Holds s

/-- What is known of a cursor, replaced. -/
def put (F : Facts) (c : Int) (use : Store → Option Cursor → Prop) : Facts :=
  { F with cursor := Function.update F.cursor c use }

/-- What is known of a register, replaced. -/
def note (F : Facts) (r : Int) (P : Value → Prop) : Facts :=
  { F with register := Function.update F.register r P }

/-- The assertion that no state satisfies: the code is never reached. -/
def never : Facts := ⟨fun _ => False, fun _ _ _ => True, fun _ _ => True⟩

variable {F G H : Facts} {s s' : State} {b b' : Builder} {c r : Int} {use : Store → Option Cursor → Prop}
  {cursor : Cursor}

/-- The cursor is used as is known of it. -/
theorem Holds.used (h : F.Holds s) (hc : F.cursor c = use) : use s.store (s.cursors.get? c) := hc ▸ h.cursor c

theorem Entails.refl (F : Facts) : F.Entails F := fun _ h => h

theorem Entails.trans (h : F.Entails G) (k : G.Entails H) : F.Entails H := fun s hs => k s (h s hs)

theorem never_entails (F : Facts) : never.Entails F := fun _ h => h.store.elim

theorem within_never (b : Builder) : never.Within b := fun _ _ _ => trivial

theorem Within.mono (h : F.Within b) (hb : ∀ r, b.Holds r → b'.Holds r) : F.Within b' :=
  fun r hr => h r fun hold => hr (hb r hold)

@[simp]
theorem put_cursor_self (F : Facts) (c : Int) (use : Store → Option Cursor → Prop) :
    (F.put c use).cursor c = use := Function.update_self ..

@[simp]
theorem put_cursor_of_ne {d : Int} (h : d ≠ c) (F : Facts) (use : Store → Option Cursor → Prop) :
    (F.put c use).cursor d = F.cursor d := Function.update_of_ne h ..

@[simp]
theorem note_register_self (F : Facts) (r : Int) (P : Value → Prop) : (F.note r P).register r = P :=
  Function.update_self ..

theorem of_note (F : Facts) {r : Int} {P : Value → Prop} (v : Value) (h : (F.note r P).register r v) : P v := by
  rwa [note_register_self] at h

@[simp]
theorem note_register_of_ne {q : Int} (h : q ≠ r) (F : Facts) (P : Value → Prop) :
    (F.note r P).register q = F.register q := Function.update_of_ne h ..

theorem Free.note {q : Int} (hfree : F.Free q) (h : q ≠ r) (P : Value → Prop) : (F.note r P).Free q := by
  intro v
  rw [note_register_of_ne h]
  exact hfree v

theorem put_put (F : Facts) (c : Int) (use use' : Store → Option Cursor → Prop) :
    (F.put c use).put c use' = F.put c use' := by
  simp [put, Function.update_idem]

theorem put_comm {d : Int} (h : c ≠ d) (F : Facts) (use use' : Store → Option Cursor → Prop) :
    (F.put c use).put d use' = (F.put d use').put c use := by
  simp only [put]
  rw [Function.update_comm h]

theorem put_eq_self (h : F.cursor c = use) : F.put c use = F := by
  simp [put, ← h]

theorem Within.put (h : F.Within b) (c : Int) (use : Store → Option Cursor → Prop) : (F.put c use).Within b := h

theorem Within.note (h : F.Within b) (hr : b.Holds r) (P : Value → Prop) : (F.note r P).Within b := by
  intro q hq v
  have hne : q ≠ r := fun heq => hq (heq ▸ hr)
  exact (h q hq).note hne P v

theorem note_entails (hfree : F.Free r) (P : Value → Prop) : (F.note r P).Entails F := by
  intro s hs
  refine ⟨hs.store, hs.cursor, fun q => ?_⟩
  by_cases hq : q = r
  · exact hq ▸ hfree _
  · have := hs.register q
    rwa [note_register_of_ne hq] at this

/-- What is known of a cursor may be weakened. -/
theorem put_entails {use' : Store → Option Cursor → Prop}
    (h : ∀ st cursor, F.store st → use st cursor → use' st cursor) : (F.put c use).Entails (F.put c use') := by
  intro s hs
  refine ⟨hs.store, fun d => ?_, hs.register⟩
  by_cases hd : d = c
  · subst hd
    have := hs.cursor d
    rw [put_cursor_self] at this ⊢
    exact h _ _ hs.store this
  · have := hs.cursor d
    rw [put_cursor_of_ne hd] at this ⊢
    exact this

/-- Code that leaves the trees alone keeps what is known of what it does not touch. -/
theorem Holds.frame {R C : Int → Prop} (h : F.Holds s) (hf : Frame R C s s') (hR : ∀ r, ¬ R r → F.Free r)
    (hC : ∀ c, ¬ C c → F.cursor c s.store (s'.cursors.get? c)) : F.Holds s' := by
  refine ⟨?_, fun c => ?_, fun r => ?_⟩
  · rw [hf.store]
    exact h.store
  · rw [hf.store]
    by_cases hc : C c
    · rw [hf.cursors c hc]
      exact h.cursor c
    · exact hC c hc
  · by_cases hr : R r
    · rw [hf.get r hr]
      exact h.register r
    · exact hR r hr _

theorem Holds.set (h : F.Holds s) (hw : F.Within b) (hr : F.Free r) (v : Value) : F.Holds (s.set r v) := by
  refine h.frame (R := fun q => 0 < q ∧ q ≠ r) (C := fun _ => True)
    (Quiet.set s v fun q hq => hq).toFrame (fun q hq => ?_) fun c hc => absurd trivial hc
  by_cases heq : q = r
  · exact heq ▸ hr
  · exact hw q fun hold => hq ⟨hold.1, heq⟩

/-- A register is written, and what is known of it replaced. -/
theorem Holds.note {P : Value → Prop} {v : Value} (h : F.Holds s) (hw : F.Within b) (hv : P v) :
    (F.note r P).Holds (s.set r v) := by
  refine ⟨h.store, h.cursor, fun q => ?_⟩
  by_cases hq : q = r
  · subst hq
    rw [note_register_self, State.get_set_self]
    exact hv
  · rw [note_register_of_ne hq]
    by_cases hheld : b.Holds q
    · rw [State.get_set_of_ne _ _ hheld.1 hq]
      exact h.register q
    · exact hw q hheld _

/-- A cursor is changed, and what is known of it replaced. -/
theorem Holds.put {slots : Slots Cursor} (h : F.Holds s) (hself : use s.store (slots.get? c))
    (hother : ∀ d, d ≠ c → slots.get? d = s.cursors.get? d) :
    (F.put c use).Holds { s with cursors := slots } := by
  refine ⟨h.store, fun d => ?_, h.register⟩
  by_cases hd : d = c
  · subst hd
    rw [put_cursor_self]
    exact hself
  · rw [put_cursor_of_ne hd]
    show F.cursor d s.store (slots.get? d)
    rw [hother d hd]
    exact h.cursor d

theorem Holds.setCursor (h : F.Holds s) (hself : use s.store (some cursor)) :
    (F.put c use).Holds { s with cursors := s.cursors.set c cursor } := by
  refine h.put ?_ fun d hd => Slots.get?_set_of_ne _ _ hd
  rw [Slots.get?_set_self]
  exact hself

theorem Holds.resetCursor (h : (F.put c use).Holds s) (hself : F.cursor c s.store (some cursor)) :
    F.Holds { s with cursors := s.cursors.set c cursor } := by
  have hput := h.setCursor (c := c) hself
  rwa [put_put, put_eq_self rfl] at hput

theorem Holds.sameCursor (h : F.Holds s) (hself : F.cursor c s.store (some cursor)) :
    F.Holds { s with cursors := s.cursors.set c cursor } := by
  rw [← put_eq_self (F := F) (c := c) rfl] at h
  exact h.resetCursor hself

theorem Holds.eraseCursor (h : F.Holds s) (hself : F.cursor c s.store none) :
    F.Holds { s with cursors := s.cursors.erase c } := by
  rw [← put_eq_self (F := F) (c := c) rfl]
  refine h.put ?_ fun d hd => Slots.get?_erase_of_ne _ hd
  rw [Slots.get?_erase_self]
  exact hself

end Facts

/-! ## Outlines -/

/-- What is asked of the runs of a program. -/
structure Contract where
  env : Environment
  /-- How many addresses the program may have. -/
  span : Nat
  /-- What holds of the trees at every moment. -/
  Keeps : Store → Prop
  /-- The faults that may end a run. -/
  Admits : Fault → Prop
  /-- What holds where a run ends without a fault. -/
  Ends : State → Prop

/-- Assertions for the labels and addresses of a program. -/
structure Outline where
  label : Label → Facts
  code : Nat → Facts

namespace Contract

/-- What an instruction leaves is as asked: `next` where the following instruction comes next, `target`
where it jumps. -/
def Leaves (κ : Contract) (next : State → Prop) (target : Int → State → Prop) : Effect → Prop
  | .error f => κ.Admits f
  | .ok (.next, s) => next s
  | .ok (.jump t, s) => target t s
  | .ok (.halt, s) => κ.Ends s

/-- The instruction at an address keeps the outline. A jump to a label does so wherever the label comes
to stand. -/
def Covers (κ : Contract) (O : Outline) (a : Nat) (d : Draft) : Prop :=
  ∀ s, (O.code a).Holds s →
    match d.label with
    | some l => ∀ t, κ.Leaves (O.code (a + 1)).Holds (fun t' s' => t' = t ∧ (O.label l).Holds s')
        (execute κ.env a { d.instruction with p2 := t } s)
    | none => κ.Leaves (O.code (a + 1)).Holds
        (fun t s' => ∃ n : Nat, t = n ∧ n ≤ a ∧ (O.code n).Holds s')
        (execute κ.env a d.instruction s)

/-- The code written so far keeps the outline, which asserts `F` at the next address. Nothing is asked
beyond the span of the contract. -/
structure Outlines (κ : Contract) (O : Outline) (b : Builder) (F : Facts) : Prop where
  valid : b.Valid
  here : O.code b.address = F
  within : F.Within b
  code : ∀ a d, b.drafts[a]? = some d → (a < κ.span → κ.Covers O a d) ∧ ∀ l, d.label = some l → l < b.labels.size
  labels : ∀ l t, b.target? l = some t →
    ∃ n : Nat, t = n ∧ n ≤ b.address ∧ (O.label l).Entails (O.code n)
  keeps : ∀ a, a ≤ b.address → ∀ st, (O.code a).store st → κ.Keeps st

end Contract

namespace Outline

/-- The assertion at an address, replaced. -/
def put (O : Outline) (a : Nat) (F : Facts) : Outline := { O with code := Function.update O.code a F }

/-- The assertion of a label, replaced. -/
def mark (O : Outline) (l : Label) (G : Facts) : Outline :=
  { O with label := Function.update O.label l G }

/-- The label exists and has the given assertion. -/
def Marks (O : Outline) (b : Builder) (l : Label) (G : Facts) : Prop :=
  l < b.labels.size ∧ O.label l = G

/-- An outline goes on: assertions that were made stay, but for the one at the next address, which may
become weaker. -/
structure Grows (O : Outline) (b : Builder) (O' : Outline) (b' : Builder) : Prop where
  address_le : b.address ≤ b'.address
  labels_le : b.labels.size ≤ b'.labels.size
  cursors_le : b.cursors ≤ b'.cursors
  holds : ∀ r, b.Holds r → b'.Holds r
  label : ∀ l, l < b.labels.size → O'.label l = O.label l
  code : ∀ a, a < b.address → O'.code a = O.code a
  here : (O.code b.address).Entails (O'.code b.address)

variable {O O' O'' : Outline} {b b' b'' : Builder} {F G : Facts} {l : Label} {r : Int}

theorem put_code_self (O : Outline) (a : Nat) (F : Facts) : (O.put a F).code a = F :=
  Function.update_self ..

theorem put_code_of_ne (O : Outline) {a n : Nat} (h : n ≠ a) (F : Facts) : (O.put a F).code n = O.code n :=
  Function.update_of_ne h ..

theorem mark_label_self (O : Outline) (l : Label) (G : Facts) : (O.mark l G).label l = G :=
  Function.update_self ..

theorem mark_label_of_ne (O : Outline) {k : Label} (h : k ≠ l) (G : Facts) : (O.mark l G).label k = O.label k :=
  Function.update_of_ne h ..

namespace Grows

theorem refl (O : Outline) (b : Builder) : O.Grows b O b :=
  ⟨Nat.le_refl _, Nat.le_refl _, Int.le_refl _, fun _ h => h, fun _ _ => rfl, fun _ _ => rfl, .refl _⟩

theorem trans (h : O.Grows b O' b') (k : O'.Grows b' O'' b'') : O.Grows b O'' b'' where
  address_le := Nat.le_trans h.address_le k.address_le
  labels_le := Nat.le_trans h.labels_le k.labels_le
  cursors_le := Int.le_trans h.cursors_le k.cursors_le
  holds r hr := k.holds r (h.holds r hr)
  label l hl := (k.label l (Nat.lt_of_lt_of_le hl h.labels_le)).trans (h.label l hl)
  code a ha := (k.code a (Nat.lt_of_lt_of_le ha h.address_le)).trans (h.code a ha)
  here := by
    rcases Nat.lt_or_eq_of_le h.address_le with hlt | heq
    · rw [k.code _ hlt]
      exact h.here
    · exact h.here.trans (heq ▸ k.here)

theorem marks (h : O.Grows b O' b') (hl : O.Marks b l G) : O'.Marks b' l G :=
  ⟨Nat.lt_of_lt_of_le hl.1 h.labels_le, (h.label l hl.1).trans hl.2⟩

theorem within (h : O.Grows b O' b') (hF : F.Within b) : F.Within b' := hF.mono h.holds

theorem takes {R : Int → Prop} (h : b.Takes R b') (O : Outline) : O.Grows b O b' := by
  have hgrows := h.grows
  exact ⟨Nat.le_of_eq h.address.symm, hgrows.labels_le, hgrows.cursors, hgrows.holds, fun _ _ => rfl,
    fun _ _ => rfl, .refl _⟩

theorem giveBack (h : O.Grows b O' b') (hnew : ¬ b.Holds r) :
    O.Grows b O' { b' with pool := b'.pool.giveBack r } :=
  ⟨h.address_le, h.labels_le, h.cursors_le,
    fun q hq => RegisterPool.holds_giveBack (h.holds q hq) fun heq => hnew (heq ▸ hq), h.label, h.code,
    h.here⟩

theorem newCursor (O : Outline) (b : Builder) : O.Grows b O b.newCursor.2 :=
  ⟨Nat.le_refl _, Nat.le_refl _, by simp only [Builder.newCursor]; omega, fun _ h => h,
    fun _ _ => rfl, fun _ _ => rfl, .refl _⟩

end Grows

end Outline

namespace Contract

variable {κ : Contract} {O O' : Outline} {b b' b'' : Builder} {F F' G : Facts} {l : Label} {r : Int}

theorem Leaves.mono {next next' : State → Prop} {target target' : Int → State → Prop} {x : Effect}
    (h : κ.Leaves next target x) (hnext : ∀ s, next s → next' s)
    (htarget : ∀ t s, target t s → target' t s) : κ.Leaves next' target' x := by
  rcases x with f | ⟨_ | t | _, s⟩
  · exact h
  · exact hnext s h
  · exact htarget t s h
  · exact h

/-- Weaker assertions elsewhere keep an instruction covered. -/
theorem Covers.mono {a : Nat} {d : Draft} (h : κ.Covers O a d) (hself : O'.code a = O.code a)
    (hcode : ∀ n, n ≤ a + 1 → (O.code n).Entails (O'.code n))
    (hlabel : ∀ l, d.label = some l → (O.label l).Entails (O'.label l)) : κ.Covers O' a d := by
  intro s hs
  rw [hself] at hs
  have hleaves := h s hs
  cases hl : d.label with
  | some l =>
    simp only [hl] at hleaves ⊢
    refine fun t => (hleaves t).mono (hcode _ (Nat.le_refl _)) ?_
    rintro t' s' ⟨rfl, hs'⟩
    exact ⟨rfl, hlabel l hl s' hs'⟩
  | none =>
    simp only [hl] at hleaves ⊢
    refine hleaves.mono (hcode _ (Nat.le_refl _)) ?_
    rintro t s' ⟨n, rfl, hn, hs'⟩
    exact ⟨n, rfl, hn, hcode n (Nat.le_succ_of_le hn) s' hs'⟩

/-- From `b` the outline goes on to `b'` and asserts `F` there. -/
def Reaches (κ : Contract) (O : Outline) (b b' : Builder) (F : Facts) : Prop :=
  ∃ O', O.Grows b O' b' ∧ κ.Outlines O' b' F

namespace Outlines

/-! ## Building steps -/

section

variable (ho : κ.Outlines O b F)

include ho

/-- A draft is appended. -/
theorem push {d : Draft} (hw : F'.Within b) (hk : ∀ st, F'.store st → κ.Keeps st)
    (hx : b.address < κ.span → κ.Covers (O.put (b.address + 1) F') b.address d)
    (hd : ∀ l, d.label = some l → l < b.labels.size) :
    κ.Reaches O b { b with drafts := b.drafts.push d } F' := by
  have hsize : ({ b with drafts := b.drafts.push d } : Builder).address = b.address + 1 :=
    Array.size_push ..
  have hold : ∀ a, a ≤ b.address → (O.put (b.address + 1) F').code a = O.code a :=
    fun a ha => O.put_code_of_ne (by omega) F'
  refine ⟨O.put (b.address + 1) F', ?_, ?_⟩
  · refine ⟨?_, Nat.le_refl _, Int.le_refl _, fun _ h => h, fun _ _ => rfl,
      fun a ha => hold a (Nat.le_of_lt ha), ?_⟩
    · rw [hsize]
      exact Nat.le_succ _
    · rw [hold _ (Nat.le_refl _)]
      exact .refl _
  · refine ⟨ho.valid, ?_, hw, fun a d' hd' => ?_, fun l t hl => ?_, fun a ha st hst => ?_⟩
    · rw [hsize]
      exact O.put_code_self ..
    · rw [show ({ b with drafts := b.drafts.push d } : Builder).drafts = b.drafts.push d from rfl,
        Array.getElem?_push] at hd'
      split at hd'
      · rename_i ha
        obtain rfl := Option.some.inj hd'
        rw [ha]
        exact ⟨hx, hd⟩
      · have hlt : a < b.address := (Array.getElem?_eq_some_iff.mp hd').1
        refine ⟨fun ha => ((ho.code a d' hd').1 ha).mono (hold a (Nat.le_of_lt hlt)) (fun n hn => ?_)
          fun _ _ => .refl _, (ho.code a d' hd').2⟩
        rw [hold n (by omega)]
        exact .refl _
    · obtain ⟨n, rfl, hn, hentails⟩ := ho.labels l t hl
      refine ⟨n, rfl, ?_, ?_⟩
      · rw [hsize]
        exact Nat.le_succ_of_le hn
      · rw [hold n hn]
        exact hentails
    · by_cases hnew : a = b.address + 1
      · rw [hnew, O.put_code_self] at hst
        exact hk st hst
      · rw [hsize] at ha
        have hle : a ≤ b.address := by omega
        rw [hold a hle] at hst
        exact ho.keeps a hle st hst

/-- An instruction is appended, within the span of the contract. -/
theorem opBelow {i : Instruction} (hw : F'.Within b) (hk : ∀ st, F'.store st → κ.Keeps st)
    (hx : b.address < κ.span → ∀ s, F.Holds s → κ.Leaves F'.Holds
      (fun t s' => ∃ n : Nat, t = n ∧ n ≤ b.address ∧ (O.code n).Holds s')
      (execute κ.env b.address i s)) :
    κ.Reaches O b (b.emit i) F' := by
  refine ho.push hw hk (fun ha s hs => ?_) nofun
  rw [O.put_code_of_ne (by omega), ho.here] at hs
  refine (hx ha s hs).mono (fun s' hs' => ?_) ?_
  · rw [O.put_code_self]
    exact hs'
  · rintro t s' ⟨n, rfl, hn, hs'⟩
    refine ⟨n, rfl, hn, ?_⟩
    rw [O.put_code_of_ne (by omega)]
    exact hs'

/-- An instruction is appended. -/
theorem op {i : Instruction} (hw : F'.Within b) (hk : ∀ st, F'.store st → κ.Keeps st)
    (hx : ∀ s, F.Holds s → κ.Leaves F'.Holds
      (fun t s' => ∃ n : Nat, t = n ∧ n ≤ b.address ∧ (O.code n).Holds s')
      (execute κ.env b.address i s)) :
    κ.Reaches O b (b.emit i) F' :=
  ho.opBelow hw hk fun _ => hx

/-- A jump to a label is appended. -/
theorem jump {o : Opcode} {p1 p3 : Int} {payload : Payload} {flags : UInt8} (hl : O.Marks b l G)
    (hw : F'.Within b) (hk : ∀ st, F'.store st → κ.Keeps st)
    (hx : ∀ s, F.Holds s → ∀ t, κ.Leaves F'.Holds (fun t' s' => t' = t ∧ G.Holds s')
      (execute κ.env b.address ⟨o, p1, t, p3, payload, flags⟩ s)) :
    κ.Reaches O b (b.emitJump o p1 p3 l payload flags) F' := by
  have hdraft : b.emitJump o p1 p3 l payload flags =
      { b with drafts := b.drafts.push ⟨⟨o, p1, 0, p3, payload, flags⟩, some l⟩ } := by
    simp [Builder.emitJump, hl.1]
  rw [hdraft]
  refine ho.push hw hk (fun _ s hs t => ?_) fun k hk => Option.some.inj hk ▸ hl.1
  rw [O.put_code_of_ne (by omega), ho.here] at hs
  refine (hx s hs t).mono (fun s' hs' => ?_) ?_
  · rw [O.put_code_self]
    exact hs'
  · rintro t' s' ⟨rfl, hs'⟩
    exact ⟨rfl, hl.2 ▸ hs'⟩

/-- The assertion at the next address becomes weaker. -/
theorem weaken (hF : F.Entails F') (hw : F'.Within b) (hk : ∀ st, F'.store st → κ.Keeps st) : κ.Reaches O b b F' := by
  have hentails : ∀ n, (O.code n).Entails ((O.put b.address F').code n) := by
    intro n
    by_cases hn : n = b.address
    · rw [hn, O.put_code_self, ho.here]
      exact hF
    · rw [O.put_code_of_ne hn]
      exact .refl _
  refine ⟨O.put b.address F', ?_, ?_⟩
  · exact ⟨Nat.le_refl _, Nat.le_refl _, Int.le_refl _, fun _ h => h, fun _ _ => rfl,
      fun a ha => O.put_code_of_ne (Nat.ne_of_lt ha) F', hentails _⟩
  · refine ⟨ho.valid, O.put_code_self .., hw, fun a d hd => ?_, fun l t hl => ?_, fun a ha st hst => ?_⟩
    · have hlt : a < b.address := (Array.getElem?_eq_some_iff.mp hd).1
      exact ⟨fun ha => ((ho.code a d hd).1 ha).mono (O.put_code_of_ne (Nat.ne_of_lt hlt) F')
        (fun n _ => hentails n) fun _ _ => .refl _, (ho.code a d hd).2⟩
    · obtain ⟨n, rfl, hn, hlabel⟩ := ho.labels l t hl
      exact ⟨n, rfl, hn, hlabel.trans (hentails n)⟩
    · by_cases hb : a = b.address
      · rw [hb, O.put_code_self] at hst
        exact hk st hst
      · rw [O.put_code_of_ne hb] at hst
        exact ho.keeps a ha st hst

/-- A label is made, with the assertion that is to hold wherever it will stand. -/
theorem newLabel (G : Facts) : ∃ O', O.Grows b O' b.newLabel.2 ∧ κ.Outlines O' b.newLabel.2 F ∧
      O'.Marks b.newLabel.2 b.labels.size G := by
  have hold : ∀ l, l < b.labels.size → (O.mark b.labels.size G).label l = O.label l :=
    fun l hl => O.mark_label_of_ne (Nat.ne_of_lt hl) G
  have htarget : ∀ l t, b.newLabel.2.target? l = some t → b.target? l = some t := by
    intro l t hl
    simp only [Builder.target?, Builder.newLabel, Array.getElem?_push] at hl ⊢
    split at hl
    · cases hl
    · exact hl
  refine ⟨O.mark b.labels.size G, ?_, ?_, Builder.lt_newLabel b, O.mark_label_self ..⟩
  · refine ⟨Nat.le_refl _, ?_, Int.le_refl _, fun _ h => h, hold, fun _ _ => rfl, .refl _⟩
    rw [Builder.labels_size_newLabel]
    exact Nat.le_succ _
  · refine ⟨ho.valid, ho.here, ho.within, fun a d hd => ?_, fun l t hl => ?_, ho.keeps⟩
    · obtain ⟨hcovers, hlt⟩ := ho.code a d hd
      refine ⟨fun ha => (hcovers ha).mono rfl (fun _ _ => .refl _) fun l hl => ?_, fun l hl => ?_⟩
      · rw [hold l (hlt l hl)]
        exact .refl _
      · rw [Builder.labels_size_newLabel]
        exact Nat.lt_succ_of_lt (hlt l hl)
    · have hl := htarget l t hl
      obtain ⟨n, rfl, hn, hlabel⟩ := ho.labels l t hl
      refine ⟨n, rfl, hn, ?_⟩
      rw [hold l (Builder.lt_of_target? hl)]
      exact hlabel

theorem label (h : Emit.newLabel.Gives b l b') (G : Facts) :
    ∃ O', O.Grows b O' b' ∧ κ.Outlines O' b' F ∧ O'.Marks b' l G := by
  obtain ⟨rfl, rfl⟩ := gives_newLabel.mp h
  exact ho.newLabel G

/-- A label is bound to the next address. -/
theorem bindHere (hl : O.Marks b l G) (hF : F.Entails G) (hw : G.Within b) (hk : ∀ st, G.store st → κ.Keeps st) :
    κ.Reaches O b (b.bindHere l) G := by
  obtain ⟨O', hgrows, ho'⟩ := ho.weaken hF hw hk
  have hsize : (b.bindHere l).labels.size = b.labels.size := Builder.labels_size_bindHere b l
  refine ⟨O', ⟨hgrows.address_le, Nat.le_of_eq hsize.symm, hgrows.cursors_le, hgrows.holds,
    hgrows.label, hgrows.code, hgrows.here⟩, ?_⟩
  refine ⟨ho'.valid, ho'.here, ho'.within, fun a d hd => ?_, fun k t hk => ?_, ho'.keeps⟩
  · rw [hsize]
    exact ho'.code a d hd
  · by_cases heq : k = l
    · subst heq
      rw [Builder.target?_bindHere hl.1] at hk
      refine ⟨b.address, (Option.some.inj hk).symm, Nat.le_refl _, ?_⟩
      rw [hgrows.label k hl.1, hl.2, ho'.here]
      exact .refl _
    · refine ho'.labels k t ?_
      simp only [Builder.target?, Builder.bindHere, Builder.bindTo] at hk ⊢
      rwa [Array.getElem?_setIfInBounds_ne (Ne.symm heq)] at hk

theorem labelHere : ∃ O', O.Grows b O' (b.newLabel.2.bindHere b.labels.size) ∧
      κ.Outlines O' (b.newLabel.2.bindHere b.labels.size) F ∧
      O'.Marks (b.newLabel.2.bindHere b.labels.size) b.labels.size F := by
  obtain ⟨O1, g1, ho1, hl⟩ := ho.newLabel F
  have hk : ∀ st, F.store st → κ.Keeps st := fun st hst =>
    ho.keeps b.address (Nat.le_refl _) st (by rw [ho.here]; exact hst)
  obtain ⟨O2, g2, ho2⟩ := ho1.bindHere hl (.refl F) ho1.within hk
  exact ⟨O2, g1.trans g2, ho2, g2.marks hl⟩

theorem keeps_here : ∀ st, F.store st → κ.Keeps st := fun st hst =>
  ho.keeps b.address (Nat.le_refl _) st (by rw [ho.here]; exact hst)

/-- Registers are handed out. -/
theorem takes {R : Int → Prop} (h : b.Takes R b') : κ.Outlines O b' F := by
  have htarget : ∀ l, b'.target? l = b.target? l := fun l => by simp only [Builder.target?, h.labels]
  refine ⟨h.grows.valid, ?_, ho.within.mono h.grows.holds, fun a d hd => ?_, fun l t hl => ?_, ?_⟩
  · rw [h.address]
    exact ho.here
  · rw [h.drafts] at hd
    rw [h.labels]
    exact ho.code a d hd
  · rw [htarget] at hl
    rw [h.address]
    exact ho.labels l t hl
  · rw [h.address]
    exact ho.keeps

theorem giveBack (hr : b.Holds r) (hfree : F.Free r) :
    κ.Outlines O { b with pool := b.pool.giveBack r } F := by
  refine ⟨RegisterPool.valid_giveBack ho.valid hr, ho.here, fun q hq => ?_, ho.code, ho.labels, ho.keeps⟩
  by_cases heq : q = r
  · exact heq ▸ hfree
  · exact ho.within q fun hheld => hq (RegisterPool.holds_giveBack hheld heq)

theorem newCursor : κ.Outlines O b.newCursor.2 F :=
  ⟨ho.valid, ho.here, ho.within, ho.code, ho.labels, ho.keeps⟩

theorem reaches : κ.Reaches O b b F := ⟨O, .refl O b, ho⟩

/-- Nothing is written. -/
theorem pure {α : Type} {x y : α} (h : (Pure.pure x : Emit α).Gives b y b') : κ.Reaches O b b' F := by
  obtain ⟨-, rfl⟩ := gives_pure.mp h
  exact ho.reaches

end

end Outlines

namespace Reaches

theorem bind (h : κ.Reaches O b b' F) (k : ∀ O', O.Grows b O' b' → κ.Outlines O' b' F →
    κ.Reaches O' b' b'' F') : κ.Reaches O b b'' F' := by
  obtain ⟨O', g, ho⟩ := h
  obtain ⟨O'', g', ho'⟩ := k O' g ho
  exact ⟨O'', g.trans g', ho'⟩

theorem weaken (h : κ.Reaches O b b' F) (hF : F.Entails F') (hw : F'.Within b')
    (hk : ∀ st, F'.store st → κ.Keeps st) : κ.Reaches O b b' F' :=
  h.bind fun _ _ ho => ho.weaken hF hw hk

theorem taking {R : Int → Prop} (h : κ.Reaches O b' b'' F) (ht : b.Takes R b') : κ.Reaches O b b'' F := by
  obtain ⟨O', g, ho⟩ := h
  exact ⟨O', (Outline.Grows.takes ht O).trans g, ho⟩

theorem borrowing (h : κ.Reaches O b' b'' F) (ht : b.Takes (· = r) b') (hfree : F.Free r) :
    κ.Reaches O b { b'' with pool := b''.pool.giveBack r } F := by
  obtain ⟨O', g, ho⟩ := h
  exact ⟨O', ((Outline.Grows.takes ht O).trans g).giveBack (ht.new rfl),
    ho.giveBack (g.holds r (ht.held rfl)) hfree⟩

end Reaches

/-! ## Runs -/

theorem outlines_fresh (reuse : Bool) (hw : F.Within (Builder.fresh reuse)) (hk : ∀ st, F.store st → κ.Keeps st) :
    κ.Outlines ⟨fun _ => F, fun _ => F⟩ (Builder.fresh reuse) F :=
  ⟨Builder.valid_fresh reuse, rfl, hw, fun a d hd => by simp [Builder.fresh] at hd,
    fun l t hl => by simp [Builder.fresh, Builder.target?] at hl, fun _ _ => hk⟩

section

variable (ho : κ.Outlines O b F) (hcode : κ.env.code = b.code) (hlong : b.address ≤ κ.span)
  (hbound : ∀ d ∈ b.drafts, ∀ l, d.label = some l → (b.target? l).isSome)

include ho hcode hlong hbound

/-- Every instruction of a finished program keeps the outline, and goes on within the program. -/
theorem Outlines.step {a : Nat} {i : Instruction} {s : State} (hi : κ.env.code[a]? = some i)
    (hs : (O.code a).Holds s) :
    match Machine.step κ.env a i s with
    | .error f => κ.Admits f
    | .ok (none, s') => κ.Ends s'
    | .ok (some n, s') => n ≤ b.address ∧ (O.code n).Holds s' := by
  rw [hcode, Builder.code, Array.getElem?_map] at hi
  obtain ⟨d, hd, rfl⟩ := Option.map_eq_some_iff.mp hi
  have hlt : a < b.address := (Array.getElem?_eq_some_iff.mp hd).1
  have hsize : κ.env.code.size = b.address := by rw [hcode, Builder.code_size]
  have hleaves : κ.Leaves (O.code (a + 1)).Holds (fun t s' => ∃ n : Nat, t = n ∧ n ≤ b.address ∧
      (O.code n).Holds s') (execute κ.env a (b.resolve d) s) := by
    have hcovers := (ho.code a d hd).1 (Nat.lt_of_lt_of_le hlt hlong) s hs
    cases hl : d.label with
    | none =>
      simp only [hl] at hcovers
      have hresolve : b.resolve d = d.instruction := by simp only [Builder.resolve, hl, Option.bind_none]
      rw [hresolve]
      refine hcovers.mono (fun _ h => h) ?_
      rintro t s' ⟨n, rfl, hn, hs'⟩
      exact ⟨n, rfl, Nat.le_trans hn (Nat.le_of_lt hlt), hs'⟩
    | some l =>
      simp only [hl] at hcovers
      obtain ⟨t, ht⟩ := Option.isSome_iff_exists.mp (hbound d (Array.mem_of_getElem? hd) l hl)
      obtain ⟨n, rfl, hn, hentails⟩ := ho.labels l t ht
      have hresolve : b.resolve d = { d.instruction with p2 := n } := by
        simp only [Builder.resolve, hl, Option.bind_some, ht]
      rw [hresolve]
      refine (hcovers n).mono (fun _ h => h) ?_
      rintro t s' ⟨rfl, hs'⟩
      exact ⟨n, rfl, hn, hentails s' hs'⟩
  rcases heffect : execute κ.env a (b.resolve d) s with f | ⟨_ | t | _, s'⟩
  · rw [heffect] at hleaves
    simp only [Machine.step, heffect]
    exact hleaves
  · rw [heffect] at hleaves
    simp only [Machine.step, heffect, follow]
    exact ⟨hlt, hleaves⟩
  · rw [heffect] at hleaves
    obtain ⟨n, rfl, hn, hs'⟩ := hleaves
    have hrange : (0 : Int) ≤ n ∧ (n : Int) ≤ κ.env.code.size := by omega
    simp only [Machine.step, heffect, follow, if_pos hrange, Int.toNat_natCast]
    exact ⟨hn, hs'⟩
  · rw [heffect] at hleaves
    simp only [Machine.step, heffect, follow]
    exact hleaves

/-- What the outline says of a run from some address. -/
theorem Outlines.runFrom (hends : ∀ s, F.Holds s → κ.Ends s) (fuel : Nat) :
    ∀ {a : Nat} {s : State} {trace : Array Opcode}, a ≤ b.address → (O.code a).Holds s →
      match runFrom κ.env fuel a s trace with
      | (.error f, st) => (κ.Admits f ∨ f = .stepLimit κ.env.stepLimit) ∧ κ.Keeps st
      | (.ok e, st) => ∃ s', κ.Ends s' ∧ e.rows = s'.rows ∧ st = s'.store := by
  have hoff : ∀ a, a ≤ b.address → κ.env.code[a]? = none → a = b.address := by
    intro a ha hnone
    have := Array.getElem?_eq_none_iff.mp hnone
    rw [hcode, Builder.code_size] at this
    omega
  induction fuel with
  | zero =>
    intro a s trace ha hs
    unfold Machine.runFrom
    cases hi : κ.env.code[a]? with
    | none =>
      rw [hoff a ha hi, ho.here] at hs
      exact ⟨s, hends s hs, rfl, rfl⟩
    | some i => exact ⟨.inr rfl, ho.keeps a ha _ hs.store⟩
  | succ fuel ih =>
    intro a s trace ha hs
    unfold Machine.runFrom
    cases hi : κ.env.code[a]? with
    | none =>
      rw [hoff a ha hi, ho.here] at hs
      exact ⟨s, hends s hs, rfl, rfl⟩
    | some i =>
      have hstep := ho.step hcode hlong hbound hi hs
      dsimp only
      rcases heq : Machine.step κ.env a i s with f | ⟨_ | n, s'⟩
      · rw [heq] at hstep
        exact ⟨.inl hstep, ho.keeps a ha _ hs.store⟩
      · rw [heq] at hstep
        exact ⟨s', hstep, rfl, rfl⟩
      · rw [heq] at hstep
        exact ih hstep.1 hstep.2

end

end Contract

end QueryMachine
