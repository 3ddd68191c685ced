import Mathlib.Logic.Basic
import QueryMachine.Compile.Expression
import QueryMachine.Proofs.Program.Growth

/-!
# Rules that building steps obey

A building step appends instructions, makes labels and binds them, takes registers and gives them back, or fails.
What it may append and with which errors it may fail is up to rules; the rest is asked of every step. A step obeys
the rules as its parts do, so `Emit.Builds` is a class: what is known of a whole program is found by going through
its steps.

* `Rules` — the instructions that may be appended, and the errors that may be raised.
* `Builder.Extends` — what a step leaves of a builder, and what it adds to it.
* `Emit.Builds` — a step obeys rules; it binds the labels that it is given to bind.
* `Emit.Gives.grows` — every step only adds to a program.
-/

namespace QueryMachine

/-! ## Rules -/

/-- What the instructions of an operation do. -/
inductive Opcode.Role where
  /-- They go on to the next one. -/
  | inner
  /-- They may jump. -/
  | branch
  /-- They change the tree of a cursor. -/
  | change
  /-- They open, clear or make a tree. -/
  | tree
  /-- They give out a row. -/
  | row
  /-- They stop. -/
  | stop
deriving DecidableEq

@[reducible] def Opcode.role : Opcode → Role
  | .goto | .gosub | .initCoroutine | .init | .ifTrue | .ifNot | .ifPos | .decrJumpZero | .mustBeInt | .eq | .ne | .lt
  | .le | .gt | .ge | .isNull | .notNull | .rewind | .last | .next | .prev | .notExists | .found | .notFound
  | .sorterSort | .sorterNext | .rowSetRead => .branch
  | .insert | .delete | .idxInsert | .idxDelete => .change
  | .openRead | .openWrite | .clear | .createBtree => .tree
  | .resultRow => .row
  | .halt => .stop
  | _ => .inner

theorem Opcode.isJump_eq (o : Opcode) : o.isJump = (o.role == .branch) := by cases o <;> rfl

/-- The instruction goes on to the next one, and neither gives out a row nor touches a tree. -/
def Instruction.Straight (i : Instruction) : Prop :=
  i.jumpTarget? = none ∧ (i.opcode.role = .inner ∨ i.opcode.role = .branch)

theorem Instruction.straight_of_inner {i : Instruction} (h : i.opcode.role = .inner) : i.Straight := by
  refine ⟨?_, .inl h⟩
  rw [jumpTarget?, Opcode.isJump_eq, h]
  rfl

/-- What is asked of building steps. -/
structure Rules where
  /-- The instructions that may be appended. -/
  admits : Instruction → Prop
  /-- The cursors through which nothing is written. -/
  reads : Int → Prop
  /-- The errors that may be raised. -/
  raises : Error → Prop
  straight : ∀ {i : Instruction}, i.Straight → admits i
  reports : ∀ {e : Error}, (∀ detail, e ≠ .internal detail) → (∀ name, e ≠ .misuseOfAggregate name) → raises e

/-- Nothing is asked. -/
def Rules.lax : Rules := ⟨fun _ => True, fun _ => False, fun _ => True, fun _ => trivial, fun _ _ => trivial⟩

namespace Rules

/-- Any instruction may be appended. -/
class Lax (R : Rules) : Prop where
  lax : ∀ i, R.admits i

/-- Any error may be raised. -/
class Tolerant (R : Rules) : Prop where
  raises : ∀ e, R.raises e

instance : Lax lax := ⟨fun _ => trivial⟩

instance : Tolerant lax := ⟨fun _ => trivial⟩

/-- The condition holds, or internal errors may be raised. -/
class Fits (R : Rules) (P : Prop) : Prop where
  fits : P ∨ ∀ detail, R.raises (.internal detail)

/-- Every cursor may be written through. -/
class Free (R : Rules) : Prop where
  free : ∀ c, ¬ R.reads c

/-- The operation may change the tree of a cursor that may be written through. -/
class Changes (R : Rules) (o : Opcode) : Prop where
  changes : ∀ {c p2 p3 : Int} {payload : Payload} {flags : UInt8}, ¬ R.reads c → R.admits ⟨o, c, p2, p3, payload, flags⟩

/-- Trees may be changed through cursors that may be written through. -/
class Writes (R : Rules) : Prop where
  writes : ∀ {i : Instruction}, i.opcode.role = .change → ¬ R.reads i.p1 → R.admits i

/-- Any tree may be opened, cleared or made. -/
class Trees (R : Rules) : Prop where
  trees : ∀ {i : Instruction}, i.opcode.role = .tree → R.admits i

/-- Rows of a width may be given out. -/
class Rows (R : Rules) (width : Int) : Prop where
  rows : ∀ r, R.admits (.plain .resultRow r width 0)

/-- The label is one of those that are known, if that matters. -/
class Knows (R : Rules) (K : List Label) (l : Label) : Prop where
  knows : l ∈ K ∨ ∀ i, R.admits i

variable {R : Rules} {K : List Label} {k l : Label}

instance : R.Knows (l :: K) l := ⟨.inl List.mem_cons_self⟩

instance [h : R.Knows K l] : R.Knows (k :: K) l := ⟨h.knows.imp_left (List.mem_cons_of_mem k)⟩

instance (priority := low) [h : R.Lax] : R.Knows K l := ⟨.inr h.lax⟩

instance {P : Prop} [h : R.Tolerant] : R.Fits P := ⟨.inr fun _ => h.raises _⟩

theorem Fits.imp {P Q : Prop} (h : R.Fits P) (hpq : P → Q) : R.Fits Q := ⟨h.fits.imp_left hpq⟩

instance : Free lax := ⟨fun _ => id⟩

instance {c : Int} [h : R.Free] : Fact (¬ R.reads c) := ⟨h.free c⟩

instance [h : R.Lax] : R.Writes := ⟨fun _ _ => h.lax _⟩

instance {o : Opcode} [h : R.Lax] : R.Changes o := ⟨fun _ => h.lax _⟩

instance [h : R.Lax] : R.Trees := ⟨fun _ => h.lax _⟩

instance {width : Int} [h : R.Lax] : R.Rows width := ⟨fun _ => h.lax _⟩

instance {o : Opcode} [h : R.Writes] [ho : Fact (o.role = .change)] : R.Changes o :=
  ⟨fun {_ _ _ _ _} hc => h.writes ho.out hc⟩

end Rules

/-- The list without one of its elements. -/
class Drops {α : Type} (as : List α) (a : α) (rest : outParam (List α)) : Prop where
  perm : as.Perm (a :: rest)

instance {α : Type} {a : α} {as : List α} : Drops (a :: as) a as := ⟨.refl _⟩

instance (priority := low) {α : Type} {a x : α} {as rest : List α} [h : Drops as a rest] :
    Drops (x :: as) a (x :: rest) :=
  ⟨(h.perm.cons x).trans (.swap ..)⟩

/-! ## What a step does to a builder -/

/-- The draft is a jump to one of the first `known` labels, or an instruction that may be appended. -/
def Draft.Obeys (R : Rules) (known : Nat) (d : Draft) : Prop :=
  match d.label with
  | some l => l < known ∧ d.instruction.opcode.role = .branch
  | none => R.admits d.instruction

theorem Draft.Obeys.mono {R : Rules} {known known' : Nat} {d : Draft} (h : d.Obeys R known) (hle : known ≤ known') :
    d.Obeys R known' := by
  unfold Obeys at h ⊢
  split at h
  · exact ⟨Nat.lt_of_lt_of_le h.1 hle, h.2⟩
  · exact h

namespace Builder

/-- A step may begin: the labels `K` are known, if that matters, and the registers `G` are held. -/
structure Ready (R : Rules) (K : List Label) (G : List Int) (b : Builder) : Prop where
  valid : b.Valid
  known : ∀ l ∈ K, l < b.labels.size ∨ ∀ i, R.admits i
  held : ∀ r ∈ G, b.Holds r
  apart : G.Nodup
  fresh : ∀ c, b.cursors ≤ c → ¬ R.reads c

/-- From `b` to `b'` instructions were appended, the last of them `T`. All new labels and the labels `L` are bound,
and registers were given back at most from `G`. -/
structure Extends (R : Rules) (L : List Label) (G : List Int) (T : List Instruction) (b b' : Builder) : Prop where
  code : ∃ more, b'.drafts.toList = b.drafts.toList ++ (more ++ T.map (⟨·, none⟩)) ∧
    ∀ d ∈ more, d.Obeys R b'.labels.size
  labels : ∀ l < b.labels.size, l ∉ L → b'.labels[l]? = b.labels[l]?
  bound : ∀ l < b'.labels.size, b.labels.size ≤ l ∨ l ∈ L → ∃ a : Nat, b'.target? l = some (a : Int) ∧ a + T.length ≤ b'.address
  labels_le : b.labels.size ≤ b'.labels.size
  valid : b'.Valid
  holds : ∀ r, b.Holds r → r ∉ G → b'.Holds r
  cursors : b.cursors ≤ b'.cursors

variable {R : Rules} {K L L1 L2 : List Label} {G G1 G2 : List Int} {T : List Instruction} {b b1 b' : Builder}

/-- Before the first step no label is known and no register held. -/
theorem Valid.ready (hb : b.Valid) (hfresh : ∀ c, b.cursors ≤ c → ¬ R.reads c) : b.Ready R [] [] :=
  ⟨hb, List.forall_mem_nil _, List.forall_mem_nil _, List.nodup_nil, hfresh⟩

theorem Extends.trans (h : b.Extends R L1 G1 [] b1) (k : b1.Extends R L2 G2 T b')
    (hL : ∀ l, l ∈ L ↔ l ∈ L1 ∨ l ∈ L2) (hG : ∀ r, r ∈ G ↔ r ∈ G1 ∨ r ∈ G2) : b.Extends R L G T b' where
  code := by
    obtain ⟨more1, hcode1, hobeys1⟩ := h.code
    obtain ⟨more2, hcode2, hobeys2⟩ := k.code
    refine ⟨more1 ++ more2, by simp [hcode2, hcode1], fun d hd => ?_⟩
    exact (List.mem_append.mp hd).elim (fun hd => (hobeys1 d hd).mono k.labels_le) (hobeys2 d)
  labels l hl hnot := by
    rw [hL, not_or] at hnot
    exact (k.labels l (Nat.lt_of_lt_of_le hl h.labels_le) hnot.2).trans (h.labels l hl hnot.1)
  bound l hl hnew := by
    by_cases hlater : b1.labels.size ≤ l ∨ l ∈ L2
    · exact k.bound l hl hlater
    · rw [not_or, Nat.not_le] at hlater
      obtain ⟨a, ha, hle⟩ := h.bound l hlater.1 (hnew.imp_right fun hin => ((hL l).mp hin).resolve_right hlater.2)
      refine ⟨a, ?_, ?_⟩
      · rw [← ha, target?, target?, k.labels l hlater.1 hlater.2]
      · obtain ⟨more, hcode, -⟩ := k.code
        have := congrArg List.length hcode
        simp only [List.length_append, List.length_map, Array.length_toList] at this
        simp only [address, List.length_nil] at hle ⊢
        omega
  labels_le := Nat.le_trans h.labels_le k.labels_le
  valid := k.valid
  holds r hr hnot := by
    rw [hG, not_or] at hnot
    exact k.holds r (h.holds r hr hnot.1) hnot.2
  cursors := Int.le_trans h.cursors k.cursors

theorem Extends.grows (h : b.Extends R [] [] T b') : b.Grows b' where
  code := h.code.elim fun _ hmore => ⟨_, hmore.1.symm⟩
  labels l hl := h.labels l hl List.not_mem_nil
  labels_le := h.labels_le
  valid := h.valid
  holds r hr := h.holds r hr List.not_mem_nil
  cursors := h.cursors

/-- A step that leaves the labels alone. -/
theorem extends_of_labels (more : List Draft)
    (hcode : b'.drafts.toList = b.drafts.toList ++ (more ++ T.map (⟨·, none⟩)))
    (hmore : ∀ d ∈ more, d.Obeys R b.labels.size) (hlabels : b'.labels = b.labels) (hvalid : b'.Valid)
    (hholds : ∀ r, b.Holds r → r ∉ G → b'.Holds r) (hcursors : b.cursors ≤ b'.cursors) : b.Extends R [] G T b' where
  code := ⟨more, hcode, hlabels ▸ hmore⟩
  labels l _ _ := by rw [hlabels]
  bound l hl hnew := by
    rw [hlabels] at hl
    exact absurd (hnew.resolve_right List.not_mem_nil) (Nat.not_le_of_gt hl)
  labels_le := Nat.le_of_eq (by rw [hlabels])
  valid := hvalid
  holds := hholds
  cursors := hcursors

theorem extends_of_same (hdrafts : b'.drafts = b.drafts) (hlabels : b'.labels = b.labels) (hvalid : b'.Valid)
    (hholds : ∀ r, b.Holds r → r ∉ G → b'.Holds r) (hcursors : b.cursors ≤ b'.cursors) : b.Extends R [] G [] b' :=
  extends_of_labels [] (by rw [hdrafts]; exact (List.append_nil _).symm) (List.forall_mem_nil _) hlabels hvalid hholds
    hcursors

theorem Takes.extends {S : Int → Prop} (h : b.Takes S b') : b.Extends R [] [] [] b' :=
  extends_of_same h.drafts h.labels h.pool.valid (fun r hr _ => h.grows.holds r hr) (Int.le_of_eq h.cursors.symm)

theorem extends_push {d : Draft} (hb : b.Valid) (hd : d.Obeys R b.labels.size) :
    b.Extends R [] [] [] { b with drafts := b.drafts.push d } :=
  extends_of_labels [d] Array.toList_push (List.forall_mem_singleton.mpr hd) rfl hb (fun _ hr _ => hr) (Int.le_refl _)

end Builder

/-! ## Steps -/

namespace Emit

open Builder

/-- From a builder that is ready the step extends it, or fails with an error that may be raised. -/
class Builds {α : Type} (R : Rules) (K L : List Label) (G : List Int) (T : List Instruction) (m : Emit α) : Prop where
  gives : ∀ {b a b'}, m.Gives b a b' → b.Ready R K G → b.Extends R L G T b'
  fails : ∀ {b e}, m.Fails b e → b.Ready R K G → R.raises e

/-- A step that binds labels of its own only, and gives back registers of its own only. -/
abbrev Obeys {α : Type} (R : Rules) (K : List Label) (m : Emit α) : Prop := Builds R K [] [] [] m

/-- What is known of the result of a step. -/
class Yields {α : Type} (R : Rules) (m : Emit α) (Q : outParam (α → Prop)) : Prop where
  yields : ∀ {b a b'}, m.Gives b a b' → (∀ c, b.cursors ≤ c → ¬ R.reads c) → Q a

/-- **A step only adds to a program.** -/
theorem Gives.grows {α : Type} {m : Emit α} [h : Obeys .lax [] m] {b b' : Builder} {a : α} (hm : m.Gives b a b')
    (hb : b.Valid) : b.Grows b' :=
  (h.gives hm (hb.ready fun _ _ => id)).grows

variable {α β : Type} {R : Rules} {K L L1 L2 : List Label} {G G1 G2 : List Int} {T : List Instruction} {m : Emit α}
  {f : α → Emit β} {Q : α → Prop}

theorem Builds.andThen (hm : Builds R K L1 G1 [] m)
    (hf : ∀ {b a b'}, m.Gives b a b' → b.Ready R K G1 → Builds R K L2 G2 T (f a))
    (hL : ∀ l, l ∈ L ↔ l ∈ L1 ∨ l ∈ L2) (hG : G.Perm (G1 ++ G2)) : Builds R K L G T (m >>= f) := by
  have hfirst : ∀ {b : Builder}, b.Ready R K G → b.Ready R K G1 := fun h =>
    ⟨h.valid, h.known, fun r hr => h.held r (hG.mem_iff.mpr (List.mem_append_left _ hr)),
      (List.nodup_append.mp (hG.nodup_iff.mp h.apart)).1, h.fresh⟩
  have hrest : ∀ {b b1 : Builder}, b.Ready R K G → b.Extends R L1 G1 [] b1 → b1.Ready R K G2 := fun h k => by
    obtain ⟨-, hsecond, hdisjoint⟩ := List.nodup_append.mp (hG.nodup_iff.mp h.apart)
    refine ⟨k.valid, fun l hl => (h.known l hl).imp_left (Nat.lt_of_lt_of_le · k.labels_le), fun r hr => ?_, hsecond,
      fun c hc => h.fresh c (Int.le_trans k.cursors hc)⟩
    exact k.holds r (h.held r (hG.mem_iff.mpr (List.mem_append_right _ hr))) fun hin => hdisjoint r hin r hr rfl
  refine ⟨fun h hb => ?_, fun h hb => ?_⟩
  · obtain ⟨a, b1, hgives, h⟩ := gives_bind.mp h
    have hb1 := hm.gives hgives (hfirst hb)
    refine hb1.trans ((hf hgives (hfirst hb)).gives h (hrest hb hb1)) hL fun r => ?_
    rw [hG.mem_iff, List.mem_append]
  · rcases fails_bind.mp h with h | ⟨a, b1, hgives, h⟩
    · exact hm.fails h (hfirst hb)
    · exact (hf hgives (hfirst hb)).fails h (hrest hb (hm.gives hgives (hfirst hb)))

theorem Builds.bind_of (hm : Obeys R K m)
    (hf : ∀ {b a b'}, m.Gives b a b' → b.Ready R K [] → Builds R K L G T (f a)) : Builds R K L G T (m >>= f) :=
  hm.andThen hf (by simp) (.refl _)

theorem Builds.weaken {K' : List Label} (h : Builds R K L G T m) (hK : ∀ l ∈ K, R.Knows K' l) : Builds R K' L G T m := by
  have hready : ∀ {b : Builder}, b.Ready R K' G → b.Ready R K G := fun hb =>
    ⟨hb.valid, fun l hl => (hK l hl).knows.elim (hb.known l) .inr, hb.held, hb.apart, hb.fresh⟩
  exact ⟨fun hm hb => h.gives hm (hready hb), fun hm hb => h.fails hm (hready hb)⟩

theorem Builds.binding {l : Label} {rest : List Label} {n : Emit β} (hm : Builds R K [l] [] [] m)
    [hdrops : Drops L l rest] [hn : Builds R K rest G T n] : Builds R K L G T (m >>= fun _ => n) :=
  hm.andThen (fun _ _ => hn) (fun k => by rw [hdrops.perm.mem_iff]; simp) (.refl _)

instance [hq : Yields R m Q] [hm : Obeys R K m] [hf : ∀ a : Subtype Q, Builds R K L G T (f a.1)] :
    Builds R K L G T (m >>= f) :=
  hm.bind_of fun h hb => hf ⟨_, hq.yields h hb.fresh⟩

instance (priority := low) Builds.bind [hm : Obeys R K m] [hf : ∀ a, Builds R K L G T (f a)] :
    Builds R K L G T (m >>= f) :=
  hm.bind_of fun _ _ => hf _

instance (priority := 900) Builds.seq {n : Emit β} [Obeys R K m] [Builds R K L G T n] :
    Builds R K L G T (m >>= fun _ => n) := Builds.bind

instance {a : α} : Obeys R K (pure a : Emit α) where
  gives h hb := by
    obtain ⟨-, rfl⟩ := gives_pure.mp h
    exact extends_of_same rfl rfl hb.valid (fun _ hr _ => hr) (Int.le_refl _)
  fails := nofun

instance {c : Prop} [Decidable c] {m n : Emit α} [hm : Builds R K L G T m] [hn : Builds R K L G T n] :
    Builds R K L G T (if c then m else n) := by
  split
  · exact hm
  · exact hn

theorem builds_throw {e : Error} (h : R.raises e) : Builds R K L G T (throw e : Emit α) where
  gives h := (gives_throw h).elim
  fails := by
    rintro b e ⟨b', heq⟩ -
    cases heq
    exact h

instance {name : String} : Builds R K L G T (throw (.noSuchColumn name) : Emit α) := builds_throw (R.reports nofun nofun)

instance {operator : String} : Builds R K L G T (throw (.compoundArity operator) : Emit α) :=
  builds_throw (R.reports nofun nofun)

theorem obeys_of_fits {c : Prop} [Decidable c] {m : Emit α} {detail : String} [h : R.Fits c] [hm : Obeys R K m] :
    Obeys R K (if c then m else throw (.internal detail)) := by
  split
  · exact hm
  · rename_i hc
    exact builds_throw (h.fits.resolve_left hc detail)

instance {n : Nat} [R.Fits (n < 0x80000000)] : Obeys R K (operand n) := obeys_of_fits

theorem gives_check {r : Except Error α} {a : α} {b b' : Builder} : (check r).Gives b a b' ↔ r = .ok a ∧ b' = b := by
  cases r with
  | ok v =>
    show (pure v : Emit α).Gives b a b' ↔ _
    rw [gives_pure, Except.ok.injEq, eq_comm]
  | error e => exact ⟨fun h => (gives_throw h).elim, fun h => by cases h.1⟩

instance {x : Except Error α} : Yields R (check x) fun a => x = .ok a := ⟨fun h _ => (gives_check.mp h).1⟩

theorem obeys_check {x : Except Error α} (h : ∀ e, x = .error e → R.raises e) : Obeys R K (check x) := by
  cases x with
  | ok a => exact inferInstanceAs (Obeys R K (pure a))
  | error e => exact builds_throw (h e rfl)

instance [h : R.Tolerant] {x : Except Error α} : Obeys R K (check x) := obeys_check fun e _ => h.raises e

theorem obeys_modifyGet {g : Builder → α × Builder} (h : ∀ b : Builder, b.Ready R K [] → b.Extends R [] [] [] (g b).2) :
    Obeys R K (modifyGet g : Emit α) where
  gives hgives hb := (gives_modifyGet.mp hgives).2 ▸ h _ hb
  fails := nofun

instance : Obeys R K register where
  gives h hb := (takes_register h hb.valid).extends
  fails := nofun

instance {count : Int} : Obeys R K (registers count) where
  gives h hb := (takes_registers h hb.valid).extends
  fails := nofun

/-- A temporary register may be given back. -/
instance {f : Int → Emit β} [hf : ∀ r, Builds R K L (r :: G) T (f r)] : Builds R K L G T (temp >>= f) := by
  have hready : ∀ {b b1 : Builder} {r : Int}, b.Takes (· = r) b1 → b.Ready R K G → b1.Ready R K (r :: G) := fun htakes h =>
    ⟨htakes.pool.valid, fun l hl => (h.known l hl).imp_left (Nat.lt_of_lt_of_le · htakes.grows.labels_le),
      List.forall_mem_cons.mpr ⟨htakes.held rfl, fun q hq => htakes.grows.holds q (h.held q hq)⟩,
      List.nodup_cons.mpr ⟨fun hin => htakes.new rfl (h.held _ hin), h.apart⟩,
      fun c hc => h.fresh c (Int.le_trans htakes.grows.cursors hc)⟩
  refine ⟨fun h hb => ?_, fun h hb => ?_⟩
  · obtain ⟨r, b1, htemp, h⟩ := gives_bind.mp h
    have htakes := takes_temp htemp hb.valid
    have hext := htakes.extends.trans ((hf r).gives h (hready htakes hb)) (L := L) (G := r :: G) (by simp) (by simp)
    refine { hext with holds := fun q hq hnot => hext.holds q hq fun hin => ?_ }
    rcases List.mem_cons.mp hin with rfl | hin
    · exact htakes.new rfl hq
    · exact hnot hin
  · rcases fails_bind.mp h with ⟨_, h⟩ | ⟨r, b1, htemp, h⟩
    · cases h
    · exact (hf r).fails h (hready (takes_temp htemp hb.valid) hb)

instance builds_giveBack {r : Int} : Builds R K [] [r] [] (giveBack r) where
  gives h hb := by
    obtain rfl := gives_giveBack.mp h
    have hr := hb.held r (List.mem_singleton_self r)
    refine extends_of_same rfl rfl (RegisterPool.valid_giveBack hb.valid hr) (fun q hq hne => ?_) (Int.le_refl _)
    exact RegisterPool.holds_giveBack hq fun heq => hne (List.mem_singleton.mpr heq)
  fails := nofun

instance {r : Int} {rest : List Int} {n : Emit β} [hdrops : Drops G r rest] [hn : Builds R K L rest T n] :
    Builds R K L G T (giveBack r >>= fun _ => n) :=
  builds_giveBack.andThen (fun _ _ => hn) (by simp) hdrops.perm

/-- A label is made, to be bound by what follows. -/
instance Builds.newLabel {f : Label → Emit β} [hf : ∀ l, Builds R (l :: K) (l :: L) G T (f l)] :
    Builds R K L G T (newLabel >>= f) := by
  have hready : ∀ {b : Builder}, b.Ready R K G → b.newLabel.2.Ready R (b.labels.size :: K) G := fun {b} h => by
    have hlt := lt_newLabel b
    exact ⟨h.valid, List.forall_mem_cons.mpr ⟨.inl hlt, fun l hl => (h.known l hl).imp_left (Nat.lt_trans · hlt)⟩, h.held,
      h.apart, h.fresh⟩
  refine ⟨fun h hb => ?_, fun h hb => ?_⟩
  · obtain ⟨_, _, hlabel, h⟩ := gives_bind.mp h
    obtain ⟨rfl, rfl⟩ := gives_newLabel.mp hlabel
    have hext := (hf _).gives h (hready hb)
    refine { hext with labels := fun l hl hnot => ?_, bound := fun l hl hnew => hext.bound l hl ?_,
                       labels_le := Nat.le_trans (Nat.le_of_lt (lt_newLabel _)) hext.labels_le }
    · rw [hext.labels l (Nat.lt_trans hl (lt_newLabel _))
        (fun hin => (List.mem_cons.mp hin).elim (Nat.ne_of_lt hl) hnot)]
      exact ((Grows.refl hb.valid).newLabel).labels l hl
    · rcases hnew with hle | hin
      · rw [labels_size_newLabel]
        rcases Nat.lt_or_eq_of_le hle with hlt | rfl
        · exact .inl hlt
        · exact .inr List.mem_cons_self
      · exact .inr (List.mem_cons_of_mem _ hin)
  · rcases fails_bind.mp h with ⟨_, h⟩ | ⟨_, _, hlabel, h⟩
    · cases h
    · obtain ⟨rfl, rfl⟩ := gives_newLabel.mp hlabel
      exact (hf _).fails h (hready hb)

instance builds_bindHere {l : Label} : Builds R K [l] [] [] (bindHere l) where
  gives {b _ _} h hb := by
    obtain rfl := gives_bindHere.mp h
    refine ⟨⟨[], (List.append_nil _).symm, List.forall_mem_nil _⟩, fun k hk hne => ?_, fun k hk hnew => ?_,
      Nat.le_of_eq (labels_size_bindHere b l).symm, hb.valid, fun _ hr _ => hr, Int.le_refl _⟩
    · simp only [Builder.bindHere, bindTo]
      exact Array.getElem?_setIfInBounds_ne fun heq => hne (List.mem_singleton.mpr heq.symm)
    · rw [labels_size_bindHere] at hk
      obtain rfl := List.mem_singleton.mp (hnew.resolve_left (Nat.not_le_of_gt hk))
      exact ⟨b.address, target?_bindHere hk, Nat.le_refl _⟩
  fails := nofun

instance {l : Label} {rest : List Label} {n : Emit β} [Drops L l rest] [Builds R K rest G T n] :
    Builds R K L G T (bindHere l >>= fun _ => n) :=
  builds_bindHere.binding

/-- A label is made that is bound already. -/
instance {f : Label → Emit β} [∀ l, Builds R (l :: K) L G T (f l)] : Builds R K L G T (labelHere >>= f) := by
  have hlabel : labelHere >>= f = newLabel >>= fun l => bindHere l >>= fun _ => f l := rfl
  rw [hlabel]
  infer_instance

instance : Obeys R K newCursor :=
  obeys_modifyGet fun _ hb => extends_of_same rfl rfl hb.valid (fun _ hr _ => hr) (Int.le_add_one (Int.le_refl _))

/-- A new cursor may be written through. -/
instance : Yields R newCursor fun c => ¬ R.reads c where
  yields h hb := by
    obtain ⟨rfl, -⟩ := gives_newCursor.mp h
    exact hb _ (Int.le_refl _)

instance (c : Subtype fun c => ¬ R.reads c) : Fact (¬ R.reads c.1) := ⟨c.2⟩

/-! ### Instructions -/

variable {o : Opcode} {p1 p2 p3 : Int} {payload : Payload} {flags : UInt8} {l : Label}

instance {x : Opcode.Role} : Fact (x = x) := ⟨rfl⟩

theorem obeys_opFlagged (h : R.admits ⟨o, p1, p2, p3, payload, flags⟩) : Obeys R K (opFlagged o p1 p2 p3 payload flags) :=
  obeys_modifyGet fun _ hb => extends_push hb.valid h

instance [ho : Fact (o.role = .inner)] : Obeys R K (opFlagged o p1 p2 p3 payload flags) :=
  obeys_opFlagged (R.straight (Instruction.straight_of_inner ho.out))

instance [h : R.Changes o] [hc : Fact (¬ R.reads p1)] : Obeys R K (opFlagged o p1 p2 p3 payload flags) :=
  obeys_opFlagged (h.changes hc.out)

instance [h : R.Trees] [ho : Fact (o.role = .tree)] : Obeys R K (opFlagged o p1 p2 p3 payload flags) :=
  obeys_opFlagged (h.trees ho.out)

instance [h : R.Rows p2] : Obeys R K (op .resultRow p1 p2 0) := obeys_opFlagged (h.rows p1)

/-- A value that must be an integer, with no jump where it is not. -/
instance : Obeys R K (op .mustBeInt p1 0 0) := obeys_opFlagged (R.straight ⟨rfl, .inr rfl⟩)

instance [h : Obeys R K (opFlagged o p1 p2 p3 payload 0)] : Obeys R K (opWith o p1 p2 p3 payload) := h

instance [h : Obeys R K (opFlagged o p1 p2 p3 .empty 0)] : Obeys R K (op o p1 p2 p3) := h

instance [ho : Fact (o.role = .branch)] [hl : R.Knows K l] : Obeys R K (jumpFlagged o p1 p3 l flags) := by
  refine obeys_modifyGet fun b hb => extends_push hb.valid ?_
  by_cases hlt : l < b.labels.size
  · simp only [if_pos hlt]
    exact ⟨hlt, ho.out⟩
  · simp only [if_neg hlt]
    exact hl.knows.elim (fun hin => (hb.known l hin).resolve_left hlt _) (· _)

instance [h : Obeys R K (jumpFlagged o p1 p3 l 0)] : Obeys R K (jump o p1 p3 l) := h

instance : Builds R K [] [] [.plain .halt 0 0 0] emitHalt where
  gives h hb := by
    obtain rfl := gives_op.mp h
    exact extends_of_labels [] Array.toList_push (List.forall_mem_nil _) rfl hb.valid (fun _ hr _ => hr)
      (Int.le_refl _)
  fails := nofun

/-- A program may end with a result. -/
instance {a : α} : Builds R K [] [] [.plain .halt 0 0 0] (emitHalt >>= fun _ => (pure a : Emit α)) where
  gives h hb := by
    obtain ⟨_, _, hhalt, h⟩ := gives_bind.mp h
    obtain ⟨-, rfl⟩ := gives_pure.mp h
    exact Builds.gives hhalt hb
  fails h _ := by
    obtain ⟨_, h⟩ | ⟨_, _, -, _, h⟩ := fails_bind.mp h <;> cases h

end Emit

end QueryMachine
