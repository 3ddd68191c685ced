import Mathlib.Data.List.Induction
import Mathlib.Data.List.Nodup
import QueryMachine.Proofs.Program.Growth

/-!
# Which registers are live

A sequence of calls to a pool, in which a call that gives a temporary back names the call it came from. Beside
the pool, a session keeps the answers and the registers that were handed out and not given back since. With
reuse, a register may be handed out again, but never while it is live; without, it is handed out once.

* `RegisterPool.Session` — a pool with the history of the calls to it.
* `RegisterPool.Fair` — only temporaries that were handed out are given back.
* `RegisterPool.Tracks` — the pool holds the live registers; one lemma for taking and one for giving back.
* `RegisterPool.registers_safe` — what every fair sequence of calls keeps.
-/

namespace QueryMachine.RegisterPool

/-- A call to a pool. What is given back is named by the position of the call that returned it. -/
inductive Call where
  | one
  | block (n : Int)
  | temp
  | free (source : Nat)
deriving DecidableEq, Repr

namespace Call

/-- The register that a call gives back, after the calls of a log. -/
def returned? (log : List (Call × Option Int)) : Call → Option Int
  | free source => log[source]?.bind Prod.snd
  | _ => none

def request (log : List (Call × Option Int)) : Call → Request
  | one => .one
  | block n => .block n
  | temp => .temp
  | free source => .giveBack ((returned? log (free source)).getD 0)

/-- How many registers a call asks for; a block of a negative size is empty. -/
def width : Call → Nat
  | one | temp => 1
  | block n => n.toNat
  | free _ => 0

/-- The registers that a call hands out with its answer. -/
def registers (c : Call) (answer : Option Int) : List Int :=
  answer.toList.flatMap fun first => (List.range c.width).map fun i : Nat => first + i

theorem mem_registers {c : Call} {first r : Int} : r ∈ c.registers (some first) ↔ first ≤ r ∧ r < first + c.width := by
  simp only [registers, Option.toList_some, List.flatMap_singleton, List.mem_map, List.mem_range]
  constructor
  · rintro ⟨i, hi, rfl⟩
    omega
  · rintro ⟨hle, hlt⟩
    exact ⟨(r - first).toNat, by omega, by omega⟩

theorem nodup_registers (c : Call) (answer : Option Int) : (c.registers answer).Nodup := by
  cases answer with
  | none => exact List.nodup_nil
  | some first =>
    simp only [registers, Option.toList_some, List.flatMap_singleton]
    exact List.nodup_range.map fun i j hij => by simpa using hij

end Call

/-- A pool, the calls so far with their answers, and the registers handed out and not given back since. -/
structure Session where
  pool : RegisterPool
  log : List (Call × Option Int)
  live : List Int
deriving DecidableEq, Repr

namespace Session

/-- What the next call returns. -/
def answer (s : Session) (c : Call) : Option Int := (s.pool.serve (c.request s.log)).1

def call (s : Session) (c : Call) : Session where
  pool := (s.pool.serve (c.request s.log)).2
  log := s.log ++ [(c, s.answer c)]
  live := (s.live.filter fun r => some r ≠ c.returned? s.log) ++ c.registers (s.answer c)

/-- All registers ever handed out. -/
def given (s : Session) : List Int := s.log.flatMap fun entry => entry.1.registers entry.2

theorem given_call (s : Session) (c : Call) : (s.call c).given = s.given ++ c.registers (s.answer c) := by
  simp [given, call]

end Session

/-- A fresh pool after some calls. -/
def session (reuse : Bool) (calls : List Call) : Session := calls.foldl Session.call ⟨fresh reuse, [], []⟩

/-- What is given back was returned by an earlier call for a temporary. -/
inductive Fair : List Call → Prop
  | nil : Fair []
  | take {calls : List Call} {c : Call} (h : Fair calls) (hc : ∀ source, c ≠ .free source) : Fair (calls ++ [c])
  | free {calls : List Call} {source : Nat} {r : Int} (h : Fair calls)
    (hsource : (session true calls).log[source]? = some (.temp, some r)) : Fair (calls ++ [.free source])

theorem session_append (reuse : Bool) (calls : List Call) (c : Call) :
    session reuse (calls ++ [c]) = (session reuse calls).call c := by
  simp [session]

/-! ## What one request does -/

section

variable {p : RegisterPool}

theorem reuse_serve (p : RegisterPool) (q : Request) : (p.serve q).2.reuse = p.reuse := by
  cases q with
  | temp => cases hfree : p.free <;> simp [serve, takeTemp, takeOne, hfree]
  | giveBack r => simp only [serve, giveBack]; split <;> rfl
  | _ => rfl

/-- A call raises the counter by no more than the registers it asks for. -/
theorem next_serve (p : RegisterPool) (c : Call) (log : List (Call × Option Int)) :
    p.next ≤ (p.serve (c.request log)).2.next ∧ (p.serve (c.request log)).2.next ≤ p.next + c.width := by
  cases c with
  | one => simp only [Call.request, Call.width, serve, takeOne]; omega
  | block n => simp only [Call.request, Call.width, serve, takeBlock]; omega
  | temp =>
    cases hfree : p.free with
    | nil => simp only [Call.request, Call.width, serve, takeTemp, takeOne, hfree]; omega
    | cons r free => simp only [Call.request, Call.width, serve, takeTemp, hfree]; omega
  | free source => simp only [Call.request, Call.width, serve, giveBack]; split <;> simp

theorem Takes.congr {p' : RegisterPool} {R R' : Int → Prop} (h : p.Takes R p') (hR : ∀ r, R' r ↔ R r) : p.Takes R' p' :=
  ⟨h.valid, fun r => (h.holds r).trans (or_congr_right (hR r).symm), fun r hr => h.new r ((hR r).mp hr)⟩

/-- A call that gives nothing back takes the registers it hands out. -/
theorem takes_serve (hp : p.Valid) {c : Call} (hc : ∀ source, c ≠ .free source) (log : List (Call × Option Int)) :
    p.Takes (· ∈ c.registers (p.serve (c.request log)).1) (p.serve (c.request log)).2 := by
  cases c with
  | one =>
    refine (takes_one hp).congr fun r => Call.mem_registers.trans ?_
    simp only [Call.width, takeOne]
    omega
  | block n =>
    refine (takes_block hp n).congr fun r => Call.mem_registers.trans ?_
    simp only [Call.width]
    omega
  | temp =>
    have hanswer : (p.serve (Call.request log .temp)).1 = some p.takeTemp.1 := rfl
    refine (takes_temp hp).congr fun r => ?_
    rw [hanswer, Call.mem_registers, Call.width]
    omega
  | free source => exact absurd rfl (hc source)

/-- Giving a register back that was handed out leaves the pool in order, also where it is free already. -/
theorem valid_giveBack_of_range (hp : p.Valid) {r : Int} (hr : 0 < r ∧ r < p.next) : (p.giveBack r).Valid := by
  by_cases hin : r ∈ p.free
  · have hsame : p.giveBack r = p := by simp [giveBack, hin]
    rw [hsame]
    exact hp
  · exact valid_giveBack hp ⟨hr.1, hr.2, hin⟩

theorem holds_giveBack_iff (hreuse : p.reuse = true) {r q : Int} : (p.giveBack r).Holds q ↔ p.Holds q ∧ q ≠ r := by
  have hfree : q ∈ (p.giveBack r).free ↔ q = r ∨ q ∈ p.free := by
    unfold giveBack
    split
    · exact List.mem_cons
    · next hin =>
      have hin : r ∈ p.free := by simpa [hreuse] using hin
      exact ⟨.inr, fun hq => hq.elim (fun hq => hq ▸ hin) id⟩
  have hnext : (p.giveBack r).next = p.next := by
    unfold giveBack
    split <;> rfl
  simp only [Holds, hfree, hnext, not_or]
  constructor
  · rintro ⟨hq, hlt, hne, hnot⟩
    exact ⟨⟨hq, hlt, hnot⟩, hne⟩
  · rintro ⟨⟨hq, hlt, hnot⟩, hne⟩
    exact ⟨hq, hlt, hne, hnot⟩

/-- Where nothing is kept for later, registers come from the counter. -/
theorem serve_of_empty (hreuse : p.reuse = false) (hfree : p.free = []) (c : Call) (log : List (Call × Option Int)) :
    (p.serve (c.request log)).2 = { p with next := p.next + c.width } ∧
      ∀ r ∈ c.registers (p.serve (c.request log)).1, p.next ≤ r ∧ r < p.next + c.width := by
  cases c with
  | one => exact ⟨rfl, fun r => Call.mem_registers.mp⟩
  | block n =>
    refine ⟨?_, fun r => Call.mem_registers.mp⟩
    simp [Call.request, Call.width, serve, takeBlock]
  | temp =>
    have hone : p.takeTemp = p.takeOne := by rw [takeTemp, hfree]
    simp only [Call.request, serve, hone]
    exact ⟨rfl, fun r => Call.mem_registers.mp⟩
  | free source =>
    refine ⟨?_, List.forall_mem_nil _⟩
    have hsame : p.giveBack ((Call.returned? log (.free source)).getD 0) = p := by simp [giveBack, hreuse]
    simp only [Call.request, serve, hsame, Call.width, Int.natCast_zero, Int.add_zero]

end

/-! ## With reuse -/

/-- The pool holds the registers that are live. -/
structure Tracks (s : Session) : Prop where
  reuse : s.pool.reuse = true
  valid : s.pool.Valid
  live : ∀ r, r ∈ s.live ↔ s.pool.Holds r
  range : ∀ r ∈ s.given, 0 < r ∧ r < s.pool.next

namespace Tracks

variable {s : Session} {c : Call}

theorem fresh (h : Tracks s) : ∀ r ∈ c.registers (s.answer c), r ∉ s.live := by
  intro r hr hlive
  by_cases hc : ∃ source, c = .free source
  · obtain ⟨source, rfl⟩ := hc
    cases hr
  · exact (takes_serve h.valid (not_exists.mp hc) s.log).new r hr ((h.live r).mp hlive)

theorem take (h : Tracks s) (hc : ∀ source, c ≠ .free source) : Tracks (s.call c) := by
  have htakes := takes_serve h.valid hc s.log
  have hkept : c.returned? s.log = none := by
    cases c with
    | free source => exact absurd rfl (hc source)
    | _ => rfl
  refine ⟨(reuse_serve ..).trans h.reuse, htakes.valid, fun r => ?_, fun r hr => ?_⟩
  · rw [show (s.call c).pool.Holds r ↔ _ from htakes.holds r, ← h.live]
    simp [Session.call, Session.answer, hkept]
  · rw [s.given_call] at hr
    rcases List.mem_append.mp hr with hr | hr
    · have hrange := h.range r hr
      have hnext : s.pool.next ≤ (s.call c).pool.next := (next_serve ..).1
      omega
    · have hheld := (htakes.holds r).mpr (.inr hr)
      exact ⟨hheld.1, hheld.2.1⟩

theorem giveBack {source : Nat} {r : Int} (h : Tracks s) (hsource : s.log[source]? = some (.temp, some r)) :
    Tracks (s.call (.free source)) := by
  have hpool : (s.call (.free source)).pool = s.pool.giveBack r := by
    simp [Session.call, Call.request, Call.returned?, serve, hsource]
  have hgiven : (s.call (.free source)).given = s.given := (s.given_call _).trans (List.append_nil _)
  have hr : r ∈ s.given :=
    List.mem_flatMap.mpr ⟨_, List.mem_of_getElem? hsource, Call.mem_registers.mpr ⟨Int.le_refl r, Int.lt_succ r⟩⟩
  refine ⟨(reuse_serve ..).trans h.reuse, ?_, fun q => ?_, fun q hq => ?_⟩
  · rw [hpool]
    exact valid_giveBack_of_range h.valid (h.range r hr)
  · rw [hpool, holds_giveBack_iff h.reuse, ← h.live]
    simp [Session.call, Session.answer, Call.request, Call.returned?, Call.registers, serve, hsource]
  · rw [hgiven] at hq
    have hnext : s.pool.next ≤ (s.call (.free source)).pool.next := (next_serve ..).1
    have hrange := h.range q hq
    omega

end Tracks

theorem tracks {calls : List Call} (h : Fair calls) : Tracks (session true calls) := by
  induction h with
  | nil =>
    refine ⟨rfl, valid_fresh true, fun r => ⟨nofun, fun hheld => ?_⟩, nofun⟩
    have hlt : r < 1 := hheld.2.1
    have hpos := hheld.1
    omega
  | take h hc ih =>
    rw [session_append]
    exact ih.take hc
  | free h hsource ih =>
    rw [session_append]
    exact ih.giveBack hsource

/-! ## Without reuse -/

/-- Registers are handed out in ascending order, and none is kept for later. -/
structure Once (calls : List Call) : Prop where
  reuse : (session false calls).pool.reuse = false
  free : (session false calls).pool.free = []
  below : ∀ r ∈ (session false calls).given, r < (session false calls).pool.next
  nodup : (session false calls).given.Nodup
  most : (session true calls).pool.next ≤ (session false calls).pool.next

theorem once (calls : List Call) : Once calls := by
  induction calls using List.reverseRecOn with
  | nil => exact ⟨rfl, rfl, nofun, List.nodup_nil, Int.le_refl _⟩
  | append_singleton calls c ih =>
    obtain ⟨hpool, hout⟩ := serve_of_empty ih.reuse ih.free c (session false calls).log
    have hafter : (session false (calls ++ [c])).pool =
        { (session false calls).pool with next := (session false calls).pool.next + c.width } := by
      rw [session_append]
      exact hpool
    have hgiven : (session false (calls ++ [c])).given = _ := (session_append ..).symm ▸ Session.given_call _ c
    refine ⟨?_, ?_, ?_, ?_, ?_⟩
    · rw [hafter]
      exact ih.reuse
    · rw [hafter]
      exact ih.free
    · rw [hafter, hgiven]
      intro r hr
      rcases List.mem_append.mp hr with hr | hr
      · have hbelow := ih.below r hr
        dsimp only
        omega
      · exact (hout r hr).2
    · rw [hgiven]
      refine List.nodup_append.mpr ⟨ih.nodup, c.nodup_registers _, fun r hr q hq => ?_⟩
      have hbelow := ih.below r hr
      have habove := (hout q hq).1
      omega
    · have hmost := ih.most
      have hstep := (next_serve (session true calls).pool c (session true calls).log).2
      rw [hafter, session_append]
      simp only [Session.call]
      omega

/-! ## Every sequence of calls -/

/-- What the next call, after the given ones, can rely on. -/
structure Safe (calls : List Call) : Prop where
  /-- With reuse, no call hands out a register that is live. -/
  fresh : ∀ c : Call, ∀ r ∈ c.registers ((session true calls).answer c), r ∉ (session true calls).live
  /-- What is kept for later is kept once, and is not live. -/
  kept : (session true calls).pool.free.Nodup ∧ ∀ r ∈ (session true calls).pool.free, r ∉ (session true calls).live
  /-- Registers are numbered from 1 up to the count. -/
  range : ∀ r, r ∈ (session true calls).given ∨ r ∈ (session true calls).pool.free →
    1 ≤ r ∧ r ≤ (session true calls).pool.count
  /-- The count never falls. -/
  grows : ∀ c, (session true calls).pool.count ≤ (session true (calls ++ [c])).pool.count
  /-- Without reuse, no register is handed out twice. -/
  once : (session false calls).given.Nodup
  /-- Reuse never takes more registers. -/
  fewer : (session true calls).pool.count ≤ (session false calls).pool.count

/-- **At every moment of a fair sequence of calls, live registers are not handed out again, with reuse or
without.** -/
theorem registers_safe {calls : List Call} (h : Fair calls) : Safe calls where
  fresh _ := (tracks h).fresh
  kept := by
    refine ⟨(tracks h).valid.free_nodup, fun r hr hlive => ?_⟩
    exact (((tracks h).live r).mp hlive).2.2 hr
  range r hr := by
    have hrange : 0 < r ∧ r < (session true calls).pool.next := by
      rcases hr with hgiven | hfree
      · exact (tracks h).range r hgiven
      · exact (tracks h).valid.free_range r hfree
    simp only [count]
    omega
  grows c := by
    have hstep := (next_serve (session true calls).pool c (session true calls).log).1
    rw [session_append]
    simp only [count, Session.call]
    omega
  once := (RegisterPool.once calls).nodup
  fewer := by
    have hmost := (RegisterPool.once calls).most
    simp only [count]
    omega

/-- A temporary that is given back twice and handed out again, before a block. -/
theorem registers_safe_handedOn :
    Fair [.temp, .free 0, .free 0, .temp, .block 2] ∧ Safe [.temp, .free 0, .free 0, .temp, .block 2] := by
  have htemp : Fair ([] ++ [.temp]) := .take .nil nofun
  have hfree : Fair ([.temp] ++ [.free 0]) := .free htemp rfl
  have hagain : Fair ([.temp, .free 0] ++ [.free 0]) := .free hfree rfl
  have hsecond : Fair ([.temp, .free 0, .free 0] ++ [.temp]) := .take hagain nofun
  have hfair : Fair ([.temp, .free 0, .free 0, .temp] ++ [.block 2]) := .take hsecond nofun
  exact ⟨hfair, registers_safe hfair⟩

end QueryMachine.RegisterPool
