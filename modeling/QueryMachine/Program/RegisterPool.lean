/-!
# Register allocation

Registers are numbered from 1 on by one counter. Blocks and single registers are never given back.
A temporary may be given back; when the pool reuses temporaries, the one given back last is handed
out first, and giving one back twice counts once.
-/

namespace QueryMachine

/-- The state of register allocation. -/
structure RegisterPool where
  /-- The next register that was never handed out. -/
  next : Int
  /-- Temporaries that were given back, the latest first. -/
  free : List Int
  /-- Whether temporaries that are given back are handed out again. -/
  reuse : Bool
deriving DecidableEq, Repr, Inhabited

namespace RegisterPool

def fresh (reuse : Bool) : RegisterPool := ⟨1, [], reuse⟩

def count (pool : RegisterPool) : Int := pool.next - 1

def takeOne (pool : RegisterPool) : Int × RegisterPool :=
  (pool.next, { pool with next := pool.next + 1 })

/-- The first of `n` consecutive registers; a block of no registers takes none. -/
def takeBlock (n : Int) (pool : RegisterPool) : Int × RegisterPool :=
  (pool.next, { pool with next := pool.next + max n 0 })

/-- A temporary: one that was given back, if there is one. -/
def takeTemp (pool : RegisterPool) : Int × RegisterPool :=
  match pool.free with
  | [] => pool.takeOne
  | r :: free => (r, { pool with free })

def giveBack (r : Int) (pool : RegisterPool) : RegisterPool :=
  if pool.reuse && !pool.free.contains r then { pool with free := r :: pool.free } else pool

inductive Request where
  | one
  | block (n : Int)
  | temp
  | giveBack (r : Int)
deriving DecidableEq, Repr

/-- Serves one request; the register is the one handed out, if any. -/
def serve (pool : RegisterPool) : Request → Option Int × RegisterPool
  | .one => let (r, pool) := pool.takeOne; (some r, pool)
  | .block n => let (r, pool) := pool.takeBlock n; (some r, pool)
  | .temp => let (r, pool) := pool.takeTemp; (some r, pool)
  | .giveBack r => (none, pool.giveBack r)

end RegisterPool

end QueryMachine
