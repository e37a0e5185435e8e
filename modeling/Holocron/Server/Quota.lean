import Mathlib.Algebra.Ring.Int.Defs
import Holocron.Lib.Run

/-! The produce and fetch limiter of a principal (server/quota.go). Times are in nanoseconds, and the refill is exact up
    to its truncation. -/

namespace Holocron.Server

structure TokenBucket where
  capacity : Int
  rate : Int
  tokens : Int
  last : Int
  deriving DecidableEq

def newTokenBucket (rate capacity now : Int) : TokenBucket :=
  let capacity := if capacity < rate then rate else capacity
  ⟨capacity, rate, capacity, now⟩

namespace TokenBucket

def refill (b : TokenBucket) (now : Int) : TokenBucket :=
  { b with tokens := min b.capacity (b.tokens + ((now - b.last) * b.rate).tdiv (10 ^ 9)), last := now }

def take (b : TokenBucket) (now n : Int) : Bool × TokenBucket :=
  if n ≤ 0 then (true, b)
  else if (b.refill now).tokens < n then (false, b.refill now)
  else (true, { b.refill now with tokens := (b.refill now).tokens - n })

/-- A call of take; `extra` says that it is one inserted into a sequence. -/
structure Call where
  now : Int
  n : Int
  extra : Bool
  deriving DecidableEq

def step (b : TokenBucket) (c : Call) : TokenBucket := (b.take c.now c.n).2

def answers (b : TokenBucket) : List Call → List (Call × Bool)
  | [] => []
  | c :: calls => (c, (b.take c.now c.n).1) :: (b.step c).answers calls

end TokenBucket
end Holocron.Server
