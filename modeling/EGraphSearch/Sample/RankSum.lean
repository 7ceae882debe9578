import EGraphSearch.Distribution.Normal
import EGraphSearch.Number.Total
import EGraphSearch.Sample.Alternative

/-!
# The rank sum test

Compares two samples by the ranks of their values in the joined sample, equal values sharing the
mean of their ranks.  Small samples without equal values are judged by counting all orders exactly,
others by a normal distribution.
-/

set_option autoImplicit false

namespace EGraphSearch.Sample

/-! ## Ranks -/

def doubledRank (joined : List Float) (x : Float) : Nat :=
  2 * joined.countP (· < x) + joined.countP (· == x) + 1

/-- Twice the number of pairs in which the first sample has the greater value, equal values counting
half. -/
def doubledWins (candidate baseline : List Float) : Nat :=
  let joined := candidate ++ baseline
  total (candidate.map (doubledRank joined)) - candidate.length * (candidate.length + 1)

/-- The sum of `t ^ 3 - t` over the groups of `t` equal values. -/
def tieTerm (joined : List Float) : Nat :=
  total (joined.map fun x =>
    let t := joined.countP (· == x)
    t * t - 1)

/-! ## Exact counts -/

def timesGap (shift : Nat) (p : Array Int) : Array Int :=
  p.mapIdx fun i x => if shift ≤ i then x - p.getD (i - shift) 0 else x

def overGap (shift : Nat) (p : Array Int) : Array Int :=
  (List.range p.size).foldl
    (fun q i => if shift ≤ i then q.modify i (· + q.getD (i - shift) 0) else q) p

/-- For each number of wins, how many orders of two samples without equal values have it. -/
def winCounts (m n : Nat) : Array Int :=
  let small := min m n
  let large := max m n
  (List.range small).foldl
    (fun p i => overGap (i + 1) (timesGap (large + i + 1) p))
    ((Array.replicate (m * n + 1) (0 : Int)).setIfInBounds 0 1)

/-- The share of the orders that have at least so many wins. -/
def exactTail (m n wins : Nat) : Float :=
  let counts := (winCounts m n).toList.map Int.toNat
  Binary64.ofRatio (total (counts.drop wins)) (total counts)

/-! ## The normal approximation -/

def normalTail (m n doubledWins tieTerm : Nat) : Float :=
  let pairs := (m * n).toFloat
  let total := m + n
  let spread := Float.sqrt
    (pairs / 12 * ((total + 1).toFloat - tieTerm.toFloat / (total * (total - 1)).toFloat))
  Normal.upperTail ((doubledWins.toFloat / 2 - pairs / 2 - 0.5) / spread)

/-! ## The test -/

def exactSize : Nat := 8

def winTail (m n doubledWins tieTerm : Nat) : Float :=
  if (m ≤ exactSize || n ≤ exactSize) && tieTerm = 0 then exactTail m n (doubledWins / 2)
  else normalTail m n doubledWins tieTerm

def clip (p : Float) : Float := if p < 0 then 0 else if 1 < p then 1 else p

def rankSum (alternative : Alternative) (candidate baseline : List Float) : Verdict :=
  let m := candidate.length
  let n := baseline.length
  if m = 0 || n = 0 || hasNaN candidate || hasNaN baseline then .undefined
  else
    let wins := doubledWins candidate baseline
    let losses := 2 * m * n - wins
    let ties := tieTerm (candidate ++ baseline)
    ⟨wins.toFloat / 2,
      clip (match alternative with
        | .less => winTail m n losses ties
        | .greater => winTail m n wins ties
        | .twoSided => 2 * winTail m n (max wins losses) ties)⟩

end EGraphSearch.Sample
