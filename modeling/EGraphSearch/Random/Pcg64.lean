import EGraphSearch.Random.Draws
import EGraphSearch.Random.SeedMix

/-!
# A permuted congruential generator

A linear congruential generator on 128 bits whose output is the exclusive or of the two halves of
the state, rotated by its top six bits.  Draws below a small bound use 32 bits at a time: the
other half of a 64-bit word waits for the next such draw.
-/

set_option autoImplicit false

namespace EGraphSearch

structure Pcg64 where
  state : BitVec 128
  increment : BitVec 128
  /-- The half of a word that the next 32-bit draw takes. -/
  spare : Option UInt32

namespace Pcg64

def multiplier : BitVec 128 := 0x2360ed051fc65da44385df649fccf645

def advance (g : Pcg64) : Pcg64 := { g with state := g.state * multiplier + g.increment }

/-- The generator of four seed words: two for the state, two for the increment. -/
def ofWords (words : List UInt64) : Pcg64 :=
  let join (high low : UInt64) : BitVec 128 :=
    BitVec.ofNat 128 (high.toNat * Nat.pow 2 64 + low.toNat)
  let word (i : Nat) := words.getD i 0
  let increment := (join (word 2) (word 3) <<< 1) ||| 1
  let started := advance { state := 0, increment := increment, spare := none }
  advance { started with state := started.state + join (word 0) (word 1) }

def ofSeed (seed : Int) (path : List Nat) : Except Fault Pcg64 :=
  if seed < 0 then .error (.outOfRange .negativeSeed)
  else .ok (ofWords (SeedMix.seedWords (SeedMix.words seed.toNat) path))

def next64 (g : Pcg64) : UInt64 × Pcg64 :=
  let g := g.advance
  let bits := g.state.toNat
  let folded : UInt64 := (bits / Nat.pow 2 64).toUInt64 ^^^ (bits % Nat.pow 2 64).toUInt64
  let turn : UInt64 := (bits / Nat.pow 2 122).toUInt64
  ((folded >>> turn) ||| (folded <<< ((64 - turn) % 64)), g)

/-- Thirty-two random bits, the low half of a word before its high half. -/
def next32 (g : Pcg64) : UInt32 × Pcg64 :=
  match g.spare with
  | some half => (half, { g with spare := none })
  | none =>
    let (word, g) := g.next64
    (word.toUInt32, { g with spare := some (word >>> 32).toUInt32 })

def unit (g : Pcg64) : Float × Pcg64 :=
  let (word, g) := g.next64
  (Binary64.ofRatio (word >>> 11).toNat (Nat.pow 2 53), g)

def nextWord (wide : Bool) (g : Pcg64) : Nat × Pcg64 :=
  if wide then
    let (word, g) := g.next64
    (word.toNat, g)
  else
    let (word, g) := g.next32
    (word.toNat, g)

/-- Draws words until the low part of `word * bound` is not below `threshold`, and gives the high
part, which is then equally likely to be any number below the bound.  A word is rejected with a
probability below one half; after `attempts` rejections the last one is taken. -/
def rejectBelow (wide : Bool) (bound threshold : Nat) : Nat → Pcg64 → Nat × Pcg64
  | attempts, g =>
    let size := if wide then Nat.pow 2 64 else Nat.pow 2 32
    let (word, g) := nextWord wide g
    let product := word * bound
    match attempts with
    | 0 => (product / size, g)
    | attempts + 1 =>
      if product % size < threshold then rejectBelow wide bound threshold attempts g
      else (product / size, g)

/-- A number below a positive bound.  No bits are drawn when there is only one such number. -/
def belowPositive (bound : Nat) (g : Pcg64) : Nat × Pcg64 :=
  if bound = 1 then (0, g)
  else
    let wide := decide (Nat.pow 2 32 < bound)
    let size := if wide then Nat.pow 2 64 else Nat.pow 2 32
    if bound = size then nextWord wide g
    else rejectBelow wide bound ((size - bound) % bound) 1000 g

def below (bound : Nat) (g : Pcg64) : Except Fault Nat × Pcg64 :=
  if bound = 0 then (.error (.outOfRange .emptyBelow), g)
  else
    let (n, g) := g.belowPositive bound
    (.ok n, g)

/-! ## Weighted choice -/

def compensatedSum : List Float → Float
  | [] => 0
  | first :: rest =>
    let step := fun (state : Float × Float) (x : Float) =>
      let y := x - state.2
      let t := state.1 + y
      (t, (t - state.1) - y)
    (rest.foldl step (first, 0)).1

def runningSums : Float → List Float → List Float
  | _, [] => []
  | sum, x :: rest => (sum + x) :: runningSums (sum + x) rest

def sumTolerance : Float := Float.sqrt (Binary64.ofRatio 1 (Nat.pow 2 52))

def checkProbabilities (probabilities : List Float) : Except Fault Unit :=
  let sum := compensatedSum probabilities
  if sum.isNaN then .error (.outOfRange .undefinedProbability)
  else if probabilities.any (· < 0) then .error (.outOfRange .negativeProbability)
  else if (sum - 1).abs > sumTolerance then .error (.outOfRange .unbalancedProbabilities)
  else .ok ()

/-- The index at which the scaled running sums exceed a uniform draw. -/
def weighted (probabilities : List Float) (g : Pcg64) : Except Fault Nat × Pcg64 :=
  match checkProbabilities probabilities with
  | .error fault => (.error fault, g)
  | .ok () =>
    let sums :=
      match probabilities with
      | [] => []
      | first :: rest => first :: runningSums first rest
    let total := sums.getLastD 1
    let (u, g) := g.unit
    (.ok ((sums.map (· / total)).countP (· ≤ u)), g)

instance : Draws Pcg64 where
  below := below
  unit := unit
  weighted := weighted

end Pcg64

end EGraphSearch
