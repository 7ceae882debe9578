/-!
# Seed mixing

Turns an arbitrarily large seed, together with a path of numbers that names one of its streams,
into 256 well-mixed bits.  A number as a seed is cut into 32-bit words; every word is hashed into a
pool of four, and the pool is hashed out again into eight words.  All arithmetic is modulo
`2 ^ 32`.
-/

set_option autoImplicit false

namespace EGraphSearch.SeedMix

def words (n : Nat) : List UInt32 :=
  let rec go : Nat → Nat → List UInt32
    | 0, _ => []
    | count + 1, n =>
      if n = 0 then [] else (n % Nat.pow 2 32).toUInt32 :: go count (n / Nat.pow 2 32)
  if n = 0 then [0] else go (n.log2 / 32 + 1) n

/-- The words of a seed and of the path of a stream; a path starts after at least four words. -/
def entropy (seed : List UInt32) (path : List Nat) : List UInt32 :=
  match path with
  | [] => seed
  | _ => seed ++ List.replicate (4 - seed.length) 0 ++ path.flatMap words

def hash (multiplier key word : UInt32) : UInt32 × UInt32 :=
  let next := key * multiplier
  let product := (word ^^^ key) * next
  (next, product ^^^ (product >>> 16))

def hashIn (key word : UInt32) : UInt32 × UInt32 := hash 0x931e8875 key word

def hashOut (key word : UInt32) : UInt32 × UInt32 := hash 0x58f38ded key word

def mix (x y : UInt32) : UInt32 :=
  let r := 0xca01f9dd * x - 0x4973f715 * y
  r ^^^ (r >>> 16)

structure Pool where
  key : UInt32
  word : Array UInt32

def Pool.fill (pool : Pool) (place : Nat) (word : UInt32) : Pool :=
  let (key, hashed) := hashIn pool.key word
  { key := key, word := pool.word.setIfInBounds place hashed }

def Pool.stir (pool : Pool) (place : Nat) (word : UInt32) : Pool :=
  let (key, hashed) := hashIn pool.key word
  { key := key
    word := pool.word.setIfInBounds place (mix (pool.word.getD place 0) hashed) }

def crossings : List (Nat × Nat) :=
  (List.range 4).flatMap fun source =>
    ((List.range 4).filter (· != source)).map fun target => (source, target)

/-- The pool of a seed: the first four words fill it, its places are mixed with each other, and
the remaining words are mixed into every place. -/
def pool (input : List UInt32) : Array UInt32 :=
  let start : Pool := { key := 0x43b0d7e5, word := Array.replicate 4 0 }
  let filled := (List.range 4).foldl (fun p i => p.fill i (input.getD i 0)) start
  let crossed :=
    crossings.foldl (fun p (source, target) => p.stir target (p.word.getD source 0)) filled
  let stirred := (input.drop 4).foldl
    (fun p word => (List.range 4).foldl (fun p target => p.stir target word) p) crossed
  stirred.word

def generate (pool : Array UInt32) : List UInt32 :=
  let step := fun (state : UInt32 × List UInt32) (i : Nat) =>
    let (key, word) := hashOut state.1 (pool.getD (i % 4) 0)
    (key, state.2 ++ [word])
  ((List.range 8).foldl step (0x8b51f9dd, [])).2

/-- Pairs of words as 64-bit words, the first of a pair being the low half. -/
def joinWords : List UInt32 → List UInt64
  | low :: high :: rest => (low.toUInt64 ||| (high.toUInt64 <<< 32)) :: joinWords rest
  | _ => []

def seedWords (seed : List UInt32) (path : List Nat) : List UInt64 :=
  joinWords (generate (pool (entropy seed path)))

end EGraphSearch.SeedMix
