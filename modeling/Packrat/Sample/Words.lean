/-!
# Sources of random words

Generation draws 64-bit words from a source and reduces each to what it needs: a number below a
bound, or a yes with a given probability.

Where a setting is a word, a number may stand for it.

* **`WordSource`** — anything that yields words.
* **`Xorshift`** — the built-in source.
* **`Draw.below`**, **`Draw.chance`** — what a word is reduced to.
-/

namespace Packrat

/-- A number stands for the word that counts as far, and past the greatest word for that one. -/
instance natWord : Coe Nat UInt64 where
  coe n := .ofNatClamp n

/-- Sources of 64-bit words. -/
class WordSource (σ : Type) where
  /-- The next word and the source after it. -/
  next : σ → UInt64 × σ

/-- A xorshift source; its state is never zero. -/
structure Xorshift where
  state : UInt64
deriving DecidableEq, Inhabited, Repr

namespace Xorshift

/-- The source used when no seed is given. -/
def unseeded : Xorshift := ⟨0x853c49e6748fea9b⟩

/-- The source of a seed; the lowest bit is set, because zero would never change. -/
def ofSeed (seed : UInt64) : Xorshift := ⟨seed ||| 1⟩

/-- The next state, which is also the word drawn. -/
def step (s : UInt64) : UInt64 :=
  let s := s ^^^ (s <<< 13)
  let s := s ^^^ (s >>> 7)
  s ^^^ (s <<< 17)

end Xorshift

instance : WordSource Xorshift where
  next x := (Xorshift.step x.state, ⟨Xorshift.step x.state⟩)

namespace Draw

variable {σ : Type} [WordSource σ]

/-- A number below `bound`; for the bound 0 it is 0 and nothing is drawn. -/
def below (bound : Nat) (source : σ) : Nat × σ :=
  if bound = 0 then (0, source)
  else
    let (word, source) := WordSource.next source
    (word.toNat % bound, source)

/-- Yes with the given probability: the word as a fraction of the largest lies below it. -/
def chance (probability : Float) (source : σ) : Bool × σ :=
  let (word, source) := WordSource.next source
  (word.toFloat / 18446744073709551616.0 < probability, source)

end Draw

end Packrat
