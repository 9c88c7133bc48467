namespace MersenneTwister

/-- The last 312 words of the sequence, oldest first. -/
structure Engine where
  words : List UInt64
  length : words.length = 312

/-- The parameters of the 64-bit generator. -/
def initializationMultiplier : UInt64 := 6364136223846793005

def upperMask : UInt64 := 0xffffffff80000000

def lowerMask : UInt64 := 0x7fffffff

def xorMask : UInt64 := 0xb5026f5aa96619e9

/-- `count` words of the seeding sequence from its word number `i` on, which is `x`. -/
def seedWords : (count i : Nat) → (x : UInt64) → List UInt64
  | 0, _, _ => []
  | count + 1, i, x =>
    x :: seedWords count (i + 1)
      (initializationMultiplier * (x ^^^ (x >>> 62)) + UInt64.ofNat (i + 1))

theorem length_seedWords (count i : Nat) (x : UInt64) : (seedWords count i x).length = count := by
  induction count generalizing i x with
  | zero => rfl
  | succ count ih => rw [seedWords, List.length_cons, ih]

def seed (value : UInt64) : Engine := ⟨seedWords 312 0 value, length_seedWords _ _ _⟩

/-- The next word of the sequence, from the upper 33 bits of the oldest word, the lower 31
of the one after it, and the word half a window later. -/
def Engine.twist (e : Engine) : UInt64 :=
  have := e.length
  let y := (e.words[0] &&& upperMask) ||| (e.words[1] &&& lowerMask)
  e.words[156] ^^^ (y >>> 1) ^^^ (if y &&& 1 = 1 then xorMask else 0)

def temper (x : UInt64) : UInt64 :=
  let z := x ^^^ ((x >>> 29) &&& 0x5555555555555555)
  let z := z ^^^ ((z <<< 17) &&& 0x71d67fffeda60000)
  let z := z ^^^ ((z <<< 37) &&& 0xfff7eee000000000)
  z ^^^ (z >>> 43)

/-- One call of the engine. -/
def Engine.next (e : Engine) : UInt64 × Engine :=
  (temper e.twist, ⟨e.words.tail ++ [e.twist], by simp [e.length]⟩)

end MersenneTwister
