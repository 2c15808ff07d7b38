/-!
# Words of 64 bits

The bounds between which integers fit a word, unsigned or signed.
-/

namespace ConfigSweep.Word

/-- Unsigned words are below it. -/
def bound : Nat := Nat.pow 2 64

/-- Signed words are below it and not below its negative. -/
def signedBound : Nat := Nat.pow 2 63

end ConfigSweep.Word
