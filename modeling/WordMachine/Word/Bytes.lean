import WordMachine.Word.Basic

/-!
# Words as bytes

A word is written as 32 bytes, most significant first.

## Main definitions

* `Word.toBytes` — the 32 bytes of a word
* `Word.ofBytes` — the word written by 32 bytes
-/

namespace WordMachine.Word

/-- The eight bytes of a limb, most significant first. -/
def limbBytes (limb : UInt64) : List UInt8 :=
  [(limb >>> 56).toUInt8, (limb >>> 48).toUInt8, (limb >>> 40).toUInt8,
    (limb >>> 32).toUInt8, (limb >>> 24).toUInt8, (limb >>> 16).toUInt8,
    (limb >>> 8).toUInt8, limb.toUInt8]

/-- The limb written by at most eight bytes, most significant first. -/
def limbOfBytes (bytes : List UInt8) : UInt64 :=
  bytes.foldl (fun acc b => (acc <<< 8) ||| b.toUInt64) 0

/-- The 32 bytes of a word, most significant first. -/
def toBytes (w : Word) : List UInt8 :=
  limbBytes w.limb3 ++ limbBytes w.limb2 ++ limbBytes w.limb1 ++ limbBytes w.limb0

/-- The word written by 32 bytes, most significant first. -/
def ofBytes (bytes : List UInt8) : Word where
  limb3 := limbOfBytes (bytes.take 8)
  limb2 := limbOfBytes ((bytes.drop 8).take 8)
  limb1 := limbOfBytes ((bytes.drop 16).take 8)
  limb0 := limbOfBytes ((bytes.drop 24).take 8)

@[simp]
theorem length_toBytes (w : Word) : w.toBytes.length = 32 := rfl

end WordMachine.Word
