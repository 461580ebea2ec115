import WordMachine.Digest.Keccak
import WordMachine.Text.Numeral

/-!
# SHA3-256

The message is padded to whole blocks of 136 bytes, the blocks are absorbed
one after the other into the Keccak state, and the first 32 bytes of the state
are the digest.

## Main definitions

* `Sha3.digest` — the digest of a message
* `Sha3.fingerprint` — the digest in hexadecimal
-/

namespace WordMachine.Sha3

/-- The number of bytes of a block. -/
def rate : Nat := 136

/-- The bytes that follow a message whose last block holds `n` bytes: a mark,
zeros, and the last bit of the block. -/
def padding (n : Nat) : List UInt8 :=
  if n + 1 = rate then [0x86]
  else 0x06 :: (List.replicate (rate - n - 2) 0 ++ [0x80])

/-- The lane written by eight bytes, least significant first. -/
def laneOfBytes (bytes : List UInt8) : UInt64 :=
  bytes.foldr (fun b acc => (acc <<< 8) ||| b.toUInt64) 0

/-- The lanes of a block. -/
def blockLanes (block : List UInt8) : List UInt64 :=
  (List.range 17).map fun i => laneOfBytes ((block.drop (8 * i)).take 8)

/-- Absorbs one block. -/
def absorb (state : Keccak.State) (block : List UInt8) : Keccak.State :=
  let lanes := (blockLanes block).toArray
  Keccak.permute (Keccak.build fun x y =>
    Keccak.lane state x y ^^^ lanes.getD (x + 5 * y) 0)

/-- Absorbs the first `n` blocks of a padded message. -/
def absorbBlocks : Nat → Keccak.State → List UInt8 → Keccak.State
  | 0, state, _ => state
  | n + 1, state, message =>
    absorbBlocks n (absorb state (message.take rate)) (message.drop rate)

/-- The bytes of a lane, least significant first. -/
def laneBytes (lane : UInt64) : List UInt8 :=
  [lane.toUInt8, (lane >>> 8).toUInt8, (lane >>> 16).toUInt8, (lane >>> 24).toUInt8,
    (lane >>> 32).toUInt8, (lane >>> 40).toUInt8, (lane >>> 48).toUInt8,
    (lane >>> 56).toUInt8]

/-- The 32 bytes of the SHA3-256 digest of a message. -/
def digest (message : List UInt8) : List UInt8 :=
  let padded := message ++ padding (message.length % rate)
  let state := absorbBlocks (message.length / rate + 1) Keccak.zero padded
  (List.range 4).flatMap fun i => laneBytes (state.getD i 0)

/-- The digest as 64 hexadecimal digits. -/
def fingerprint (message : List UInt8) : String :=
  String.ofList (Text.hexText (digest message))

end WordMachine.Sha3
