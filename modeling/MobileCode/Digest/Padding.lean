import MobileCode.Bytes

/-! # Message padding

Both digests read a message in blocks of 64 bytes, after a one bit, zeros and the bit length of
the message have been put behind it.
-/
namespace MobileCode.Digest

def rotateLeft (x : UInt32) (n : UInt32) : UInt32 := (x <<< n) ||| (x >>> (32 - n))

/-- The last eight bytes hold the bit length, in the byte order of the digest. -/
def pad (lengthBytes : Nat → Bytes) (message : Bytes) : Bytes :=
  let n := message.length
  message ++ 128 :: List.replicate ((119 - n % 64) % 64) 0 ++ lengthBytes (8 * n)

/-- Folds a compression function over the 64-byte blocks of a padded message. -/
def absorb {σ : Type} (compress : σ → Bytes → σ) (state : σ) (message : Bytes) : σ :=
  if 64 ≤ message.length then
    absorb compress (compress state (message.take 64)) (message.drop 64)
  else state
termination_by message.length
decreasing_by simp; omega

/-- The words of a block, four bytes each. -/
def words (join : UInt8 → UInt8 → UInt8 → UInt8 → UInt32) : Bytes → List UInt32
  | a :: b :: c :: d :: rest => join a b c d :: words join rest
  | _ => []

def bigEndian (a b c d : UInt8) : UInt32 :=
  (a.toUInt32 <<< 24) ||| (b.toUInt32 <<< 16) ||| (c.toUInt32 <<< 8) ||| d.toUInt32

def littleEndian (a b c d : UInt8) : UInt32 := bigEndian d c b a

def bytesBig (x : UInt32) : Bytes :=
  [(x >>> 24).toUInt8, (x >>> 16).toUInt8, (x >>> 8).toUInt8, x.toUInt8]

def bytesLittle (x : UInt32) : Bytes := (bytesBig x).reverse

/-- The `count` base-256 digits of a number, least significant first. -/
def digitsLittle : Nat → Nat → Bytes
  | 0, _ => []
  | count + 1, n => UInt8.ofNat n :: digitsLittle count (n / 256)

end MobileCode.Digest
