import MobileCode.Digest.Padding

/-! # SHA-1

The secure hash of FIPS 180-4: 80 steps a block over five words, big-endian throughout.
-/
namespace MobileCode.Digest.Sha1

structure State where
  a : UInt32 := 0x67452301
  b : UInt32 := 0xefcdab89
  c : UInt32 := 0x98badcfe
  d : UInt32 := 0x10325476
  e : UInt32 := 0xc3d2e1f0

/-- The sixteen words of a block extended to eighty. -/
def schedule (block : Bytes) : Array UInt32 :=
  (List.range 64).foldl (fun w i =>
    w.push (rotateLeft
      (w.getD (i + 13) 0 ^^^ w.getD (i + 8) 0 ^^^ w.getD (i + 2) 0 ^^^ w.getD i 0) 1))
    (words bigEndian block).toArray

def step (w : Array UInt32) (s : State) (i : Nat) : State :=
  let (mixed, k) :=
    if i < 20 then ((s.b &&& s.c) ||| (~~~s.b &&& s.d), (0x5a827999 : UInt32))
    else if i < 40 then (s.b ^^^ s.c ^^^ s.d, 0x6ed9eba1)
    else if i < 60 then ((s.b &&& s.c) ||| (s.b &&& s.d) ||| (s.c &&& s.d), 0x8f1bbcdc)
    else (s.b ^^^ s.c ^^^ s.d, 0xca62c1d6)
  ⟨rotateLeft s.a 5 + mixed + s.e + k + w.getD i 0, s.a, rotateLeft s.b 30, s.c, s.d⟩

def compress (s : State) (block : Bytes) : State :=
  let t := (List.range 80).foldl (step (schedule block)) s
  ⟨s.a + t.a, s.b + t.b, s.c + t.c, s.d + t.d, s.e + t.e⟩

def digest (message : Bytes) : Bytes :=
  let s := absorb compress {} (pad (fun n => (digitsLittle 8 n).reverse) message)
  [s.a, s.b, s.c, s.d, s.e].flatMap bytesBig

end MobileCode.Digest.Sha1
