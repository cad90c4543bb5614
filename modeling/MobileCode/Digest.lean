import MobileCode.Digest.Sha1
import MobileCode.Digest.Md5

/-! # Content digests

A module version is named by the hexadecimal digest of its file.
-/
namespace MobileCode

inductive DigestAlgorithm
  | sha1
  | md5
  deriving DecidableEq, Inhabited, Repr

namespace DigestAlgorithm

def name : DigestAlgorithm → String
  | sha1 => "sha1"
  | md5 => "md5"

def ofName? : String → Option DigestAlgorithm
  | "sha1" => some sha1
  | "md5" => some md5
  | _ => none

def hexLength : DigestAlgorithm → Nat
  | sha1 => 40
  | md5 => 32

def ofHexLength? : Nat → Option DigestAlgorithm
  | 40 => some sha1
  | 32 => some md5
  | _ => none

def digest (algorithm : DigestAlgorithm) (data : Bytes) : String :=
  match algorithm with
  | sha1 => (Digest.Sha1.digest data).toHex
  | md5 => (Digest.Md5.digest data).toHex

end DigestAlgorithm

/-- A digest in hexadecimal of either case, as long as one of the algorithms writes it. -/
def isHexDigest (text : String) : Bool :=
  (DigestAlgorithm.ofHexLength? text.utf8ByteSize).isSome &&
    text.toList.all fun c => (Bytes.hexValue? c).isSome

end MobileCode
