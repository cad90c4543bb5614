import MobileCode.Digest

/-! # Digests as texts

A digest is written in hexadecimal, as long as its algorithm says. So a server takes the digest of a file for the hash
of a module.
-/
namespace MobileCode

namespace Bytes

theorem hexDigit_valued {n : Nat} (h : n < 16) : (hexValue? (hexDigit n)).isSome ∧ (hexDigit n).utf8Size = 1 := by
  revert n
  decide

/-- The digits of a byte string. -/
def hexDigits (bytes : Bytes) : List Char := bytes.flatMap fun b => [hexDigit (b.toNat / 16), hexDigit (b.toNat % 16)]

theorem hexDigits_valued {bytes : Bytes} {c : Char} (h : c ∈ hexDigits bytes) :
    (hexValue? c).isSome ∧ c.utf8Size = 1 := by
  obtain ⟨b, _, hc⟩ := List.mem_flatMap.mp h
  have hb := b.toNat_lt
  simp only [List.mem_cons, List.not_mem_nil, or_false] at hc
  obtain rfl | rfl := hc <;> exact hexDigit_valued (by omega)

theorem length_hexDigits (bytes : Bytes) : (hexDigits bytes).length = 2 * bytes.length := by
  induction bytes with
  | nil => rfl
  | cons b rest ih =>
    have hrest : hexDigits (b :: rest) = [hexDigit (b.toNat / 16), hexDigit (b.toNat % 16)] ++ hexDigits rest :=
      List.flatMap_cons
    rw [hrest, List.length_append, ih, List.length_cons, List.length_cons, List.length_cons, List.length_nil]
    omega

theorem utf8ByteSize_ofList {chars : List Char} (h : ∀ c ∈ chars, c.utf8Size = 1) :
    (String.ofList chars).utf8ByteSize = chars.length := by
  induction chars with
  | nil => rfl
  | cons c rest ih =>
    have hrest := ih fun d hd => h d (List.mem_cons_of_mem c hd)
    rw [String.ofList_cons, String.utf8ByteSize_append, String.utf8ByteSize_singleton, h c List.mem_cons_self, hrest,
      List.length_cons, Nat.add_comm]

end Bytes

namespace DigestAlgorithm

/-- The bytes of a digest. -/
theorem digest_eq (algorithm : DigestAlgorithm) (data : Bytes) : ∃ bytes : Bytes,
    algorithm.digest data = String.ofList (Bytes.hexDigits bytes) ∧ 2 * bytes.length = algorithm.hexLength := by
  cases algorithm with
  | sha1 => exact ⟨Digest.Sha1.digest data, rfl, rfl⟩
  | md5 => exact ⟨Digest.Md5.digest data, rfl, rfl⟩

theorem utf8ByteSize_digest (algorithm : DigestAlgorithm) (data : Bytes) :
    (algorithm.digest data).utf8ByteSize = algorithm.hexLength := by
  obtain ⟨bytes, hdigest, hlength⟩ := algorithm.digest_eq data
  rw [hdigest, Bytes.utf8ByteSize_ofList fun _ h => (Bytes.hexDigits_valued h).2, Bytes.length_hexDigits, hlength]

theorem digest_isHexDigest (algorithm : DigestAlgorithm) (data : Bytes) : isHexDigest (algorithm.digest data) = true := by
  have hlength : (ofHexLength? (algorithm.digest data).utf8ByteSize).isSome = true := by
    rw [utf8ByteSize_digest]
    cases algorithm <;> rfl
  obtain ⟨bytes, hdigest, _⟩ := algorithm.digest_eq data
  rw [isHexDigest, hlength, Bool.true_and, List.all_eq_true, hdigest, String.toList_ofList]
  exact fun c h => (Bytes.hexDigits_valued h).1

end DigestAlgorithm
end MobileCode
