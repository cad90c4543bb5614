import MobileCode.Datum
import MobileCode.Wire.Codec

/-! # Data on the wire -/
namespace MobileCode.Wire

/-- The codec of data with at most `n` levels of nesting. -/
def datumUpTo : Nat → Codec Datum
  | 0 => ⟨fun _ => [], fun _ => none⟩
  | n + 1 => forms [
      Form.bare .null fun | .null => true | _ => false,
      Form.of bool .bool fun | .bool b => some b | _ => none,
      Form.of int32 .int32 fun | .int32 k => some k | _ => none,
      Form.of int64 .int64 fun | .int64 k => some k | _ => none,
      Form.of double .double fun | .double x => some x | _ => none,
      Form.of text .text fun | .text s => some s | _ => none,
      Form.of (list (datumUpTo n)) .list fun | .list xs => some xs | _ => none,
      Form.of (text.pair (dict (datumUpTo n))) (fun (t, fs) => .object t fs)
        fun | .object t fs => some (t, fs) | _ => none]

/-- Every level of nesting takes a byte at least, so the input bounds the levels to be read. -/
def datum : Codec Datum where
  encode x := (datumUpTo x.depth).encode x
  decode input := (datumUpTo (input.length + 1)).decode input

end MobileCode.Wire
