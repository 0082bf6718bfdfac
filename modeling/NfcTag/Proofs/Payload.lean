/-
# NfcTag.Proofs.Payload -- decoding a payload of exactly its length

The length decides everything: other lengths are refused, and of the right one
every byte string is a row (`decode_of_length`).  An encoded row has that length
and is read back in normal form (`decode_encodeAs_row`), whichever NaNs are stored.
-/
import NfcTag.Proofs.NanChoice

namespace NfcTag.Payload

set_option autoImplicit false

variable {payload : Payload}

theorem decode_of_length {bytes : Bytes} (right : bytes.length = payload.size) :
    payload.decode bytes =
      .ok ⟨Cell.decodeAll payload.schema.wire bytes,
        Cell.map_column_decodeAll payload.schema.wire bytes⟩ := by
  have enough : ¬ bytes.length < payload.schema.size := Nat.not_lt.mpr (Nat.le_of_eq right.symm)
  rw [decode, if_pos right, Schema.decode, if_neg enough]

theorem decode_of_length_ne {bytes : Bytes} (wrong : bytes.length ≠ payload.size) :
    payload.decode bytes =
      .error (.payloadLength payload.name payload.size bytes.length) := by
  rw [decode, if_neg wrong]

theorem decode_encodeAs_row (nan : NanChoice) (row : Row payload.schema) :
    payload.decode (payload.encodeAs nan row) = .ok row.normalize.wire := by
  have back := row.decode_encodeAs nan []
  have right : (payload.encodeAs nan row).length = payload.size := row.length_encodeAs nan
  rw [List.append_nil] at back
  rw [decode, if_pos right, encodeAs, back]

theorem encodeAs_canonical (row : Row payload.schema) :
    payload.encodeAs .canonical row = payload.encode row := row.encodeAs_canonical

theorem decode_encode_row (row : Row payload.schema) :
    payload.decode (payload.encode row) = .ok row.normalize.wire := by
  rw [← encodeAs_canonical, decode_encodeAs_row]

end NfcTag.Payload
