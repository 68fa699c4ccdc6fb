/-! The byte form of text. Every text has one encoding, and a sequence of bytes that is not the
encoding of a text is refused. -/

namespace CoolMachine.Utf8

def encode (text : List Char) : List UInt8 := (String.ofList text).toUTF8.data.toList

def decode? (bytes : List UInt8) : Option (List Char) :=
  (String.fromUTF8? bytes.toByteArray).map String.toList

theorem decode?_eq_some_iff {bytes : List UInt8} {text : List Char} :
    decode? bytes = some text ↔ bytes = encode text := by
  constructor
  · intro h
    obtain ⟨s, hs, rfl⟩ := Option.map_eq_some_iff.mp h
    rw [String.fromUTF8?] at hs
    split at hs
    · cases hs
      rw [encode, String.ofList_toList]
      exact List.toList_data_toByteArray.symm
    · cases hs
  · rintro rfl
    have hb : (encode text).toByteArray = (String.ofList text).toUTF8 := by
      apply ByteArray.ext
      apply Array.toList_inj.mp
      exact List.toList_data_toByteArray
    have hv : (String.ofList text).toUTF8.IsValidUTF8 := (String.ofList text).isValidUTF8
    rw [decode?, hb, String.fromUTF8?, dif_pos hv]
    exact congrArg some String.toList_ofList

end CoolMachine.Utf8
