import CoolMachine.Sink
import CoolMachine.Word

/-! The byte form of program images: every word as two bytes, the low one first. Reading pairs the
bytes up again and ignores one that is left over. -/

namespace CoolMachine

namespace Word

def highByte (w : Word) : UInt8 := UInt8.ofNat (w.toNat / 256)

def ofBytes (low high : UInt8) : Word := UInt16.ofNat (low.toNat + 256 * high.toNat)

theorem ofBytes_lowByte_highByte (w : Word) : ofBytes w.lowByte w.highByte = w := by
  apply UInt16.toNat_inj.mp
  have hw : w.toNat < 65536 := w.toNat_lt
  simp only [ofBytes, lowByte, highByte, UInt16.toNat_toUInt8, UInt8.toNat_ofNat', UInt16.toNat_ofNat']
  omega

theorem lowByte_ofBytes (low high : UInt8) : (ofBytes low high).lowByte = low := by
  apply UInt8.toNat_inj.mp
  have hl : low.toNat < 256 := low.toNat_lt
  have hh : high.toNat < 256 := high.toNat_lt
  simp only [ofBytes, lowByte, UInt16.toNat_toUInt8, UInt16.toNat_ofNat']
  omega

theorem highByte_ofBytes (low high : UInt8) : (ofBytes low high).highByte = high := by
  apply UInt8.toNat_inj.mp
  have hl : low.toNat < 256 := low.toNat_lt
  have hh : high.toNat < 256 := high.toNat_lt
  simp only [ofBytes, highByte, UInt8.toNat_ofNat', UInt16.toNat_ofNat']
  omega

end Word

namespace Image

def encode (words : List Word) : List UInt8 := words.flatMap fun w => [w.lowByte, w.highByte]

/-- Pairs up the bytes behind the words that are done, newest first. -/
def decodeFrom (done : List Word) : List UInt8 → List Word
  | low :: high :: rest => decodeFrom (Word.ofBytes low high :: done) rest
  | _ => done.reverse

/-- The whole words that the bytes make up. -/
def decode (bytes : List UInt8) : List Word := decodeFrom [] bytes

/-- Writes the image to a stream. -/
def write (words : List Word) : EStateM OutputError (Sink UInt8) Unit := Sink.write (encode words)

/-- Words done long before stay in front of all others. -/
theorem decodeFrom_append (done before : List Word) (bytes : List UInt8) :
    decodeFrom (done ++ before) bytes = before.reverse ++ decodeFrom done bytes := by
  fun_induction decodeFrom done bytes with
  | case1 done low high rest ih => exact ih
  | case2 done bytes h =>
    rw [decodeFrom, List.reverse_append]
    exact h

theorem encode_cons (w : Word) (words : List Word) :
    encode (w :: words) = w.lowByte :: w.highByte :: encode words := rfl

theorem decode_nil : decode [] = [] := rfl

theorem decode_singleton (byte : UInt8) : decode [byte] = [] := rfl

theorem decode_cons_cons (low high : UInt8) (rest : List UInt8) :
    decode (low :: high :: rest) = Word.ofBytes low high :: decode rest := by
  exact decodeFrom_append [] [Word.ofBytes low high] rest

end Image

end CoolMachine
