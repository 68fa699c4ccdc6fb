/-! Sixteen-bit words and thirty-two-bit registers. A word carries no type: each use picks the
unsigned or the signed reading, and a register goes back to a word by keeping its low half. -/

namespace CoolMachine

/-- The contents of one memory cell. -/
abbrev Word := UInt16

/-- The contents of a control register; its arithmetic wraps at thirty-two bits. -/
abbrev Register := Int32

namespace Word

/-- The two's complement reading, from -32768 to 32767. -/
def signed (w : Word) : Int16 := w.toInt16

def ofSigned (i : Int16) : Word := i.toUInt16

/-- The unsigned reading as a register value: a jump target or a memory address. -/
def address (w : Word) : Register := w.toUInt32.toInt32

/-- The signed reading as a register value: a displacement from the frame pointer. -/
def offset (w : Word) : Register := w.toInt16.toInt32

/-- The low sixteen bits of a register. -/
def ofRegister (r : Register) : Word := r.toUInt32.toUInt16

theorem toInt_address (w : Word) : w.address.toInt = w.toNat := by
  have hw : w.toNat < 65536 := w.toNat_lt
  have ht : w.toUInt32.toNat = w.toNat := by simp
  change w.toUInt32.toBitVec.toInt = w.toNat
  rw [BitVec.toInt_eq_toNat_of_lt] <;> rw [UInt32.toNat_toBitVec, ht]
  omega

theorem toInt_offset (w : Word) : w.offset.toInt = w.signed.toInt := by
  simp [offset, signed]

theorem toNat_ofRegister (r : Register) : ((ofRegister r).toNat : Int) = r.toInt % 65536 := by
  have hr : r.toInt = r.toUInt32.toBitVec.toInt := rfl
  have hn : (ofRegister r).toNat = r.toUInt32.toBitVec.toNat % 65536 := by
    simp only [ofRegister, UInt32.toNat_toUInt16, UInt32.toNat_toBitVec]
  rw [hr, hn, BitVec.toInt_eq_toNat_cond]
  split <;> omega

theorem ofRegister_address (w : Word) : ofRegister w.address = w := by
  apply UInt16.toNat_inj.mp
  have h := toNat_ofRegister w.address
  have hw : w.toNat < 65536 := w.toNat_lt
  rw [toInt_address] at h
  omega

/-- Two registers share their low half exactly when they agree modulo 65536. -/
theorem ofRegister_eq_iff (a b : Register) :
    ofRegister a = ofRegister b ↔ a.toInt % 65536 = b.toInt % 65536 := by
  rw [← UInt16.toNat_inj, ← toNat_ofRegister a, ← toNat_ofRegister b, Int.ofNat_inj]

/-- The low byte, which is all that an exit status can carry. -/
def lowByte (w : Word) : UInt8 := w.toUInt8

/-- The four hexadecimal digits of a word inside its constructor. -/
def debugText (w : Word) : String :=
  "Word(0x" ++ String.ofList (List.leftpad 4 '0' (Nat.toDigits 16 w.toNat)) ++ ")"

end Word

end CoolMachine
