import CoolMachine.Word

/-! Register arithmetic that stays clear of the ends of a register, where it is that of the
integers, and the low halves of registers, whose arithmetic never leaves sixteen bits. -/

namespace CoolMachine

theorem Register.toInt_add {a b : Register} (hl : -2147483648 ≤ a.toInt + b.toInt)
    (hu : a.toInt + b.toInt < 2147483648) : (a + b).toInt = a.toInt + b.toInt := by
  rw [Int32.toInt_add]
  exact Int.bmod_eq_of_le (by omega) (by omega)

theorem Register.toInt_sub {a b : Register} (hl : -2147483648 ≤ a.toInt - b.toInt)
    (hu : a.toInt - b.toInt < 2147483648) : (a - b).toInt = a.toInt - b.toInt := by
  rw [Int32.toInt_sub]
  exact Int.bmod_eq_of_le (by omega) (by omega)

theorem Register.toInt_succ {a : Register} (h : a.toInt < 2147483647) :
    (a + 1).toInt = a.toInt + 1 := by
  have hl := a.le_toInt
  exact Register.toInt_add (by simp; omega) (by simp; omega)

theorem Register.toInt_pred {a : Register} (h : -2147483648 < a.toInt) :
    (a - 1).toInt = a.toInt - 1 := by
  have hu := a.toInt_lt
  exact Register.toInt_sub (by simp; omega) (by simp; omega)

theorem Register.succ_succ (a : Register) : a + 1 + 1 = a + 2 := by
  rw [Int32.add_assoc]
  rfl

theorem Word.ofRegister_add (a b : Register) :
    ofRegister (a + b) = ofRegister a + ofRegister b := by
  simp [ofRegister]

theorem Word.ofRegister_sub (a b : Register) :
    ofRegister (a - b) = ofRegister a - ofRegister b := by
  simp [ofRegister]

/-- The word of an address is its number modulo 65536. -/
theorem Word.eq_ofRegister_iff (cell : Word) (address : Register) :
    cell = ofRegister address ↔ (cell.toNat : Int) = address.toInt % 65536 := by
  rw [← toNat_ofRegister, ← UInt16.toNat_inj, Int.natCast_inj]

theorem Word.ofRegister_eq_ofNat {a : Register} {n : Nat} (h : a.toInt = n) :
    ofRegister a = UInt16.ofNat n := by
  apply UInt16.toNat_inj.mp
  have ha := toNat_ofRegister a
  rw [UInt16.toNat_ofNat']
  omega

theorem Word.toNat_ofInt (value : Int) : ((UInt16.ofInt value).toNat : Int) = value % 65536 := by
  have hlt : (value % 65536).toNat < 65536 := by omega
  change ((UInt16.ofNat (value % 65536).toNat).toNat : Int) = _
  rw [UInt16.toNat_ofNat_of_lt' hlt]
  omega

theorem Word.toNat_ofSigned (value : Int16) :
    ((ofSigned value).toNat : Int) = value.toInt % 65536 := by
  have hlt := value.toBitVec.isLt
  change (value.toBitVec.toNat : Int) = value.toBitVec.toInt % 65536
  rw [BitVec.toInt_eq_toNat_cond]
  split <;> omega

/-- A signed value that is some integer wrapped to sixteen bits is the word of that integer. -/
theorem Word.ofSigned_eq_ofInt {value : Int16} {exact : Int}
    (h : value.toInt = exact.bmod 65536) : ofSigned value = UInt16.ofInt exact := by
  apply UInt16.toNat_inj.mp
  have hwrap : exact.bmod 65536 % 65536 = exact % 65536 := Int.bmod_emod
  have hs := toNat_ofSigned value
  have hi := toNat_ofInt exact
  rw [h] at hs
  omega

end CoolMachine
