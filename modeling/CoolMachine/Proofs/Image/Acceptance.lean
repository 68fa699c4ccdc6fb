import CoolMachine.Proofs.Image.RoundTrip

/-! Which streams are images. The limit is a number of bytes, so that the rule for an odd byte and
the limit of main memory meet at one length: a full image with a byte left over is refused. -/

namespace CoolMachine

theorem Word.toNat_ofBytes (low high : UInt8) :
    (ofBytes low high).toNat = low.toNat + 256 * high.toNat := by
  have hl : low.toNat < 256 := low.toNat_lt
  have hh : high.toNat < 256 := high.toNat_lt
  rw [ofBytes, UInt16.toNat_ofNat']
  omega

namespace Image

/-- Number `i` of the words in the bytes, low byte first. -/
def wordAt (bytes : List UInt8) (i : Fin (bytes.length / 2)) : Nat :=
  bytes[2 * i.val].toNat + 256 * bytes[2 * i.val + 1].toNat

theorem length_decode (bytes : List UInt8) : (decode bytes).length = bytes.length / 2 := by
  induction bytes using List.twoStepInduction with
  | nil => rfl
  | singleton byte => rw [decode_singleton, List.length_nil, List.length_singleton]
  | cons_cons low high rest ih _ =>
      rw [decode_cons_cons, List.length_cons, List.length_cons, List.length_cons, ih]
      omega

theorem getElem?_decode (bytes : List UInt8) (i : Nat) (h : 2 * i + 1 < bytes.length) :
    (decode bytes)[i]? = some (.ofBytes bytes[2 * i] bytes[2 * i + 1]) := by
  induction bytes using List.twoStepInduction generalizing i with
  | nil => cases h
  | singleton byte =>
      rw [List.length_singleton] at h
      omega
  | cons_cons low high rest ih _ =>
      rw [decode_cons_cons]
      cases i with
      | zero => rfl
      | succ i =>
          simp only [List.length_cons] at h
          exact ih i (by omega)

theorem toNat_getElem_decode (bytes : List UInt8) (i : Fin (bytes.length / 2))
    (h : i.val < (decode bytes).length) : ((decode bytes)[i.val]).toNat = wordAt bytes i := by
  have hi : 2 * i.val + 1 < bytes.length := by omega
  have hword := getElem?_decode bytes i.val hi
  rw [List.getElem?_eq_getElem h] at hword
  rw [Option.some.inj hword, Word.toNat_ofBytes]
  rfl

/-- What reading makes of bytes that end normally, under a journal. -/
structure Acceptance (bytes : List UInt8) (journal : Journal) : Prop where
  /-- Whole words that fit are accepted, unless a byte is left over behind a full memory. -/
  succeeds_iff : (∃ words after, read ⟨bytes, none⟩ journal = .ok words after) ↔
    bytes.length / 2 ≤ memoryWords ∧ bytes.length ≠ 131073
  /-- The words are the whole ones, and a byte that is left over is warned of once. -/
  of_ok : ∀ words after, read ⟨bytes, none⟩ journal = .ok words after →
    words.map UInt16.toNat = List.ofFn (wordAt bytes) ∧
    after.verbosity = journal.verbosity ∧
    after.records = journal.records ++
      if bytes.length % 2 = 1 ∧ journal.keeps .warn then [oddByteRecord] else []
  of_error : ∀ e after, read ⟨bytes, none⟩ journal = .error e after →
    e = .tooLarge 131073 ∧ after = journal

theorem map_toNat_decode (bytes : List UInt8) :
    (decode bytes).map UInt16.toNat = List.ofFn (wordAt bytes) := by
  apply List.ext_getElem
  · rw [List.length_map, length_decode, List.length_ofFn]
  · intro i h _
    rw [List.length_map] at h
    rw [List.getElem_map, List.getElem_ofFn]
    exact toNat_getElem_decode bytes ⟨i, length_decode bytes ▸ h⟩ h

/-- Every stream that ends normally is read by these rules. -/
theorem images_accepted (bytes : List UInt8) (journal : Journal) : Acceptance bytes journal := by
  by_cases h : bytes.length ≤ byteLimit
  · have hread := read_of_le h journal
    have hlimit : bytes.length ≤ 131072 := h
    constructor
    · exact ⟨fun _ => ⟨Nat.div_le_of_le_mul h, by omega⟩, fun _ => ⟨_, _, hread⟩⟩
    · intro words after hok
      rw [hread] at hok
      cases hok
      refine ⟨map_toNat_decode bytes, ?_⟩
      by_cases heven : bytes.length % 2 = 0
      · rw [if_pos heven, if_neg (by omega), List.append_nil]
        exact ⟨rfl, rfl⟩
      · have hodd : bytes.length % 2 = 1 := by omega
        rw [if_neg heven, Journal.verbosity_note, Journal.records_note]
        simp only [hodd, true_and, oddByteRecord]
    · intro e after herror
      rw [hread] at herror
      cases herror
  · have hread := read_of_gt (Nat.lt_of_not_le h) none journal
    have hlimit : ¬ bytes.length ≤ 131072 := h
    constructor
    · constructor
      · rintro ⟨words, after, hok⟩
        rw [hread] at hok
        cases hok
      · rintro ⟨hwords, hlength⟩
        have hfits : bytes.length / 2 ≤ 65536 := hwords
        omega
    · intro words after hok
      rw [hread] at hok
      cases hok
    · intro e after herror
      rw [hread] at herror
      cases herror
      exact ⟨rfl, rfl⟩

/-- A number of whole words that fits in main memory is not enough for an image to be accepted. -/
theorem full_image_with_odd_byte_refused :
    ¬ ∀ (bytes : List UInt8) (journal : Journal),
      (∃ words after, read ⟨bytes, none⟩ journal = .ok words after) ↔
        bytes.length / 2 ≤ memoryWords := by
  intro h
  have hlength : (List.replicate 131073 (0 : UInt8)).length = 131073 := List.length_replicate
  have hfits : (List.replicate 131073 (0 : UInt8)).length / 2 ≤ memoryWords := by
    rw [hlength]
    decide
  obtain ⟨words, after, hok⟩ := (h (List.replicate 131073 0) {}).mpr hfits
  have hlimit : byteLimit < (List.replicate 131073 (0 : UInt8)).length := by
    rw [hlength]
    decide
  rw [read_of_gt hlimit none {}] at hok
  cases hok

end Image

end CoolMachine
