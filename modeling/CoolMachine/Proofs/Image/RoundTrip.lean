import CoolMachine.Image.Load
import Mathlib.Data.List.Induction

/-! Program images through a stream and back. Writing and then reading gives the same words, and
reading and then writing the same bytes up to an odd one, as long as the image fits in main
memory; what does not fit is refused before a failure behind it is seen. -/

namespace CoolMachine.Image

/-- The bytes without one that is left over. -/
def evenBytes (bytes : List UInt8) : List UInt8 :=
  if bytes.length % 2 = 0 then bytes else bytes.dropLast

/-- What is logged of a byte that is left over. -/
def oddByteRecord : Record := ⟨.warn, .image, "program image has a trailing odd byte, ignoring it"⟩

theorem length_encode (words : List Word) : (encode words).length = 2 * words.length := by
  induction words with
  | nil => rfl
  | cons w words ih =>
      rw [encode_cons, List.length_cons, List.length_cons, List.length_cons, ih]
      omega

theorem decode_encode (words : List Word) : decode (encode words) = words := by
  induction words with
  | nil => rfl
  | cons w words ih => rw [encode_cons, decode_cons_cons, Word.ofBytes_lowByte_highByte, ih]

theorem evenBytes_cons_cons (low high : UInt8) (rest : List UInt8) :
    evenBytes (low :: high :: rest) = low :: high :: evenBytes rest := by
  have hlength : (low :: high :: rest).length % 2 = rest.length % 2 := by
    simp only [List.length_cons]
    omega
  unfold evenBytes
  rw [hlength]
  split
  · rfl
  · next hodd =>
      have hne : rest ≠ [] := fun hnil => hodd (by rw [hnil]; rfl)
      rw [List.dropLast_cons_of_ne_nil (List.cons_ne_nil high rest),
        List.dropLast_cons_of_ne_nil hne]

/-- The bytes are taken two at a time, as the decoder takes them. -/
theorem encode_decode (bytes : List UInt8) : encode (decode bytes) = evenBytes bytes := by
  induction bytes using List.twoStepInduction with
  | nil => rfl
  | singleton byte => rfl
  | cons_cons low high rest ih _ =>
      rw [decode_cons_cons, encode_cons, Word.lowByte_ofBytes, Word.highByte_ofBytes, ih,
        evenBytes_cons_cons]

theorem write_fresh (words : List Word) :
    write words {} = .ok () ⟨none, (encode words).reverse⟩ := by
  rw [write, Sink.write_unbounded rfl, List.append_nil]

section Reading

variable {bytes : List UInt8}

theorem read_of_gt (h : byteLimit < bytes.length) (failure : Option String) (journal : Journal) :
    read ⟨bytes, failure⟩ journal = .error (.tooLarge (byteLimit + 1)) journal := by
  have hlength : (bytes.take (byteLimit + 1)).length = byteLimit + 1 := by
    rw [List.length_take]
    omega
  simp only [read, hlength, if_pos (Nat.lt_succ_self byteLimit)]

theorem read_of_le (h : bytes.length ≤ byteLimit) (journal : Journal) :
    read ⟨bytes, none⟩ journal = .ok (decode bytes)
      (if bytes.length % 2 = 0 then journal
      else journal.note .warn .image fun _ => oddByteRecord.text) := by
  have htake : bytes.take (byteLimit + 1) = bytes := List.take_of_length_le (by omega)
  simp only [read, htake, if_neg (Nat.not_lt.mpr h), oddByteRecord]

/-- Bytes that fit in main memory are read as their whole words, with a warning if one is left
over. -/
theorem exists_read_of_le (h : bytes.length ≤ byteLimit) (journal : Journal) :
    ∃ after, read ⟨bytes, none⟩ journal = .ok (decode bytes) after ∧
      after.verbosity = journal.verbosity ∧
      after.records = journal.records ++
        if bytes.length % 2 = 1 ∧ journal.keeps .warn then [oddByteRecord] else [] := by
  refine ⟨_, read_of_le h journal, ?_⟩
  by_cases heven : bytes.length % 2 = 0
  · rw [if_pos heven, if_neg (by omega), List.append_nil]
    exact ⟨rfl, rfl⟩
  · have hodd : bytes.length % 2 = 1 := by omega
    rw [if_neg heven]
    refine ⟨Journal.verbosity_note .., ?_⟩
    rw [Journal.records_note]
    simp only [hodd, true_and, oddByteRecord]

theorem read_of_failure (h : bytes.length ≤ byteLimit) (reason : String) (journal : Journal) :
    read ⟨bytes, some reason⟩ journal = .error (.cannotRead reason) journal := by
  have htake : bytes.take (byteLimit + 1) = bytes := List.take_of_length_le (by omega)
  simp only [read, htake, if_neg (Nat.not_lt.mpr h)]

end Reading

theorem read_encode {image : List Word} (h : image.length ≤ memoryWords) (journal : Journal) :
    read ⟨encode image, none⟩ journal = .ok image journal := by
  have hlength : (encode image).length ≤ byteLimit := by
    rw [length_encode]
    exact Nat.mul_le_mul_left 2 h
  have heven : (encode image).length % 2 = 0 := by
    rw [length_encode]
    exact Nat.mul_mod_right 2 image.length
  rw [read_of_le hlength, decode_encode, if_pos heven]

theorem read_encode_oversized {image : List Word} (h : memoryWords < image.length)
    (journal : Journal) :
    read ⟨encode image, none⟩ journal = .error (.tooLarge (byteLimit + 1)) journal := by
  have hlength : byteLimit < (encode image).length := by
    rw [length_encode]
    exact Nat.mul_lt_mul_of_pos_left h (by decide)
  exact read_of_gt hlength none journal

/-- Reader and writer against each other, under a journal. -/
structure RoundTrips (journal : Journal) : Prop where
  /-- Images that fit come back, and nothing is logged of them. -/
  words : ∀ image : List Word, image.length ≤ memoryWords →
    ∃ sink, write image {} = .ok () sink ∧
      read ⟨sink.contents, none⟩ journal = .ok image journal
  /-- Larger images are written all the same, and only the reader refuses them. -/
  oversized : ∀ image : List Word, memoryWords < image.length →
    ∃ sink, write image {} = .ok () sink ∧
      read ⟨sink.contents, none⟩ journal = .error (.tooLarge 131073) journal
  /-- The warning is the only record, and there is one exactly if a byte is left over. -/
  bytes : ∀ bytes : List UInt8, bytes.length ≤ 131072 →
    ∃ image after sink, read ⟨bytes, none⟩ journal = .ok image after ∧
      write image {} = .ok () sink ∧ sink.contents = evenBytes bytes ∧
      after.verbosity = journal.verbosity ∧
      after.records = journal.records ++
        if bytes.length % 2 = 1 ∧ journal.keeps .warn then [oddByteRecord] else []
  /-- A failure of the stream outranks the words before it. -/
  failing : ∀ (bytes : List UInt8) (reason : String), bytes.length ≤ 131072 →
    read ⟨bytes, some reason⟩ journal = .error (.cannotRead reason) journal
  /-- A failure is never reached behind more bytes than an image may have. -/
  refused : ∀ (bytes : List UInt8) (failure : Option String), 131072 < bytes.length →
    read ⟨bytes, failure⟩ journal = .error (.tooLarge 131073) journal

/-- The image codec round-trips in both directions, whatever the journal keeps. -/
theorem images_round_trip (journal : Journal) : RoundTrips journal where
  words := by
    intro image h
    refine ⟨_, write_fresh image, ?_⟩
    rw [Sink.contents, List.reverse_reverse]
    exact read_encode h journal
  oversized := by
    intro image h
    refine ⟨_, write_fresh image, ?_⟩
    rw [Sink.contents, List.reverse_reverse]
    exact read_encode_oversized h journal
  bytes := by
    intro bytes h
    refine ⟨_, _, _, read_of_le h journal, write_fresh _, ?_, ?_⟩
    · rw [Sink.contents, List.reverse_reverse, encode_decode]
    · by_cases heven : bytes.length % 2 = 0
      · rw [if_pos heven, if_neg (by omega), List.append_nil]
        exact ⟨rfl, rfl⟩
      · have hodd : bytes.length % 2 = 1 := by omega
        rw [if_neg heven]
        refine ⟨Journal.verbosity_note .., ?_⟩
        rw [Journal.records_note]
        simp only [hodd, true_and, oddByteRecord]
  failing := fun _ reason h => read_of_failure h reason journal
  refused := fun _ failure h => read_of_gt h failure journal

example : decode [12, 0, 7, 0, 9] = [12, 7] ∧ encode [12, 7] = [12, 0, 7, 0] := by decide

end CoolMachine.Image
