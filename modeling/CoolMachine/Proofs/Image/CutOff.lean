import CoolMachine.Proofs.Image.RoundTrip
import CoolMachine.Proofs.Output.Sink

/-! Images on a stream that may be full. The words of an image are written one after another, and
the stream can run out between two of them or inside one. What it has taken is the image of a
program that ends early: the words that are whole are read back, and half a word is ignored. -/

namespace CoolMachine.Image

/-- Writing an image is writing its words one after another, each as two bytes. -/
theorem write_eq_forM (words : List Word) :
    write words = forM words fun w => Sink.write [w.lowByte, w.highByte] := by
  induction words with
  | nil =>
      funext s
      exact Sink.write_nil s
  | cons w words ih =>
      rw [List.forM_cons, ← ih]
      exact Sink.write_append [w.lowByte, w.highByte] (encode words)

/-- The first words of an image are what the first bytes of its encoding make up. -/
theorem decode_take_encode (words : List Word) (n : Nat) :
    decode ((encode words).take n) = words.take (n / 2) := by
  induction words generalizing n with
  | nil => simp [encode, decode_nil]
  | cons w words ih =>
      match n with
      | 0 => rfl
      | 1 => rfl
      | n + 2 =>
          have hhalf : (n + 2) / 2 = n / 2 + 1 := by omega
          rw [encode_cons, List.take_succ_cons, List.take_succ_cons, decode_cons_cons,
            Word.ofBytes_lowByte_highByte, ih, hhalf, List.take_succ_cons]

/-- The stream after an image has been written to it, or as much of the image as it had room for
bytes. -/
def storedIn (capacity : Nat) (words : List Word) : Sink UInt8 :=
  (write words { room := some capacity }).state

/-- An image on a fresh stream with room for so many bytes, and read back from there under a
journal. -/
structure CutOff (words : List Word) (capacity : Nat) (journal : Journal) : Prop where
  /-- The stream is given one word at a time, so it can run out before any of them. -/
  word_by_word : write words = forM words fun w => Sink.write [w.lowByte, w.highByte]
  /-- The stream has taken the first bytes of the encoding, as many as there are or as fit. -/
  stored : (storedIn capacity words).contents =
    (encode words).take (min capacity (2 * words.length))
  succeeds_iff : (∃ sink, write words { room := some capacity } = .ok () sink) ↔
    2 * words.length ≤ capacity
  fails : capacity < 2 * words.length →
    ∃ sink, write words { room := some capacity } = .error .full sink
  /-- The words that are stored as a whole are read back; the one record, if the journal keeps
  any, is of half a word. -/
  read_back : min capacity (2 * words.length) ≤ 131072 → ∃ after,
    read ⟨(storedIn capacity words).contents, none⟩ journal =
      .ok (words.take (min capacity (2 * words.length) / 2)) after ∧
    after.verbosity = journal.verbosity ∧
    after.records = journal.records ++
      if min capacity (2 * words.length) % 2 = 1 ∧ journal.keeps .warn then [oddByteRecord] else []

/-- Wherever an image is cut off, what is left is an image of its first words. -/
theorem cut_off_image_is_shorter_image (words : List Word) (capacity : Nat) (journal : Journal) :
    CutOff words capacity journal := by
  have hwrite := Sink.write_fresh capacity (encode words)
  rw [length_encode] at hwrite
  have hstored : (storedIn capacity words).contents =
      (encode words).take (min capacity (2 * words.length)) := by
    rw [storedIn, write, Sink.contents_write_fresh, ← length_encode, List.take_eq_take_min]
  refine ⟨write_eq_forM words, hstored, ⟨?_, fun h => ?_⟩, fun h => ?_, fun h => ?_⟩
  · rintro ⟨sink, hok⟩
    by_contra hlt
    rw [write, hwrite, if_neg hlt] at hok
    cases hok
  · exact ⟨_, by rw [write, hwrite, if_pos h]⟩
  · exact ⟨_, by rw [write, hwrite, if_neg (Nat.not_le.mpr h)]⟩
  · have hlength : (storedIn capacity words).contents.length =
        min capacity (2 * words.length) := by
      rw [hstored, List.length_take, length_encode]
      omega
    obtain ⟨after, hread, hverbosity, hrecords⟩ := exists_read_of_le (hlength ▸ h) journal
    rw [hlength] at hrecords
    rw [hstored, decode_take_encode, ← hstored] at hread
    exact ⟨after, hread, hverbosity, hrecords⟩

/-- The stream is full after the first half of the second word. -/
example : (storedIn 3 [1, 2, 3]).contents = [1, 0, 2] := by decide

end CoolMachine.Image
