import Mathlib.Data.List.Basic
import CoolMachine.Proofs.Text.Words

/-! Texts with other words in the place of their own. The blanks stay as they are, so the words of
the new text are the ones put in. -/

namespace CoolMachine.Text

/-- A text that is one word. -/
structure IsWord (text : List Char) : Prop where
  ne_nil : text ≠ []
  not_blank : ∀ c ∈ text, isBlank c = false

theorem isWord_iff (text : List Char) :
    IsWord text ↔ (text.isEmpty || text.any isBlank) = false := by
  rw [Bool.or_eq_false_iff, List.any_eq_false]
  constructor
  · intro h
    exact ⟨by simp [h.ne_nil], fun c hc => by simp [h.not_blank c hc]⟩
  · intro h
    exact ⟨by simpa using h.1, fun c hc => by simpa using h.2 c hc⟩

theorem IsWord.words_eq {text : List Char} (h : IsWord text) : words text = [text] :=
  words_of_not_blank h.not_blank h.ne_nil

/-- The text with the word of each index replaced by what `f` makes of it, where `run` is what has
been seen of a word, and `index` is its index. -/
def replaceFrom (f : Nat → List Char → List Char) (index : Nat) (run : List Char) :
    List Char → List Char
  | [] => if run = [] then [] else f index run
  | c :: text =>
    if isBlank c then
      if run = [] then c :: replaceFrom f index [] text
      else f index run ++ c :: replaceFrom f (index + 1) [] text
    else replaceFrom f index (run ++ [c]) text

def replaceWords (f : Nat → List Char → List Char) (text : List Char) : List Char :=
  replaceFrom f 0 [] text

section

variable {f : Nat → List Char → List Char}

theorem words_replaceFrom (hf : ∀ i word, IsWord word → IsWord (f i word)) (index : Nat)
    {run : List Char} (hrun : ∀ c ∈ run, isBlank c = false) (text : List Char) :
    words (replaceFrom f index run text) =
      (words (run ++ text)).mapIdx fun i => f (index + i) := by
  induction text generalizing index run with
  | nil =>
      rw [replaceFrom, List.append_nil]
      split
      · next hnil => rw [hnil, words_nil, List.mapIdx_nil]
      · next hne =>
          rw [(hf index run ⟨hne, hrun⟩).words_eq, words_of_not_blank hrun hne]
          rfl
  | cons c text ih =>
      rw [replaceFrom]
      split
      · next hblank =>
          split
          · next hnil =>
              rw [hnil, List.nil_append, words_blank_cons hblank, words_blank_cons hblank,
                ih index (fun _ hc => absurd hc List.not_mem_nil), List.nil_append]
          · next hne =>
              rw [words_append_blank _ _ hblank, words_append_blank _ _ hblank,
                (hf index run ⟨hne, hrun⟩).words_eq, words_of_not_blank hrun hne,
                ih (index + 1) (fun _ hc => absurd hc List.not_mem_nil), List.nil_append,
                List.singleton_append, List.singleton_append, List.mapIdx_cons]
              simp only [Nat.add_zero, Nat.add_assoc, Nat.add_comm 1]
      · next hblank =>
          have hrun' : ∀ d ∈ run ++ [c], isBlank d = false := by
            intro d hd
            obtain hd | hd := List.mem_append.mp hd
            · exact hrun d hd
            · rw [List.mem_singleton.mp hd, Bool.eq_false_iff]
              exact hblank
          rw [ih index hrun', List.append_assoc, List.singleton_append]

theorem words_replaceWords (hf : ∀ i word, IsWord word → IsWord (f i word)) (text : List Char) :
    words (replaceWords f text) = (words text).mapIdx f := by
  have h := words_replaceFrom hf 0 (fun _ hc => absurd hc List.not_mem_nil) text
  simp only [List.nil_append, Nat.zero_add] at h
  exact h

/-- A character that neither the text nor a replacement has is not in the new text. -/
theorem not_mem_replaceFrom {mark : Char} (hf : ∀ i word, mark ∉ word → mark ∉ f i word)
    (index : Nat) {run text : List Char} (hrun : mark ∉ run) (htext : mark ∉ text) :
    mark ∉ replaceFrom f index run text := by
  induction text generalizing index run with
  | nil =>
      rw [replaceFrom]
      split
      · exact List.not_mem_nil
      · exact hf index run hrun
  | cons c text ih =>
      have hc : mark ≠ c := List.ne_of_not_mem_cons htext
      have htext := List.not_mem_of_not_mem_cons htext
      rw [replaceFrom]
      split
      · split
        · exact List.not_mem_cons_of_ne_of_not_mem hc (ih index List.not_mem_nil htext)
        · refine List.not_mem_append (hf index run hrun) ?_
          exact List.not_mem_cons_of_ne_of_not_mem hc (ih (index + 1) List.not_mem_nil htext)
      · refine ih index (List.not_mem_append hrun ?_) htext
        exact List.not_mem_cons_of_ne_of_not_mem hc List.not_mem_nil

theorem not_mem_replaceWords {mark : Char} (hf : ∀ i word, mark ∉ word → mark ∉ f i word)
    {text : List Char} (h : mark ∉ text) : mark ∉ replaceWords f text :=
  not_mem_replaceFrom hf 0 List.not_mem_nil h

end

end CoolMachine.Text
