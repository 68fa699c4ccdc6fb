import CoolMachine.Proofs.Assembly.Lines
import CoolMachine.Proofs.Assembly.Spacing
import CoolMachine.Proofs.Text.Replacement

/-! Sources with other names for their labels. A name is put in the place of a label where it is
defined and where it is an operand, and everything else of the source stays as it is: what the
source calls its instructions, blanks, comments, and labels that are none. -/

namespace CoolMachine.Assembly

open Text (IsWord)

/-! ### Renamed text -/

section

variable (f : List Char → List Char)

/-- The text before the colon of a label, which is a single word unless the label is invalid. -/
def renameLabel (before : List Char) : List Char :=
  match Text.words before with
  | [_] => Text.replaceWords (fun _ => f) before
  | _ => before

/-- The text of an item, in which all words but the first are operands. -/
def renameOperands (text : List Char) : List Char :=
  Text.replaceWords (fun i word => if i = 0 then word else f word) text

def renameStatement (text : List Char) : List Char :=
  if labelMark ∈ text then
    renameLabel f (text.takeWhile (· != labelMark)) ++
      labelMark :: renameOperands f ((text.dropWhile (· != labelMark)).drop 1)
  else renameOperands f text

def renameLine (line : List Char) : List Char :=
  renameStatement f (statement line) ++ line.dropWhile (· != commentMark)

def renameSource (source : List Char) : List Char :=
  ['\n'].intercalate ((lines source).map (renameLine f))

/-- The words of an item with its operands renamed. -/
def renameWords : List (List Char) → List (List Char)
  | [] => []
  | head :: operands => head :: operands.map f

end

/-- A function on words that turns labels into labels and leaves all other texts. -/
structure Renames (f : List Char → List Char) : Prop where
  isWord : ∀ {word}, IsWord word → IsWord (f word)
  fixes : ∀ {text}, ¬ IsWord text → f text = text
  not_mem : ∀ {mark word}, isPlain mark = false → mark ∉ word → mark ∉ f word

section

variable {f : List Char → List Char} {before text : List Char}

theorem words_renameOperands (hf : Renames f) (text : List Char) :
    Text.words (renameOperands f text) = renameWords f (Text.words text) := by
  have hword : ∀ i word, IsWord word → IsWord (if i = 0 then word else f word) := by
    intro i word h
    split
    · exact h
    · exact hf.isWord h
  rw [renameOperands, Text.words_replaceWords hword]
  cases Text.words text with
  | nil => rfl
  | cons head operands =>
      rw [List.mapIdx_cons, if_pos rfl, renameWords]
      exact congrArg (head :: ·) (List.ext_getElem? fun i => by simp)

theorem trim_renameLabel (hf : Renames f) (before : List Char) :
    Text.trim (renameLabel f before) = f (Text.trim before) := by
  unfold renameLabel
  split
  · next word h =>
      have hrenamed := Text.words_replaceWords (fun _ _ => hf.isWord) before
      rw [h] at hrenamed
      rw [Text.trim_of_words_eq_singleton h]
      exact Text.trim_of_words_eq_singleton hrenamed
  · next h =>
      refine (hf.fixes fun hword => ?_).symm
      exact h _ ((Text.words_trim before).symm.trans hword.words_eq)

theorem not_mem_renameOperands (hf : Renames f) {mark : Char} (hp : isPlain mark = false)
    (h : mark ∉ text) : mark ∉ renameOperands f text := by
  refine Text.not_mem_replaceWords (fun i word hmark => ?_) h
  split
  · exact hmark
  · exact hf.not_mem hp hmark

theorem not_mem_renameLabel (hf : Renames f) {mark : Char} (hp : isPlain mark = false)
    (h : mark ∉ before) : mark ∉ renameLabel f before := by
  unfold renameLabel
  split
  · exact Text.not_mem_replaceWords (fun _ _ hmark => hf.not_mem hp hmark) h
  · exact h

theorem renameStatement_append_cons (h : labelMark ∉ before) (rest : List Char) :
    renameStatement f (before ++ labelMark :: rest) =
      renameLabel f before ++ labelMark :: renameOperands f rest := by
  have hmem : labelMark ∈ before ++ labelMark :: rest :=
    List.mem_append_right _ List.mem_cons_self
  rw [renameStatement, if_pos hmem, List.takeWhile_append_of_pos (bne_of_not_mem h),
    List.dropWhile_append_of_pos (bne_of_not_mem h)]
  simp

theorem parts_renameStatement (hf : Renames f) (text : List Char) :
    parts (renameStatement f text) =
      ((parts text).1.map f, renameWords f (parts text).2) := by
  by_cases hmem : labelMark ∈ text
  · obtain ⟨before, rest, rfl, hbefore⟩ := List.eq_append_cons_of_mem hmem
    have hlabel : labelMark ∉ renameLabel f before :=
      not_mem_renameLabel hf (by decide) hbefore
    rw [renameStatement_append_cons hbefore, parts_append_cons hlabel, parts_append_cons hbefore,
      trim_renameLabel hf, words_renameOperands hf]
    rfl
  · have hnone : labelMark ∉ renameOperands f text :=
      not_mem_renameOperands hf (by decide) hmem
    rw [renameStatement, if_neg hmem, parts_of_not_mem hnone, parts_of_not_mem hmem,
      words_renameOperands hf]
    rfl

theorem not_mem_renameStatement (hf : Renames f) {mark : Char} (hp : isPlain mark = false)
    (h : mark ∉ text) : mark ∉ renameStatement f text := by
  by_cases hmem : labelMark ∈ text
  · obtain ⟨before, rest, rfl, hbefore⟩ := List.eq_append_cons_of_mem hmem
    obtain ⟨hleft, hright⟩ := not_or.mp (mt List.mem_append.mpr h)
    rw [renameStatement_append_cons hbefore]
    refine List.not_mem_append (not_mem_renameLabel hf hp hleft) ?_
    exact List.not_mem_cons_of_ne_of_not_mem (List.ne_of_not_mem_cons hright)
      (not_mem_renameOperands hf hp (List.not_mem_of_not_mem_cons hright))
  · rw [renameStatement, if_neg hmem]
    exact not_mem_renameOperands hf hp h

theorem statement_renameLine (hf : Renames f) (line : List Char) :
    statement (renameLine f line) = renameStatement f (statement line) := by
  have hline : commentMark ∉ statement line := fun hmem =>
    bne_iff_ne.mp (List.mem_takeWhile_imp (p := (· != commentMark)) hmem) rfl
  have hcomment : statement (line.dropWhile (· != commentMark)) = [] := by
    cases hdrop : line.dropWhile (· != commentMark) with
    | nil => rfl
    | cons c comment =>
        have hc := List.head_dropWhile_not (· != commentMark)
          (by rw [hdrop]; exact List.cons_ne_nil c comment)
        simp only [hdrop, List.head_cons] at hc
        exact List.takeWhile_cons_of_neg (by rw [hc]; decide)
  rw [renameLine, statement_append (not_mem_renameStatement hf (by decide) hline), hcomment,
    List.append_nil]

/-- A renamed line has its label and its operands renamed. -/
theorem labelOf_renameLine (hf : Renames f) (line : List Char) :
    labelOf (renameLine f line) = (labelOf line).map f := by
  have h := parts_renameStatement hf (statement line)
  rw [← statement_renameLine hf] at h
  exact congrArg Prod.fst h

theorem wordsOf_renameLine (hf : Renames f) (line : List Char) :
    wordsOf (renameLine f line) = renameWords f (wordsOf line) := by
  have h := parts_renameStatement hf (statement line)
  rw [← statement_renameLine hf] at h
  exact congrArg Prod.snd h

/-! ### The lines of a renamed source -/

theorem newline_not_mem_of_mem_lines {source line : List Char} (h : line ∈ lines source) :
    '\n' ∉ line := by
  unfold lines at h
  induction source generalizing line with
  | nil =>
      rw [List.mem_singleton.mp h]
      exact List.not_mem_nil
  | cons c source ih =>
      rw [List.splitOn_cons_eq_if_modifyHead] at h
      split at h
      · obtain rfl | h := List.mem_cons.mp h
        · exact List.not_mem_nil
        · exact ih h
      · next hc =>
          cases hsplit : source.splitOn '\n' with
          | nil => exact absurd hsplit (List.splitOn_ne_nil '\n' source)
          | cons first rest =>
              rw [hsplit, List.modifyHead_cons] at h
              obtain rfl | h := List.mem_cons.mp h
              · have hfirst := ih (by rw [hsplit]; exact List.mem_cons_self)
                have hne : '\n' ≠ c := fun heq => hc (beq_iff_eq.mpr heq.symm)
                exact List.not_mem_cons_of_ne_of_not_mem hne hfirst
              · exact ih (by rw [hsplit]; exact List.mem_cons_of_mem first h)

theorem newline_not_mem_renameLine (hf : Renames f) {line : List Char} (h : '\n' ∉ line) :
    '\n' ∉ renameLine f line := by
  rw [← List.takeWhile_append_dropWhile (p := (· != commentMark)) (l := line)] at h
  obtain ⟨hstatement, hcomment⟩ := not_or.mp (mt List.mem_append.mpr h)
  exact List.not_mem_append (not_mem_renameStatement hf (by decide) hstatement) hcomment

theorem lines_renameSource (hf : Renames f) (source : List Char) :
    lines (renameSource f source) = (lines source).map (renameLine f) := by
  rw [renameSource, lines]
  refine List.splitOn_intercalate '\n' (fun line hline => ?_) ?_
  · obtain ⟨line, hmem, rfl⟩ := List.mem_map.mp hline
    exact newline_not_mem_renameLine hf (newline_not_mem_of_mem_lines hmem)
  · rw [ne_eq, List.map_eq_nil_iff]
    exact List.splitOn_ne_nil '\n' source

end

end CoolMachine.Assembly
