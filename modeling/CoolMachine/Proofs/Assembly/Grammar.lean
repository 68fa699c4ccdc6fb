import CoolMachine.Proofs.Assembly.Emission
import CoolMachine.Proofs.Assembly.Lines
import CoolMachine.Proofs.Text.Decimal

/-! Which sources are programs, and which line is blamed for a source that is none. A line can be
malformed in itself or against the lines above it; only when no line is do the operands matter, and
what they stand for depends on the whole source. -/

namespace CoolMachine

/-- The text is the mnemonic of the opcode, in any mixture of upper and lower case. -/
def Opcode.SpelledBy (op : Opcode) (text : List Char) : Prop :=
  text.map Char.toLower = op.name.toList

theorem Opcode.ofMnemonic?_eq_some_iff {text : List Char} {op : Opcode} :
    ofMnemonic? text = some op ↔ op.SpelledBy text := by
  constructor
  · intro h
    have hfound : (text.map Char.toLower == op.name.toList) = true :=
      List.find?_some (p := fun op : Opcode => text.map Char.toLower == op.name.toList) h
    exact eq_of_beq hfound
  · intro h
    have hfolded : op.name.toList.map Char.toLower = op.name.toList := by cases op <;> decide
    rw [← ofMnemonic?_name op, ofMnemonic?, ofMnemonic?, h, hfolded]

theorem Opcode.not_spelledBy_dataDirective (op : Opcode) :
    ¬ op.SpelledBy Assembly.dataDirective := by
  unfold SpelledBy
  cases op <;> decide

namespace Assembly

/-- What is wrong with a label: it is empty, contains a blank, or is on a line above. -/
inductive BadLabel (above : List (List Char)) (label : List Char) : Prop where
  | empty : label = [] → BadLabel above label
  | blank {c : Char} : c ∈ label → Text.isBlank c = true → BadLabel above label
  | taken {line : List Char} {words : List (List Char)} : line ∈ above →
      Reads line (some label) words → BadLabel above label

/-- What is wrong with the words on a line. -/
inductive BadWords : List (List Char) → Prop where
  | tooMany {words : List (List Char)} : 2 < words.length → BadWords words
  | directiveAlone : BadWords [dataDirective]
  | unknown {head : List Char} {rest : List (List Char)} : head ≠ dataDirective →
      (∀ op : Opcode, ¬ op.SpelledBy head) → BadWords (head :: rest)
  | unexpected {head operand : List Char} {rest : List (List Char)} {op : Opcode} :
      op.SpelledBy head → op.operandKind = .absent → BadWords (head :: operand :: rest)
  | missing {head : List Char} {op : Opcode} : op.SpelledBy head → op.operandKind ≠ .absent →
      BadWords [head]

/-- The line below these lines is no line of a program, whatever its operand stands for. -/
inductive Malformed (above : List (List Char)) (line : List Char) : Prop where
  | label {label : List Char} {words : List (List Char)} : Reads line (some label) words →
      BadLabel above label → Malformed above line
  | words {label? : Option (List Char)} {words : List (List Char)} : Reads line label? words →
      BadWords words → Malformed above line

/-- The operand stands for nothing that fits in a word: it is a label with too high an address, or
no label and no numeral from -32768 to 65535. -/
inductive Unresolved (lines : List (List Char)) (operand : List Char) : Prop where
  | tooFar {address : Nat} : Defines lines operand address → 65535 < address →
      Unresolved lines operand
  | unreadable : (∀ address, ¬ Defines lines operand address) →
      (∀ value, Decimal.Numeral operand value → value < -32768 ∨ 65535 < value) →
      Unresolved lines operand

/-- The line has an operand that stands for nothing. -/
def HasUnresolved (lines : List (List Char)) (line : List Char) : Prop :=
  ∃ label? head operand, Reads line label? [head, operand] ∧ Unresolved lines operand

/-- The line with this number, counted from one, has the property below the lines above it. -/
def At (P : List (List Char) → List Char → Prop) (lines : List (List Char)) (number : Nat) : Prop :=
  ∃ k line, lines[k]? = some line ∧ number = k + 1 ∧ P (lines.take k) line

def MalformedAt (lines : List (List Char)) : Nat → Prop := At Malformed lines

def UnresolvedAt (lines : List (List Char)) : Nat → Prop := At (fun _ => HasUnresolved lines) lines

theorem at_append_singleton {P : List (List Char) → List Char → Prop} {lines : List (List Char)}
    {line : List Char} {number : Nat} : At P (lines ++ [line]) number ↔
      At P lines number ∨ number = lines.length + 1 ∧ P lines line :=
  exists_line_append_singleton (P := fun k above line => number = k + 1 ∧ P above line)

theorem le_length_of_at {P : List (List Char) → List Char → Prop} {lines : List (List Char)}
    {number : Nat} (h : At P lines number) : number ≤ lines.length := by
  obtain ⟨k, line, hk, rfl, -⟩ := h
  exact (List.getElem?_eq_some_iff.mp hk).1

/-! ### Lines by themselves -/

theorem badWords_of_parse {head : List Char} {operand : Option (List Char)} {cause : Cause}
    (h : Item.parse head operand = .error cause) : BadWords (head :: operand.toList) := by
  unfold Item.parse at h
  split at h
  · next hd =>
    rw [hd]
    cases operand with
    | none => exact .directiveAlone
    | some text => cases h
  · next hd =>
    cases hop : Opcode.ofMnemonic? head with
    | none =>
        refine .unknown hd fun op hspelled => ?_
        rw [Opcode.ofMnemonic?_eq_some_iff.mpr hspelled] at hop
        cases hop
    | some op =>
        have hspelled := Opcode.ofMnemonic?_eq_some_iff.mp hop
        simp only [hop] at h
        split at h
        · cases h
        · next hne =>
          cases operand with
          | none => exact .missing hspelled ((takesOperand_iff op).mp (by simpa using hne))
          | some text =>
              have htakes : ¬ op.takesOperand = true := by simpa using hne
              exact .unexpected hspelled (not_not.mp ((takesOperand_iff op).not.mp htakes))

theorem not_badWords_of_parse {head : List Char} {operand : Option (List Char)} {item : Item}
    (h : Item.parse head operand = .ok item) : ¬ BadWords (head :: operand.toList) := by
  intro hbad
  rcases of_parse_eq_ok h with ⟨rfl, value, rfl, rfl⟩ | ⟨op, agrees, hop, rfl⟩
  · cases hbad with
    | tooMany hlength => simp at hlength
    | unknown hne _ => exact hne rfl
    | unexpected hspelled _ => exact Opcode.not_spelledBy_dataDirective _ hspelled
  · have hunique : ∀ {other : Opcode}, other.SpelledBy head → other = op := by
      intro other hspelled
      rw [← Opcode.ofMnemonic?_eq_some_iff, hop] at hspelled
      exact (Option.some.inj hspelled).symm
    have hspelled := Opcode.ofMnemonic?_eq_some_iff.mp hop
    generalize hwords : head :: operand.toList = words at hbad
    cases hbad with
    | tooMany hlength =>
        rw [← hwords] at hlength
        cases operand <;> simp at hlength
    | directiveAlone =>
        obtain ⟨rfl, -⟩ := List.cons.inj hwords
        exact Opcode.not_spelledBy_dataDirective op hspelled
    | unknown _ hnone =>
        obtain ⟨rfl, -⟩ := List.cons.inj hwords
        exact hnone op hspelled
    | unexpected hother habsent =>
        obtain ⟨rfl, hoperand⟩ := List.cons.inj hwords
        rw [hunique hother] at habsent
        cases operand with
        | none => cases hoperand
        | some text => exact (takesOperand_iff op).mp agrees.symm habsent
    | missing hother hpresent =>
        obtain ⟨rfl, hoperand⟩ := List.cons.inj hwords
        rw [hunique hother] at hpresent
        cases operand with
        | none =>
            rw [← takesOperand_iff, ← agrees] at hpresent
            cases hpresent
        | some text => cases hoperand

theorem badWords_of_ofWords {words : List (List Char)} {cause : Cause}
    (h : Item.ofWords words = .error cause) : BadWords words := by
  have hmap : ∀ {x : Except Cause Item}, x.map some = .error cause → x = .error cause := by
    intro x hx
    cases x with
    | ok item => cases hx
    | error cause => cases hx; rfl
  match words with
  | [] => cases h
  | [head] => exact badWords_of_parse (hmap h)
  | [head, operand] =>
      have hparse : Item.parse head (some operand) = .error cause := hmap h
      exact badWords_of_parse hparse
  | _ :: _ :: _ :: _ => exact .tooMany (by simp)

theorem not_badWords_of_ofWords {words : List (List Char)} {item? : Option Item}
    (h : Item.ofWords words = .ok item?) : ¬ BadWords words := by
  rcases of_ofWords_eq_ok h with ⟨rfl, -⟩ | ⟨head, operand, item, rfl, hparse, -⟩
  · intro hbad
    cases hbad with
    | tooMany hlength => cases hlength
  · exact not_badWords_of_parse hparse

/-! ### The first pass -/

section FirstPass

variable {layout layout' : Layout} {above : List (List Char)} {line : List Char} {number : Nat}

/-- A label has been laid out exactly when a line above reads as one with this label. -/
theorem contains_labels_iff (h : layout.Describes above) (label : List Char) :
    layout.labels.contains label = true ↔
      ∃ line ∈ above, ∃ words, Reads line (some label) words := by
  rw [Std.TreeMap.contains_eq_isSome_getElem?, Option.isSome_iff_exists]
  simp only [h.labels, Defines, reads_iff]
  constructor
  · rintro ⟨_, k, line, hk, hlabel, -⟩
    exact ⟨line, List.mem_of_getElem? hk, wordsOf line, hlabel, rfl⟩
  · rintro ⟨line, hline, words, hlabel, -⟩
    obtain ⟨k, hk⟩ := List.mem_iff_getElem?.mp hline
    exact ⟨extent (above.take k), k, line, hk, hlabel, rfl⟩

theorem define_fails_iff (h : layout.Describes above) (label : List Char) :
    (∃ cause, layout.define label = .error cause) ↔ BadLabel above label := by
  have hshape : (label.isEmpty || label.any Text.isBlank) = true ↔
      label = [] ∨ ∃ c ∈ label, Text.isBlank c = true := by
    rw [Bool.or_eq_true, List.isEmpty_iff, List.any_eq_true]
  rw [Layout.define]
  constructor
  · rintro ⟨cause, herror⟩
    split at herror
    · next hs =>
      rcases hshape.mp hs with hempty | ⟨c, hc, hblank⟩
      · exact .empty hempty
      · exact .blank hc hblank
    · split at herror
      · next hc =>
        obtain ⟨line, hline, words, hreads⟩ := (contains_labels_iff h label).mp hc
        exact .taken hline hreads
      · cases herror
  · intro hbad
    split
    · exact ⟨_, rfl⟩
    · next hs =>
      split
      · exact ⟨_, rfl⟩
      · next hc =>
        cases hbad with
        | empty hempty => exact absurd (hshape.mpr (.inl hempty)) hs
        | blank hmem hblank => exact absurd (hshape.mpr (.inr ⟨_, hmem, hblank⟩)) hs
        | taken hline hreads =>
            exact absurd ((contains_labels_iff h label).mpr ⟨_, hline, _, hreads⟩) hc

theorem malformed_of_addLine {cause : Cause} (h : layout.Describes above)
    (ha : layout.addLine number line = .error cause) : Malformed above line := by
  have hreads : Reads line (labelOf line) (wordsOf line) := reads_iff.mpr ⟨rfl, rfl⟩
  rw [Layout.addLine_eq, Layout.defineLine] at ha
  cases hlabel : labelOf line with
  | none =>
      rw [hlabel] at ha
      cases hwords : Item.ofWords (wordsOf line) with
      | error cause => exact .words hreads (badWords_of_ofWords hwords)
      | ok item => simp [hwords, bind, Except.bind, pure, Except.pure] at ha
  | some label =>
      rw [hlabel] at ha hreads
      cases hdefine : layout.define label with
      | error cause => exact .label hreads ((define_fails_iff h label).mp ⟨cause, hdefine⟩)
      | ok middle =>
          cases hwords : Item.ofWords (wordsOf line) with
          | error cause => exact .words hreads (badWords_of_ofWords hwords)
          | ok item => simp [hdefine, hwords, bind, Except.bind, pure, Except.pure] at ha

theorem not_malformed_of_addLine (h : layout.Describes above)
    (ha : layout.addLine number line = .ok layout') : ¬ Malformed above line := by
  obtain ⟨middle, hdefine, hitem, -⟩ := Layout.addLine_eq_ok ha
  intro hbad
  cases hbad with
  | label hreads hbad =>
      obtain ⟨cause, herror⟩ := (define_fails_iff h _).mpr hbad
      rw [Layout.defineLine, (reads_iff.mp hreads).1] at hdefine
      simp only [herror] at hdefine
      cases hdefine
  | words hreads hbad =>
      rw [(reads_iff.mp hreads).2] at hitem
      exact not_badWords_of_ofWords hitem hbad

/-- The items on the lines, each with the number of its line. -/
def numbered (lines : List (List Char)) : List (Nat × Item) :=
  (lines.zipIdx 1).filterMap fun (line, number) => (itemOf line).map fun item => (number, item)

theorem numbered_append_singleton (lines : List (List Char)) (line : List Char) :
    numbered (lines ++ [line]) =
      numbered lines ++ ((itemOf line).map fun item => (lines.length + 1, item)).toList := by
  rw [numbered, List.zipIdx_append, List.filterMap_append, numbered, Nat.add_comm 1]
  cases h : itemOf line <;> simp [h]

theorem items_addLine (ha : layout.addLine number line = .ok layout') :
    layout'.items = layout.items ++ ((itemOf line).map fun item => (number, item)).toList := by
  obtain ⟨middle, hdefine, -, rfl⟩ := Layout.addLine_eq_ok ha
  have hmiddle : middle.items = layout.items := by
    rw [Layout.defineLine] at hdefine
    split at hdefine
    · obtain ⟨-, rfl⟩ := Layout.labels_define hdefine
      rfl
    · cases hdefine
      rfl
  rw [Layout.items_placeLine, hmiddle]

/-- The first pass goes on up to the first malformed line. -/
theorem extend_spec (lines : List (List Char)) :
    match Layout.extend {} 1 lines with
    | .ok layout => layout.Describes lines ∧ layout.items = numbered lines ∧
        ∀ number, ¬ MalformedAt lines number
    | .error e => IsLeast {number | MalformedAt lines number} e.line := by
  -- From the end: what is above a line then stays the same while lines are added below it.
  induction lines using List.reverseRecOn with
  | nil =>
      refine ⟨Layout.describes_nil, rfl, ?_⟩
      rintro number ⟨k, line, hk, -⟩
      simp at hk
  | append_singleton lines line ih =>
      rw [Layout.extend_append]
      cases hlines : Layout.extend {} 1 lines with
      | error e =>
          rw [hlines] at ih
          refine ⟨at_append_singleton.mpr (.inl ih.1), fun number hnumber => ?_⟩
          rcases at_append_singleton.mp hnumber with hnumber | ⟨rfl, -⟩
          · exact ih.2 hnumber
          · exact Nat.le_succ_of_le (le_length_of_at ih.1)
      | ok layout =>
          rw [hlines] at ih
          obtain ⟨hdescribes, hitems, hnone⟩ := ih
          rw [Nat.add_comm]
          change match Layout.extend layout (lines.length + 1) [line] with
            | .ok _ => _
            | .error _ => _
          rw [Layout.extend]
          cases hline : layout.addLine (lines.length + 1) line with
          | error cause =>
              have hbad := malformed_of_addLine hdescribes hline
              refine ⟨at_append_singleton.mpr (.inr ⟨rfl, hbad⟩), fun number hnumber => ?_⟩
              rcases at_append_singleton.mp hnumber with hnumber | ⟨rfl, -⟩
              · exact absurd hnumber (hnone number)
              · exact Nat.le_refl _
          | ok layout' =>
              refine ⟨hdescribes.addLine hline, ?_, fun number hnumber => ?_⟩
              · rw [items_addLine hline, hitems, numbered_append_singleton]
              · rcases at_append_singleton.mp hnumber with hnumber | ⟨-, hbad⟩
                · exact hnone number hnumber
                · exact not_malformed_of_addLine hdescribes hline hbad

end FirstPass

/-! ### The second pass -/

theorem mem_numbered {lines : List (List Char)} {number : Nat} {item : Item} :
    (number, item) ∈ numbered lines ↔
      ∃ k line, lines[k]? = some line ∧ number = k + 1 ∧ itemOf line = some item := by
  simp only [numbered, List.mem_filterMap, Prod.exists, List.mem_zipIdx_iff_le_and_getElem?_sub,
    Option.map_eq_some_iff, Prod.mk.injEq]
  constructor
  · rintro ⟨line, n, ⟨hn, hline⟩, other, hitem, rfl, rfl⟩
    exact ⟨n - 1, line, hline, by omega, hitem⟩
  · rintro ⟨k, line, hline, rfl, hitem⟩
    exact ⟨line, k + 1, ⟨Nat.le_add_left 1 k, hline⟩, item, hitem, rfl, rfl⟩

theorem pairwise_numbered (lines : List (List Char)) :
    (numbered lines).Pairwise fun entry entry' => entry.1 < entry'.1 := by
  have hlines : (lines.zipIdx 1).Pairwise fun entry entry' => entry.2 < entry'.2 := by
    rw [← List.pairwise_map (f := Prod.snd) (R := (· < ·)), List.zipIdx_map_snd]
    exact List.pairwise_lt_range'
  rw [numbered, List.pairwise_filterMap]
  refine hlines.imp fun {entry entry'} hlt first hfirst second hsecond => ?_
  obtain ⟨item, -, rfl⟩ := Option.map_eq_some_iff.mp hfirst
  obtain ⟨item', -, rfl⟩ := Option.map_eq_some_iff.mp hsecond
  exact hlt

theorem emitAll_cons (labels : Labels) (number : Nat) (item : Item) (items : List (Nat × Item)) :
    emitAll labels ((number, item) :: items) =
      match item.emit labels with
      | .ok words => (emitAll labels items).map fun rest => words :: rest
      | .error cause => .error ⟨number, cause⟩ := by
  rw [emitAll, List.mapM_cons, ← emitAll]
  dsimp only
  cases item.emit labels with
  | error cause => rfl
  | ok words => cases emitAll labels items <;> rfl

/-- The second pass goes on up to the first item that cannot be emitted. -/
theorem emitAll_spec (labels : Labels) (items : List (Nat × Item)) :
    match emitAll labels items with
    | .ok _ => ∀ entry ∈ items, ∃ words, entry.2.emit labels = .ok words
    | .error e => ∃ before entry after, items = before ++ entry :: after ∧ e.line = entry.1 ∧
        (∃ cause, entry.2.emit labels = .error cause) ∧
        ∀ other ∈ before, ∃ words, other.2.emit labels = .ok words := by
  induction items with
  | nil => exact fun _ h => absurd h List.not_mem_nil
  | cons entry items ih =>
      obtain ⟨number, item⟩ := entry
      rw [emitAll_cons]
      cases hitem : item.emit labels with
      | error cause =>
          exact ⟨[], (number, item), items, rfl, rfl, ⟨cause, hitem⟩, fun _ h =>
            absurd h List.not_mem_nil⟩
      | ok words =>
          have hemits : ∀ entry ∈ [(number, item)], ∃ words, entry.2.emit labels = .ok words := by
            intro entry hentry
            rw [List.mem_singleton.mp hentry]
            exact ⟨words, hitem⟩
          cases hitems : emitAll labels items with
          | ok rest =>
              rw [hitems] at ih
              exact fun entry h => (List.mem_cons.mp h).elim
                (fun h => hemits entry (List.mem_singleton.mpr h)) (ih entry)
          | error e =>
              rw [hitems] at ih
              obtain ⟨before, entry, after, rfl, he, hfails, hbefore⟩ := ih
              refine ⟨(number, item) :: before, entry, after, rfl, he, hfails, fun other h => ?_⟩
              exact (List.mem_cons.mp h).elim
                (fun h => hemits other (List.mem_singleton.mpr h)) (hbefore other)

theorem numeral_fails_iff (text : List Char) : (∃ cause, numeral text = .error cause) ↔
    ∀ value, Decimal.Numeral text value → value < -32768 ∨ 65535 < value := by
  cases hread : numeral text with
  | ok word =>
      obtain ⟨value, hvalue, hlo, hhi, -⟩ := numeral_eq_ok_iff.mp hread
      constructor
      · rintro ⟨cause, herror⟩
        cases herror
      · intro hrange
        have hwide := hrange value hvalue
        omega
  | error cause =>
      refine ⟨fun _ value hvalue => ?_, fun _ => ⟨cause, rfl⟩⟩
      by_contra hfits
      have hok := numeral_eq_ok_iff.mpr
        ⟨value, hvalue, by omega, by omega, Word.toNat_ofInt value⟩
      rw [hread] at hok
      cases hok

section SecondPass

variable {layout : Layout} {lines : List (List Char)}

theorem operandWord_fails_iff (h : layout.Describes lines) (text : List Char) :
    (∃ cause, operandWord layout.labels text = .error cause) ↔ Unresolved lines text := by
  cases hlabel : layout.labels[text]? with
  | some address =>
      have hdefines := (h.labels text address).mp hlabel
      have hword : operandWord layout.labels text =
          if address < 65536 then .ok (UInt16.ofNat address)
          else .error (.unreachableLabel text) := by
        simp only [operandWord, hlabel]
      rw [hword]
      constructor
      · rintro ⟨cause, herror⟩
        split at herror
        · cases herror
        · exact .tooFar hdefines (by omega)
      · intro hbad
        cases hbad with
        | @tooFar far hfar hlt =>
            rw [(h.labels text far).mpr hfar, Option.some.injEq] at hlabel
            have hnot : ¬ address < 65536 := by omega
            exact ⟨_, if_neg hnot⟩
        | unreadable hnone _ => exact absurd hdefines (hnone address)
  | none =>
      have hnone : ∀ address, ¬ Defines lines text address := by
        intro address hdefines
        rw [(h.labels text address).mpr hdefines] at hlabel
        cases hlabel
      rw [operandWord_of_no_label hlabel]
      refine (numeral_fails_iff text).trans ⟨fun hrange => .unreadable hnone hrange, fun hbad => ?_⟩
      cases hbad with
      | tooFar hfar _ => exact absurd hfar (hnone _)
      | unreadable _ hrange => exact hrange

theorem hasUnresolved_iff (line : List Char) : HasUnresolved lines line ↔
    ∃ head operand, wordsOf line = [head, operand] ∧ Unresolved lines operand := by
  simp only [HasUnresolved, reads_iff]
  constructor
  · rintro ⟨label?, head, operand, ⟨-, hwords⟩, hbad⟩
    exact ⟨head, operand, hwords, hbad⟩
  · rintro ⟨head, operand, hwords, hbad⟩
    exact ⟨labelOf line, head, operand, ⟨rfl, hwords⟩, hbad⟩

/-- An item can be emitted unless it has an operand and this is unresolved. -/
theorem emit_fails_iff (h : layout.Describes lines) {head : List Char}
    {operand : Option (List Char)} {item : Item} (hparse : Item.parse head operand = .ok item) :
    (∃ cause, item.emit layout.labels = .error cause) ↔
      ∃ text, operand = some text ∧ Unresolved lines text := by
  have hbind : ∀ (text : List Char) (f : Word → List Word),
      (∃ cause, (operandWord layout.labels text >>= fun word => pure (f word)) =
        Except.error cause) ↔ Unresolved lines text := by
    intro text f
    rw [← operandWord_fails_iff h]
    cases operandWord layout.labels text with
    | ok word =>
        constructor <;>
        · rintro ⟨cause, herror⟩
          cases herror
    | error cause => exact ⟨fun _ => ⟨cause, rfl⟩, fun _ => ⟨cause, rfl⟩⟩
  have hsome : ∀ value : List Char,
      (∃ text, some value = some text ∧ Unresolved lines text) ↔ Unresolved lines value := by simp
  rcases of_parse_eq_ok hparse with ⟨rfl, value, rfl, rfl⟩ | ⟨op, agrees, hop, rfl⟩
  · exact (hbind value fun word => [word]).trans (hsome value).symm
  · cases operand with
    | none => simp [Item.emit]
    | some text => exact (hbind text fun word => [op.code, word]).trans (hsome text).symm

theorem unresolvedAt_iff (h : layout.Describes lines) {number : Nat} :
    UnresolvedAt lines number ↔ ∃ item, (number, item) ∈ numbered lines ∧
      ∃ cause, item.emit layout.labels = .error cause := by
  simp only [mem_numbered, UnresolvedAt, At, hasUnresolved_iff]
  constructor
  · rintro ⟨k, line, hk, rfl, head, text, hwords, hbad⟩
    have hparsed := h.parsed line (List.mem_of_getElem? hk)
    rcases of_ofWords_eq_ok hparsed with ⟨hnil, -⟩ | ⟨head', operand, item, hcons, hparse, hitem⟩
    · rw [hwords] at hnil
      cases hnil
    · refine ⟨item, ⟨k, line, hk, rfl, hitem⟩, (emit_fails_iff h hparse).mpr ⟨text, ?_, hbad⟩⟩
      rw [hwords, List.cons.injEq] at hcons
      cases operand <;> simp_all
  · rintro ⟨item, ⟨k, line, hk, rfl, hitem⟩, hfails⟩
    have hparsed := h.parsed line (List.mem_of_getElem? hk)
    rcases of_ofWords_eq_ok hparsed with ⟨-, hnone⟩ | ⟨head, operand, item', hcons, hparse, hsome⟩
    · rw [hitem] at hnone
      cases hnone
    · rw [hitem, Option.some.injEq] at hsome
      obtain ⟨text, rfl, hbad⟩ := (emit_fails_iff h (hsome ▸ hparse)).mp hfails
      exact ⟨k, line, hk, rfl, head, text, hcons, hbad⟩

/-- Over the items of a whole source, the second pass goes on up to the first line with an
unresolved operand. -/
theorem emitAll_numbered (h : layout.Describes lines) :
    match emitAll layout.labels (numbered lines) with
    | .ok _ => ∀ number, ¬ UnresolvedAt lines number
    | .error e => IsLeast {number | UnresolvedAt lines number} e.line := by
  have hspec := emitAll_spec layout.labels (numbered lines)
  cases hemit : emitAll layout.labels (numbered lines) with
  | ok words =>
      rw [hemit] at hspec
      intro number hnumber
      obtain ⟨item, hmem, cause, herror⟩ := (unresolvedAt_iff h).mp hnumber
      obtain ⟨words, hwords⟩ := hspec _ hmem
      simp only [hwords] at herror
      cases herror
  | error e =>
      rw [hemit] at hspec
      obtain ⟨before, ⟨number, item⟩, after, hsplit, rfl, hfails, hbefore⟩ := hspec
      -- Items are numbered upwards, so none behind the one that failed is on an earlier line.
      have hsorted := pairwise_numbered lines
      rw [hsplit, List.pairwise_append] at hsorted
      refine ⟨(unresolvedAt_iff h).mpr ⟨item, ?_, hfails⟩, fun other hother => ?_⟩
      · rw [hsplit]
        exact List.mem_append_right _ List.mem_cons_self
      · obtain ⟨item', hmem, cause, herror⟩ := (unresolvedAt_iff h).mp hother
        rw [hsplit, List.mem_append, List.mem_cons] at hmem
        rcases hmem with hmem | hmem | hmem
        · obtain ⟨words, hwords⟩ := hbefore _ hmem
          simp only [hwords] at herror
          cases herror
        · obtain ⟨rfl, -⟩ := Prod.mk.inj hmem
          exact Nat.le_refl _
        · exact Nat.le_of_lt ((List.pairwise_cons.mp hsorted.2.1).1 _ hmem)

end SecondPass

/-! ### Both passes -/

/-- Which sources the assembler accepts, and which line it blames for one that it refuses. -/
structure LineGrammar (source : List Char) : Prop where
  /-- The first malformed line is blamed, whatever the operands above it stand for. -/
  malformed : ∀ number, IsLeast {number | MalformedAt (sourceLines source) number} number →
    ∃ cause, assemble source = .error ⟨number, cause⟩
  /-- If no line is malformed, the first line with an unresolved operand is blamed. -/
  unresolved : (∀ number, ¬ MalformedAt (sourceLines source) number) →
    ∀ number, IsLeast {number | UnresolvedAt (sourceLines source) number} number →
      ∃ cause, assemble source = .error ⟨number, cause⟩
  accepted_iff : (∃ image, assemble source = .ok image) ↔
    (∀ number, ¬ MalformedAt (sourceLines source) number) ∧
      ∀ number, ¬ UnresolvedAt (sourceLines source) number

theorem assemble_lineGrammar (source : List Char) : LineGrammar source := by
  have hfirst := extend_spec (sourceLines source)
  cases hlayout : Layout.extend {} 1 (sourceLines source) with
  | error e =>
      have hsource : assemble source = .error e := by
        rw [assemble, Layout.ofSource_eq_extend, hlayout]
        rfl
      rw [hlayout] at hfirst
      refine ⟨fun number hnumber => ?_, fun hnone => ?_, ?_⟩
      · rw [hnumber.unique hfirst]
        exact ⟨e.cause, hsource⟩
      · exact absurd hfirst.1 (hnone e.line)
      · rw [hsource]
        refine ⟨?_, fun hnone => absurd hfirst.1 (hnone.1 e.line)⟩
        rintro ⟨image, hok⟩
        cases hok
  | ok layout =>
      rw [hlayout] at hfirst
      obtain ⟨hdescribes, hitems, hnone⟩ := hfirst
      have hsecond := emitAll_numbered hdescribes
      rw [← hitems] at hsecond
      cases hemit : emitAll layout.labels layout.items with
      | error e =>
          have hsource : assemble source = .error e := by
            rw [assemble, Layout.ofSource_eq_extend, hlayout]
            change (emitAll layout.labels layout.items >>= _) = _
            rw [hemit]
            rfl
          rw [hemit] at hsecond
          refine ⟨fun number hnumber => absurd hnumber.1 (hnone number),
            fun _ number hnumber => ?_, ?_⟩
          · rw [hnumber.unique hsecond]
            exact ⟨e.cause, hsource⟩
          · rw [hsource]
            refine ⟨?_, fun hnone => absurd hsecond.1 (hnone.2 e.line)⟩
            rintro ⟨image, hok⟩
            cases hok
      | ok words =>
          have hsource : assemble source = .ok words.flatten := by
            rw [assemble, Layout.ofSource_eq_extend, hlayout]
            change (emitAll layout.labels layout.items >>= _) = _
            rw [hemit]
            rfl
          rw [hemit] at hsecond
          exact ⟨fun number hnumber => absurd hnumber.1 (hnone number),
            fun _ number hnumber => absurd hnumber.1 (hsecond number),
            fun _ => ⟨hnone, hsecond⟩, fun _ => ⟨words.flatten, hsource⟩⟩

/-- The line with the bad operand comes first, and the malformed line is blamed. -/
example : assemble "jmp nowhere\n\nnop 1".toList = .error ⟨3, .unexpectedOperand .nop⟩ := by cbv

/-- The seventeen mnemonics in the order of their codes, and in either case. -/
example : assemble ("halt\nnop\nadd\nsub\nmult\ndiv\ncall 1\nreturn 1\njmp 1\njeq 1\nPRINTI\n" ++
      "PRINTS\nPUSHC 1\nPUSHA 1\nPUSHR 1\nPOPA 1\nPOPR 1").toList =
    .ok [0, 1, 2, 3, 4, 5, 6, 1, 7, 1, 8, 1, 9, 1, 10, 11, 12, 1, 13, 1, 14, 1, 15, 1, 16, 1] := by
  rfl

end Assembly

end CoolMachine
