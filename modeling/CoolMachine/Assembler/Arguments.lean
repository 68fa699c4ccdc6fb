import CoolMachine.CommandLine.Grammar

/-! The arguments of the command that assembles a source text. -/

namespace CoolMachine.Assembler

open CommandLine

def optionSpecs : List OptionSpec := .valued "output" (some 'o') checkPath :: standardOptions

structure Arguments where
  source : String
  output : Option String
  deriving DecidableEq

def Arguments.parse (arguments : List String) : Except Stop Arguments := do
  let (source, settings) ← CommandLine.parse optionSpecs arguments
  return { source, output := settings.value? "output" }

/-- The part of a file name that ends with its last dot; empty if it has no dot. -/
def throughLastDot (name : List Char) : List Char := (name.reverse.dropWhile (· != '.')).reverse

/-- The file name without its last dot and what follows; a leading dot starts no extension. -/
def fileStem (name : List Char) : List Char :=
  if (throughLastDot name).length ≤ 1 then name else (throughLastDot name).dropLast

/-- The name of the image for a source of this name. The old extension goes before the new one is
put on, and two dots that are left over lead to the directory above, which takes no extension. -/
def imageName (name : List Char) : List Char :=
  if throughLastDot name = ['.', '.'] then ['.', '.'] else fileStem name ++ ".coolexe".toList

/-- The path of the image next to its source: the extension is replaced. -/
def imagePath (source : String) : String :=
  let reversed := source.toList.reverse
  let name := (reversed.takeWhile (· != '/')).reverse
  let directory := (reversed.dropWhile (· != '/')).reverse
  String.ofList (directory ++ imageName name)

def Arguments.target (arguments : Arguments) : String :=
  arguments.output.getD (imagePath arguments.source)

theorem throughLastDot_append (stem : List Char) {extension : List Char} (h : '.' ∉ extension) :
    throughLastDot (stem ++ '.' :: extension) = stem ++ ['.'] := by
  have hp : ∀ c ∈ extension.reverse, (c != '.') = true := by
    intro c hc
    rw [List.mem_reverse] at hc
    exact bne_iff_ne.2 fun e => h (e ▸ hc)
  rw [throughLastDot, List.reverse_append, List.reverse_cons, List.append_assoc,
    List.dropWhile_append_of_pos hp]
  simp

/-- What stands before the extension stays, unless it is nothing or a single dot. -/
theorem imageName_append {stem extension : List Char} (h : '.' ∉ extension) (hs : stem ≠ [])
    (hd : stem ≠ ['.']) :
    imageName (stem ++ '.' :: extension) = stem ++ ".coolexe".toList := by
  have hl : ¬ (stem ++ ['.']).length ≤ 1 := by
    have := List.length_pos_iff.2 hs
    simp only [List.length_append, List.length_singleton]
    omega
  have ht : stem ++ ['.'] ≠ ['.', '.'] := fun e =>
    hd (List.append_cancel_right (e : stem ++ ['.'] = ['.'] ++ ['.']))
  rw [imageName, fileStem, throughLastDot_append stem h, if_neg ht, if_neg hl, List.dropLast_concat]

theorem imageName_dot_dot {extension : List Char} (h : '.' ∉ extension) :
    imageName ('.' :: '.' :: extension) = ['.', '.'] := by
  rw [imageName, show '.' :: '.' :: extension = ['.'] ++ '.' :: extension from rfl,
    throughLastDot_append ['.'] h]
  rfl

end CoolMachine.Assembler
