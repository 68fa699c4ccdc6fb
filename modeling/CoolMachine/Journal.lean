/-! Log records. A journal keeps the records that its verbosity lets through, newest first; the
text of a record that is not kept is never made. -/

namespace CoolMachine

/-- The severity of a record. -/
inductive Level where
  | error
  | warn
  | info
  | debug
  | trace
  deriving DecidableEq

namespace Level

/-- More severe levels have smaller ranks. -/
def rank : Level → Nat
  | error => 1
  | warn => 2
  | info => 3
  | debug => 4
  | trace => 5

def name : Level → String
  | error => "ERROR"
  | warn => "WARN"
  | info => "INFO"
  | debug => "DEBUG"
  | trace => "TRACE"

def all : List Level := [error, warn, info, debug, trace]

/-- Level names are recognised in either case of the ASCII letters. -/
def ofName? (text : String) : Option Level :=
  all.find? fun level => text.toList.map Char.toUpper == level.name.toList

end Level

/-- The part of the program that a record comes from. -/
inductive Origin where
  | machine
  | image
  | runner
  deriving DecidableEq

structure Record where
  level : Level
  origin : Origin
  text : String
  deriving DecidableEq

/-- No verbosity means that nothing is kept. -/
structure Journal where
  verbosity : Option Level := none
  newestFirst : List Record := []

namespace Journal

/-- Whether records of this level are kept. -/
def keeps (journal : Journal) (level : Level) : Bool :=
  match journal.verbosity with
  | some verbosity => level.rank ≤ verbosity.rank
  | none => false

/-- The records kept, oldest first. -/
def records (journal : Journal) : List Record := journal.newestFirst.reverse

def note (journal : Journal) (level : Level) (origin : Origin) (text : Unit → String) : Journal :=
  if journal.keeps level then
    { journal with newestFirst := ⟨level, origin, text ()⟩ :: journal.newestFirst }
  else journal

theorem verbosity_note (journal : Journal) (level : Level) (origin : Origin)
    (text : Unit → String) : (journal.note level origin text).verbosity = journal.verbosity := by
  unfold note
  split <;> rfl

theorem records_note (journal : Journal) (level : Level) (origin : Origin)
    (text : Unit → String) :
    (journal.note level origin text).records =
      journal.records ++ if journal.keeps level then [⟨level, origin, text ()⟩] else [] := by
  unfold note
  split <;> simp [records]

end Journal

end CoolMachine
