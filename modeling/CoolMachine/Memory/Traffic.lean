/-! Counters of the memory traffic that a running program causes. The cache counters are
reserved: no cache stands in front of main memory yet. -/

namespace CoolMachine

structure Traffic where
  reads : Nat := 0
  writes : Nat := 0
  hits : Nat := 0
  misses : Nat := 0
  deriving DecidableEq

namespace Traffic

def countRead (t : Traffic) : Traffic := { t with reads := t.reads + 1 }

def countWrite (t : Traffic) : Traffic := { t with writes := t.writes + 1 }

/-- One line for each counter: its name, a tab and its value. -/
def report (t : Traffic) : String :=
  "@number-of-main-memory-reads\t" ++ toString t.reads ++ "\n" ++
  "@number-of-main-memory-writes\t" ++ toString t.writes ++ "\n" ++
  "@number-of-cache-memory-hits\t" ++ toString t.hits ++ "\n" ++
  "@number-of-cache-memory-misses\t" ++ toString t.misses ++ "\n"

end Traffic

end CoolMachine
