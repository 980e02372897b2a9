import PulseSequencer.Document.Definition
import PulseSequencer.Text.Path

/-! # Documents

A document holds the definitions of one file section by section, in the order they were written. Merging
adds the definitions of an included file whose names are still free; pointer names are shared by all kinds
of pointers. -/

namespace PulseSequencer

structure Document where
  path : Path
  includes : List IncludeDef := []
  constants : List ConstantDef := []
  clocks : List ClockDef := []
  pointers : List PointerDef := []
  functions : List FunctionDef := []
  subroutines : List RoutineDef := []
  mains : List RoutineDef := []
deriving DecidableEq, Repr

/-- The stronger definitions and then those weaker ones whose name none of the stronger ones has. -/
def mergeByName {α : Type} (name : α → String) (stronger weaker : List α) : List α :=
  let taken := stronger.map name
  stronger ++ weaker.filter fun d => !taken.contains (name d)

def Document.merge (d weaker : Document) : Document :=
  { d with
    constants := mergeByName ConstantDef.name d.constants weaker.constants
    clocks := mergeByName ClockDef.name d.clocks weaker.clocks
    pointers := mergeByName PointerDef.name d.pointers weaker.pointers
    functions := mergeByName FunctionDef.name d.functions weaker.functions
    subroutines := mergeByName RoutineDef.name d.subroutines weaker.subroutines
    mains := mergeByName RoutineDef.name d.mains weaker.mains }

end PulseSequencer
