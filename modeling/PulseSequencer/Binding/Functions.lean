import PulseSequencer.Binding.Function

/-! # The function table

The functions of a document, by id and by name. No id and no name occurs twice. -/

namespace PulseSequencer

/-- The functions, lowest id first. -/
structure FunctionTable where
  functions : List Function := []
deriving DecidableEq, Repr, Inhabited

namespace FunctionTable

def get? (t : FunctionTable) (name : String) : Option Function := t.functions.find? fun f => f.name == name

def byId? (t : FunctionTable) (id : UInt8) : Option Function := t.functions.find? fun f => f.id == id

def idOf? (t : FunctionTable) (name : String) : Option UInt8 := (t.get? name).map Function.id

def place (f : Function) : List Function → List Function
  | [] => [f]
  | g :: gs => if f.id < g.id then f :: g :: gs else g :: place f gs

def insert (t : FunctionTable) (f : Function) : Except BindingError FunctionTable :=
  if (t.get? f.name).isSome ∨ (t.byId? f.id).isSome then .error (.duplicateDefinition .function f.name)
  else .ok ⟨place f t.functions⟩

/-- Puts a variant in the place of the function with the same id and name. -/
def replace (t : FunctionTable) (f : Function) : Except BindingError FunctionTable :=
  if t.idOf? f.name = some f.id then .ok ⟨t.functions.map fun g => if g.id = f.id then f else g⟩
  else .error (.undefinedFunction f.name)

end FunctionTable

end PulseSequencer
