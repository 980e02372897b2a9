/-! # Command line arguments

A command line is a row of switches, some of which take a value: behind an equals sign, right behind the
letter, or as the next argument if that does not look like a switch. All arguments are taken in before
anything is said of what is missing. -/

namespace PulseSequencer

structure Switch where
  name : String
  letter : Option Char := none
  takesValue : Bool := true
  required : Bool := false
  /-- Another switch that has to be given too. -/
  needs : Option String := none
  /-- The values that may be given; empty if there is no restriction. -/
  choices : List String := []
deriving DecidableEq, Repr

inductive UsageError where
  | unknownArgument
  | missingRequiredArgument
  | invalidValue
  | emptyValue
  | repeatedArgument
  | helpDisplayed
  | versionDisplayed
deriving DecidableEq, Repr

/-- A switch that was given, how often, and with which values. -/
structure Given where
  switch : Switch
  count : Nat
  values : List String
deriving DecidableEq, Repr

structure Arguments where
  given : List Given := []
deriving DecidableEq, Repr

namespace Arguments

def get? (a : Arguments) (name : String) : Option Given := a.given.find? fun g => g.switch.name == name

def has (a : Arguments) (name : String) : Bool := (a.get? name).isSome

def value? (a : Arguments) (name : String) : Option String := (a.get? name).bind fun g => g.values.head?

def record (a : Arguments) (s : Switch) (count : Nat) (values : List String) : Arguments :=
  if a.has s.name then
    ⟨a.given.map fun g =>
      if g.switch.name = s.name then { g with count := g.count + count, values := g.values ++ values } else g⟩
  else ⟨a.given ++ [⟨s, count, values⟩]⟩

structure State where
  arguments : Arguments := {}
  /-- The switch whose value is the next argument. -/
  pending : Option Switch := none
  /-- Set behind an argument of two dashes alone. -/
  closed : Bool := false

def State.takeSwitch (state : State) (s : Switch) (value : Option (List Char)) : State :=
  if s.takesValue then
    match value with
    | some cs =>
      { state with
        arguments := state.arguments.record s 1 [String.ofList (cs.dropWhile (· = '='))], pending := none }
    | none => { state with arguments := state.arguments.record s 1 [], pending := some s }
  else { state with arguments := state.arguments.record s 1 [], pending := none }

def State.takeLong (switches : List Switch) (state : State) (cs : List Char) : Except UsageError State :=
  let body := cs.dropWhile (· = '-')
  let name := body.takeWhile (· ≠ '=')
  let value := if cs.contains '=' then some (body.drop (name.length + 1)) else none
  match switches.find? fun s => s.name.toList == name with
  | some s => .ok (state.takeSwitch s value)
  | none =>
    if name = "help".toList then .error .helpDisplayed
    else if name = "version".toList then .error .versionDisplayed
    else .error .unknownArgument

/-- An argument with one dash: letters, the last of which may have its value behind it. -/
def State.takeShort (switches : List Switch) (state : State) : List Char → Except UsageError State
  | [] => .ok state
  | c :: rest =>
    match switches.find? fun s => s.letter == some c with
    | some s =>
      if s.takesValue then .ok (state.takeSwitch s (if rest.isEmpty then none else some rest))
      else (state.takeSwitch s none).takeShort switches rest
    | none =>
      if c = 'h' then .error .helpDisplayed
      else if c = 'V' then .error .versionDisplayed
      else .error .unknownArgument

def State.take (switches : List Switch) (state : State) (argument : String) : Except UsageError State :=
  let cs := argument.toList
  if state.closed then .error .unknownArgument
  else
    match cs with
    | ['-', '-'] => .ok { state with closed := true }
    | '-' :: '-' :: _ => state.takeLong switches cs
    | '-' :: c :: rest => state.takeShort switches (c :: rest)
    | _ =>
      match state.pending with
      | some s => .ok { state with arguments := state.arguments.record s 0 [argument], pending := none }
      | none => .error .unknownArgument

def missing (switches : List Switch) (a : Arguments) : Bool :=
  switches.any fun s => s.required && !a.has s.name

def complaint? (a : Arguments) (g : Given) : Option UsageError :=
  if g.switch.takesValue && g.values.isEmpty then some .emptyValue
  else if !g.switch.choices.isEmpty && g.values.any (fun v => !g.switch.choices.contains v) then
    some .invalidValue
  else if g.switch.needs.any fun name => !a.has name then some .missingRequiredArgument
  else if 1 < g.count then some .repeatedArgument
  else none

def read (switches : List Switch) (arguments : List String) : Except UsageError Arguments := do
  let state ← arguments.foldlM (State.take switches) {}
  let a := state.arguments
  if missing switches a then throw .missingRequiredArgument
  match state.pending with
  | some s => if (a.get? s.name).all fun g => g.values.isEmpty then throw .emptyValue
  | none => pure ()
  match a.given.findSome? a.complaint? with
  | some e => throw e
  | none => return a

end Arguments

end PulseSequencer
