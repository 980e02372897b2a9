import PulseSequencer.Text.Quoted

/-! # Indented objects

A value of nested objects and lists, written with two blanks of indentation per level. Fields keep the
order in which they are given. -/

namespace PulseSequencer

inductive Json where
  | number (n : Nat)
  | bool (b : Bool)
  | text (s : String)
  | list (items : List Json)
  | object (fields : List (String × Json))

namespace Json

def quote (s : String) : String :=
  String.ofList (quoted (fun c => c.toNat < 0x20) s.toList)

def indentation (level : Nat) : String := String.ofList (List.replicate (2 * level) ' ')

def block (opening closing : String) (level : Nat) (items : List String) : String :=
  if items.isEmpty then opening ++ closing
  else
    let separator := ",\n" ++ indentation (level + 1)
    opening ++ "\n" ++ indentation (level + 1) ++ separator.intercalate items ++ "\n" ++ indentation level
      ++ closing

mutual

def render (level : Nat) : Json → String
  | number n => toString n
  | bool b => if b then "true" else "false"
  | text s => quote s
  | list items => block "[" "]" level (renderItems (level + 1) items)
  | object fields => block "\x7b" "\x7d" level (renderFields (level + 1) fields)

def renderItems (level : Nat) : List Json → List String
  | [] => []
  | item :: items => render level item :: renderItems level items

def renderFields (level : Nat) : List (String × Json) → List String
  | [] => []
  | (key, value) :: fields => (quote key ++ ": " ++ render level value) :: renderFields level fields

end

end Json

end PulseSequencer
