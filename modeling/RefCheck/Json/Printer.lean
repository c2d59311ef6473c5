import RefCheck.Json.Quoted

/-!
# Printing JSON

Arrays and objects are spread over lines and indented by two blanks for each level; empty ones stay
on one line. The items are printed already, for the level that they stand on.
-/

namespace RefCheck.Json

def newline (level : Nat) : List Char := '\n' :: List.replicate (2 * level) ' '

/-- Printed items between brackets, each on a line of its own. -/
def printList (opening closing : Char) (level : Nat) (items : List (List Char)) : List Char :=
  match items with
  | [] => [opening, closing]
  | _ =>
    let lines := items.map (newline (level + 1) ++ ·)
    opening :: List.intercalate [','] lines ++ newline level ++ [closing]

def printArray (level : Nat) (items : List (List Char)) : List Char :=
  printList '[' ']' level items

def printMember (name : String) (value : List Char) : List Char :=
  quoted name ++ [':', ' '] ++ value

def printObject (level : Nat) (members : List (List Char)) : List Char :=
  printList '\x7b' '\x7d' level members

def printNatural (n : Nat) : List Char := (toString n).toList

end RefCheck.Json
