import FlowEngine.Json.Printer

/-!
# Indented JSON text

Each item and field on a line of its own, two blanks deeper than its list or object.
-/
namespace FlowEngine.Json

def newLine (depth : Nat) : String := "\n" ++ String.ofList (List.replicate (2 * depth) ' ')

mutual
def renderIndentedOnto (text : String) (depth : Nat) : Json → String
  | .arr [] => text ++ "[]"
  | .arr (v :: rest) =>
    renderIndentedItemsOnto (text ++ "[") (depth + 1) (v :: rest) ++ newLine depth ++ "]"
  | .obj [] => text ++ "\x7b\x7d"
  | .obj (f :: rest) =>
    renderIndentedFieldsOnto (text ++ "\x7b") (depth + 1) (f :: rest) ++ newLine depth ++ "\x7d"
  | .null => text ++ "null"
  | .bool b => text ++ (if b then "true" else "false")
  | .num n => text ++ n.render
  | .str s => text ++ quote s

def renderIndentedItemsOnto (text : String) (depth : Nat) : List Json → String
  | [] => text
  | [v] => v.renderIndentedOnto (text ++ newLine depth) depth
  | v :: w :: rest =>
    renderIndentedItemsOnto (v.renderIndentedOnto (text ++ newLine depth) depth ++ ",") depth
      (w :: rest)

def renderIndentedFieldsOnto (text : String) (depth : Nat) : List (String × Json) → String
  | [] => text
  | [(k, v)] => v.renderIndentedOnto (text ++ newLine depth ++ quote k ++ ": ") depth
  | (k, v) :: f :: rest =>
    renderIndentedFieldsOnto
      (v.renderIndentedOnto (text ++ newLine depth ++ quote k ++ ": ") depth ++ ",") depth
      (f :: rest)
end

def renderIndented (v : Json) : String := v.renderIndentedOnto "" 0

end FlowEngine.Json
