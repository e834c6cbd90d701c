/-!
# Targets of assignments

An assignment writes a binding or, with a target `state.<field>`, a field of the
object that is shared by the whole flow.
-/
namespace FlowEngine

inductive Target where
  | binding (name : String)
  | field (name : String)
deriving DecidableEq

namespace Target

def stateName : String := "state"

def fieldMark : List Char := stateName.toList ++ ['.']

def ofText (text : String) : Target :=
  let cs := text.toList
  if fieldMark.isPrefixOf cs then field (String.ofList (cs.drop fieldMark.length))
  else binding text

/-- The name that is written, without the mark of a field. -/
def name : Target → String
  | binding name => name
  | field name => name

end Target
end FlowEngine
