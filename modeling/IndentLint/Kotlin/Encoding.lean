import IndentLint.Json.Fields
import IndentLint.Kotlin.ParseTree

/-!
# Parses as JSON

A parse is an object.  Its member `nodes` lists all nodes in document order, each as its kind, its first byte, the
byte behind it and the number of its children; `has_error` says whether errors were skipped.
-/

namespace IndentLint.Kotlin

/-- The trees that a list of nodes in document order stands for. -/
def ParseTree.ofNodes? : List Json → Option (List ParseTree)
  | [] => some []
  | .array [kind, start, stop, count] :: rest => do
    return gather (← kind.text?) (← start.natural64?) (← stop.natural64?) (← count.natural64?) (← ofNodes? rest)
  | _ :: _ => none

/-- Reads a parse. -/
def Parse.ofJson? (j : Json) : Option Parse := do
  let nodes ← (← j.get? "nodes").items?
  let hasErrors ← (← j.get? "has_error").flag?
  let root ← (← ParseTree.ofNodes? nodes).head?
  return { root, hasErrors }

/-- The grammar that knows some parses, each by the source it is of. -/
def Grammar.ofParses (parses : List (String × Parse)) : Grammar :=
  fun source => parses.lookup (String.ofList source)

/-- The grammar that knows the parses in an object, each under the name of its source. -/
def Grammar.ofJson (source? : String → Option String) : Json → Grammar
  | .object members =>
    ofParses (members.filterMap fun (name, value) => do return (← source? name, ← Parse.ofJson? value))
  | _ => ofParses []

end IndentLint.Kotlin
