/-!
# Graph drawings

A graph as text for the graphviz tools: a header, one line per node with its
label, a blank line, one line per edge.
-/

namespace Interlock

/-- A graph to be drawn. Nodes are numbered by their place in `labels`. -/
structure Drawing where
  /-- The name of the whole graph. -/
  title : String
  /-- What the name of each node starts with. -/
  stem : String
  /-- For each node the lines of its label. -/
  labels : List (List String)
  edges : List (Nat × Nat)

namespace Drawing

/-- The line that declares node `i`; label lines are divided by the two characters `\n`. -/
def nodeLine (d : Drawing) (i : Nat) (label : List String) : String :=
  "  " ++ d.stem ++ i.repr ++ "[label=\"" ++ "\\n".intercalate label ++ "\"]\n"

/-- The line that declares an edge. -/
def edgeLine (d : Drawing) (e : Nat × Nat) : String :=
  "  " ++ d.stem ++ e.1.repr ++ " -> " ++ d.stem ++ e.2.repr ++ "\n"

/-- The whole text. -/
def render (d : Drawing) : String :=
  "digraph " ++ d.title ++ " \x7b\n"
    ++ String.join (d.labels.mapIdx d.nodeLine)
    ++ "\n"
    ++ String.join (d.edges.map d.edgeLine)
    ++ "\x7d\n"

end Drawing

end Interlock
