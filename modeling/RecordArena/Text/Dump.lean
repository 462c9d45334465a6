/-!
# Structure dumps

A dump shows a structure by its name and its fields. It is printed on one line, or indented with
one field or item per line.
-/

namespace RecordArena.Text

/-- The value of a dumped field. -/
inductive DumpValue where
  | atom (text : String)
  | list (items : List String)

/-- A named structure and its fields in order. -/
structure Dump where
  name : String
  fields : List (String × DumpValue)

namespace DumpValue

def inline : DumpValue → String
  | atom text => text
  | list items => "[" ++ ", ".intercalate items ++ "]"

/-- The value with one item per line, inside a field that is indented by one step. -/
def indented : DumpValue → String
  | atom text => text
  | list [] => "[]"
  | list items => "[\n" ++ String.join (items.map fun item => s!"        {item},\n") ++ "    ]"

end DumpValue

namespace Dump

def inline (d : Dump) : String :=
  let fields := d.fields.map fun (name, value) => s!"{name}: {value.inline}"
  d.name ++ " \x7b " ++ ", ".intercalate fields ++ " \x7d"

/-- The dump with one field per line. -/
def indented (d : Dump) : String :=
  let fields := d.fields.map fun (name, value) => s!"    {name}: {value.indented},\n"
  d.name ++ " \x7b\n" ++ String.join fields ++ "\x7d"

end Dump

end RecordArena.Text
