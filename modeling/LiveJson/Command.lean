import LiveJson.Json.Reader
import LiveJson.Json.Writer
import LiveJson.Query.Basic

/-! The command line: finds a path in a document and writes a line for each match, its location
and its value. -/

namespace LiveJson

/-- What is to be found, and the file that holds the document if it is not standard input. -/
structure Command where
  path : String
  file : Option String
deriving DecidableEq, Repr

namespace Command

structure Exit where
  code : Nat
  stdout : String := ""
  stderr : String := ""
deriving DecidableEq, Repr

/-- A second argument names a file, and further ones are ignored. -/
def ofArgs? : List String → Option Command
  | [] => none
  | [path] => some { path, file := none }
  | path :: file :: _ => some { path, file := some file }

def usage : Exit := { code := 2, stderr := "usage: jsonpath-model <path> [file]\n" }

def failed (text : String) : Exit := { code := 1, stderr := text ++ "\n" }

def line (m : Match Spot) : String := m.path.toText ++ " " ++ m.matched.toJson.write ++ "\n"

/-- Runs on the text of the document, or on why there is none. -/
def run (command : Command) (text : Except String String) : Exit :=
  match text with
  | .error reason => failed reason
  | .ok text =>
    match Json.read? text with
    | none => failed "the input is not a JSON document"
    | some document =>
      match find command.path document with
      | .error e => failed e.message
      | .ok ms => { code := 0, stdout := String.join (ms.map line) }

end Command

end LiveJson
