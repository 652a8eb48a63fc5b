import LiveJson.Match.Trace
import LiveJson.Query.Options
import LiveJson.Segment.Reader
import LiveJson.Tree.Document

/-! Queries: a path and its options over a document. The matches are reported one by one as they are
found, and the result comes at the end. -/

namespace LiveJson

variable {ι : Type}

structure Query (ι : Type) where
  options : QueryOptions
  document : Option (Tree ι) := none
  parent : Option (Tree ι) := none
  parentKey : Option Key := none
  classifier : Option (Classifier ι) := none

namespace Query

def tracer (query : Query ι) : Tracer ι :=
  { bindings := query.options.sandbox, preventEval := query.options.preventEval,
    classifier := query.classifier }

/-- Without a path or a document there is nothing to find. -/
def evaluate [DecidableEq ι] (query : Query ι) : Run (Match ι) (Result ι) :=
  match query.options.path, query.document with
  | some path, some document => do
    let segments ← Run.ofExcept (Segment.read path.toExpression)
    let ms ← query.tracer.trace segments document query.parent query.parentKey
    return Result.ofMatches query.options.resultType query.options.wrap query.options.flatten ms
  | _, _ => pure .nothing

/-- Evaluates the query only if it is set to run by itself. -/
def run [DecidableEq ι] (query : Query ι) : Run (Match ι) (Option (Result ι)) :=
  if query.options.autoRun then do
    let result ← query.evaluate
    return some result
  else pure none

/-- The same query with another path and document. -/
def aim (query : Query ι) (path : QueryPath) (document : Tree ι) : Query ι :=
  { query with
    options := { query.options with path := some path }
    document := some document }

end Query

/-- All matches of a path expression in a tree. -/
def Tree.search [DecidableEq ι] (path : String) (tree : Tree ι) :
    Except PathError (List (Match ι)) := do
  let segments ← Segment.read path
  (Tracer.trace {} segments tree none none).outcome

/-- All matches of a path expression in a document. -/
def find (path : String) (document : Json) : Except PathError (List (Match Spot)) :=
  (Tree.ofJson 0 [] document).search path

/-- The matched nodes, without the keys that were asked for. -/
def findValues (path : String) (document : Json) : Except PathError (List (Tree Spot)) := do
  let ms ← find path document
  return ms.filterMap fun m => m.matched.node?

end LiveJson
