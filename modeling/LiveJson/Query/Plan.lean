import LiveJson.Query.Basic

/-! Query plans: one query evaluated several times, over documents that a plan may change on its
way. -/

namespace LiveJson

variable {ι : Type}

/-- Ways of telling whether a node is of the type `@other()`. -/
inductive OtherType where
  | always
  | isOne
  | composite
  | deep
  | hasParent
  | arrayParent
  | keyA
  | index
  | never
deriving DecidableEq, Repr

namespace OtherType

def ofName : String → OtherType
  | "always" => always
  | "isOne" => isOne
  | "composite" => composite
  | "deep" => deep
  | "hasParent" => hasParent
  | "arrayParent" => arrayParent
  | "propA" => keyA
  | "index" => index
  | _ => never

def isIndex : Key → Bool
  | .index _ => true
  | .name _ => false

def classifier (type : OtherType) : Classifier ι := fun node path parent key =>
  match type with
  | always => true
  | isOne => node.asFloat?.any (· == 1.0)
  | composite => node.isComposite
  | deep => 2 ≤ path.length
  | hasParent => parent.isSome
  | arrayParent => parent.any fun t => t.kind == .array
  | keyA => key = some (.name "a")
  | index => key.any isIndex
  | never => false

end OtherType

inductive QueryStep where
  | run
  | evaluate
  | aim (path : QueryPath) (document : Json)

structure QueryPlan where
  options : QueryOptions
  parent : Option Json := none
  parentKey : Option Key := none
  other : Option OtherType := none
  steps : List QueryStep := [.run]

/-- How the steps of a plan ended, where a query that did not run has no result, and all matches
that were reported on the way. -/
structure QueryOutcome (ι : Type) where
  results : List (Except PathError (Option (Result ι)))
  reports : List (Match ι)

namespace QueryPlan

/-- Takes the steps in order. `embed` makes trees of the plan's own documents, which it numbers. -/
def performAll [DecidableEq ι] (embed : Nat → Json → Tree ι) (query : Query ι) (number : Nat) :
    List QueryStep → QueryOutcome ι
  | [] => { results := [], reports := [] }
  | step :: steps =>
    let query :=
      match step with
      | .aim path document => query.aim path (embed number document)
      | _ => query
    let run : Run (Match ι) (Option (Result ι)) :=
      match step with
      | .run => query.run
      | _ => do return some (← query.evaluate)
    let later := performAll embed query (number + 1) steps
    { results := run.outcome :: later.results, reports := run.reports ++ later.reports }

def perform [DecidableEq ι] (plan : QueryPlan) (embed : Nat → Json → Tree ι)
    (document : Option (Tree ι)) : QueryOutcome ι :=
  let query : Query ι :=
    { options := plan.options, document, parent := plan.parent.map (embed 1),
      parentKey := plan.parentKey, classifier := plan.other.map OtherType.classifier }
  performAll embed query 2 plan.steps

/-- Performs the plan over a plain document. -/
def performOn (plan : QueryPlan) (document : Option Json) : QueryOutcome Spot :=
  plan.perform (fun number v => Tree.ofJson number [] v) (document.map (Tree.ofJson 0 []))

end QueryPlan

end LiveJson
