import LiveJson.Session.Address
import LiveJson.Session.Script

/-! Sessions from the beginning, in which the locations of loads are plain addresses. How often the
scripts of listeners run in all is bounded by the session itself, and that bounds how deep their calls
can be nested. -/

namespace LiveJson.Session

/-- More levels than any document has. -/
def reach : Nat := Nat.pow 2 64

/-- The reports of a session that starts without any model. -/
def run (steps : List Step) : List StepReport :=
  let listeners : Listeners Memory := { tell := tell reach (runsOfAll steps + 1), reach }
  takeAll listeners { memory := {} } steps

end LiveJson.Session
