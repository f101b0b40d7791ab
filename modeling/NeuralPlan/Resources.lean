import NeuralPlan.Failure
import NeuralPlan.Text.Quantity
import NeuralPlan.Text.Decimal

/-!
# Resources

The threads and the memory that a plan is made for and run with.  Where they are not set, two
variables of the environment and in the end fixed defaults stand in.

## Main definitions

* `Resources`, with `Resources.bytes` and `Resources.validate`.
* `Resources.threadsOf?`, `Resources.megabytesOf` — the settings that the variables hold.
-/

set_option relaxedAutoImplicit false
set_option autoImplicit false

namespace NeuralPlan

/-- Threads, and memory in megabytes. -/
structure Resources where
  threads : Nat
  megabytes : Float
deriving Inhabited

namespace Resources

/-- The memory in bytes. -/
def bytes (r : Resources) : Nat := Quantity.bytesOfMegabytes r.megabytes

/-- Fails if there is no thread. -/
def validate (r : Resources) : Result Unit :=
  if r.threads = 0 then fail (.invalidState .noThreads) else .ok ()

/-- The name of the variable that holds the threads. -/
def threadsVariable : String := "SPARSE_NET_MAX_SOLVE_THREADS"

/-- The name of the variable that holds the megabytes. -/
def megabytesVariable : String := "SPARSE_NET_DEVICE_MAX_MEGABYTES"

/-- The memory where none is set. -/
def defaultMegabytes : Float := 2048.0

/-- A count in digits, after an optional plus sign, that an unsigned word holds. -/
def readCount? (text : String) : Option Nat :=
  let digits := match text.toList with
    | '+' :: cs => cs
    | cs => cs
  if digits.isEmpty || !digits.all Char.isDigit then none
  else
    let n := Decimal.ofDigits digits
    if n < 18446744073709551616 then some n else none

/-- The threads that a variable sets, if it holds a count above zero. -/
def threadsOf? (held? : Option String) : Option Nat :=
  (held?.bind readCount?).filter (0 < ·)

/-- The memory that a variable sets, if it holds a number above zero, or else the default. -/
def megabytesOf (held? : Option String) : Float :=
  ((held?.bind Decimal.read?).filter (0.0 < ·)).getD defaultMegabytes

/-- The resources that the variables set, on a machine with so many threads. -/
def ofVariables (threads? megabytes? : Option String) (available : Nat) : Resources :=
  ⟨(threadsOf? threads?).getD available, megabytesOf megabytes?⟩

end Resources

end NeuralPlan
