import NeuralPlan.Trial

/-!
# The command line

Runs a trial, reports errors on the standard error stream, and writes a summary where one is
asked for.  The exit code is 2 for a command line that sets up no trial, 1 for a trial that
fails with a report, and 101 for one that stops with a fault.
-/

set_option relaxedAutoImplicit false
set_option autoImplicit false

open NeuralPlan

/-- The milliseconds between two times in nanoseconds. -/
def elapsedMs (before after : Nat) : Float := Float.ofNat (after - before) / 1000000.0

/-- Runs the remaining runs of a trial, and notes the time that each takes. -/
def timedRuns (o : Trial.Options) (p : Trial.Prepared) :
    Nat → Trial.Progress → Array Float → IO (Except Trial.Stopped (Trial.Progress × Array Float))
  | 0, progress, times => return .ok (progress, times)
  | count + 1, progress, times => do
    let before ← IO.monoNanosNow
    match Trial.step o p progress with
    | .error stopped => return .error stopped
    | .ok progress =>
      let after ← IO.monoNanosNow
      timedRuns o p count progress (times.push (elapsedMs before after))

/-- Reports why a trial stopped. -/
def reportStop (stopped : Trial.Stopped) : IO UInt32 := do
  match stopped.failure with
  | .error e =>
    IO.eprintln (Trial.report stopped.stage e)
    return 1
  | .fault _ =>
    IO.eprintln ("stopped while " ++ stopped.stage.label)
    return 101

/-- Writes a summary to a file. -/
def writeSummary (path text : String) : IO UInt32 := do
  try
    IO.FS.writeFile path text
    return 0
  catch e =>
    IO.eprintln (Trial.reportText ("writing the summary to " ++ path) (toString e))
    return 1

/-- Runs a trial and writes its summary. -/
def runTrial (o : Trial.Options) (default : Resources) : IO UInt32 := do
  let before ← IO.monoNanosNow
  match Trial.prepare o default with
  | .error stopped => reportStop stopped
  | .ok p =>
    let after ← IO.monoNanosNow
    match Trial.start o p with
    | .error stopped => reportStop stopped
    | .ok progress =>
      match ← timedRuns o p o.runs progress #[] with
      | .error stopped => reportStop stopped
      | .ok (progress, times) =>
        match o.summary with
        | none => return 0
        | some path =>
          writeSummary path ((Trial.summarise p progress).toJson (elapsedMs before after) times)

/-- Sets up a trial from the command line and the environment, and runs it. -/
def main (words : List String) : IO UInt32 := do
  let threads? ← IO.getEnv Resources.threadsVariable
  let megabytes? ← IO.getEnv Resources.megabytesVariable
  match Trial.Options.ofWords? threads? megabytes? words with
  | none =>
    IO.eprintln "error: the options do not set up a trial"
    return 2
  | some options => runTrial options (Resources.ofVariables threads? megabytes? 1)
