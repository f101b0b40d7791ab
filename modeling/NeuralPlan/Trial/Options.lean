import NeuralPlan.Resources

/-!
# Options of a trial

A trial is set up by words of a command line.  An option has a long name behind two hyphens and
mostly a letter behind one; its value follows as the next word, behind an equals sign, or right
behind the letter.  A word that begins with a hyphen is no value of the word before it.

## Main definitions

* `Trial.Options` — what a trial is made of.
* `Trial.Option.scan?` — the options that words give, in order.
* `Trial.Options.ofWords?` — the trial that words and variables set up.
-/

set_option relaxedAutoImplicit false
set_option autoImplicit false

namespace NeuralPlan.Trial

/-- What a trial is made of. -/
structure Options where
  inputSize : Nat
  layers : List Nat
  threads : Option Nat
  megabytes : Option Float
  /-- The number of runs, which keep the values of the neurons between them. -/
  runs : Nat
  seed : Nat
  /-- The file that a summary is written to. -/
  summary : Option String
  /-- Whether messages are written as JSON. -/
  jsonLogs : Bool

/-- What a word may set. -/
inductive Key
  | inputSize
  | layers
  | threads
  | megabytes
  | runs
  | seed
  | summary
  | jsonLogs
deriving DecidableEq

namespace Key

/-- Every key. -/
def all : List Key := [inputSize, layers, threads, megabytes, runs, seed, summary, jsonLogs]

/-- The long name. -/
def name : Key → String
  | inputSize => "input-size"
  | layers => "layers"
  | threads => "threads"
  | megabytes => "device-max-megabytes"
  | runs => "runs"
  | seed => "seed"
  | summary => "summary"
  | jsonLogs => "json-logs"

/-- The letter, for those that have one. -/
def letter? : Key → Option Char
  | inputSize => some 'i'
  | layers => some 'l'
  | threads => some 't'
  | megabytes => some 'd'
  | runs => some 'r'
  | seed => some 's'
  | summary | jsonLogs => none

/-- Whether the key stands without a value. -/
def isFlag : Key → Bool
  | jsonLogs => true
  | _ => false

/-- The key of a long name. -/
def ofName? (name : String) : Option Key := all.find? fun key => key.name == name

/-- The key of a letter. -/
def ofLetter? (letter : Char) : Option Key := all.find? fun key => key.letter? == some letter

end Key

/-- Whether a word may be the value of the word before it. -/
def isValue (word : String) : Bool := !word.startsWith "-" || word == "-"

/-- What the words of a command line set, in order. -/
def scan? : List String → Option (List (Key × String))
  | [] => some []
  | word :: words =>
    match word.toList with
    | ['-', '-'] => if words.isEmpty then some [] else none
    | '-' :: '-' :: cs => do
      let key ← Key.ofName? (String.ofList (cs.takeWhile (· != '=')))
      match cs.dropWhile (· != '='), key.isFlag with
      | [], true => return (key, "") :: (← scan? words)
      | _ :: value, false => return (key, String.ofList value) :: (← scan? words)
      | _ :: _, true => none
      | [], false =>
        match words with
        | value :: words => if isValue value then return (key, value) :: (← scan? words) else none
        | [] => none
    | '-' :: letter :: cs => do
      let key ← Key.ofLetter? letter
      match cs with
      | '=' :: value => return (key, String.ofList value) :: (← scan? words)
      | c :: value => return (key, String.ofList (c :: value)) :: (← scan? words)
      | [] =>
        match words with
        | value :: words => if isValue value then return (key, value) :: (← scan? words) else none
        | [] => none
    | _ => none

namespace Options

/-- The trial that is made where nothing is set. -/
def standard : Options where
  inputSize := 16
  layers := [64, 64, 32, 8]
  threads := none
  megabytes := none
  runs := 10
  seed := 42
  summary := none
  jsonLogs := false

/-- The values given for a key. -/
def valuesOf (key : Key) (given : List (Key × String)) : List String :=
  (given.filter (·.1 == key)).map Prod.snd

/-- The one value of a key, read, or a default if there is none.  There may not be two. -/
def one? {α : Type} (key : Key) (read? : String → Option α) (default : α)
    (given : List (Key × String)) : Option α :=
  match valuesOf key given with
  | [] => some default
  | [value] => read? value
  | _ => none

/-- The one value of a key, or else of a variable, read. -/
def oneOrVariable? {α : Type} (key : Key) (read? : String → Option α) (held? : Option String)
    (given : List (Key × String)) : Option (Option α) :=
  match valuesOf key given, held? with
  | [], none => some none
  | [], some value => (read? value).map some
  | [value], _ => (read? value).map some
  | _, _ => none

/-- Layer sizes between commas. -/
def readLayers? (text : String) : Option (List Nat) :=
  (text.splitOn ",").mapM Resources.readCount?

/-- The layers that a key gives, in one piece or several. -/
def layers? (given : List (Key × String)) : Option (List Nat) :=
  match valuesOf .layers given with
  | [] => some standard.layers
  | values => (values.mapM readLayers?).map List.flatten

/-- The trial that the words of a command line and the two variables for resources set up. -/
def ofWords? (threadsVariable? megabytesVariable? : Option String) (words : List String) :
    Option Options := do
  let given ← scan? words
  return {
    inputSize := ← one? .inputSize Resources.readCount? standard.inputSize given
    layers := ← layers? given
    threads := ← oneOrVariable? .threads Resources.readCount? threadsVariable? given
    megabytes := ← oneOrVariable? .megabytes Decimal.read? megabytesVariable? given
    runs := ← one? .runs Resources.readCount? standard.runs given
    seed := ← one? .seed Resources.readCount? standard.seed given
    summary := ← one? .summary (fun path => if path.isEmpty then none else some (some path)) none
      given
    jsonLogs := ← one? .jsonLogs (fun _ => some true) false given }

end Options

end NeuralPlan.Trial
