/-!
# Command-line arguments

Arguments are options or positional. An option begins with a dash and is told by a long name or a
letter; its value is attached to it or is the next argument. A single dash is no option, and
after a double dash nothing is. No option may be given twice.
-/

namespace AutomataLab.Command

/-- An option that a command understands. -/
structure OptionForm where
  long : String
  short : Option Char := none
  takesValue : Bool := true

/-- The options that were given, with their values, and the positional arguments. -/
structure Arguments where
  options : List (String × String) := []
  positional : List String := []

/-- What one argument is. -/
inductive ArgumentKind where
  | positional
  /-- An option that is complete; a switch has no value. -/
  | complete (name : String) (value : String)
  /-- An option whose value is the next argument. -/
  | needsValue (name : String)
  | unknown

/-- Whether an argument cannot be a value because it looks like an option. -/
def looksLikeOption (argument : String) : Bool :=
  match argument.toList with
  | '-' :: _ :: _ => true
  | _ => false

/-- Tell what an option of a known form is, given what is attached to it. -/
def kindOf (form : OptionForm) (attached : Option String) : ArgumentKind :=
  match form.takesValue, attached with
  | true, some value => .complete form.long value
  | true, none => .needsValue form.long
  | false, none => .complete form.long ""
  | false, some _ => .unknown

/-- The text after the first equals sign, if there is one. -/
def attachedValue? (body : List Char) : Option String :=
  match body.dropWhile (· ≠ '=') with
  | '=' :: value => some (.ofList value)
  | _ => none

/-- Tell what an argument is. -/
def classify (forms : List OptionForm) (argument : String) : ArgumentKind :=
  match argument.toList with
  | '-' :: '-' :: body =>
    match forms.find? (·.long.toList = body.takeWhile (· ≠ '=')) with
    | some form => kindOf form (attachedValue? body)
    | none => .unknown
  | '-' :: letter :: body =>
    match forms.find? (·.short = some letter) with
    | some form =>
      kindOf form
        (match body with
          | [] => none
          | '=' :: value => some (.ofList value)
          | value => some (.ofList value))
    | none => .unknown
  | _ => .positional

namespace Arguments

/-- Add an option, unless it has been given before. -/
def addOption? (a : Arguments) (name value : String) : Option Arguments :=
  if (a.options.lookup name).isSome then none
  else some { a with options := (name, value) :: a.options }

/-- Sort arguments into options and positional ones, after those that are in `a` already. -/
def collect? (forms : List OptionForm) (a : Arguments) : List String → Option Arguments
  | [] => some a
  | "--" :: rest => some { a with positional := a.positional ++ rest }
  | argument :: rest =>
    match classify forms argument with
    | .positional => collect? forms { a with positional := a.positional ++ [argument] } rest
    | .complete name value => do collect? forms (← a.addOption? name value) rest
    | .needsValue name =>
      match rest with
      | [] => none
      | value :: rest =>
        if looksLikeOption value then none
        else do collect? forms (← a.addOption? name value) rest
    | .unknown => none

/-- Whether a switch was given. -/
def hasSwitch (a : Arguments) (name : String) : Bool := (a.options.lookup name).isSome

/-- The value of an option that may be left out, taken by `decode`. The outer option is none if
the value is refused. -/
def value? {α : Type} (a : Arguments) (name : String) (decode : String → Option α) :
    Option (Option α) :=
  match a.options.lookup name with
  | none => some none
  | some value => (decode value).map some

end Arguments

/-! ## Values -/

/-- A file name is not empty. -/
def fileName? (s : String) : Option String := if s = "" then none else some s

/-- A natural number below `2 ^ 64`, in decimal digits after an optional plus sign. -/
def natural? (s : String) : Option Nat :=
  let digits := match s.toList with
    | '+' :: rest => rest
    | l => l
  if digits ≠ [] ∧ digits.all Char.isDigit then
    let n := digits.foldl (fun n c => 10 * n + (c.toNat - '0'.toNat)) 0
    if n < UInt64.size then some n else none
  else none

end AutomataLab.Command
