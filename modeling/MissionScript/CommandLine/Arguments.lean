import MissionScript.Sequence.Listing

/-!
# Command line arguments

What the program is asked to do: `run`, `check` and `dump` a script, or `test` scripts. A file alone
is run. Options stand anywhere after the command that they belong to; two of them may also stand in
front of it.

An option whose value is an argument of its own waits until the next argument finds its place: only
then is it checked. So of two mistakes, an argument that has no place counts before a bad value in
front of it.
-/

namespace MissionScript

/-- An option of the command line. -/
structure OptionForm where
  name : String
  /-- A letter that stands for the name. -/
  short : Option Char := none
  /-- What the value is called, if there is one. -/
  valueName : Option String := none
  /-- The value may not be empty. -/
  needsContent : Bool := false
  repeats : Bool := false

namespace OptionForm

def noColor : OptionForm where name := "no-color"

def config : OptionForm where
  name := "config"
  valueName := "CONFIG"
  needsContent := true

def addresses : OptionForm where name := "addr"

def generating : OptionForm where name := "gen"

def indent : OptionForm where
  name := "indent"
  valueName := "INDENT"

def category : OptionForm where
  name := "category"
  short := 'c'
  valueName := "CATEGORY"
  repeats := true

def listCategories : OptionForm where name := "list-categories"

def help : OptionForm where
  name := "help"
  short := 'h'

def version : OptionForm where
  name := "version"
  short := 'V'

/-- How messages show the option. -/
def shown (o : OptionForm) : String :=
  "--" ++ o.name ++ match o.valueName with
    | some called => " <" ++ called ++ ">"
    | none => ""

end OptionForm

/-- What the arguments get wrong. -/
inductive UsageError where
  | unexpected (argument : Text)
  | valueMissing (form : OptionForm)
  | valueUnexpected (form : OptionForm) (given : Text)
  | repeated (form : OptionForm)
  | operandMissing
  | commandMissing
  | unknownCommand (name : Text)

namespace UsageError

def message : UsageError → String
  | unexpected argument => "unexpected argument '" ++ argument.str ++ "' found"
  | valueMissing form => "a value is required for '" ++ form.shown ++ "' but none was supplied"
  | valueUnexpected form given =>
    "unexpected value '" ++ given.str ++ "' for '" ++ form.shown ++
      "' found; no more were expected"
  | repeated form => "the argument '" ++ form.shown ++ "' cannot be used multiple times"
  | operandMissing => "the following required arguments were not provided:"
  | commandMissing => "'mscript' requires a subcommand but one was not provided"
  | unknownCommand name => "unrecognized subcommand '" ++ name.str ++ "'"

end UsageError

/-- Why the arguments ask for nothing to be done. -/
inductive ArgumentStop where
  | usage (error : UsageError)
  /-- There are no options and there is no command. -/
  | nothing
  | help
  | version

/-- How an option ends the reading wherever it stands. -/
def OptionForm.stop? (o : OptionForm) : Option ArgumentStop :=
  if o.name == OptionForm.help.name then some .help
  else if o.name == OptionForm.version.name then some .version
  else none

/-- The arguments of the program or of one command that have been read. -/
structure ReadArguments where
  options : List (String × Text) := []
  operands : List Text := []
  /-- An option that is not checked yet, with its value once that is read. -/
  waiting : Option (OptionForm × Option Text) := none

namespace ReadArguments

def has (r : ReadArguments) (form : OptionForm) : Bool := (r.options.lookup form.name).isSome

def value? (r : ReadArguments) (form : OptionForm) : Option Text := r.options.lookup form.name

/-- The values of an option that repeats. -/
def values (r : ReadArguments) (form : OptionForm) : List Text :=
  (r.options.filter (·.1 == form.name)).map (·.2)

/-- Check an option and add it with its value. -/
def add (r : ReadArguments) (form : OptionForm) (given : Text) :
    Except ArgumentStop ReadArguments :=
  if r.has form && !form.repeats then .error (.usage (.repeated form))
  else if form.needsContent && given.isEmpty then .error (.usage (.valueMissing form))
  else .ok { r with options := r.options ++ [(form.name, given)] }

/-- Check and add the option that waits. -/
def settle (r : ReadArguments) : Except ArgumentStop ReadArguments :=
  match r.waiting with
  | none => .ok r
  | some (form, none) => .error (.usage (.valueMissing form))
  | some (form, some given) => { r with waiting := none }.add form given

/-- Take in an option with the value that is written in the same argument, if there is one. -/
def takeOption (r : ReadArguments) (form : OptionForm) (given : Option Text) :
    Except ArgumentStop ReadArguments :=
  match form.valueName, given with
  | none, some given => .error (.usage (.valueUnexpected form given))
  | none, none => do
    let r ← r.settle
    match form.stop? with
    | some stop => throw stop
    | none => r.add form []
  | some _, some given => do (← r.settle).add form given
  | some _, none => do
    let r ← r.settle
    return { r with waiting := some (form, none) }

end ReadArguments

/-- What may stand in a place: in front of the command, or after it. -/
structure ArgumentGrammar where
  forms : List OptionForm
  /-- How many operands there may be. In front of the command there are none. -/
  operands : Nat
  /-- What is wrong with a word beyond the operands. -/
  surplus : Text → UsageError := .unexpected

namespace ArgumentGrammar

/-- An argument that starts with a dash is an option, but a dash alone is not. -/
def isOption (argument : Text) : Bool := argument.head? == some '-' && argument != ['-']

/-- The option that an argument names, with what is written behind it as its value. What follows the
letter of an option without a value is dropped: each such option ends the reading. -/
def find (g : ArgumentGrammar) (argument : Text) :
    Except ArgumentStop (OptionForm × Option Text) :=
  match argument with
  | '-' :: '-' :: long =>
    let (name, given) : Text × Option Text :=
      match Text.cutAt '=' long with
      | some (name, given) => (name, some given)
      | none => (long, none)
    match g.forms.find? (·.name.toList == name) with
    | some form => .ok (form, given)
    | none => .error (.usage (.unexpected ('-' :: '-' :: name)))
  | '-' :: letter :: rest =>
    match g.forms.find? (·.short == some letter) with
    | some form =>
      .ok (form, if form.valueName.isNone || rest.isEmpty then none
        else some ((Text.after? ['='] rest).getD rest))
    | none => .error (.usage (.unexpected ['-', letter]))
  | _ => .error (.usage (.unexpected argument))

/-- Take in a word that is no option and no value of one. -/
def takeWord (g : ArgumentGrammar) (r : ReadArguments) (word : Text) :
    Except ArgumentStop ReadArguments :=
  if r.operands.length < g.operands then do
    let r ← r.settle
    return { r with operands := r.operands ++ [word] }
  else .error (.usage (g.surplus word))

/-- Read arguments. In front of the command the reading stops there. Behind a double dash there are
only words. The last option may be left waiting. -/
def read (g : ArgumentGrammar) (r : ReadArguments) :
    List Text → Except ArgumentStop (ReadArguments × List Text)
  | [] => .ok (r, [])
  | argument :: rest =>
    if argument == ['-', '-'] then do return (← rest.foldlM g.takeWord r, [])
    else if isOption argument then do
      let (form, given) ← g.find argument
      g.read (← r.takeOption form given) rest
    else match r.waiting with
      | some (form, none) => g.read { r with waiting := some (form, some argument) } rest
      | _ =>
        if g.operands = 0 then .ok (r, argument :: rest)
        else do g.read (← g.takeWord r argument) rest

end ArgumentGrammar

/-- What the program is asked to do. -/
inductive Request where
  | run (file : Text)
  | check (file : Text)
  | dump (file : Text) (style : ListingStyle)
  | listCategories (path : Text)
  | test (path : Text) (categories : List Text)

structure Invocation where
  colored : Bool
  /-- The file with the settings. -/
  config : Option Text
  request : Request

namespace Invocation

/-- Options that stand in front of the command or after it. -/
def commonForms : List OptionForm := [.noColor, .config]

/-- The options of a command. -/
def formsOf? (command : Text) : Option (List OptionForm) :=
  match command.str with
  | "run" | "check" => some []
  | "dump" => some [.addresses, .generating, .indent]
  | "test" => some [.category, .listCategories]
  | _ => none

/-- The command that shows help. -/
def helpCommand : Text := "help".toList

def isCommand (word : Text) : Bool := (formsOf? word).isSome || word == helpCommand

/-- What may stand in front of the command. Behind a double dash there is no command any more. -/
def programGrammar : ArgumentGrammar where
  forms := commonForms ++ [.help, .version]
  operands := 0
  surplus word := if isCommand word then .unexpected word else .unknownCommand word

/-- Why asking for help ends: with help on the program or a command, or for a word that is none. -/
def helpStop : List Text → ArgumentStop
  | [] => .help
  | command :: rest =>
    if !isCommand command then .usage (.unknownCommand command)
    else match rest with
      | [] => .help
      | word :: _ => .usage (.unknownCommand word)

/-- What a command is asked to do with its operand. -/
def requestOf (command operand : Text) (r : ReadArguments) : Request :=
  match command.str with
  | "check" => .check operand
  | "dump" =>
    let indent := (r.value? .indent).getD [' ', ' ']
    .dump operand ⟨r.has .addresses, r.has .generating, indent⟩
  | "test" =>
    if r.has .listCategories then .listCategories operand else .test operand (r.values .category)
  | _ => .run operand

/-- Read a command with its arguments. The option that waits in front of the command is checked
last. -/
def ofCommand (front : ReadArguments) (command : Text) (arguments : List Text) :
    Except ArgumentStop Invocation := do
  match formsOf? command with
  | none =>
    throw (if command == helpCommand then helpStop arguments else .usage (.unknownCommand command))
  | some forms =>
    let grammar : ArgumentGrammar := { forms := forms ++ commonForms ++ [.help], operands := 1 }
    let (r, _) ← grammar.read {} arguments
    let r ← r.settle
    match r.operands with
    | [] => throw (.usage .operandMissing)
    | operand :: _ =>
      let front ← front.settle
      return {
        colored := !(front.has .noColor || r.has .noColor)
        config := (r.value? .config).or (front.value? .config)
        request := requestOf command operand r }

/-- Put `run` in front of the first argument that is no option, unless that is a command. -/
def withCommand : List Text → List Text
  | [] => []
  | argument :: rest =>
    if argument == "--config".toList then
      match rest with
      | [] => [argument]
      | path :: rest => argument :: path :: withCommand rest
    else if argument.head? == some '-' then argument :: withCommand rest
    else if isCommand argument then argument :: rest
    else "run".toList :: argument :: rest

/-- Read the arguments of the program. -/
def parse (arguments : List Text) : Except ArgumentStop Invocation := do
  let (front, rest) ← programGrammar.read {} (withCommand arguments)
  match rest with
  | [] =>
    let front ← front.settle
    throw (if front.options.isEmpty then .nothing else .usage .commandMissing)
  | command :: rest => ofCommand front command rest

end Invocation

end MissionScript
