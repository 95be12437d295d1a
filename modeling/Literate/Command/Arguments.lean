import Literate.Config

/-!
# The command line

A command line is a command name with options before and after it, and then its operands.  Words
are read from left to right.  A word that starts with a hyphen names options, until the word `--`
says that only operands follow; any other word is the value of the option before it, or else an
operand.

An option that waits for a value, and an operand that may go on, stay pending until something else
begins.  Only then are they settled, which is when repeated options and unusable values are noticed.
The words before the command name are settled last.
-/

namespace Literate

/-- What the program is asked to do. -/
inductive Command where
  | languages
  | classify (file : Text)
  | render (file : Text)
  | load (file : Text)
  | save (file : Text) (regions : Option Text) (inPlace : Bool)
  | check (files : List Text)
  deriving DecidableEq, Repr

/-- A command line that makes sense. -/
structure Invocation where
  command : Command
  verbose : Bool
  mode : Option Text
  directive : Option Text
  deriving DecidableEq, Repr

/-- The configuration, with what the command line says in place of what it says itself. -/
def Invocation.applyTo (invocation : Invocation) (config : Config) : Config :=
  let config := if invocation.verbose then config.set "verbose" (.flag true) else config
  let config := match invocation.mode with
    | some mode => config.set "mode" (.text mode)
    | none => config
  match invocation.directive with
    | some word => config.set "directive" (.text word)
    | none => config

/-- Why a command line is not carried out. -/
inductive UsageError where
  /-- Help was asked for. -/
  | help
  /-- There are no words to go by. -/
  | nothingGiven
  | missingCommand
  | unknownCommand
  | unknownArgument
  | missingOperand
  /-- A value is missing or cannot be used. -/
  | badValue
  /-- An option is repeated. -/
  | repeated
  /-- A value stands at an option that takes none. -/
  | needlessValue
  deriving DecidableEq, Repr

/-- Asking for help is no failure. -/
def UsageError.exitCode : UsageError → Nat
  | help => 0
  | _ => 2

namespace Arguments

/-! ## Options and commands -/

inductive Key where
  | help
  | verbose
  | mode
  | directive
  | regions
  | inPlace
  deriving DecidableEq, Repr

namespace Key

def long : Key → Text
  | help => "help"
  | verbose => "verbose"
  | mode => "mode"
  | directive => "directive"
  | regions => "regions"
  | inPlace => "in-place"

def short : Key → Char
  | help => 'h'
  | verbose => 'v'
  | mode => 'm'
  | directive => 'd'
  | regions => 'r'
  | inPlace => 'i'

def takesValue : Key → Bool
  | mode => true
  | directive => true
  | regions => true
  | _ => false

/-- The value is a path, and so it cannot be empty. -/
def isPath : Key → Bool
  | regions => true
  | _ => false

/-- The options that every command has, and that may stand before its name. -/
def everywhere : List Key :=
  [help, verbose, mode, directive]

end Key

/-- How many operands a command takes. -/
inductive Capacity where
  | none
  | one
  | many
  deriving DecidableEq, Repr

/-- There is room for another operand. -/
def Capacity.admits : Capacity → Nat → Bool
  | none, _ => false
  | one, taken => taken == 0
  | many, _ => true

inductive CommandName where
  | languages
  | classify
  | render
  | load
  | save
  | check
  deriving DecidableEq, Repr

namespace CommandName

def text : CommandName → Text
  | languages => "languages"
  | classify => "classify"
  | render => "render"
  | load => "load"
  | save => "save"
  | check => "check"

def all : List CommandName :=
  [languages, classify, render, load, save, check]

def ofText? (text : Text) : Option CommandName :=
  all.find? (·.text == text)

def capacity : CommandName → Capacity
  | languages => .none
  | check => .many
  | _ => .one

/-- The options that may follow the name. -/
def keys : CommandName → List Key
  | save => Key.everywhere ++ [.regions, .inPlace]
  | _ => Key.everywhere

end CommandName

/-! ## Reading words -/

/-- What has begun and is not settled yet. -/
inductive Pending where
  | option (key : Key) (value : Option Text)
  | operands (words : List Text)
  deriving DecidableEq, Repr

/-- The words read so far on one side of the command name. -/
structure Words where
  /-- The settled options with their values; the value of a flag is empty. -/
  options : List (Key × Text) := []
  /-- The settled operands. -/
  operands : List Text := []
  pending : Option Pending := none
  /-- The next word is the value of the pending option. -/
  awaitsValue : Bool := false
  /-- Only operands follow. -/
  onlyOperands : Bool := false
  /-- The number of operands, settled or not. -/
  taken : Nat := 0
  deriving DecidableEq, Repr

namespace Words

def has (words : Words) (key : Key) : Bool :=
  (words.options.lookup key).isSome

def value? (words : Words) (key : Key) : Option Text :=
  words.options.lookup key

/-- Settle an option.  Each may come once. -/
def settleOption (words : Words) (key : Key) (value : Option Text) : Except UsageError Words :=
  if key.takesValue && value.isNone then .error .badValue
  else if key = .help then .error .help
  else if words.has key then .error .repeated
  else if key.isPath && value == some [] then .error .badValue
  else .ok { words with options := (key, value.getD []) :: words.options }

/-- Settle operands.  They are paths. -/
def settleOperands (words : Words) (operands : List Text) : Except UsageError Words :=
  if operands.contains [] then .error .badValue
  else .ok { words with operands := words.operands ++ operands }

/-- Settle what is pending. -/
def settle (words : Words) : Except UsageError Words :=
  let settled := { words with pending := none, awaitsValue := false }
  match words.pending with
  | none => .ok settled
  | some (.option key value) => settled.settleOption key value
  | some (.operands operands) => settled.settleOperands operands

/-- An option with the value that is written in the same word, or with none. -/
def complete (words : Words) (key : Key) (value : Option Text) : Except UsageError Words := do
  (← words.settle).settleOption key value

/-- An option whose value is the next word. -/
def await (words : Words) (key : Key) : Except UsageError Words := do
  .ok { ← words.settle with pending := some (.option key none), awaitsValue := true }

/-- A word of the form `--name` or `--name=value`, without its hyphens. -/
def readLong (words : Words) (keys : List Key) (word : Text) : Except UsageError Words :=
  let name := word.takeWhile (· != '=')
  let value := (word.drop name.length).tail?
  match keys.find? (·.long == name) with
  | none => .error .unknownArgument
  | some key =>
    if key.takesValue then
      match value with
      | some value => words.complete key (some value)
      | none => words.await key
    else if value.isSome then .error .needlessValue
    else words.complete key none

/-- A word of one-letter options, without its hyphen.  The first of them that takes a value has the
rest of the word for it, less an equals sign. -/
def readShort (words : Words) (keys : List Key) : Text → Except UsageError Words
  | [] => .ok words
  | c :: rest =>
    match keys.find? (·.short == c) with
    | none => .error .unknownArgument
    | some key =>
      if key.takesValue then
        match rest with
        | [] => words.await key
        | '=' :: value => words.complete key (some value)
        | value => words.complete key (some value)
      else
        (words.complete key none).bind (·.readShort keys rest)

/-- A word that is an operand, where there is room for one. -/
def readOperand (words : Words) (capacity : Capacity) (word : Text) : Except UsageError Words :=
  let words := { words with taken := words.taken + 1 }
  match capacity, words.pending with
  | .many, some (.operands operands) =>
    .ok { words with pending := some (.operands (operands ++ [word])) }
  | _, _ => do .ok { ← words.settle with pending := some (.operands [word]) }

/-- What a word is, for someone who knows only the words before it. -/
inductive Reading where
  /-- The word was taken in. -/
  | taken (words : Words)
  /-- The word can only be an operand. -/
  | operand

/-- Take in a word, unless it is an operand. -/
def read (words : Words) (keys : List Key) (word : Text) : Except UsageError Reading :=
  if words.onlyOperands then .ok .operand
  else
    match word with
    | ['-', '-'] => .ok (.taken { words with onlyOperands := true })
    | '-' :: '-' :: rest => (words.readLong keys rest).map .taken
    | '-' :: c :: rest => (words.readShort keys (c :: rest)).map .taken
    | _ =>
      match words.awaitsValue, words.pending with
      | true, some (.option key _) =>
        .ok (.taken { words with pending := some (.option key (some word)), awaitsValue := false })
      | _, _ => .ok .operand

end Words

/-! ## After the command name -/

/-- Read the words after a command name. -/
def readCommand (name : CommandName) (words : Words) : List Text → Except UsageError Words
  | [] => do
    let words ← words.settle
    if name.capacity != .none && words.operands.isEmpty then .error .missingOperand
    else .ok words
  | word :: rest => do
    match ← words.read name.keys word with
    | .taken words => readCommand name words rest
    | .operand =>
      if name.capacity.admits words.taken then
        readCommand name (← words.readOperand name.capacity word) rest
      else
        .error .unknownArgument

/-- The command that the words after its name make. -/
def command (name : CommandName) (words : Words) : Command :=
  let file := words.operands.headD []
  match name with
  | .languages => .languages
  | .classify => .classify file
  | .render => .render file
  | .load => .load file
  | .save => .save file (words.value? .regions) (words.has .inPlace)
  | .check => .check words.operands

/-- The command line, from the words before and after the command name. -/
def invocation (name : CommandName) (before after : Words) : Invocation where
  command := command name after
  verbose := before.has .verbose || after.has .verbose
  mode := (after.value? .mode).or (before.value? .mode)
  directive := (after.value? .directive).or (before.value? .directive)

/-! ## Before the command name -/

/-- The word that asks for help on the program or on a command. -/
def helpName : Text :=
  "help"

def isCommandWord (word : Text) : Bool :=
  word == helpName || (CommandName.ofText? word).isSome

/-- Help is there for the program and for each command. -/
def readHelp : List Text → UsageError
  | [] => .help
  | [word] => if isCommandWord word then .help else .unknownCommand
  | _ => .unknownCommand

/-- Read words up to a command name, and then the words after it. -/
def readProgram (words : Words) : List Text → Except UsageError Invocation
  | [] => do
    let words ← words.settle
    .error (if words.options.isEmpty then .nothingGiven else .missingCommand)
  | word :: rest => do
    if !words.onlyOperands && !words.awaitsValue && isCommandWord word then
      match CommandName.ofText? word with
      | none => .error (readHelp rest)
      | some name =>
        let after ← readCommand name {} rest
        .ok (invocation name (← words.settle) after)
    else
      match ← words.read Key.everywhere word with
      | .taken words => readProgram words rest
      | .operand =>
        .error (if words.onlyOperands && isCommandWord word then .unknownArgument
          else .unknownCommand)

end Arguments

/-- Read the words of a command line. -/
def Invocation.ofWords (words : List Text) : Except UsageError Invocation :=
  Arguments.readProgram {} words

end Literate
