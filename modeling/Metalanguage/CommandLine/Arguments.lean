/-!
# CommandLine/Arguments — reading the arguments of a command

The arguments are read from left to right, and the first that decides the matter does: a call for help
or the version, or an argument that fits nowhere. The options that every command has may stand before
or behind the name of the command; behind it they count more.
-/

namespace Metalanguage

/-- The commands. -/
inductive Command
  /-- Reads an expression and describes it, in JSON if so asked. -/
  | parse (expression : String) (json : Bool)
  /-- Draws a sentence. -/
  | graph (expression : String)
  /-- Checks files of expressions. -/
  | check (path : String)
  /-- Lists the terms of the dictionary. -/
  | terms
  deriving DecidableEq, Repr

/-- What some arguments ask for. -/
inductive Invocation
  | run (dictionary : Option String) (maxNodes : Option Nat) (command : Command)
  | version
  | help
  | rejected
  deriving DecidableEq, Repr

namespace Arguments

/-- An argument by its form. -/
inductive Form
  /-- Two hyphens: no option follows. -/
  | escape
  /-- An option by its long name, with a value behind an equals sign if there is one. -/
  | long (name : List Char) (value : Option String)
  /-- Options by their letters. -/
  | short (letters : List Char)
  /-- Anything else, a single hyphen too. -/
  | value (text : String)

/-- The form of an argument. -/
def formOf (argument : String) : Form :=
  match argument.toList with
  | ['-', '-'] => .escape
  | '-' :: '-' :: rest =>
    let name := rest.takeWhile (· != '=')
    match rest.dropWhile (· != '=') with
    | _ :: value => .long name (some (String.ofList value))
    | [] => .long name none
  | '-' :: letter :: rest => .short (letter :: rest)
  | _ => .value argument

/-- A decimal number of 64 bits; a plus sign may stand before it. -/
def count? (text : String) : Option Nat :=
  let digits := match text.toList with
    | '+' :: rest => rest
    | cs => cs
  if digits.isEmpty || !digits.all Char.isDigit then none
  else
    let n := digits.foldl (fun n d => 10 * n + (d.toNat - '0'.toNat)) 0
    if n < UInt64.size then some n else none

/-- A path, which must not be empty. -/
def path? (text : String) : Option String := if text.isEmpty then none else some text

/-- The options that every command has. -/
structure Options where
  dictionary : Option String
  maxNodes : Option Nat

/-- No options. -/
def Options.none : Options := ⟨.none, .none⟩

/-- The options with one more, which must not be there yet and must have a fitting value. -/
def Options.set? (o : Options) (name : List Char) (value : String) : Option Options :=
  if name == "dictionary".toList then
    match o.dictionary, path? value with
    | .none, some path => some { o with dictionary := some path }
    | _, _ => .none
  else if name == "max-nodes".toList then
    match o.maxNodes, count? value with
    | .none, some n => some { o with maxNodes := some n }
    | _, _ => .none
  else .none

/-! ## Behind the name of a command -/

/-- The names of the commands. -/
inductive CommandName
  | parse
  | graph
  | check
  | terms
  deriving DecidableEq, Repr

/-- The command of a name. -/
def CommandName.ofName? : String → Option CommandName
  | "parse" => some parse
  | "graph" => some graph
  | "check" => some check
  | "terms" => some terms
  | _ => .none

/-- What is read behind the name of a command: options, whether JSON is asked for, and a value. -/
structure Tail where
  options : Options
  json : Bool
  value : Option String

/-- Nothing read yet. -/
def Tail.start : Tail := ⟨.none, false, .none⟩

/-- One more value, if the command takes one and it fits. -/
def Tail.give? (name : CommandName) (t : Tail) (value : String) : Option Tail :=
  match name, t.value with
  | .terms, _ => .none
  | .check, .none => (path? value).map fun path => { t with value := some path }
  | _, .none => some { t with value := some value }
  | _, some _ => .none

/-- Reads values only. -/
def readValues (name : CommandName) (t : Tail) : List String → Option Tail
  | [] => some t
  | argument :: rest =>
    match t.give? name argument with
    | some t => readValues name t rest
    | .none => .none

/-- Reads letters of options; an error is what the call comes to at once. -/
def readLetters (name : CommandName) (t : Tail) : List Char → Except Invocation Tail
  | [] => .ok t
  | 'h' :: _ => .error .help
  | 'j' :: rest =>
    if name == .parse && !t.json then readLetters name { t with json := true } rest
    else .error .rejected
  | _ => .error .rejected

/-- Reads the arguments behind the name of a command. -/
def readTail (name : CommandName) : Tail → List String → Except Invocation Tail
  | t, [] => .ok t
  | t, argument :: rest =>
    match formOf argument with
    | .escape =>
      match readValues name t rest with
      | some t => .ok t
      | .none => .error .rejected
    | .short letters => do readTail name (← readLetters name t letters) rest
    | .long option (some value) =>
      match t.options.set? option value with
      | some options => readTail name { t with options } rest
      | .none => .error .rejected
    | .long option .none =>
      if option == "help".toList then .error .help
      else if option == "json".toList then do
        readTail name (← readLetters name t ['j']) rest
      else
        match rest with
        | [] => .error .rejected
        | next :: rest =>
          match formOf next with
          | .value value =>
            match t.options.set? option value with
            | some options => readTail name { t with options } rest
            | .none => .error .rejected
          | _ => .error .rejected
    | .value value =>
      match t.give? name value with
      | some t => readTail name t rest
      | .none => .error .rejected

/-- The command of a name and of what is read behind it. -/
def commandOf? (name : CommandName) (t : Tail) : Option Command :=
  match name, t.value with
  | .parse, some expression => some (.parse expression t.json)
  | .graph, some expression => some (.graph expression)
  | .check, path => some (.check (path.getD "."))
  | .terms, _ => some .terms
  | _, .none => .none

/-! ## From the start -/

/-- What the options before and behind the name of a command, the environment and the command come to.
An empty path in the environment is an error wherever no option comes before it. -/
def combine (environment : Option String) (top : Options) (name : CommandName) (t : Tail) :
    Invocation :=
  let emptyPath := environment == some "" && (top.dictionary.isNone || t.options.dictionary.isNone)
  match commandOf? name t with
  | some command =>
    if emptyPath then .rejected
    else .run ((t.options.dictionary <|> top.dictionary) <|> environment)
      (t.options.maxNodes <|> top.maxNodes) command
  | .none => .rejected

/-- What a call for help on some names comes to. -/
def helpOn : List String → Invocation
  | [] => .help
  | [name] => if name == "help" || (CommandName.ofName? name).isSome then .help else .rejected
  | _ => .rejected

/-- Reads the arguments up to the name of a command, and those behind it. -/
def readTop (environment : Option String) : Options → List String → Invocation
  | _, [] => .rejected
  | o, argument :: rest =>
    match formOf argument with
    | .escape => .rejected
    | .short letters =>
      match letters with
      | 'h' :: _ => .help
      | 'V' :: _ => .version
      | _ => .rejected
    | .long option (some value) =>
      match o.set? option value with
      | some o => readTop environment o rest
      | .none => .rejected
    | .long option .none =>
      if option == "help".toList then .help
      else if option == "version".toList then .version
      else
        match rest with
        | [] => .rejected
        | next :: rest =>
          match formOf next with
          | .value value =>
            match o.set? option value with
            | some o => readTop environment o rest
            | .none => .rejected
          | _ => .rejected
    | .value value =>
      match CommandName.ofName? value with
      | some name =>
        match readTail name .start rest with
        | .ok t => combine environment o name t
        | .error invocation => invocation
      | .none => if value == "help" then helpOn rest else .rejected

end Arguments

/-- **What some arguments ask for**, where the environment may name a dictionary. -/
def Invocation.ofArguments (environment : Option String) (arguments : List String) : Invocation :=
  Arguments.readTop environment .none arguments

end Metalanguage
