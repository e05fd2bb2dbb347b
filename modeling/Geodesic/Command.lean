import Geodesic.Decimal.Numeral
import Geodesic.OutputMode

/-!
# The command line

A command line has two levels: options before the command, and options and one operand after it.
Both levels know the options that concern every command.

Arguments are taken one after the other. A value that stands apart from its option, and an operand,
are held back and looked at only when the next argument has been accepted, or at the end of their
level; so an unknown option is reported before a bad value in front of it.
-/

namespace Geodesic

inductive Usage where
  | displayHelp
  | displayVersion
  | helpOnMissing
  | missingSubcommand
  | invalidSubcommand
  | missingRequired
  | unknownArgument
  | invalidValue
  | valueValidation
  | argumentConflict
  | tooManyValues
deriving DecidableEq, Repr

namespace Usage

def name : Usage → String
  | displayHelp => "DisplayHelp"
  | displayVersion => "DisplayVersion"
  | helpOnMissing => "DisplayHelpOnMissingArgumentOrSubcommand"
  | missingSubcommand => "MissingSubcommand"
  | invalidSubcommand => "InvalidSubcommand"
  | missingRequired => "MissingRequiredArgument"
  | unknownArgument => "UnknownArgument"
  | invalidValue => "InvalidValue"
  | valueValidation => "ValueValidation"
  | argumentConflict => "ArgumentConflict"
  | tooManyValues => "TooManyValues"

/-- The exit code; only help and version that were asked for are a success. -/
def exitCode : Usage → Nat
  | displayHelp | displayVersion => 0
  | _ => 2

end Usage

inductive Flag where
  | verbose
  | help
  | version
  | undirected
  | weighted
  | normalize
  | raw
  | edges
  | dominance
deriving DecidableEq, Repr

namespace Flag

def long : Flag → String
  | verbose => "verbose"
  | help => "help"
  | version => "version"
  | undirected => "undirected"
  | weighted => "weighted"
  | normalize => "normalize"
  | raw => "raw"
  | edges => "edges"
  | dominance => "dominance"

def short? : Flag → Option Char
  | verbose => some 'v'
  | help => some 'h'
  | version => some 'V'
  | _ => none

end Flag

inductive Setting where
  | format
  | config
  | threads
deriving DecidableEq, Repr

namespace Setting

def all : List Setting :=
  [format, config, threads]

def long : Setting → String
  | format => "format"
  | config => "config"
  | threads => "threads"

end Setting

def shells : List String :=
  ["bash", "elvish", "fish", "powershell", "zsh"]

inductive CommandName where
  | betweenness
  | dominance
  | completions
deriving DecidableEq, Repr

namespace CommandName

def all : List CommandName :=
  [betweenness, dominance, completions]

def word : CommandName → String
  | betweenness => "betweenness"
  | dominance => "dominance"
  | completions => "completions"

def ofWord? (w : String) : Option CommandName :=
  all.find? (·.word = w)

end CommandName

def helpWord : String := "help"

/-- A word in the place of a command: a command, or `none` for help. -/
def commandWord? (w : String) : Option (Option CommandName) :=
  if w = helpWord then some none else (CommandName.ofWord? w).map some

/-- The place of an argument: before the command, or after it. -/
inductive Level where
  | top
  | of (command : CommandName)
deriving DecidableEq, Repr

namespace Level

def flags : Level → List Flag
  | top => [.verbose, .help, .version]
  | of .betweenness =>
      [.verbose, .help, .undirected, .weighted, .normalize, .raw, .edges, .dominance]
  | of .dominance => [.verbose, .help, .undirected, .weighted]
  | of .completions => [.verbose, .help]

def long? (l : Level) (name : String) : Option Flag :=
  l.flags.find? (·.long = name)

def short? (l : Level) (c : Char) : Option Flag :=
  l.flags.find? (·.short? = some c)

/-- A word that is a possible operand: any path but the empty one, or the name of a shell. -/
def operand? : Level → String → Except Usage String
  | of .completions, w => if shells.contains w then .ok w else .error .invalidValue
  | _, w => if w = "" then .error .invalidValue else .ok w

end Level

/-- A number of workers: digits after an optional plus sign, within 64 bits. -/
def Setting.count? (text : String) : Option Nat :=
  let digits := match text.toList with
    | '+' :: rest => rest
    | cs => cs
  (Decimal.digits? digits).filter (· < UInt64.size)

/-- What is held back until the next argument has been accepted. -/
inductive Pending where
  | setting (s : Setting) (value : Option String)
  | operand (word : String)
deriving DecidableEq, Repr

structure Taken where
  flags : List Flag
  format : Option OutputMode
  config : Option String
  threads : Option Nat
  operand : Option String
  pending : Option Pending
  /-- Only operands follow. -/
  trailing : Bool
deriving DecidableEq, Repr

namespace Taken

def none : Taken :=
  ⟨[], .none, .none, .none, .none, .none, false⟩

def isEmpty (t : Taken) : Bool :=
  t.flags.isEmpty && t.format.isNone && t.config.isNone && t.threads.isNone

def set (t : Taken) (s : Setting) (value : String) : Except Usage Taken :=
  match s with
  | .format =>
      if t.format.isSome then .error .argumentConflict
      else match OutputMode.ofName? value with
        | some m => .ok { t with format := some m }
        | .none => .error .invalidValue
  | .config =>
      if t.config.isSome then .error .argumentConflict
      else if value = "" then .error .invalidValue
      else .ok { t with config := some value }
  | .threads =>
      if t.threads.isSome then .error .argumentConflict
      else match Setting.count? value with
        | some n => .ok { t with threads := some n }
        | .none => .error .valueValidation

def resolve (l : Level) (t : Taken) : Except Usage Taken :=
  match t.pending with
  | .none => .ok t
  | some (.setting _ .none) => .error .invalidValue
  | some (.setting s (some value)) => { t with pending := .none }.set s value
  | some (.operand w) => do
      let w ← l.operand? w
      return { t with pending := .none, operand := some w }

def awaiting? (t : Taken) : Option Setting :=
  match t.pending with
  | some (.setting s .none) => some s
  | _ => .none

def flag (l : Level) (t : Taken) (f : Flag) : Except Usage Taken := do
  let t ← t.resolve l
  match f with
  | .help => throw .displayHelp
  | .version => throw .displayVersion
  | f => if f ∈ t.flags then throw .argumentConflict else return { t with flags := f :: t.flags }

def long (l : Level) (t : Taken) (name : String) (attached : Option String) :
    Except Usage Taken :=
  match Setting.all.find? (·.long = name), l.long? name with
  | some s, _ => do
      let t ← t.resolve l
      match attached with
      | some value => t.set s value
      | .none => return { t with pending := some (.setting s .none) }
  | .none, some f => if attached.isSome then .error .tooManyValues else t.flag l f
  | .none, .none => .error .unknownArgument

def shorts (l : Level) (t : Taken) (names : List Char) : Except Usage Taken :=
  names.foldlM (fun t c => match l.short? c with
    | some f => t.flag l f
    | .none => .error .unknownArgument) t

def word (l : Level) (t : Taken) (w : String) : Except Usage Taken :=
  match l with
  | .top =>
      if t.trailing && (commandWord? w).isSome then .error .unknownArgument
      else .error .invalidSubcommand
  | l =>
      match t.operand, t.pending with
      | some _, _ => .error .unknownArgument
      | .none, some (.operand _) => .error .unknownArgument
      | .none, _ => do
          let t ← t.resolve l
          return { t with pending := some (.operand w) }

def splitAttached (cs : List Char) : String × Option String :=
  match cs.span (· ≠ '=') with
  | (name, '=' :: value) => (String.ofList name, some (String.ofList value))
  | (name, _) => (String.ofList name, .none)

/-- Take one argument that is not in the place of a command. -/
def argument (l : Level) (t : Taken) (arg : String) : Except Usage Taken :=
  if t.trailing then t.word l arg
  else
    match arg.toList with
    | ['-', '-'] => .ok { t with trailing := true }
    | '-' :: '-' :: cs =>
        let (name, attached) := splitAttached cs
        t.long l name attached
    | '-' :: c :: cs => t.shorts l (c :: cs)
    | _ =>
        match t.awaiting? with
        | some s => .ok { t with pending := some (.setting s (some arg)) }
        | .none => t.word l arg

/-- Take arguments up to a command, if this level has commands; the command word and the arguments
behind it are left. -/
def read (l : Level) : Taken → List String → Except Usage (Taken × Option (String × List String))
  | t, [] => .ok (t, .none)
  | t, arg :: rest =>
      if l = .top && !t.trailing && t.awaiting?.isNone && (commandWord? arg).isSome then
        .ok (t, some (arg, rest))
      else do
        let t ← t.argument l arg
        read l t rest

end Taken

structure Options where
  verbose : Bool
  format : Option OutputMode
  config : Option String
  threads : Option Nat
deriving DecidableEq, Repr

structure GraphSource where
  file : String
  undirected : Bool
  weighted : Bool
deriving DecidableEq, Repr

inductive Command where
  | betweenness (source : GraphSource) (normalize raw edges dominance : Bool)
  | dominance (source : GraphSource)
  | completions (shell : String)
deriving DecidableEq, Repr

def Command.source? : Command → Option GraphSource
  | .betweenness source .. => some source
  | .dominance source => some source
  | .completions _ => none

structure Invocation where
  options : Options
  command : Command
deriving DecidableEq, Repr

namespace Invocation

def commandOf (name : CommandName) (t : Taken) : Except Usage Command := do
  if .raw ∈ t.flags ∧ .normalize ∈ t.flags then throw .argumentConflict
  let some operand := t.operand | throw .missingRequired
  let has (f : Flag) : Bool := t.flags.contains f
  let source : GraphSource := ⟨operand, has .undirected, has .weighted⟩
  return match name with
    | .betweenness =>
        .betweenness source (has .normalize) (has .raw) (has .edges) (has .dominance)
    | .dominance => .dominance source
    | .completions => .completions operand

/-- The options of both levels; those behind the command win. -/
def optionsOf (top sub : Taken) : Options where
  verbose := top.flags.contains .verbose || sub.flags.contains .verbose
  format := sub.format.or top.format
  config := sub.config.or top.config
  threads := sub.threads.or top.threads

def help : List String → Usage
  | [] => .displayHelp
  | [w] => if (commandWord? w).isSome then .displayHelp else .invalidSubcommand
  | _ => .invalidSubcommand

def parse (args : List String) : Except Usage Invocation := do
  let (top, next) ← Taken.read .top .none args
  match next with
  | .none =>
      let top ← top.resolve .top
      throw (if top.isEmpty then .helpOnMissing else .missingSubcommand)
  | some (w, rest) =>
      match CommandName.ofWord? w with
      | .none => throw (help rest)
      | some name =>
          let (sub, _) ← Taken.read (.of name) .none rest
          let sub ← sub.resolve (.of name)
          let command ← commandOf name sub
          let top ← top.resolve .top
          return ⟨optionsOf top sub, command⟩

end Invocation

end Geodesic
