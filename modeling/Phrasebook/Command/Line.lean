import Phrasebook.Text.Split

/-!
The command line. An update names a locale and a bundle, in this order, and may have options
anywhere; everything behind two hyphens alone is a name.
-/
namespace Phrasebook

structure UpdateRequest where
  locale : String
  bundle : String
  placeholder : Option String := none
  root : Option String := none
  dump : Bool := false
  force : Bool := false
  verbose : Bool := false
  deriving DecidableEq, Repr

inductive Command
  | update (request : UpdateRequest)
  | init
  deriving DecidableEq, Repr

inductive UsageError
  | unknownArgument
  | unknownCommand
  | repeatedOption
  | missingArgument
  | missingValue
  | unexpectedValue
  | helpRequested
  | versionRequested
  deriving DecidableEq, Repr

inductive Argument
  | endOfOptions
  | long (name : String) (value : Option String)
  | short (letters : List Char)
  | word (text : String)
  deriving DecidableEq, Repr

def Argument.ofLong (cs : List Char) : Argument :=
  let name := cs.takeWhile (· ≠ '=')
  match cs.drop name.length with
  | [] => .long (String.ofList name) none
  | _ :: value => .long (String.ofList name) (some (String.ofList value))

/-- The form of an argument. A hyphen alone is a word. -/
def Argument.ofText (text : String) : Argument :=
  match text.toList with
  | ['-', '-'] => .endOfOptions
  | '-' :: '-' :: cs => .ofLong cs
  | '-' :: c :: cs => .short (c :: cs)
  | _ => .word text

inductive Switch
  | dump
  | force
  | verbose
  deriving DecidableEq, Repr

inductive Setting
  | placeholder
  | root
  deriving DecidableEq, Repr

inductive UpdateOption
  | help
  | switch (s : Switch)
  | setting (s : Setting)
  deriving DecidableEq, Repr

def updateOptions : List (String × UpdateOption) :=
  [("help", .help), ("dump-messages", .switch .dump), ("force", .switch .force),
   ("verbose", .switch .verbose), ("prefix", .setting .placeholder),
   ("source-root", .setting .root)]

def updateLetters : List (Char × UpdateOption) := [('h', .help), ('v', .switch .verbose)]

/-- The arguments of an update that have been read. A setting whose value may still follow is
pending, and so is one whose value has just been read. -/
structure UpdateReading where
  names : List String := []
  placeholder : Option String := none
  root : Option String := none
  switches : List Switch := []
  pending : Option (Setting × Option String) := none
  deriving Repr

namespace UpdateReading

def set (r : UpdateReading) (s : Setting) (value : String) : Except UsageError UpdateReading :=
  match s with
  | .placeholder =>
    if r.placeholder.isSome then .error .repeatedOption
    else .ok { r with placeholder := some value }
  | .root =>
    if r.root.isSome then .error .repeatedOption
    else if value = "" then .error .missingValue
    else .ok { r with root := some value }

def settle (r : UpdateReading) : Except UsageError UpdateReading :=
  match r.pending with
  | none => .ok r
  | some (_, none) => .error .missingValue
  | some (s, some value) => { r with pending := none }.set s value

def name (r : UpdateReading) (text : String) : Except UsageError UpdateReading :=
  if 2 ≤ r.names.length then .error .unknownArgument
  else do
    let r ← r.settle
    return { r with names := r.names ++ [text] }

def word (r : UpdateReading) (text : String) : Except UsageError UpdateReading :=
  match r.pending with
  | some (s, none) => .ok { r with pending := some (s, some text) }
  | _ => r.name text

def option (r : UpdateReading) (o : UpdateOption) : Except UsageError UpdateReading := do
  let r ← r.settle
  match o with
  | .help => throw .helpRequested
  | .switch s =>
    if s ∈ r.switches then throw .repeatedOption else return { r with switches := s :: r.switches }
  | .setting s => return { r with pending := some (s, none) }

def attached (r : UpdateReading) (o : UpdateOption) (value : String) :
    Except UsageError UpdateReading :=
  match o with
  | .setting s => do (← r.settle).set s value
  | _ => .error .unexpectedValue

def letters (r : UpdateReading) : List Char → Except UsageError UpdateReading
  | [] => .ok r
  | c :: cs =>
    match updateLetters.lookup c with
    | none => .error .unknownArgument
    | some o => do letters (← r.option o) cs

def long (r : UpdateReading) (name : String) (value : Option String) :
    Except UsageError UpdateReading :=
  match updateOptions.lookup name, value with
  | none, _ => .error .unknownArgument
  | some o, none => r.option o
  | some o, some value => r.attached o value

def run (r : UpdateReading) : List String → Except UsageError UpdateReading
  | [] => r.settle
  | text :: rest =>
    match Argument.ofText text with
    | .endOfOptions => do (← rest.foldlM name r).settle
    | .long name value => do run (← r.long name value) rest
    | .short cs => do run (← r.letters cs) rest
    | .word w => do run (← r.word w) rest

def request (r : UpdateReading) : Except UsageError UpdateRequest :=
  match r.names with
  | [locale, bundle] =>
    .ok { locale, bundle, placeholder := r.placeholder, root := r.root,
          dump := Switch.dump ∈ r.switches, force := Switch.force ∈ r.switches,
          verbose := Switch.verbose ∈ r.switches }
  | _ => .error .missingArgument

end UpdateReading

namespace Command

def names : List String := ["update", "init", "help"]

/-- What an argument asks for where only help and, at the top, the version can be asked for. Others
are refused as `refused` says. -/
def informational (version : Bool) (refused : UsageError) (a : Argument) : UsageError :=
  match a with
  | .long "help" none => .helpRequested
  | .long "help" (some _) => .unexpectedValue
  | .long "version" value =>
    if version then (if value.isSome then .unexpectedValue else .versionRequested)
    else .unknownArgument
  | .short ('h' :: _) => .helpRequested
  | .short ('V' :: _) => if version then .versionRequested else .unknownArgument
  | .word _ => refused
  | _ => .unknownArgument

def parseInit : List String → Except UsageError Command
  | [] => .ok .init
  | text :: rest =>
    match Argument.ofText text with
    | .endOfOptions => if rest.isEmpty then .ok .init else .error .unknownArgument
    | a => .error (informational false .unknownArgument a)

def parseHelp (arguments : List String) : UsageError :=
  match arguments with
  | [] => .helpRequested
  | [name] => if name ∈ names then .helpRequested else .unknownCommand
  | _ => .unknownCommand

def parse : List String → Except UsageError (Option Command)
  | [] => .ok none
  | "update" :: rest => do return some (.update (← (← UpdateReading.run {} rest).request))
  | "init" :: rest => do return some (← parseInit rest)
  | "help" :: rest => .error (parseHelp rest)
  | text :: rest =>
    match Argument.ofText text with
    | .endOfOptions =>
      match rest with
      | [] => .ok none
      | name :: _ => .error (if name ∈ names then .unknownArgument else .unknownCommand)
    | a => .error (informational true .unknownCommand a)

end Command
end Phrasebook
