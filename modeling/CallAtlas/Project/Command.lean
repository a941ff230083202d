/-! Command lines: what a project can be asked to do, and how that is written as a list of arguments. -/
namespace CallAtlas.Project

inductive Command where
  | analyze (format : String) (included excluded : List String) (save : Bool)
  | definition (name : String)
  | callers (name : String)
  | graph (format : String)
  deriving DecidableEq, Repr

/-- A command and the root that it is for, if one was given. -/
structure Invocation where
  project : Option String
  command : Command
  deriving DecidableEq, Repr

namespace Invocation

inductive Switch where
  | project
  | verbose
  | format
  | included
  | excluded
  | save
  deriving DecidableEq, Repr

namespace Switch

def longName : Switch → String
  | project => "project"
  | verbose => "verbose"
  | format => "format"
  | included => "include"
  | excluded => "exclude"
  | save => "save"

def shortName? : Switch → Option Char
  | project => some 'p'
  | verbose => some 'v'
  | format => some 'f'
  | included | excluded | save => none

def takesValue : Switch → Bool
  | verbose | save => false
  | project | format | included | excluded => true

def isRepeatable : Switch → Bool
  | included | excluded => true
  | _ => false

/-- Whether a value will do. A root must have a name. -/
def accepts : Switch → String → Bool
  | project, value => value != ""
  | _, _ => true

/-- Switches that stand before or after the name of a command. -/
def shared : List Switch := [project, verbose]

end Switch

/-- What arguments hold: switches with their values in order, and everything else in order. -/
structure Arguments where
  switches : List (Switch × String) := []
  others : List String := []
  deriving DecidableEq, Repr

namespace Arguments

def add? (found : Arguments) (switch : Switch) (value : String) : Option Arguments :=
  if !switch.accepts value || !switch.isRepeatable && found.switches.any (·.1 == switch) then none
  else some { found with switches := found.switches ++ [(switch, value)] }

def values (found : Arguments) (switch : Switch) : List String :=
  (found.switches.filter (·.1 == switch)).map (·.2)

end Arguments

private def isPlain (argument : String) : Bool := !argument.startsWith "-" || argument = "-"

/-- How a group of short switches reads on: to the next argument with what was found, perhaps with a switch that still
needs its value. -/
private def readShort (known : List Switch) (found : Arguments) :
    List Char → Option (Arguments × Option Switch)
  | [] => some (found, none)
  | c :: rest => do
    let switch ← known.find? fun switch => switch.shortName? == some c
    if switch.takesValue then
      match rest with
      | [] => some (found, some switch)
      | '=' :: value => (found.add? switch (String.ofList value)).map (·, none)
      | value => (found.add? switch (String.ofList value)).map (·, none)
    else readShort known (← found.add? switch "") rest

/-- The same for a long switch, with its value if one follows an equals sign. -/
private def readLong (known : List Switch) (found : Arguments) (text : List Char) :
    Option (Arguments × Option Switch) := do
  let name := String.ofList (text.takeWhile (· != '='))
  let switch ← known.find? fun switch => switch.longName == name
  match switch.takesValue, text.dropWhile (· != '=') with
  | true, [] => some (found, some switch)
  | true, _ :: value => (found.add? switch (String.ofList value)).map (·, none)
  | false, [] => (found.add? switch "").map (·, none)
  | false, _ :: _ => none

/-- Reads arguments up to the first that is no switch, if `stops`, or to the end. -/
private def readArguments (known : List Switch) (stops : Bool) (found : Arguments) (open? : Option Switch) :
    List String → Option (Arguments × List String)
  | [] => if open?.isSome then none else some (found, [])
  | argument :: rest =>
    match open? with
    | some switch =>
      if isPlain argument then
        match found.add? switch argument with
        | some found => readArguments known stops found none rest
        | none => none
      else none
    | none =>
      if isPlain argument then
        if stops then some (found, argument :: rest)
        else readArguments known stops { found with others := found.others ++ [argument] } none rest
      else if argument = "--" then
        if stops then none else some ({ found with others := found.others ++ rest }, [])
      else
        let next := match argument.toList with
          | '-' :: '-' :: text => readLong known found text
          | _ :: text => readShort known found text
          | [] => none
        match next with
        | some (found, open?) => readArguments known stops found open? rest
        | none => none

private def single? : List String → Option String
  | [value] => some value
  | _ => none

private def command? (name : String) (found : Arguments) : Option Command :=
  match name with
  | "analyze" =>
    if found.others.isEmpty then
      some (.analyze ((found.values .format).headD "summary") (found.values .included) (found.values .excluded)
        (!(found.values .save).isEmpty))
    else none
  | "definition" => (single? found.others).map .definition
  | "callers" => (single? found.others).map .callers
  | "graph" => if found.others.isEmpty then some (.graph ((found.values .format).headD "dot")) else none
  | _ => none

private def switchesOf : String → List Switch
  | "analyze" => [.format, .included, .excluded, .save] ++ Switch.shared
  | "graph" => .format :: Switch.shared
  | _ => Switch.shared

/-- Reads a command line. A root that is given after the command counts for more than one before it. -/
def parse? (arguments : List String) : Option Invocation := do
  let (before, rest) ← readArguments Switch.shared true {} none arguments
  match rest with
  | [] => none
  | name :: rest =>
    let (after, _) ← readArguments (switchesOf name) false {} none rest
    let command ← command? name after
    return { project := (after.values .project).head?.or (before.values .project).head?, command }

def usage : String :=
  "Usage: methodmap [--project <PROJECT>] [--verbose] <COMMAND>\n\n" ++
  "Commands:\n" ++
  "  analyze [--format <FORMAT>] [--include <GLOB>]... [--exclude <GLOB>]... [--save]\n" ++
  "  definition <NAME>\n" ++
  "  callers <NAME>\n" ++
  "  graph [--format <FORMAT>]\n"

end Invocation
end CallAtlas.Project
