/-! Definitions found in source files, their parameters and the call sites inside them. -/
namespace CallAtlas

/-- What a definition is. -/
inductive Kind where
  | function
  | method
  | classMethod
  | interfaceMethod
  | component
  | customHook
  | classType
  | typeAlias
  | interfaceType
  | enumeration
  | importRecord
  | exportRecord
  | templateCalls
  deriving DecidableEq, Repr, Inhabited

namespace Kind

def all : List Kind :=
  [function, method, classMethod, interfaceMethod, component, customHook, classType, typeAlias,
   interfaceType, enumeration, importRecord, exportRecord, templateCalls]

def tag : Kind → String
  | function => "function"
  | method => "method"
  | classMethod => "class_method"
  | interfaceMethod => "interface_method"
  | component => "component"
  | customHook => "custom_hook"
  | classType => "class"
  | typeAlias => "type_alias"
  | interfaceType => "interface"
  | enumeration => "enum"
  | importRecord => "import"
  | exportRecord => "export"
  | templateCalls => "erb_call"

def ofTag? (tag : String) : Option Kind := all.find? fun kind => kind.tag == tag

/-- Kinds whose lines are searched for call sites. -/
def isCallable : Kind → Bool
  | function | method | classMethod | component | customHook | templateCalls => true
  | _ => false

/-- Kinds that a call can lead to. Import, export and template records name a module or a file. -/
def isResolvable : Kind → Bool
  | importRecord | exportRecord | templateCalls => false
  | _ => true

end Kind

inductive Visibility where
  | publicScope
  | privateScope
  deriving DecidableEq, Repr, Inhabited

namespace Visibility

def all : List Visibility := [publicScope, privateScope]

def tag : Visibility → String
  | publicScope => "public"
  | privateScope => "private"

def ofTag? (tag : String) : Option Visibility := all.find? fun visibility => visibility.tag == tag

end Visibility

namespace Parameter

/-- How an argument is passed to a parameter that is not plainly positional. -/
inductive Passing where
  | keyword
  | splat
  | doubleSplat
  | block
  | defaulted
  | rest
  | optional
  | destructured
  deriving DecidableEq, Repr

namespace Passing

def all : List Passing :=
  [keyword, splat, doubleSplat, block, defaulted, rest, optional, destructured]

def tag : Passing → String
  | keyword => "keyword"
  | splat => "splat"
  | doubleSplat => "double_splat"
  | block => "block"
  | defaulted => "default"
  | rest => "rest"
  | optional => "optional"
  | destructured => "destructured"

def ofTag? (tag : String) : Option Passing := all.find? fun passing => passing.tag == tag

end Passing
end Parameter

/-- One parameter of a definition. -/
structure Parameter where
  name : String
  type : Option String := none
  defaultValue : Option String := none
  passing : Option Parameter.Passing := none
  deriving DecidableEq, Repr

/-- A use of a name, inside a definition, that is believed to call something of that name. -/
structure CallSite where
  callee : String
  line : Nat
  snippet : String
  /-- The line of the import that bound the callee, when there is one. -/
  importLine : Option Nat := none
  deriving DecidableEq, Repr

/-- A named piece of a source file, from its first to its last line, both counted from one. -/
structure Definition where
  name : String
  kind : Kind
  filePath : String
  startLine : Nat
  endLine : Nat
  code : String := ""
  visibility : Visibility := .publicScope
  parameters : List Parameter := []
  calls : List CallSite := []
  moduleName : Option String := none
  /-- The local names that an import or export record binds. -/
  bindings : List String := []
  deriving DecidableEq, Repr

namespace Definition

def containsLine (definition : Definition) (line : Nat) : Bool :=
  definition.startLine ≤ line && line ≤ definition.endLine

/-- The number of lines from the first to the last. -/
def span (definition : Definition) : Nat := definition.endLine + 1 - definition.startLine

/-- Whether some call site uses the name. -/
def callsName (definition : Definition) (name : String) : Bool :=
  definition.calls.any fun call => call.callee == name

/-- Whether the callee is already recorded on the line of a call. -/
def records (definition : Definition) (call : CallSite) : Bool :=
  definition.calls.any fun known => known.line == call.line && known.callee == call.callee

/-- Adds a call site at the end, unless its callee is already recorded on its line. -/
def addCall (definition : Definition) (call : CallSite) : Definition :=
  if definition.records call then definition
  else { definition with calls := definition.calls ++ [call] }

/-- Adds call sites one after another. -/
def addCalls (definition : Definition) (calls : List CallSite) : Definition :=
  calls.foldl addCall definition

end Definition
end CallAtlas
