/-! Diagnostics: how the result of one file was degraded. None of them stops the analysis of a corpus. -/
namespace CallAtlas

inductive Severity where
  | debug
  | info
  | warning
  deriving DecidableEq, Repr

def Severity.tag : Severity → String
  | debug => "debug"
  | info => "info"
  | warning => "warning"

inductive Diagnostic where
  | unsupportedLanguage (language : String)
  | malformedConstruct (path : String) (line : Nat) (reason : String)
  | parserUnavailable (reason : String)
  | unexpected (path : String) (message : String)
  deriving DecidableEq, Repr

namespace Diagnostic

def message : Diagnostic → String
  | unsupportedLanguage language => "no extractor registered for language '" ++ language ++ "'"
  | malformedConstruct path line reason => path ++ ":" ++ toString line ++ ": " ++ reason
  | parserUnavailable reason => "syntax parser unavailable: " ++ reason
  | unexpected path message => "analysis of " ++ path ++ " failed: " ++ message

def severity : Diagnostic → Severity
  | malformedConstruct .. | parserUnavailable .. => .debug
  | unsupportedLanguage .. => .info
  | unexpected .. => .warning

end Diagnostic
end CallAtlas
