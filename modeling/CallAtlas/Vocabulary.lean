import CallAtlas.Registry
import CallAtlas.Vocabulary.WordTable

/-! Which names count as calls. A name is accepted when the language does not reserve it and when the corpus
defines it, the file defines or imports it, or the vocabulary allows it. -/
namespace CallAtlas

def isKeyword (language : Language) (name : String) : Bool :=
  (WordTable.of? language).any fun table => table.keywords.contains name

def isBuiltin (language : Language) (name : String) : Bool :=
  (WordTable.of? language).any fun table => table.builtins.contains name

def isAllowed (language : Language) (name : String) : Bool :=
  (WordTable.of? language).any fun table => table.allowed.contains name

def isControl (language : Language) (name : String) : Bool :=
  (WordTable.of? language).any fun table => table.control.contains name

/-- The words of a language together with further names that are allowed as calls. -/
structure Vocabulary where
  language : Language
  extra : List String := []

namespace Vocabulary

def keyword (vocabulary : Vocabulary) (name : String) : Bool := isKeyword vocabulary.language name

def builtin (vocabulary : Vocabulary) (name : String) : Bool := isBuiltin vocabulary.language name

/-- Keywords, builtins and control words are never call sites. -/
def excludes (vocabulary : Vocabulary) (name : String) : Bool :=
  isKeyword vocabulary.language name || isBuiltin vocabulary.language name ||
    isControl vocabulary.language name

def allows (vocabulary : Vocabulary) (name : String) : Bool :=
  isAllowed vocabulary.language name || vocabulary.extra.contains name

end Vocabulary

/-- What decides whether a name found in a file is a call. -/
structure Acceptance where
  vocabulary : Vocabulary
  corpus : Registry
  file : Registry

def Acceptance.accepts (acceptance : Acceptance) (name : String) : Bool :=
  name != "" && !acceptance.vocabulary.excludes name &&
    (acceptance.corpus.contains name || acceptance.file.contains name || acceptance.vocabulary.allows name)

end CallAtlas
