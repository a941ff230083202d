import CallAtlas.Text.Cut

/-! Languages a source file can be written in. A language is read from a tag, in any case and with blanks
around it, or from the last component of a path. -/
namespace CallAtlas

/-- Tags of source files; only the first five have an extractor. -/
inductive Language where
  | ruby
  | javascript
  | typescript
  | tsx
  | erb
  | yaml
  | markdown
  | unknown
  deriving DecidableEq, Repr, Inhabited

namespace Language

def all : List Language := [ruby, javascript, typescript, tsx, erb, yaml, markdown, unknown]

def name : Language → String
  | ruby => "ruby"
  | javascript => "javascript"
  | typescript => "typescript"
  | tsx => "tsx"
  | erb => "erb"
  | yaml => "yaml"
  | markdown => "markdown"
  | unknown => "unknown"

/-- The language with exactly this canonical tag; any other text is `unknown`. -/
def ofName (tag : String) : Language := (all.find? fun language => language.name == tag).getD unknown

theorem ofName_name (language : Language) : ofName language.name = language := by
  cases language <;> decide

/-- Reads a tag or one of its short forms, in any ASCII case and with blanks around it. -/
def ofTag (tag : String) : Language :=
  match String.ofList (Text.lowercase (Text.trim tag.toList)) with
  | "ruby" | "rb" => ruby
  | "javascript" | "js" | "jsx" => javascript
  | "typescript" | "ts" => typescript
  | "tsx" => tsx
  | "erb" => erb
  | "yaml" | "yml" => yaml
  | "markdown" | "md" => markdown
  | _ => unknown

/-- The last named component of a path; a path that ends in `..` names nothing. -/
def pathName? (path : List Char) : Option (List Char) :=
  match (path.splitOn '/').filter (fun part => part ≠ [] ∧ part ≠ ['.']) |>.getLast? with
  | some name => if name = ['.', '.'] then none else some name
  | none => none

/-- The part of a file name after its last dot, unless the dot is the first character. -/
def extension? (fileName : List Char) : Option (List Char) :=
  match Text.cutAtChars? ['.'] fileName.reverse with
  | some (_, []) => none
  | some (last, _) => some last.reverse
  | none => none

/-- The language of a path. A name that ends in `.erb` is a template whatever stands before. -/
def ofPath (path : String) : Language :=
  match pathName? path.toList with
  | none => unknown
  | some name =>
    if Text.endsWith ".erb" name then erb
    else if name = "Rakefile".toList ∨ name = "Gemfile".toList then ruby
    else
      match (extension? name).map String.ofList with
      | some "rb" | some "rake" | some "gemspec" => ruby
      | some "js" | some "mjs" | some "cjs" | some "jsx" => javascript
      | some "ts" | some "mts" | some "cts" => typescript
      | some "tsx" => tsx
      | some "yml" | some "yaml" => yaml
      | some "md" | some "markdown" => markdown
      | _ => unknown

/-- JavaScript and its typed relatives share words, blanking rules and extractor. -/
def isScript : Language → Bool
  | javascript | typescript | tsx => true
  | _ => false

/-- Ruby and the templates that embed it share words and blanking rules. -/
def isRubyLike : Language → Bool
  | ruby | erb => true
  | _ => false

end Language
end CallAtlas
