import CallAtlas.Language

/-! Words of the supported languages: keywords, names of the standard library, names that well-known frameworks
provide, and statement words that look like calls. -/
namespace CallAtlas

/-- Word lists of one family of languages. Builtins are never call sites, and what is allowed is one without a
definition. -/
structure WordTable where
  keywords : List String
  builtins : List String
  allowed : List String
  control : List String

namespace WordTable

def ruby : WordTable where
  keywords :=
    ["BEGIN", "END", "__FILE__", "__LINE__", "__method__", "alias", "and", "begin", "break",
     "case", "class", "def", "defined?", "do", "else", "elsif", "end", "ensure", "false", "for",
     "if", "in", "module", "next", "nil", "not", "or", "private", "protected", "public", "redo",
     "rescue", "retry", "return", "self", "super", "then", "true", "undef", "unless", "until",
     "when", "while", "yield"]
  builtins :=
    ["attr_accessor", "attr_reader", "attr_writer", "block_given?", "catch", "class_eval",
     "define_method", "dup", "each", "each_with_index", "each_with_object", "extend", "format",
     "freeze", "frozen?", "gets", "include", "include?", "inspect", "instance_of?", "is_a?",
     "kind_of?", "lambda", "loop", "map", "module_function", "new", "nil?", "object_id", "p",
     "pp", "prepend", "print", "printf", "proc", "puts", "raise", "require", "require_relative",
     "respond_to?", "select", "send", "sleep", "sprintf", "tap", "then", "throw", "to_a", "to_h",
     "to_i", "to_s", "to_sym", "reject", "times", "inject", "reduce", "sum", "sort", "sort_by",
     "min", "max", "empty?", "present?", "blank?", "length", "size", "keys", "values", "merge",
     "fetch", "dig", "split", "join", "strip", "upcase", "downcase", "gsub", "sub", "compact",
     "flatten", "uniq", "zip", "any?", "all?", "none?"]
  allowed :=
    ["all", "build", "count", "create", "create!", "delete", "destroy", "destroy!", "exists?",
     "find", "find_by", "find_by!", "find_each", "find_or_create_by", "includes", "joins",
     "limit", "order", "pluck", "reload", "save", "save!", "update", "update!", "update_all",
     "where", "group", "having", "offset", "distinct", "belongs_to", "has_many", "has_one",
     "has_and_belongs_to_many", "validates", "validate", "scope", "before_save", "after_save",
     "before_create", "after_create", "before_validation", "after_commit", "errors", "persisted?",
     "new_record?", "before_action", "after_action", "skip_before_action", "around_action",
     "params", "permit", "require_params", "render", "redirect_to", "redirect_back", "respond_to",
     "head", "session", "cookies", "flash", "request", "response", "helper_method", "button_to",
     "content_for", "content_tag", "form_for", "form_with", "image_tag", "javascript_include_tag",
     "l", "link_to", "number_to_currency", "partial", "pluralize", "raw", "safe_join",
     "simple_format", "stylesheet_link_tag", "t", "tag", "time_ago_in_words", "truncate",
     "url_for", "yield_content", "csrf_meta_tags", "authenticate_user!", "current_user",
     "sign_in", "sign_out", "user_signed_in?"]
  control :=
    ["if", "unless", "while", "until", "case", "when", "for", "return", "yield", "rescue",
     "defined?", "super"]

/-- Words of JavaScript and its typed relatives. -/
def script : WordTable where
  keywords :=
    ["abstract", "as", "async", "await", "break", "case", "catch", "class", "const", "continue",
     "debugger", "declare", "default", "delete", "do", "else", "enum", "export", "extends",
     "false", "finally", "for", "from", "function", "get", "if", "implements", "import", "in",
     "instanceof", "interface", "is", "keyof", "let", "namespace", "new", "null", "of", "private",
     "protected", "public", "readonly", "return", "satisfies", "set", "static", "super", "switch",
     "this", "throw", "true", "try", "type", "typeof", "undefined", "var", "void", "while",
     "with", "yield"]
  builtins :=
    ["Array", "Boolean", "Date", "Error", "JSON", "Map", "Math", "Number", "Object", "Promise",
     "RegExp", "Set", "String", "Symbol", "WeakMap", "addEventListener", "alert", "apply",
     "assign", "bind", "call", "clearInterval", "clearTimeout", "concat", "console", "entries",
     "every", "fetch", "filter", "find", "findIndex", "forEach", "getElementById", "includes",
     "indexOf", "isArray", "isNaN", "join", "keys", "log", "map", "parse", "parseFloat",
     "parseInt", "pop", "preventDefault", "push", "querySelector", "querySelectorAll", "reduce",
     "reject", "removeEventListener", "replace", "require", "resolve", "setInterval",
     "setTimeout", "shift", "slice", "some", "sort", "splice", "split", "startsWith", "endsWith",
     "stopPropagation", "stringify", "then", "toFixed", "toLowerCase", "toString", "toUpperCase",
     "trim", "unshift", "values", "warn", "error", "info", "debug"]
  allowed :=
    ["useState", "useEffect", "useContext", "useReducer", "useCallback", "useMemo", "useRef",
     "useLayoutEffect", "useImperativeHandle", "useDebugValue", "useId", "useTransition",
     "useDeferredValue", "useSyncExternalStore", "createContext", "createElement", "createRoot",
     "forwardRef", "lazy", "memo", "render", "setState", "Fragment", "Suspense", "StrictMode",
     "useNavigate", "useParams", "useLocation", "useSearchParams", "useSelector", "useDispatch",
     "useQuery", "useMutation", "useQueryClient", "dispatch", "navigate"]
  control :=
    ["if", "for", "while", "switch", "catch", "return", "typeof", "function", "super", "import"]

def of? : Language → Option WordTable
  | .ruby | .erb => some ruby
  | .javascript | .typescript | .tsx => some script
  | .yaml | .markdown | .unknown => none

end WordTable
end CallAtlas
