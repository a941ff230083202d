import CallAtlas.Json.Reader
import CallAtlas.Json.Writer
import CallAtlas.Proofs.Decimal
import Mathlib.Data.List.TakeWhile
import Mathlib.Tactic.SplitIfs

/-! JSON text read back. The written form of a value is first cut into the tokens of that value, whatever follows,
and these tokens then build the value inside whatever brackets are open. -/
namespace CallAtlas.Json

/-- Values with a written form: numbers that are not natural are written as the word they hold. -/
inductive Writable : Json → Prop where
  | null : Writable .null
  | bool (value : Bool) : Writable (.bool value)
  | natural (value : Nat) : Writable (.natural value)
  | number {lexeme : String} (word : ∀ c ∈ lexeme.toList, isWordChar c = true)
      (reads : wordValue? lexeme.toList = some (.number lexeme)) : Writable (.number lexeme)
  | string (value : String) : Writable (.string value)
  | array {items : List Json} (inner : ∀ item ∈ items, Writable item) : Writable (.array items)
  | object {fields : List (String × Json)} (inner : ∀ field ∈ fields, Writable field.2) :
      Writable (.object fields)

mutual

/-- The tokens of a value. -/
def tokensOf : Json → List Token
  | .array items => .openArray :: itemTokens items ++ [.closeArray]
  | .object fields => .openObject :: fieldTokens fields ++ [.closeObject]
  | plain => [.value plain]

def itemTokens : List Json → List Token
  | [] => []
  | [item] => tokensOf item
  | item :: rest => tokensOf item ++ .comma :: itemTokens rest

def fieldTokens : List (String × Json) → List Token
  | [] => []
  | [(name, value)] => .value (.string name) :: .colon :: tokensOf value
  | (name, value) :: rest => .value (.string name) :: .colon :: tokensOf value ++ .comma :: fieldTokens rest

end

/-- The text after a word ends it. -/
def EndsWord (rest : List Char) : Prop := ∀ c ∈ rest.head?, isWordChar c = false

/-- A text that is cut into some tokens where a word ends after it. -/
def Reads (text : List Char) (tokens : List Token) : Prop :=
  ∀ (done : List Token) {rest : List Char}, EndsWord rest →
    tokensFrom .between done (text ++ rest) = tokensFrom .between (tokens.reverse ++ done) rest

/-- A text that is cut into some tokens whatever follows it. -/
def Closes (text : List Char) (tokens : List Token) : Prop :=
  ∀ (done : List Token) (rest : List Char),
    tokensFrom .between done (text ++ rest) = tokensFrom .between (tokens.reverse ++ done) rest

section
variable {text more : List Char} {tokens later : List Token}

theorem Closes.reads (closes : Closes text tokens) : Reads text tokens := fun done rest _ => closes done rest

theorem Closes.append (closes : Closes text tokens) (next : Closes more later) :
    Closes (text ++ more) (tokens ++ later) := by
  intro done rest
  rw [List.append_assoc, closes, next, List.reverse_append, List.append_assoc]

theorem Closes.andThen (closes : Closes text tokens) (next : Reads more later) :
    Reads (text ++ more) (tokens ++ later) := by
  intro done rest ends
  rw [List.append_assoc, closes, next _ ends, List.reverse_append, List.append_assoc]

theorem Reads.before {c : Char} (reads : Reads text tokens) (other : isWordChar c = false)
    (next : Closes (c :: more) later) : Closes (text ++ c :: more) (tokens ++ later) := by
  intro done rest
  have ends : EndsWord (c :: more ++ rest) := by
    rintro first same
    cases same
    exact other
  rw [List.append_assoc, reads done ends, next, List.reverse_append, List.append_assoc]

end

theorem between?_word {done : List Token} {c : Char} (word : isWordChar c = true) :
    between? done c = some (.word [c], done) := by
  have other (mark : Char) (apart : isWordChar mark = false) : c ≠ mark := by
    rintro rfl
    rw [word] at apart
    cases apart
  have punctuation : punctuation? c = none := by
    unfold punctuation?
    split
    all_goals first
      | rfl
      | cases word
  have space : isSpace c = false := by
    simp [isSpace, other ' ' (by decide), other '\n' (by decide), other '\t' (by decide), other '\r' (by decide)]
  simp [between?, space, other '"' (by decide), punctuation, word]

theorem tokensFrom_word_chars {done : List Token} {held word rest : List Char}
    (chars : ∀ c ∈ word, isWordChar c = true) :
    tokensFrom (.word held) done (word ++ rest) = tokensFrom (.word (word.reverse ++ held)) done rest := by
  induction word generalizing held with
  | nil => rfl
  | cons c word ih =>
    have step : advance? (.word held) done c = some (.word (c :: held), done) := by
      simp [advance?, chars c List.mem_cons_self]
    rw [List.cons_append, tokensFrom, step, List.reverse_cons, List.append_assoc]
    exact ih fun other member => chars other (List.mem_cons_of_mem c member)

theorem reads_word {word : List Char} {value : Json} (chars : ∀ c ∈ word, isWordChar c = true)
    (reads : wordValue? word = some value) : Reads word [.value value] := by
  intro done rest ends
  cases word with
  | nil => cases reads
  | cons c word =>
    have first : advance? .between done c = some (.word [c], done) := between?_word (chars c List.mem_cons_self)
    have more : ∀ other ∈ word, isWordChar other = true :=
      fun other member => chars other (List.mem_cons_of_mem c member)
    have whole : (word.reverse ++ [c]).reverse = c :: word := by simp
    rw [List.cons_append, tokensFrom, first]
    simp only
    rw [tokensFrom_word_chars more]
    cases rest with
    | nil => simp [tokensFrom, whole, reads]
    | cons next rest =>
      have stop : isWordChar next = false := ends next rfl
      simp [tokensFrom, advance?, stop, whole, reads]

theorem hexValue?_hexDigit {n : Nat} (small : n < 16) : hexValue? (hexDigit n) = some n := by
  revert n
  decide

/-- Between quotes, the escape that stands for a character reads as that character. -/
theorem tokensFrom_plainEscape {mark c : Char} (plain : plainEscape? mark = some c) (other : mark ≠ 'u')
    (done : List Token) (held rest : List Char) :
    tokensFrom (.string held) done ('\\' :: mark :: rest) = tokensFrom (.string (c :: held)) done rest := by
  simp [tokensFrom, advance?, plain, other]

theorem tokensFrom_unit {c : Char} (control : c.toNat < 32) (done : List Token) (held rest : List Char) :
    tokensFrom (.string held) done
        ('\\' :: 'u' :: '0' :: '0' :: hexDigit (c.toNat / 16) :: hexDigit (c.toNat % 16) :: rest) =
      tokensFrom (.string (c :: held)) done rest := by
  have zero : hexValue? '0' = some 0 := by decide
  have high : hexValue? (hexDigit (c.toNat / 16)) = some (c.toNat / 16) := hexValue?_hexDigit (by omega)
  have low : hexValue? (hexDigit (c.toNat % 16)) = some (c.toNat % 16) := hexValue?_hexDigit (by omega)
  have whole : c.toNat / 16 * 16 + c.toNat % 16 = c.toNat := Nat.div_add_mod' c.toNat 16
  have unit : afterUnit? held none c.toNat = some (.string (c :: held)) := by
    have below : ¬(0xD800 ≤ c.toNat ∧ c.toNat ≤ 0xDBFF) := by omega
    have above : ¬(0xDC00 ≤ c.toNat ∧ c.toNat ≤ 0xDFFF) := by omega
    simp [afterUnit?, below, above]
  simp [tokensFrom, advance?, zero, high, low, whole, unit]

theorem tokensFrom_escape (done : List Token) (held : List Char) (c : Char) (rest : List Char) :
    tokensFrom (.string held) done (escape c ++ rest) = tokensFrom (.string (c :: held)) done rest := by
  unfold escape
  split_ifs with quote slash feed back tab bell page control
  -- Seven characters have a mark of their own.
  iterate 7
    · subst_vars
      exact tokensFrom_plainEscape rfl (by decide) done held rest
  · exact tokensFrom_unit control done held rest
  · simp [tokensFrom, advance?, quote, slash, control]

theorem closes_quote (text : String) : Closes (quote text).toList [.value (.string text)] := by
  intro done rest
  have escaped (held chars : List Char) :
      tokensFrom (.string held) done (chars.flatMap escape ++ '"' :: rest) =
        tokensFrom .between (.value (.string (String.ofList (chars.reverse ++ held).reverse)) :: done) rest := by
    induction chars generalizing held with
    | nil => simp [tokensFrom, advance?]
    | cons c chars ih =>
      rw [List.flatMap_cons, List.append_assoc, tokensFrom_escape, ih, List.reverse_cons, List.append_assoc]
      rfl
  have opened : tokensFrom .between done ('"' :: (text.toList.flatMap escape ++ '"' :: rest)) =
      tokensFrom (.string []) done (text.toList.flatMap escape ++ '"' :: rest) := by
    simp [tokensFrom, advance?, between?, isSpace]
  have written : (quote text).toList ++ rest = '"' :: (text.toList.flatMap escape ++ '"' :: rest) := by
    simp [quote]
  rw [written, opened, escaped]
  simp

theorem closes_blanks {blanks : List Char} (space : ∀ c ∈ blanks, isSpace c = true) : Closes blanks [] := by
  intro done rest
  induction blanks with
  | nil => rfl
  | cons c blanks ih =>
    have step : advance? .between done c = some (.between, done) := by
      simp [advance?, between?, space c List.mem_cons_self]
    rw [List.cons_append, tokensFrom, step]
    exact ih fun other member => space other (List.mem_cons_of_mem c member)

theorem toList_newline (indent : Nat) : (newline indent).toList = '\n' :: List.replicate indent ' ' := by
  simp [newline]

theorem closes_newline (indent : Nat) : Closes ('\n' :: List.replicate indent ' ') [] := by
  refine closes_blanks fun c member => ?_
  rcases List.mem_cons.mp member with rfl | blank
  · rfl
  · rw [List.eq_of_mem_replicate blank]
    rfl

theorem closes_punctuation {c : Char} {token : Token} (mark : punctuation? c = some token)
    (visible : isSpace c = false) (other : c ≠ '"') : Closes [c] [token] := by
  intro done rest
  simp [tokensFrom, advance?, between?, visible, other, mark]

theorem isUnsigned_of_digits {first : Char} {rest : List Char}
    (digits : ∀ c ∈ first :: rest, Text.isDigit c = true) (zero : first = '0' → rest = []) :
    isUnsigned (first :: rest) = true := by
  have whole : whole? (first :: rest) = some [] := by
    by_cases same : first = '0'
    · rw [same, zero same]
      rfl
    · have all : (first :: rest).dropWhile Text.isDigit = [] := List.dropWhile_eq_nil_iff.mpr digits
      simp [whole?, same, skipDigits?, digits first List.mem_cons_self, all]
  simp [isUnsigned, whole, fraction?, exponent?]

theorem wordValue?_natural (value : Nat) : wordValue? (Nat.toDigits 10 value) = some (.natural value) := by
  have digits : ∀ c ∈ Nat.toDigits 10 value, Text.isDigit c = true := fun _ => Decimal.isDigit_of_mem
  obtain ⟨first, rest, written⟩ : ∃ first rest, Nat.toDigits 10 value = first :: rest :=
    List.exists_cons_of_ne_nil Nat.toDigits_ne_nil
  have zero : first = '0' → rest = [] := by
    intro same
    have head : (Nat.toDigits 10 value).head? = some '0' := by rw [written, same]; rfl
    have none : value = 0 := Nat.eq_zero_of_not_pos fun positive => Decimal.head?_ne_zero positive head
    rw [none, Nat.toDigits_zero] at written
    exact (List.cons.inj written).2.symm
  have number := @Nat.ofDigitChars_ten_toDigits value
  rw [written, ← Decimal.foldl_digits] at number
  rw [written] at digits ⊢
  have digit : Text.isDigit first = true := digits first List.mem_cons_self
  have letter (c : Char) (other : Text.isDigit c = false) : first ≠ c := by
    rintro rfl
    rw [digit] at other
    cases other
  have all : (first :: rest).all Text.isDigit = true := List.all_eq_true.mpr digits
  have unsigned := isUnsigned_of_digits digits zero
  unfold wordValue?
  simpa [letter 'n' (by decide), letter 't' (by decide), letter 'f' (by decide), letter '-' (by decide),
    unsigned, all] using number

theorem reads_natural (value : Nat) : Reads (toString value).toList [.value (.natural value)] := by
  rw [Nat.toString_eq_repr, Nat.toList_repr]
  refine reads_word (fun c member => ?_) (wordValue?_natural value)
  simp [isWordChar, Decimal.isDigit_of_mem member]

theorem reads_items {items : List Json} {indent : Nat}
    (inner : ∀ item ∈ items, Reads (prettyAt indent item).toList (tokensOf item)) :
    Reads (prettyItems indent items).toList (itemTokens items) := by
  induction items with
  | nil => exact fun done rest _ => rfl
  | cons item more ih =>
    have own := (closes_newline indent).andThen (inner item List.mem_cons_self)
    cases more with
    | nil => simpa [prettyItems, itemTokens, toList_newline] using own
    | cons next more =>
      have comma : Closes [','] [.comma] := closes_punctuation rfl rfl (by decide)
      have later := ih fun other member => inner other (List.mem_cons_of_mem item member)
      simpa [prettyItems, itemTokens, toList_newline] using (own.before (by decide) comma).andThen later

theorem reads_fields {fields : List (String × Json)} {indent : Nat}
    (inner : ∀ field ∈ fields, Reads (prettyAt indent field.2).toList (tokensOf field.2)) :
    Reads (prettyFields indent fields).toList (fieldTokens fields) := by
  induction fields with
  | nil => exact fun done rest _ => rfl
  | cons field more ih =>
    have colon : Closes [':'] [.colon] := closes_punctuation rfl rfl (by decide)
    have blank : Closes [' '] [] := closes_blanks (List.all_eq_true.mp rfl)
    have own := ((((closes_newline indent).append (closes_quote field.1)).append colon).append blank).andThen
      (inner field List.mem_cons_self)
    cases more with
    | nil => simpa [prettyFields, fieldTokens, toList_newline] using own
    | cons next more =>
      have comma : Closes [','] [.comma] := closes_punctuation rfl rfl (by decide)
      have later := ih fun other member => inner other (List.mem_cons_of_mem field member)
      simpa [prettyFields, fieldTokens, toList_newline] using (own.before (by decide) comma).andThen later

/-- The written form of a value is cut into the tokens of the value. -/
theorem Writable.reads {value : Json} (writable : Writable value) (indent : Nat) :
    Reads (prettyAt indent value).toList (tokensOf value) := by
  induction writable generalizing indent with
  | null => exact (reads_word (List.all_eq_true.mp rfl) rfl : Reads "null".toList _)
  | bool value =>
    cases value with
    | false => exact (reads_word (List.all_eq_true.mp rfl) rfl : Reads "false".toList _)
    | true => exact (reads_word (List.all_eq_true.mp rfl) rfl : Reads "true".toList _)
  | natural value => exact reads_natural value
  | number word reads => exact reads_word word reads
  | string value => exact (closes_quote value).reads
  | @array items _ ih =>
    have opened : Closes ['['] [.openArray] := closes_punctuation rfl rfl (by decide)
    have closed : Closes [']'] [.closeArray] := closes_punctuation rfl rfl (by decide)
    cases items with
    | nil => simpa [prettyAt, tokensOf, itemTokens] using (opened.append closed).reads
    | cons item rest =>
      have inner := opened.andThen (reads_items fun item member => ih item member (indent + 2))
      have whole := inner.before (by decide) ((closes_newline indent).append closed)
      simpa [prettyAt, tokensOf, toList_newline] using whole.reads
  | @object fields _ ih =>
    have opened : Closes ['\x7b'] [.openObject] := closes_punctuation rfl rfl (by decide)
    have closed : Closes ['\x7d'] [.closeObject] := closes_punctuation rfl rfl (by decide)
    cases fields with
    | nil => simpa [prettyAt, tokensOf, fieldTokens] using (opened.append closed).reads
    | cons field rest =>
      have inner := opened.andThen (reads_fields fun field member => ih field member (indent + 2))
      have whole := inner.before (by decide) ((closes_newline indent).append closed)
      simpa [prettyAt, tokensOf, toList_newline] using whole.reads

/-- Where a value may stand, its tokens hand it to the innermost open bracket. -/
def Builds (value : Json) : Prop :=
  ∀ (closing : Bool) (frames : List Frame) (rest : List Token),
    buildFrom (.building (.value closing) frames) (tokensOf value ++ rest) =
      (Build.give value frames).bind (buildFrom · rest)

theorem buildFrom_cons (build : Build) (token : Token) (rest : List Token) :
    buildFrom build (token :: rest) = (build.step token).bind (buildFrom · rest) := by
  rw [buildFrom]
  cases build.step token <;> rfl

theorem builds_plain {value : Json} (plain : tokensOf value = [.value value]) : Builds value := by
  intro closing frames rest
  rw [plain, List.singleton_append, buildFrom_cons]
  rfl

theorem buildFrom_items {item : Json} {more : List Json} (inner : ∀ other ∈ item :: more, Builds other)
    (closing : Bool) (done : List Json) (outer : List Frame) (rest : List Token) :
    buildFrom (.building (.value closing) (.array done :: outer))
        (itemTokens (item :: more) ++ .closeArray :: rest) =
      (Build.give (.array (done.reverse ++ item :: more)) outer).bind (buildFrom · rest) := by
  induction more generalizing item closing done with
  | nil =>
    rw [itemTokens, inner item List.mem_cons_self, Build.give, Option.bind_some, buildFrom_cons]
    simp [Build.step]
  | cons next more ih =>
    have later := ih (fun other member => inner other (List.mem_cons_of_mem item member)) false (item :: done)
    rw [itemTokens, List.append_assoc, inner item List.mem_cons_self, Build.give, Option.bind_some,
      List.cons_append, buildFrom_cons]
    simpa [Build.step] using later
    simp

/-- A field is its name, a colon and a value that goes to the frame of that name. -/
theorem buildFrom_field {name : String} {value : Json} (builds : Builds value) (closing : Bool)
    (done : List (String × Json)) (outer : List Frame) (rest : List Token) :
    buildFrom (.building (.name closing) (.object done :: outer))
        (.value (.string name) :: .colon :: (tokensOf value ++ rest)) =
      buildFrom (.building .next (.object ((name, value) :: done) :: outer)) rest := by
  simp [buildFrom_cons, Build.step, builds false, Build.give]

theorem buildFrom_fields {field : String × Json} {more : List (String × Json)}
    (inner : ∀ other ∈ field :: more, Builds other.2) (closing : Bool) (done : List (String × Json))
    (outer : List Frame) (rest : List Token) :
    buildFrom (.building (.name closing) (.object done :: outer))
        (fieldTokens (field :: more) ++ .closeObject :: rest) =
      (Build.give (.object (done.reverse ++ field :: more)) outer).bind (buildFrom · rest) := by
  induction more generalizing field closing done with
  | nil =>
    rw [fieldTokens, List.cons_append, List.cons_append, buildFrom_field (inner field List.mem_cons_self),
      buildFrom_cons]
    simp [Build.step]
  | cons next more ih =>
    have later := ih (fun other member => inner other (List.mem_cons_of_mem field member)) false (field :: done)
    simp only [fieldTokens, List.cons_append, List.append_assoc]
    rw [buildFrom_field (inner field List.mem_cons_self), buildFrom_cons]
    simpa [Build.step] using later

/-- The tokens of a value build that value. -/
theorem Writable.builds {value : Json} (writable : Writable value) : Builds value := by
  induction writable with
  | null => exact builds_plain rfl
  | bool value => exact builds_plain rfl
  | natural value => exact builds_plain rfl
  | number word reads => exact builds_plain rfl
  | string value => exact builds_plain rfl
  | @array items _ ih =>
    intro closing frames rest
    rw [tokensOf, List.cons_append, List.cons_append, buildFrom_cons, Build.step, Option.bind_some]
    cases items with
    | nil => simp [itemTokens, buildFrom_cons, Build.step]
    | cons item more => simpa using buildFrom_items ih true [] frames rest
  | @object fields _ ih =>
    intro closing frames rest
    rw [tokensOf, List.cons_append, List.cons_append, buildFrom_cons, Build.step, Option.bind_some]
    cases fields with
    | nil => simp [fieldTokens, buildFrom_cons, Build.step]
    | cons field more => simpa using buildFrom_fields ih true [] frames rest

/-- Reading the written form of a value gives the value back. -/
theorem parse?_pretty {value : Json} (writable : Writable value) : parse? value.pretty = some value := by
  have ends : EndsWord [] := by simp [EndsWord]
  have cut : tokens? value.pretty.toList = some (tokensOf value) := by
    simpa [tokens?, pretty, tokensFrom] using writable.reads 0 [] ends
  have built := writable.builds false [] []
  rw [List.append_nil] at built
  rw [parse?, cut, Option.bind_some, built]
  rfl

end CallAtlas.Json
