import CallAtlas.Proofs.ClassLines

/-! Which visibility lines of a file count for a method. A file is a list of classes, and a class is a list of methods,
visibility lines and `class << self` blocks of any depth. A method depends on every line of the file that names it, in
whatever class, and on the last word that stands alone above it in its class, in whatever block. So a change to the
lines of other classes and blocks is without effect only where none of them names the method and none is that word. -/
namespace CallAtlas.Ruby.ClassBody

/-- A visibility line, and whether it stands where the method stands: directly in its class or in its block. -/
structure Placed where
  own : Bool
  mark : Mark

/-- The last word that stands alone. -/
def lastBare? (marks : List Placed) : Option Placed := (marks.filter (·.mark.section?.isSome)).getLast?

/-- The visibility after some lines, if they set one. -/
def sectionOf (marks : List Placed) : Option Visibility := (marks.filterMap (·.mark.section?)).getLast?

def requestsOf (marks : List Placed) : List (String × Visibility) := marks.flatMap (·.mark.requests)

theorem sectionOf_append (front rest : List Placed) : sectionOf (front ++ rest) = (sectionOf rest).or (sectionOf front) := by
  rw [sectionOf, List.filterMap_append, List.getLast?_append]
  rfl

theorem sectionOf_eq_bind (marks : List Placed) : sectionOf marks = (lastBare? marks).bind (·.mark.section?) := by
  induction marks using List.reverseRecOn with
  | nil => rfl
  | append_singleton marks placed ih =>
    rw [sectionOf_append, lastBare?, List.filter_append, List.getLast?_append]
    cases set : placed.mark.section? with
    | none => simpa [sectionOf, set, lastBare?] using ih
    | some visibility => simp [sectionOf, set]

/-- Where the last word is an own one, the own lines alone give the same visibility. -/
theorem sectionOf_own {marks : List Placed} (own : ∀ placed ∈ lastBare? marks, placed.own = true) :
    sectionOf (marks.filter (·.own)) = sectionOf marks := by
  have same : lastBare? (marks.filter (·.own)) = lastBare? marks := by
    rw [lastBare?, lastBare?, List.filter_comm]
    rcases List.eq_nil_or_concat (marks.filter (·.mark.section?.isSome)) with none | ⟨front, last, split⟩
    · rw [none]
      rfl
    · have kept : last.own = true := own last (by rw [lastBare?, split, List.concat_eq_append, List.getLast?_concat]; rfl)
      simp [split, kept]
  rw [sectionOf_eq_bind, sectionOf_eq_bind, same]

/-- Lines of a file are read as some visibility lines. -/
structure Reads (texts : List (List Char)) (marks : List Placed) : Prop where
  visibility : ∀ current, texts.foldl visibilityAfter current = (sectionOf marks).getD current
  requests : texts.flatMap requestsOn = requestsOf marks

namespace Reads

variable {texts more : List (List Char)} {marks others : List Placed}

theorem nil : Reads [] [] := ⟨fun _ => rfl, rfl⟩

theorem append (reads : Reads texts marks) (rest : Reads more others) : Reads (texts ++ more) (marks ++ others) := by
  constructor
  · intro current
    rw [List.foldl_append, reads.visibility, rest.visibility, sectionOf_append, Option.getD_or]
  · rw [List.flatMap_append, reads.requests, rest.requests, requestsOf, requestsOf, requestsOf, List.flatMap_append]

theorem mark (own : Bool) (mark : Mark) : Reads [mark.text] [⟨own, mark⟩] := by
  constructor
  · intro current
    rw [List.foldl_cons, List.foldl_nil, mark.visibilityAfter_text]
    cases set : mark.section? with
    | none => simp [sectionOf, set]
    | some visibility => simp [sectionOf, set]
  · simp [requestsOf, mark.requestsOn_text]

theorem idle {text : List Char} (idle : Idle text) : Reads [text] [] :=
  ⟨idle.keeps, by rw [List.flatMap_singleton, idle.silent]; rfl⟩

theorem cons_mark (own : Bool) (mark : Mark) (reads : Reads texts marks) :
    Reads (mark.text :: texts) (⟨own, mark⟩ :: marks) :=
  (Reads.mark own mark).append reads

theorem cons_idle {text : List Char} (idle : Idle text) (reads : Reads texts marks) : Reads (text :: texts) marks :=
  (Reads.idle idle).append reads

theorem quiet (lines : List QuietLine) (reads : Reads texts marks) :
    Reads (lines.map QuietLine.text ++ texts) marks := by
  induction lines with
  | nil => exact reads
  | cons line rest ih => exact cons_idle line.idle_text ih

end Reads

/-- The lines of a method below its header, down to its `end`. There are none where the method ends on the line of its
header, as `def a; end` and `def a = 1` do. -/
abbrev Body := Option (List QuietLine)

def Body.texts (body : Body) : List (List Char) := body.elim [] fun lines => lines.map QuietLine.text ++ [endText]

theorem Body.reads (body : Body) : Reads body.texts [] := by
  cases body with
  | none => exact .nil
  | some lines => exact .quiet lines (.idle idle_endText)

/-- What stands between the first line of a class or block and its `end`. -/
inductive Members where
  | done
  | other (line : QuietLine) (rest : Members)
  | method (header : HeaderLine) (body : Body) (rest : Members)
  | mark (line : Mark) (rest : Members)
  | block (inner : Members) (rest : Members)

namespace Members

def texts : Members → List (List Char)
  | done => []
  | other line rest => line.text :: rest.texts
  | method header body rest => header.text :: (body.texts ++ rest.texts)
  | mark line rest => line.text :: rest.texts
  | block inner rest => blockText :: (inner.texts ++ endText :: rest.texts)

/-- The visibility lines in order; those of blocks are not the own ones of whoever stands outside. -/
def marks (own : Bool) : Members → List Placed
  | done => []
  | other _ rest => rest.marks own
  | method _ _ rest => rest.marks own
  | mark line rest => ⟨own, line⟩ :: rest.marks own
  | block inner rest => inner.marks false ++ rest.marks own

/-- The members without the visibility lines that are not own ones. -/
def kept (own : Bool) : Members → Members
  | done => done
  | other line rest => other line (rest.kept own)
  | method header body rest => method header body (rest.kept own)
  | mark line rest => if own then mark line (rest.kept own) else rest.kept own
  | block inner rest => block (inner.kept false) (rest.kept own)

theorem reads (members : Members) (own : Bool) : Reads members.texts (members.marks own) := by
  induction members generalizing own with
  | done => exact .nil
  | other line rest ih => exact .cons_idle line.idle_text (ih own)
  | method header body rest ih => exact .cons_idle header.idle_text (body.reads.append (ih own))
  | mark line rest ih => exact .cons_mark own line (ih own)
  | block inner rest ihInner ih =>
    exact .cons_idle idle_blockText ((ihInner false).append (.cons_idle idle_endText (ih own)))

/-- The own lines are kept. -/
theorem kept_own (members : Members) (own : Bool) :
    ((members.kept own).marks own).filter (·.own) = (members.marks own).filter (·.own) := by
  induction members generalizing own with
  | done => rfl
  | other line rest ih => exact ih own
  | method header body rest ih => exact ih own
  | mark line rest ih =>
    cases own with
    | true => exact congrArg (_ :: ·) (ih true)
    | false => exact ih false
  | block inner rest ihInner ih => rw [kept, marks, marks, List.filter_append, List.filter_append, ihInner, ih]

end Members

/-- What stands outside of all methods: a class, or a line between classes. -/
inductive Item where
  | other (line : QuietLine)
  | container (opening : ClassLine) (members : Members)

namespace Item

def texts : Item → List (List Char)
  | other line => [line.text]
  | container opening members => opening.text :: (members.texts ++ [endText])

/-- The visibility lines of another class. -/
def marks : Item → List Placed
  | other _ => []
  | container _ members => members.marks false

def kept : Item → Item
  | other line => other line
  | container opening members => container opening (members.kept false)

theorem requests_texts (item : Item) : item.texts.flatMap requestsOn = requestsOf item.marks := by
  cases item with
  | other line => exact (Reads.idle line.idle_text).requests
  | container opening members =>
    have inner := ((members.reads false).append (.idle idle_endText)).requests
    rw [texts, List.flatMap_cons, opening.requestsOn_text, List.nil_append, inner, List.append_nil, marks]

end Item

/-- The members of a class around one of its methods. -/
inductive Place where
  | here (before after : Members)
  /-- The method stands inside of a `class << self` block. -/
  | inside (before : Members) (place : Place) (after : Members)

namespace Place

def textsAbove : Place → List (List Char)
  | here before _ => before.texts
  | inside before place _ => before.texts ++ blockText :: place.textsAbove

def textsBelow : Place → List (List Char)
  | here _ after => after.texts
  | inside _ place after => place.textsBelow ++ endText :: after.texts

/-- The visibility lines above the method. Of the blocks around it only the innermost is its own, and `own` says whether
the lines outside of all these blocks are. -/
def marksAbove (own : Bool) : Place → List Placed
  | here before _ => before.marks true
  | inside before place _ => before.marks own ++ place.marksAbove false

def marksBelow (own : Bool) : Place → List Placed
  | here _ after => after.marks true
  | inside _ place after => place.marksBelow false ++ after.marks own

def kept (own : Bool) : Place → Place
  | here before after => here (before.kept true) (after.kept true)
  | inside before place after => inside (before.kept own) (place.kept false) (after.kept own)

theorem readsAbove (place : Place) (own : Bool) : Reads place.textsAbove (place.marksAbove own) := by
  induction place generalizing own with
  | here before after => exact before.reads true
  | inside before place after ih => exact (before.reads own).append (.cons_idle idle_blockText (ih false))

theorem readsBelow (place : Place) (own : Bool) : Reads place.textsBelow (place.marksBelow own) := by
  induction place generalizing own with
  | here before after => exact after.reads true
  | inside before place after ih => exact (ih false).append (.cons_idle idle_endText (after.reads own))

theorem keptAbove_own (place : Place) (own : Bool) :
    ((place.kept own).marksAbove own).filter (·.own) = (place.marksAbove own).filter (·.own) := by
  induction place generalizing own with
  | here before after => exact before.kept_own true
  | inside before place after ih =>
    rw [kept, marksAbove, marksAbove, List.filter_append, List.filter_append, before.kept_own, ih]

end Place

/-- The methods that start on a line. -/
def entriesOn (number : Nat) (definitions : List Definition) : List Entry :=
  (definitions.map Entry.ofDefinition).filter fun entry => entry.number = number

/-- A method, the class that it stands in, and what stands above and below that class. -/
structure Spot where
  front : List Item
  opening : ClassLine
  place : Place
  header : HeaderLine
  body : Body
  back : List Item

namespace Spot

variable (spot other : Spot)

def textsAbove : List (List Char) :=
  spot.front.flatMap Item.texts ++ spot.opening.text :: spot.place.textsAbove

def textsBelow : List (List Char) :=
  spot.body.texts ++ (spot.place.textsBelow ++ endText :: spot.back.flatMap Item.texts)

/-- The lines of the file, without indentation and comments. -/
def texts : List (List Char) := spot.textsAbove ++ spot.header.text :: spot.textsBelow

/-- The line that the method starts on. -/
def number : Nat := spot.textsAbove.length + 1

def name : String := String.ofList spot.header.name.text

/-- The visibility lines above the method in its class. -/
def marksAbove : List Placed := spot.place.marksAbove true

/-- All visibility lines of the file. -/
def marks : List Placed :=
  spot.front.flatMap Item.marks ++ (spot.marksAbove ++ (spot.place.marksBelow true ++ spot.back.flatMap Item.marks))

/-- The requests that name the method, in whatever class of the file they stand. -/
def requestsFor : List (String × Visibility) := (requestsOf spot.marks).filter fun request => request.1 = spot.name

/-- The words above the method in its class that stand alone, in whatever block. -/
def wordsAbove : List Visibility := spot.marksAbove.filterMap (·.mark.section?)

/-- The visibility that the method has: the last request for its name decides, then the word of its header, then the
last word above it that stands alone. -/
def visibility : Visibility :=
  (spot.requestsFor.getLast?.map (·.2)).getD (spot.header.visibility.getD (spot.wordsAbove.getLast?.getD .publicScope))

/-- The same file without the visibility lines of other classes and of other blocks. -/
def kept : Spot :=
  { spot with
    front := spot.front.map Item.kept
    place := spot.place.kept true
    back := spot.back.map Item.kept }

/-- No word of another block decides: the method is named, its header has a word, or the last word above it that stands
alone is its own. -/
def Shielded : Prop :=
  spot.requestsFor ≠ [] ∨ spot.header.word.isSome = true ∨ ∀ placed ∈ lastBare? spot.marksAbove, placed.own = true

/-- A file whose lines, cleaned and trimmed, are those around the method. -/
def WrittenIn (file : SourceFile) : Prop := textsOf (linesOf file) = spot.texts

theorem requests_texts : spot.texts.flatMap requestsOn = requestsOf spot.marks := by
  have items (items : List Item) : (items.flatMap Item.texts).flatMap requestsOn = requestsOf (items.flatMap Item.marks) := by
    rw [requestsOf, List.flatMap_assoc, List.flatMap_assoc]
    exact List.flatMap_congr fun item _ => item.requests_texts
  have below : spot.textsBelow.flatMap requestsOn =
      requestsOf (spot.place.marksBelow true) ++ requestsOf (spot.back.flatMap Item.marks) := by
    have rest := (spot.body.reads.append ((spot.place.readsBelow true).append (.idle idle_endText))).requests
    have split : spot.textsBelow = (spot.body.texts ++ (spot.place.textsBelow ++ [endText])) ++
        spot.back.flatMap Item.texts := by simp [textsBelow]
    rw [split, List.flatMap_append, rest, List.nil_append, List.append_nil, items]
  rw [texts, textsAbove, List.flatMap_append, List.flatMap_append, List.flatMap_cons, List.flatMap_cons, items,
    spot.opening.requestsOn_text, spot.header.idle_text.silent, (spot.place.readsAbove true).requests, below]
  simp [requestsOf, marks, marksAbove]

/-- One method starts on the line, with the name and the visibility of the spot. -/
theorem entriesOf_texts : (entriesOf spot.texts).filter (fun entry => entry.number = spot.number) =
    [⟨spot.number, spot.name, spot.visibility⟩] := by
  obtain ⟨read, found, name, written⟩ := spot.header.headerOn?_text
  have above : spot.textsAbove.foldl visibilityAfter .publicScope = (sectionOf spot.marksAbove).getD .publicScope := by
    rw [textsAbove, List.foldl_append, List.foldl_cons, spot.opening.visibilityAfter_text,
      (spot.place.readsAbove true).visibility]
    rfl
  have entries := entriesOf_at spot.textsAbove spot.textsBelow found
  rw [spot.header.idle_text.keeps, above] at entries
  rw [texts, number, entries, ← texts, requests_texts, entryAt, Entry.apply, name, written]
  rfl

variable {spot other}

theorem header_of_kept (same : spot.kept = other.kept) : spot.header = other.header := by
  have headers : spot.kept.header = other.kept.header := by rw [same]
  exact headers

/-- Words in other classes and blocks are no words of the method, however often they change. -/
theorem sectionOf_of_kept (same : spot.kept = other.kept) (own : ∀ placed ∈ lastBare? spot.marksAbove, placed.own = true)
    (others : ∀ placed ∈ lastBare? other.marksAbove, placed.own = true) :
    sectionOf spot.marksAbove = sectionOf other.marksAbove := by
  have place : spot.place.kept true = other.place.kept true := congrArg Spot.place same
  have lines : spot.marksAbove.filter (·.own) = other.marksAbove.filter (·.own) := by
    rw [marksAbove, marksAbove, ← spot.place.keptAbove_own, place, other.place.keptAbove_own]
  rw [← sectionOf_own own, lines, sectionOf_own others]

theorem visibility_of_kept (same : spot.kept = other.kept) (requests : spot.requestsFor = other.requestsFor)
    (words : spot.wordsAbove = other.wordsAbove ∨ spot.Shielded ∧ other.Shielded) :
    spot.visibility = other.visibility := by
  have header := header_of_kept same
  have named (some : spot.requestsFor ≠ []) : spot.visibility = other.visibility := by
    obtain ⟨last, found⟩ := Option.ne_none_iff_exists'.mp (mt List.getLast?_eq_none_iff.mp some)
    rw [visibility, visibility, ← requests, found]
    rfl
  have worded (some : spot.header.word.isSome = true) : spot.visibility = other.visibility := by
    obtain ⟨word, given⟩ := Option.isSome_iff_exists.mp some
    rw [visibility, visibility, ← requests, ← header, HeaderLine.visibility, given]
    rfl
  rcases words with words | ⟨shielded, sheltered⟩
  · rw [visibility, visibility, requests, header, words]
  · rcases shielded with some | some | own
    · exact named some
    · exact worded some
    · rcases sheltered with some | some | others
      · exact named (requests ▸ some)
      · exact worded (header ▸ some)
      · have words : spot.wordsAbove.getLast? = other.wordsAbove.getLast? := sectionOf_of_kept same own others
        rw [visibility, visibility, requests, header, words]

theorem entries_of_writtenIn (reader : Reader) (registry : Registry) {file : SourceFile} (written : spot.WrittenIn file) :
    ∀ definitions ∈ [(reader.define file).definitions, (reader.analyze file registry).definitions],
      entriesOn spot.number definitions = [⟨spot.number, spot.name, spot.visibility⟩] := by
  rw [List.forall_mem_cons, List.forall_mem_singleton]
  rw [entriesOn, entriesOn, reader.define_entries, reader.analyze_entries, written]
  exact ⟨spot.entriesOf_texts, spot.entriesOf_texts⟩

end Spot

/-- A method has the visibility that the last line of the file with its name asks for; without such a line the one of
its own word; without a word that of the last word above it in its class, blocks included. So where the visibility lines
of other classes and other blocks are changed, it stays as it is if the requests for its name stay, and if the words above
it stay or none of another block decides. -/
theorem visibility_where_others_change (reader : Reader) (registry : Registry) {file changed : SourceFile}
    {spot other : Spot} (written : spot.WrittenIn file) (rewritten : other.WrittenIn changed)
    (same : spot.kept = other.kept) :
    (∀ definitions ∈ [(reader.define file).definitions, (reader.analyze file registry).definitions],
      entriesOn spot.number definitions = [⟨spot.number, spot.name, spot.visibility⟩]) ∧
    (∀ definitions ∈ [(reader.define changed).definitions, (reader.analyze changed registry).definitions],
      entriesOn other.number definitions = [⟨other.number, spot.name, other.visibility⟩]) ∧
    (spot.requestsFor = other.requestsFor →
      spot.wordsAbove = other.wordsAbove ∨ spot.Shielded ∧ other.Shielded → spot.visibility = other.visibility) := by
  refine ⟨Spot.entries_of_writtenIn reader registry written, ?_, Spot.visibility_of_kept same⟩
  rw [Spot.name, Spot.header_of_kept same]
  exact Spot.entries_of_writtenIn reader registry rewritten

namespace Specimen

def helper : MethodName where
  word := ⟨"helper".toList, by decide, by decide⟩
  mark := none
  known := by simp

def make : MethodName where
  word := ⟨"make".toList, by decide, by decide⟩
  mark := none
  known := by simp

/-- The line `def` with a name and what stands behind it. -/
def header (name : MethodName) (tail : List Char) (unmarked : name.mark = none)
    (free : isReserved (String.ofList name.text) = false) (stop : ∀ c ∈ tail.head?, c ∈ ['(', ' ', ';']) :
    HeaderLine where
  word := none
  onSelf := false
  name := name
  free := free
  tail := tail
  stop := stop
  setter := by simp [unmarked]

def helperLine : HeaderLine := header helper [] rfl (by decide) (by simp)

/-- A method that ends on its first line. -/
def makeLine : HeaderLine := header make " = 1".toList rfl (by decide) (by simp)

/-- Two classes with a method `helper` each; that of the second stands behind a block. Visibility lines stand at the end
of the first class, at the start of the block and above the second `helper`. -/
def spot (elsewhere inBlock own : List Mark) (below : Members) : Spot where
  front := [.container ⟨['A'], by decide⟩ (.method helperLine (some []) (elsewhere.foldr .mark .done))]
  opening := ⟨['B'], by decide⟩
  place := .here (.block (inBlock.foldr .mark (.method (header make [] rfl (by decide) (by simp)) (some []) .done))
    (own.foldr .mark .done)) below
  header := helperLine
  body := some []
  back := []

def text (elsewhere inBlock own below : List String) : List Char :=
  Text.joinLines ((["class A", "  def helper", "  end"] ++ elsewhere ++ ["end", "class B", "  class << self"] ++ inBlock ++
    ["    def make", "    end", "  end"] ++ own ++ ["  def helper", "  end"] ++ below ++ ["end"]).map String.toList)

def file (elsewhere inBlock own below : List String) : SourceFile :=
  .ofText "shop.rb" .ruby (String.ofList (text elsewhere inBlock own below))

theorem writtenIn {elsewhere inBlock own below : List String} {spot : Spot}
    (texts : textsOf (Blanking.pairLines .ruby (Text.lines (text elsewhere inBlock own below))) = spot.texts) :
    spot.WrittenIn (file elsewhere inBlock own below) := by
  rw [Spot.WrittenIn, file, linesOf_ofText, String.toList_ofList, texts]

end Specimen

theorem visibility_where_others_change_private :
    let short := Members.method Specimen.makeLine none .done
    let spot := Specimen.spot [] [] [.bare .privateWord] short
    let other := Specimen.spot [.bare .privateWord, .naming .privateWord Specimen.make []] [.bare .publicWord]
      [.bare .privateWord] short
    let file := Specimen.file [] [] ["  private"] ["  def make = 1"]
    let changed := Specimen.file ["  private", "  private :make"] ["    public"] ["  private"] ["  def make = 1"]
    let reader : Reader := ⟨⟨.ruby, []⟩, ⟨9, 40⟩⟩
    spot.WrittenIn file ∧ other.WrittenIn changed ∧ spot.kept = other.kept ∧
      entriesOn 11 (reader.define file).definitions = [⟨11, "helper", .privateScope⟩] ∧
      entriesOn 14 (reader.define changed).definitions = [⟨14, "helper", other.visibility⟩] ∧
      spot.visibility = other.visibility := by
  intro short spot other file changed reader
  have written : spot.WrittenIn file := Specimen.writtenIn (by decide)
  have rewritten : other.WrittenIn changed := Specimen.writtenIn (by decide)
  have same : spot.kept = other.kept := rfl
  obtain ⟨first, second, stays⟩ := visibility_where_others_change reader (.ofDefinitions []) written rewritten same
  refine ⟨written, rewritten, same, first _ List.mem_cons_self, second _ List.mem_cons_self, stays (by decide) ?_⟩
  exact .inr ⟨.inr (.inr (by decide)), .inr (.inr (by decide))⟩

/-- A list of names in one class makes the method of another class private, and so does a word in a block that ends
above the method. -/
theorem visibility_crosses_scopes :
    let reader : Reader := ⟨⟨.ruby, []⟩, ⟨9, 40⟩⟩
    let spot := Specimen.spot [] [] [] .done
    let named := Specimen.spot [.naming .privateWord Specimen.helper []] [] [] .done
    let covered := Specimen.spot [] [.bare .privateWord] [] .done
    let file := Specimen.file [] [] [] []
    let naming := Specimen.file ["  private :helper"] [] [] []
    let covering := Specimen.file [] ["    private"] [] []
    spot.kept = named.kept ∧ spot.kept = covered.kept ∧
      spot.WrittenIn file ∧ named.WrittenIn naming ∧ covered.WrittenIn covering ∧
      entriesOn 10 (reader.define file).definitions = [⟨10, "helper", .publicScope⟩] ∧
      entriesOn 11 (reader.define naming).definitions = [⟨11, "helper", .privateScope⟩] ∧
      entriesOn 11 (reader.define covering).definitions = [⟨11, "helper", .privateScope⟩] := by
  intro reader spot named covered file naming covering
  have written : spot.WrittenIn file := Specimen.writtenIn (by decide)
  have writtenNaming : named.WrittenIn naming := Specimen.writtenIn (by decide)
  have writtenCovering : covered.WrittenIn covering := Specimen.writtenIn (by decide)
  have shown {spot : Spot} {file : SourceFile} (written : spot.WrittenIn file) {visibility : Visibility}
      (decided : spot.visibility = visibility) :
      entriesOn spot.number (reader.define file).definitions = [⟨spot.number, spot.name, visibility⟩] := by
    rw [← decided]
    exact Spot.entries_of_writtenIn reader (.ofDefinitions []) written _ List.mem_cons_self
  exact ⟨rfl, rfl, written, writtenNaming, writtenCovering, shown written (by decide),
    shown writtenNaming (by decide), shown writtenCovering (by decide)⟩

end CallAtlas.Ruby.ClassBody
