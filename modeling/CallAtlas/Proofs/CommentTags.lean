import CallAtlas.Proofs.TemplateReading

/-! Tags whose content is a comment of Ruby. A template can be cut at any place outside of its tags, and tags are numbered
in order, so the calls of one tag can be told from those of all others. A tag that opens with a hash calls nothing; where
a marker of output or of trimming stands before the hash, the hash is passed over with it and the comment is read as
code. -/
namespace CallAtlas.Template

variable {line tag : Nat} {place : Place} {front rest : List Char} {before later : List (List Char)}

/-- The number of tags and the place behind some lines. -/
def placeAfter (line tag : Nat) (place : Place) : List (List Char) → Nat × Place
  | [] => (tag, place)
  | text :: rest =>
    placeAfter (line + 1) (readLine line tag place text).2.1 (readLine line tag place text).2.2 rest

theorem placeAfter_append (front back : List (List Char)) :
    placeAfter line tag place (front ++ back) =
      placeAfter (line + front.length) (placeAfter line tag place front).1 (placeAfter line tag place front).2 back := by
  induction front generalizing line tag place with
  | nil => rfl
  | cons text front ih =>
    rw [List.cons_append, placeAfter, ih, List.length_cons, Nat.add_assoc, Nat.add_comm 1]
    rfl

theorem segmentsFrom_append (front back : List (List Char)) :
    segmentsFrom line tag place (front ++ back) =
      segmentsFrom line tag place front ++
        segmentsFrom (line + front.length) (placeAfter line tag place front).1 (placeAfter line tag place front).2
          back := by
  induction front generalizing line tag place with
  | nil => rfl
  | cons text front ih =>
    rw [List.cons_append, segmentsFrom_cons, ih, List.length_cons, Nat.add_assoc, Nat.add_comm 1, segmentsFrom_cons,
      List.append_assoc]
    rfl

/-- Inside a tag something must follow for a part of a line to end outside. -/
theorem ne_nil_of_outside {text : List Char} (ends : (readLine line tag place text).2.2 = .outside)
    (inside : place ≠ .outside) : text ≠ [] := by
  rintro rfl
  cases place with
  | outside => exact inside rfl
  | opening comment => cases ends
  | inside comment held => cases ends

/-- What closes no tag in a part that ends outside closes none where more follows. -/
theorem not_closes_of_outside {c : Char} {text : List Char} (ends : (readLine line tag place text).2.2 = .outside)
    (inside : place ≠ .outside) (other : ∀ more, c = '%' → text = '>' :: more → False) :
    c = '%' → (text ++ rest).head? ≠ some '>' := by
  intro mark next
  rw [List.head?_append_of_ne_nil _ (ne_nil_of_outside ends inside)] at next
  obtain ⟨more, rfl⟩ := List.head?_eq_some_iff.mp next
  exact other more mark rfl

/-- Where a part of a line ends outside of tags, the rest of the line is read on from there. -/
theorem readLine_append (outside : (readLine line tag place front).2.2 = .outside) (marks : rest.head? ≠ some '%') :
    readLine line tag place (front ++ rest) =
      ((readLine line tag place front).1 ++ (readLine line (readLine line tag place front).2.1 .outside rest).1,
        (readLine line (readLine line tag place front).2.1 .outside rest).2) := by
  fun_induction readLine line tag place front with
  | case1 => rfl
  | case2 | case3 => cases outside
  | case4 tag text ih => exact ih outside
  | case5 tag text other ih =>
    have same : (text ++ rest).head? = text.head? :=
      List.head?_append_of_ne_nil _ (ne_nil_of_outside outside (by simp))
    have plain : text.head? ≠ some '%' := by
      intro mark
      obtain ⟨more, rfl⟩ := List.head?_eq_some_iff.mp mark
      exact other more rfl
    rw [List.cons_append, List.cons_append, readLine_open (same ▸ plain), same]
    exact ih outside
  | case6 tag c text literal opens ih =>
    rw [List.cons_append, readLine_outside]
    · exact ih outside
    · intro mark
      refine head?_append_ne (fun next => ?_) marks
      obtain ⟨more, rfl⟩ := List.head?_eq_some_iff.mp next
      exact opens more mark rfl
  | case7 tag comment text ih => exact ih outside
  | case8 tag comment c text other marker ih =>
    rw [List.cons_append, readLine_opening comment (not_closes_of_outside outside (by simp) other), if_pos marker]
    exact ih outside
  | case9 tag comment c text other marker ih =>
    rw [List.cons_append, readLine_opening comment (not_closes_of_outside outside (by simp) other), if_neg marker]
    exact ih outside
  | case10 tag comment held text segments last same ih =>
    rw [List.cons_append, List.cons_append, readLine_close]
    rw [same] at ih
    rw [ih outside, List.append_assoc]
  | case11 tag comment held c text other ih =>
    rw [List.cons_append, readLine_inside comment held (not_closes_of_outside outside (by simp) other)]
    exact ih outside

/-- Up to a place outside of tags a template is read for itself. -/
theorem segmentsFrom_front (outside : (placeAfter line tag place (before ++ [front])).2 = .outside)
    (marks : rest.head? ≠ some '%') (single : '\n' ∉ rest) :
    segmentsFrom line tag place (before ++ (front ++ rest) :: later) =
      segmentsFrom line tag place (before ++ [front]) ++
        readFrom (line + before.length) (placeAfter line tag place (before ++ [front])).1 .outside rest later := by
  rw [placeAfter_append, placeAfter] at outside
  have read := readLine_append outside marks
  rw [placeAfter_append, placeAfter, segmentsFrom_append, segmentsFrom_append, segmentsFrom_cons, segmentsFrom_cons, read,
    readFrom, Text.linePieces_of_not_mem single, List.singleton_append, segmentsFrom_cons]
  simp only [placeAfter, segmentsFrom, List.append_nil, List.append_assoc]

/-- The number of the tag that what is read next belongs to, if it belongs to one. -/
def Place.number (tag : Nat) : Place → Nat
  | .outside => tag + 1
  | _ => tag

theorem segment?_tag {comment : Bool} {code : List Char} {segment : Segment}
    (member : segment ∈ (segment? line tag comment code).toList) : segment.tag = tag := by
  unfold segment? at member
  split at member
  · cases member
  · cases Option.mem_toList.mp member
    rfl

theorem readLine_number (line tag : Nat) (place : Place) (text : List Char) :
    tag ≤ (readLine line tag place text).2.1 ∧
      place.number tag ≤ (readLine line tag place text).2.2.number (readLine line tag place text).2.1 ∧
      ∀ segment ∈ (readLine line tag place text).1,
        place.number tag ≤ segment.tag ∧ segment.tag ≤ (readLine line tag place text).2.1 := by
  fun_induction readLine line tag place text with
  | case1 | case2 => simp [Place.number]
  | case3 tag comment held =>
    refine ⟨Nat.le_refl _, Nat.le_refl _, fun segment member => ?_⟩
    rw [segment?_tag member]
    exact ⟨Nat.le_refl _, Nat.le_refl _⟩
  | case5 tag text other ih => exact ⟨Nat.le_of_succ_le ih.1, ih.2⟩
  | case7 tag comment text ih =>
    refine ⟨ih.1, Nat.le_of_succ_le ih.2.1, fun segment member => ?_⟩
    exact ⟨Nat.le_of_succ_le (ih.2.2 segment member).1, (ih.2.2 segment member).2⟩
  | case10 tag comment held text segments last same ih =>
    rw [same] at ih
    refine ⟨ih.1, Nat.le_of_succ_le ih.2.1, fun segment member => ?_⟩
    rcases List.mem_append.mp member with own | later
    · rw [segment?_tag own]
      exact ⟨Nat.le_refl _, ih.1⟩
    · exact ⟨Nat.le_of_succ_le (ih.2.2 segment later).1, (ih.2.2 segment later).2⟩
  -- Everywhere else the tag stays the same.
  | case4 | case6 | case8 | case9 | case11 =>
    rename_i ih
    exact ih

theorem segmentsFrom_number {lines : List (List Char)} {segment : Segment}
    (member : segment ∈ segmentsFrom line tag place lines) :
    place.number tag ≤ segment.tag ∧ segment.tag ≤ (placeAfter line tag place lines).1 := by
  have grows {line tag : Nat} {place : Place} (lines : List (List Char)) : tag ≤ (placeAfter line tag place lines).1 := by
    induction lines generalizing line tag place with
    | nil => exact Nat.le_refl _
    | cons text lines ih => exact Nat.le_trans (readLine_number line tag place text).1 ih
  induction lines generalizing line tag place with
  | nil => cases member
  | cons text lines ih =>
    obtain ⟨_, reached, own⟩ := readLine_number line tag place text
    rcases List.mem_append.mp member with here | later
    · exact ⟨(own segment here).1, Nat.le_trans (own segment here).2 (grows lines)⟩
    · exact ⟨Nat.le_trans reached (ih later).1, (ih later).2⟩

/-- A call with the number of the tag that it stands in. -/
structure TagCall where
  tag : Nat
  line : Nat
  callee : String
  deriving DecidableEq, Repr

/-- The calls of segments behind a segment of tag `tag`, with the numbers of their tags. -/
def tagCallsFrom (accepts : String → Bool) (locals : List String) (tag : Nat) (cleaner : Blanking.Cleaner) :
    List Segment → List TagCall
  | [] => []
  | segment :: rest =>
    let cleaned := (if segment.tag = tag then cleaner else {}).clean .erb segment.code
    (Ruby.callNames accepts locals cleaned.1).map (fun name => ⟨segment.tag, segment.line, name⟩) ++
      tagCallsFrom accepts (Ruby.localsAfter locals cleaned.1) segment.tag cleaned.2 rest

/-- The calls of a template with the numbers of their tags. -/
def tagCalls (accepts : String → Bool) (lines : List (List Char)) : List TagCall :=
  tagCallsFrom accepts [] 0 {} (segments lines)

variable {accepts : String → Bool} {locals : List String} {cleaner : Blanking.Cleaner}

theorem callsFrom_eq_map (found : List Segment) :
    callsFrom accepts locals (cleanedFrom tag cleaner found) =
      (tagCallsFrom accepts locals tag cleaner found).map fun call => (call.line, call.callee) := by
  induction found generalizing locals tag cleaner with
  | nil => rfl
  | cons segment found ih =>
    simp only [cleanedFrom, callsFrom, tagCallsFrom, List.map_append, List.map_map, ih]
    rfl

theorem tag_of_mem_tagCallsFrom {found : List Segment} {call : TagCall}
    (member : call ∈ tagCallsFrom accepts locals tag cleaner found) : ∃ segment ∈ found, segment.tag = call.tag := by
  induction found generalizing locals tag cleaner with
  | nil => cases member
  | cons segment found ih =>
    rcases List.mem_append.mp member with own | later
    · obtain ⟨name, _, rfl⟩ := List.mem_map.mp own
      exact ⟨segment, List.mem_cons_self, rfl⟩
    · obtain ⟨other, present, same⟩ := ih later
      exact ⟨other, List.mem_cons_of_mem segment present, same⟩

/-- The local variables known behind cleaned segments. -/
def knownAfter (locals : List String) (cleaned : List (Nat × List Char)) : List String :=
  cleaned.foldl (fun known entry => Ruby.localsAfter known entry.2) locals

/-- Behind some segments calls are searched with the local variables of these segments. -/
theorem tagCallsFrom_append (front back : List Segment) :
    ∃ last next, (last = tag ∨ ∃ segment ∈ front, segment.tag = last) ∧
      tagCallsFrom accepts locals tag cleaner (front ++ back) =
        tagCallsFrom accepts locals tag cleaner front ++
          tagCallsFrom accepts (knownAfter locals (cleanedFrom tag cleaner front)) last next back := by
  induction front generalizing locals tag cleaner with
  | nil => exact ⟨tag, cleaner, .inl rfl, rfl⟩
  | cons segment front ih =>
    rw [List.cons_append]
    simp only [tagCallsFrom, cleanedFrom, knownAfter, List.foldl_cons]
    generalize (if segment.tag = tag then cleaner else {}).clean .erb segment.code = cleaned
    obtain ⟨last, next, origin, split⟩ := @ih segment.tag (Ruby.localsAfter locals cleaned.1) cleaned.2
    refine ⟨last, next, .inr ?_, ?_⟩
    · rcases origin with rfl | ⟨other, present, same⟩
      · exact ⟨segment, List.mem_cons_self, rfl⟩
      · exact ⟨other, List.mem_cons_of_mem segment present, same⟩
    · rw [split, List.append_assoc]
      rfl

theorem filter_tagCallsFrom_other {found : List Segment} {number : Nat} (other : ∀ segment ∈ found, segment.tag ≠ number) :
    (tagCallsFrom accepts locals tag cleaner found).filter (·.tag == number) = [] := by
  apply List.filter_eq_nil_iff.mpr
  intro call member
  obtain ⟨segment, present, same⟩ := tag_of_mem_tagCallsFrom member
  simpa [← same] using other segment present

theorem filter_tagCallsFrom_self {found : List Segment} {number : Nat} (own : ∀ segment ∈ found, segment.tag = number) :
    (tagCallsFrom accepts locals tag cleaner found).filter (·.tag == number) =
      tagCallsFrom accepts locals tag cleaner found := by
  apply List.filter_eq_self.mpr
  intro call member
  obtain ⟨segment, present, same⟩ := tag_of_mem_tagCallsFrom member
  simpa [← same] using own segment present

/-- A tag is cleaned afresh. -/
theorem tagCallsFrom_fresh {found : List Segment} (fresh : ∀ segment ∈ found, segment.tag ≠ tag ∧ segment.tag ≠ 0) :
    tagCallsFrom accepts locals tag cleaner found = tagCallsFrom accepts locals 0 {} found := by
  cases found with
  | nil => rfl
  | cons segment found =>
    obtain ⟨different, numbered⟩ := fresh segment List.mem_cons_self
    rw [tagCallsFrom, if_neg different, tagCallsFrom, if_neg numbered]

/-- The calls of one tag, found in the segments of all. -/
theorem filter_tagCallsFrom {front own back : List Segment} {number : Nat} (started : tag < number)
    (below : ∀ segment ∈ front, segment.tag < number) (here : ∀ segment ∈ own, segment.tag = number)
    (above : ∀ segment ∈ back, number < segment.tag) :
    (tagCallsFrom accepts locals tag cleaner (front ++ (own ++ back))).filter (·.tag == number) =
      tagCallsFrom accepts (knownAfter locals (cleanedFrom tag cleaner front)) 0 {} own := by
  obtain ⟨last, next, origin, split⟩ := @tagCallsFrom_append tag accepts locals cleaner front (own ++ back)
  obtain ⟨_, _, _, behind⟩ := @tagCallsFrom_append last accepts
    (knownAfter locals (cleanedFrom tag cleaner front)) next own back
  have different : number ≠ last := by
    rcases origin with rfl | ⟨segment, present, rfl⟩
    · exact Nat.ne_of_gt started
    · exact Nat.ne_of_gt (below segment present)
  rw [split, behind, List.filter_append, List.filter_append,
    filter_tagCallsFrom_other fun segment present => Nat.ne_of_lt (below segment present),
    filter_tagCallsFrom_self here, filter_tagCallsFrom_other fun segment present => Nat.ne_of_gt (above segment present),
    List.nil_append, List.append_nil]
  apply tagCallsFrom_fresh
  intro segment present
  rw [here segment present]
  exact ⟨different, Nat.ne_of_gt (Nat.zero_lt_of_lt started)⟩

/-- A tag on one line whose content starts with a hash, behind markers of output and of trimming. -/
def hashTag (marks content : List Char) : List Char := '<' :: '%' :: (marks ++ '#' :: content ++ closer false)

/-- What is left of the content of a tag without markers in front and dashes at its end. -/
def unmarked (content : List Char) : List Char := Text.dropEndWhile (· == '-') (content.dropWhile isMarker)

variable {marks content back : List Char}

theorem codePieces_of_not_mem (single : '\n' ∉ content) : codePieces content = [Text.dropEndWhile (· == '-') content] := by
  rw [codePieces, Text.linePieces_of_not_mem single]
  rfl

theorem segments_hashTag (outside : (placeAfter 1 0 .outside (before ++ [front])).2 = .outside)
    (marked : ∀ c ∈ marks, c = '=' ∨ c = '-') (closed : ¬ ['%', '>'] <:+: content)
    (single : '\n' ∉ hashTag marks content ++ back) :
    segments (before ++ (front ++ (hashTag marks content ++ back)) :: later) =
      segments (before ++ [front]) ++
        ((if marks = [] then []
          else tagSegments (1 + before.length) ((placeAfter 1 0 .outside (before ++ [front])).1 + 1) [unmarked content]) ++
          readFrom (1 + before.length) ((placeAfter 1 0 .outside (before ++ [front])).1 + 1) .outside back later) := by
  have markers : ∀ c ∈ marks, isMarker c = true := by
    intro c member
    rcases marked c member with rfl | rfl <;> rfl
  have free : ¬ ['%', '>'] <:+: marks ++ (['#'] ++ content) := by
    refine not_infix_append (fun c member => ?_) (not_infix_append (by simp) closed)
    rcases marked c member with rfl | rfl <;> decide
  have dropped : (marks ++ '#' :: content).dropWhile isMarker = content.dropWhile isMarker := by
    rw [List.dropWhile_append_of_pos markers, List.dropWhile_cons_of_pos rfl]
  obtain ⟨first, head, percent, hash⟩ :
      ∃ first, (marks ++ '#' :: content).head? = some first ∧ first ≠ '%' ∧ (first = '#' ↔ marks = []) := by
    cases marks with
    | nil => exact ⟨'#', rfl, by decide, by simp⟩
    | cons c marks =>
      refine ⟨c, rfl, ?_⟩
      rcases marked c List.mem_cons_self with rfl | rfl <;> simp
  have inner : '\n' ∉ marks ++ '#' :: content := fun member =>
    single (List.mem_append_left _ (List.mem_cons_of_mem _ (List.mem_cons_of_mem _ (List.mem_append_left _ member))))
  have code : '\n' ∉ content.dropWhile isMarker := fun member =>
    inner (List.mem_append_right _ (List.mem_cons_of_mem _ ((List.dropWhile_suffix _).subset member)))
  have read := @readFrom_tag (1 + before.length) (placeAfter 1 0 .outside (before ++ [front])).1 _ free
    ⟨first, head, percent⟩ false (by simp) back later
  rw [List.singleton_append, head, dropped, codePieces_of_not_mem code, List.count_eq_zero.mpr inner, Nat.add_zero,
    ← List.append_assoc] at read
  simp only [Option.some_beq_some, beq_iff_eq, hash] at read
  rw [segments, segmentsFrom_front outside (by simp [hashTag]) single, ← segments]
  exact congrArg _ read

/-- Blank code calls nothing. -/
theorem callNames_clean_blank {code : List Char} (blank : code.all Text.isBlank = true) :
    Ruby.callNames accepts locals (({} : Blanking.Cleaner).clean .erb code).1 = [] := by
  apply List.eq_nil_iff_forall_not_mem.mpr
  intro name member
  obtain ⟨_, isName, column, stands⟩ := Ruby.mem_callNames member
  have here := (Blanking.clean_shadows {} code).isPrefix_drop isName.visible stands.here
  obtain ⟨first, more, mark, named, starts, _⟩ := isName
  have inside : first ∈ code := List.mem_of_mem_drop (here.subset (named ▸ List.mem_cons_self))
  have visible := Text.isBlank_of_isWord (Text.isWord_of_startsName starts)
  rw [List.all_eq_true.mp blank first inside] at visible
  cases visible

theorem tag_of_mem_tagSegments {pieces : List (List Char)} {segment : Segment}
    (member : segment ∈ tagSegments line tag pieces) : segment.tag = tag := by
  induction pieces generalizing line with
  | nil => cases member
  | cons piece pieces ih =>
    rcases List.mem_append.mp member with own | behind
    · split at own
      · cases own
      · cases List.mem_singleton.mp own
        rfl
    · exact ih behind

/-- The calls of a tag on one line. -/
theorem tagCallsFrom_tagSegments (line number : Nat) (code : List Char) (numbered : number ≠ 0) :
    tagCallsFrom accepts locals 0 {} (tagSegments line number [code]) =
      (Ruby.callNames accepts locals (({} : Blanking.Cleaner).clean .erb code).1).map fun name =>
        ⟨number, line, name⟩ := by
  rw [tagSegments, tagSegments, List.append_nil]
  split
  · next blank =>
    rw [callNames_clean_blank blank]
    rfl
  · rw [tagCallsFrom, if_neg numbered, tagCallsFrom, List.append_nil]

/-- What a tag contributes whose content starts with a hash behind markers of output and of trimming. The record of a
template holds the calls of its tags, and those of this tag are none if no marker stands before the hash. Behind a marker
the hash is taken for one more marker, so the tag contributes what is called in its content. -/
theorem hash_tag_calls (vocabulary : Vocabulary) (limits : Limits) (registry : Registry) {file : SourceFile}
    (source : file.sourceLines = before ++ (front ++ (hashTag marks content ++ back)) :: later)
    (outside : (placeAfter 1 0 .outside (before ++ [front])).2 = .outside)
    (marked : ∀ c ∈ marks, c = '=' ∨ c = '-') (closed : ¬ ['%', '>'] <:+: content) :
    let accepts := (acceptance vocabulary registry).accepts
    let number := (placeAfter 1 0 .outside (before ++ [front])).1 + 1
    (analyze vocabulary limits file registry).definitions =
        [(record file).addCalls ((tagCalls accepts file.sourceLines).map fun call =>
          siteOf limits file.sourceLines (call.line, call.callee))].filter (fun definition => !definition.calls.isEmpty) ∧
      (tagCalls accepts file.sourceLines).filter (·.tag == number) =
        if marks = [] then []
        else (Ruby.callNames accepts (knownAfter [] (cleanedFrom 0 {} (segments (before ++ [front]))))
          (({} : Blanking.Cleaner).clean .erb (unmarked content)).1).map fun name =>
            ⟨number, before.length + 1, name⟩ := by
  intro accepts number
  have single : '\n' ∉ hashTag marks content ++ back := by
    intro member
    have line : front ++ (hashTag marks content ++ back) ∈ file.sourceLines := by simp [source]
    exact Text.not_mem_of_mem_lines (List.mem_of_mem_take line) (List.mem_append_right _ member)
  have below : ∀ segment ∈ segments (before ++ [front]), segment.tag < number := fun segment member =>
    Nat.lt_succ_of_le (segmentsFrom_number member).2
  have here : ∀ segment ∈ (if marks = [] then [] else tagSegments (1 + before.length) number [unmarked content]),
      segment.tag = number := by
    intro segment member
    split at member
    · cases member
    · exact tag_of_mem_tagSegments member
  have above : ∀ segment ∈ readFrom (1 + before.length) number .outside back later, number < segment.tag :=
    fun segment member => (segmentsFrom_number member).1
  constructor
  · rw [analyze_definitions, callSites, callsFrom_eq_map, List.map_map]
    rfl
  · rw [tagCalls, source, segments_hashTag outside marked closed single,
      filter_tagCallsFrom (Nat.succ_pos _) below here above]
    split
    · rfl
    · rw [tagCallsFrom_tagSegments _ _ _ (Nat.succ_ne_zero _), Nat.add_comm 1]

/-- One tag behind a line of text and another tag, once without and once with markers before the hash. -/
theorem hash_tag_calls_link :
    let file (marks : String) : SourceFile :=
      .ofText "a.erb" .erb ("<p>\n<% x = 1 %><%" ++ marks ++ "#- link_to x, y -%>\n")
    let calls (marks : String) :=
      (tagCalls (acceptance ⟨.erb, ["x", "y"]⟩ .empty).accepts (file marks).sourceLines).filter (·.tag == 2)
    calls "" = [] ∧ calls "-=" = [⟨2, 2, "link_to"⟩, ⟨2, 2, "y"⟩] := by
  intro file calls
  have outside : (placeAfter 1 0 .outside (["<p>".toList] ++ ["<% x = 1 %>".toList])).2 = .outside := by decide
  have closed : ¬ ['%', '>'] <:+: "- link_to x, y -".toList := by decide +kernel
  have source (marks : String) (known : marks = "" ∨ marks = "-=") : (file marks).sourceLines =
      ["<p>".toList] ++ ("<% x = 1 %>".toList ++ (hashTag marks.toList "- link_to x, y -".toList ++ [])) :: [] := by
    rcases known with rfl | rfl <;> decide +kernel
  exact ⟨(hash_tag_calls ⟨.erb, ["x", "y"]⟩ ⟨9, 20⟩ .empty (source "" (.inl rfl)) outside (by simp) closed).2,
    (hash_tag_calls ⟨.erb, ["x", "y"]⟩ ⟨9, 20⟩ .empty (source "-=" (.inr rfl)) outside (by decide) closed).2.trans
      (by decide +kernel)⟩

/-- Behind a marker of output or of trimming, code that is commented out is reported as called. -/
theorem commented_code_called :
    let file (marks : String) : SourceFile := .ofText "a.erb" .erb ("<%" ++ marks ++ "# link_to(x) %>\n")
    let calls (marks : String) := (analyze ⟨.erb, []⟩ ⟨9, 20⟩ (file marks) .empty).definitions.flatMap fun definition =>
      definition.calls.map fun call => (call.callee, call.line)
    calls "" = [] ∧ calls "=" = [("link_to", 1)] ∧ calls "-" = [("link_to", 1)] := by
  decide +kernel

end CallAtlas.Template
