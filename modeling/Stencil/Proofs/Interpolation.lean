import Stencil.Proofs.Compilation
import Stencil.Proofs.Events
import Stencil.Proofs.Lexing
import Stencil.Proofs.Spans

/-!
# Interpolations in the text of an element

A run of text ends where a tag or a comment starts, and the markers of an interpolation do not
protect what stands between them. An expression that is written into a text is therefore compiled as
a whole exactly if no tag and no comment starts in it. Otherwise the opening marker and the start of
the expression stay behind as literal text.
-/

namespace Stencil

namespace Markup

theorem exists_isRun_append {cs : List Char} (h : isRun cs = false) :
    ∃ front rest, cs = front ++ rest ∧ isRun front = true ∧ startsMarkup rest = true := by
  induction cs with
  | nil => cases h
  | cons c cs ih =>
    cases hstart : startsMarkup (c :: cs) with
    | true => exact ⟨[], c :: cs, rfl, rfl, hstart⟩
    | false =>
      rw [isRun, hstart, Bool.not_false, Bool.true_and] at h
      obtain ⟨front, rest, rfl, hfront, hrest⟩ := ih h
      refine ⟨c :: front, rest, rfl, ?_, hrest⟩
      have hbefore : startsMarkup (c :: front) = false := by
        refine Bool.eq_false_iff.2 fun hbefore => ?_
        rw [← List.cons_append, startsMarkup_of_append hbefore rest] at hstart
        cases hstart
      rw [isRun, hbefore, hfront]
      rfl

theorem Node.ofRun_of_mem {run : String} {c : Char} (hmem : c ∈ run.toList)
    (hc : Text.isWhite c = false) : Node.ofRun run = .text run := by
  have hwhite : ¬Text.isAllWhite run = true := by
    intro hwhite
    rw [List.all_eq_true.1 hwhite c hmem] at hc
    cases hc
  rw [Node.ofRun, if_neg hwhite]

namespace Forest

/-- The first root, finished or still open, has this tag, these attributes and this first child. -/
inductive Starts (tag : String) (attrs : List Attribute) (first : Node) : Forest → Prop
  | closed (opened : List OpenElement) (more others : List Node) :
      Starts tag attrs first ⟨opened, .element tag attrs false (first :: more) :: others⟩
  | opened (inner : List OpenElement) (more : List Node) :
      Starts tag attrs first ⟨inner ++ [⟨tag, attrs, first :: more⟩], []⟩

variable {tag : String} {attrs : List Attribute} {first : Node} {f : Forest}

theorem Starts.push (h : Starts tag attrs first f) (n : Node) :
    Starts tag attrs first (f.push n) := by
  cases h with
  | closed opened more others =>
    cases opened with
    | nil => exact .closed [] more (others ++ [n])
    | cons e outer => exact .closed _ more others
  | opened inner more =>
    cases inner with
    | nil => exact .opened [] (more ++ [n])
    | cons e inner => exact .opened (_ :: inner) more

theorem starts_closeThrough_closed (name : String) (opened : List OpenElement)
    (more others last : List Node) :
    Starts tag attrs first
      (closeThrough name (.element tag attrs false (first :: more) :: others) opened last) := by
  induction opened generalizing last with
  | nil => exact .closed [] more (others ++ last)
  | cons e outer ih =>
    rw [closeThrough]
    split
    · exact (Starts.closed outer more others).push _
    · exact ih _

theorem starts_closeThrough_opened (name : String) (inner : List OpenElement)
    (more last : List Node) :
    Starts tag attrs first
      (closeThrough name [] (inner ++ [⟨tag, attrs, first :: more⟩]) last) := by
  induction inner generalizing last with
  | nil =>
    rw [List.nil_append, closeThrough]
    split
    · exact .closed [] (more ++ last) []
    · exact .closed [] (more ++ last) []
  | cons e inner ih =>
    rw [List.cons_append, closeThrough]
    split
    · exact (Starts.opened inner more).push _
    · exact ih _

theorem Starts.step (h : Starts tag attrs first f) (event : Event) :
    Starts tag attrs first (f.step event) := by
  cases event with
  | text run => exact h.push _
  | selfClosing name as => exact h.push _
  | openTag name as =>
    cases h with
    | closed opened more others => exact .closed (_ :: opened) more others
    | opened inner more => exact .opened (_ :: inner) more
  | closeTag name =>
    rw [Forest.step]
    split
    · cases h with
      | closed opened more others => exact starts_closeThrough_closed name opened more others []
      | opened inner more => exact starts_closeThrough_opened name inner more []
    · exact h

theorem Starts.foldl (h : Starts tag attrs first f) (events : List Event) :
    Starts tag attrs first (events.foldl Forest.step f) := by
  induction events generalizing f with
  | nil => exact h
  | cons event events ih => exact ih (h.step event)

theorem closeAll_roots (roots : List Node) (opened : List OpenElement) (last : List Node) :
    ∃ others, closeAll roots opened last = roots ++ others := by
  induction opened generalizing last with
  | nil => exact ⟨last, rfl⟩
  | cons e outer ih => exact ih _

theorem Starts.closeAll (h : Starts tag attrs first f) :
    ∃ more others, closeAll f.roots f.opened [] =
      .element tag attrs false (first :: more) :: others := by
  cases h with
  | closed opened more others =>
    obtain ⟨rest, hrest⟩ :=
      closeAll_roots (.element tag attrs false (first :: more) :: others) opened []
    exact ⟨more, others ++ rest, hrest⟩
  | opened inner more =>
    -- the element is the outermost one, and what is still open in it ends up among its children
    suffices h : ∀ last, ∃ more' others,
        Forest.closeAll [] (inner ++ [⟨tag, attrs, first :: more⟩]) last =
          .element tag attrs false (first :: more') :: others from h []
    induction inner with
    | nil => exact fun last => ⟨more ++ last, [], rfl⟩
    | cons e inner ih => exact fun last => ih _

end Forest

/-- The element that is opened first and the text after it stay in front, whatever follows. -/
theorem parse_starts {source run tag : String} {events : List Event}
    (h : readEvents source.toList = .ok (.openTag tag [] :: .text run :: events)) :
    ∃ more others, parse source = .ok (.element tag [] false (.ofRun run :: more) :: others) := by
  have hstarts : Forest.Starts tag [] (.ofRun run) ⟨[⟨tag, [], [.ofRun run]⟩], []⟩ := .opened [] []
  obtain ⟨more, others, hroots⟩ := (hstarts.foldl events).closeAll
  have hforest : Forest.ofEvents (.openTag tag [] :: .text run :: events) =
      .element tag [] false (.ofRun run :: more) :: others := hroots
  refine ⟨more, others.filter fun n => !n.isBlank, ?_⟩
  rw [parse, h]
  simp only [hforest]
  rfl

end Markup

/-- Text without braces and line feeds. -/
def isBraceless (cs : List Char) : Bool :=
  cs.all fun c => c != '\x7b' && c != '\x7d' && c != '\n'

theorem not_mem_of_isBraceless {cs : List Char} (h : isBraceless cs = true) :
    '\x7b' ∉ cs ∧ '\x7d' ∉ cs ∧ '\n' ∉ cs := by
  rw [isBraceless, List.all_eq_true] at h
  refine ⟨fun hmem => ?_, fun hmem => ?_, fun hmem => ?_⟩
  · simpa using h _ hmem
  · simpa using h _ hmem
  · simpa using h _ hmem

theorem Expr.readChars_star (cs : List Char) : ∃ error, readChars ('*' :: cs) = .error error := by
  have hnext : Token.next? ('*' :: cs) = some (.op .mul, cs) :=
    Token.next?_fixed (t := .op .mul) (s := "*") rfl fun _ _ => rfl
  have hlex := Token.lex_token (by decide) hnext
  unfold readChars
  cases ForbiddenOp.find? ('*' :: cs) with
  | some op => exact ⟨_, rfl⟩
  | none =>
    rw [hlex]
    cases Token.lex cs with
    | none => exact ⟨_, rfl⟩
    | some ts => exact ⟨_, rfl⟩

theorem Expr.read_trim (text : String) : read (Text.trim text) = read text := by
  rw [read, Text.trim, String.toList_ofList, Text.trimChars_trimChars, read]

/-- An expression is not empty and does not start with a star. -/
theorem Expr.exists_cons_of_read {text : String} {e : Expr} (h : read text = .ok e) :
    ∃ c cs, text.toList = c :: cs ∧ c ≠ '*' := by
  rw [read] at h
  cases hcs : text.toList with
  | nil =>
    rw [hcs] at h
    cases h
  | cons c cs =>
    refine ⟨c, cs, rfl, ?_⟩
    rintro rfl
    have hne : Text.trimChars ('*' :: cs) ≠ [] := by
      intro hnil
      rw [hcs, hnil] at h
      cases h
    obtain ⟨d, ds, hcons⟩ := List.exists_cons_of_ne_nil hne
    obtain ⟨rest, hrest⟩ : Text.trimChars ('*' :: cs) <+: '*' :: cs :=
      List.rdropWhile_prefix Text.isWhite _
    rw [hcons, List.cons_append, List.cons.injEq] at hrest
    obtain ⟨error, herror⟩ := readChars_star ds
    rw [hcs, hcons, hrest.1, herror] at h
    cases h

namespace Config

variable {cs : List Char}

/-- A span of either pair whose inside holds no brace is found as it is, whatever follows it. -/
theorem span?_source {isRaw : Bool} (hne : cs ≠ []) (hcs : isBraceless cs = true)
    (rest : List Char) :
    default.markers.span? (default.markers.source ⟨isRaw, cs⟩ ++ rest) =
      some (⟨isRaw, cs⟩, rest) := by
  obtain ⟨hopen, hclose, hline⟩ := not_mem_of_isBraceless hcs
  have hinner : ∀ d ∈ cs, d ≠ '\x7d' ∧ d ≠ '\n' := by
    intro d hd
    constructor
    · rintro rfl
      exact hclose hd
    · rintro rfl
      exact hline hd
  have hread {d : Delimiters} (closer : List Char) (hd : d.closer.toList = '\x7d' :: closer) :
      d.inner? (d.wrap cs ++ rest) = some (cs, rest) := by
    rw [Delimiters.inner?, Delimiters.wrap, List.append_assoc, List.append_assoc,
      Text.after?_append, Option.bind_some, hd]
    exact readInner_append hne hinner rest
  cases isRaw with
  | true =>
    have hraw : default.markers.raw.inner? (default.markers.raw.wrap cs ++ rest) =
        some (cs, rest) := hread ['\x7d', '\x7d'] rfl
    rw [Markers.span?, Markers.source, Markers.pair, if_pos rfl, hraw]
  | false =>
    have hsafe : default.markers.safe.inner? (default.markers.safe.wrap cs ++ rest) =
        some (cs, rest) := hread ['\x7d'] rfl
    have hraw : default.markers.raw.inner? (default.markers.safe.wrap cs ++ rest) = none := by
      obtain ⟨c, tail, rfl⟩ := List.exists_cons_of_ne_nil hne
      have hc : '\x7b' ≠ c := fun heq => hopen (heq ▸ List.mem_cons_self)
      have hafter : Text.after? ['\x7b', '\x7b', '\x7b']
          ('\x7b' :: '\x7b' :: (c :: tail ++ ['\x7d', '\x7d'] ++ rest)) = none := by
        simp [Text.after?, hc]
      exact congrArg (Option.bind · (readInner ['\x7d', '\x7d', '\x7d'])) hafter
    rw [Markers.span?, Markers.source, Markers.pair, if_neg (by simp), hraw, hsafe]
    rfl

theorem span?_interpolation (hne : cs ≠ []) (hcs : isBraceless cs = true) :
    default.markers.span? ('\x7b' :: '\x7b' :: (cs ++ ['\x7d', '\x7d'])) =
      some (⟨false, cs⟩, []) := by
  have hspan : default.markers.span? (default.markers.source ⟨false, cs⟩ ++ []) =
      some (⟨false, cs⟩, []) := span?_source hne hcs []
  have hsource : default.markers.source ⟨false, cs⟩ =
      '\x7b' :: '\x7b' :: (cs ++ ['\x7d', '\x7d']) := by
    simp [Markers.source, Markers.pair, Delimiters.wrap, markers, default]
  rwa [List.append_nil, hsource] at hspan

theorem toList_interpolation (e : String) :
    ("\x7b\x7b" ++ e ++ "\x7d\x7d").toList =
      '\x7b' :: '\x7b' :: (e.toList ++ ['\x7d', '\x7d']) := by
  simp [String.toList_append]

theorem scan_interpolation {e : String} {c : Char} {tail : List Char} (he : e.toList = c :: tail)
    (hc : c ≠ '*') (hbraceless : isBraceless e.toList = true) :
    default.scan ("\x7b\x7b" ++ e ++ "\x7d\x7d") =
      [.binding ⟨Text.trim e, false, false, "\x7b\x7b" ++ e ++ "\x7d\x7d"⟩] := by
  have hline : '\n' ∉ ("\x7b\x7b" ++ e ++ "\x7d\x7d").toList := by
    simp [(not_mem_of_isBraceless hbraceless).2.2]
  have hne : e.toList ≠ [] := by simp [he]
  have hpieces : default.markers.pieces ("\x7b\x7b" ++ e ++ "\x7d\x7d").toList =
      [.span ⟨false, e.toList⟩] := by
    rw [toList_interpolation, Markers.pieces_span (span?_interpolation hne hbraceless),
      Markers.pieces_nil rfl]
  have hmark : oneTimeMark e.toList = (false, e.toList) := by
    unfold oneTimeMark
    split
    · rename_i heq
      rw [he, List.cons.injEq] at heq
      exact absurd heq.1 hc
    · rfl
  have hraw : String.ofList (default.markers.source ⟨false, e.toList⟩) =
      "\x7b\x7b" ++ e ++ "\x7d\x7d" :=
    default.delimiters.ofList_wrap e
  rw [scan, Markers.scan_eq_map hline hpieces (by simp)]
  simp only [List.map_cons, List.map_nil, Markers.segment, Markers.binding, hmark, hraw]
  rfl

/-- A text without a closing brace is literal text. -/
theorem compileText_literal {text : String} (hne : text.toList ≠ [])
    (hline : '\n' ∉ text.toList) (hbrace : '\x7d' ∉ text.toList) :
    default.compileText text = .ok (.text [⟨.text text, none⟩]) := by
  have hspan : default.markers.hasSpan text.toList = false :=
    Markers.hasSpan_of_not_mem (c := '\x7d') (by decide) (by decide) hbrace
  have hscan : default.scan text = [.text text] := by
    rw [scan, Markers.scan_eq_map hline (Markers.pieces_of_hasSpan hne rfl hspan) (by simp)]
    simp [Markers.segment]
  rw [compileText, hscan]
  rfl

theorem compileText_interpolation {e code : String} (hcode : default.compileExpr e = .ok code)
    (hbraceless : isBraceless e.toList = true) :
    default.compileText ("\x7b\x7b" ++ e ++ "\x7d\x7d") =
      .ok (.text
        [⟨.binding ⟨Text.trim e, false, false, "\x7b\x7b" ++ e ++ "\x7d\x7d"⟩, some code⟩]) := by
  have htrim : default.compileExpr (Text.trim e) = .ok code := by
    rw [← hcode, compileExpr, compileExpr, Expr.compile, Expr.compile, Expr.read_trim]
  obtain ⟨tree, hread, -⟩ := exists_of_compileExpr hcode
  obtain ⟨c, tail, he, hc⟩ := Expr.exists_cons_of_read hread
  rw [compileText, scan_interpolation he hc hbraceless]
  simp only [List.mapM_cons, List.mapM_nil, compileSegment, htrim]
  rfl

/-- The source of a paragraph that holds an interpolation and nothing else. -/
def paragraph (e : String) : String :=
  "<p>\x7b\x7b" ++ e ++ "\x7d\x7d</p>"

theorem readEvents_paragraph (e : String) :
    Markup.readEvents (paragraph e).toList =
      (Markup.readEvents ('\x7b' :: '\x7b' :: (e.toList ++ "\x7d\x7d</p>".toList))).map
        (.openTag "p" [] :: ·) := by
  have hsource : (paragraph e).toList =
      '<' :: (['p'] ++ '>' :: '\x7b' :: '\x7b' :: (e.toList ++ "\x7d\x7d</p>".toList)) := by
    simp [paragraph, String.toList_append]
  rw [hsource]
  refine Markup.readEvents_openTag rfl ?_ fun b => Markup.readAttributes_end b _
  rintro d ⟨⟩
  rfl

theorem parse_paragraph {e : String} (h : Markup.isRun e.toList = true) :
    Markup.parse (paragraph e) =
      .ok [.element "p" [] false [.text ("\x7b\x7b" ++ e ++ "\x7d\x7d")]] := by
  have hrun : Markup.isRun ("\x7b\x7b" ++ e ++ "\x7d\x7d").toList = true := by
    have htail : Markup.isRun (e.toList ++ ['\x7d', '\x7d']) = true := by
      rw [Markup.isRun_append (by rintro d ⟨⟩; rfl), h]
      rfl
    rw [toList_interpolation]
    simp [Markup.isRun, Markup.startsMarkup, Markup.startsTag, Markup.startsComment, htail]
  have hclose : Markup.readEvents ['<', '/', 'p', '>'] = .ok [.closeTag "p"] := by
    have hnil : Markup.readEvents [] = .ok [] := by rw [Markup.readEvents]
    have htag : Markup.readEvents ('<' :: '/' :: (['p'] ++ '>' :: [])) =
        (Markup.readEvents []).map (.closeTag "p" :: ·) :=
      Markup.readEvents_closeTag (List.all_eq_true.1 (by decide))
    rw [hnil] at htag
    exact htag
  have hevents : Markup.readEvents (paragraph e).toList =
      .ok [.openTag "p" [], .text ("\x7b\x7b" ++ e ++ "\x7d\x7d"), .closeTag "p"] := by
    have hcut : '\x7b' :: '\x7b' :: (e.toList ++ "\x7d\x7d</p>".toList) =
        ("\x7b\x7b" ++ e ++ "\x7d\x7d").toList ++ ['<', '/', 'p', '>'] := by
      simp
    rw [readEvents_paragraph, hcut, Markup.readEvents_text (by simp) hrun (.inr rfl), hclose,
      String.ofList_toList]
    rfl
  have hkeep : Markup.Node.ofRun ("\x7b\x7b" ++ e ++ "\x7d\x7d") =
      .text ("\x7b\x7b" ++ e ++ "\x7d\x7d") :=
    Markup.Node.ofRun_of_mem (c := '\x7b') (by simp) (by decide)
  rw [Markup.parse, hevents, ← hkeep]
  rfl

/-- Where markup starts in the expression, the opening marker and what precedes the markup are
compiled as literal text. -/
theorem compileTemplate_cut {e : String} (hbraceless : isBraceless e.toList = true)
    (h : Markup.isRun e.toList = false) {nodes : List CompiledNode}
    (hnodes : default.compileTemplate (paragraph e) = .ok nodes) :
    ∃ text more others,
      nodes = .element "p" [] [] (.text [⟨.text text, none⟩] :: more) :: others := by
  obtain ⟨front, rest, he, hfront, hrest⟩ := Markup.exists_isRun_append h
  have hrun : Markup.isRun ('\x7b' :: '\x7b' :: front) = true := by
    simp [Markup.isRun, Markup.startsMarkup, Markup.startsTag, Markup.startsComment, hfront]
  have hsealed : Markup.Sealed (rest ++ "\x7d\x7d</p>".toList) :=
    .inr (Markup.startsMarkup_of_append hrest _)
  have hread : Markup.readEvents (paragraph e).toList =
      ((Markup.readEvents (rest ++ "\x7d\x7d</p>".toList)).map
        (.text (String.ofList ('\x7b' :: '\x7b' :: front)) :: ·)).map (.openTag "p" [] :: ·) := by
    rw [readEvents_paragraph, ← Markup.readEvents_text (by simp) hrun hsealed, he]
    simp
  obtain ⟨ns, hparse, hns⟩ := exists_of_compileTemplate hnodes
  cases hevents : Markup.readEvents (rest ++ "\x7d\x7d</p>".toList) with
  | error b =>
    rw [hevents] at hread
    rw [Markup.parse, hread] at hparse
    cases hparse
  | ok events =>
    rw [hevents] at hread
    obtain ⟨more, others, hstarts⟩ := Markup.parse_starts hread
    rw [Markup.Node.ofRun_of_mem (c := '\x7b') (by simp) (by decide)] at hstarts
    rw [hparse] at hstarts
    cases hstarts
    obtain ⟨element, others, helement, -, rfl⟩ := exists_of_compileNodes hns
    obtain ⟨-, -, children, ⟨⟩, hchildren, rfl⟩ := exists_of_compileNode helement
    obtain ⟨first, more, hfirst, -, rfl⟩ := exists_of_compileNodes hchildren
    -- the first child is the run before the markup, in which no closing marker is left
    obtain ⟨-, hclose, hline⟩ := not_mem_of_isBraceless hbraceless
    rw [he, List.mem_append, not_or] at hclose hline
    have hliteral : default.compileText (String.ofList ('\x7b' :: '\x7b' :: front)) = .ok first :=
      hfirst
    rw [compileText_literal (by simp) (by simpa using hline.1) (by simpa using hclose.1)]
      at hliteral
    cases hliteral
    exact ⟨_, more, others, rfl⟩

/-- An expression that stands alone between markers in an element is compiled as one escaped binding
exactly if no tag and no comment starts in it. -/
theorem compileTemplate_paragraph_iff (e code : String) (hcode : default.compileExpr e = .ok code)
    (hbraceless : isBraceless e.toList = true) :
    (∃ b : Binding, b.html = false ∧ b.oneTime = false ∧
      default.compileTemplate (paragraph e) =
        .ok [.element "p" [] [] [.text [⟨.binding b, some code⟩]]]) ↔
    Markup.isRun e.toList = true := by
  constructor
  · rintro ⟨b, -, -, hwhole⟩
    by_contra hcut
    obtain ⟨text, more, others, heq⟩ :=
      compileTemplate_cut hbraceless (Bool.eq_false_iff.2 hcut) hwhole
    cases heq
  · intro hrun
    refine ⟨⟨Text.trim e, false, false, "\x7b\x7b" ++ e ++ "\x7d\x7d"⟩, rfl, rfl, ?_⟩
    rw [compileTemplate, parse_paragraph hrun]
    simp only [compileNodes, compileNode, compileAttributes,
      compileText_interpolation hcode hbraceless]
    rfl

theorem compileTemplate_paragraph_quoted :
    default.compileExpr "a < b ? '<3>' : c['/']" =
      .ok "_scope.a < _scope.b ? \"<3>\" : _scope.c[\"/\"]" ∧
    isBraceless "a < b ? '<3>' : c['/']".toList = true ∧
    Markup.isRun "a < b ? '<3>' : c['/']".toList = true ∧
    ∃ b : Binding, b.html = false ∧ b.oneTime = false ∧
      default.compileTemplate (paragraph "a < b ? '<3>' : c['/']") =
        .ok [.element "p" [] [] [.text [⟨.binding b,
          some "_scope.a < _scope.b ? \"<3>\" : _scope.c[\"/\"]"⟩]]] := by
  have hcode : default.compileExpr "a < b ? '<3>' : c['/']" =
      .ok "_scope.a < _scope.b ? \"<3>\" : _scope.c[\"/\"]" := by decide +kernel
  have hbraceless : isBraceless "a < b ? '<3>' : c['/']".toList = true := by decide
  have hrun : Markup.isRun "a < b ? '<3>' : c['/']".toList = true := by decide
  exact ⟨hcode, hbraceless, hrun, (compileTemplate_paragraph_iff _ _ hcode hbraceless).2 hrun⟩

/-- The tag that `<b` starts swallows the closing marker and the start of the closing tag. -/
theorem compileTemplate_paragraph_tag :
    default.compileExpr "a<b" = .ok "_scope.a < _scope.b" ∧
    default.compileTemplate "<p>\x7b\x7ba<b\x7d\x7d</p>" =
      .ok [.element "p" [] [] [.text [⟨.text "\x7b\x7ba", none⟩],
        .element "b" [⟨"\x7d\x7d", none⟩] [] [], .text [⟨.text "p>", none⟩]]] := by
  have hevents : Markup.readEvents "<p>\x7b\x7ba<b\x7d\x7d</p>".toList =
      .ok [.openTag "p" [], .text "\x7b\x7ba", .selfClosing "b" [⟨"\x7d\x7d", none⟩],
        .text "p>"] := by
    decide +kernel
  have hparse : Markup.parse "<p>\x7b\x7ba<b\x7d\x7d</p>" =
      .ok [.element "p" [] false [.text "\x7b\x7ba", .element "b" [⟨"\x7d\x7d", none⟩] true [],
        .text "p>"]] := by
    rw [Markup.parse, hevents]
    rfl
  refine ⟨by decide +kernel, ?_⟩
  have hstatic : default.isDynamic ⟨"\x7d\x7d", none⟩ = false := by decide +kernel
  have hfront : default.compileText "\x7b\x7ba" = .ok (.text [⟨.text "\x7b\x7ba", none⟩]) :=
    compileText_literal (by decide) (by decide) (by decide)
  have hback : default.compileText "p>" = .ok (.text [⟨.text "p>", none⟩]) :=
    compileText_literal (by decide) (by decide) (by decide)
  rw [compileTemplate, hparse]
  simp only [compileNodes, compileNode, compileAttributes, hfront, hback, hstatic]
  rfl

end Config
end Stencil
