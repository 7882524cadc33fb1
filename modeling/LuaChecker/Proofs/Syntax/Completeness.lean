import LuaChecker.Proofs.Syntax.Repair

/-!
# What is meant is read

If a row of tokens is meant to have a form, and what follows it cannot go on in its place,
the parse that belongs to the form reads the row. It records the events of the meaning: one
header for each function, the parameters of those that have some, and the misspelt words.

* `complete_nested`: expressions and chunks, at every level.
-/

namespace LuaChecker.Grammar

open Parse

variable {n : Nat} {b : List Closer} {inner : Nested} {speller : Speller} {ts us : List Token}
  {es : List Event}

/-! ## Separators -/

/-- Behind the part in front of it, the token that is read as a separator goes on with
nothing. -/
theorem ReadAs.avoids {s : Separator} {t : Token} {texts : List String} (h : ReadAs speller s t es)
    (ht : t.IsLexical) (hfixed : ∀ text ∈ texts, text ∈ fixedTexts) (hnot : s.text ∉ texts) :
    Avoids texts (t :: ts) := by
  cases h with
  | itself htext => exact avoids_of_text htext hnot
  | misspelt hfound => exact avoids_of_kind ht hfound.kind rfl hfixed

theorem yields_lack_misspelt {s : Separator} {t : Token} (h : SeparatorTypo speller s t) :
    Yields speller (lack s.text s.place) (t :: ts) () ts [missingEvent s t] := by
  have hresembles : Yields speller (resembles s.text) (t :: ts) true (t :: ts) [] :=
    (reads_of_eq _ _ rfl).mpr ⟨h.resembles.symm, rfl, rfl⟩
  refine reads_look_bind.mpr (hresembles.andThen ?_)
  exact reads_advance_bind.mpr (reads_record.mpr ⟨rfl, rfl, trivial⟩)

theorem ReadAs.yields {s : Separator} {t : Token} (h : ReadAs speller s t es) (ht : t.IsLexical) :
    Yields speller (demand s.text s.place) (t :: ts) () ts es := by
  cases h with
  | itself htext => exact Reads.demand htext
  | misspelt hfound =>
    have hne : t.text ≠ s.text := ht.text_ne hfound.kind rfl (by cases s <;> decide)
    exact Reads.refused (avoids_cons.mpr (by simpa using hne)) (yields_lack_misspelt hfound)

/-! ## Names -/

theorem complete_discard_name (h : Means speller n b .name ts us es) :
    Yields speller (discard name) ts () us es := by
  obtain ⟨t, rfl, ht, rfl⟩ := means_ofKind h
  exact Reads.discard (Reads.name ht)

/-- Further members of a list, each after its comma. What follows a member is known: it is a
comma or what follows the list. -/
theorem complete_commas {p : Parse Unit} {f : Form} {F : List Token → Prop}
    (hp : ∀ {ts us es}, Lexical ts → Means speller n b f ts us es → F us →
      Yields speller p ts () us es)
    (hcomma : ∀ {t ts}, t.text = "," → F (t :: ts)) (hend : F us)
    (havoid : Avoids [","] us) (h : Means speller n b (.many (.row [.word ",", f])) ts us es)
    (hts : Lexical ts) :
    F ts ∧ Yields speller (many (afterComma p)) ts () us es := by
  refine h.many_induction (motive := fun ts es => Lexical ts → F ts ∧
    Yields speller (many (afterComma p)) ts () us es) nofun ?_ ?_ hts
  · intro _
    exact ⟨hend, reads_many.mpr (.inl (reads_afterComma.mpr (.inr ⟨havoid, rfl, rfl, rfl⟩)))⟩
  · intro ts mid is js hmember _ ih hts
    obtain ⟨t, rest, rfl, ht, hf⟩ := means_row_word hmember
    obtain ⟨hfollow, hmore⟩ := ih (hmember.lexical hts)
    have hread := reads_afterComma.mpr (.inl ⟨t, rest, rfl, ht, hp hts.tail hf hfollow, rfl⟩)
    refine ⟨hcomma ht, ?_⟩
    exact reads_many.mpr (.inr ⟨mid, _, _, hread, hmember.length_lt rfl, hmore, rfl⟩)

/-- A list of names goes on through further names. The row of these is `names`, and what
stands behind it ends the list. -/
theorem complete_nextNames {mid : List Token} {dots : Bool}
    (h : Means speller n b (.many (.row [.word ",", .name])) ts mid es) (hts : Lexical ts)
    (hend : ∀ sofar, Yields speller (loop nextOpenName ⟨sofar, false⟩) mid ⟨sofar, dots⟩ us []) :
    ∃ names, ts = names ++ mid ∧ hasDots names = false ∧ ∀ sofar,
      Yields speller (loop nextOpenName ⟨sofar, false⟩) ts ⟨(namesOf names).reverse ++ sofar, dots⟩
        us [] := by
  refine h.many_induction (motive := fun ts _ => Lexical ts → ∃ names, ts = names ++ mid ∧
    hasDots names = false ∧ ∀ sofar, Yields speller (loop nextOpenName ⟨sofar, false⟩) ts
      ⟨(namesOf names).reverse ++ sofar, dots⟩ us []) nofun ?_ ?_ hts
  · intro _
    exact ⟨[], rfl, rfl, hend⟩
  · intro ts start is js hmember _ ih hts
    obtain ⟨comma, rest, rfl, hcomma, hname⟩ := means_row_word hmember
    obtain ⟨t, rfl, ht, rfl⟩ := means_ofKind hname
    obtain ⟨names, rfl, hdots, hread⟩ := ih hts.tail.tail
    have hkind : comma.kind ≠ .name := hts.head.kind_ne hcomma (by decide) rfl
    refine ⟨comma :: t :: names, rfl, ?_, fun sofar => ?_⟩
    · have hne : t.text ≠ FunctionTable.variadic := hts.tail.head.text_ne ht rfl (by decide)
      have hne' : comma.text ≠ FunctionTable.variadic := by rw [hcomma]; decide
      simpa [hasDots, hne, hne'] using hdots
    · have hturn : Yields speller (nextOpenName ⟨sofar, false⟩) (comma :: t :: (names ++ mid))
          (.again ⟨t.text :: sofar, false⟩) (names ++ mid) [] := by
        refine Reads.accepted hcomma ?_
        refine Reads.refused (avoids_of_kind hts.tail.head ht rfl (by decide)) ?_
        exact Reads.named ht Reads.pure
      have hmore := hread (t.text :: sofar)
      have hnames : (namesOf (comma :: t :: names)).reverse ++ sofar =
          (namesOf names).reverse ++ t.text :: sofar := by
        simp [namesOf, hkind, ht]
      rw [hnames]
      exact reads_loop.mpr (.inr ⟨_, _, [], [], hturn, hmember.length_lt rfl, hmore, rfl⟩)

theorem complete_openNames {mid : List Token} {dots : Bool}
    (h : Means speller n b (Form.commaList .name) ts mid es) (hts : Lexical ts)
    (hend : ∀ sofar, Yields speller (loop nextOpenName ⟨sofar, false⟩) mid ⟨sofar, dots⟩ us []) :
    ∃ names ns, ts = names ++ mid ∧ hasDots names = false ∧ namesOf names ≠ [] ∧
      Yields speller openNames ts ns us [] ∧ ns.toList = namesOf names ∧ ns.variadic = dots := by
  obtain ⟨t, rest, rfl, ht, hmore⟩ := means_row_kind h
  obtain ⟨names, rfl, hdots, hread⟩ := complete_nextNames hmore hts.tail hend
  have hne : t.text ≠ FunctionTable.variadic := hts.head.text_ne ht rfl (by decide)
  refine ⟨t :: names, ⟨(namesOf names).reverse ++ [t.text], dots⟩, rfl, ?_, ?_, ?_, ?_, rfl⟩
  · simpa [hasDots, hne] using hdots
  · simp [namesOf, ht]
  · exact Reads.named ht (hread [t.text])
  · simp [Names.toList, namesOf, ht]

theorem reads_nextName_done {sofar : List String} (h : Avoids [","] us) :
    Yields speller (loop nextOpenName ⟨sofar, false⟩) us ⟨sofar, false⟩ us [] := by
  refine reads_loop.mpr (.inl ?_)
  exact Reads.refused h Reads.pure

theorem reads_nextName_dots {sofar : List String} {comma dots : Token} (hcomma : comma.text = ",")
    (hdots : dots.text = "...") :
    Yields speller (loop nextOpenName ⟨sofar, false⟩) (comma :: dots :: us) ⟨sofar, true⟩ us [] := by
  refine reads_loop.mpr (.inl ?_)
  refine Reads.accepted hcomma ?_
  exact Reads.accepted hdots Reads.pure

theorem complete_nextNameParts (h : Means speller n b (.many (.row [.word ".", .name])) ts us es)
    (hend : Avoids ["."] us) :
    ∃ parts, ts = parts ++ us ∧ ∀ sofar, Yields speller (loop nextNamePart sofar) ts
      (sofar ++ String.join (parts.map (·.text))) us [] := by
  refine h.many_induction (motive := fun ts _ => ∃ parts, ts = parts ++ us ∧
    ∀ sofar, Yields speller (loop nextNamePart sofar) ts
      (sofar ++ String.join (parts.map (·.text))) us []) nofun ?_ ?_
  · refine ⟨[], rfl, fun sofar => reads_loop.mpr (.inl ?_)⟩
    refine Reads.refused hend (reads_pure.mpr ⟨?_, rfl, rfl⟩)
    simp
  · intro ts mid is js hmember _ ih
    obtain ⟨point, rest, rfl, hpoint, hname⟩ := means_row_word hmember
    obtain ⟨t, rfl, ht, rfl⟩ := means_ofKind hname
    obtain ⟨parts, rfl, hread⟩ := ih
    refine ⟨point :: t :: parts, rfl, fun sofar => ?_⟩
    have hturn : Yields speller (nextNamePart sofar) (point :: t :: (parts ++ us))
        (.again (sofar ++ "." ++ t.text)) (parts ++ us) [] := by
      refine Reads.accepted hpoint ?_
      exact Reads.named ht Reads.pure
    have hjoin : sofar ++ String.join ((point :: t :: parts).map (·.text)) =
        sofar ++ "." ++ t.text ++ String.join (parts.map (·.text)) := by
      simp [hpoint, String.append_assoc]
    rw [hjoin]
    exact reads_loop.mpr (.inr ⟨_, _, [], [], hturn, hmember.length_lt rfl, hread _, rfl⟩)

/-- The name that is read is made of the texts of its tokens. -/
theorem complete_functionName (h : Means speller n b .functionName ts us es)
    (hend : Avoids [".", ":"] us) :
    ∃ path, ts = path ++ us ∧
      Yields speller functionName ts (String.join (path.map (·.text))) us [] := by
  obtain ⟨t, rest, rfl, ht, hrest⟩ := means_row_kind h
  obtain ⟨mid, is, js, hparts, hmethod, -⟩ := means_row hrest rfl
  have hmid : Avoids ["."] mid := by
    rcases means_maybe hmethod with hmethod | ⟨rfl, -⟩
    · obtain ⟨colon, _, rfl, hcolon, -⟩ := means_row_word hmethod
      exact avoids_of_text hcolon (by decide)
    · exact hend.mono (by decide)
  obtain ⟨parts, rfl, hread⟩ := complete_nextNameParts hparts hmid
  have hread := hread t.text
  rcases means_maybe hmethod with hmethod | ⟨rfl, -⟩
  · obtain ⟨colon, _, rfl, hcolon, hname⟩ := means_row_word hmethod
    obtain ⟨m, rfl, hm, -⟩ := means_ofKind hname
    refine ⟨t :: (parts ++ [colon, m]), by simp, ?_⟩
    refine Reads.named ht ?_
    refine hread.andThen_nil ?_
    refine Reads.accepted hcolon ?_
    refine Reads.named hm (reads_pure.mpr ⟨?_, rfl, rfl⟩)
    simp [hcolon, String.append_assoc]
  · refine ⟨t :: parts, rfl, ?_⟩
    refine Reads.named ht ?_
    refine hread.andThen_nil ?_
    refine Reads.refused (hend.mono (by decide)) (reads_pure.mpr ⟨?_, rfl, rfl⟩)
    simp

/-! ## Functions -/

/-- The parses one level further in read what is meant to have their form. An expression
must not be followed by an operator that would go on with it. -/
structure Nested.Complete (speller : Speller) (n : Nat) (inner : Nested) : Prop where
  exp : ∀ {b ts us es}, Lexical ts → Means speller n b .exp ts us es →
    Avoids binaryOperators us → Yields speller inner.exp ts () us es
  chunk : ∀ {closers closed ts mid us es}, Lexical ts → Means speller n closers .chunk ts mid es →
    ClosedBy closers closed mid us → Yields speller (inner.chunk closers) ts closed us es

theorem yields_record_parameters {names : List String} {variadic : Bool}
    (hsome : names ≠ [] ∨ variadic = true) :
    Yields speller (record fun _ => .parameters names variadic) us () us
      (parameterEvents names variadic) := by
  refine reads_record.mpr ⟨rfl, ?_, trivial⟩
  rw [parameterEvents, if_neg]
  simpa [Decidable.imp_iff_not_or] using hsome

/-- Parameters with names: a list of names, with `...` behind the last one or without. -/
theorem complete_parameterNames {inside : List Token} {closing : Token}
    (h : Means speller n b (.row [.commaList .name, .maybe (.row [.word ",", .word "..."])])
      (inside ++ closing :: us) (closing :: us) es)
    (hclosing : closing.text = ")") (hts : Lexical (inside ++ closing :: us)) :
    ∃ ns, Yields speller openNames (inside ++ closing :: us) ns (closing :: us) [] ∧
      ns.toList = namesOf inside ∧ ns.variadic = hasDots inside ∧ namesOf inside ≠ [] := by
  obtain ⟨mid, is, js, hnames, hrest, -⟩ := means_row h rfl
  rcases means_maybe hrest with hdots | ⟨rfl, -⟩
  · obtain ⟨comma, _, rfl, hcomma, hdots⟩ := means_row_word hdots
    obtain ⟨dots, rfl, hdots, -⟩ := means_word hdots
    obtain ⟨names, ns, heq, -, hne, hread, hlist, hvariadic⟩ :=
      complete_openNames hnames hts fun sofar => reads_nextName_dots hcomma hdots
    obtain rfl : inside = names ++ [comma, dots] :=
      List.append_cancel_right (heq.trans (List.append_assoc names [comma, dots] _).symm)
    have hcommaKind : comma.kind ≠ .name :=
      Token.IsLexical.kind_ne (hts comma (by simp)) hcomma (by decide) rfl
    have hdotsKind : dots.kind ≠ .name :=
      Token.IsLexical.kind_ne (hts dots (by simp)) hdots (by decide) rfl
    have hall : namesOf (names ++ [comma, dots]) = namesOf names := by
      simp [namesOf, hcommaKind, hdotsKind]
    have hsome : hasDots (names ++ [comma, dots]) = true := by
      simp [hasDots, hdots, FunctionTable.variadic]
    rw [hall, hsome]
    exact ⟨ns, hread, hlist, hvariadic, hne⟩
  · obtain ⟨names, ns, heq, hnodots, hne, hread, hlist, hvariadic⟩ :=
      complete_openNames hnames hts
        fun sofar => reads_nextName_done (avoids_of_text hclosing (by decide))
    cases List.append_cancel_right heq
    exact ⟨ns, hread, hlist, hvariadic.trans hnodots.symm, hne⟩

theorem complete_parameters {inside : List Token} {closing : Token} (hinside : inside ≠ [])
    (h : Means speller n b .parameters (inside ++ closing :: us) (closing :: us) es)
    (hclosing : closing.text = ")") (hts : Lexical (inside ++ closing :: us)) :
    Yields speller parameters (inside ++ closing :: us) () (closing :: us)
      (parameterEvents (namesOf inside) (hasDots inside)) := by
  rw [parameters_eq]
  rcases means_maybe h with h | ⟨hnone, -⟩
  · rcases means_either h with h | h
    · obtain ⟨dots, heq, hdots, -⟩ := means_word h
      obtain rfl : inside = [dots] :=
        List.append_cancel_right (heq.trans (List.singleton_append).symm)
      have hkind : dots.kind ≠ .name := hts.head.kind_ne hdots (by decide) rfl
      have hnames : namesOf [dots] = [] := by simp [namesOf, hkind]
      have hvariadic : hasDots [dots] = true := by simp [hasDots, hdots, FunctionTable.variadic]
      rw [hnames, hvariadic]
      exact Reads.accepted hdots (yields_record_parameters (.inr rfl))
    · obtain ⟨ns, hread, hlist, hvariadic, hne⟩ := complete_parameterNames h hclosing hts
      refine Reads.refused (h.avoids_first hts rfl) ?_
      rw [← hlist, ← hvariadic]
      exact hread.andThen (yields_record_parameters (.inl (by rwa [hlist])))
  · exact absurd (List.append_left_eq_self.mp hnone.symm) hinside

theorem complete_parentheses {opening closing : Token} {inside : List Token}
    (hopening : opening.text = "(")
    (h : Means speller n b .parameters (inside ++ closing :: us) (closing :: us) es)
    (hclosing : closing.text = ")") (hts : Lexical (inside ++ closing :: us)) :
    Yields speller parentheses (opening :: (inside ++ closing :: us)) () us
      (parameterEvents (namesOf inside) (hasDots inside)) := by
  refine Reads.demandedInHeader hopening ?_
  by_cases hinside : inside = []
  · subst hinside
    refine Reads.accepted hclosing ?_
    exact Reads.pure
  · have hfirst : Avoids [")"] (inside ++ closing :: us) := by
      rcases means_maybe h with h | ⟨hnone, -⟩
      · exact h.avoids_first hts rfl
      · exact absurd (List.append_left_eq_self.mp hnone.symm) hinside
    refine Reads.refused hfirst ?_
    have hread := complete_parameters hinside h hclosing hts
    exact hread.andThen_nil (Reads.demandInHeader hclosing)

section Nested

variable (hi : inner.Complete speller n)

include hi

theorem complete_lastChunk {t : Token} (hts : Lexical ts)
    (h : Means speller n [.endWord] .chunk ts (t :: us) es) (ht : t.text = "end") :
    Yields speller (untilEnd inner) ts () us es := by
  have hclosed : ClosedBy [.endWord] (some .endWord) (t :: us) us :=
    ⟨List.mem_singleton_self _, t, rfl, ht⟩
  exact reads_discard.mpr ⟨_, hi.chunk hts h hclosed⟩

theorem complete_untilEnd (hts : Lexical ts)
    (h : Means speller n b (.row [.chunk, .word "end"]) ts us es) :
    Yields speller (untilEnd inner) ts () us es := by
  obtain ⟨t, hchunk, ht⟩ := means_before_word h
  exact complete_lastChunk hi hts hchunk ht

/-- The name is read by another parse, from the tokens `path`. -/
theorem complete_functionBody (path : List Token) {opening closing : Token}
    {inside mid : List Token} (hopening : opening.text = "(")
    (hinside : Means speller n [] .parameters (inside ++ closing :: mid) (closing :: mid) [])
    (hclosing : closing.text = ")")
    (hbody : Means speller n b (.row [.chunk, .word "end"]) mid us es)
    (hts : Lexical (inside ++ closing :: mid)) :
    Yields speller (functionBody inner (String.join (path.map (·.text))))
      (opening :: (inside ++ closing :: mid)) () us
      (Header.events ⟨path.map (·.text), opening.line, namesOf inside, hasDots inside⟩ ++ es) := by
  have hend := complete_untilEnd hi (hinside.lexical hts).tail hbody
  have hparentheses := complete_parentheses hopening hinside hclosing hts
  rw [Header.events, List.cons_append]
  exact Reads.record_bind trivial (hparentheses.andThen hend)

theorem complete_functionValue (hts : Lexical ts)
    (h : Means speller n b (Form.functionBody .empty) ts us es) :
    Yields speller (functionBody inner "") ts () us es := by
  obtain ⟨mid, is, js, hheader, hbody, rfl⟩ := means_row h rfl
  obtain ⟨path, opening, inside, closing, rfl, hname, hopening, hinside, hclosing, rfl⟩ :=
    means_header hheader
  obtain rfl : path = [] := List.append_left_eq_self.mp (means_empty hname).1.symm
  exact complete_functionBody hi [] hopening hinside hclosing hbody hts.tail

theorem complete_functionStatement (hts : Lexical ts)
    (h : Means speller n b (Form.functionBody .functionName) ts us es) :
    Yields speller (do let path ← functionName; functionBody inner path) ts () us
      es := by
  obtain ⟨mid, is, js, hheader, hbody, rfl⟩ := means_row h rfl
  obtain ⟨path, opening, inside, closing, rfl, hname, hopening, hinside, hclosing, rfl⟩ :=
    means_header hheader
  obtain ⟨path', heq, hread⟩ := complete_functionName hname
    (avoids_of_text hopening (by decide))
  cases List.append_cancel_right heq
  exact hread.andThen
    (complete_functionBody hi path hopening hinside hclosing hbody (hname.lexical hts).tail)

theorem complete_localFunction (hts : Lexical ts)
    (h : Means speller n b (Form.functionBody .name) ts us es) :
    Yields speller (do let functionName ← name; functionBody inner functionName) ts () us
      es := by
  obtain ⟨mid, is, js, hheader, hbody, rfl⟩ := means_row h rfl
  obtain ⟨path, opening, inside, closing, rfl, hname, hopening, hinside, hclosing, rfl⟩ :=
    means_header hheader
  obtain ⟨t, heq, ht, -⟩ := means_ofKind hname
  obtain rfl : path = [t] :=
    List.append_cancel_right (heq.trans (List.singleton_append).symm)
  refine Reads.named ht ?_
  have hread := complete_functionBody hi [t] hopening hinside hclosing hbody hts.tail.tail
  simpa using hread

/-! ## Tables and calls -/

theorem complete_expList (hts : Lexical ts) (h : Means speller n b (Form.commaList .exp) ts us es)
    (hend : Avoids ("," :: binaryOperators) us) :
    Yields speller (expList inner) ts () us es := by
  obtain ⟨mid, is, js, hfirst, hmore, rfl⟩ := means_row h rfl
  obtain ⟨hfollow, hmore⟩ := complete_commas (F := Avoids binaryOperators) hi.exp
    (fun ht => avoids_of_text ht (by decide)) (hend.mono (by decide)) (hend.mono (by decide)) hmore
    (hfirst.lexical hts)
  exact (hi.exp hts hfirst hfollow).andThen hmore

omit hi in
/-- A repetition of what starts with other words does not go on with an equals sign. -/
theorem Means.many_of_equals {equals : Token} {rest : List Token} {f : Form}
    (h : Means speller n b (.many f) (equals :: rest) us es) (hequals : equals.text = "=")
    (hts : Lexical (equals :: rest)) (hf : f ≠ .statementRow)
    (hother : f.startsOutside ["="] = true) : us = equals :: rest := by
  rcases means_many h hf with ⟨rfl, -⟩ | ⟨mid, is, js, hfirst, -⟩
  · rfl
  · have havoid := hfirst.avoids_first hts hother
    exact absurd (List.mem_singleton.mpr hequals) (avoids_cons.mp havoid)

omit hi in
/-- A value that starts with a name has nothing else in front of its indexes and calls. -/
theorem Means.value_of_name {t : Token} (h : Means speller n b .value (t :: ts) us es)
    (ht : t.kind = .name) (hts : Lexical (t :: ts)) :
    ∃ c js, Means speller n c .suffixes ts us js := by
  rcases means_either h with h | h
  · obtain ⟨t', heq, hmem, -⟩ := means_oneOf h
    cases heq
    have havoid : Avoids literals (t :: ts) := avoids_of_kind hts.head ht rfl (by decide)
    exact absurd hmem (avoids_cons.mp havoid)
  rcases means_either h with h | h
  · obtain ⟨t', heq, hkind, -⟩ := means_ofKind h
    cases heq
    cases ht.symm.trans hkind
  rcases means_either h with h | h
  · obtain ⟨t', heq, hkind, -⟩ := means_ofKind h
    cases heq
    cases ht.symm.trans hkind
  rcases means_either h with h | h
  · obtain ⟨t', _, heq, htext, -⟩ := means_row_word h
    cases heq
    exact absurd htext (hts.head.text_ne ht rfl (by decide))
  rcases means_either h with h | h
  · obtain ⟨t', _, heq, htext, -⟩ := means_row_word h
    cases heq
    exact absurd htext (hts.head.text_ne ht rfl (by decide))
  obtain ⟨h, -⟩ := means_whole h
  obtain ⟨after, is, js, hprimary, hsuffixes, -⟩ := means_row h rfl
  rcases means_either hprimary with hname | hparenthesis
  · obtain ⟨t', heq, -, -⟩ := means_ofKind hname
    cases heq
    exact ⟨_, js, hsuffixes⟩
  · obtain ⟨t', _, heq, htext, -⟩ := means_row_word hparenthesis
    cases heq
    exact absurd htext (hts.head.text_ne ht rfl (by decide))

omit hi in
/-- An expression in front of an equals sign ends there. -/
theorem Means.exp_of_equals {t equals : Token} {rest : List Token}
    (h : Means speller n b .exp (t :: equals :: rest) us es) (ht : t.kind = .name)
    (hequals : equals.text = "=") (hts : Lexical (t :: equals :: rest)) :
    us = equals :: rest := by
  cases n with
  | zero => cases h
  | succ n =>
    obtain ⟨mid, is, js, hoperand, hmore, -⟩ := means_row (means_exp h) rfl
    obtain ⟨start, ks, ls, hsigns, hvalue, -⟩ := means_row hoperand rfl
    obtain rfl : start = t :: equals :: rest := by
      rcases means_many hsigns nofun with ⟨rfl, -⟩ | ⟨mid, is, js, hfirst, -⟩
      · rfl
      · have havoid : Avoids unaryOperators (t :: equals :: rest) :=
          avoids_of_kind hts.head ht rfl (by decide)
        obtain ⟨t', heq, hmem, -⟩ := means_oneOf hfirst
        cases heq
        exact absurd hmem (avoids_cons.mp havoid)
    obtain ⟨c, ks, hsuffixes⟩ := hvalue.value_of_name ht hts
    obtain rfl := hsuffixes.many_of_equals hequals hts.tail nofun rfl
    exact hmore.many_of_equals hequals hts.tail nofun rfl

theorem complete_field (hts : Lexical ts) (h : Means speller n b .field ts us es)
    (hend : Avoids ("=" :: binaryOperators) us) :
    Yields speller (field inner) ts () us es := by
  have hend' : Avoids binaryOperators us := hend.mono (by decide)
  rcases means_either h with h | h
  · obtain ⟨opening, rest, rfl, hopening, hinside⟩ := means_row_word h
    obtain ⟨mid, is, js, hkey, hafter, rfl⟩ := means_row hinside rfl
    obtain ⟨closing, rest, rfl, hclosing, hafter⟩ := means_row_word hafter
    obtain ⟨equals, rest, rfl, hequals, hvalue⟩ := means_row_word hafter
    have hrest := (hkey.lexical hts.tail).tail.tail
    refine Reads.accepted hopening ?_
    refine (hi.exp hts.tail hkey (avoids_of_text hclosing (by decide))).andThen ?_
    refine Reads.demanded hclosing ?_
    refine Reads.demanded hequals ?_
    exact hi.exp hrest hvalue hend'
  rcases means_either h with h | h
  · obtain ⟨t, rest, rfl, ht, h⟩ := means_row_kind h
    obtain ⟨equals, rest, rfl, hequals, hvalue⟩ := means_row_word h
    refine Reads.refused (avoids_of_kind hts.head ht rfl (by decide)) ?_
    refine Reads.seen ?_ ?_
    · simp [seesNamedField, next?_ofList_cons, (seesKind_ofList_cons _ _ _).mpr ht, hequals]
    · refine reads_advance_bind.mpr (reads_advance_bind.mpr ?_)
      exact hi.exp hts.tail.tail hvalue hend'
  · have hfirst : Avoids ["["] ts :=
      h.avoids_first hts rfl
    refine Reads.refused hfirst ?_
    refine Reads.unseen ?_ (hi.exp hts h hend')
    rw [← Bool.not_eq_true]
    intro hnamed
    rcases ts with _ | ⟨t, _ | ⟨equals, ts⟩⟩
    · cases hnamed
    · simp [seesNamedField, next?_ofList_cons] at hnamed
    simp only [seesNamedField, next?_ofList_cons, Bool.and_eq_true, seesKind_ofList_cons,
      List.head?_cons, Option.map_some, Option.some.injEq, decide_eq_true_eq] at hnamed
    obtain rfl := h.exp_of_equals hnamed.1 hnamed.2 hts
    exact absurd (by rw [hnamed.2]; exact List.mem_cons_self) (avoids_cons.mp hend)

theorem complete_nextField (hts : Lexical ts)
    (h : Means speller n b (.row [.fieldSeparator, .field]) ts us es)
    (hend : Avoids ("=" :: binaryOperators) us) :
    Yields speller (nextField inner) ts true us es := by
  obtain ⟨separator, rest, rfl, hmem, hfield⟩ := means_row_oneOf h
  have hbrace : Avoids ["\x7d"] rest := hfield.avoids_first hts.tail rfl
  refine Reads.acceptedAny hmem ?_
  refine Reads.unseen (sees_ofList_eq_false hbrace) ?_
  exact (complete_field hi hts.tail hfield hend).andThen_nil Reads.pure

theorem complete_table {t : Token} (hts : Lexical (t :: ts))
    (h : Means speller n b .table (t :: ts) us es) :
    Yields speller (table inner) ts () us es := by
  obtain ⟨t', rest, heq, -, hrest⟩ := means_row_word h
  cases heq
  obtain ⟨closing, hfields, hclosing⟩ := means_before_word hrest
  rcases means_maybe hfields with hfields | ⟨heq, rfl⟩
  · obtain ⟨start, is, js, hfirst, hafter, rfl⟩ := means_row hfields rfl
    obtain ⟨mid, ks, ls, hmore, hlast, rfl⟩ := means_row hafter rfl
    obtain rfl := hlast.eq_nil_of_isFlat rfl
    -- The turn that ends the repetition reads the last separator, if there is one.
    have hclose : Avoids ("=" :: binaryOperators) mid ∧
        Yields speller (nextField inner) mid false (closing :: us) [] := by
      rcases means_maybe hlast with hlast | ⟨rfl, -⟩
      · have hmid := hmore.lexical (hfirst.lexical hts.tail)
        refine ⟨hlast.avoids_first hmid rfl, ?_⟩
        obtain ⟨separator, rfl, hmem, -⟩ := means_oneOf hlast
        refine Reads.acceptedAny hmem ?_
        refine Reads.seen ((sees_ofList_cons _ _ _).mpr hclosing) ?_
        exact Reads.pure
      · refine ⟨avoids_of_text hclosing (by decide), ?_⟩
        refine Reads.refusedAny (avoids_of_text hclosing (by decide)) ?_
        exact Reads.pure
    obtain ⟨hstart, hmany⟩ : Avoids ("=" :: binaryOperators) start ∧
        Yields speller (many (nextField inner)) start () (closing :: us) ks := by
      refine hmore.many_induction (motive := fun ts es => Lexical ts →
        Avoids ("=" :: binaryOperators) ts ∧ Yields speller (many (nextField inner)) ts ()
          (closing :: us) es) nofun ?_ ?_ (hfirst.lexical hts.tail)
      · intro _
        exact ⟨hclose.1, reads_many.mpr (.inl hclose.2)⟩
      · intro ts next is js hmember _ ih hts
        obtain ⟨hnext, hmany⟩ := ih (hmember.lexical hts)
        have hturn := complete_nextField hi hts hmember hnext
        refine ⟨hmember.avoids_first hts rfl, ?_⟩
        exact reads_many.mpr (.inr ⟨next, _, _, hturn, hmember.length_lt rfl, hmany, rfl⟩)
    have hbrace : Avoids ["\x7d"] ts :=
      hfirst.avoids_first hts.tail rfl
    refine Reads.refused hbrace ?_
    rw [List.append_nil]
    refine (complete_field hi hts.tail hfirst hstart).andThen (hmany.andThen_nil ?_)
    exact Reads.demand hclosing
  · subst heq
    refine Reads.accepted hclosing ?_
    exact Reads.pure

theorem complete_index (hts : Lexical ts) (h : Means speller n b .index ts us es) :
    Yields speller (index inner) ts () us es := by
  rcases means_either h with h | h
  · obtain ⟨point, rest, rfl, hpoint, hname⟩ := means_row_word h
    exact Reads.accepted hpoint (complete_discard_name hname)
  · obtain ⟨opening, rest, rfl, hopening, hrest⟩ := means_row_word h
    obtain ⟨closing, hkey, hclosing⟩ := means_before_word hrest
    refine Reads.refused (avoids_of_text hopening (by decide)) ?_
    refine Reads.accepted hopening ?_
    refine (hi.exp hts.tail hkey (avoids_of_text hclosing (by decide))).andThen_nil ?_
    exact Reads.demand hclosing

theorem complete_argumentList (hts : Lexical ts)
    (h : Means speller n b (.row [.maybe (Form.commaList .exp), .word ")"]) ts us es) :
    Yields speller (argumentList inner) ts () us es := by
  obtain ⟨closing, hlist, hclosing⟩ := means_before_word h
  rcases means_maybe hlist with hlist | ⟨rfl, rfl⟩
  · have hfirst : Avoids [")"] ts :=
      hlist.avoids_first hts rfl
    refine Reads.refused hfirst ?_
    refine (complete_expList hi hts hlist (avoids_of_text hclosing (by decide))).andThen_nil ?_
    exact Reads.demand hclosing
  · refine Reads.accepted hclosing ?_
    exact Reads.pure

theorem complete_arguments (hts : Lexical ts) (h : Means speller n b .arguments ts us es) :
    Yields speller (arguments inner) ts () us es := by
  rcases means_either h with h | h
  · obtain ⟨t, rfl, ht, rfl⟩ := means_ofKind h
    exact Reads.acceptedKind ht Reads.pure
  rcases means_either h with h | h
  · obtain ⟨opening, rest, rfl, hopening, hrest⟩ := means_row_word h
    have hkind : AvoidsKind .string (opening :: rest) :=
      avoidsKind_of_text hts.head hopening (by decide) rfl
    refine Reads.refusedKind hkind ?_
    refine Reads.accepted hopening ?_
    exact complete_argumentList hi hts.tail hrest
  · obtain ⟨opening, rest, rfl, hopening, -⟩ := means_row_word h
    have hkind : AvoidsKind .string (opening :: rest) :=
      avoidsKind_of_text hts.head hopening (by decide) rfl
    refine Reads.refusedKind hkind ?_
    refine Reads.refused (avoids_of_text hopening (by decide)) ?_
    exact Reads.accepted hopening (complete_table hi hts h)

omit hi in
theorem complete_method? (h : Means speller n b (.maybe (.row [.word ":", .name])) ts us es)
    (hend : Avoids [":"] us) : Yields speller method? ts () us es := by
  rcases means_maybe h with h | ⟨rfl, rfl⟩
  · obtain ⟨colon, rest, rfl, hcolon, hname⟩ := means_row_word h
    exact Reads.accepted hcolon (complete_discard_name hname)
  · exact Reads.refused hend Reads.pure

theorem complete_call (hts : Lexical ts) (h : Means speller n b .call ts us es) :
    Yields speller (call inner) ts () us es := by
  obtain ⟨mid, is, js, hmethod, harguments, rfl⟩ := means_row h rfl
  have hmid := hmethod.lexical hts
  have hread := complete_method? hmethod (harguments.avoids_first hmid rfl)
  exact hread.andThen (complete_arguments hi hmid harguments)

/-! ## Variables and calls -/

omit hi in
theorem Means.index_head (h : Means speller n b .index ts us es) :
    ∃ t rest, ts = t :: rest ∧ t.text ∈ indexStarts := by
  rcases means_either h with h | h
  · obtain ⟨t, rest, rfl, ht, -⟩ := means_row_word h
    exact ⟨t, rest, rfl, by rw [ht]; decide⟩
  · obtain ⟨t, rest, rfl, ht, -⟩ := means_row_word h
    exact ⟨t, rest, rfl, by rw [ht]; decide⟩

omit hi in
theorem Means.call_head (h : Means speller n b .call ts us es) :
    ∃ t rest, ts = t :: rest ∧ (t.text ∈ callStarts ∨ t.kind = .string) := by
  obtain ⟨mid, is, js, hmethod, harguments, -⟩ := means_row h rfl
  rcases means_maybe hmethod with hmethod | ⟨rfl, -⟩
  · obtain ⟨t, rest, rfl, ht, -⟩ := means_row_word hmethod
    exact ⟨t, rest, rfl, .inl (by rw [ht]; decide)⟩
  rcases means_either harguments with h | h
  · obtain ⟨t, rfl, ht, -⟩ := means_ofKind h
    exact ⟨t, us, rfl, .inr ht⟩
  rcases means_either h with h | h
  · obtain ⟨t, rest, rfl, ht, -⟩ := means_row_word h
    exact ⟨t, rest, rfl, .inl (by rw [ht]; decide)⟩
  · obtain ⟨t, rest, rfl, ht, -⟩ := means_row_word h
    exact ⟨t, rest, rfl, .inl (by rw [ht]; decide)⟩

omit hi in
theorem Means.startsSuffix (h : Means speller n b (.either .index .call) ts us es) :
    startsSuffix ts.head? = true := by
  rcases means_either h with h | h
  · obtain ⟨t, rest, rfl, ht⟩ := h.index_head
    simp [Grammar.startsSuffix, ht]
  · obtain ⟨t, rest, rfl, ht | ht⟩ := h.call_head
    · simp [Grammar.startsSuffix, ht]
    · simp [Grammar.startsSuffix, ht]

theorem complete_nextSuffix_index (hts : Lexical ts) (h : Means speller n b .index ts us es)
    (indexed : Bool) :
    Yields speller (nextSuffix inner indexed) ts (.again true) us es := by
  obtain ⟨t, rest, rfl, ht⟩ := h.index_head
  refine Reads.seen ((seesAny_ofList_cons _ _ _).mpr ht) ?_
  exact (complete_index hi hts h).andThen_nil Reads.pure

theorem complete_nextSuffix_call (hts : Lexical ts) (h : Means speller n b .call ts us es)
    (indexed : Bool) :
    Yields speller (nextSuffix inner indexed) ts (.again false) us es := by
  obtain ⟨t, rest, rfl, ht⟩ := h.call_head
  have hindex : Avoids indexStarts (t :: rest) :=
    h.avoids_first hts rfl
  refine Reads.unseen (seesAny_ofList_eq_false hindex) ?_
  refine Reads.seen ?_ ?_
  · rw [Bool.or_eq_true]
    exact ht.imp (seesAny_ofList_cons _ _ _).mpr (seesKind_ofList_cons _ _ _).mpr
  · exact (complete_call hi hts h).andThen_nil Reads.pure

theorem complete_nextSuffix (hts : Lexical ts)
    (h : Means speller n b (.either .index .call) ts us es) (indexed : Bool) :
    ∃ indexed', Yields speller (nextSuffix inner indexed) ts (.again indexed') us es := by
  rcases means_either h with hindex | hcall
  · exact ⟨true, complete_nextSuffix_index hi hts hindex indexed⟩
  · exact ⟨false, complete_nextSuffix_call hi hts hcall indexed⟩

/-- Indexes and calls are read one by one. `P` tells of the value in the end, which may
depend on how the reading starts only if there are none. -/
theorem complete_suffixes {mid : List Token} {fs : List Event} {P : Bool → Prop}
    (h : Means speller n b .suffixes ts mid es) (hts : Lexical ts)
    (hend : ∀ indexed, ∃ assignable, P assignable ∧
      Yields speller (loop (nextSuffix inner) indexed) mid assignable us fs) (indexed : Bool) :
    ∃ assignable, P assignable ∧
      Yields speller (loop (nextSuffix inner) indexed) ts assignable us (es ++ fs) := by
  refine h.many_induction (motive := fun ts es => Lexical ts → ∀ indexed, ∃ assignable,
    P assignable ∧ Yields speller (loop (nextSuffix inner) indexed) ts assignable us
      (es ++ fs)) nofun ?_ ?_ hts indexed
  · intro _
    exact hend
  · intro ts rest is js hmember _ ih hts indexed
    have hlt := hmember.length_lt rfl
    obtain ⟨indexed', hturn⟩ := complete_nextSuffix hi hts hmember indexed
    obtain ⟨assignable, hP, hmore⟩ := ih (hmember.lexical hts) indexed'
    rw [List.append_assoc]
    exact ⟨assignable, hP, reads_loop.mpr (.inr ⟨_, rest, _, _, hturn, hlt, hmore, rfl⟩)⟩

omit hi in
theorem complete_noSuffix (hend : startsSuffix us.head? = false) (indexed : Bool) :
    Yields speller (loop (nextSuffix inner) indexed) us indexed us [] := by
  have hnone : (Cursor.ofList us).seesAny indexStarts = false ∧
      ((Cursor.ofList us).seesAny callStarts || (Cursor.ofList us).seesKind .string) = false := by
    cases us with
    | nil => exact ⟨rfl, rfl⟩
    | cons t us =>
      simp only [List.head?_cons, startsSuffix, Bool.or_eq_false_iff] at hend
      obtain ⟨⟨hstring, hindex⟩, hcall⟩ := hend
      simp_all [Cursor.seesAny, Cursor.seesKind, Cursor.text?, Cursor.kind?, Cursor.current?,
        Cursor.ofList]
  refine reads_loop.mpr (.inl ?_)
  refine Reads.unseen hnone.1 ?_
  exact Reads.unseen hnone.2 Reads.pure

theorem complete_lastSuffix (assignable : Bool) (hts : Lexical ts)
    (h : Means speller n b (if assignable then .index else .call) ts us es)
    (hend : startsSuffix us.head? = false) (indexed : Bool) :
    Yields speller (loop (nextSuffix inner) indexed) ts assignable us es := by
  have hdone : Yields speller (loop (nextSuffix inner) assignable) us assignable us [] :=
    complete_noSuffix hend assignable
  cases assignable with
  | true =>
    have hturn := complete_nextSuffix_index hi hts h indexed
    exact reads_loop.mpr (.inr ⟨_, us, _, _, hturn, h.length_lt rfl, hdone, by simp⟩)
  | false =>
    have hturn := complete_nextSuffix_call hi hts h indexed
    exact reads_loop.mpr (.inr ⟨_, us, _, _, hturn, h.length_lt rfl, hdone, by simp⟩)

theorem complete_primary (hts : Lexical ts) (h : Means speller n b .primary ts us es) :
    Yields speller (primary inner) ts () us es := by
  rcases means_either h with hname | h
  · obtain ⟨t, rfl, ht, rfl⟩ := means_ofKind hname
    refine Reads.refused (avoids_of_kind hts.head ht rfl (by decide)) ?_
    exact complete_discard_name hname
  · obtain ⟨opening, rest, rfl, hopening, hrest⟩ := means_row_word h
    obtain ⟨closing, hexp, hclosing⟩ := means_before_word hrest
    refine Reads.accepted hopening ?_
    refine (hi.exp hts.tail hexp (avoids_of_text hclosing (by decide))).andThen_nil ?_
    exact Reads.demand hclosing

omit hi in
theorem complete_suffixedHead {es : List Event} {assignable : Bool}
    (h : Yields speller (loop (nextSuffix inner) false) ts assignable us es) :
    Yields speller (suffixedHead inner) ts (if assignable then .variable else .other) us es :=
  h.andThen_nil Reads.pure

/-- In front of an index or a call, something that can take them is read up to there. -/
theorem head_eq_suffixedHead {position : Position} (hts : Lexical ts)
    (hprimary : Means speller n b .primary ts us es) (hsuffix : startsSuffix us.head? = true) :
    head inner position speller (.ofList ts) = (suffixedHead inner speller (.ofList us)).behind es := by
  have hread := complete_primary hi hts hprimary
  rcases means_either hprimary with hname | hparenthesis
  · obtain ⟨t, rfl, ht, -⟩ := means_ofKind hname
    have htarget : seesTarget (.ofList (t :: us)) = false := by
      rw [← Bool.not_eq_true]
      intro htarget
      cases hsuffix.symm.trans (startsSuffix_of_seesTarget hts.tail htarget)
    have hnext : startsSuffix (Cursor.ofList (t :: us)).next? = true := by
      rw [next?_ofList_cons, hsuffix]
    calc head inner position speller (.ofList (t :: us))
        = namedHead inner position speller (.ofList (t :: us)) :=
          eq_of_seen ((seesKind_ofList_cons _ _ _).mpr ht)
      _ = (do primary inner; suffixedHead inner : Parse Head) speller (.ofList (t :: us)) :=
          (eq_of_unseen htarget).trans (eq_of_seen hnext)
      _ = (suffixedHead inner speller (.ofList us)).behind es := hread.bind_eq
  · obtain ⟨opening, rest, rfl, hopening, -⟩ := means_row_word hparenthesis
    have hkind : AvoidsKind .name (opening :: rest) :=
      avoidsKind_of_text hts.head hopening (by decide) rfl
    calc head inner position speller (.ofList (opening :: rest))
        = parenthesizedHead inner position speller (.ofList (opening :: rest)) :=
          (eq_of_unseen (seesKind_ofList_eq_false hkind)).trans
            (eq_of_seen ((sees_ofList_cons _ _ _).mpr hopening))
      _ = _ := hread.bind_eq
      _ = (suffixedHead inner speller (.ofList us)).behind es :=
          congrArg (Step.behind es) (eq_of_seen hsuffix)

theorem complete_head_suffixed {position : Position} {mid : List Token} {fs : List Event}
    {assignable : Bool} (hts : Lexical ts) (hprimary : Means speller n b .primary ts mid es)
    (hsuffix : startsSuffix mid.head? = true)
    (h : Yields speller (loop (nextSuffix inner) false) mid assignable us fs) :
    Yields speller (head inner position) ts (if assignable then .variable else .other) us
      (es ++ fs) := by
  refine ⟨?_, fun _ _ => trivial⟩
  rw [head_eq_suffixedHead hi hts hprimary hsuffix, (complete_suffixedHead h).eq]
  rfl

omit hi in
theorem Means.suffixes_none (h : Means speller n b .suffixes ts us es)
    (hnone : Grammar.startsSuffix ts.head? = false) : us = ts ∧ es = [] := by
  rcases means_many h nofun with h | ⟨mid, is, js, hfirst, -⟩
  · exact h
  · cases hnone.symm.trans hfirst.startsSuffix

theorem complete_head_operand (hts : Lexical ts)
    (h : Means speller n b (.whole .prefixExp) ts us es) :
    ∃ l, Yields speller (head inner .operand) ts l us es := by
  obtain ⟨hwhole, hend⟩ := means_whole h
  obtain ⟨mid, is, js, hprimary, hsuffixes, rfl⟩ := means_row hwhole rfl
  cases hsuffix : startsSuffix mid.head? with
  | true =>
    obtain ⟨assignable, -, hread⟩ := complete_suffixes (P := fun _ => True) hi hsuffixes
      (hprimary.lexical hts) (fun indexed => ⟨indexed, trivial, complete_noSuffix hend indexed⟩)
      false
    rw [List.append_nil] at hread
    exact ⟨_, complete_head_suffixed hi hts hprimary hsuffix hread⟩
  | false =>
    obtain ⟨rfl, rfl⟩ := hsuffixes.suffixes_none hsuffix
    rw [List.append_nil]
    rcases means_either hprimary with hname | hparenthesis
    · obtain ⟨t, rfl, ht, rfl⟩ := means_ofKind hname
      have hnext : startsSuffix (Cursor.ofList (t :: us)).next? = false := by
        rw [next?_ofList_cons, hsuffix]
      by_cases htarget : seesTarget (.ofList (t :: us)) = true
      · refine ⟨.variable, Reads.seen ((seesKind_ofList_cons _ _ _).mpr ht) ?_⟩
        refine Reads.seen htarget ?_
        exact reads_advance_bind.mpr Reads.pure
      · refine ⟨.other, Reads.seen ((seesKind_ofList_cons _ _ _).mpr ht) ?_⟩
        refine Reads.unseen (Bool.eq_false_iff.mpr htarget) ?_
        refine Reads.unseen hnext ?_
        exact reads_advance_bind.mpr Reads.pure
    · obtain ⟨opening, rest, rfl, hopening, -⟩ := means_row_word hparenthesis
      have hkind : AvoidsKind .name (opening :: rest) :=
        avoidsKind_of_text hts.head hopening (by decide) rfl
      refine ⟨.other, Reads.unseen (seesKind_ofList_eq_false hkind) ?_⟩
      refine Reads.seen ((sees_ofList_cons _ _ _).mpr hopening) ?_
      refine (complete_primary hi hts hprimary).andThen_nil ?_
      exact Reads.unseen hsuffix Reads.pure

/-- A variable or a call that ends with an index or with a call, according to what it is. -/
theorem complete_head_last {position : Position} (assignable : Bool) (hts : Lexical ts)
    (h : Means speller n b (.row [.primary, .suffixes, if assignable then .index else .call]) ts us
      es)
    (hend : startsSuffix us.head? = false) :
    Yields speller (head inner position) ts (if assignable then .variable else .other) us
      es := by
  obtain ⟨start, is, js, hprimary, hrest, rfl⟩ := means_row h rfl
  obtain ⟨mid, ks, ls, hsuffixes, hlast, rfl⟩ := means_row hrest (by cases assignable <;> rfl)
  have hstart := hprimary.lexical hts
  have hmid := hsuffixes.lexical hstart
  obtain ⟨found, hfound, hread⟩ := complete_suffixes (P := (· = assignable)) hi hsuffixes hstart
    (fun indexed => ⟨assignable, rfl, complete_lastSuffix hi assignable hmid hlast hend indexed⟩)
    false
  rw [hfound] at hread
  have heither : Means speller n b (.either .index .call) mid us ls := by
    cases assignable with
    | true => exact .left hlast
    | false => exact .right hlast
  have hsuffix : startsSuffix start.head? = true := by
    rcases means_many hsuffixes nofun with ⟨rfl, -⟩ | ⟨_, _, _, hfirst, -⟩
    · exact heither.startsSuffix
    · exact hfirst.startsSuffix
  exact complete_head_suffixed hi hts hprimary hsuffix hread

theorem complete_head_functionCall {closers : List Closer} (hts : Lexical ts)
    (h : Means speller n b (.whole .functionCall) ts us es) :
    Yields speller (head inner (.statement closers)) ts .other us es := by
  obtain ⟨hcall, hend⟩ := means_whole h
  exact complete_head_last hi false hts hcall hend

/-- Whether a comma or an equals sign comes next, as behind a target of an assignment. -/
def TargetEnds (ts : List Token) : Prop :=
  ∃ t rest, ts = t :: rest ∧ (t.text = "," ∨ t.text = "=")

theorem complete_head_var {closers : List Closer} (hts : Lexical ts)
    (h : Means speller n b (.whole .var) ts us es) (htarget : TargetEnds us) :
    Yields speller (head inner (.statement closers)) ts .variable us es := by
  obtain ⟨hvar, hend⟩ := means_whole h
  rcases means_either hvar with hname | hlast
  · obtain ⟨t, rfl, ht, rfl⟩ := means_ofKind hname
    refine Reads.seen ((seesKind_ofList_cons _ _ _).mpr ht) ?_
    refine Reads.seen ((seesTarget_ofList_cons _ _).mpr htarget) ?_
    exact reads_advance_bind.mpr Reads.pure
  · exact complete_head_last hi true hts hlast hend

/-! ## Operands and operators -/

omit hi in
/-- What starts with a name or a parenthesis is no number and no string. -/
theorem Means.primary_avoidsKind {kind : Kind} (h : Means speller n b .primary ts us es)
    (hts : Lexical ts) (hname : kind ≠ .name) (hfree : kind.isFree = true) :
    AvoidsKind kind ts := by
  rcases means_either h with h | h
  · obtain ⟨t, rfl, ht, -⟩ := means_ofKind h
    exact avoidsKind_of_kind ht hname.symm
  · obtain ⟨t, rest, rfl, ht, -⟩ := means_row_word h
    exact avoidsKind_of_text hts.head ht (by decide) hfree

theorem complete_operand (hts : Lexical ts) (h : Means speller n b .value ts us es) :
    Yields speller (operand inner) ts () us es := by
  rw [operand_eq]
  rcases means_either h with h | h
  · obtain ⟨t, rfl, ht, rfl⟩ := means_oneOf h
    exact Reads.acceptedAny ht Reads.pure
  rcases means_either h with h | h
  · obtain ⟨t, rfl, ht, rfl⟩ := means_ofKind h
    refine Reads.refusedAny (avoids_of_kind hts.head ht rfl (by decide)) ?_
    exact Reads.acceptedKind ht Reads.pure
  rcases means_either h with h | h
  · obtain ⟨t, rfl, ht, rfl⟩ := means_ofKind h
    refine Reads.refusedAny (avoids_of_kind hts.head ht rfl (by decide)) ?_
    refine Reads.refusedKind (avoidsKind_of_kind ht (by decide)) ?_
    exact Reads.acceptedKind ht Reads.pure
  rcases means_either h with h | h
  · obtain ⟨t, rest, rfl, ht, hbody⟩ := means_row_word h
    refine Reads.refusedAny (avoids_of_text ht (by decide)) ?_
    refine Reads.refusedKind (avoidsKind_of_text hts.head ht (by decide) rfl) ?_
    refine Reads.refusedKind (avoidsKind_of_text hts.head ht (by decide) rfl) ?_
    refine Reads.accepted ht ?_
    exact complete_functionValue hi hts.tail hbody
  rcases means_either h with h | h
  · obtain ⟨t, rest, rfl, ht, -⟩ := means_row_word h
    refine Reads.refusedAny (avoids_of_text ht (by decide)) ?_
    refine Reads.refusedKind (avoidsKind_of_text hts.head ht (by decide) rfl) ?_
    refine Reads.refusedKind (avoidsKind_of_text hts.head ht (by decide) rfl) ?_
    refine Reads.refused (avoids_of_text ht (by decide)) ?_
    exact Reads.accepted ht (complete_table hi hts h)
  · obtain ⟨l, hread⟩ := complete_head_operand hi hts h
    obtain ⟨mid, is, js, hprimary, -⟩ := means_row (means_whole h).1 rfl
    refine Reads.refusedAny (h.avoids_first hts rfl) ?_
    refine Reads.refusedKind (hprimary.primary_avoidsKind hts nofun rfl) ?_
    refine Reads.refusedKind (hprimary.primary_avoidsKind hts nofun rfl) ?_
    refine Reads.refused (h.avoids_first hts rfl) ?_
    refine Reads.refused (h.avoids_first hts rfl) ?_
    exact reads_discard.mpr ⟨l, hread⟩

omit hi in
theorem complete_signs (h : Means speller n b (.many (.oneOf unaryOperators)) ts us es)
    (hend : Avoids unaryOperators us) :
    Yields speller (many (acceptAny unaryOperators)) ts () us [] := by
  refine h.many_induction (motive := fun ts _ =>
    Yields speller (many (acceptAny unaryOperators)) ts () us []) nofun ?_ ?_
  · exact reads_many.mpr (.inl (reads_acceptAny.mpr (.inr ⟨hend, rfl, rfl, rfl⟩)))
  · intro ts next is js hsign _ ih
    obtain ⟨t, rfl, ht, -⟩ := means_oneOf hsign
    have hturn : Yields speller (acceptAny unaryOperators) (t :: next) true next [] :=
      reads_acceptAny.mpr (.inl ⟨t, rfl, ht, rfl, rfl⟩)
    exact reads_many.mpr (.inr ⟨next, [], [], hturn, hsign.length_lt rfl, ih, rfl⟩)

/-- An operand with its signs, up to the binary operator behind it, if there is one. -/
theorem complete_operandStep {mid : List Token} {more : Bool} (hts : Lexical ts)
    (h : Means speller n b .operand ts mid es)
    (hmore : Yields speller (acceptAny binaryOperators) mid more us []) :
    Yields speller (operandStep inner) ts more us es := by
  obtain ⟨start, is, js, hsigns, hvalue, rfl⟩ := means_row h rfl
  obtain rfl := hsigns.eq_nil_of_isFlat rfl
  have hstart := hsigns.lexical hts
  have hread := complete_signs hsigns (hvalue.avoids_first hstart rfl)
  rw [List.nil_append]
  exact hread.andThen ((complete_operand hi hstart hvalue).andThen_nil hmore)

theorem complete_operandChain (hts : Lexical ts) (h : Means speller n b .operands ts us es)
    (hend : Avoids binaryOperators us) :
    Yields speller (operandChain inner) ts () us es := by
  obtain ⟨mid, is, js, hfirst, hmore, rfl⟩ := means_row h rfl
  -- The operators are read by the turns of the operands in front of them.
  refine hmore.many_induction (motive := fun mid js => ∀ ts is, Lexical ts →
    Means speller n b .operand ts mid is →
    Yields speller (operandChain inner) ts () us (is ++ js)) nofun ?_ ?_ ts is hts hfirst
  · intro ts is hts hoperand
    rw [List.append_nil]
    refine reads_many.mpr (.inl (complete_operandStep hi hts hoperand ?_))
    exact reads_acceptAny.mpr (.inr ⟨hend, rfl, rfl, rfl⟩)
  · intro mid next js ks hmember _ ih ts is hts hoperand
    obtain ⟨t, rest, rfl, ht, hnext⟩ := means_row_oneOf hmember
    have hturn := complete_operandStep hi hts hoperand
      (reads_acceptAny.mpr (.inl ⟨t, rfl, ht, rfl, rfl⟩))
    have hlt := hoperand.length_lt rfl
    refine reads_many.mpr (.inr ⟨rest, _, _, hturn, Nat.lt_of_succ_lt hlt, ?_, rfl⟩)
    exact ih rest js (hoperand.lexical hts).tail hnext

/-! ## Statements -/

theorem complete_target (hts : Lexical ts) (h : Means speller n b (.whole .var) ts us es)
    (htarget : TargetEnds us) : Yields speller (target inner) ts () us es :=
  target_eq ▸ (complete_head_var hi hts h htarget).andThen_nil Reads.pure

theorem complete_assignment {closers : List Closer} (hts : Lexical ts)
    (h : Means speller n b .assignment ts us es) (hend : Avoids ("," :: binaryOperators) us) :
    Yields speller (statementOrCloser inner closers) ts none us es := by
  obtain ⟨mid, is, js, htargets, hrest, rfl⟩ := means_row h rfl
  obtain ⟨start, ks, ls, hfirst, hmore, rfl⟩ := means_row htargets rfl
  obtain ⟨equals, rest, rfl, hequals, hlist⟩ := means_row_word hrest
  have hstart := hfirst.lexical hts
  have hmid := hmore.lexical hstart
  obtain ⟨hfollow, hmany⟩ := complete_commas (F := TargetEnds) (complete_target hi)
    (fun ht => ⟨_, _, rfl, .inl ht⟩) ⟨equals, rest, rfl, .inr hequals⟩
    (avoids_of_text hequals (by decide)) hmore hstart
  have hread : Yields speller (assignment inner) start () us (ls ++ js) := by
    refine hmany.andThen (Reads.accepted hequals ?_)
    exact complete_expList hi hmid.tail hlist hend
  refine reads_acceptOpener_bind.mpr (.inr ⟨h.avoids_first hts rfl, ?_⟩)
  rw [List.append_assoc]
  refine (complete_head_var hi hts hfirst hfollow).andThen (hread.andThen_nil ?_)
  exact Reads.pure

theorem complete_functionCall {closers : List Closer} (hts : Lexical ts)
    (h : Means speller n b (.whole .functionCall) ts us es) :
    Yields speller (statementOrCloser inner closers) ts none us es := by
  refine reads_acceptOpener_bind.mpr (.inr ⟨h.avoids_first hts rfl, ?_⟩)
  exact (complete_head_functionCall hi hts h).andThen_nil Reads.pure

omit hi in
theorem reads_nextBranch_done {word : Closer} (hne : word ≠ .elseifWord) :
    Yields speller (loop (nextBranch inner) (some word)) ts (some word) ts [] := by
  refine reads_loop.mpr (.inl ?_)
  rw [nextBranch, if_neg (by simpa using hne)]
  exact Reads.pure

theorem complete_nextBranch {word : Closer} {t : Token} (hts : Lexical ts)
    (h : Means speller n Closer.branch (.row [.exp, .word "then", .chunk]) ts (t :: us) es)
    (hword : word ∈ Closer.branch) (ht : t.text = word.text) :
    Yields speller (nextBranch inner (some .elseifWord)) ts (.again (some word)) us es := by
  obtain ⟨_, thenWord, start, is, js, ks, hexp, hthen, hchunk, rfl⟩ :=
    means_separated .elseifThen h
  have hmid := hexp.lexical hts
  have hclosed : ClosedBy Closer.branch (some word) (t :: us) us := ⟨hword, t, rfl, ht⟩
  rw [nextBranch, if_pos rfl]
  refine (hi.exp hts hexp (hthen.avoids hmid.head (by decide) (by decide))).andThen ?_
  refine (hthen.yields hmid.head).andThen ?_
  exact (hi.chunk hmid.tail hchunk hclosed).andThen_nil Reads.pure

/-- What comes behind a branch of an `if` statement starts with a word that closes the
branch. -/
theorem complete_branches (hts : Lexical ts)
    (h : Means speller n b (.row [.many (.row [.word "elseif", .exp, .word "then", .chunk]),
      .maybe (.row [.word "else", .chunk]), .word "end"]) ts us es) :
    ∃ word ∈ Closer.branch, ∃ t rest, ts = t :: rest ∧ t.text = word.text ∧
      Yields speller (do
        let last ← loop (nextBranch inner) (some word)
        if last = some .elseWord then untilEnd inner else pure ()) rest () us
        es := by
  obtain ⟨mid, is, js, hmany, hlast, rfl⟩ := means_row h rfl
  refine hmany.many_induction (motive := fun ts is => Lexical ts →
    ∃ word ∈ Closer.branch, ∃ t rest, ts = t :: rest ∧ t.text = word.text ∧
      Yields speller (do
        let last ← loop (nextBranch inner) (some word)
        if last = some .elseWord then untilEnd inner else pure ()) rest () us
        (is ++ js)) nofun ?_ ?_ hts
  · intro hmid
    obtain ⟨endWord, hmaybe, hend⟩ := means_before_word hlast
    rcases means_maybe hmaybe with helse | ⟨rfl, rfl⟩
    · obtain ⟨t, rest, rfl, ht, hchunk⟩ := means_row_word helse
      refine ⟨.elseWord, by decide, t, rest, rfl, ht, ?_⟩
      have hread := complete_lastChunk hi hmid.tail hchunk hend
      exact (reads_nextBranch_done (by decide)).andThen hread
    · refine ⟨.endWord, by decide, endWord, us, rfl, hend, ?_⟩
      exact (reads_nextBranch_done (by decide)).andThen Reads.pure
  · intro ts next is ks hmember _ ih hts
    have hlt := hmember.length_lt rfl
    obtain ⟨word, hword, t', rest', rfl, ht', hrest⟩ := ih (hmember.lexical hts)
    obtain ⟨last, mid', es, fs, hloop, hfinal, heq⟩ := reads_bind.mp hrest
    obtain ⟨t, rest, rfl, ht, hbranch⟩ := means_row_word hmember
    have hturn := complete_nextBranch hi hts.tail hbranch hword ht'
    refine ⟨.elseifWord, by decide, t, rest, rfl, ht, ?_⟩
    rw [List.append_assoc, heq, ← List.append_assoc]
    refine Reads.andThen (reads_loop.mpr (.inr ⟨_, rest', _, es, hturn, ?_, hloop, rfl⟩)) hfinal
    simp only [List.length_cons] at hlt
    omega

theorem complete_ifStatement {t : Token} (hts : Lexical (t :: ts))
    (h : Means speller n b .ifStatement (t :: ts) us es) :
    Yields speller (ifStatement inner) ts () us es := by
  obtain ⟨t', rest, heq, -, hrest⟩ := means_row_word h
  cases heq
  obtain ⟨_, thenWord, start, is, js, ks, hexp, hthen, hbranches, rfl⟩ :=
    means_separated .ifThen hrest
  obtain ⟨mid, ls, ms, hchunk, hafter, rfl⟩ := means_row hbranches rfl
  have hmid := hexp.lexical hts.tail
  obtain ⟨word, hword, t', rest', rfl, ht', hread⟩ :=
    complete_branches hi (hchunk.lexical hmid.tail) hafter
  have hclosed : ClosedBy Closer.branch (some word) (t' :: rest') rest' := ⟨hword, t', rfl, ht'⟩
  refine (hi.exp hts.tail hexp (hthen.avoids hmid.head (by decide) (by decide))).andThen ?_
  refine (hthen.yields hmid.head).andThen ?_
  exact (hi.chunk hmid.tail hchunk hclosed).andThen hread

theorem complete_whileStatement (hts : Lexical ts)
    (h : Means speller n b (.row [.exp, .word "do", .chunk, .word "end"]) ts us es) :
    Yields speller (opened inner .whileWord) ts () us es := by
  obtain ⟨_, doWord, start, is, js, ks, hexp, hdo, hbody, rfl⟩ := means_separated .whileDo h
  have hmid := hexp.lexical hts
  refine (hi.exp hts hexp (hdo.avoids hmid.head (by decide) (by decide))).andThen ?_
  refine (hdo.yields hmid.head).andThen ?_
  exact complete_untilEnd hi hmid.tail hbody

theorem complete_forBody {t : Token} {is : List Event} (hts : Lexical (t :: ts))
    (hdo : ReadAs speller .forDo t is)
    (h : Means speller n b (.row [.chunk, .word "end"]) ts us es) :
    Yields speller (do demand "do" .forLoop; untilEnd inner) (t :: ts) () us (is ++ es) :=
  (hdo.yields hts.head).andThen (complete_untilEnd hi hts.tail h)

theorem complete_numericRange (hts : Lexical ts)
    (h : Means speller n b (.row [.exp, .word ",", .exp, .maybe (.row [.word ",", .exp])]) ts us es)
    (hend : Avoids ("," :: binaryOperators) us) :
    Yields speller (numericRange inner) ts () us es := by
  obtain ⟨mid, is, js, hfrom, hafter, rfl⟩ := means_row h rfl
  obtain ⟨comma, start, rfl, hcomma, hrest⟩ := means_row_word hafter
  obtain ⟨mid', ks, ls, hto, hstep, rfl⟩ := means_row hrest rfl
  have hstart := (hfrom.lexical hts).tail
  refine (hi.exp hts hfrom (avoids_of_text hcomma (by decide))).andThen ?_
  refine Reads.demanded hcomma ?_
  rcases means_maybe hstep with hstep | ⟨rfl, rfl⟩
  · obtain ⟨comma', rest, rfl, hcomma', hexp⟩ := means_row_word hstep
    refine (hi.exp hstart hto (avoids_of_text hcomma' (by decide))).andThen ?_
    refine Reads.accepted hcomma' ?_
    exact hi.exp (hto.lexical hstart).tail hexp (hend.mono (by decide))
  · refine (hi.exp hstart hto (hend.mono (by decide))).andThen ?_
    refine Reads.refused (hend.mono (by decide)) ?_
    exact Reads.pure

/-- The range of a generic `for` statement, behind its first name. -/
theorem complete_genericRange {c : List Closer} {t : Token} {mid : List Token}
    {is js : List Event} (hts : Lexical ts)
    (hnames : Means speller n c (.many (.row [.word ",", .name])) ts (t :: mid) is)
    (hin : ReadAs speller .forIn t js) (h : Means speller n b (Form.commaList .exp) mid us es)
    (hend : Avoids ("," :: binaryOperators) us) :
    Yields speller (genericRange inner) ts () us (is ++ (js ++ es)) := by
  have hmid := hnames.lexical hts
  obtain ⟨-, hmany⟩ := complete_commas (F := fun _ => True)
    (fun _ h _ => complete_discard_name h) (fun _ => trivial) trivial
    (hin.avoids hmid.head (by decide) (by decide)) hnames hts
  exact hmany.andThen ((hin.yields hmid.head).andThen (complete_expList hi hmid.tail h hend))

theorem complete_forStatement {t : Token} (hts : Lexical (t :: ts))
    (h : Means speller n b .forStatement (t :: ts) us es) :
    Yields speller (forStatement inner) ts () us es := by
  obtain ⟨t', rest, heq, -, hrest⟩ := means_row_word h
  cases heq
  obtain ⟨_, doWord, mid, is, js, ks, hrange, hdo, hbody, rfl⟩ := means_separated .forDo hrest
  have hmid := hrange.lexical hts.tail
  have hread := complete_forBody hi hmid hdo hbody
  have hend : Avoids ("," :: binaryOperators) (doWord :: mid) :=
    hdo.avoids hmid.head (by decide) (by decide)
  rcases means_either hrange with hnumeric | hgeneric
  · obtain ⟨v, rest, rfl, hv, hafter⟩ := means_row_kind hnumeric
    obtain ⟨equals, rest, rfl, hequals, hrange⟩ := means_row_word hafter
    refine (Reads.discard (Reads.name hv)).andThen ?_
    refine Reads.accepted hequals ?_
    exact (complete_numericRange hi hts.tail.tail.tail hrange hend).andThen hread
  · obtain ⟨_, inWord, start, ls, ms, _, hnames, hin, hlist, rfl⟩ :=
      means_separated .forIn hgeneric
    obtain ⟨v, rest, rfl, hv, hmore⟩ := means_row_kind hnames
    have hequals : Avoids ["="] rest :=
      hmore.avoids hts.tail.tail (by decide) rfl
        fun _ => hin.avoids (hnames.lexical hts.tail).head (by decide) (by decide)
    refine (Reads.discard (Reads.name hv)).andThen ?_
    refine Reads.refused hequals ?_
    exact (complete_genericRange hi hts.tail.tail hmore hin hlist hend).andThen hread

omit hi in
theorem complete_localNames (hts : Lexical ts)
    (h : Means speller n b (Form.commaList .name) ts us es) (hend : Avoids [","] us) :
    Yields speller localNames ts () us [] := by
  obtain ⟨names, ns, rfl, -, -, hread, -, hvariadic⟩ := complete_openNames h hts
    fun sofar => reads_nextName_done hend
  rw [localNames_eq]
  refine hread.andThen_nil ?_
  rw [if_neg (by simp [hvariadic])]
  exact Reads.pure

theorem complete_localStatement {t : Token} (hts : Lexical (t :: ts))
    (h : Means speller n b .localStatement (t :: ts) us es)
    (hend : Avoids ("," :: "=" :: binaryOperators) us) :
    Yields speller (localStatement inner) ts () us es := by
  obtain ⟨t', rest, heq, -, hrest⟩ := means_row_word h
  cases heq
  rcases means_either hrest with hfunction | hlocal
  · obtain ⟨functionWord, rest, rfl, hword, hbody⟩ := means_row_word hfunction
    refine Reads.accepted hword ?_
    exact complete_localFunction hi hts.tail.tail hbody
  · obtain ⟨mid, is, js, hnames, hvalues, rfl⟩ := means_row hlocal rfl
    obtain rfl := hnames.eq_nil_of_isFlat rfl
    have hmid : Avoids [","] mid :=
      hvalues.avoids (hnames.lexical hts.tail) (by decide) rfl fun _ => hend.mono (by decide)
    refine Reads.refused (hnames.avoids_first hts.tail rfl) ?_
    refine (complete_localNames hts.tail hnames hmid).andThen ?_
    rcases means_maybe hvalues with hvalues | ⟨rfl, rfl⟩
    · obtain ⟨equals, rest, rfl, hequals, hlist⟩ := means_row_word hvalues
      refine Reads.accepted hequals ?_
      exact complete_expList hi (hnames.lexical hts.tail).tail hlist (hend.mono (by decide))
    · refine Reads.refused (hend.mono (by decide)) ?_
      exact Reads.pure

omit hi in
theorem complete_statementOrCloser_opened {closers : List Closer} (word : Opener) {t : Token}
    (ht : t.text = word.text) (h : Yields speller (opened inner word) ts () us es) :
    Yields speller (statementOrCloser inner closers) (t :: ts) none us es := by
  refine reads_acceptOpener_bind.mpr (.inl ⟨word, t, ts, rfl, ht, h.andThen_nil ?_⟩)
  exact Reads.pure

theorem complete_statementOrCloser {closers : List Closer} (hts : Lexical ts)
    (h : Means speller n b .statement ts us es) (hend : Avoids ("," :: "=" :: binaryOperators) us) :
    Yields speller (statementOrCloser inner closers) ts none us es := by
  rcases means_either h with h | h
  · exact complete_assignment hi hts h (hend.mono (by decide))
  rcases means_either h with h | h
  · exact complete_functionCall hi hts h
  rcases means_either h with h | h
  · obtain ⟨t, rest, rfl, ht, hbody⟩ := means_row_word h
    exact complete_statementOrCloser_opened .doWord ht (complete_untilEnd hi hts.tail hbody)
  rcases means_either h with h | h
  · obtain ⟨t, rest, rfl, ht, hrest⟩ := means_row_word h
    exact complete_statementOrCloser_opened .whileWord ht (complete_whileStatement hi hts.tail hrest)
  rcases means_either h with h | h
  · obtain ⟨t, rest, rfl, ht, hrest⟩ := means_row_word h
    obtain ⟨mid, is, js, hchunk, hafter, rfl⟩ := means_row hrest rfl
    obtain ⟨untilWord, start, rfl, huntil, hexp⟩ := means_row_word hafter
    have hclosed : ClosedBy [.untilWord] (some .untilWord) (untilWord :: start) start :=
      ⟨List.mem_singleton_self _, untilWord, rfl, huntil⟩
    refine complete_statementOrCloser_opened .repeatWord ht ?_
    have hread : Yields speller (discard (inner.chunk [.untilWord])) rest () start
        is :=
      reads_discard.mpr ⟨_, hi.chunk hts.tail hchunk hclosed⟩
    refine hread.andThen ?_
    exact hi.exp (hchunk.lexical hts.tail).tail hexp (hend.mono (by decide))
  rcases means_either h with h | h
  · obtain ⟨t, rest, rfl, ht, -⟩ := means_row_word h
    exact complete_statementOrCloser_opened .ifWord ht (complete_ifStatement hi hts h)
  rcases means_either h with h | h
  · obtain ⟨t, rest, rfl, ht, -⟩ := means_row_word h
    exact complete_statementOrCloser_opened .forWord ht (complete_forStatement hi hts h)
  rcases means_either h with h | h
  · obtain ⟨t, rest, rfl, ht, hbody⟩ := means_row_word h
    exact complete_statementOrCloser_opened .functionWord ht
      (complete_functionStatement hi hts.tail hbody)
  · obtain ⟨t, rest, rfl, ht, -⟩ := means_row_word h
    exact complete_statementOrCloser_opened .localWord ht
      (complete_localStatement hi hts h hend)

/-! ## Blocks -/

omit hi in
theorem complete_semicolon (h : Means speller n b (.maybe (.word ";")) ts us es)
    (hend : Avoids [";"] us) :
    Yields speller (discard (accept ";")) ts () us [] := by
  rcases means_maybe h with h | ⟨rfl, -⟩
  · obtain ⟨t, rfl, ht, -⟩ := means_word h
    exact reads_discard.mpr ⟨true, reads_accept.mpr (.inl ⟨t, rfl, ht, rfl, rfl⟩)⟩
  · exact reads_discard.mpr ⟨false, reads_accept.mpr (.inr ⟨hend, rfl, rfl, rfl⟩)⟩

def statementGoesOn : List String := ";" :: "," :: "=" :: binaryOperators

theorem complete_nextStatement [inner.Built] {closers : List Closer} (hts : Lexical ts)
    (h : Means speller n b (.row [.statement, .maybe (.word ";")]) ts us es)
    (hend : Avoids statementGoesOn us) :
    Yields speller (nextStatement inner closers) ts (.again false) us es := by
  obtain ⟨mid, is, js, hstatement, hsemicolon, rfl⟩ := means_row h rfl
  obtain rfl := hsemicolon.eq_nil_of_isFlat rfl
  have hmid : Avoids ("," :: "=" :: binaryOperators) mid :=
    hsemicolon.avoids (hstatement.lexical hts) (by decide) rfl fun _ => hend.mono (by decide)
  have hread := complete_semicolon hsemicolon (hend.mono (by decide))
  rw [nextStatement_eq]
  refine Reads.refused (hstatement.avoids_first hts rfl) ?_
  refine Reads.refused (hstatement.avoids_first hts rfl) ?_
  rw [List.append_nil]
  refine (complete_statementOrCloser hi hts hstatement hmid).andThen_nil ?_
  exact hread.andThen_nil Reads.pure

omit hi in
theorem ClosedBy.avoids {closers : List Closer} {closed : Option Closer} {mid : List Token}
    (h : ClosedBy closers closed mid us) : Avoids statementGoesOn mid := by
  cases closed with
  | none =>
    obtain ⟨-, rfl, -⟩ := h
    exact .nil
  | some word =>
    obtain ⟨-, t, rfl, ht⟩ := h
    cases word <;> exact avoids_of_text ht (by decide)

omit hi in
theorem ClosedBy.not_seesValues {closers : List Closer} {closed : Option Closer}
    {mid : List Token} (h : ClosedBy closers closed mid us) :
    seesValues closers (.ofList mid) = false := by
  cases closed with
  | none =>
    obtain ⟨-, rfl, -⟩ := h
    rfl
  | some word =>
    obtain ⟨hword, t, rfl, ht⟩ := h
    have hmem : t.text ∈ closers.map Closer.text := List.mem_map.mpr ⟨word, hword, ht.symm⟩
    simp [seesValues, (seesAny_ofList_cons _ _ _).mpr hmem]

omit hi in
/-- The values of a `return` statement are seen by what they do not start with. -/
theorem seesValues_of_avoids {closers : List Closer} (hne : ts ≠ [])
    (hclosers : Avoids closerTexts ts) (hsemicolon : Avoids [";"] ts) :
    seesValues closers (.ofList ts) = true := by
  have hmore : (Cursor.ofList ts).atEnd = false := by
    simpa [Cursor.atEnd, Cursor.ofList] using hne
  simp [seesValues, hmore, seesAny_ofList_eq_false (hclosers.mono closer_mem_closerTexts),
    sees_ofList_eq_false hsemicolon]

theorem complete_returnValues {closers : List Closer} (hts : Lexical ts)
    (h : Means speller n b (.maybe (Form.commaList .exp)) ts us es)
    (hend : Avoids ("," :: binaryOperators) us)
    (hnone : seesValues closers (.ofList us) = false) :
    Yields speller (returnValues inner closers) ts () us es := by
  rcases means_maybe h with hlist | ⟨rfl, rfl⟩
  · have hsome : seesValues closers (.ofList ts) = true :=
      seesValues_of_avoids (hlist.ne_nil rfl) (hlist.avoids_first hts rfl)
        (hlist.avoids_first hts rfl)
    exact Reads.seen hsome (complete_expList hi hts hlist hend)
  · exact Reads.unseen hnone Reads.pure

theorem complete_lastStatement {closers : List Closer} {mid : List Token} (hts : Lexical ts)
    (h : Means speller n b (.row [.lastStatement, .maybe (.word ";")]) ts mid es)
    (hend : Avoids statementGoesOn mid) (hvalues : seesValues closers (.ofList mid) = false) :
    Yields speller (nextStatement inner closers) ts (.again true) mid es := by
  obtain ⟨start, is, js, hlast, hsemicolon, rfl⟩ := means_row h rfl
  obtain rfl := hsemicolon.eq_nil_of_isFlat rfl
  have hread := complete_semicolon hsemicolon (hend.mono (by decide))
  have hdone : Yields speller (do discard (accept ";"); return .again true) start
      (.again true : BlockTurn) mid [] :=
    hread.andThen_nil Reads.pure
  rw [List.append_nil]
  rcases means_either hlast with hreturn | hbreak
  · obtain ⟨t, rest, rfl, ht, hlist⟩ := means_row_word hreturn
    have hstart : Avoids ("," :: binaryOperators) start :=
      hsemicolon.avoids (hlist.lexical hts.tail) (by decide) rfl fun _ => hend.mono (by decide)
    have hnone : seesValues closers (.ofList start) = false := by
      rcases means_maybe hsemicolon with h | ⟨rfl, -⟩
      · obtain ⟨t, rfl, ht, -⟩ := means_word h
        simp [seesValues, (sees_ofList_cons _ _ _).mpr ht]
      · exact hvalues
    refine Reads.refused (avoids_of_text ht (by decide)) ?_
    refine Reads.accepted ht ?_
    exact (complete_returnValues hi hts.tail hlist hstart hnone).andThen_nil hdone
  · obtain ⟨t, rfl, ht, rfl⟩ := means_word hbreak
    exact Reads.accepted ht hdone

omit hi in
/-- A block is closed whether its last statement is read or not. -/
theorem complete_closing {closers : List Closer} {closed : Option Closer} {mid : List Token}
    (h : ClosedBy closers closed mid us) (ended : Bool) :
    Yields speller (loop (blockTurn inner closers) ended) mid closed us [] := by
  refine reads_loop.mpr (.inl ?_)
  cases closed with
  | none =>
    obtain ⟨rfl, rfl, rfl⟩ := h
    exact Reads.seen rfl Reads.pure
  | some word =>
    obtain ⟨hword, t, rfl, ht⟩ := h
    refine Reads.unseen rfl (reads_acceptCloser_bind.mpr (.inl ?_))
    exact ⟨word, hword, t, us, rfl, ht, Reads.pure⟩

theorem complete_block [inner.Built] {closers : List Closer} {closed : Option Closer} {mid : List Token}
    (hts : Lexical ts) (h : Means speller n closers .statements ts mid es)
    (hclosed : ClosedBy closers closed mid us) :
    Yields speller (block inner closers) ts closed us es := by
  obtain ⟨start, is, js, hmany, hlast, rfl⟩ := means_row h rfl
  have hstart := hmany.lexical hts
  obtain ⟨hgoes, hend⟩ : Avoids statementGoesOn start ∧
      Yields speller (loop (blockTurn inner closers) false) start closed us js := by
    rcases means_maybe hlast with hlast | ⟨rfl, rfl⟩
    · have hturn := yields_blockTurn (hlast.ne_nil rfl) (hlast.avoids_first hstart rfl)
        (complete_lastStatement hi hstart hlast hclosed.avoids hclosed.not_seesValues)
      refine ⟨hlast.avoids_first hstart rfl, reads_loop.mpr (.inr ?_)⟩
      exact ⟨true, mid, _, [], hturn, hlast.length_lt rfl, complete_closing hclosed true,
        (List.append_nil _).symm⟩
    · exact ⟨hclosed.avoids, complete_closing hclosed false⟩
  refine (Means.statements_induction (motive := fun ts is => Lexical ts →
    Avoids statementGoesOn ts ∧ Yields speller (block inner closers) ts closed us (is ++ js))
    hmany ?_ ?_ ?_ hts).2
  · intro _
    exact ⟨hgoes, hend⟩
  · intro ts next is ks hstatement ih hts
    obtain ⟨hnext, hread⟩ := ih (hstatement.lexical hts)
    have hturn : Yields speller (blockTurn inner closers false) ts (.again false) next is :=
      yields_blockTurn (hstatement.ne_nil rfl) (hstatement.avoids_first hts rfl)
        (complete_nextStatement hi hts hstatement hnext)
    refine ⟨hstatement.avoids_first hts rfl, ?_⟩
    rw [List.append_assoc]
    exact reads_loop.mpr (.inr ⟨false, next, _, _, hturn, hstatement.length_lt rfl, hread, rfl⟩)
  · intro found meant ts is hmisspelt ih hts
    obtain ⟨-, hread⟩ := ih (hmisspelt.lexical_cons hts.tail)
    exact ⟨hmisspelt.avoids hts (by decide), yields_block_misspelt hmisspelt hts hread⟩

end Nested

/-! ## Nesting levels -/

theorem complete_nested (levels : Nat) : (nested levels).Complete speller levels := by
  induction levels with
  | zero =>
    refine ⟨fun _ h => ?_, fun _ h => ?_⟩
    · cases h
    · cases h
  | succ levels ih =>
    refine ⟨fun hts h hend => ?_, fun hts h hclosed => ?_⟩
    · exact complete_operandChain ih hts (means_exp h) hend
    · exact complete_block ih hts (means_chunk h) hclosed

end LuaChecker.Grammar
