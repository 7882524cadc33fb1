import LuaChecker.Proofs.Syntax.Completeness
import LuaChecker.Proofs.Syntax.Stopping

/-!
# What breaks off is not finished

If a row of tokens breaks off, the parse that belongs to its form reads what is whole of it
and stops: the end of the input is met in a block, and no parse around the block adds
anything to that.

There is one lemma for each parse that an expression or a chunk may be in. Its parts in front
of the one that breaks off are whole, and completeness tells how they are read.

* `Nested.Stopping`: what the parses one level further in are to do;
* `stops_expThen`, `stops_commas`: expressions with a word behind them, and lists;
* `stops_wholeStatements`: the block in which the tokens end;
* `stops_block`: the blocks around it;
* `stops_nested`: expressions and chunks, at every level.
-/

namespace LuaChecker.Grammar

open Parse

variable {n : Nat} {b : List Closer} {inner : Nested} {speller : Speller} {ts us : List Token}
  {hs is js : List Header}

/-- Further members of a list, each after its comma. What follows a whole member is known: it
is a comma. -/
theorem stops_commas {p : Parse Unit} {f : Form} {F : List Token → Prop}
    (hread : ∀ {b ts us es}, Lexical ts → Means speller n b f ts us es → F us →
      Yields speller p ts () us es)
    (hstop : ∀ {b ts hs}, Lexical ts → BreaksOff n b f ts hs → Stops speller p ts hs)
    (hcomma : ∀ {t ts}, t.text = "," → F (t :: ts))
    (h : BreaksOff n b (.many (.row [.word ",", f])) ts hs) (hts : Lexical ts) :
    F ts ∧ Stops speller (many (afterComma p)) ts hs := by
  refine h.many_induction (motive := fun ts hs => Lexical ts →
    F ts ∧ Stops speller (many (afterComma p)) ts hs) ?_ ?_ hts
  · intro ts hs hmember hts
    obtain ⟨t, rest, rfl, ht, hf⟩ := breaksOff_row_word hmember
    exact ⟨hcomma ht, (Stops.afterComma ht (hstop hts.tail hf)).many_first⟩
  · intro ts mid is js hmember _ ih hts
    obtain ⟨hfollow, hmore⟩ := ih (hmember.lexical hts)
    have hmeans := hmember.means speller []
    obtain ⟨t, rest, rfl, ht, hf⟩ := means_row_word hmeans
    have hturn := reads_afterComma.mpr (.inl ⟨t, rest, rfl, ht, hread hts.tail hf hfollow, rfl⟩)
    exact ⟨hcomma ht, Reads.manyStops hturn (hmeans.length_lt rfl) hmore⟩

/-- The parses one level further in stop where what they are to read breaks off. -/
structure Nested.Stopping (speller : Speller) (n : Nat) (inner : Nested) : Prop where
  exp : ∀ {b ts hs}, Lexical ts → BreaksOff n b .exp ts hs → Stops speller inner.exp ts hs
  chunk : ∀ {closers ts hs}, Lexical ts → BreaksOff n closers .chunk ts hs →
    Stops speller (inner.chunk closers) ts hs

section Nested

variable (hc : inner.Complete speller n) (hi : inner.Stopping speller n)

include hi

/-! ## Functions -/

theorem stops_untilEnd (hts : Lexical ts) (h : BreaksOff n b (.row [.chunk, .word "end"]) ts hs) :
    Stops speller (untilEnd inner) ts hs :=
  (hi.chunk hts (breaksOff_before_flat rfl h)).discard

/-- The name is read by another parse, from the tokens `path`. -/
theorem stops_functionBody (path : List Token) {opening closing : Token} {inside mid : List Token}
    (hopening : opening.text = "(")
    (hinside : Derives n .parameters (inside ++ closing :: mid) (closing :: mid) [])
    (hclosing : closing.text = ")") (hbody : BreaksOff n b (.row [.chunk, .word "end"]) mid hs)
    (hts : Lexical (inside ++ closing :: mid)) :
    Stops speller (functionBody inner (String.join (path.map (·.text))))
      (opening :: (inside ++ closing :: mid))
      (⟨path.map (·.text), opening.line, namesOf inside, hasDots inside⟩ :: hs) := by
  have hend := stops_untilEnd hi (hinside.lexical hts).tail hbody
  have hparentheses := complete_parentheses hopening (hinside.means speller []) hclosing hts
  have hrest : (do parentheses; untilEnd inner : Parse Unit) speller
      (.ofList (opening :: (inside ++ closing :: mid))) = ⟨.error .endOfInput, .ofList [],
        parameterEvents (namesOf inside) (hasDots inside) ++
          (headerEvents hs ++ [.finding none .notClosed])⟩ := by
    rw [bind_eq, hparentheses.eq]
    simp only [hend.eq, Step.behind]
  rw [Stops, headerEvents_cons, Header.events, List.cons_append, List.cons_append,
    List.append_assoc]
  exact congrArg (Step.behind [_]) hrest

theorem stops_functionValue (hts : Lexical ts) (h : BreaksOff n b (.functionBody .empty) ts hs) :
    Stops speller (functionBody inner "") ts hs := by
  obtain ⟨path, opening, inside, closing, mid, is, rfl, hname, hopening, hinside, hclosing, hbody,
    rfl⟩ := breaksOff_functionBody h
  obtain rfl : path = [] := List.append_left_eq_self.mp (derives_empty.mp hname).1.symm
  exact stops_functionBody hi [] hopening hinside hclosing hbody hts.tail

theorem stops_functionStatement (hts : Lexical ts)
    (h : BreaksOff n b (.functionBody .functionName) ts hs) :
    Stops speller (do let path ← functionName; functionBody inner path) ts hs := by
  obtain ⟨path, opening, inside, closing, mid, is, rfl, hname, hopening, hinside, hclosing, hbody,
    rfl⟩ := breaksOff_functionBody h
  obtain ⟨path', heq, hread⟩ := complete_functionName (hname.means speller [])
    (avoids_of_text hopening (by decide))
  cases List.append_cancel_right heq
  exact Reads.thenStops_nil hread
    (stops_functionBody hi path hopening hinside hclosing hbody (hname.lexical hts).tail)

theorem stops_localFunction (hts : Lexical ts) (h : BreaksOff n b (.functionBody .name) ts hs) :
    Stops speller (do let functionName ← name; functionBody inner functionName) ts hs := by
  obtain ⟨path, opening, inside, closing, mid, is, rfl, hname, hopening, hinside, hclosing, hbody,
    rfl⟩ := breaksOff_functionBody h
  obtain ⟨t, heq, ht, -⟩ := means_ofKind (hname.means speller [])
  obtain rfl : path = [t] :=
    List.append_cancel_right (heq.trans (List.singleton_append).symm)
  have hstop := stops_functionBody hi [t] hopening hinside hclosing hbody hts.tail.tail
  refine Reads.thenStops_nil (Reads.name ht) ?_
  simpa using hstop

include hc

/-! ## Tables and calls -/

/-- Behind an expression a word has to stand: the expression breaks off, or what follows the
word does. -/
theorem stops_expThen {β : Type} {p : Parse β} {text : String} {place : Place} {f : Form}
    {fs : List Form} (htext : text ∉ binaryOperators) (hts : Lexical ts)
    (h : BreaksOff n b (.row (.exp :: .word text :: f :: fs)) ts hs)
    (hrest : ∀ {us is}, Lexical us → BreaksOff n b (.row (f :: fs)) us is → Stops speller p us is) :
    Stops speller (do inner.exp; demand text place; p) ts hs := by
  rcases breaksOff_row h with hexp | ⟨mid, is, js, hexp, hafter, rfl⟩
  · exact (hi.exp hts hexp).bind
  · obtain ⟨t, us, rfl, ht, hlater⟩ := breaksOff_row_word hafter
    have hread := hc.exp hts (hexp.means speller []) (avoids_of_text ht htext)
    have hstop := hrest (hexp.lexical hts).tail hlater
    exact Reads.thenStops hread (Reads.thenStops_nil (Reads.demand ht) hstop)

theorem stops_expList (hts : Lexical ts) (h : BreaksOff n b (Form.commaList .exp) ts hs) :
    Stops speller (expList inner) ts hs := by
  rcases breaksOff_row h with hfirst | ⟨mid, is, js, hfirst, hmore, rfl⟩
  · exact (hi.exp hts hfirst).bind
  · obtain ⟨hfollow, hmany⟩ := stops_commas (F := Avoids binaryOperators) hc.exp hi.exp
      (fun ht => avoids_of_text ht (by decide)) hmore (hfirst.lexical hts)
    exact Reads.thenStops (hc.exp hts (hfirst.means speller []) hfollow) hmany

omit hc hi in
/-- A value that starts with a name breaks off behind it. -/
theorem BreaksOff.behind_name {t : Token} (h : BreaksOff n b .value (t :: ts) hs)
    (ht : t.kind = .name) (hts : Lexical (t :: ts)) : BreaksOff n b .suffixes ts hs := by
  have hnot {text : String} {rest : Token} {us : List Token} (heq : t :: ts = rest :: us)
      (hfixed : text ∈ fixedTexts) (hrest : rest.text = text) : False := by
    cases heq
    exact hts.head.text_ne ht rfl hfixed hrest
  rcases breaksOff_value h with h | h | h
  · obtain ⟨_, _, heq, hword, -⟩ := breaksOff_row_word h
    exact (hnot heq (by decide) hword).elim
  · obtain ⟨_, _, heq, hword, -⟩ := breaksOff_row_word h
    exact (hnot heq (by decide) hword).elim
  rcases breaksOff_row h with hprimary | ⟨mid, is, js, hprimary, hmore, rfl⟩
  · obtain ⟨_, _, heq, hword, -⟩ := breaksOff_primary hprimary
    exact (hnot heq (by decide) hword).elim
  · rcases derives_either.mp hprimary with hname | hparenthesis
    · cases hname with
      | ofKind => exact hmore
    · obtain ⟨_, _, heq, hword, -⟩ := means_row_word (hparenthesis.means (.ofThreshold 1) [])
      exact (hnot heq (by decide) hword).elim

omit hc hi in
/-- What is behind a name at the start of an expression that breaks off is no equals sign. -/
theorem BreaksOff.not_equals {t equals : Token} {rest : List Token}
    (h : BreaksOff n b .exp (t :: equals :: rest) hs) (ht : t.kind = .name)
    (hts : Lexical (t :: equals :: rest)) : equals.text ≠ "=" := by
  intro hequals
  have hnot : ¬ Avoids ["="] (equals :: rest) := fun h =>
    avoids_cons.mp h (List.mem_singleton.mpr hequals)
  cases n with
  | zero => cases h
  | succ n =>
    rcases breaksOff_row (breaksOff_exp h) with hoperand | ⟨mid, is, js, hoperand, hmore, -⟩
    · obtain ⟨start, hsigns, hvalue⟩ := breaksOff_row_flat rfl hoperand
      rcases means_many (hsigns.means (.ofThreshold 1) []) nofun with
        ⟨rfl, -⟩ | ⟨_, _, _, hsign, -⟩
      · exact hnot ((hvalue.behind_name ht hts).avoids hts.tail (by decide) rfl)
      · have hfirst : Avoids unaryOperators (t :: equals :: rest) :=
          avoids_of_kind hts.head ht rfl (by decide)
        obtain ⟨_, heq, hmem, -⟩ := means_oneOf hsign
        cases heq
        exact avoids_cons.mp hfirst hmem
    · have hwhole := (Derives.exp (.andThen hoperand .manyNil)).means (.ofThreshold 1) []
      obtain rfl := hwhole.exp_of_equals ht hequals hts
      exact hnot (hmore.avoids hts.tail (by decide) rfl)

theorem stops_field (hts : Lexical ts) (h : BreaksOff n b .field ts hs) :
    Stops speller (field inner) ts hs := by
  rcases breaksOff_either h with h | h
  · obtain ⟨opening, rest, rfl, hopening, hinside⟩ := breaksOff_row_word h
    refine Stops.accepted hopening ?_
    refine stops_expThen hc hi (by decide) hts.tail hinside fun hus hafter => ?_
    obtain ⟨equals, rest, rfl, hequals, hvalue⟩ := breaksOff_row_word hafter
    exact Reads.thenStops_nil (Reads.demand hequals) (hi.exp hus.tail hvalue)
  rcases breaksOff_either h with h | h
  · obtain ⟨t, rest, rfl, ht, h⟩ := breaksOff_row_kind h
    obtain ⟨equals, rest, rfl, hequals, hvalue⟩ := breaksOff_row_word h
    refine Stops.refused (avoids_of_kind hts.head ht rfl (by decide)) ?_
    refine Stops.seen ?_ ?_
    · simp [seesNamedField, next?_ofList_cons, (seesKind_ofList_cons _ _ _).mpr ht, hequals]
    · exact Stops.advanced (Stops.advanced (hi.exp hts.tail.tail hvalue))
  · refine Stops.refused (h.avoids hts (by decide) rfl) ?_
    refine Stops.unseen ?_ (hi.exp hts h)
    rw [← Bool.not_eq_true]
    intro hnamed
    rcases ts with _ | ⟨t, _ | ⟨equals, ts⟩⟩
    · cases hnamed
    · simp [seesNamedField, next?_ofList_cons] at hnamed
    · simp only [seesNamedField, next?_ofList_cons, Bool.and_eq_true, seesKind_ofList_cons,
        List.head?_cons, Option.map_some, Option.some.injEq, decide_eq_true_eq] at hnamed
      exact h.not_equals hnamed.1 hts hnamed.2

theorem stops_table {t : Token} (hts : Lexical (t :: ts)) (h : BreaksOff n b .table (t :: ts) hs) :
    Stops speller (table inner) ts hs := by
  obtain ⟨t', rest, heq, -, hrest⟩ := breaksOff_row_word h
  cases heq
  have hfields := breaksOff_maybe (breaksOff_before_flat rfl hrest)
  refine Stops.refused (hfields.avoids hts.tail (by decide) rfl) ?_
  rcases breaksOff_row hfields with hfirst | ⟨start, is, js, hfirst, hafter, rfl⟩
  · exact (stops_field hc hi hts.tail hfirst).bind
  · have hmore := breaksOff_before_flat rfl hafter
    obtain ⟨hstart, hmany⟩ : Avoids ("=" :: binaryOperators) start ∧
        Stops speller (many (nextField inner)) start js := by
      refine hmore.many_induction (motive := fun ts hs => Lexical ts →
        Avoids ("=" :: binaryOperators) ts ∧ Stops speller (many (nextField inner)) ts hs) ?_ ?_
        (hfirst.lexical hts.tail)
      · intro ts hs hmember hts
        obtain ⟨separator, rest, rfl, hmem, hfield⟩ := breaksOff_row_oneOf hmember
        refine ⟨hmember.avoids hts (by decide) rfl, Stops.many_first ?_⟩
        refine Stops.acceptedAny hmem ?_
        refine Stops.unseen (sees_ofList_eq_false (hfield.avoids hts.tail (by decide) rfl)) ?_
        exact (stops_field hc hi hts.tail hfield).bind
      · intro ts next is js hmember _ ih hts
        obtain ⟨hnext, hmany⟩ := ih (hmember.lexical hts)
        have hmeans := hmember.means speller []
        have hturn := complete_nextField hc hts hmeans hnext
        exact ⟨hmeans.avoids_first hts rfl, Reads.manyStops hturn (hmeans.length_lt rfl) hmany⟩
    have hread := complete_field hc hts.tail (hfirst.means speller []) hstart
    exact Reads.thenStops hread hmany.bind

omit hc in
theorem stops_index (hts : Lexical ts) (h : BreaksOff n b .index ts hs) :
    Stops speller (index inner) ts hs := by
  obtain ⟨opening, rest, rfl, hopening, hexp⟩ := breaksOff_index h
  refine Stops.refused (avoids_of_text hopening (by decide)) ?_
  exact Stops.accepted hopening (hi.exp hts.tail hexp).bind

theorem stops_arguments (hts : Lexical ts) (h : BreaksOff n b .arguments ts hs) :
    Stops speller (arguments inner) ts hs := by
  rcases breaksOff_either (breaksOff_right rfl h) with h | h
  · obtain ⟨opening, rest, rfl, hopening, hrest⟩ := breaksOff_row_word h
    have hlist := breaksOff_maybe (breaksOff_before_flat rfl hrest)
    refine Stops.refusedKind (avoidsKind_of_text hts.head hopening (by decide) rfl) ?_
    refine Stops.accepted hopening ?_
    refine Stops.refused (hlist.avoids hts.tail (by decide) rfl) ?_
    exact (stops_expList hc hi hts.tail hlist).bind
  · obtain ⟨opening, rest, rfl, hopening, -⟩ := breaksOff_row_word h
    refine Stops.refusedKind (avoidsKind_of_text hts.head hopening (by decide) rfl) ?_
    refine Stops.refused (avoids_of_text hopening (by decide)) ?_
    exact Stops.accepted hopening (stops_table hc hi hts h)

theorem stops_call (hts : Lexical ts) (h : BreaksOff n b .call ts hs) :
    Stops speller (call inner) ts hs := by
  obtain ⟨mid, hmethod, harguments⟩ := breaksOff_row_flat rfl h
  have hmid := hmethod.lexical hts
  have hread := complete_method? (hmethod.means speller [])
    (harguments.avoids hmid (by decide) rfl)
  exact Reads.thenStops_nil hread (stops_arguments hc hi hmid harguments)

/-! ## Variables and calls -/

omit hc hi in
theorem BreaksOff.index_head (h : BreaksOff n b .index ts hs) :
    ∃ t rest, ts = t :: rest ∧ t.text ∈ indexStarts := by
  obtain ⟨t, rest, rfl, ht, -⟩ := breaksOff_index h
  exact ⟨t, rest, rfl, by rw [ht]; decide⟩

omit hc hi in
theorem BreaksOff.call_head (h : BreaksOff n b .call ts hs) :
    ∃ t rest, ts = t :: rest ∧ t.text ∈ callStarts := by
  obtain ⟨mid, hmethod, harguments⟩ := breaksOff_row_flat rfl h
  rcases means_maybe (hmethod.means (.ofThreshold 1) []) with hmethod | ⟨rfl, -⟩
  · obtain ⟨t, rest, rfl, ht, -⟩ := means_row_word hmethod
    exact ⟨t, rest, rfl, by rw [ht]; decide⟩
  rcases breaksOff_either (breaksOff_right rfl harguments) with h | h
  · obtain ⟨t, rest, rfl, ht, -⟩ := breaksOff_row_word h
    exact ⟨t, rest, rfl, by rw [ht]; decide⟩
  · obtain ⟨t, rest, rfl, ht, -⟩ := breaksOff_row_word h
    exact ⟨t, rest, rfl, by rw [ht]; decide⟩

omit hc hi in
theorem BreaksOff.startsSuffix (h : BreaksOff n b (.either .index .call) ts hs) :
    startsSuffix ts.head? = true := by
  rcases breaksOff_either h with h | h
  · obtain ⟨t, rest, rfl, ht⟩ := h.index_head
    simp [Grammar.startsSuffix, ht]
  · obtain ⟨t, rest, rfl, ht⟩ := h.call_head
    simp [Grammar.startsSuffix, ht]

theorem stops_nextSuffix (hts : Lexical ts) (h : BreaksOff n b (.either .index .call) ts hs)
    (indexed : Bool) : Stops speller (nextSuffix inner indexed) ts hs := by
  rcases breaksOff_either h with h | h
  · obtain ⟨t, rest, rfl, ht⟩ := h.index_head
    refine Stops.seen ((seesAny_ofList_cons _ _ _).mpr ht) ?_
    exact (stops_index hi hts h).bind
  · obtain ⟨t, rest, rfl, ht⟩ := h.call_head
    have hindex : Avoids indexStarts (t :: rest) := h.avoids hts (by decide) rfl
    refine Stops.unseen (seesAny_ofList_eq_false hindex) ?_
    refine Stops.seen ?_ (stops_call hc hi hts h).bind
    rw [Bool.or_eq_true]
    exact .inl ((seesAny_ofList_cons _ _ _).mpr ht)

/-- Indexes and calls are read one by one, up to the one that breaks off. -/
theorem stops_suffixes (hts : Lexical ts) (h : Derives n .suffixes ts us is)
    (hlast : BreaksOff n b (.either .index .call) us js) (indexed : Bool) :
    Stops speller (loop (nextSuffix inner) indexed) ts (is ++ js) := by
  refine h.many_induction (motive := fun ts is => Lexical ts → ∀ indexed,
    Stops speller (loop (nextSuffix inner) indexed) ts (is ++ js)) ?_ ?_ hts indexed
  · intro hus indexed
    exact (stops_nextSuffix hc hi hus hlast indexed).loop_first
  · intro ts rest is ks hmember _ ih hts indexed
    have hmeans := hmember.means speller []
    obtain ⟨indexed', hturn⟩ := complete_nextSuffix hc hts hmeans indexed
    rw [List.append_assoc]
    exact Reads.loopStops hturn (hmeans.length_lt rfl) (ih (hmember.lexical hts) indexed')

omit hc in
theorem stops_head_primary {position : Position} (hts : Lexical ts)
    (h : BreaksOff n b .primary ts hs) : Stops speller (head inner position) ts hs := by
  obtain ⟨opening, rest, rfl, hopening, hexp⟩ := breaksOff_primary h
  have hkind : AvoidsKind .name (opening :: rest) :=
    avoidsKind_of_text hts.head hopening (by decide) rfl
  have hprimary : Stops speller (primary inner) (opening :: rest) hs :=
    Stops.accepted hopening (hi.exp hts.tail hexp).bind
  refine Stops.unseen (seesKind_ofList_eq_false hkind) ?_
  exact Stops.seen ((sees_ofList_cons _ _ _).mpr hopening) hprimary.bind

/-- Something whole takes indexes and calls, and one of these breaks off. -/
theorem stops_head_suffixes {position : Position} {mid : List Token} {ks : List Header}
    (hts : Lexical ts) (hprimary : Derives n .primary ts mid is)
    (hsuffixes : Derives n .suffixes mid us js)
    (hlast : BreaksOff n b (.either .index .call) us ks) :
    Stops speller (head inner position) ts (is ++ (js ++ ks)) := by
  have hsuffix : startsSuffix mid.head? = true := by
    rcases means_many (hsuffixes.means speller []) nofun with ⟨rfl, -⟩ | ⟨_, _, _, hfirst, -⟩
    · exact hlast.startsSuffix
    · exact hfirst.startsSuffix
  have hsuffixed : Stops speller (suffixedHead inner) mid (js ++ ks) :=
    (stops_suffixes hc hi (hprimary.lexical hts) hsuffixes hlast false).bind
  exact hsuffixed.behind (head_eq_suffixedHead hc hts (hprimary.means speller []) hsuffix)

theorem stops_head_operand (hts : Lexical ts) (h : BreaksOff n b .prefixExp ts hs) :
    Stops speller (head inner .operand) ts hs := by
  rcases breaksOff_row h with hprimary | ⟨mid, is, js, hprimary, hmore, rfl⟩
  · exact stops_head_primary hi hts hprimary
  · obtain ⟨us, ks, ls, hsuffixes, hlast, rfl⟩ := breaksOff_many hmore
    exact stops_head_suffixes hc hi hts hprimary hsuffixes hlast

/-- A variable or a call that ends with an index or with a call. -/
theorem stops_head_last {position : Position} {last : Form} (hts : Lexical ts)
    (hlast : ∀ {ts hs}, BreaksOff n b last ts hs → BreaksOff n b (.either .index .call) ts hs)
    (h : BreaksOff n b (.row [.primary, .suffixes, last]) ts hs) :
    Stops speller (head inner position) ts hs := by
  rcases breaksOff_row h with hprimary | ⟨mid, is, js, hprimary, hrest, rfl⟩
  · exact stops_head_primary hi hts hprimary
  rcases breaksOff_row hrest with hmore | ⟨us, ks, ls, hsuffixes, hend, rfl⟩
  · obtain ⟨us, ks, ls, hsuffixes, hmember, rfl⟩ := breaksOff_many hmore
    exact stops_head_suffixes hc hi hts hprimary hsuffixes hmember
  · exact stops_head_suffixes hc hi hts hprimary hsuffixes (hlast hend)

theorem stops_head_functionCall {closers : List Closer} (hts : Lexical ts)
    (h : BreaksOff n b (.whole .functionCall) ts hs) :
    Stops speller (head inner (.statement closers)) ts hs :=
  stops_head_last hc hi hts .right (breaksOff_whole h)

theorem stops_head_var {closers : List Closer} (hts : Lexical ts)
    (h : BreaksOff n b (.whole .var) ts hs) :
    Stops speller (head inner (.statement closers)) ts hs :=
  stops_head_last hc hi hts .left (breaksOff_right rfl (breaksOff_whole h))

/-! ## Operands and operators -/

omit hc hi in
theorem BreaksOff.avoidsKind {kind : Kind} (h : BreaksOff n b .prefixExp ts hs)
    (hts : Lexical ts) (hname : kind ≠ .name) (hfree : kind.isFree = true) :
    AvoidsKind kind ts := by
  rcases breaksOff_row h with hprimary | ⟨mid, is, js, hprimary, -, rfl⟩
  · obtain ⟨t, rest, rfl, ht, -⟩ := breaksOff_primary hprimary
    exact avoidsKind_of_text hts.head ht (by decide) hfree
  · exact (hprimary.means (.ofThreshold 1) []).primary_avoidsKind hts hname hfree

theorem stops_operand (hts : Lexical ts) (h : BreaksOff n b .value ts hs) :
    Stops speller (operand inner) ts hs := by
  rw [operand_eq]
  rcases breaksOff_value h with h | h | h
  · obtain ⟨t, rest, rfl, ht, hbody⟩ := breaksOff_row_word h
    refine Stops.refusedAny (avoids_of_text ht (by decide)) ?_
    refine Stops.refusedKind (avoidsKind_of_text hts.head ht (by decide) rfl) ?_
    refine Stops.refusedKind (avoidsKind_of_text hts.head ht (by decide) rfl) ?_
    exact Stops.accepted ht (stops_functionValue hi hts.tail hbody)
  · obtain ⟨t, rest, rfl, ht, -⟩ := breaksOff_row_word h
    refine Stops.refusedAny (avoids_of_text ht (by decide)) ?_
    refine Stops.refusedKind (avoidsKind_of_text hts.head ht (by decide) rfl) ?_
    refine Stops.refusedKind (avoidsKind_of_text hts.head ht (by decide) rfl) ?_
    refine Stops.refused (avoids_of_text ht (by decide)) ?_
    exact Stops.accepted ht (stops_table hc hi hts h)
  · refine Stops.refusedAny (h.avoids hts (by decide) rfl) ?_
    refine Stops.refusedKind (h.avoidsKind hts nofun rfl) ?_
    refine Stops.refusedKind (h.avoidsKind hts nofun rfl) ?_
    refine Stops.refused (h.avoids hts (by decide) rfl) ?_
    refine Stops.refused (h.avoids hts (by decide) rfl) ?_
    exact (stops_head_operand hc hi hts h).discard

theorem stops_operandStep (hts : Lexical ts) (h : BreaksOff n b .operand ts hs) :
    Stops speller (operandStep inner) ts hs := by
  obtain ⟨start, hsigns, hvalue⟩ := breaksOff_row_flat rfl h
  have hstart := hsigns.lexical hts
  have hread := complete_signs (hsigns.means speller [])
    (hvalue.avoids hstart (by decide) rfl)
  exact Reads.thenStops_nil hread (stops_operand hc hi hstart hvalue).bind

theorem stops_operandChain (hts : Lexical ts) (h : BreaksOff n b .operands ts hs) :
    Stops speller (operandChain inner) ts hs := by
  rcases breaksOff_row h with hfirst | ⟨mid, is, js, hfirst, hmore, rfl⟩
  · exact (stops_operandStep hc hi hts hfirst).many_first
  -- The operators are read by the turns of the operands in front of them.
  have hturn {c : List Closer} {t : Token} {ts rest : List Token} {is : List Header}
      (hts : Lexical ts) (hoperand : Means speller n c .operand ts (t :: rest) (headerEvents is))
      (ht : t.text ∈ binaryOperators) :
      Yields speller (operandStep inner) ts true rest (headerEvents is) ∧
        rest.length < ts.length :=
    ⟨complete_operandStep hc hts hoperand (reads_acceptAny.mpr (.inl ⟨t, rfl, ht, rfl, rfl⟩)),
      Nat.lt_of_succ_lt (hoperand.length_lt rfl)⟩
  refine hmore.many_induction (motive := fun mid js => ∀ ts is, Lexical ts →
    Derives n .operand ts mid is → Stops speller (operandChain inner) ts (is ++ js))
    ?_ ?_ ts is hts hfirst
  · intro mid js hmember ts is hts hoperand
    obtain ⟨t, rest, rfl, ht, hnext⟩ := breaksOff_row_oneOf hmember
    obtain ⟨hread, hlt⟩ := hturn hts (hoperand.means speller []) ht
    have hrest := (hoperand.lexical hts).tail
    exact Reads.manyStops hread hlt (stops_operandStep hc hi hrest hnext).many_first
  · intro mid next js ks hmember _ ih ts is hts hoperand
    cases hmember with
    | andThen hoperator hnext =>
      cases hoperator with
      | oneOf ht =>
        obtain ⟨hread, hlt⟩ := hturn hts (hoperand.means speller []) ht
        exact Reads.manyStops hread hlt (ih _ _ (hoperand.lexical hts).tail hnext)

/-! ## Statements -/

omit hc hi in
theorem stops_statementOrCloser_opened {closers : List Closer} (word : Opener) {t : Token}
    (ht : t.text = word.text) (h : Stops speller (opened inner word) ts hs) :
    Stops speller (statementOrCloser inner closers) (t :: ts) hs :=
  Stops.starts ht h.bind

theorem stops_target (hts : Lexical ts) (h : BreaksOff n b (.whole .var) ts hs) :
    Stops speller (target inner) ts hs :=
  target_eq ▸ (stops_head_var hc hi hts h).bind

theorem stops_assignment {closers : List Closer} (hts : Lexical ts)
    (h : BreaksOff n b .assignment ts hs) : Stops speller (statementOrCloser inner closers) ts hs := by
  refine Stops.notStarts (h.avoids hts (by decide) rfl) ?_
  rcases breaksOff_row h with htargets | ⟨mid, is, js, htargets, hrest, rfl⟩
  · rcases breaksOff_row htargets with hfirst | ⟨start, is, js, hfirst, hmore, rfl⟩
    · exact (stops_head_var hc hi hts hfirst).bind
    · obtain ⟨hfollow, hmany⟩ := stops_commas (p := target inner) (F := TargetEnds)
        (complete_target hc) (stops_target hc hi)
        (fun ht => ⟨_, _, rfl, .inl ht⟩) hmore (hfirst.lexical hts)
      have hhead : Yields speller (head inner (.statement closers)) ts .variable start
          (headerEvents is) := complete_head_var hc hts (hfirst.means speller []) hfollow
      exact Reads.thenStops hhead hmany.bind.bind
  · obtain ⟨equals, rest, rfl, hequals, hlist⟩ := breaksOff_row_word hrest
    obtain ⟨start, ks, ls, hfirst, hmore, rfl⟩ := derives_andThen.mp htargets
    obtain ⟨hfollow, hmany⟩ := complete_commas (F := TargetEnds) (complete_target hc)
      (fun ht => ⟨_, _, rfl, .inl ht⟩) ⟨equals, rest, rfl, .inr hequals⟩
      (avoids_of_text hequals (by decide)) (hmore.means speller []) (hfirst.lexical hts)
    have hhead : Yields speller (head inner (.statement closers)) ts .variable start
        (headerEvents ks) := complete_head_var hc hts (hfirst.means speller []) hfollow
    have hvalues := stops_expList hc hi (htargets.lexical hts).tail hlist
    have hassignment : Stops speller (assignment inner) start (ls ++ js) :=
      Reads.thenStops hmany (Stops.accepted hequals hvalues)
    rw [List.append_assoc]
    exact Reads.thenStops hhead hassignment.bind

/-- What an `if` statement goes on with behind a branch that the word closes. -/
def laterBranches (inner : Nested) (word : Closer) : Parse Unit := do
  let last ← loop (nextBranch inner) (some word)
  if last = some .elseWord then
    untilEnd inner

/-- The row starts with a word that closes a branch; behind it the statement stops. -/
def BranchesStop (speller : Speller) (inner : Nested) (ts : List Token) (hs : List Header) : Prop :=
  ∃ word ∈ Closer.branch, ∃ t rest, ts = t :: rest ∧ t.text = word.text ∧
    Stops speller (laterBranches inner word) rest hs

theorem stops_nextBranch (hts : Lexical ts)
    (h : BreaksOff n Closer.branch (.row [.word "elseif", .exp, .word "then", .chunk]) ts hs) :
    BranchesStop speller inner ts hs := by
  obtain ⟨t, rest, rfl, ht, hbranch⟩ := breaksOff_row_word h
  refine ⟨.elseifWord, by decide, t, rest, rfl, ht, (Stops.loop_first ?_).bind⟩
  rw [nextBranch, if_pos rfl]
  exact stops_expThen hc hi (by decide) hts.tail hbranch
    fun hus hchunk => (hi.chunk hus hchunk).bind

omit hc in
theorem stops_lastBranch (hts : Lexical ts)
    (h : BreaksOff n b (.row [.maybe (.row [.word "else", .chunk]), .word "end"]) ts hs) :
    BranchesStop speller inner ts hs := by
  obtain ⟨t, rest, rfl, ht, hchunk⟩ :=
    breaksOff_row_word (breaksOff_maybe (breaksOff_before_flat rfl h))
  refine ⟨.elseWord, by decide, t, rest, rfl, ht, ?_⟩
  exact Reads.thenStops_nil (reads_nextBranch_done (by decide)) (hi.chunk hts.tail hchunk).discard

omit hi in
/-- Whole branches are read by the turns of the branches in front of them. -/
theorem stops_laterBranches (hts : Lexical ts)
    (h : Derives n (.many (.row [.word "elseif", .exp, .word "then", .chunk])) ts us is)
    (hstop : BranchesStop speller inner us js) : BranchesStop speller inner ts (is ++ js) := by
  refine h.many_induction (motive := fun ts is => Lexical ts →
    BranchesStop speller inner ts (is ++ js)) (fun _ => hstop) ?_ hts
  intro ts next is ks hmember _ ih hts
  have hmeans := hmember.means speller Closer.branch
  have hlt := hmeans.length_lt rfl
  obtain ⟨word, hword, t', rest', rfl, ht', hrest⟩ := ih (hmember.lexical hts)
  obtain ⟨t, rest, rfl, ht, hbranch⟩ := means_row_word hmeans
  have hturn := complete_nextBranch hc hts.tail hbranch hword ht'
  refine ⟨.elseifWord, by decide, t, rest, rfl, ht, ?_⟩
  rw [List.append_assoc]
  refine Reads.loopStops_bind hturn ?_ hrest
  simp only [List.length_cons] at hlt
  omega

theorem stops_branches (hts : Lexical ts)
    (h : BreaksOff n b (.row [.many (.row [.word "elseif", .exp, .word "then", .chunk]),
      .maybe (.row [.word "else", .chunk]), .word "end"]) ts hs) :
    BranchesStop speller inner ts hs := by
  rcases breaksOff_row h with hmany | ⟨mid, is, js, hmany, hlast, rfl⟩
  · obtain ⟨us, is, js, hwhole, hmember, rfl⟩ := breaksOff_many hmany
    have hstop := stops_nextBranch hc hi (hwhole.lexical hts) hmember
    exact stops_laterBranches hc hts hwhole hstop
  · exact stops_laterBranches hc hts hmany (stops_lastBranch hi (hmany.lexical hts) hlast)

theorem stops_ifStatement {t : Token} (hts : Lexical (t :: ts))
    (h : BreaksOff n b .ifStatement (t :: ts) hs) : Stops speller (ifStatement inner) ts hs := by
  obtain ⟨t', rest, heq, -, hrest⟩ := breaksOff_row_word h
  cases heq
  refine stops_expThen hc hi (by decide) hts.tail hrest fun hus hbranches => ?_
  rcases breaksOff_row hbranches with hchunk | ⟨mid', ks, ls, hchunk, hafter, rfl⟩
  · exact (hi.chunk hus hchunk).bind
  · obtain ⟨word, hword, t', rest', rfl, ht', hstop⟩ :=
      stops_branches hc hi (hchunk.lexical hus) hafter
    have hclosed : ClosedBy Closer.branch (some word) (t' :: rest') rest' := ⟨hword, t', rfl, ht'⟩
    exact Reads.thenStops (hc.chunk hus (hchunk.means speller _) hclosed) hstop

theorem stops_numericRange (hts : Lexical ts)
    (h : BreaksOff n b (.row [.exp, .word ",", .exp, .maybe (.row [.word ",", .exp])]) ts hs) :
    Stops speller (numericRange inner) ts hs := by
  refine stops_expThen hc hi (by decide) hts h fun hus hrest => ?_
  rcases breaksOff_row hrest with hto | ⟨mid, is, js, hto, hstep, rfl⟩
  · exact (hi.exp hus hto).bind
  · obtain ⟨comma, rest, rfl, hcomma, hexp⟩ := breaksOff_row_word (breaksOff_maybe hstep)
    have hread := hc.exp hus (hto.means speller []) (avoids_of_text hcomma (by decide))
    exact Reads.thenStops hread (Stops.accepted hcomma (hi.exp (hto.lexical hus).tail hexp))

theorem stops_genericRange {c : List Closer} {es : List Event} (hts : Lexical ts)
    (hnames : Means speller n c (.many (.row [.word ",", .name])) ts us es)
    (h : BreaksOff n b (.row [.word "in", Form.commaList .exp]) us hs) :
    Stops speller (genericRange inner) ts hs := by
  obtain rfl := hnames.eq_nil_of_isFlat rfl
  obtain ⟨inWord, rest, rfl, hin, hlist⟩ := breaksOff_row_word h
  obtain ⟨-, hmany⟩ := complete_commas (F := fun _ => True)
    (fun _ h _ => complete_discard_name h) (fun _ => trivial) trivial
    (avoids_of_text hin (by decide)) hnames hts
  have hstop := stops_expList hc hi (hnames.lexical hts).tail hlist
  exact Reads.thenStops_nil hmany (Reads.thenStops_nil (Reads.demand hin) hstop)

omit hc in
theorem stops_forBody (hts : Lexical ts)
    (h : BreaksOff n b (.row [.word "do", .chunk, .word "end"]) ts hs) :
    Stops speller (do demand "do" .forLoop; untilEnd inner) ts hs := by
  obtain ⟨t, rest, rfl, ht, hbody⟩ := breaksOff_row_word h
  exact Reads.thenStops_nil (Reads.demand ht) (stops_untilEnd hi hts.tail hbody)

theorem stops_forStatement {t : Token} (hts : Lexical (t :: ts))
    (h : BreaksOff n b .forStatement (t :: ts) hs) : Stops speller (forStatement inner) ts hs := by
  obtain ⟨t', rest, heq, -, hrest⟩ := breaksOff_row_word h
  cases heq
  rcases breaksOff_row hrest with hrange | ⟨mid, is, js, hrange, hbody, rfl⟩
  · rcases breaksOff_either hrange with hnumeric | hgeneric
    · obtain ⟨v, rest, rfl, hv, hafter⟩ := breaksOff_row_kind hnumeric
      obtain ⟨equals, rest, rfl, hequals, hrange⟩ := breaksOff_row_word hafter
      refine Reads.thenStops_nil (Reads.discard (Reads.name hv)) (Stops.accepted hequals ?_)
      exact (stops_numericRange hc hi hts.tail.tail.tail hrange).bind
    · obtain ⟨mid, hnames, hafter⟩ := breaksOff_row_flat rfl hgeneric
      have hmid := hnames.lexical hts.tail
      obtain ⟨v, rest, rfl, hv, hmore⟩ := means_row_kind (hnames.means speller [])
      have hequals : Avoids ["="] rest :=
        hmore.avoids hts.tail.tail (by decide) rfl fun _ => hafter.avoids hmid (by decide) rfl
      refine Reads.thenStops_nil (Reads.discard (Reads.name hv)) (Stops.refused hequals ?_)
      exact (stops_genericRange hc hi hts.tail.tail hmore hafter).bind
  · -- The range is whole, and what follows it is `do`.
    have hmid := hrange.lexical hts.tail
    have hstop := stops_forBody hi hmid hbody
    have hend : Avoids ("," :: binaryOperators) mid := hbody.avoids hmid (by decide) rfl
    rcases means_either (hrange.means speller []) with hnumeric | hgeneric
    · obtain ⟨v, rest, rfl, hv, hafter⟩ := means_row_kind hnumeric
      obtain ⟨equals, rest, rfl, hequals, hrange⟩ := means_row_word hafter
      refine Reads.thenStops_nil (Reads.discard (Reads.name hv)) (Stops.accepted hequals ?_)
      exact Reads.thenStops (complete_numericRange hc hts.tail.tail.tail hrange hend) hstop
    · obtain ⟨_, inWord, start, ks, ls, _, hnames, hin, hlist, heq⟩ :=
        means_separated .forIn hgeneric
      obtain ⟨v, rest, rfl, hv, hmore⟩ := means_row_kind hnames
      have hequals : Avoids ["="] rest :=
        hmore.avoids hts.tail.tail (by decide) rfl
          fun _ => hin.avoids (hnames.lexical hts.tail).head (by decide) (by decide)
      have hread := complete_genericRange hc hts.tail.tail hmore hin hlist hend
      rw [← heq] at hread
      refine Reads.thenStops_nil (Reads.discard (Reads.name hv)) (Stops.refused hequals ?_)
      exact Reads.thenStops hread hstop

theorem stops_localStatement {t : Token} (hts : Lexical (t :: ts))
    (h : BreaksOff n b .localStatement (t :: ts) hs) :
    Stops speller (localStatement inner) ts hs := by
  obtain ⟨t', rest, heq, -, hrest⟩ := breaksOff_row_word h
  cases heq
  rcases breaksOff_either hrest with hfunction | hlocal
  · obtain ⟨functionWord, rest, rfl, hword, hbody⟩ := breaksOff_row_word hfunction
    exact Stops.accepted hword (stops_localFunction hi hts.tail.tail hbody)
  · obtain ⟨mid, hnames, hvalues⟩ := breaksOff_row_flat rfl hlocal
    obtain ⟨equals, rest, rfl, hequals, hlist⟩ := breaksOff_row_word (breaksOff_maybe hvalues)
    have hnames := hnames.means speller []
    have hread := complete_localNames hts.tail hnames (avoids_of_text hequals (by decide))
    refine Stops.refused (hnames.avoids_first hts.tail rfl) (Reads.thenStops_nil hread ?_)
    exact Stops.accepted hequals (stops_expList hc hi (hnames.lexical hts.tail).tail hlist)

theorem stops_statementOrCloser {closers : List Closer} (hts : Lexical ts)
    (h : BreaksOff n b .statement ts hs) : Stops speller (statementOrCloser inner closers) ts hs := by
  rcases breaksOff_either h with h | h
  · exact stops_assignment hc hi hts h
  rcases breaksOff_either h with h | h
  · refine Stops.notStarts (h.avoids hts (by decide) rfl) ?_
    exact (stops_head_functionCall hc hi hts h).bind
  rcases breaksOff_either h with h | h
  · obtain ⟨t, rest, rfl, ht, hbody⟩ := breaksOff_row_word h
    exact stops_statementOrCloser_opened .doWord ht (stops_untilEnd hi hts.tail hbody)
  rcases breaksOff_either h with h | h
  · obtain ⟨t, rest, rfl, ht, hrest⟩ := breaksOff_row_word h
    refine stops_statementOrCloser_opened .whileWord ht ?_
    exact stops_expThen hc hi (by decide) hts.tail hrest (stops_untilEnd hi)
  rcases breaksOff_either h with h | h
  · obtain ⟨t, rest, rfl, ht, hrest⟩ := breaksOff_row_word h
    refine stops_statementOrCloser_opened .repeatWord ht ?_
    rcases breaksOff_row hrest with hchunk | ⟨mid, is, js, hchunk, hafter, rfl⟩
    · exact (hi.chunk hts.tail hchunk).discard.bind
    · obtain ⟨untilWord, start, rfl, huntil, hexp⟩ := breaksOff_row_word hafter
      have hclosed : ClosedBy [.untilWord] (some .untilWord) (untilWord :: start) start :=
        ⟨List.mem_singleton_self _, untilWord, rfl, huntil⟩
      have hread := hc.chunk hts.tail (hchunk.means speller _) hclosed
      exact Reads.thenStops hread.discard (hi.exp (hchunk.lexical hts.tail).tail hexp)
  rcases breaksOff_either h with h | h
  · obtain ⟨t, rest, rfl, ht, -⟩ := breaksOff_row_word h
    exact stops_statementOrCloser_opened .ifWord ht (stops_ifStatement hc hi hts h)
  rcases breaksOff_either h with h | h
  · obtain ⟨t, rest, rfl, ht, -⟩ := breaksOff_row_word h
    exact stops_statementOrCloser_opened .forWord ht (stops_forStatement hc hi hts h)
  rcases breaksOff_either h with h | h
  · obtain ⟨t, rest, rfl, ht, hbody⟩ := breaksOff_row_word h
    exact stops_statementOrCloser_opened .functionWord ht (stops_functionStatement hi hts.tail hbody)
  · obtain ⟨t, rest, rfl, ht, -⟩ := breaksOff_row_word h
    exact stops_statementOrCloser_opened .localWord ht (stops_localStatement hc hi hts h)

/-! ## Blocks -/

omit hc hi in
/-- A turn through a block reads a statement if no closing word comes next. -/
theorem stops_blockTurn {closers : List Closer} (hne : ts ≠ []) (hclosers : Avoids closerTexts ts)
    (h : Stops speller (nextStatement inner closers) ts hs) :
    Stops speller (blockTurn inner closers false) ts hs := by
  refine Stops.unseen ?_ ?_
  · simpa [Cursor.atEnd, Cursor.ofList] using hne
  · exact Stops.notCloses (hclosers.mono closer_mem_closerTexts) h

theorem stops_nextStatement [inner.Built] {closers : List Closer} (hts : Lexical ts)
    (h : BreaksOff n b .statement ts hs) : Stops speller (nextStatement inner closers) ts hs := by
  rw [nextStatement_eq]
  refine Stops.refused (h.avoids hts (by decide) rfl) ?_
  refine Stops.refused (h.avoids hts (by decide) rfl) ?_
  exact (stops_statementOrCloser hc hi hts h).bind

theorem stops_lastStatement {closers : List Closer} (hts : Lexical ts)
    (h : BreaksOff n b .lastStatement ts hs) :
    Stops speller (nextStatement inner closers) ts hs := by
  rcases breaksOff_either h with h | h
  · obtain ⟨t, rest, rfl, ht, hvalues⟩ := breaksOff_row_word h
    have hlist := breaksOff_maybe hvalues
    have hsome : seesValues closers (.ofList rest) = true :=
      seesValues_of_avoids (hlist.ne_nil rfl) (hlist.avoids hts.tail (by decide) rfl)
        (hlist.avoids hts.tail (by decide) rfl)
    have hstop : Stops speller (returnValues inner closers) rest hs :=
      Stops.seen hsome (stops_expList hc hi hts.tail hlist)
    refine Stops.refused (avoids_of_text ht (by decide)) ?_
    exact Stops.accepted ht hstop.bind
  · exact absurd h (not_breaksOff_of_isFlat rfl)

omit hi in
/-- A block goes on behind whole statements. -/
theorem stops_laterStatement [inner.Built] {closers : List Closer} (hts : Lexical ts)
    (h : Derives n (.many .statementRow) ts us is) (hend : Avoids statementGoesOn us)
    (hstop : Stops speller (block inner closers) us js) :
    Stops speller (block inner closers) ts (is ++ js) := by
  refine (h.many_induction (motive := fun ts is => Lexical ts → Avoids statementGoesOn ts ∧
    Stops speller (block inner closers) ts (is ++ js)) (fun _ => ⟨hend, hstop⟩) ?_ hts).2
  intro ts next is ks hmember _ ih hts
  obtain ⟨hnext, hmore⟩ := ih (hmember.lexical hts)
  have hmeans := hmember.means speller []
  have hturn : Yields speller (blockTurn inner closers false) ts (.again false) next
      (headerEvents is) :=
    yields_blockTurn (hmeans.ne_nil rfl) (hmeans.avoids_first hts rfl)
      (complete_nextStatement hc hts hmeans hnext)
  refine ⟨hmeans.avoids_first hts rfl, ?_⟩
  rw [List.append_assoc]
  exact Reads.loopStops hturn (hmeans.length_lt rfl) hmore

omit hc hi in
/-- A block that a word has to close is not closed by the end of the input. -/
theorem stops_atEnd {closers : List Closer} (hclosers : closers ≠ []) (ended : Bool) :
    Stops speller (loop (blockTurn inner closers) ended) [] [] := by
  have hnot : ¬ closers.isEmpty = true := by simpa using hclosers
  refine Stops.loop_first (Stops.seen rfl ?_)
  rw [endOfInput, if_neg hnot]
  rfl

omit hi in
/-- The tokens end behind whole statements, where the block would have to be closed. -/
theorem stops_wholeStatements [inner.Built] {closers : List Closer} (hclosers : closers ≠ []) (hts : Lexical ts)
    (h : Derives n .statements ts [] hs) : Stops speller (block inner closers) ts hs := by
  obtain ⟨us, is, js, hmany, hlast, rfl⟩ := derives_andThen.mp h
  have hus := hmany.lexical hts
  rcases derives_either.mp hlast with hlast | hnone
  · have hmeans := hlast.means speller []
    have hturn : Yields speller (blockTurn inner closers false) us (.again true) []
        (headerEvents js) :=
      yields_blockTurn (hmeans.ne_nil rfl) (hmeans.avoids_first hus rfl)
        (complete_lastStatement hc hus hmeans .nil rfl)
    have hstop : Stops speller (block inner closers) us (js ++ []) :=
      Reads.loopStops hturn (hmeans.length_lt rfl) (stops_atEnd hclosers true)
    rw [List.append_nil] at hstop
    exact stops_laterStatement hc hts hmany (hmeans.avoids_first hus rfl) hstop
  · obtain ⟨rfl, rfl⟩ := derives_empty.mp hnone
    exact stops_laterStatement hc hts hmany .nil (stops_atEnd hclosers false)

/-- A statement of the block breaks off: one of those that others may follow, or the last. -/
theorem stops_block [inner.Built] {closers : List Closer} (hts : Lexical ts)
    (h : BreaksOff n b .statements ts hs) : Stops speller (block inner closers) ts hs := by
  rcases breaksOff_row h with hmany | ⟨us, is, js, hmany, hlast, rfl⟩
  · obtain ⟨us, is, js, hwhole, hmember, rfl⟩ := breaksOff_many hmany
    have hus := hwhole.lexical hts
    have hstatement := breaksOff_before_flat rfl hmember
    have hturn : Stops speller (blockTurn inner closers false) us js :=
      stops_blockTurn (hstatement.ne_nil rfl) (hstatement.avoids hus (by decide) rfl)
        (stops_nextStatement hc hi hus hstatement)
    exact stops_laterStatement hc hts hwhole (hstatement.avoids hus (by decide) rfl)
      hturn.loop_first
  · have hus := hmany.lexical hts
    have hlast := breaksOff_before_flat rfl (breaksOff_maybe hlast)
    have hturn : Stops speller (blockTurn inner closers false) us js :=
      stops_blockTurn (hlast.ne_nil rfl) (hlast.avoids hus (by decide) rfl)
        (stops_lastStatement hc hi hus hlast)
    exact stops_laterStatement hc hts hmany (hlast.avoids hus (by decide) rfl) hturn.loop_first

end Nested

/-! ## Nesting levels -/

theorem stops_nested (levels : Nat) : (nested levels).Stopping speller levels := by
  induction levels with
  | zero =>
    refine ⟨fun _ h => ?_, fun _ h => ?_⟩
    · cases h
    · cases h
  | succ levels ih =>
    have hc : (nested levels).Complete speller levels := complete_nested levels
    refine ⟨fun hts h => ?_, fun hts h => ?_⟩
    · exact stops_operandChain hc ih hts (breaksOff_exp h)
    · rcases breaksOff_chunk h with ⟨hclosers, hwhole⟩ | hstatements
      · exact stops_wholeStatements hc hclosers hts hwhole
      · exact stops_block hc ih hts hstatements

end LuaChecker.Grammar
