import LuaChecker.Proofs.Syntax.Derivation
import LuaChecker.Proofs.Syntax.Reading

/-!
# What a parse reads has a derivation

If a parse of the grammar reads a row of tokens without faults, the row has the form that
belongs to the parse. The parses are followed in the order in which they are defined; a
level of nesting is added at the end. For a loop there is a lemma about one turn, and from it
the one about the loop.

* `sound_loop`, `sound_many`: rows of one form, one after another;
* `sound_nested`: expressions and chunks, at every level.
-/

namespace LuaChecker.Grammar

open Parse

/-- There is a derivation of the form from `ts` to `us`, whatever its functions are. -/
def Matches (n : Nat) (f : Form) (ts us : List Token) : Prop :=
  ∃ hs, Derives n f ts us hs

namespace Matches

variable {n : Nat} {f g : Form} {ts us vs : List Token} {t : Token}

theorem lexical (h : Matches n f ts us) (hts : Lexical ts) : Lexical us := by
  obtain ⟨hs, hd⟩ := h
  exact hd.lexical hts

theorem empty : Matches n .empty ts ts := ⟨[], .empty⟩

theorem word {text : String} (ht : t.text = text) : Matches n (.word text) (t :: us) us :=
  ⟨[], .word ht⟩

theorem oneOf {texts : List String} (ht : t.text ∈ texts) :
    Matches n (.oneOf texts) (t :: us) us :=
  ⟨[], .oneOf ht⟩

theorem ofKind {kind : Kind} (ht : t.kind = kind) : Matches n (.ofKind kind) (t :: us) us :=
  ⟨[], .ofKind ht⟩

theorem andThen (hf : Matches n f ts us) (hg : Matches n g us vs) :
    Matches n (.andThen f g) ts vs := by
  obtain ⟨hs, hf⟩ := hf
  obtain ⟨is, hg⟩ := hg
  exact ⟨hs ++ is, .andThen hf hg⟩

theorem left (h : Matches n f ts us) : Matches n (.either f g) ts us := by
  obtain ⟨hs, h⟩ := h
  exact ⟨hs, .left h⟩

theorem right (h : Matches n g ts us) : Matches n (.either f g) ts us := by
  obtain ⟨hs, h⟩ := h
  exact ⟨hs, .right h⟩

theorem none : Matches n (.many f) ts ts := ⟨[], .manyNil⟩

theorem more (hf : Matches n f ts us) (hg : Matches n (.many f) us vs) :
    Matches n (.many f) ts vs := by
  obtain ⟨hs, hf⟩ := hf
  obtain ⟨is, hg⟩ := hg
  exact ⟨hs ++ is, .manyCons hf hg⟩

theorem whole (h : Matches n f ts us) (hend : startsSuffix us.head? = false) :
    Matches n (.whole f) ts us := by
  obtain ⟨hs, h⟩ := h
  exact ⟨hs, .whole h hend⟩

theorem wordThen {text : String} {fs : List Form} (ht : t.text = text)
    (h : Matches n (.row (f :: fs)) us vs) :
    Matches n (.row (.word text :: f :: fs)) (t :: us) vs :=
  (word ht).andThen h

theorem kindThen {kind : Kind} {fs : List Form} (ht : t.kind = kind)
    (h : Matches n (.row (f :: fs)) us vs) :
    Matches n (.row (.ofKind kind :: f :: fs)) (t :: us) vs :=
  (ofKind ht).andThen h

theorem oneThen {texts : List String} {fs : List Form} (ht : t.text ∈ texts)
    (h : Matches n (.row (f :: fs)) us vs) :
    Matches n (.row (.oneOf texts :: f :: fs)) (t :: us) vs :=
  (oneOf ht).andThen h

end Matches

variable {n : Nat} {inner : Nested} {speller : Speller} {ts us : List Token} {es : List Event}
  {u : Unit}

/-! ## Repetition -/

section Repetition

variable {σ β : Type} {f : Form} {Q : List Token → Prop}

/-- If every turn that goes on reads a row of the form, a loop reads such rows one after
another, and then what its last turn reads. What a turn may rely on is `I`. -/
theorem sound_loop {step : σ → Parse (Turn σ β)} {s : σ} {b : β} {I : σ → List Token → Prop}
    (again : ∀ {s s' ts mid es}, I s ts →
      Reads Faultless speller (step s) ts (.again s') mid es → Matches n f ts mid ∧ I s' mid)
    (done : ∀ {s ts es}, I s ts → Reads Faultless speller (step s) ts (.done b) us es → Q ts)
    (hs : I s ts) (h : Reads Faultless speller (loop step s) ts b us es) :
    ∃ mid, Matches n (.many f) ts mid ∧ Q mid := by
  refine h.loop_induction
    (motive := fun s ts => I s ts → ∃ mid, Matches n (.many f) ts mid ∧ Q mid) ?_ ?_ hs
  · intro s ts es hturn hs
    exact ⟨ts, .none, done hs hturn⟩
  · intro s s' ts rest es hturn ih hs
    obtain ⟨hone, hs'⟩ := again hs hturn
    obtain ⟨mid, hmore, hlast⟩ := ih hs'
    exact ⟨mid, .more hone hmore, hlast⟩

theorem sound_many {step : Parse Bool} (hts : Lexical ts)
    (again : ∀ {ts mid es}, Lexical ts → Reads Faultless speller step ts true mid es →
      Matches n f ts mid)
    (done : ∀ {ts es}, Lexical ts → Reads Faultless speller step ts false us es → Q ts)
    (h : Reads Faultless speller (many step) ts u us es) :
    ∃ mid, Matches n (.many f) ts mid ∧ Q mid := by
  refine h.many_induction
    (motive := fun ts => Lexical ts → ∃ mid, Matches n (.many f) ts mid ∧ Q mid) ?_ ?_ hts
  · intro ts es hturn hts
    exact ⟨ts, .none, done hts hturn⟩
  · intro ts rest es hturn ih hts
    have hone := again hts hturn
    obtain ⟨mid, hmore, hlast⟩ := ih (hone.lexical hts)
    exact ⟨mid, .more hone hmore, hlast⟩

end Repetition

/-! ## Names -/

theorem sound_commas {p : Parse Unit} {f : Form}
    (hp : ∀ {ts u us es}, Lexical ts → Reads Faultless speller p ts u us es → Matches n f ts us)
    (hts : Lexical ts) (h : Reads Faultless speller (many (afterComma p)) ts u us es) :
    Matches n (.many (.row [.word ",", f])) ts us := by
  obtain ⟨mid, hmore, rfl⟩ : ∃ mid, Matches n (.many (.row [.word ",", f])) ts mid ∧
      mid = us := by
    refine sound_many hts (fun {ts mid es} hts hturn => ?_) (fun {ts es} _ hturn => ?_) h
    · rcases reads_afterComma.mp hturn with ⟨t, start, rfl, ht, hread, -⟩ | ⟨-, hmore, -⟩
      · exact .wordThen ht (hp hts.tail hread)
      · cases hmore
    · rcases reads_afterComma.mp hturn with ⟨t, mid, -, -, -, hmore⟩ | ⟨-, -, hus, -⟩
      · cases hmore
      · exact hus.symm
  exact hmore

theorem sound_discard_name (h : Reads Faultless speller (discard name) ts u us es) :
    Matches n .name ts us := by
  obtain ⟨text, h⟩ := reads_discard.mp h
  obtain ⟨t, rfl, ht, -, -⟩ := reads_name.mp h
  exact .ofKind ht

/-- What a list of names leaves: a comma and `...` behind it are read, too. -/
def Names.Leaves (ns : Names) (mid us : List Token) : Prop :=
  if ns.variadic then ∃ t u, mid = t :: u :: us ∧ t.text = "," ∧ u.text = "..." else mid = us

/-- One turn: a name is read behind its comma, or the list ends. -/
theorem sound_nextOpenName {ns : Names} {turn : Turn Names Names} (hns : ns.variadic = false)
    (h : Reads Faultless speller (nextOpenName ns) ts turn us es) :
    (∃ last, turn = .done last ∧ last.Leaves ts us) ∨
      ∃ next, turn = .again next ∧ next.variadic = false ∧
        Matches n (.row [.word ",", .name]) ts us := by
  rcases reads_accept_ite.mp h with ⟨t, rest, rfl, ht, h⟩ | ⟨-, h⟩
  · rcases reads_accept_ite.mp h with ⟨t', rest', rfl, ht', h⟩ | ⟨-, h⟩
    · obtain ⟨rfl, rfl, -⟩ := reads_pure.mp h
      exact .inl ⟨_, rfl, t, t', rfl, ht, ht'⟩
    · obtain ⟨t', start, rfl, ht', hpure⟩ := reads_name_bind.mp h
      obtain ⟨rfl, rfl, -⟩ := reads_pure.mp hpure
      exact .inr ⟨_, rfl, rfl, .wordThen ht (.ofKind ht')⟩
  · obtain ⟨rfl, rfl, -⟩ := reads_pure.mp h
    exact .inl ⟨_, rfl, by simp [Names.Leaves, hns]⟩

theorem sound_openNames {ns : Names} (h : Reads Faultless speller openNames ts ns us es) :
    ∃ mid, Matches n (Form.commaList .name) ts mid ∧ ns.Leaves mid us := by
  obtain ⟨t, start, rfl, ht, hloop⟩ := reads_name_bind.mp h
  obtain ⟨mid, hmore, hleaves⟩ : ∃ mid,
      Matches n (.many (.row [.word ",", .name])) start mid ∧ ns.Leaves mid us := by
    refine sound_loop (I := fun sofar _ => sofar.variadic = false) (fun hsofar hturn => ?_)
      (fun hsofar hturn => ?_) rfl hloop
    · rcases sound_nextOpenName (n := n) hsofar hturn with ⟨_, heq, -⟩ | ⟨_, heq, hnext, hname⟩
      · cases heq
      · cases heq
        exact ⟨hname, hnext⟩
    · rcases sound_nextOpenName (n := n) hsofar hturn with ⟨_, heq, hleaves⟩ | ⟨_, heq, -⟩
      · cases heq
        exact hleaves
      · cases heq
  exact ⟨mid, .kindThen ht hmore, hleaves⟩

/-- One turn: a part of the name is read behind its point, or the parts end. -/
theorem sound_nextNamePart {path : String} {turn : Turn String String}
    (h : Reads Faultless speller (nextNamePart path) ts turn us es) :
    (∃ last, turn = .done last ∧ ts = us) ∨
      ∃ next, turn = .again next ∧ Matches n (.row [.word ".", .name]) ts us := by
  rcases reads_accept_ite.mp h with ⟨t, rest, rfl, ht, h⟩ | ⟨-, h⟩
  · obtain ⟨t', start, rfl, ht', hpure⟩ := reads_name_bind.mp h
    obtain ⟨rfl, rfl, -⟩ := reads_pure.mp hpure
    exact .inr ⟨_, rfl, .wordThen ht (.ofKind ht')⟩
  · obtain ⟨rfl, rfl, -⟩ := reads_pure.mp h
    exact .inl ⟨_, rfl, rfl⟩

theorem sound_functionName {path : String}
    (h : Reads Faultless speller functionName ts path us es) :
    Matches n .functionName ts us := by
  obtain ⟨t, start, rfl, ht, h⟩ := reads_name_bind.mp h
  obtain ⟨parts, mid, _, _, hloop, hmethod, -⟩ := reads_bind.mp h
  obtain ⟨_, hparts, rfl⟩ : ∃ last, Matches n (.many (.row [.word ".", .name])) start last ∧
      last = mid := by
    refine sound_loop (I := fun _ _ => True) (fun _ hturn => ?_) (fun _ hturn => ?_) trivial hloop
    · rcases sound_nextNamePart (n := n) hturn with ⟨_, heq, -⟩ | ⟨_, heq, hpart⟩
      · cases heq
      · exact ⟨hpart, trivial⟩
    · rcases sound_nextNamePart (n := n) hturn with ⟨_, heq, hend⟩ | ⟨_, heq, -⟩
      · exact hend
      · cases heq
  refine .kindThen ht (hparts.andThen ?_)
  rcases reads_accept_ite.mp hmethod with ⟨t, rest, rfl, ht, h⟩ | ⟨-, h⟩
  · obtain ⟨t', rest', rfl, ht', hpure⟩ := reads_name_bind.mp h
    obtain ⟨-, rfl, -⟩ := reads_pure.mp hpure
    exact .left (.wordThen ht (.ofKind ht'))
  · obtain ⟨-, rfl, -⟩ := reads_pure.mp h
    exact .right .empty

/-! ## Functions -/

/-- What the parses one level further in read has a derivation. -/
structure Nested.Sound (speller : Speller) (n : Nat) (inner : Nested) : Prop where
  exp : ∀ {ts u us es}, Lexical ts → Reads Faultless speller inner.exp ts u us es →
    Matches n .exp ts us
  chunk : ∀ {closers ts closed us es}, Lexical ts →
    Reads Faultless speller (inner.chunk closers) ts closed us es →
    ∃ mid, Matches n .chunk ts mid ∧ ClosedBy closers closed mid us

theorem sound_parameters (h : Reads Faultless speller parameters ts u us es) :
    Matches n .parameters ts us := by
  rw [parameters_eq] at h
  rcases reads_accept_ite.mp h with ⟨t, rest, rfl, ht, h⟩ | ⟨-, h⟩
  · obtain ⟨rfl, -⟩ := reads_record.mp h
    exact .left (.left (.word ht))
  · obtain ⟨names, rest, _, _, hnames, h, -⟩ := reads_bind.mp h
    obtain ⟨rfl, -⟩ := reads_record.mp h
    obtain ⟨mid, hmid, hleaves⟩ := sound_openNames (n := n) hnames
    refine .left (.right (hmid.andThen ?_))
    unfold Names.Leaves at hleaves
    split at hleaves
    · obtain ⟨t, t', rfl, ht, ht'⟩ := hleaves
      exact .left (.wordThen ht (.word ht'))
    · subst hleaves
      exact .right .empty

theorem sound_parentheses (h : Reads Faultless speller parentheses ts u us es) :
    ∃ opening inside closing, ts = opening :: (inside ++ closing :: us) ∧ opening.text = "(" ∧
      Matches n .parameters (inside ++ closing :: us) (closing :: us) ∧ closing.text = ")" := by
  obtain ⟨opening, rest, rfl, hopening, h⟩ := reads_demandInHeader_bind.mp h
  rcases reads_accept_ite.mp h with ⟨closing, rest', rfl, hclosing, h⟩ | ⟨-, h⟩
  · obtain ⟨-, rfl, -⟩ := reads_pure.mp h
    exact ⟨opening, [], closing, rfl, hopening, .right .empty, hclosing⟩
  · obtain ⟨_, mid, _, _, hinside, h, -⟩ := reads_bind.mp h
    obtain ⟨closing, rfl, hclosing, -⟩ := reads_demandInHeader.mp h
    have hmatches := sound_parameters (n := n) hinside
    obtain ⟨hs, hd⟩ := hmatches
    obtain ⟨inside, rfl⟩ := hd.suffix
    exact ⟨opening, inside, closing, rfl, hopening, ⟨hs, hd⟩, hclosing⟩

section Nested

variable (hi : inner.Sound speller n)

include hi

theorem sound_untilEnd (hts : Lexical ts)
    (h : Reads Faultless speller (discard (inner.chunk [.endWord])) ts u us es) :
    Matches n (.row [.chunk, .word "end"]) ts us := by
  obtain ⟨closed, h⟩ := reads_discard.mp h
  obtain ⟨mid, hmid, hclosed⟩ := hi.chunk hts h
  cases closed with
  | some word =>
    obtain ⟨hword, t, rfl, ht⟩ := hclosed
    cases List.mem_singleton.mp hword
    exact hmid.andThen (.word ht)
  | none => cases hclosed.1

theorem sound_functionBody {name : Form} {path : String} {start : List Token}
    (hname : Matches n name start ts) (hflat : name.isFlat = true) (hts : Lexical ts)
    (h : Reads Faultless speller (functionBody inner path) ts u us es) :
    Matches n (Form.functionBody name) start us := by
  obtain ⟨_, mid, _, _, hrecord, hrest, -⟩ := reads_bind.mp h
  obtain ⟨rfl, -⟩ := reads_record.mp hrecord
  obtain ⟨_, mid', _, _, hparentheses, hbody, -⟩ := reads_bind.mp hrest
  obtain ⟨opening, inside, closing, rfl, hopening, ⟨is, hinside⟩, hclosing⟩ :=
    sound_parentheses (n := n) hparentheses
  obtain ⟨hs, hname⟩ := hname
  obtain ⟨path, rfl⟩ := hname.suffix
  cases hname.eq_nil_of_isFlat hflat
  cases hinside.eq_nil_of_isFlat rfl
  have hheader : Matches n (.header name) (path ++ opening :: (inside ++ closing :: mid')) mid' :=
    ⟨_, .header hname hopening hinside hclosing⟩
  exact hheader.andThen (sound_untilEnd hi (hinside.lexical hts.tail).tail hbody)

/-! ## Tables and calls -/

theorem sound_expList (hts : Lexical ts) (h : Reads Faultless speller (expList inner) ts u us es) :
    Matches n (Form.commaList .exp) ts us := by
  obtain ⟨_, mid, _, _, hexp, hmany, -⟩ := reads_bind.mp h
  have hfirst := hi.exp hts hexp
  exact hfirst.andThen (sound_commas hi.exp (hfirst.lexical hts) hmany)

theorem sound_field (hts : Lexical ts) (h : Reads Faultless speller (field inner) ts u us es) :
    Matches n .field ts us := by
  rcases reads_accept_ite.mp h with ⟨opening, rest, rfl, hopening, h⟩ | ⟨-, h⟩
  · obtain ⟨_, mid, _, _, hkey, h, -⟩ := reads_bind.mp h
    have hkey := hi.exp hts.tail hkey
    obtain ⟨closing, mid, rfl, hclosing, h⟩ := reads_demand_bind.mp h
    obtain ⟨equals, mid, rfl, hequals, hvalue⟩ := reads_demand_bind.mp h
    have hvalue := hi.exp (hkey.lexical hts.tail).tail.tail hvalue
    exact .left (.wordThen hopening (hkey.andThen (.wordThen hclosing (.wordThen hequals hvalue))))
  · rcases reads_look_ite.mp h with ⟨hnamed, h⟩ | ⟨-, h⟩
    · rcases ts with _ | ⟨t, ts⟩
      · cases hnamed
      rcases ts with _ | ⟨equals, ts⟩
      · simp [seesNamedField, next?_ofList_cons] at hnamed
      simp only [seesNamedField, next?_ofList_cons, Bool.and_eq_true, seesKind_ofList_cons,
        List.head?_cons, Option.map_some, Option.some.injEq, decide_eq_true_eq] at hnamed
      have hvalue := hi.exp hts.tail.tail (reads_advance_bind.mp (reads_advance_bind.mp h))
      exact .right (.left (.kindThen hnamed.1 (.wordThen hnamed.2 hvalue)))
    · exact .right (.right (hi.exp hts h))

/-- One turn: a field is read behind its separator, or the last separator, if there is one. -/
theorem sound_nextField {more : Bool} (hts : Lexical ts)
    (h : Reads Faultless speller (nextField inner) ts more us es) :
    if more then Matches n (.row [.fieldSeparator, .field]) ts us
    else Matches n (.maybe .fieldSeparator) ts us := by
  rcases reads_acceptAny_ite.mp h with ⟨t, rest, rfl, ht, h⟩ | ⟨-, h⟩
  · rcases reads_look_ite.mp h with ⟨-, h⟩ | ⟨-, h⟩
    · obtain ⟨rfl, rfl, -⟩ := reads_pure.mp h
      exact .left (.oneOf ht)
    · obtain ⟨_, _, _, _, hfield, hpure, -⟩ := reads_bind.mp h
      obtain ⟨rfl, rfl, -⟩ := reads_pure.mp hpure
      exact .oneThen ht (sound_field hi hts.tail hfield)
  · obtain ⟨rfl, rfl, -⟩ := reads_pure.mp h
    exact .right .empty

theorem sound_table {t : Token} (ht : t.text = "\x7b") (hts : Lexical ts)
    (h : Reads Faultless speller (table inner) ts u us es) : Matches n .table (t :: ts) us := by
  refine .wordThen ht ?_
  rcases reads_accept_ite.mp h with ⟨closing, rest, rfl, hclosing, h⟩ | ⟨-, h⟩
  · obtain ⟨-, rfl, -⟩ := reads_pure.mp h
    exact Matches.andThen (.right .empty) (.word hclosing)
  · obtain ⟨_, mid, _, _, hfirst, h, -⟩ := reads_bind.mp h
    obtain ⟨_, last, _, _, hmore, h, -⟩ := reads_bind.mp h
    obtain ⟨closing, rfl, hclosing, -⟩ := reads_demand.mp h
    have hfirst := sound_field hi hts hfirst
    -- The last separator, if there is one, is read by the turn that ends the repetition.
    obtain ⟨mid', hmore, hlast⟩ : ∃ mid', Matches n
        (.many (.row [.fieldSeparator, .field])) mid mid' ∧
        Matches n (.maybe .fieldSeparator) mid' (closing :: us) :=
      sound_many (hfirst.lexical hts) (fun hts hturn => sound_nextField hi hts hturn)
        (fun hts hturn => sound_nextField hi hts hturn) hmore
    exact Matches.andThen (.left (hfirst.andThen (hmore.andThen hlast))) (.word hclosing)

theorem sound_index (hts : Lexical ts) (hindex : (Cursor.ofList ts).seesAny indexStarts = true)
    (h : Reads Faultless speller (index inner) ts u us es) : Matches n .index ts us := by
  rcases reads_accept_ite.mp h with ⟨t, rest, rfl, ht, h⟩ | ⟨hpoint, h⟩
  · exact .left (.wordThen ht (sound_discard_name h))
  rcases reads_accept_ite.mp h with ⟨opening, rest, rfl, hopening, h⟩ | ⟨hbracket, -⟩
  · obtain ⟨_, mid, _, _, hkey, h, -⟩ := reads_bind.mp h
    obtain ⟨closing, rfl, hclosing, -⟩ := reads_demand.mp h
    exact .right (.wordThen hopening ((hi.exp hts.tail hkey).andThen (.word hclosing)))
  · cases ts with
    | nil => cases hindex
    | cons t ts =>
      have hmem := (seesAny_ofList_cons _ _ _).mp hindex
      simp only [indexStarts, List.mem_cons, List.not_mem_nil, or_false] at hmem
      rcases hmem with ht | ht
      · exact absurd (List.mem_singleton.mpr ht) (avoids_cons.mp hbracket)
      · exact absurd (List.mem_singleton.mpr ht) (avoids_cons.mp hpoint)

theorem sound_arguments (hts : Lexical ts)
    (h : Reads Faultless speller (arguments inner) ts u us es) :
    Matches n .arguments ts us := by
  rcases reads_acceptKind_ite.mp h with ⟨t, rest, rfl, ht, h⟩ | ⟨-, h⟩
  · obtain ⟨-, rfl, -⟩ := reads_pure.mp h
    exact .left (.ofKind ht)
  rcases reads_accept_ite.mp h with ⟨opening, rest, rfl, hopening, h⟩ | ⟨-, h⟩
  · refine .right (.left (.wordThen hopening ?_))
    rcases reads_accept_ite.mp h with ⟨closing, rest', rfl, hclosing, h⟩ | ⟨-, h⟩
    · obtain ⟨-, rfl, -⟩ := reads_pure.mp h
      exact Matches.andThen (.right .empty) (.word hclosing)
    · obtain ⟨_, mid, _, _, hlist, h, -⟩ := reads_bind.mp h
      obtain ⟨closing, rfl, hclosing, -⟩ := reads_demand.mp h
      exact Matches.andThen (.left (sound_expList hi hts.tail hlist)) (.word hclosing)
  rcases reads_accept_ite.mp h with ⟨opening, rest, rfl, hopening, h⟩ | ⟨-, h⟩
  · exact .right (.right (sound_table hi hopening hts.tail h))
  · exact absurd h not_reads_unexpected

theorem sound_call (hts : Lexical ts) (h : Reads Faultless speller (call inner) ts u us es) :
    Matches n .call ts us := by
  obtain ⟨_, mid, _, _, hmethod, harguments, -⟩ := reads_bind.mp h
  rcases reads_accept_ite.mp hmethod with ⟨t, rest, rfl, ht, h⟩ | ⟨-, h⟩
  · have hname := sound_discard_name (n := n) h
    have hcolon : Matches n (.row [.word ":", .name]) (t :: rest) mid := .wordThen ht hname
    exact Matches.andThen (.left hcolon) (sound_arguments hi (hcolon.lexical hts) harguments)
  · obtain ⟨-, rfl, -⟩ := reads_pure.mp h
    exact Matches.andThen (.right .empty) (sound_arguments hi hts harguments)

/-! ## Variables and calls -/

/-- One turn: an index or a call is read, or what comes next starts none. -/
theorem sound_nextSuffix {indexed : Bool} {turn : Turn Bool Bool} (hts : Lexical ts)
    (h : Reads Faultless speller (nextSuffix inner indexed) ts turn us es) :
    (turn = .done indexed ∧ us = ts ∧ startsSuffix ts.head? = false) ∨
      ∃ isIndex, turn = .again isIndex ∧ Matches n (if isIndex then .index else .call) ts us := by
  rcases reads_look_ite.mp h with ⟨hindex, h⟩ | ⟨hindex, h⟩
  · obtain ⟨_, _, _, _, hread, hpure, -⟩ := reads_bind.mp h
    obtain ⟨rfl, rfl, -⟩ := reads_pure.mp hpure
    exact .inr ⟨true, rfl, sound_index hi hts hindex hread⟩
  rcases reads_look_ite.mp h with ⟨-, h⟩ | ⟨hcall, h⟩
  · obtain ⟨_, _, _, _, hread, hpure, -⟩ := reads_bind.mp h
    obtain ⟨rfl, rfl, -⟩ := reads_pure.mp hpure
    exact .inr ⟨false, rfl, sound_call hi hts hread⟩
  · obtain ⟨rfl, rfl, -⟩ := reads_pure.mp h
    refine .inl ⟨rfl, rfl, ?_⟩
    cases us with
    | nil => rfl
    | cons t us =>
      simp only [Bool.or_eq_false_iff] at hcall
      have hkind := mt (seesKind_ofList_cons _ _ _).mpr (ne_true_of_eq_false hcall.2)
      have hindex := mt (seesAny_ofList_cons _ _ _).mpr (ne_true_of_eq_false hindex)
      have hcall := mt (seesAny_ofList_cons _ _ _).mpr (ne_true_of_eq_false hcall.1)
      simp [startsSuffix, hkind, hindex, hcall]

theorem sound_suffixes {indexed assignable : Bool} (hts : Lexical ts)
    (h : Reads Faultless speller (loop (nextSuffix inner) indexed) ts assignable us es) :
    startsSuffix us.head? = false ∧ ((us = ts ∧ assignable = indexed) ∨ ∃ mid,
      Matches n .suffixes ts mid ∧ Matches n (if assignable then .index else .call) mid us) := by
  refine h.loop_induction (motive := fun indexed ts => Lexical ts → startsSuffix us.head? = false ∧
    ((us = ts ∧ assignable = indexed) ∨ ∃ mid,
      Matches n .suffixes ts mid ∧ Matches n (if assignable then .index else .call) mid us))
      ?_ ?_ hts
  · intro indexed ts es hturn hts
    rcases sound_nextSuffix hi hts hturn with ⟨heq, rfl, hend⟩ | ⟨_, heq, -⟩
    · cases heq
      exact ⟨hend, .inl ⟨rfl, rfl⟩⟩
    · cases heq
  · intro indexed indexed' ts rest es hturn ih hts
    rcases sound_nextSuffix hi hts hturn with ⟨heq, -⟩ | ⟨isIndex, heq, hone⟩
    · cases heq
    cases heq
    have heither : Matches n (.either .index .call) ts rest := by
      cases indexed' with
      | true => exact .left hone
      | false => exact .right hone
    obtain ⟨hend, ⟨rfl, rfl⟩ | ⟨mid, hmid, hlast⟩⟩ := ih (heither.lexical hts)
    · exact ⟨hend, .inr ⟨ts, .none, hone⟩⟩
    · exact ⟨hend, .inr ⟨mid, .more heither hmid, hlast⟩⟩

theorem sound_suffixedHead {start : List Token} {l : Head} (hts : Lexical ts)
    (hprimary : Matches n .primary start ts) (hsuffix : startsSuffix ts.head? = true)
    (h : Reads Faultless speller (suffixedHead inner) ts l us es) :
    (l = .variable ∧ Matches n (.whole .var) start us) ∨
      (l = .other ∧ Matches n (.whole .functionCall) start us) := by
  obtain ⟨assignable, mid, _, _, hloop, hpure, -⟩ := reads_bind.mp h
  obtain ⟨rfl, rfl, -⟩ := reads_pure.mp hpure
  obtain ⟨hend, ⟨rfl, -⟩ | ⟨mid, hmid, hlast⟩⟩ := sound_suffixes hi hts hloop
  · rw [hend] at hsuffix
    cases hsuffix
  cases assignable with
  | true => exact .inl ⟨rfl, .whole (.right (hprimary.andThen (hmid.andThen hlast))) hend⟩
  | false => exact .inr ⟨rfl, .whole (hprimary.andThen (hmid.andThen hlast)) hend⟩

omit hi in
theorem Matches.prefixExp_of_var (h : Matches n (.whole .var) ts us) :
    Matches n (.whole .prefixExp) ts us := by
  obtain ⟨hs, h⟩ := h
  obtain ⟨h, hend⟩ := derives_whole.mp h
  rcases derives_either.mp h with h | h
  · exact .whole (Matches.andThen ⟨_, .left h⟩ .none) hend
  · obtain ⟨mid, is, _, hprimary, h, -⟩ := derives_andThen.mp h
    obtain ⟨mid', js, ks, hmid, hlast, -⟩ := derives_andThen.mp h
    exact .whole (Matches.andThen ⟨is, hprimary⟩ ⟨_, hmid.many_concat (.left hlast)⟩) hend

omit hi in
theorem Matches.prefixExp_of_functionCall (h : Matches n (.whole .functionCall) ts us) :
    Matches n (.whole .prefixExp) ts us := by
  obtain ⟨hs, h⟩ := h
  obtain ⟨h, hend⟩ := derives_whole.mp h
  obtain ⟨mid, is, _, hprimary, h, -⟩ := derives_andThen.mp h
  obtain ⟨mid', js, ks, hmid, hlast, -⟩ := derives_andThen.mp h
  exact .whole (Matches.andThen ⟨is, hprimary⟩ ⟨_, hmid.many_concat (.right hlast)⟩) hend

theorem sound_primary (hts : Lexical ts) (h : Reads Faultless speller (primary inner) ts u us es) :
    Matches n .primary ts us := by
  rcases reads_accept_ite.mp h with ⟨opening, rest, rfl, hopening, h⟩ | ⟨-, h⟩
  · obtain ⟨_, mid, _, _, hexp, h, -⟩ := reads_bind.mp h
    obtain ⟨closing, rfl, hclosing, -⟩ := reads_demand.mp h
    exact .right (.wordThen hopening ((hi.exp hts.tail hexp).andThen (.word hclosing)))
  · exact .left (sound_discard_name h)

omit hi in
theorem not_reads_misspeltHead {closers : List Closer} {l : Head} :
    ¬ Reads Faultless speller (misspeltHead closers) ts l us es := by
  intro h
  obtain ⟨found, h⟩ := Reads.of_closest_bind h
  cases found with
  | some word => exact not_reads_record_bind (fun _ => not_faultless rfl) h
  | none =>
    obtain ⟨found, h⟩ := Reads.of_closest_bind h
    cases found with
    | some word => exact not_reads_record_bind (fun _ => not_faultless rfl) h
    | none =>
      obtain ⟨_, mid, _, _, -, h, -⟩ := reads_bind.mp h
      exact not_reads_unexpected_bind h

/-- What a parse of a variable or a call found, by where it stands. -/
def Head.Fits (n : Nat) (position : Position) (l : Head) (ts us : List Token) : Prop :=
  match position with
  | .operand => Matches n (.whole .prefixExp) ts us
  | .statement _ => (l = .variable ∧ Matches n (.whole .var) ts us) ∨
      (l = .other ∧ Matches n (.whole .functionCall) ts us)

omit hi in
theorem Head.fits_of_suffixed {position : Position} {l : Head}
    (h : (l = .variable ∧ Matches n (.whole .var) ts us) ∨
      (l = .other ∧ Matches n (.whole .functionCall) ts us)) : l.Fits n position ts us := by
  cases position with
  | statement closers => exact h
  | operand =>
    rcases h with ⟨-, h⟩ | ⟨-, h⟩
    · exact h.prefixExp_of_var
    · exact h.prefixExp_of_functionCall

theorem sound_namedHead {t : Token} {position : Position} {l : Head} (ht : t.kind = .name)
    (hts : Lexical (t :: ts))
    (h : Reads Faultless speller (namedHead inner position) (t :: ts) l us es) :
    l.Fits n position (t :: ts) us := by
  have hname {ts : List Token} : Matches n .name (t :: ts) ts := .ofKind ht
  rcases reads_look_ite.mp h with ⟨htarget, h⟩ | ⟨-, h⟩
  · have hpure := reads_advance_bind.mp h
    obtain ⟨rfl, rfl, -⟩ := reads_pure.mp hpure
    have hend := startsSuffix_of_seesTarget hts.tail htarget
    have hvar : Matches n (.whole .var) (t :: us) us := .whole (.left hname) hend
    exact Head.fits_of_suffixed (.inl ⟨rfl, hvar⟩)
  rcases reads_look_ite.mp h with ⟨hsuffix, h⟩ | ⟨hend, h⟩
  · rw [next?_ofList_cons] at hsuffix
    obtain ⟨_, mid, _, _, hprimary, hrest, -⟩ := reads_bind.mp h
    -- The token is a name, so the primary expression is the name alone.
    obtain rfl : mid = ts := by
      rcases reads_accept_ite.mp hprimary with ⟨t', rest, heq, hopening, -⟩ | ⟨-, hname⟩
      · cases heq
        exact absurd hopening (hts.head.text_ne ht rfl (by decide))
      · obtain ⟨text, hname⟩ := reads_discard.mp hname
        obtain ⟨t', heq, -, -⟩ := reads_name.mp hname
        cases heq
        rfl
    exact Head.fits_of_suffixed (sound_suffixedHead hi hts.tail (.left hname) hsuffix hrest)
  · rw [next?_ofList_cons] at hend
    cases position with
    | statement closers => exact absurd h not_reads_misspeltHead
    | operand =>
      have hpure := reads_advance_bind.mp h
      obtain ⟨-, rfl, -⟩ := reads_pure.mp hpure
      exact Matches.whole (Matches.andThen (.left hname) .none) hend

theorem sound_head {position : Position} {l : Head} (hts : Lexical ts)
    (h : Reads Faultless speller (head inner position) ts l us es) : l.Fits n position ts us := by
  rcases reads_look_ite.mp h with ⟨hkind, h⟩ | ⟨-, h⟩
  · cases ts with
    | nil => cases hkind
    | cons t ts => exact sound_namedHead hi ((seesKind_ofList_cons _ _ _).mp hkind) hts h
  rcases reads_look_ite.mp h with ⟨-, h⟩ | ⟨-, h⟩
  · obtain ⟨_, mid, _, _, hprimary, hrest, -⟩ := reads_bind.mp h
    have hprimary := sound_primary hi hts hprimary
    rcases reads_look_ite.mp hrest with ⟨hsuffix, h⟩ | ⟨hend, h⟩
    · exact Head.fits_of_suffixed (sound_suffixedHead hi (hprimary.lexical hts) hprimary hsuffix h)
    · cases position with
      | statement closers => exact absurd h not_reads_unexpected_bind
      | operand =>
        obtain ⟨-, rfl, -⟩ := reads_pure.mp h
        exact Matches.whole (hprimary.andThen .none) hend
  · exact absurd h not_reads_unexpected_bind

/-! ## Operands and operators -/

theorem sound_operand (hts : Lexical ts) (h : Reads Faultless speller (operand inner) ts u us es) :
    Matches n .value ts us := by
  rw [operand_eq] at h
  rcases reads_acceptAny_ite.mp h with ⟨t, rest, rfl, ht, h⟩ | ⟨-, h⟩
  · obtain ⟨-, rfl, -⟩ := reads_pure.mp h
    exact .left (.oneOf ht)
  rcases reads_acceptKind_ite.mp h with ⟨t, rest, rfl, ht, h⟩ | ⟨-, h⟩
  · obtain ⟨-, rfl, -⟩ := reads_pure.mp h
    exact .right (.left (.ofKind ht))
  rcases reads_acceptKind_ite.mp h with ⟨t, rest, rfl, ht, h⟩ | ⟨-, h⟩
  · obtain ⟨-, rfl, -⟩ := reads_pure.mp h
    exact .right (.right (.left (.ofKind ht)))
  rcases reads_accept_ite.mp h with ⟨t, rest, rfl, ht, h⟩ | ⟨-, h⟩
  · have hbody := sound_functionBody hi .empty rfl hts.tail h
    exact .right (.right (.right (.left (.wordThen ht hbody))))
  rcases reads_accept_ite.mp h with ⟨t, rest, rfl, ht, h⟩ | ⟨-, h⟩
  · exact .right (.right (.right (.right (.left (sound_table hi ht hts.tail h)))))
  · obtain ⟨l, h⟩ := reads_discard.mp h
    exact .right (.right (.right (.right (.right (sound_head hi hts h)))))

theorem sound_operandStep {more : Bool} (hts : Lexical ts)
    (h : Reads Faultless speller (operandStep inner) ts more us es) :
    ∃ mid, Matches n .operand ts mid ∧
      if more then ∃ t, mid = t :: us ∧ t.text ∈ binaryOperators else mid = us := by
  obtain ⟨_, start, _, _, hsigns, h, -⟩ := reads_bind.mp h
  obtain ⟨_, mid, _, _, hvalue, h, -⟩ := reads_bind.mp h
  have hsigns : Matches n (.many (.oneOf unaryOperators)) ts start := by
    obtain ⟨_, hmany, rfl⟩ : ∃ last, Matches n (.many (.oneOf unaryOperators)) ts last ∧
        last = start := by
      refine sound_many hts (fun {ts mid es} _ hturn => ?_) (fun {ts es} _ hturn => ?_) hsigns
      · rcases reads_acceptAny.mp hturn with ⟨t, rfl, ht, -, -⟩ | ⟨-, hfalse, -⟩
        · exact .oneOf ht
        · cases hfalse
      · rcases reads_acceptAny.mp hturn with ⟨t, -, -, hfalse, -⟩ | ⟨-, -, hend, -⟩
        · cases hfalse
        · exact hend.symm
    exact hmany
  have hvalue := sound_operand hi (hsigns.lexical hts) hvalue
  refine ⟨mid, hsigns.andThen hvalue, ?_⟩
  rcases reads_acceptAny.mp h with ⟨t, rfl, ht, rfl, -⟩ | ⟨-, rfl, rfl, -⟩
  · exact ⟨t, rfl, ht⟩
  · rfl

theorem sound_operandChain (hts : Lexical ts)
    (h : Reads Faultless speller (operandChain inner) ts u us es) : Matches n .operands ts us := by
  obtain ⟨mid, hfirst, hmore⟩ : ∃ mid, Matches n .operand ts mid ∧
      Matches n (.many (.row [.oneOf binaryOperators, .operand])) mid us := by
    refine h.many_induction (motive := fun ts => Lexical ts → ∃ mid,
      Matches n .operand ts mid ∧ Matches n _ mid us) ?_ ?_ hts
    · intro ts es hturn hts
      obtain ⟨mid, hoperand, rfl⟩ := sound_operandStep hi hts hturn
      exact ⟨_, hoperand, .none⟩
    · intro ts rest es hturn ih hts
      obtain ⟨mid, hoperand, t, rfl, ht⟩ := sound_operandStep hi hts hturn
      obtain ⟨mid, hnext, hmore⟩ := ih (hoperand.lexical hts).tail
      exact ⟨_, hoperand, .more (.oneThen ht hnext) hmore⟩
  exact hfirst.andThen hmore

/-! ## Statements -/

theorem sound_chunk {closers : List Closer} {closed : Option Closer} (hts : Lexical ts)
    (h : Reads Faultless speller (inner.chunk closers) ts closed us es) : ∃ mid,
    Matches n .chunk ts mid ∧ ClosedBy closers closed mid us ∧ Lexical mid ∧ Lexical us := by
  obtain ⟨mid, hmid, hclosed⟩ := hi.chunk hts h
  have hlexical := hmid.lexical hts
  exact ⟨mid, hmid, hclosed, hlexical, hclosed.lexical hlexical⟩

/-- One turn: behind `elseif` a branch is read up to its closing word, or the word that closed
the last branch is another one. -/
theorem sound_nextBranch {closed : Option Closer} {turn : Turn (Option Closer) (Option Closer)}
    {mid : List Token} (hclosed : ClosedBy Closer.branch closed mid ts) (hts : Lexical ts)
    (h : Reads Faultless speller (nextBranch inner closed) ts turn us es) :
    (turn = .done closed ∧ us = ts ∧ closed ≠ some .elseifWord) ∨
      ∃ next tail, turn = .again next ∧
        Matches n (.row [.word "elseif", .exp, .word "then", .chunk]) mid tail ∧
        ClosedBy Closer.branch next tail us ∧ Lexical us := by
  unfold nextBranch at h
  split at h
  · rename_i heq
    subst heq
    obtain ⟨-, t, rfl, ht⟩ := hclosed
    obtain ⟨_, start, _, _, hexp, hrest, -⟩ := reads_bind.mp h
    have hexp := hi.exp hts hexp
    obtain ⟨thenWord, start, rfl, hthen, hrest⟩ := reads_demand_bind.mp hrest
    obtain ⟨next, rest, _, _, hchunk, hpure, -⟩ := reads_bind.mp hrest
    obtain ⟨rfl, rfl, -⟩ := reads_pure.mp hpure
    obtain ⟨tail, htail, hnext, -, hus⟩ := sound_chunk hi (hexp.lexical hts).tail hchunk
    exact .inr ⟨next, tail, rfl, .wordThen ht (hexp.andThen (.wordThen hthen htail)), hnext, hus⟩
  · rename_i hne
    obtain ⟨rfl, rfl, -⟩ := reads_pure.mp h
    exact .inl ⟨rfl, rfl, hne⟩

theorem sound_branches {closed last : Option Closer} {mid : List Token}
    (hclosed : ClosedBy Closer.branch closed mid ts) (hts : Lexical ts)
    (h : Reads Faultless speller (loop (nextBranch inner) closed) ts last us es) :
    ∃ tail, Matches n (.many (.row [.word "elseif", .exp, .word "then", .chunk])) mid tail ∧
      ClosedBy Closer.branch last tail us ∧ last ≠ some .elseifWord ∧ Lexical us := by
  refine h.loop_induction (motive := fun closed ts => ∀ mid,
    ClosedBy Closer.branch closed mid ts → Lexical ts → ∃ tail, Matches n _ mid tail ∧
      ClosedBy Closer.branch last tail us ∧ last ≠ some .elseifWord ∧ Lexical us) ?_ ?_ mid hclosed
    hts
  · intro closed ts es hturn mid hclosed hts
    rcases sound_nextBranch hi hclosed hts hturn with ⟨heq, rfl, hne⟩ | ⟨_, _, heq, -⟩
    · cases heq
      exact ⟨mid, .none, hclosed, hne, hts⟩
    · cases heq
  · intro closed closed' ts rest es hturn ih mid hclosed hts
    rcases sound_nextBranch hi hclosed hts hturn with ⟨heq, -⟩ | ⟨_, next, heq, hone, hnext, hrest⟩
    · cases heq
    · cases heq
      obtain ⟨tail, htail, hlast⟩ := ih next hnext hrest
      exact ⟨tail, .more hone htail, hlast⟩

theorem sound_ifStatement {t : Token} (ht : t.text = "if") (hts : Lexical ts)
    (h : Reads Faultless speller (ifStatement inner) ts u us es) :
    Matches n .ifStatement (t :: ts) us := by
  obtain ⟨_, start, _, _, hexp, hrest, -⟩ := reads_bind.mp h
  have hexp := hi.exp hts hexp
  obtain ⟨thenWord, start, rfl, hthen, hrest⟩ := reads_demand_bind.mp hrest
  obtain ⟨closed, rest, _, _, hchunk, hrest, -⟩ := reads_bind.mp hrest
  obtain ⟨mid, hmid, hclosed, -, hlexical⟩ := sound_chunk hi (hexp.lexical hts).tail hchunk
  obtain ⟨last, rest, _, _, hloop, hrest, -⟩ := reads_bind.mp hrest
  obtain ⟨tail, htail, hlast, hne, hlexical⟩ := sound_branches hi hclosed hlexical hloop
  refine .wordThen ht (hexp.andThen (.wordThen hthen (hmid.andThen (htail.andThen ?_))))
  cases last with
  | none => cases hlast.1
  | some word =>
    obtain ⟨hword, t, rfl, ht⟩ := hlast
    split at hrest
    · rename_i heq
      cases heq
      obtain ⟨hs, h⟩ := sound_untilEnd hi hlexical hrest
      obtain ⟨mid, is, js, hchunk, hend, -⟩ := derives_andThen.mp h
      exact Matches.andThen (.left (.wordThen ht ⟨is, hchunk⟩)) ⟨js, hend⟩
    · rename_i hnotElse
      obtain ⟨-, rfl, -⟩ := reads_pure.mp hrest
      simp only [Closer.branch, List.mem_cons, List.not_mem_nil, or_false] at hword
      rcases hword with rfl | rfl | rfl
      · exact absurd rfl hne
      · exact absurd rfl hnotElse
      · exact Matches.andThen (.right .empty) (.word ht)

theorem sound_forStatement {t : Token} (ht : t.text = "for") (hts : Lexical ts)
    (h : Reads Faultless speller (forStatement inner) ts u us es) :
    Matches n .forStatement (t :: ts) us := by
  obtain ⟨_, start, _, _, hname, hrest, -⟩ := reads_bind.mp h
  obtain ⟨text, hname⟩ := reads_discard.mp hname
  obtain ⟨v, rfl, hv, -, -⟩ := reads_name.mp hname
  -- Both kinds of range end with `do` and the block.
  have hbody {start : List Token} (hstart : Lexical start) {es : List Event}
      (h : Reads Faultless speller (do demand "do" .forLoop; untilEnd inner) start u us es) :
      Matches n (.row [.word "do", .chunk, .word "end"]) start us := by
    obtain ⟨t, rest, rfl, ht, h⟩ := reads_demand_bind.mp h
    exact .wordThen ht (sound_untilEnd hi hstart.tail h)
  refine .wordThen ht ?_
  rcases reads_accept_ite.mp hrest with ⟨equals, rest, rfl, hequals, hrest⟩ | ⟨-, hrest⟩
  · obtain ⟨_, mid, _, _, hrange, hrest, -⟩ := reads_bind.mp hrest
    obtain ⟨_, start, _, _, hfrom, hrange, -⟩ := reads_bind.mp hrange
    have hfrom := hi.exp hts.tail.tail hfrom
    obtain ⟨comma, start, rfl, hcomma, hrange⟩ := reads_demand_bind.mp hrange
    obtain ⟨_, start', _, _, hto, hrange, -⟩ := reads_bind.mp hrange
    have hto := hi.exp (hfrom.lexical hts.tail.tail).tail hto
    have hto' := hto.lexical (hfrom.lexical hts.tail.tail).tail
    have hstep : Matches n (.maybe (.row [.word ",", .exp])) start' mid := by
      rcases reads_accept_ite.mp hrange with ⟨comma, rest, rfl, hcomma, hstep⟩ | ⟨-, hnone⟩
      · exact .left (.wordThen hcomma (hi.exp hto'.tail hstep))
      · obtain ⟨-, rfl, -⟩ := reads_pure.mp hnone
        exact .right .empty
    refine Matches.andThen (.left ?_) (hbody (hstep.lexical hto') hrest)
    exact .kindThen hv (.wordThen hequals (hfrom.andThen (.wordThen hcomma (hto.andThen hstep))))
  · obtain ⟨_, mid, _, _, hrange, hrest, -⟩ := reads_bind.mp hrest
    obtain ⟨_, start', _, _, hnames, hrange, -⟩ := reads_bind.mp hrange
    have hnames := sound_commas (n := n) (fun _ => sound_discard_name) hts.tail hnames
    obtain ⟨inWord, start', rfl, hin, hlist⟩ := reads_demand_bind.mp hrange
    have hlist := sound_expList hi (hnames.lexical hts.tail).tail hlist
    have hstart := hlist.lexical (hnames.lexical hts.tail).tail
    refine Matches.andThen (.right ?_) (hbody hstart hrest)
    have hall : Matches n (Form.commaList .name) (v :: start) (inWord :: start') :=
      .kindThen hv hnames
    exact hall.andThen (.wordThen hin hlist)

theorem sound_localStatement {t : Token} (ht : t.text = "local") (hts : Lexical ts)
    (h : Reads Faultless speller (localStatement inner) ts u us es) :
    Matches n .localStatement (t :: ts) us := by
  refine .wordThen ht ?_
  rcases reads_accept_ite.mp h with ⟨t, rest, rfl, ht, hfunction⟩ | ⟨-, hlocal⟩
  · obtain ⟨v, rest', rfl, hv, hbody⟩ := reads_name_bind.mp hfunction
    have hname : Matches n .name (v :: rest') rest' := .ofKind hv
    exact .left (.wordThen ht (sound_functionBody hi hname rfl hts.tail.tail hbody))
  · obtain ⟨_, mid, _, _, hnames, hvalues, -⟩ := reads_bind.mp hlocal
    rw [localNames_eq] at hnames
    obtain ⟨names, rest, _, _, hlist, hrest, -⟩ := reads_bind.mp hnames
    obtain ⟨start, hstart, hleaves⟩ := sound_openNames (n := n) hlist
    unfold Names.Leaves at hleaves
    split at hrest
    · exact absurd hrest not_reads_unexpected
    · rename_i hclosed
      obtain ⟨-, rfl, -⟩ := reads_pure.mp hrest
      rw [if_neg hclosed] at hleaves
      subst hleaves
      refine .right (hstart.andThen ?_)
      rcases reads_accept_ite.mp hvalues with ⟨equals, rest, rfl, hequals, hlist⟩ | ⟨-, hnone⟩
      · exact .left (.wordThen hequals (sound_expList hi (hstart.lexical hts).tail hlist))
      · obtain ⟨-, rfl, -⟩ := reads_pure.mp hnone
        exact .right .empty

theorem sound_opened {word : Opener} {t : Token} (ht : t.text = word.text) (hts : Lexical ts)
    (h : Reads Faultless speller (opened inner word) ts u us es) :
    Matches n .statement (t :: ts) us := by
  cases word with
  | doWord => exact .right (.right (.left (.wordThen ht (sound_untilEnd hi hts h))))
  | whileWord =>
    obtain ⟨_, mid, _, _, hexp, hrest, -⟩ := reads_bind.mp h
    have hexp := hi.exp hts hexp
    obtain ⟨doWord, rest, rfl, hdo, hbody⟩ := reads_demand_bind.mp hrest
    have hbody := sound_untilEnd hi (hexp.lexical hts).tail hbody
    exact .right (.right (.right (.left (.wordThen ht (hexp.andThen (.wordThen hdo hbody))))))
  | repeatWord =>
    obtain ⟨_, mid, _, _, hdiscard, hexp, -⟩ := reads_bind.mp h
    obtain ⟨closed, hread⟩ := reads_discard.mp hdiscard
    obtain ⟨mid', hchunk, hclosed, -, hlexical⟩ := sound_chunk hi hts hread
    cases closed with
    | none => cases hclosed.1
    | some word =>
      obtain ⟨hword, untilWord, rfl, huntil⟩ := hclosed
      cases List.mem_singleton.mp hword
      have hexp := hi.exp hlexical hexp
      exact .right (.right (.right (.right (.left
        (.wordThen ht (hchunk.andThen (.wordThen huntil hexp)))))))
  | ifWord =>
    exact .right (.right (.right (.right (.right (.left (sound_ifStatement hi ht hts h))))))
  | forWord =>
    exact .right (.right (.right (.right (.right (.right (.left
      (sound_forStatement hi ht hts h)))))))
  | functionWord =>
    obtain ⟨path, mid, _, _, hname, hbody, -⟩ := reads_bind.mp h
    have hname := sound_functionName (n := n) hname
    have hbody := sound_functionBody hi hname rfl (hname.lexical hts) hbody
    exact .right (.right (.right (.right (.right (.right (.right (.left
      (.wordThen ht hbody))))))))
  | localWord =>
    exact .right (.right (.right (.right (.right (.right (.right (.right
      (sound_localStatement hi ht hts h))))))))

theorem sound_target (hts : Lexical ts) (h : Reads Faultless speller (target inner) ts u us es) :
    Matches n (.whole .var) ts us := by
  rw [target_eq] at h
  obtain ⟨l, mid, _, _, hhead, hrest, -⟩ := reads_bind.mp h
  rcases sound_head hi hts hhead with ⟨rfl, hvar⟩ | ⟨rfl, -⟩
  · obtain ⟨-, rfl, -⟩ := reads_pure.mp hrest
    exact hvar
  · exact absurd hrest not_reads_unexpected

theorem sound_assignment {start : List Token} (hvar : Matches n (.whole .var) start ts)
    (hts : Lexical ts) (h : Reads Faultless speller (assignment inner) ts u us es) :
    Matches n .assignment start us := by
  obtain ⟨_, mid, _, _, hmany, hrest, -⟩ := reads_bind.mp h
  have hmany := sound_commas (fun hts => sound_target hi hts) hts hmany
  have hall : Matches n (Form.commaList (.whole .var)) start mid := hvar.andThen hmany
  refine hall.andThen ?_
  rcases reads_accept_ite.mp hrest with ⟨equals, rest, rfl, hequals, hlist⟩ | ⟨-, hlack⟩
  · exact .wordThen hequals (sound_expList hi (hmany.lexical hts).tail hlist)
  · exact absurd hlack (not_reads_lackNoting fun _ _ => not_faultless rfl)

theorem sound_statementOrCloser {closers : List Closer} {closed : Option Closer} (hts : Lexical ts)
    (h : Reads Faultless speller (statementOrCloser inner closers) ts closed us es) :
    closed = none ∧ Matches n .statement ts us := by
  rcases reads_acceptOpener_bind.mp h with ⟨word, t, rest, rfl, ht, hopened⟩ | ⟨-, hrest⟩
  · obtain ⟨_, mid, _, _, hopened, hpure, -⟩ := reads_bind.mp hopened
    obtain ⟨rfl, rfl, -⟩ := reads_pure.mp hpure
    exact ⟨rfl, sound_opened hi ht hts.tail hopened⟩
  · obtain ⟨l, mid, _, _, hhead, hrest, -⟩ := reads_bind.mp hrest
    rcases sound_head hi hts hhead with ⟨rfl, hvar⟩ | ⟨rfl, hcall⟩
    · obtain ⟨_, mid', _, _, hassignment, hpure, -⟩ := reads_bind.mp hrest
      obtain ⟨rfl, rfl, -⟩ := reads_pure.mp hpure
      exact ⟨rfl, .left (sound_assignment hi hvar (hvar.lexical hts) hassignment)⟩
    · obtain ⟨rfl, rfl, -⟩ := reads_pure.mp hrest
      exact ⟨rfl, .right (.left hcall)⟩

/-! ## Blocks -/

omit hi in
theorem sound_discard_accept {text : String}
    (h : Reads Faultless speller (discard (accept text)) ts u us es) :
    Matches n (.maybe (.word text)) ts us := by
  obtain ⟨found, h⟩ := reads_discard.mp h
  rcases reads_accept.mp h with ⟨t, rfl, ht, -, -⟩ | ⟨-, -, rfl, -⟩
  · exact .left (.word ht)
  · exact .right .empty

theorem sound_returnValues {closers : List Closer} (hts : Lexical ts)
    (h : Reads Faultless speller (returnValues inner closers) ts u us es) :
    Matches n (.maybe (Form.commaList .exp)) ts us := by
  rcases reads_look_ite.mp h with ⟨-, hlist⟩ | ⟨-, hnone⟩
  · exact .left (sound_expList hi hts hlist)
  · obtain ⟨-, rfl, -⟩ := reads_pure.mp hnone
    exact .right .empty

/-- A statement is read, or the last statement of the block, with its semicolon. -/
theorem sound_nextStatement [inner.Built] {closers : List Closer} {turn : BlockTurn} (hts : Lexical ts)
    (h : Reads Faultless speller (nextStatement inner closers) ts turn us es) :
    (turn = .again false ∧ Matches n (.row [.statement, .maybe (.word ";")]) ts us) ∨
      (turn = .again true ∧ Matches n (.row [.lastStatement, .maybe (.word ";")]) ts us) := by
  rw [nextStatement_eq] at h
  rcases reads_accept_ite.mp h with ⟨t, rest, rfl, ht, hbreak⟩ | ⟨-, hrest⟩
  · obtain ⟨_, mid, _, _, hsemicolon, hpure, -⟩ := reads_bind.mp hbreak
    obtain ⟨rfl, rfl, -⟩ := reads_pure.mp hpure
    have hlast : Matches n .lastStatement (t :: rest) rest := .right (.word ht)
    exact .inr ⟨rfl, hlast.andThen (sound_discard_accept hsemicolon)⟩
  rcases reads_accept_ite.mp hrest with ⟨t, rest, rfl, ht, hreturn⟩ | ⟨-, hrest⟩
  · obtain ⟨_, mid, _, _, hvalues, hreturn, -⟩ := reads_bind.mp hreturn
    obtain ⟨_, mid', _, _, hsemicolon, hpure, -⟩ := reads_bind.mp hreturn
    obtain ⟨rfl, rfl, -⟩ := reads_pure.mp hpure
    have hlast : Matches n .lastStatement (t :: rest) mid :=
      .left (.wordThen ht (sound_returnValues hi hts.tail hvalues))
    exact .inr ⟨rfl, hlast.andThen (sound_discard_accept hsemicolon)⟩
  · obtain ⟨closed, mid, _, _, hread, hafter, -⟩ := reads_bind.mp hrest
    obtain ⟨rfl, hstatement⟩ := sound_statementOrCloser hi hts hread
    obtain ⟨_, mid', _, _, hsemicolon, hpure, -⟩ := reads_bind.mp hafter
    obtain ⟨rfl, rfl, -⟩ := reads_pure.mp hpure
    exact .inl ⟨rfl, hstatement.andThen (sound_discard_accept hsemicolon)⟩

/-- One turn: the block is closed, or one of its statements is read, the last one or another;
behind the last one the block has to be closed. -/
theorem sound_blockTurn [inner.Built] {closers : List Closer} {ended : Bool} {turn : BlockTurn}
    (hts : Lexical ts) (h : Reads Faultless speller (blockTurn inner closers ended) ts turn us es) :
    (∃ closed, turn = .done closed ∧ ClosedBy closers closed ts us) ∨
      ended = false ∧
        ((turn = .again false ∧ Matches n (.row [.statement, .maybe (.word ";")]) ts us) ∨
          (turn = .again true ∧ Matches n (.row [.lastStatement, .maybe (.word ";")]) ts us)) := by
  rcases reads_look_ite.mp h with ⟨hend, h⟩ | ⟨-, h⟩
  · obtain rfl : ts = [] := List.isEmpty_iff.mp hend
    cases closers with
    | nil =>
      obtain ⟨rfl, rfl, -⟩ := reads_pure.mp h
      exact .inl ⟨none, rfl, rfl, rfl, rfl⟩
    | cons word closers => exact absurd h (not_reads_record_bind fun _ => not_faultless rfl)
  rcases reads_acceptCloser_bind.mp h with ⟨word, hword, t, rest, rfl, ht, hpure⟩ | ⟨-, h⟩
  · obtain ⟨rfl, rfl, -⟩ := reads_pure.mp hpure
    exact .inl ⟨some word, rfl, hword, t, rfl, ht⟩
  cases ended with
  | true => exact absurd h (not_reads_record_bind fun _ => not_faultless rfl)
  | false => exact .inr ⟨rfl, sound_nextStatement hi hts h⟩

theorem sound_block [inner.Built] {closers : List Closer} {closed : Option Closer} (hts : Lexical ts)
    (h : Reads Faultless speller (block inner closers) ts closed us es) :
    ∃ mid, Matches n .statements ts mid ∧ ClosedBy closers closed mid us := by
  refine h.loop_induction (motive := fun ended ts => Lexical ts → ∃ mid,
    (if ended then mid = ts else Matches n .statements ts mid) ∧
      ClosedBy closers closed mid us) ?_ ?_ hts
  · intro ended ts es hturn hts
    rcases sound_blockTurn hi hts hturn with ⟨_, heq, hclosed⟩ | ⟨-, ⟨heq, -⟩ | ⟨heq, -⟩⟩
    · cases heq
      refine ⟨ts, ?_, hclosed⟩
      split
      · rfl
      · exact Matches.andThen .none (.right .empty)
    · cases heq
    · cases heq
  · intro ended ended' ts rest es hturn ih hts
    rcases sound_blockTurn hi hts hturn with ⟨_, heq, -⟩ | ⟨rfl, ⟨heq, hone⟩ | ⟨heq, hlast⟩⟩
    · cases heq
    · cases heq
      obtain ⟨mid, ⟨hs, hmid⟩, hclosed⟩ := ih (hone.lexical hts)
      obtain ⟨mid', is, js, hmany, hlast, -⟩ := derives_andThen.mp hmid
      exact ⟨mid, Matches.andThen (.more hone ⟨is, hmany⟩) ⟨js, hlast⟩, hclosed⟩
    · cases heq
      obtain ⟨mid, rfl, hclosed⟩ := ih (hlast.lexical hts)
      exact ⟨_, Matches.andThen .none (.left hlast), hclosed⟩

end Nested

/-! ## Nesting levels -/

theorem sound_nested (levels : Nat) : (nested levels).Sound speller levels := by
  induction levels with
  | zero =>
    refine ⟨fun _ h => ?_, fun _ h => ?_⟩
    · exact absurd h (not_reads_record_bind fun _ => not_faultless rfl)
    · exact absurd h (not_reads_record_bind fun _ => not_faultless rfl)
  | succ levels ih =>
    refine ⟨fun hts h => ?_, fun hts h => ?_⟩
    · obtain ⟨hs, hoperands⟩ := sound_operandChain ih hts h
      exact ⟨hs, .exp hoperands⟩
    · obtain ⟨mid, ⟨hs, hstatements⟩, hclosed⟩ := sound_block ih hts h
      exact ⟨mid, ⟨hs, .chunk hstatements⟩, hclosed⟩

end LuaChecker.Grammar
