import LuaChecker.Proofs.Parsing.Budget
import LuaChecker.Proofs.Parsing.Built

/-!
# Recovery ends and says little

Whatever tokens there are, the parse of a program ends, and it gives at most six diagnostics
for a token and one more. The credits of `Budget` are followed through the grammar: what a
part costs beyond its own tokens is paid by the word that called for it.

* `thrifty_nested`: an expression costs one credit and a block none, at every nesting level;
* `parse_ends_within`: the bound for programs.
-/

namespace LuaChecker.Grammar

open Parse

variable {tokens : Nat}

/-! ## Names -/

theorem costs_unexpected {need : Need} : Costs tokens (unexpected need) 1 := costs_record

theorem costs_name : Costs tokens name 1 := by
  refine (show Costs tokens (look _) 0 from costs_look).bind (k := 1) fun text => ?_
  refine costs_of_succ fun bound spare => ?_
  refine triple_acceptKind ?_ ?_ .name
  · exact Costs.pure.triple (by omega) (by omega)
  · exact (costs_unexpected.bind fun _ => Costs.pure) _ _

theorem costs_nextOpenName (ns : Names) (bound spare : Nat) :
    Triple (Spent tokens) (Purse tokens (bound + 1) spare) (nextOpenName ns)
      (afterTurn (fun _ => Purse tokens bound spare) fun _ => Purse tokens (bound + 1) spare) := by
  refine triple_accept ?_ ?_ ","
  · have hname : Triple (Spent tokens) (Purse tokens bound (spare + 6)) name
        fun _ => Purse tokens bound spare := costs_name.triple (Nat.le_refl _) (by omega)
    refine triple_bind (Q := fun _ => Purse tokens bound (spare + 6)) ?_ fun dots => ?_
    · refine triple_pre triple_move fun c past h => ?_
      simp only [Cursor.accept, Cursor.advanceIf]
      split
      · exact h.advance_le
      · exact h
    cases dots with
    | true => exact triple_pre triple_pure fun _ _ h => h.mono (Nat.le_succ _) (by omega)
    | false => exact triple_bind hname fun _ => triple_pre triple_pure fun _ _ h => h
  · exact triple_pre triple_pure fun _ _ h => h

theorem costs_openNames : Costs tokens openNames 1 :=
  costs_name.bind fun _ => costs_loop costs_nextOpenName

theorem costs_nextNamePart (path : String) (bound spare : Nat) :
    Triple (Spent tokens) (Purse tokens (bound + 1) spare) (nextNamePart path)
      (afterTurn (fun _ => Purse tokens bound spare) fun _ => Purse tokens (bound + 1) spare) := by
  refine triple_accept ?_ ?_ "."
  · have hname : Triple (Spent tokens) (Purse tokens bound (spare + 6)) name
        fun _ => Purse tokens bound spare := costs_name.triple (Nat.le_refl _) (by omega)
    exact triple_bind hname fun _ => triple_pre triple_pure fun _ _ h => h
  · exact triple_pre triple_pure fun _ _ h => h

theorem costs_functionName : Costs tokens functionName 1 := by
  refine costs_name.bind (k := 0) fun first => ?_
  refine (costs_loop costs_nextNamePart).bind (k := 0) fun path => ?_
  refine costs_of_succ fun bound spare => ?_
  refine triple_accept ?_ ?_ ":"
  · exact (costs_name.bind fun _ => Costs.pure).triple (by omega) (by omega)
  · exact Costs.pure _ _

/-! ## Expressions -/

/-- A block that is closed by a word has five credits left of that word. -/
def afterBlock (tokens bound spare : Nat) (closed : Option Closer) : Assertion :=
  Purse tokens bound (spare + if closed.isSome then 5 else 0)

/-- How many tokens a block that ends has read at least, if its last statement is still
ahead or, as `ended` says, behind. -/
def lag (closers : List Closer) (ended : Bool) : Nat :=
  if closers.isEmpty || ended then 0 else 1

theorem lag_le_one (closers : List Closer) (ended : Bool) : lag closers ended ≤ 1 := by
  unfold lag
  split <;> omega

/-- What the parses one nesting level further in cost. -/
structure Nested.Thrifty (tokens : Nat) (inner : Nested) : Prop where
  exp : Costs tokens inner.exp 1
  chunk : ∀ closers bound spare, Triple (Spent tokens)
    (Purse tokens (bound + lag closers false) spare) (inner.chunk closers)
    (afterBlock tokens bound spare)

variable {inner : Nested} (hi : inner.Thrifty tokens)
include hi

theorem costs_chunk (closers : List Closer) : Costs tokens (inner.chunk closers) 0 := by
  intro bound spare
  refine triple_mono (hi.chunk closers bound spare) (fun _ _ h => ?_) fun closed _ _ h => ?_
  · exact h.mono (Nat.le_add_right _ _) (Nat.le_refl _)
  · exact Purse.mono h (Nat.le_refl _) (Nat.le_add_right _ _)

theorem costs_expList : Costs tokens (expList inner) 1 :=
  hi.exp.bind fun _ => costs_afterComma hi.exp (by omega)

omit hi in
theorem costs_parameters : Costs tokens parameters 1 := by
  rw [parameters_eq]
  have hlist : Costs tokens (do
      let names ← openNames
      record fun _ => .parameters names.toList names.variadic) 1 :=
    costs_openNames.bind (k := 0) fun names _ _ =>
      triple_pre triple_record fun c past h => ⟨h.1, by simpa [Event.cost] using h.2⟩
  refine costs_of_succ fun bound spare => ?_
  refine triple_accept ?_ ?_ "..."
  · exact costs_record.triple (by omega) (by omega)
  · exact hlist _ _

omit hi in
theorem costs_parentheses : Costs tokens parentheses 3 := by
  refine costs_demandInHeader.bind (k := 2) fun _ => ?_
  refine costs_of_succ fun bound spare => ?_
  refine triple_accept ?_ ?_ ")"
  · exact Costs.pure.triple (by omega) (by omega)
  · exact (costs_parameters.bind fun _ => costs_demandInHeader) _ _

theorem costs_functionBody (name : String) : Costs tokens (functionBody inner name) 4 :=
  costs_record.bind fun _ => costs_parentheses.bind fun _ =>
    (costs_chunk hi _).discard

theorem costs_field : Costs tokens (field inner) 1 := by
  refine costs_of_succ fun bound spare => ?_
  refine triple_accept ?_ ?_ "["
  · have hbracket : Costs tokens (demand "]" .plain) 1 := costs_demand
    have hequals : Costs tokens (demand "=" .plain) 1 := costs_demand
    have hkeyed := hi.exp.bind fun _ => hbracket.bind fun _ => hequals.bind fun _ => hi.exp
    exact hkeyed.triple (by omega) (by omega)
  · refine (costs_look.bind (k := 1) fun named => ?_) _ _
    exact (costs_advance.bind fun _ => costs_advance.bind fun _ => hi.exp).ite hi.exp

theorem costs_nextField (bound spare : Nat) :
    Triple (Spent tokens) (Purse tokens (bound + 1) spare) (nextField inner) fun more =>
      if more then Purse tokens bound spare else Purse tokens (bound + 1) spare := by
  refine triple_acceptAny ?_ ?_ _
  · refine triple_bind (costs_look bound (spare + 6)) fun closing => ?_
    cases closing with
    | true => exact triple_pre triple_pure fun _ _ h => h.mono (Nat.le_succ _) (by omega)
    | false =>
      have hfield : Triple (Spent tokens) (Purse tokens bound (spare + 6)) (field inner)
          fun _ => Purse tokens bound spare := (costs_field hi).triple (Nat.le_refl _) (by omega)
      exact triple_bind hfield fun _ => triple_pre triple_pure fun _ _ h => h
  · exact triple_pre triple_pure fun _ _ h => h

theorem costs_table : Costs tokens (table inner) 2 := by
  refine costs_of_succ fun bound spare => ?_
  refine triple_accept ?_ ?_ "\x7d"
  · exact Costs.pure.triple (by omega) (by omega)
  · have hfields : Costs tokens (many (nextField inner)) 0 := costs_many (costs_nextField hi)
    exact ((costs_field hi).bind fun _ => hfields.bind fun _ => costs_demand) _ _

/-! ## Variables and calls -/

omit hi in
theorem seesAny_iff {c : Cursor} {texts : List String} :
    c.seesAny texts = true ↔ ∃ text ∈ texts, c.sees text = true := by
  cases h : c.text? <;> simp [Cursor.seesAny, Cursor.sees, h]

theorem triple_index (bound spare : Nat) :
    Triple (Spent tokens)
      (fun c past => Purse tokens (bound + 1) spare c past ∧ c.seesAny indexStarts = true)
      (index inner) fun _ => Purse tokens bound spare := by
  refine triple_attempt (fun _ => pos_of_sees) ?_ ?_
  · exact costs_name.discard.triple (Nat.le_refl _) (by omega)
  refine triple_attempt (fun _ => pos_of_sees) ?_ ?_
  · have hbracket : Costs tokens (demand "]" .plain) 1 := costs_demand
    exact (hi.exp.bind fun _ => hbracket).triple (Nat.le_refl _) (by omega)
  · -- one of the two is there
    intro speller c past h
    obtain ⟨-, ⟨hany, hdot⟩, hbracket⟩ := h
    obtain ⟨text, hmem, hsees⟩ := seesAny_iff.mp hany
    simp only [indexStarts, List.mem_cons, List.not_mem_nil, or_false] at hmem
    rcases hmem with rfl | rfl
    · exact absurd hsees (by simpa using hbracket)
    · exact absurd hsees (by simpa using hdot)

theorem costs_argumentList : Costs tokens (argumentList inner) 2 := by
  refine costs_of_succ fun bound spare => ?_
  refine triple_accept ?_ ?_ ")"
  · exact Costs.pure.triple (by omega) (by omega)
  · exact ((costs_expList hi).bind fun _ => costs_demand) _ _

theorem costs_arguments : Costs tokens (arguments inner) 1 := by
  refine costs_of_succ fun bound spare => ?_
  refine triple_acceptKind ?_ ?_ .string
  · exact Costs.pure.triple (by omega) (by omega)
  refine triple_accept ?_ ?_ "("
  · exact (costs_argumentList hi).triple (by omega) (by omega)
  refine triple_accept ?_ ?_ "\x7b"
  · exact (costs_table hi).triple (by omega) (by omega)
  · exact costs_unexpected _ _

theorem triple_arguments (bound spare : Nat) :
    Triple (Spent tokens)
      (fun c past => Purse tokens (bound + 1) spare c past ∧
        (c.seesKind .string = true ∨ c.sees "(" = true ∨ c.sees "\x7b" = true))
      (arguments inner) fun _ => Purse tokens bound spare := by
  refine triple_attempt (fun _ => pos_of_seesKind) ?_ ?_
  · exact Costs.pure.triple (Nat.le_refl _) (by omega)
  refine triple_attempt (fun _ => pos_of_sees) ?_ ?_
  · exact (costs_argumentList hi).triple (Nat.le_refl _) (by omega)
  refine triple_attempt (fun _ => pos_of_sees) ?_ ?_
  · exact (costs_table hi).triple (Nat.le_refl _) (by omega)
  · intro speller c past h
    obtain ⟨-, ⟨⟨hany, hstring⟩, hparen⟩, hbrace⟩ := h
    simp [hstring, hparen, hbrace] at hany

theorem triple_call (bound spare : Nat) :
    Triple (Spent tokens)
      (fun c past => Purse tokens (bound + 1) spare c past ∧
        (c.seesAny callStarts || c.seesKind .string) = true)
      (call inner) fun _ => Purse tokens bound spare := by
  refine triple_bind (Q := fun _ c past => Purse tokens bound (spare + 1) c past ∨
    (Purse tokens (bound + 1) spare c past ∧
      (c.seesKind .string = true ∨ c.sees "(" = true ∨ c.sees "\x7b" = true))) ?_ fun _ => ?_
  · refine triple_attempt (fun _ => pos_of_sees) ?_ ?_
    · have hname : Triple (Spent tokens) (Purse tokens bound (spare + 6)) name
          fun _ => Purse tokens bound (spare + 1) := costs_name.triple (Nat.le_refl _) (by omega)
      exact triple_discard (triple_post hname fun _ _ _ h => .inl h)
    · refine triple_pre triple_pure fun c past h => .inr ⟨h.1, ?_⟩
      obtain ⟨-, hany, hcolon⟩ := h
      simp only [Bool.or_eq_true, seesAny_iff, callStarts, List.mem_cons, List.not_mem_nil,
        or_false, exists_eq_or_imp, exists_eq_left, hcolon] at hany
      simpa [or_comm, or_assoc] using hany
  · exact triple_or (costs_arguments hi _ _) (triple_arguments hi bound spare)

theorem costs_nextSuffix (indexed : Bool) (bound spare : Nat) :
    Triple (Spent tokens) (Purse tokens (bound + 1) spare) (nextSuffix inner indexed)
      (afterTurn (fun _ => Purse tokens bound spare) fun _ => Purse tokens (bound + 1) spare) := by
  refine triple_bind triple_look_eq fun seen => ?_
  refine triple_ite (fun hseen => ?_) fun _ => ?_
  · subst hseen
    exact triple_bind (triple_index hi bound spare) fun _ => triple_pre triple_pure fun _ _ h => h
  refine triple_bind triple_look_eq fun seen => ?_
  refine triple_ite (fun hseen => ?_) fun _ => ?_
  · subst hseen
    refine triple_bind (triple_pre (triple_call hi bound spare) fun _ _ h => ⟨h.1.1, h.2⟩)
      fun _ => ?_
    exact triple_pre triple_pure fun _ _ h => h
  · exact triple_pre triple_pure fun _ _ h => h.1.1

theorem costs_suffixes : Costs tokens (suffixes inner) 0 :=
  costs_loop (costs_nextSuffix hi)

omit hi in
theorem triple_name (bound spare : Nat) :
    Triple (Spent tokens)
      (fun c past => Purse tokens (bound + 1) spare c past ∧ c.seesKind .name = true)
      name fun _ => Purse tokens bound (spare + 4) := by
  refine triple_bind triple_look_keep fun text => ?_
  refine triple_attempt (fun _ => pos_of_seesKind) ?_ ?_
  · exact Costs.pure.triple (Nat.le_refl _) (by omega)
  · intro speller c past h
    obtain ⟨-, hname, hother⟩ := h
    rw [hname] at hother
    cases hother

theorem triple_primary (bound spare : Nat) :
    Triple (Spent tokens)
      (fun c past => Purse tokens (bound + 1) spare c past ∧
        (c.seesKind .name = true ∨ c.sees "(" = true))
      (primary inner) fun _ => Purse tokens bound (spare + 4) := by
  refine triple_attempt (fun _ => pos_of_sees) ?_ ?_
  · have hparen : Costs tokens (demand ")" .plain) 1 := costs_demand
    exact (hi.exp.bind fun _ => hparen).triple (Nat.le_refl _) (by omega)
  · refine triple_discard (triple_pre (triple_name bound spare) fun c past h => ?_)
    obtain ⟨hp, hany, hparen⟩ := h
    exact ⟨hp, by simpa [hparen] using hany⟩

/-- There is a current token, and a purse once it is read. -/
def Ahead (tokens bound credit : Nat) : Assertion := fun c past =>
  0 < c.size ∧ Purse tokens bound credit c.advance past

omit hi in
theorem Purse.ahead {bound spare : Nat} {c : Cursor} {past : List Event}
    (h : Purse tokens (bound + 1) spare c past) (hc : 0 < c.size) :
    Ahead tokens bound (spare + 6) c past :=
  ⟨hc, h.advance hc⟩

omit hi in
theorem triple_record_ahead {event : Cursor → Event} (bound spare : Nat) :
    Triple (Spent tokens) (Ahead tokens bound (spare + 1)) (record event)
      fun _ => Ahead tokens bound spare :=
  triple_pre triple_record fun _ _ h => ⟨h.1, h.2.record⟩

omit hi in
theorem triple_advance_ahead (bound spare : Nat) :
    Triple (Spent tokens) (Ahead tokens bound spare) advance
      fun _ => Purse tokens bound spare :=
  triple_pre triple_move fun _ _ h => h.2

/-- What is left after a lead: some token is read, except that a name that is taken for an
opening word is still to be read as that word. -/
def afterHead (tokens bound spare : Nat) : Head → Assertion
  | .variable => Purse tokens bound (spare + 1)
  | .other => Purse tokens bound spare
  | .closes _ => Purse tokens bound (spare + 5)
  | .opens _ => Ahead tokens bound (spare + 5)

omit hi in
theorem triple_misspeltHead (closers : List Closer) (bound spare : Nat) :
    Triple (Spent tokens) (Ahead tokens bound (spare + 6)) (misspeltHead closers)
      (afterHead tokens bound spare) := by
  refine triple_bind triple_closest fun found => ?_
  cases found with
  | some word =>
    refine triple_bind (triple_record_ahead bound (spare + 5)) fun _ => ?_
    refine triple_bind (triple_advance_ahead bound (spare + 5)) fun _ => ?_
    exact triple_pre triple_pure fun _ _ h => h.mono (Nat.le_refl _) (by omega)
  | none =>
    refine triple_bind triple_closest fun found => ?_
    cases found with
    | some word =>
      refine triple_bind (triple_record_ahead bound (spare + 5)) fun _ => ?_
      refine triple_bind (Q := fun _ => Ahead tokens bound (spare + 5)) ?_ fun _ => ?_
      · refine triple_pre triple_move fun c past h => ?_
        simpa [Ahead, Purse, Cursor.size_advance] using h
      · exact triple_pre triple_pure fun _ _ h => h
    | none =>
      refine triple_bind (triple_advance_ahead bound (spare + 6)) fun _ => ?_
      refine triple_bind (costs_unexpected bound (spare + 5)) fun _ => ?_
      exact triple_pre triple_pure fun _ _ h => h.mono (Nat.le_refl _) (by omega)

theorem triple_suffixedHead (bound spare : Nat) :
    Triple (Spent tokens) (Purse tokens bound (spare + 1)) (suffixedHead inner)
      (afterHead tokens bound spare) := by
  refine triple_bind (costs_suffixes hi bound (spare + 1)) fun assignable => ?_
  refine triple_pre triple_pure fun c past h => ?_
  cases assignable with
  | true => exact h
  | false => exact h.mono (Nat.le_refl _) (by omega)

theorem triple_namedHead (position : Position) (bound spare : Nat) :
    Triple (Spent tokens)
      (fun c past => Purse tokens (bound + 1) spare c past ∧ c.seesKind .name = true)
      (namedHead inner position) (afterHead tokens bound spare) := by
  have hread : Triple (Spent tokens)
      (fun c past => Purse tokens (bound + 1) spare c past ∧ c.seesKind .name = true)
      advance fun _ => Purse tokens bound (spare + 6) :=
    triple_pre (triple_advance_ahead bound (spare + 6)) fun _ _ h =>
      h.1.ahead (pos_of_seesKind h.2)
  refine triple_bind triple_look_keep fun isTarget => ?_
  refine triple_ite (fun _ => ?_) fun _ => ?_
  · refine triple_bind hread fun _ => triple_pre triple_pure fun _ _ h => ?_
    exact h.mono (Nat.le_refl _) (by omega)
  refine triple_bind triple_look_keep fun continued => ?_
  refine triple_ite (fun _ => ?_) fun _ => ?_
  · have hprimary := triple_primary hi bound spare
    refine triple_bind (triple_pre hprimary fun _ _ h => ⟨h.1, .inl h.2⟩) fun _ => ?_
    exact triple_pre (triple_suffixedHead hi bound spare) fun _ _ h =>
      h.mono (Nat.le_refl _) (by omega)
  cases position with
  | operand =>
    refine triple_bind hread fun _ => triple_pre triple_pure fun _ _ h => ?_
    exact h.mono (Nat.le_refl _) (by omega)
  | statement closers =>
    exact triple_pre (triple_misspeltHead closers bound spare) fun _ _ h =>
      h.1.ahead (pos_of_seesKind h.2)

theorem triple_parenthesizedHead (position : Position) (bound spare : Nat) :
    Triple (Spent tokens)
      (fun c past => Purse tokens (bound + 1) spare c past ∧ c.sees "(" = true)
      (parenthesizedHead inner position) (afterHead tokens bound spare) := by
  have hprimary := triple_primary hi bound spare
  refine triple_bind (triple_pre hprimary fun _ _ h => ⟨h.1, .inr h.2⟩) fun _ => ?_
  refine triple_bind triple_look_keep fun continued => ?_
  refine triple_ite (fun _ => ?_) fun _ => ?_
  · exact triple_pre (triple_suffixedHead hi bound spare) fun _ _ h =>
      h.mono (Nat.le_refl _) (by omega)
  cases position with
  | operand => exact triple_pre triple_pure fun _ _ h => h.mono (Nat.le_refl _) (by omega)
  | statement closers =>
    refine triple_bind (costs_unexpected bound (spare + 3)) fun _ => ?_
    exact triple_pre triple_pure fun _ _ h => h.mono (Nat.le_refl _) (by omega)

theorem triple_head (position : Position) (bound spare : Nat) :
    Triple (Spent tokens)
      (fun c past => Purse tokens (bound + 1) spare c past ∧ 0 < c.size)
      (head inner position) (afterHead tokens bound spare) := by
  refine triple_bind triple_look_eq fun seen => ?_
  refine triple_ite (fun hseen => ?_) fun _ => ?_
  · subst hseen
    exact triple_pre (triple_namedHead hi position bound spare) fun _ _ h => ⟨h.1.1, h.2⟩
  refine triple_bind triple_look_eq fun seen => ?_
  refine triple_ite (fun hseen => ?_) fun _ => ?_
  · subst hseen
    exact triple_pre (triple_parenthesizedHead hi position bound spare) fun _ _ h =>
      ⟨h.1.1.1, h.2⟩
  refine triple_bind (triple_pre (triple_record_ahead bound (spare + 5)) fun _ _ h =>
    h.1.1.1.ahead h.1.1.2) fun _ => ?_
  refine triple_bind (triple_advance_ahead bound (spare + 5)) fun _ => ?_
  exact triple_pre triple_pure fun _ _ h => h.mono (Nat.le_refl _) (by omega)

omit hi in
theorem triple_head_atEnd (position : Position) (bound spare : Nat) :
    Triple (Spent tokens)
      (fun c past => Purse tokens bound (spare + 1) c past ∧ ¬ 0 < c.size)
      (head inner position) fun _ => Purse tokens bound spare := by
  refine triple_bind triple_look_eq fun seen => ?_
  refine triple_ite (fun hseen _ _ _ h => ?_) fun _ => ?_
  · exact absurd (pos_of_seesKind (h.2.trans hseen)) h.1.2
  refine triple_bind triple_look_eq fun seen => ?_
  refine triple_ite (fun hseen _ _ _ h => ?_) fun _ => ?_
  · exact absurd (pos_of_sees (h.2.trans hseen)) h.1.1.2
  refine triple_bind (triple_pre (costs_unexpected bound spare) fun _ _ h => h.1.1.1) fun _ => ?_
  exact (costs_advance.bind fun _ => Costs.pure) bound spare

theorem costs_head (position : Position) : Costs tokens (head inner position) 1 := by
  refine costs_of_succ fun bound spare => ?_
  intro speller c past h
  by_cases hc : 0 < c.size
  · refine triple_post (triple_head hi position bound (spare + 1)) ?_ speller c past ⟨h, hc⟩
    intro found c past hq
    cases found with
    | «variable» => exact hq.mono (Nat.le_succ _) (by omega)
    | other => exact hq.mono (Nat.le_succ _) (by omega)
    | closes word => exact hq.mono (Nat.le_succ _) (by omega)
    | opens word =>
      obtain ⟨hpos, hsize, hcost⟩ := hq
      simp only [Cursor.size_advance] at hsize hcost
      exact ⟨by omega, by omega⟩
  · exact triple_head_atEnd position (bound + 1) spare speller c past ⟨h, hc⟩

/-! ## Operands and operators -/

theorem costs_operand : Costs tokens (operand inner) 1 := by
  rw [operand_eq]
  have hread {bound spare : Nat} : Triple (Spent tokens) (Purse tokens bound (spare + 1 + 6))
      (pure ()) fun _ => Purse tokens (bound + 1) spare :=
    Costs.pure.triple (Nat.le_succ _) (by omega)
  refine costs_of_succ fun bound spare => ?_
  refine triple_acceptAny hread ?_ literals
  refine triple_acceptKind hread ?_ .number
  refine triple_acceptKind hread ?_ .string
  refine triple_accept ?_ ?_ "function"
  · exact (costs_functionBody hi "").triple (Nat.le_succ _) (by omega)
  refine triple_accept ?_ ?_ "\x7b"
  · exact (costs_table hi).triple (Nat.le_succ _) (by omega)
  · exact (costs_head hi .operand).discard _ _

omit hi in
theorem triple_acceptAny_alone {texts : List String} (bound spare : Nat) :
    Triple (Spent tokens) (Purse tokens (bound + 1) spare) (acceptAny texts) fun found =>
      if found then Purse tokens bound (spare + 6) else Purse tokens (bound + 1) spare := by
  refine triple_pre triple_move fun c past h => ?_
  cases hc : c.seesAny texts with
  | true => simpa [Cursor.acceptAny, Cursor.advanceIf, hc] using h.advance (pos_of_seesAny hc)
  | false => simpa [Cursor.acceptAny, Cursor.advanceIf, hc] using h

theorem costs_operandStep (bound spare : Nat) :
    Triple (Spent tokens) (Purse tokens (bound + 1) (spare + 1)) (operandStep inner) fun more =>
      if more then Purse tokens bound (spare + 1) else Purse tokens (bound + 1) spare := by
  have hunary : Costs tokens (many (acceptAny unaryOperators)) 0 :=
    costs_many fun bound spare => triple_post (triple_acceptAny_alone bound spare)
      fun found _ _ h => by
        cases found with
        | true => exact h.mono (Nat.le_refl _) (by omega)
        | false => exact h
  refine triple_bind (hunary (bound + 1) (spare + 1)) fun _ => ?_
  refine triple_bind (costs_operand hi (bound + 1) spare) fun _ => ?_
  refine triple_post (triple_acceptAny_alone bound spare) fun found c past h => ?_
  cases found with
  | true => exact h.mono (Nat.le_refl _) (by omega)
  | false => exact h

theorem costs_operandChain : Costs tokens (operandChain inner) 1 :=
  costs_many (costs_operandStep hi)

/-! ## Statements -/

theorem costs_untilEnd : Costs tokens (untilEnd inner) 0 := (costs_chunk hi _).discard

/-- The credits of the word `elseif` pay for the condition behind it. -/
theorem triple_nextBranch (closed : Option Closer) (bound spare : Nat) :
    Triple (Spent tokens)
      (Purse tokens (bound + 1) (spare + if closed.isSome then 5 else 0))
      (nextBranch inner closed)
      (afterTurn (afterBlock tokens bound spare) fun _ => Purse tokens (bound + 1) spare) := by
  by_cases helseif : closed = some .elseifWord
  · subst helseif
    have hthen : Costs tokens (demand "then" (.after "elseif")) 1 := costs_demand
    refine triple_bind (hi.exp (bound + 1) (spare + 4)) fun _ => ?_
    refine triple_bind (hthen (bound + 1) (spare + 3)) fun _ => ?_
    refine triple_bind (hi.chunk Closer.branch bound (spare + 3)) fun next => ?_
    exact triple_pre triple_pure fun _ _ h => Purse.mono h (Nat.le_refl _) (by omega)
  · rw [nextBranch, if_neg helseif]
    exact triple_pre triple_pure fun _ _ h => h.mono (Nat.le_refl _) (Nat.le_add_right _ _)

theorem costs_ifStatement : Costs tokens (ifStatement inner) 2 := by
  have hthen : Costs tokens (demand "then" (.after "if")) 1 := costs_demand
  refine hi.exp.bind fun _ => hthen.bind (k := 0) fun _ bound spare => ?_
  refine triple_bind (Q := afterBlock tokens bound spare) ?_ fun first => ?_
  · exact triple_pre (hi.chunk Closer.branch bound spare) fun _ _ h =>
      h.mono (Nat.le_succ _) (Nat.le_refl _)
  refine triple_bind (Q := fun _ => Purse tokens bound spare) ?_ fun last => ?_
  · exact triple_loop_of_turns (fun closed => spare + if closed.isSome then 5 else 0)
      (fun _ => 0) (fun _ => Nat.zero_le _) fun closed bound =>
        triple_nextBranch hi closed bound spare
  split
  · exact costs_untilEnd hi bound spare
  · exact Costs.pure bound spare

theorem costs_numericRange : Costs tokens (numericRange inner) 3 := by
  have hcomma : Costs tokens (demand "," .forLoop) 1 := costs_demand
  refine hi.exp.bind fun _ => hcomma.bind fun _ => hi.exp.bind (k := 0) fun _ => ?_
  refine costs_of_succ fun bound spare => ?_
  refine triple_accept ?_ ?_ ","
  · exact hi.exp.triple (Nat.le_succ _) (by omega)
  · exact Costs.pure _ _

theorem costs_genericRange : Costs tokens (genericRange inner) 2 := by
  have hin : Costs tokens (demand "in" .forLoop) 1 := costs_demand
  exact (costs_afterComma costs_name.discard (by omega)).bind fun _ =>
    hin.bind fun _ => costs_expList hi

theorem costs_forStatement : Costs tokens (forStatement inner) 4 := by
  have hdo : Costs tokens (do demand "do" .forLoop; untilEnd inner) 1 :=
    costs_demand.bind fun _ => costs_untilEnd hi
  refine costs_name.discard.bind (k := 3) fun _ => ?_
  refine costs_of_succ fun bound spare => ?_
  refine triple_accept ?_ ?_ "="
  · exact ((costs_numericRange hi).bind fun _ => hdo).triple (Nat.le_succ _) (by omega)
  · exact ((costs_genericRange hi).bind fun _ => hdo) _ _

omit hi in
theorem costs_localNames : Costs tokens localNames 2 :=
  localNames_eq ▸
    costs_openNames.bind fun _ => costs_unexpected.ite (Costs.pure.mono (Nat.zero_le _))

theorem costs_localValues : Costs tokens (localValues inner) 0 := by
  refine costs_of_succ fun bound spare => ?_
  refine triple_accept ?_ ?_ "="
  · exact (costs_expList hi).triple (Nat.le_succ _) (by omega)
  · exact Costs.pure _ _

theorem costs_localStatement : Costs tokens (localStatement inner) 2 := by
  refine costs_of_succ fun bound spare => ?_
  refine triple_accept ?_ ?_ "function"
  · exact (costs_name.bind fun name => costs_functionBody hi name).triple (Nat.le_succ _)
      (by omega)
  · exact (costs_localNames.bind fun _ => costs_localValues hi) _ _

theorem costs_opened (word : Opener) : Costs tokens (opened inner word) 5 := by
  cases word with
  | doWord => exact (costs_untilEnd hi).mono (by omega)
  | whileWord =>
    have hdo : Costs tokens (demand "do" (.after "while")) 1 := costs_demand
    exact (hi.exp.bind fun _ => hdo.bind fun _ => costs_untilEnd hi).mono (by omega)
  | repeatWord => exact ((costs_chunk hi _).discard.bind fun _ => hi.exp).mono (by omega)
  | ifWord => exact (costs_ifStatement hi).mono (by omega)
  | forWord => exact (costs_forStatement hi).mono (by omega)
  | functionWord => exact costs_functionName.bind fun path => costs_functionBody hi path
  | localWord => exact (costs_localStatement hi).mono (by omega)

theorem costs_target : Costs tokens (target inner) 2 := by
  rw [target_eq]
  refine (costs_head hi _).bind (k := 1) fun found => ?_
  cases found with
  | «variable» => exact Costs.pure.mono (by omega)
  | other => exact costs_unexpected
  | closes word => exact costs_unexpected
  | opens word => exact costs_unexpected

theorem costs_assignment : Costs tokens (assignment inner) 1 := by
  refine (costs_afterComma (costs_target hi) (by omega)).bind (k := 1) fun _ => ?_
  refine costs_of_succ fun bound spare => ?_
  refine triple_accept ?_ ?_ "="
  · exact (costs_expList hi).triple (Nat.le_succ _) (by omega)
  · exact costs_lackNoting _ _

omit hi in
theorem triple_acceptOpener (bound spare : Nat) :
    Triple (Spent tokens)
      (fun c past => Purse tokens (bound + 1) spare c past ∧ 0 < c.size) acceptOpener fun found =>
        if found.isSome then Purse tokens bound (spare + 6)
        else fun c past => Purse tokens (bound + 1) spare c past ∧ 0 < c.size := by
  refine triple_pre triple_move fun c past h => ?_
  cases hword : c.text?.bind Opener.ofText? with
  | some word => simpa [hword] using h.1.advance h.2
  | none => simpa [hword] using h

theorem triple_statementOrCloser (closers : List Closer) (bound spare : Nat) :
    Triple (Spent tokens)
      (fun c past => Purse tokens (bound + 1) spare c past ∧ 0 < c.size)
      (statementOrCloser inner closers) (afterBlock tokens bound spare) := by
  refine triple_bind (triple_acceptOpener bound spare) fun found => ?_
  cases found with
  | some word =>
    have hopened := (costs_opened hi word).triple (Nat.le_refl bound)
      (show spare + 5 ≤ spare + 6 by omega)
    exact triple_bind hopened fun _ => triple_pre triple_pure fun _ _ h => h
  | none =>
    refine triple_bind (triple_head hi (.statement closers) bound spare) fun found => ?_
    cases found with
    | «variable» =>
      refine triple_bind (costs_assignment hi bound spare) fun _ => ?_
      exact triple_pre triple_pure fun _ _ h => h
    | other => exact triple_pre triple_pure fun _ _ h => h
    | closes word => exact triple_pre triple_pure fun _ _ h => h
    | opens word =>
      refine triple_bind (triple_advance_ahead bound (spare + 5)) fun _ => ?_
      refine triple_bind (costs_opened hi word bound spare) fun _ => ?_
      exact triple_pre triple_pure fun _ _ h => h

/-! ## Blocks -/

/-- What is left after a turn through a block. The last statement of a block leaves one
credit, for the diagnostic about what follows it. -/
def afterBlockTurn (tokens bound spare : Nat) (closers : List Closer) (ended : Bool) :
    BlockTurn → Assertion :=
  afterTurn (fun ended => Purse tokens bound (spare + ended.toNat))
    (afterBlock tokens (bound + 1 - lag closers ended) spare)

omit hi in
theorem costs_semicolon : Costs tokens (discard (accept ";")) 0 := by
  refine costs_of_succ fun bound spare => triple_discard ?_
  refine triple_pre triple_move fun c past h => ?_
  simp only [Cursor.accept, Cursor.advanceIf]
  split
  · exact h.advance_le
  · exact h

theorem costs_returnValues (closers : List Closer) :
    Costs tokens (returnValues inner closers) 1 :=
  costs_look.bind fun _ => (costs_expList hi).ite (Costs.pure.mono (Nat.zero_le _))

theorem triple_nextStatement [inner.Built] (closers : List Closer) (bound spare : Nat) :
    Triple (Spent tokens)
      (fun c past => Purse tokens (bound + 1) spare c past ∧ 0 < c.size)
      (nextStatement inner closers)
      (afterBlockTurn tokens bound spare closers false) := by
  rw [nextStatement_eq]
  refine triple_attempt (fun _ => pos_of_sees) ?_ ?_
  · refine triple_bind (costs_semicolon bound (spare + 6)) fun _ => ?_
    exact triple_pre triple_pure fun _ _ h => h.mono (Nat.le_refl _) (by simp)
  refine triple_attempt (fun _ => pos_of_sees) ?_ ?_
  · refine triple_bind (costs_returnValues hi closers bound (spare + 5)) fun _ => ?_
    refine triple_bind (costs_semicolon bound (spare + 5)) fun _ => ?_
    exact triple_pre triple_pure fun _ _ h => h.mono (Nat.le_refl _) (by simp)
  refine triple_bind (triple_pre (triple_statementOrCloser hi closers bound spare) fun _ _ h =>
    ⟨h.1, h.2.1.1⟩) fun found => ?_
  cases found with
  | some word =>
    have := lag_le_one closers false
    exact triple_pre triple_pure fun _ _ h => Purse.mono h (by omega) (Nat.le_refl _)
  | none =>
    refine triple_bind (costs_semicolon bound spare) fun _ => ?_
    exact triple_pre triple_pure fun _ _ h => h

omit hi in
/-- A parse that halts gives its last diagnostic on credit. -/
theorem triple_stop {α : Type} {event : Cursor → Event} {halt : Halt} {Q : α → Assertion}
    (hlast : ∀ c past, halt.RecordedLast (past ++ [event c])) (bound spare : Nat) :
    Triple (Spent tokens) (Purse tokens bound spare)
      (do record event; Parse.halt halt : Parse α) Q := by
  refine triple_bind (Q := fun _ => Spent tokens halt) ?_ fun _ => triple_halt
  refine triple_pre triple_record fun c past h => ⟨hlast c past, ?_⟩
  have he : (event c).cost ≤ 1 := by cases event c <;> simp [Event.cost]
  have hcost := h.2
  rw [cost_append_singleton]
  omega

omit hi in
theorem triple_endOfInput (closers : List Closer) (ended : Bool) (bound spare : Nat) :
    Triple (Spent tokens) (Purse tokens (bound + 1) spare) (endOfInput closers)
      (afterBlockTurn tokens bound spare closers ended) := by
  cases closers with
  | nil => exact triple_pre triple_pure fun _ _ h => h
  | cons word closers =>
    exact triple_stop (fun _ _ => by simp [Halt.RecordedLast]) (bound + 1) spare

omit hi in
theorem triple_afterLast (closers : List Closer) (bound spare : Nat) :
    Triple (Spent tokens)
      (fun c past => Purse tokens (bound + 1) (spare + 1) c past ∧ 0 < c.size)
      (afterLast closers) (afterBlockTurn tokens bound spare closers true) := by
  refine triple_bind (Q := fun _ c past => Purse tokens (bound + 1) spare c past ∧ 0 < c.size)
    (triple_pre triple_record fun _ _ h => ⟨h.1.record, h.2⟩) fun _ => ?_
  refine triple_bind triple_closest fun found => ?_
  cases found with
  | some word =>
    refine triple_bind (triple_pre (triple_advance_ahead bound (spare + 6)) fun _ _ h =>
      h.1.ahead h.2) fun _ => ?_
    exact triple_pre triple_pure fun _ _ h => Purse.mono h (by simp [lag]) (by simp)
  | none => exact triple_pre triple_pure fun _ _ h => Purse.mono h.1 (by simp [lag]) (by simp)

omit hi in
theorem triple_acceptCloser (closers : List Closer) (bound spare : Nat) :
    Triple (Spent tokens)
      (fun c past => Purse tokens (bound + 1) spare c past ∧ 0 < c.size)
      (acceptCloser closers) fun found =>
        if found.isSome then Purse tokens bound (spare + 6)
        else fun c past => Purse tokens (bound + 1) spare c past ∧ 0 < c.size := by
  refine triple_pre triple_move fun c past h => ?_
  cases hword : closers.find? fun word => c.sees word.text with
  | some word => simpa [hword] using h.1.advance h.2
  | none => simpa [hword] using h

theorem triple_blockTurn [inner.Built] (closers : List Closer) (ended : Bool) (bound spare : Nat) :
    Triple (Spent tokens) (Purse tokens (bound + 1) (spare + ended.toNat))
      (blockTurn inner closers ended) (afterBlockTurn tokens bound spare closers ended) := by
  refine triple_bind triple_look_eq fun atEnd => ?_
  refine triple_ite (fun _ => ?_) fun hatEnd => ?_
  · exact triple_pre (triple_endOfInput closers ended bound spare) fun _ _ h =>
      h.1.mono (Nat.le_refl _) (Nat.le_add_right _ _)
  subst hatEnd
  have hpos {c : Cursor} (h : c.atEnd = false) : 0 < c.size := by
    rw [c.size_eq, List.length_pos_iff]
    simpa [Cursor.atEnd] using h
  refine triple_bind (triple_pre (triple_acceptCloser closers bound (spare + ended.toNat))
    fun _ _ h => ⟨h.1, hpos h.2⟩) fun found => ?_
  cases found with
  | some word =>
    have := lag_le_one closers ended
    refine triple_pre triple_pure fun _ _ h => Purse.mono h (by omega) ?_
    simp only [Option.isSome_some, if_true]
    omega
  | none =>
    cases ended with
    | true => exact triple_afterLast closers bound spare
    | false => exact triple_nextStatement hi closers bound spare

theorem triple_block [inner.Built] (closers : List Closer) (bound spare : Nat) :
    Triple (Spent tokens) (Purse tokens (bound + lag closers false) spare)
      (block inner closers) (afterBlock tokens bound spare) :=
  triple_loop_of_turns (fun ended => spare + ended.toNat) (lag closers) (lag_le_one closers)
    fun ended bound => triple_blockTurn hi closers ended bound spare

omit hi

/-! ## Nesting levels and programs -/

theorem thrifty_nested (levels : Nat) : (nested levels).Thrifty tokens := by
  have hlast (c : Cursor) (past : List Event) :
      Halt.RecordedLast (past ++ [.finding c.line? .tooDeep]) .tooDeep := ⟨c.line?, by simp⟩
  have hstop {α : Type} {Q : α → Assertion} (bound spare : Nat) :
      Triple (Spent tokens) (Purse tokens bound spare) tooDeep Q :=
    triple_stop hlast bound spare
  induction levels with
  | zero => exact ⟨fun bound spare => hstop bound (spare + 1), fun _ bound spare =>
      hstop _ spare⟩
  | succ levels ih => exact ⟨costs_operandChain ih, triple_block ih⟩

theorem costs_program : Costs tokens program 0 := by
  intro bound spare
  refine triple_post ((thrifty_nested maxLevels).chunk [] bound spare) fun closed _ _ h => ?_
  exact Purse.mono h (Nat.le_refl _) (Nat.le_add_right _ _)

/-- How the parse of a program ends: it yields a value or has recorded why not, and the
events lead to at most six diagnostics for a token and one more. -/
theorem program_ends (speller : Speller) (ts : List Token) :
    let s := program speller (.ofList ts)
    (∀ halt, s.outcome = .error halt → halt.RecordedLast s.events) ∧
      cost s.events ≤ 6 * ts.length + 1 := by
  have hs := @costs_program ts.length (ts.length + 1) 0 speller (.ofList ts) []
    ⟨by simp [Cursor.ofList], by simp [Cursor.ofList]⟩
  simp only
  generalize program speller (.ofList ts) = s at hs ⊢
  obtain ⟨outcome, rest, events⟩ := s
  cases outcome with
  | error halt =>
    obtain ⟨hlast, hcost⟩ := hs
    refine ⟨fun halt' h => ?_, hcost⟩
    cases h
    exact hlast
  | ok closed =>
    have hcost : cost events + 6 * rest.size + _ ≤ 6 * ts.length := hs.2
    refine ⟨fun halt h => (by cases h), ?_⟩
    show cost events ≤ 6 * ts.length + 1
    omega

/-- **Recovery.** No repetition of the parse goes on without reading tokens, so it ends; and
it gives at most six diagnostics for a token, and one more. -/
theorem parse_ends_within (threshold : Float) (ts : List Token) :
    (program (.ofThreshold threshold) (.ofList ts)).outcome ≠ .error .endless ∧
      (checkTokens threshold ts).diagnostics.length ≤ 6 * ts.length + 1 := by
  obtain ⟨hlast, hcost⟩ := program_ends (.ofThreshold threshold) ts
  refine ⟨fun h => hlast _ h, ?_⟩
  have hlength := length_findings_foldl .initial
    (program (.ofThreshold threshold) (.ofList ts)).events
  simp only [checkTokens, parse_eq, Ledger.ofEvents, Ledger.diagnostics, List.length_reverse]
  simp only [Ledger.initial, List.length_nil] at hlength ⊢
  omega

end LuaChecker.Grammar
