import LuaChecker.Proofs.FunctionTable

/-!
# What a function table has been through

A table that starts empty is the outcome of the changes that were made to it. What a name
stands for depends only on the changes to that name since it was last declared; changes to
names that are not declared are lost, and changes to different names may be exchanged.

* `params?_perform`: what a change does to the meaning of a name;
* `params?_performAll`: what a row of changes does to it, if the name is not declared again;
* `declared_iff`: which names a table holds that was started empty;
* `run_history`: the table of a history.
-/

namespace LuaChecker.FunctionTable

/-- A change to a function table. -/
inductive Change
  | declare (name : String)
  | addParams (name : String) (params : List String)
  | markVariadic (name : String)
  deriving DecidableEq, Repr

/-- The name that a change is about. -/
def Change.name : Change → String
  | .declare name | .addParams name _ | .markVariadic name => name

/-- What a change adds to the parameters of a name. -/
def Change.added (key : String) : Change → List String
  | .declare _ => []
  | .addParams name params => if name = key then params else []
  | .markVariadic name => if name = key then [variadic] else []

/-- The table after a change. A declaration also tells whether its name was declared
before. -/
def perform (t : FunctionTable) : Change → FunctionTable × Option Bool
  | .declare name => (t.declare name, some (t.contains name))
  | .addParams name params => (t.addParams name params, none)
  | .markVariadic name => (t.markVariadic name, none)

/-- The table after further changes. -/
def performAll (t : FunctionTable) (changes : List Change) : FunctionTable :=
  changes.foldl (fun t change => (t.perform change).1) t

/-- The table that a history leads to. -/
def run (changes : List Change) : FunctionTable :=
  empty.performAll changes

variable {t : FunctionTable} {key : String} {change : Change} {changes : List Change}

/-! ## One change -/

theorem params?_perform (t : FunctionTable) (change : Change) (key : String) :
    (t.perform change).1.params? key =
      if change = .declare key then some []
      else (t.params? key).map (· ++ change.added key) := by
  have hnothing : (t.params? key).map (· ++ []) = t.params? key := by simp
  cases change with
  | declare name =>
    by_cases hname : name = key
    · rw [perform, params?_declare, if_pos hname.symm, if_pos (congrArg _ hname)]
    · have hchange : Change.declare name ≠ .declare key :=
        fun heq => hname (Change.declare.inj heq)
      rw [perform, params?_declare, if_neg (Ne.symm hname), if_neg hchange]
      exact hnothing.symm
  | addParams name params =>
    by_cases hname : name = key
    · simp [perform, params?_addParams, Change.added, hname]
    · simp [perform, params?_addParams, Change.added, hname, Ne.symm hname]
  | markVariadic name =>
    by_cases hname : name = key
    · simp [perform, markVariadic, params?_addParams, Change.added, hname]
    · simp [perform, markVariadic, params?_addParams, Change.added, hname, Ne.symm hname]

/-- A change to another name. -/
theorem params?_perform_of_ne (t : FunctionTable) (h : change.name ≠ key) :
    (t.perform change).1.params? key = t.params? key := by
  have hdeclare : change ≠ .declare key := by
    rintro rfl
    exact h rfl
  have hadded : change.added key = [] := by
    cases change with
    | declare => rfl
    | addParams | markVariadic => exact if_neg h
  simp [params?_perform, hdeclare, hadded]

/-- What a name stands for after a change depends on what it stood for before. -/
theorem params?_perform_congr {u : FunctionTable} (h : t.params? key = u.params? key)
    (change : Change) : (t.perform change).1.params? key = (u.perform change).1.params? key := by
  rw [params?_perform, params?_perform, h]

theorem IsOrdered.perform (h : t.IsOrdered) (change : Change) :
    (t.perform change).1.IsOrdered := by
  cases change with
  | declare => exact h.declare
  | addParams => exact h.addParams
  | markVariadic => exact h.addParams

theorem contains_eq (t : FunctionTable) (key : String) :
    t.contains key = (t.params? key).isSome := by
  rw [Bool.eq_iff_iff, contains_iff]

/-- What a change answers depends on the meaning of its own name only. -/
theorem answer_congr {u : FunctionTable} (h : t.params? change.name = u.params? change.name) :
    (t.perform change).2 = (u.perform change).2 := by
  cases change with
  | declare name =>
    change some (t.contains name) = some (u.contains name)
    rw [contains_eq, contains_eq]
    exact congrArg (fun found => some found.isSome) h
  | addParams | markVariadic => rfl

/-- What is added to a name that is not declared is lost. -/
theorem perform_eq_self (h : t.contains change.name = false)
    (hchange : change ≠ .declare change.name) : (t.perform change).1 = t := by
  have hlost (name : String) (params : List String) (hname : t.contains name = false) :
      t.addParams name params = t := by
    refine congrArg FunctionTable.mk ((List.map_congr_left fun e he => ?_).trans (List.map_id _))
    have hne : e.1 ≠ name := by
      rintro rfl
      have hmem : t.contains e.1 = true :=
        contains_iff.mpr (mem_names_iff.mp (List.mem_map_of_mem he))
      rw [hmem] at hname
      cases hname
    exact if_neg hne
  cases change with
  | declare name => exact absurd rfl hchange
  | addParams name params => exact hlost name params h
  | markVariadic name => exact hlost name _ h

/-- Changes to different names may be exchanged, and their answers stay the same. -/
theorem IsOrdered.perform_comm (h : t.IsOrdered) {other : Change}
    (hne : change.name ≠ other.name) :
    ((t.perform change).1.perform other).1 = ((t.perform other).1.perform change).1 ∧
      ((t.perform change).1.perform other).2 = (t.perform other).2 := by
  constructor
  · refine ((h.perform change).perform other).ext ((h.perform other).perform change) fun key => ?_
    by_cases hkey : change.name = key
    · have hother : other.name ≠ key := fun heq => hne (hkey.trans heq.symm)
      rw [params?_perform_of_ne _ hother]
      exact params?_perform_congr (params?_perform_of_ne t hother).symm change
    · rw [params?_perform_of_ne (t.perform other).1 hkey]
      exact params?_perform_congr (params?_perform_of_ne t hkey) other
  · exact answer_congr (params?_perform_of_ne t hne)

/-! ## Histories -/

theorem performAll_append (t : FunctionTable) (before after : List Change) :
    t.performAll (before ++ after) = (t.performAll before).performAll after :=
  List.foldl_append

theorem IsOrdered.performAll (h : t.IsOrdered) (changes : List Change) :
    (t.performAll changes).IsOrdered := by
  induction changes generalizing t with
  | nil => exact h
  | cons change changes ih => exact ih (h.perform change)

/-- A name that is not declared again keeps what it has, and gets what is added to it. -/
theorem params?_performAll (t : FunctionTable) (h : .declare key ∉ changes) :
    (t.performAll changes).params? key =
      (t.params? key).map (· ++ changes.flatMap (Change.added key)) := by
  induction changes generalizing t with
  | nil => simp [performAll]
  | cons change changes ih =>
    rw [List.mem_cons, not_or] at h
    have hnext := ih (t.perform change).1 h.2
    rw [params?_perform, if_neg (Ne.symm h.1)] at hnext
    rw [List.flatMap_cons]
    simpa [performAll, Option.map_map, Function.comp_def] using hnext

/-- What a name stands for that was declared and not declared again. -/
theorem params?_run_declared (before : List Change) (h : .declare key ∉ changes) :
    (run (before ++ .declare key :: changes)).params? key =
      some (changes.flatMap (Change.added key)) := by
  have hstart := params?_performAll ((run before).perform (.declare key)).1 h
  rw [params?_perform, if_pos rfl, Option.map_some, List.nil_append] at hstart
  rw [run, performAll_append]
  exact hstart

theorem exists_last_declare (h : .declare key ∈ changes) :
    ∃ before after, changes = before ++ .declare key :: after ∧ .declare key ∉ after := by
  obtain ⟨after, before, heq, hafter⟩ := List.eq_append_cons_of_mem (List.mem_reverse.mpr h)
  refine ⟨before.reverse, after.reverse, ?_, fun hmem => hafter (List.mem_reverse.mp hmem)⟩
  rw [← List.reverse_reverse changes, heq]
  simp

theorem declared_iff : (run changes).contains key = true ↔ .declare key ∈ changes := by
  rw [contains_iff]
  constructor
  · intro hsome
    by_contra hnot
    rw [run, params?_performAll empty hnot] at hsome
    cases hsome
  · intro hmem
    obtain ⟨before, after, rfl, hafter⟩ := exists_last_declare hmem
    rw [params?_run_declared before hafter]
    rfl

/-- **The history of a table.** Whatever is done to a table that starts empty, its names come
in the order of their code points, each one once, and they are those that were declared.
A name stands for everything that was added to it since it was last declared, in that order.
A further declaration tells whether its name was declared before; additions to a name that
was not declared change nothing; and two changes to different names lead to the same table
and the same answers in either order. -/
theorem run_history (changes : List Change) :
    let t := run changes
    t.names.Pairwise (· < ·) ∧
      (∀ key, key ∈ t.names ↔ .declare key ∈ changes) ∧
      (∀ key before after, changes = before ++ .declare key :: after → .declare key ∉ after →
        t.params? key = some (after.flatMap (Change.added key))) ∧
      (∀ key, (t.perform (.declare key)).2 = some (decide (.declare key ∈ changes))) ∧
      (∀ change : Change, .declare change.name ∉ changes → change ≠ .declare change.name →
        (t.perform change).1 = t) ∧
      ∀ change other : Change, change.name ≠ other.name →
        run (changes ++ [change, other]) = run (changes ++ [other, change]) ∧
          ((t.perform change).1.perform other).2 = (t.perform other).2 := by
  intro t
  have hordered : t.IsOrdered := isOrdered_empty.performAll changes
  refine ⟨hordered, fun key => ?_, ?_, fun key => ?_, fun change hnot => ?_, ?_⟩
  · rw [mem_names_iff, ← contains_iff]
    exact declared_iff
  · rintro key before after heq hafter
    rw [show t = run (before ++ .declare key :: after) from congrArg run heq]
    exact params?_run_declared before hafter
  · change some (t.contains key) = some (decide (.declare key ∈ changes))
    rw [Option.some.injEq, Bool.eq_iff_iff, decide_eq_true_iff]
    exact declared_iff
  · refine perform_eq_self ?_
    rw [← Bool.not_eq_true, declared_iff]
    exact hnot
  · intro change other hne
    obtain ⟨htable, hanswer⟩ := hordered.perform_comm hne
    refine ⟨?_, hanswer⟩
    rw [run, run, performAll_append, performAll_append]
    exact htable

/-- `f` is declared twice, so its first parameters are forgotten. -/
def redeclaredChanges : List Change :=
  [.declare "f", .addParams "f" ["a", "b"], .declare "f", .markVariadic "f"]

theorem run_history_redeclared :
    Change.declare "f" ∉ [Change.markVariadic "f"] ∧
      (run redeclaredChanges).params? "f" = some ["..."] ∧
      Change.declare "g" ∉ redeclaredChanges ∧
      ((run redeclaredChanges).perform (.markVariadic "g")).1 = run redeclaredChanges ∧
      (Change.declare "g").name ≠ (Change.addParams "f" ["c"]).name ∧
      run (redeclaredChanges ++ [.declare "g", .addParams "f" ["c"]]) =
        run (redeclaredChanges ++ [.addParams "f" ["c"], .declare "g"]) := by
  obtain ⟨-, -, hparams, -, hlost, hexchange⟩ := run_history redeclaredChanges
  have hlast : Change.declare "f" ∉ [Change.markVariadic "f"] := by decide
  have hnew : Change.declare "g" ∉ redeclaredChanges := by decide
  have hne : (Change.declare "g").name ≠ (Change.addParams "f" ["c"]).name := by decide
  refine ⟨hlast, ?_, hnew, hlost (.markVariadic "g") hnew (by decide), hne, ?_⟩
  · exact hparams "f" [.declare "f", .addParams "f" ["a", "b"]] [.markVariadic "f"] rfl hlast
  · exact (hexchange _ _ hne).1

end LuaChecker.FunctionTable
