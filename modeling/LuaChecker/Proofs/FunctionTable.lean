import LuaChecker.FunctionTable
import Mathlib.Data.String.Basic

/-!
# What a function table holds

A declaration gives a name an entry without parameters, parameters are added to the entry of
a declared name, and nothing else changes; the names stay in their order.

* `params?_declare`, `params?_addParams`: what every name stands for after a change;
* `IsOrdered.declare`, `IsOrdered.addParams`: each name comes before those that are greater;
* `IsOrdered.names_declare`, `names_declare_perm`: which names there are after a declaration;
* `IsOrdered.ext`: a table is determined by what the names stand for;
* `params?_ofEntries`, `isOrdered_ofEntries`: the table that is made of given entries.
-/

namespace LuaChecker.FunctionTable

variable {t : FunctionTable} {name key : String} {params : List String}
  {es : List (String × List String)}

/-! ## Lookup -/

theorem lookup_entry {β : Type} (e : String × β) (es : List (String × β)) :
    (e :: es).lookup key = if key = e.1 then some e.2 else es.lookup key := by
  obtain ⟨first, b⟩ := e
  by_cases h : key = first
  · simp [h]
  · have hbeq : (key == first) = false := by simpa using h
    simp [List.lookup_cons, hbeq, h]

theorem isSome_lookup_iff {β : Type} {es : List (String × β)} :
    (es.lookup key).isSome = true ↔ key ∈ es.map (·.1) := by
  induction es with
  | nil => simp
  | cons e es ih =>
    rw [lookup_entry, List.map_cons, List.mem_cons, ← ih]
    by_cases h : key = e.1
    · simp [h]
    · simp [h]

theorem lookup_put :
    (put name params es).lookup key = if key = name then some params else es.lookup key := by
  induction es with
  | nil => rw [put, lookup_entry]
  | cons e es ih =>
    unfold put
    split
    · rw [lookup_entry]
    split
    · rename_i heq
      rw [lookup_entry, lookup_entry, ← heq]
      split
      · rfl
      · rfl
    · rename_i hne
      rw [lookup_entry, lookup_entry, ih]
      by_cases hkey : key = name
      · subst hkey
        rw [if_neg hne, if_pos rfl, if_pos rfl]
      · rw [if_neg hkey, if_neg hkey]

theorem params?_declare :
    (t.declare name).params? key = if key = name then some [] else t.params? key :=
  lookup_put

theorem params?_addParams :
    (t.addParams name params).params? key =
      if key = name then (t.params? key).map (· ++ params) else t.params? key := by
  unfold addParams params?
  induction t.entries with
  | nil => simp
  | cons e es ih =>
    rw [List.map_cons, lookup_entry, lookup_entry, ih]
    by_cases hkey : key = name
    · subst hkey
      by_cases hfirst : key = e.1
      · simp [← hfirst]
      · have hfirst' : ¬ e.1 = key := fun heq => hfirst heq.symm
        simp [hfirst, hfirst']
    · by_cases hname : e.1 = name
      · simp [hname, hkey]
      · simp [hname, hkey]

theorem mem_names_iff : key ∈ t.names ↔ (t.params? key).isSome = true :=
  isSome_lookup_iff.symm

theorem contains_iff : t.contains key = true ↔ (t.params? key).isSome = true := by
  rw [← mem_names_iff]
  simp [contains, names]

/-! ## Order -/

/-- The names of a table are in their order, each one once. -/
def IsOrdered (t : FunctionTable) : Prop :=
  t.names.Pairwise (· < ·)

theorem isOrdered_empty : empty.IsOrdered := List.Pairwise.nil

theorem mem_put {e : String × List String} (h : e ∈ put name params es) :
    e = (name, params) ∨ e ∈ es := by
  induction es with
  | nil => exact .inl (List.mem_singleton.mp h)
  | cons e' es ih =>
    unfold put at h
    split at h
    · exact List.mem_cons.mp h
    split at h
    · exact (List.mem_cons.mp h).imp_right (List.mem_cons_of_mem _)
    · rcases List.mem_cons.mp h with rfl | h
      · exact .inr List.mem_cons_self
      · exact (ih h).imp_right (List.mem_cons_of_mem _)

theorem pairwise_put (h : (es.map (·.1)).Pairwise (· < ·)) :
    ((put name params es).map (·.1)).Pairwise (· < ·) := by
  rw [List.pairwise_map] at h ⊢
  induction es with
  | nil => simp [put]
  | cons e es ih =>
    obtain ⟨hfirst, hrest⟩ := List.pairwise_cons.mp h
    unfold put
    split
    · rename_i hlt
      refine List.pairwise_cons.mpr ⟨fun e' he' => ?_, h⟩
      rcases List.mem_cons.mp he' with rfl | he'
      · exact hlt
      · exact lt_trans hlt (hfirst e' he')
    split
    · rename_i heq
      subst heq
      exact List.pairwise_cons.mpr ⟨hfirst, hrest⟩
    · rename_i hnot hne
      refine List.pairwise_cons.mpr ⟨fun e' he' => ?_, ih hrest⟩
      rcases mem_put he' with rfl | he'
      · exact lt_of_le_of_ne (not_lt.mp hnot) (Ne.symm hne)
      · exact hfirst e' he'

theorem map_put_of_mem (h : (es.map (·.1)).Pairwise (· < ·)) (hname : name ∈ es.map (·.1)) :
    (put name params es).map (·.1) = es.map (·.1) := by
  induction es with
  | nil => cases hname
  | cons e es ih =>
    obtain ⟨hfirst, hrest⟩ := List.pairwise_cons.mp h
    unfold put
    split
    · rename_i hlt
      rcases List.mem_cons.mp hname with rfl | hname
      · exact absurd hlt (lt_irrefl _)
      · exact absurd (lt_trans hlt (hfirst name hname)) (lt_irrefl _)
    split
    · rename_i heq
      rw [List.map_cons, List.map_cons, heq]
    · rename_i hne
      have hlater : name ∈ es.map (·.1) := (List.mem_cons.mp hname).resolve_left hne
      rw [List.map_cons, List.map_cons, ih hrest hlater]

theorem map_put_perm (hname : name ∉ es.map (·.1)) :
    ((put name params es).map (·.1)).Perm (name :: es.map (·.1)) := by
  induction es with
  | nil => exact .refl _
  | cons e es ih =>
    rw [List.map_cons, List.mem_cons, not_or] at hname
    unfold put
    rw [if_neg hname.1]
    split
    · exact .refl _
    · exact ((ih hname.2).cons e.1).trans (.swap name e.1 _)

/-- A name that is declared again does not change the names. -/
theorem IsOrdered.names_declare (h : t.IsOrdered) (hname : t.contains name = true) :
    (t.declare name).names = t.names :=
  map_put_of_mem h (mem_names_iff.mpr (contains_iff.mp hname))

/-- A new name is added to the names. -/
theorem names_declare_perm (hname : t.contains name = false) :
    (t.declare name).names.Perm (name :: t.names) := by
  refine map_put_perm fun hmem => ?_
  rw [contains_iff.mpr (mem_names_iff.mp hmem)] at hname
  cases hname

theorem length_names (t : FunctionTable) : t.names.length = t.size := by
  simp [names, size]

theorem IsOrdered.declare (h : t.IsOrdered) : (t.declare name).IsOrdered :=
  pairwise_put h

theorem names_addParams : (t.addParams name params).names = t.names := by
  unfold addParams names
  rw [List.map_map]
  refine List.map_congr_left fun e _ => ?_
  simp only [Function.comp]
  split <;> rfl

theorem IsOrdered.addParams (h : t.IsOrdered) : (t.addParams name params).IsOrdered := by
  unfold IsOrdered
  rw [names_addParams]
  exact h

/-- Each entry of an ordered table is the one that is looked up. -/
theorem IsOrdered.params?_of_mem (h : t.IsOrdered) {e : String × List String}
    (he : e ∈ t.entries) : t.params? e.1 = some e.2 := by
  obtain ⟨before, after, hentries⟩ := List.append_of_mem he
  unfold IsOrdered names at h
  rw [hentries, List.map_append, List.pairwise_append] at h
  refine List.lookup_eq_some_iff.mpr ⟨before, after, hentries, fun other hother => ?_⟩
  have hlt := h.2.2 other.1 (List.mem_map_of_mem hother) e.1 (by simp)
  simpa using hlt.ne'

/-- A name in front of all names of a list stands for nothing there. -/
theorem lookup_eq_none_of_lt (h : ∀ other ∈ es.map (·.1), key < other) :
    es.lookup key = none := by
  rw [← Option.not_isSome_iff_eq_none, isSome_lookup_iff]
  exact fun hmem => lt_irrefl key (h key hmem)

/-- The first name of a list is not in front of all names of an ordered list in which every
name stands for the same. -/
theorem first_not_lt {e f : String × List String} {fs : List (String × List String)}
    (hfs : ((f :: fs).map (·.1)).Pairwise (· < ·))
    (h : ∀ key, (e :: es).lookup key = (f :: fs).lookup key) : ¬ e.1 < f.1 := by
  intro hlt
  rw [List.map_cons, List.pairwise_cons] at hfs
  have hnone : (f :: fs).lookup e.1 = none := lookup_eq_none_of_lt <| by
    rw [List.map_cons, List.forall_mem_cons]
    exact ⟨hlt, fun other hother => lt_trans hlt (hfs.1 other hother)⟩
  have hsome := h e.1
  rw [hnone, lookup_entry, if_pos rfl] at hsome
  cases hsome

theorem eq_of_lookup {fs : List (String × List String)}
    (hes : (es.map (·.1)).Pairwise (· < ·)) (hfs : (fs.map (·.1)).Pairwise (· < ·))
    (h : ∀ key, es.lookup key = fs.lookup key) : es = fs := by
  induction es generalizing fs with
  | nil =>
    cases fs with
    | nil => rfl
    | cons f fs => simpa [lookup_entry] using h f.1
  | cons e es ih =>
    cases fs with
    | nil => simpa [lookup_entry] using h e.1
    | cons f fs =>
      have hfirst : e.1 = f.1 :=
        le_antisymm (not_lt.mp (first_not_lt hes fun key => (h key).symm))
          (not_lt.mp (first_not_lt hfs h))
      rw [List.map_cons, List.pairwise_cons] at hes hfs
      have hparams := h e.1
      rw [lookup_entry, lookup_entry, if_pos rfl, if_pos hfirst] at hparams
      have hrest : es = fs := ih hes.2 hfs.2 fun key => by
        by_cases hkey : key = e.1
        · rw [hkey, lookup_eq_none_of_lt hes.1, hfirst, lookup_eq_none_of_lt hfs.1]
        · have hlater := h key
          rwa [lookup_entry, lookup_entry, if_neg hkey, if_neg (hfirst ▸ hkey)] at hlater
      rw [hrest, Prod.ext hfirst (Option.some.inj hparams)]

/-- Two tables in which every name stands for the same are the same. -/
theorem IsOrdered.ext {u : FunctionTable} (ht : t.IsOrdered) (hu : u.IsOrdered)
    (h : ∀ key, t.params? key = u.params? key) : t = u :=
  congrArg FunctionTable.mk (eq_of_lookup ht hu h)

/-! ## Tables of given entries -/

/-- The table with these entries, put in the order of their names. Of two entries of one name
the first one counts. -/
def ofEntries (es : List (String × List String)) : FunctionTable :=
  ⟨es.foldr (fun e => put e.1 e.2) []⟩

theorem params?_ofEntries : (ofEntries es).params? key = es.lookup key := by
  induction es with
  | nil => rfl
  | cons e es ih =>
    rw [lookup_entry, ← ih]
    exact lookup_put

theorem isOrdered_ofEntries (es : List (String × List String)) : (ofEntries es).IsOrdered := by
  induction es with
  | nil => exact isOrdered_empty
  | cons e es ih => exact pairwise_put ih

/-- Parameters may be added to the entries before these are put in order. -/
theorem addParams_ofEntries :
    (ofEntries es).addParams name params = ofEntries (addParams ⟨es⟩ name params).entries := by
  refine (isOrdered_ofEntries es).addParams.ext (isOrdered_ofEntries _) fun key => ?_
  rw [params?_addParams, params?_ofEntries, params?_ofEntries]
  exact params?_addParams.symm

end LuaChecker.FunctionTable
