import LuaChecker.CommandLine.FileTree

/-!
# Writing a file and reading it

A file that was written can be read under the same path, in whichever directory the program
works. The directories that the path goes through are the same after the file is there, since what
it replaces is no directory.

* `write_eq_ok`: what a path that can be written looks like, and what writing does;
* `node?_put`, `node?_put_directory`: what is where after a file was put somewhere;
* `read_write`: the file is there, with its bytes.
-/

namespace LuaChecker.CommandLine

open FileTree

namespace FileTree

variable {t : FileTree}

/-! ## What is where -/

theorem node?_put (place : Names) (bytes : ByteArray) :
    (t.put place bytes).node? place = some (.file bytes) := by
  simp [node?, put]

theorem lookup_filter_ne {place q : Names} (h : q ≠ place) (files : List (Names × ByteArray)) :
    (files.filter (·.1 ≠ place)).lookup q = files.lookup q := by
  induction files with
  | nil => rfl
  | cons f files ih =>
    by_cases hf : f.1 = place
    · have hq : (q == f.1) = false := by simp [hf, h]
      rw [List.filter_cons_of_neg (by simp [hf]), ih, List.lookup_cons, hq]
    · rw [List.filter_cons_of_pos (by simp [hf]), List.lookup_cons, List.lookup_cons, ih]

theorem node?_eq_directory_iff {place : Names} :
    t.node? place = some .directory ↔
      t.files.lookup place = none ∧
        (place = [] ∨ (∃ f ∈ t.files, isAbove place f.1 = true) ∨
          ∃ d ∈ t.directories, isAbove place d = true) := by
  have habove : (place.isEmpty || t.files.any (fun f => isAbove place f.1) ||
      t.directories.any (isAbove place)) = true ↔
        place = [] ∨ (∃ f ∈ t.files, isAbove place f.1 = true) ∨
          ∃ d ∈ t.directories, isAbove place d = true := by
    rw [Bool.or_eq_true, Bool.or_eq_true, List.isEmpty_iff, List.any_eq_true, List.any_eq_true,
      or_assoc]
  unfold node?
  cases t.files.lookup place with
  | some bytes => simp
  | none =>
    rw [← habove]
    simp only [true_and]
    split
    · rename_i h
      exact iff_of_true rfl h
    · rename_i h
      exact iff_of_false (by simp) h

/-- What was a directory still is one after a file was put somewhere else. -/
theorem node?_put_directory {place q : Names} (bytes : ByteArray) (h : q ≠ place)
    (hq : t.node? q = some .directory) : (t.put place bytes).node? q = some .directory := by
  obtain ⟨hnone, habove⟩ := node?_eq_directory_iff.mp hq
  refine node?_eq_directory_iff.mpr ⟨?_, ?_⟩
  · have hne : (q == place) = false := by simp [h]
    rw [put, List.lookup_cons, hne, lookup_filter_ne h, hnone]
  · refine habove.imp_right (Or.imp_left ?_)
    rintro ⟨f, hf, hfq⟩
    by_cases hplace : f.1 = place
    · exact ⟨(place, bytes), List.mem_cons_self, hplace ▸ hfq⟩
    · exact ⟨f, List.mem_cons_of_mem _ (List.mem_filter.mpr ⟨hf, by simpa using hplace⟩), hfq⟩

/-! ## Paths -/

/-- A path can be followed in the same way after a file was put where no directory is. -/
theorem follow_put {place : Names} {bytes : ByteArray} (h : t.node? place ≠ some .directory)
    {names q r : Names} (hfollow : t.follow q names = .ok r) :
    (t.put place bytes).follow q names = .ok r := by
  induction names generalizing q with
  | nil => exact hfollow
  | cons name names ih =>
    unfold follow at hfollow ⊢
    split at hfollow
    · rename_i hq
      have hne : q ≠ place := by
        rintro rfl
        exact h hq
      rw [node?_put_directory bytes hne hq]
      exact ih hfollow
    · cases hfollow
    · cases hfollow

/-- The last name of a path is entered in the directory that the others lead to. -/
theorem follow_concat {names q r : Names} {name : String} (hfollow : t.follow q names = .ok r)
    (hr : t.node? r = some .directory) :
    t.follow q (names ++ [name]) = .ok (enter r name) := by
  induction names generalizing q with
  | nil =>
    cases hfollow
    rw [List.nil_append, follow, hr]
    rfl
  | cons name' names ih =>
    rw [List.cons_append]
    unfold follow at hfollow ⊢
    split at hfollow
    · exact ih hfollow
    · cases hfollow
    · cases hfollow

end FileTree

theorem namesOf_ne_nil (path : String) : namesOf path ≠ [] := by
  unfold namesOf
  simp [Text.split_ne_nil]

namespace Disk

variable {d d' : Disk} {path : String} {bytes : ByteArray}

/-- A path that does not end in a slash or a dot has a last name. -/
theorem namesOf_eq_concat (h : leadsToDirectory path = false) :
    trimmedNames path = namesOf path ∧
      ∃ names name, namesOf path = names ++ [name] ∧ name ≠ "" ∧ name ≠ "." ∧ name ≠ ".." := by
  obtain ⟨names, name, hnames⟩ : ∃ names name, namesOf path = names ++ [name] :=
    ⟨_, _, (List.dropLast_concat_getLast (namesOf_ne_nil path)).symm⟩
  have hlast : (namesOf path).getLastD "" = name := by simp [hnames]
  unfold leadsToDirectory at h
  rw [hlast] at h
  simp only [List.contains_cons, List.contains_nil, Bool.or_false, Bool.or_eq_false_iff,
    beq_eq_false_iff_ne] at h
  refine ⟨?_, names, name, hnames, h.1, h.2.1, h.2.2⟩
  unfold trimmedNames
  rw [hnames, List.reverse_append, List.reverse_singleton, List.singleton_append,
    List.dropWhile_cons_of_neg (by simp [h.1]), List.reverse_cons, List.reverse_reverse]

/-! ## Writing and reading -/

/-- The disk after a file was put somewhere. -/
def put (d : Disk) (place : Names) (bytes : ByteArray) : Disk :=
  ⟨d.toFileTree.put place bytes, d.workingDirectory⟩

theorem writeAt_eq_ok {place : Names} (h : d.writeAt place path bytes = .ok d') :
    ∃ names name, trimmedNames path = names ++ [name] ∧ namesOf path = names ++ [name] ∧
      enter place name = place ++ [name] ∧ d.node? place = some .directory ∧
      d.node? (place ++ [name]) ≠ some .directory ∧ d' = d.put (place ++ [name]) bytes := by
  unfold writeAt at h
  split at h
  · cases h
  · cases h
  · rename_i hplace
    split at h
    · cases h
    · rename_i hfile
      obtain ⟨htrim, names, name, hnames, hne, hdot, hdots⟩ :=
        namesOf_eq_concat (Bool.eq_false_iff.mpr hfile)
      have hlast : (names ++ [name]).getLastD "" = name := by simp
      rw [htrim, hnames, hlast] at h
      refine ⟨names, name, htrim.trans hnames, hnames, ?_, hplace, ?_⟩
      · rw [enter, if_neg (by simp [hne, hdot]), if_neg hdots]
      · unfold writeIn at h
        split at h
        · cases h
        · rename_i hnode
          cases h
          exact ⟨hnode, rfl⟩

/-- A file is written in a directory that its path leads to. -/
theorem write_eq_ok (h : d.write path bytes = .ok d') :
    refuse path = none ∧
      ∃ names name place, namesOf path = names ++ [name] ∧ enter place name = place ++ [name] ∧
        d.follow (d.origin path) names = .ok place ∧ d.node? place = some .directory ∧
        d.node? (place ++ [name]) ≠ some .directory ∧ d' = d.put (place ++ [name]) bytes := by
  unfold write at h
  split at h
  · cases h
  · rename_i hpath
    split at h
    · cases h
    · rename_i place hfollow
      obtain ⟨names, name, htrim, hnames, henter, hplace, hnode, hput⟩ := writeAt_eq_ok h
      rw [htrim, List.dropLast_concat] at hfollow
      exact ⟨hpath, names, name, place, hnames, henter, hfollow, hplace, hnode, hput⟩

theorem resolve_write (h : d.write path bytes = .ok d') :
    ∃ place, d'.resolve path = .ok place ∧ d'.node? place = some (.file bytes) := by
  obtain ⟨hpath, names, name, place, hnames, henter, hfollow, hplace, hnode, rfl⟩ := write_eq_ok h
  have hne : place ≠ place ++ [name] := by simp
  refine ⟨place ++ [name], ?_, node?_put _ _⟩
  have hlast : (d.put (place ++ [name]) bytes).follow (d.origin path) (names ++ [name]) =
      .ok (enter place name) :=
    follow_concat (follow_put hnode hfollow) (node?_put_directory bytes hne hplace)
  rw [resolve, hpath, hnames]
  exact hlast.trans (congrArg Except.ok henter)

/-- A file that was written is there, with its bytes. -/
theorem read_write (h : d.write path bytes = .ok d') :
    d'.contains path = true ∧ d'.read path = .ok bytes := by
  obtain ⟨place, hresolve, hnode⟩ := resolve_write h
  unfold contains read
  rw [hresolve]
  simp only [hnode]
  exact ⟨rfl, trivial⟩

end Disk

end LuaChecker.CommandLine
