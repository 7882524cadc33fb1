import LuaChecker.Proofs.CommandLine.Files

/-!
# The directories of a file that is written

A file is written after the directories that its path goes through were created. Creating them
changes no file, also if not all of them can be created, and writing changes no other file. A file
that was there before can be written over only if its path did not lead to it: it leaves a
directory that was missing by two dots.

* `bytesAt?`: the file at a place;
* `createAlong_cons`, `createParents_cases`: what a step and the whole way can do;
* `files_createParents`, `bytesAt?_put`: what becomes of the files;
* `follow_eq_ok`: where a path leads if it leads anywhere;
* `createAlong_eq_self`: no directory is missing above a file;
* `resolve_of_overwritten`, `dots_of_overwritten`: when a file is written over.
-/

namespace LuaChecker.CommandLine

open FileTree

variable {t : FileTree} {place names : Names}

namespace FileTree

/-- The bytes in the file at a place. -/
def bytesAt? (t : FileTree) (place : Names) : Option ByteArray :=
  t.files.lookup place

/-! ## Files -/

/-- A step goes through a directory, or creates it, or fails. -/
theorem createAlong_cons (t : FileTree) (created : Bool) (place : Names) (name : String)
    (names : Names) :
    t.createAlong created place (name :: names) = t.createAlong created (enter place name) names ∨
      t.node? (enter place name) = none ∧ t.createAlong created place (name :: names) =
        createAlong ⟨t.files, enter place name :: t.directories⟩ true (enter place name) names ∨
      ∃ fault, t.createAlong created place (name :: names) = (.error fault, t) := by
  rw [createAlong]
  cases hnode : t.node? (enter place name) with
  | none =>
    by_cases hplace : t.isDirectory place = true
    · exact .inr (.inl ⟨rfl, if_pos hplace⟩)
    · exact .inr (.inr ⟨_, if_neg hplace⟩)
  | some node =>
    cases node with
    | directory => exact .inl rfl
    | file bytes => exact .inr (.inr ⟨_, rfl⟩)

/-- Directories are created, also if the way ends early, and no file is changed. -/
theorem files_createAlong (t : FileTree) (created : Bool) (place names : Names) :
    (t.createAlong created place names).2.files = t.files := by
  induction names generalizing t created place with
  | nil => rfl
  | cons name names ih =>
    rcases createAlong_cons t created place name names with h | ⟨-, h⟩ | ⟨fault, h⟩
    · rw [h, ih]
    · rw [h, ih]
    · rw [h]

theorem bytesAt?_put (t : FileTree) (place : Names) (bytes : ByteArray) :
    (t.put place bytes).bytesAt? place = some bytes := by
  simp [bytesAt?, put]

theorem bytesAt?_put_of_ne {q : Names} (h : q ≠ place) (bytes : ByteArray) :
    (t.put place bytes).bytesAt? q = t.bytesAt? q := by
  have hne : (q == place) = false := by simp [h]
  rw [bytesAt?, put, List.lookup_cons, hne, lookup_filter_ne h]
  rfl

theorem node?_of_bytesAt? {bytes : ByteArray} (h : t.bytesAt? place = some bytes) :
    t.node? place = some (.file bytes) := by
  unfold bytesAt? at h
  unfold node?
  rw [h]

/-! ## Places -/

/-- A path that leads somewhere leads through its names one by one. -/
theorem follow_eq_ok {q : Names} (h : t.follow place names = .ok q) :
    q = names.foldl enter place := by
  induction names generalizing place with
  | nil =>
    cases h
    rfl
  | cons name names ih =>
    unfold follow at h
    split at h
    · exact ih h
    · cases h
    · cases h

/-- Idle names can be left out. -/
theorem foldl_enter_filter (place names : Names) :
    (names.filter fun name => name ≠ "" ∧ name ≠ ".").foldl enter place =
      names.foldl enter place := by
  induction names generalizing place with
  | nil => rfl
  | cons name names ih =>
    by_cases hidle : name = "" ∨ name = "."
    · have hstay : enter place name = place := if_pos hidle
      rw [List.filter_cons_of_neg (by simpa [Decidable.or_iff_not_imp_left] using hidle), ih,
        List.foldl_cons, hstay]
    · rw [not_or] at hidle
      rw [List.filter_cons_of_pos (by simpa using hidle), List.foldl_cons, List.foldl_cons, ih]

theorem prefix_enter {name : String} (h : name ≠ "..") (place : Names) :
    place <+: enter place name := by
  unfold enter
  rw [if_neg h]
  split
  · exact List.prefix_rfl
  · exact List.prefix_append place [name]

/-- Names without two dots lead downwards. -/
theorem prefix_foldl_enter (h : ".." ∉ names) (place : Names) :
    place <+: names.foldl enter place := by
  induction names generalizing place with
  | nil => exact List.prefix_rfl
  | cons name names ih =>
    rw [List.mem_cons, not_or] at h
    exact (prefix_enter (Ne.symm h.1) place).trans (ih h.2 (enter place name))

/-- Something is at every place above a file. -/
theorem node?_ne_none {f : Names × ByteArray} (hf : f ∈ t.files) (h : place <+: f.1) :
    t.node? place ≠ none := by
  have habove : isAbove place f.1 = true := List.isPrefixOf_iff_prefix.mpr h
  have hany : t.files.any (fun f => isAbove place f.1) = true :=
    List.any_eq_true.mpr ⟨f, hf, habove⟩
  unfold node?
  cases t.files.lookup place with
  | some bytes => simp
  | none => simp [hany]

/-- No directory is missing above a file. -/
theorem createAlong_eq_self {f : Names × ByteArray} (hf : f ∈ t.files) (hdots : ".." ∉ names)
    (hbelow : names.foldl enter place <+: f.1) (created : Bool) :
    (t.createAlong created place names).2 = t := by
  induction names generalizing created place with
  | nil => rfl
  | cons name names ih =>
    rw [List.mem_cons, not_or] at hdots
    rw [List.foldl_cons] at hbelow
    rcases createAlong_cons t created place name names with h | ⟨hnone, -⟩ | ⟨fault, h⟩
    · rw [h, ih hdots.2 hbelow]
    · exact absurd hnone
        (node?_ne_none hf ((prefix_foldl_enter hdots.2 (enter place name)).trans hbelow))
    · rw [h]

end FileTree

namespace Disk

variable {d : Disk} {path : String}

/-- Directories are created on the way along the names of a path, if it is a path. -/
theorem createParents_cases (d : Disk) (path : String) :
    (d.createParents path).2 = d ∨
      (d.createParents path).2 =
        ⟨(d.createAlong false (d.origin path) (properNames path).dropLast).2,
          d.workingDirectory⟩ := by
  by_cases hnull : (properNames path).dropLast.any hasNull = true
  · exact .inl (congrArg Prod.snd (if_pos hnull))
  · exact .inr (congrArg Prod.snd (if_neg hnull))

/-- The files, and the directory in which a program works, are the same after directories were
created. -/
theorem files_createParents (d : Disk) (path : String) :
    (d.createParents path).2.files = d.files ∧
      (d.createParents path).2.workingDirectory = d.workingDirectory := by
  rcases createParents_cases d path with h | h
  · rw [h]
    exact ⟨rfl, rfl⟩
  · rw [h]
    exact ⟨files_createAlong _ _ _ _, rfl⟩

/-! ## Writing over a file -/

theorem resolve_eq_ok (h : d.resolve path = .ok place) :
    place = (namesOf path).foldl enter (d.origin path) := by
  unfold resolve at h
  split at h
  · cases h
  · exact follow_eq_ok h

/-- A path leads to the place one name behind the place that its other names lead to. -/
theorem resolve_concat {name : String} {q : Names} (h : d.resolve path = .ok place)
    (hnames : namesOf path = names ++ [name]) (hfollow : t.follow (d.origin path) names = .ok q) :
    place = enter q name := by
  rw [resolve_eq_ok h, hnames, List.foldl_append, ← follow_eq_ok hfollow]
  rfl

/-- A file that is written stands where its path leads, and nothing else is changed. -/
theorem write_eq_put {d' : Disk} {bytes : ByteArray} (h : d.write path bytes = .ok d') :
    ∃ place, d'.resolve path = .ok place ∧ d' = d.put place bytes := by
  obtain ⟨place, hplace, -⟩ := resolve_write h
  obtain ⟨-, names, name, q, hnames, henter, hfollow, -, -, hput⟩ := write_eq_ok h
  refine ⟨place, hplace, ?_⟩
  have hsame : d'.origin path = d.origin path := by rw [hput]; rfl
  rw [← hsame] at hfollow
  rw [(resolve_concat hplace hnames hfollow).trans henter]
  exact hput

/-- The directories of a path are all its names but the last one. -/
theorem dropLast_properNames {name : String} (hnames : namesOf path = names ++ [name])
    (henter : enter place name = place ++ [name]) :
    (properNames path).dropLast = names.filter fun name => name ≠ "" ∧ name ≠ "." := by
  have hproper : ¬ (name = "" ∨ name = ".") := by
    intro hidle
    rw [enter, if_pos hidle] at henter
    simp at henter
  rw [not_or] at hproper
  have hlast : [name].filter (fun name => name ≠ "" ∧ name ≠ ".") = [name] :=
    List.filter_cons_of_pos (by simpa using hproper)
  rw [properNames, hnames, List.filter_append, hlast, List.dropLast_concat]

/-- No directory is created if the way leads downwards to the directory of a file. -/
theorem createParents_eq_self {f : Names × ByteArray} (hf : f ∈ d.files)
    (hdots : ".." ∉ namesOf path)
    (hbelow : (properNames path).dropLast.foldl enter (d.origin path) <+: f.1) :
    (d.createParents path).2 = d := by
  have hdown : ".." ∉ (properNames path).dropLast := fun hmem =>
    hdots (List.mem_filter.mp ((List.dropLast_sublist _).subset hmem)).1
  rcases createParents_cases d path with h | h
  · exact h
  · rw [h, createAlong_eq_self hf hdown hbelow false]

section Overwritten

variable {made written : Disk} {bytes : ByteArray}

/-- A file that is written over was not found under its path. -/
theorem resolve_of_overwritten (hmissing : d.contains path = false)
    (hsame : written.workingDirectory = d.workingDirectory)
    (hplace : written.resolve path = .ok place) (hold : (d.bytesAt? place).isSome = true) :
    ∃ fault, d.resolve path = .error fault := by
  cases hresolve : d.resolve path with
  | error fault => exact ⟨fault, rfl⟩
  | ok q =>
    obtain ⟨old, hbytes⟩ := Option.isSome_iff_exists.mp hold
    have horigin : written.origin path = d.origin path := by rw [origin, hsame]; rfl
    have hq : q = place := by rw [resolve_eq_ok hresolve, resolve_eq_ok hplace, horigin]
    unfold contains at hmissing
    rw [hresolve] at hmissing
    simp only [hq, node?_of_bytesAt? hbytes] at hmissing
    cases hmissing

/-- The path of a file that is written over leaves a directory by two dots. -/
theorem dots_of_overwritten (hmissing : d.contains path = false)
    (hmade : (d.createParents path).2 = made) (hwritten : made.write path bytes = .ok written)
    (hplace : written.resolve path = .ok place) (hold : (d.bytesAt? place).isSome = true) :
    ".." ∈ namesOf path := by
  refine Decidable.byContradiction fun hdots => ?_
  obtain ⟨hpath, names, name, q, hnames, henter, hfollow, hq, -, hput⟩ := write_eq_ok hwritten
  have hsame : made.workingDirectory = d.workingDirectory :=
    hmade ▸ (files_createParents d path).2
  have hsame' : written.workingDirectory = made.workingDirectory := by rw [hput]; rfl
  obtain ⟨fault, hfault⟩ :=
    resolve_of_overwritten hmissing (hsame'.trans hsame) hplace hold
  obtain ⟨old, hbytes⟩ := Option.isSome_iff_exists.mp hold
  obtain ⟨before, after, hfiles, -⟩ := List.lookup_eq_some_iff.mp hbytes
  have hfile : (place, old) ∈ d.files := hfiles ▸ List.mem_append_right _ List.mem_cons_self
  have horigin : made.origin path = d.origin path := by rw [origin, hsame]; rfl
  have horigin' : written.origin path = made.origin path := by rw [origin, hsame']; rfl
  have hend : place = q ++ [name] :=
    (resolve_concat hplace hnames (horigin' ▸ hfollow)).trans henter
  have hbelow : (properNames path).dropLast.foldl enter (d.origin path) <+: place := by
    rw [dropLast_properNames hnames henter, foldl_enter_filter, ← horigin,
      ← follow_eq_ok hfollow, hend]
    exact List.prefix_append q [name]
  obtain rfl : made = d := hmade.symm.trans (createParents_eq_self hfile hdots hbelow)
  rw [resolve, hpath, hnames] at hfault
  have hlast : made.follow (made.origin path) (names ++ [name]) = .ok (enter q name) :=
    follow_concat hfollow hq
  simp only [hlast] at hfault
  cases hfault

end Overwritten

end Disk

end LuaChecker.CommandLine
