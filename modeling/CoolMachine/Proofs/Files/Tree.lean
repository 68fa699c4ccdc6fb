import Mathlib.Data.List.Basic
import CoolMachine.Files.Tree
import CoolMachine.Proofs.Outcome

/-! A file that is created is there to be opened. Putting a file in place leaves every directory
where it is, so that the path that it was created at leads to it afterwards. -/

namespace CoolMachine.Files.Tree

variable {tree : Tree} {path target other : Path} {bytes : List UInt8}

/-! ### Files put in place -/

theorem find?_insert_self : (tree.insert path bytes).find? path = some bytes := by
  rw [find?, insert, List.lookup_cons_self]

theorem lookup_filter_ne (files : List (Path × List UInt8)) (h : other ≠ path) :
    (files.filter fun (entry, _) => entry != path).lookup other = files.lookup other := by
  induction files with
  | nil => rfl
  | cons file files ih =>
      obtain ⟨entry, content⟩ := file
      rw [List.filter_cons]
      by_cases he : entry = path
      · have hne : (other == entry) = false := beq_false_of_ne (he ▸ h)
        rw [if_neg (by simp [he]), ih, List.lookup_cons, hne]
      · rw [if_pos (bne_iff_ne.mpr he), List.lookup_cons, List.lookup_cons, ih]

theorem find?_insert_of_ne (h : other ≠ path) :
    (tree.insert path bytes).find? other = tree.find? other := by
  have hne : (other == path) = false := beq_false_of_ne h
  rw [find?, insert, List.lookup_cons, hne]
  exact lookup_filter_ne tree.files h

theorem isDirectory_iff :
    tree.isDirectory path = true ↔
      path = [] ∨ ∃ file ∈ tree.files, path <+: file.1 ∧ path ≠ file.1 := by
  simp only [isDirectory, Bool.or_eq_true, List.isEmpty_iff, List.any_eq_true, Bool.and_eq_true,
    List.isPrefixOf_iff_prefix, bne_iff_ne]

/-- Directories stay directories, also those on the way to a file that is replaced. -/
theorem isDirectory_insert (h : tree.isDirectory other = true) :
    (tree.insert path bytes).isDirectory other = true := by
  rcases isDirectory_iff.mp h with hroot | ⟨file, hf, hbelow⟩
  · exact isDirectory_iff.mpr (.inl hroot)
  · by_cases hp : file.1 = path
    · exact isDirectory_iff.mpr (.inr ⟨(path, bytes), List.mem_cons_self, hp ▸ hbelow⟩)
    · have hmem : file ∈ (tree.insert path bytes).files :=
        List.mem_cons_of_mem _ (List.mem_filter.mpr ⟨hf, by simpa using hp⟩)
      exact isDirectory_iff.mpr (.inr ⟨file, hmem, hbelow⟩)

/-! ### Ways through directories -/

/-- A name that a file can have. -/
structure IsFileName (name : List Char) : Prop where
  ne_here : name ≠ here
  ne_above : name ≠ above
  fits : ¬ nameLimit < byteLength name

section Ways

variable {names : Path} {name : List Char} {place next : Place}

theorem enter_of_file (h : IsFileName name) (hf : tree.find? (path ++ [name]) = some bytes) :
    tree.enter (.directory path) name = .ok (.file bytes) := by
  simp only [enter, if_neg h.ne_here, if_neg h.ne_above, if_neg h.fits, hf]

theorem enter_of_no_file (h : IsFileName name) (hf : tree.find? (path ++ [name]) = none) :
    tree.enter (.directory path) name =
      if tree.isDirectory (path ++ [name]) then .ok (.directory (path ++ [name]))
      else .error .missing := by
  simp only [enter, if_neg h.ne_here, if_neg h.ne_above, if_neg h.fits, hf]

/-- Where other names lead to does not depend on the files. -/
theorem enter_of_not_isFileName (h : ¬ IsFileName name) (other : Tree) :
    other.enter place name = tree.enter place name := by
  cases place with
  | file content => rfl
  | outside => rfl
  | directory path =>
      simp only [enter]
      split
      · rfl
      · split
        · rfl
        · split
          · rfl
          · next hhere habove hfits => exact absurd ⟨hhere, habove, hfits⟩ h

/-- A name that leads to no file leads to the same place once a file is put where no directory
is. -/
theorem enter_insert (ht : tree.isDirectory target = false) (h : tree.enter place name = .ok next)
    (hn : ∀ content, next ≠ .file content) :
    (tree.insert target bytes).enter place name = .ok next := by
  by_cases hname : IsFileName name
  · cases place with
    | file content => cases h
    | outside => exact h
    | directory path =>
        cases hf : tree.find? (path ++ [name]) with
        | some content =>
            rw [enter_of_file hname hf] at h
            exact absurd (Except.ok.inj h).symm (hn content)
        | none =>
            rw [enter_of_no_file hname hf] at h
            split at h
            · next hd =>
                have hne : path ++ [name] ≠ target := fun he => by simp [he, ht] at hd
                rw [enter_of_no_file hname ((find?_insert_of_ne hne).trans hf),
                  if_pos (isDirectory_insert hd)]
                exact h
            · cases h
  · rw [enter_of_not_isFileName hname]
    exact h

/-- No way goes on behind a file. -/
theorem eq_of_foldlM_file (h : names.foldlM tree.enter (.file bytes) = .ok place) :
    place = .file bytes := by
  cases names with
  | nil => exact (Except.ok.inj h).symm
  | cons name names => cases h

theorem foldlM_enter_insert (ht : tree.isDirectory target = false)
    (h : names.foldlM tree.enter place = .ok (.directory path)) :
    names.foldlM (tree.insert target bytes).enter place = .ok (.directory path) := by
  induction names generalizing place with
  | nil => exact h
  | cons name names ih =>
      rw [List.foldlM_cons] at h ⊢
      obtain ⟨next, hn, h⟩ := Except.bind_eq_ok_iff.mp h
      have hplace : ∀ content, next ≠ .file content := by
        rintro content rfl
        cases eq_of_foldlM_file h
      exact Except.bind_eq_ok_iff.mpr ⟨next, enter_insert ht hn hplace, ih h⟩

end Ways

/-! ### Creating and opening -/

/-- A file may be put in place at the end of the path: it leads through directories to a name that
no directory has. -/
structure Admits (tree : Tree) (path : String) (route : Route) (directory : Path)
    (name : List Char) : Prop where
  route_eq : Route.ofString path = .ok route
  trailingSlash_eq : route.trailingSlash = false
  last_eq : route.names.getLast? = some name
  reaches : route.names.dropLast.foldlM tree.enter route.start = .ok (.directory directory)
  isFileName : IsFileName name
  isDirectory_eq : tree.isDirectory (directory ++ [name]) = false

section Creating

variable {path : String} {route : Route} {directory : Path} {name : List Char} {after : Tree}

theorem Admits.create_eq (h : tree.Admits path route directory name) (bytes : List UInt8) :
    tree.create path bytes = .ok (tree.insert (directory ++ [name]) bytes) := by
  have hspecial : ¬ (route.trailingSlash = true ∨ name = here ∨ name = above) := by
    simp [h.trailingSlash_eq, h.isFileName.ne_here, h.isFileName.ne_above]
  simp only [create, h.route_eq, bind, Except.bind, h.last_eq, h.reaches,
    if_neg hspecial, if_neg h.isFileName.fits, h.isDirectory_eq]
  rfl

theorem exists_admits (h : tree.create path bytes = .ok after) :
    ∃ route directory name, tree.Admits path route directory name := by
  obtain ⟨route, hroute, h⟩ := Except.bind_eq_ok_iff.mp h
  cases hlast : route.names.getLast? with
  | none =>
      rw [hlast] at h
      cases h
  | some name =>
      simp only [hlast] at h
      obtain ⟨place, hreaches, h⟩ := Except.bind_eq_ok_iff.mp h
      cases place with
      | file content => cases h
      | outside => cases h
      | directory directory =>
          simp only [Except.guard_eq_ok_iff, not_or, Bool.not_eq_true] at h
          obtain ⟨⟨hslash, hhere, habove⟩, hfits, hdirectory, -⟩ := h
          exact ⟨route, directory, name, hroute, hslash, hlast, hreaches, ⟨hhere, habove, hfits⟩,
            hdirectory⟩

theorem Admits.openPath_insert (h : tree.Admits path route directory name) :
    (tree.insert (directory ++ [name]) bytes).openPath path = .ok { bytes } := by
  have henter : (tree.insert (directory ++ [name]) bytes).enter (.directory directory) name =
      .ok (.file bytes) := enter_of_file h.isFileName find?_insert_self
  have hreaches : route.names.foldlM (tree.insert (directory ++ [name]) bytes).enter route.start =
      .ok (.file bytes) := by
    rw [← List.dropLast_append_getLast? name h.last_eq, List.foldlM_append]
    refine Except.bind_eq_ok_iff.mpr ⟨_, foldlM_enter_insert h.isDirectory_eq h.reaches, ?_⟩
    exact Except.bind_eq_ok_iff.mpr ⟨_, henter, rfl⟩
  simp only [openPath, h.route_eq, bind, Except.bind, hreaches, h.trailingSlash_eq]
  rfl

end Creating

/-- A file can be created at the path. -/
def Creatable (tree : Tree) (path : String) : Prop := ∃ after, tree.create path [] = .ok after

/-- Whether a file can be created does not depend on its bytes, and it has them afterwards. -/
theorem Creatable.create {path : String} (h : tree.Creatable path) (bytes : List UInt8) :
    ∃ after, tree.create path bytes = .ok after ∧ after.openPath path = .ok { bytes } := by
  obtain ⟨_, hcreate⟩ := h
  obtain ⟨route, directory, name, hadmits⟩ := exists_admits hcreate
  exact ⟨_, hadmits.create_eq bytes, hadmits.openPath_insert⟩

end CoolMachine.Files.Tree
