import GraphqlFragments.Project.Configuration
import GraphqlFragments.Proofs.Directories
import GraphqlFragments.Proofs.ShownPaths
/-!
# Paths in configurations

The paths of a configuration are taken from the directory of its file. A path that is kept there
is written from that directory if it leads below it, and as an absolute path otherwise, so it leads
back to where it has led from the working directory. But a configuration is a text, and to put a
path into it as it is shown leads elsewhere unless the path is a text as well.
-/

namespace GraphqlFragments.Configuration

variable {wd : FilePath}

/-- All paths of a configuration are taken from its directory. -/
theorem resolvePath_eq_join (c : Configuration) (path : FilePath) :
    c.resolvePath path = c.path.dir.join path := by
  rw [resolvePath]
  cases habsolute : path.isAbsolute with
  | true => rw [if_pos rfl, FilePath.join_of_isAbsolute habsolute]
  | false =>
      rw [if_neg Bool.false_ne_true, FilePath.dir]
      cases c.path.parent? with
      | some dir => rfl
      | none => exact (FilePath.empty_join path).symm

/-- The path that is kept for a path is what is left of it below the directory of the
configuration, or an absolute path if it leads elsewhere. -/
theorem relativePath_spec (hwd : wd.isAbsolute = true) (c : Configuration) (path : FilePath) :
    ((c.relativePath wd path).isAbsolute = false ∧ (wd.join path).components =
      (wd.join c.path.dir).components ++ (c.relativePath wd path).inner) ∨
    (c.relativePath wd path = wd.join path ∧
      ¬(wd.join c.path.dir).components <+: (wd.join path).components) := by
  have hkept : c.relativePath wd path =
      ((wd.join path).stripPrefix? (wd.join c.path.dir)).getD (wd.join path) := rfl
  cases hstrip : (wd.join path).stripPrefix? (wd.join c.path.dir) with
  | none =>
      rw [hstrip, Option.getD_none] at hkept
      exact Or.inr ⟨hkept, FilePath.stripPrefix?_eq_none_iff.mp hstrip⟩
  | some rest =>
      rw [hstrip, Option.getD_some] at hkept
      rw [hkept]
      exact Or.inl
        (FilePath.stripPrefix?_spec (FilePath.isAbsolute_join_of_left hwd c.path.dir) hstrip)

/-- The path that is kept for a path leads back to it. -/
theorem components_resolvePath_relativePath (hwd : wd.isAbsolute = true) (c : Configuration)
    (path : FilePath) : (wd.join (c.resolvePath (c.relativePath wd path))).components =
      (wd.join path).components := by
  rw [resolvePath_eq_join]
  rcases relativePath_spec hwd c path with ⟨hrelative, hcomponents⟩ | ⟨habsolute, -⟩
  · rw [FilePath.components_join_join hwd hrelative, hcomponents]
  · have hpath := FilePath.isAbsolute_join_of_left hwd path
    rw [habsolute, FilePath.join_of_isAbsolute hpath, FilePath.join_of_isAbsolute hpath]

/-- A path that is kept as it is shown leads back only if it is a text. -/
theorem components_resolvePath_shown_iff (hwd : wd.isAbsolute = true) (c : Configuration)
    (path : FilePath) : (wd.join (c.resolvePath (c.relativePath wd path).shown)).components =
      (wd.join path).components ↔ (c.relativePath wd path).IsText := by
  have hdir := FilePath.isAbsolute_join_of_left hwd c.path.dir
  rw [← components_resolvePath_relativePath hwd c path, resolvePath_eq_join, resolvePath_eq_join,
    FilePath.join_assoc, FilePath.join_assoc, FilePath.components_join_eq hdir,
    FilePath.components_join_eq hdir, FilePath.isAbsolute_shown, List.append_right_inj,
    FilePath.inner_shown_eq_iff]

/-- A path is kept as a relative one exactly if it leads below the directory of the
configuration. -/
theorem isAbsolute_relativePath_eq_false_iff (hwd : wd.isAbsolute = true) (c : Configuration)
    (path : FilePath) : (c.relativePath wd path).isAbsolute = false ↔
      (wd.join c.path.dir).components <+: (wd.join path).components := by
  rcases relativePath_spec hwd c path with ⟨hrelative, hcomponents⟩ | ⟨habsolute, hoff⟩
  · exact iff_of_true hrelative ⟨_, hcomponents.symm⟩
  · rw [habsolute, FilePath.isAbsolute_join_of_left hwd path]
    exact iff_of_false Bool.noConfusion hoff

/-- The path that is kept for a path leads back to it. It is relative exactly if it leads below
the directory of the configuration, which is the working directory for a configuration without a
name and otherwise what stands before its last component. -/
theorem relativePath_leads_back (hwd : wd.isAbsolute = true) (c : Configuration)
    (path : FilePath) :
    (wd.join (c.resolvePath (c.relativePath wd path))).components = (wd.join path).components ∧
      ((c.relativePath wd path).isAbsolute = false ↔
        (wd.join c.path.dir).components <+: (wd.join path).components) ∧
      (wd.join c.path.dir).components =
        if c.path.inner = [] then wd.components else (wd.join c.path).components.dropLast :=
  ⟨components_resolvePath_relativePath hwd c path, isAbsolute_relativePath_eq_false_iff hwd c path,
    FilePath.components_join_dir hwd c.path⟩

/-- A configuration with a path that has parts that do not count. -/
def scattered : Configuration := .empty ⟨"conf//./graphql/.graphqlconfig"⟩

theorem relativePath_leads_back_scattered :
    scattered.relativePath ⟨"/home"⟩ ⟨"./conf/graphql/../a"⟩ = ⟨"../a"⟩ ∧
      ((FilePath.mk "/home").join (scattered.resolvePath ⟨"../a"⟩)).components =
        [.root, .name "home", .name "conf", .name "graphql", .parent, .name "a"] ∧
      (scattered.relativePath ⟨"/home"⟩ ⟨"conf/a"⟩).isAbsolute = true ∧
      ((FilePath.mk "/home").join (Configuration.empty ⟨"/"⟩).path.dir).components =
        [.root, .name "home"] := by
  have hwd : (FilePath.mk "/home").isAbsolute = true := by decide
  have hkept : scattered.relativePath ⟨"/home"⟩ ⟨"./conf/graphql/../a"⟩ = ⟨"../a"⟩ := by decide
  have hback := (relativePath_leads_back hwd scattered ⟨"./conf/graphql/../a"⟩).1
  have hoff := (relativePath_leads_back hwd scattered ⟨"conf/a"⟩).2.1
  have hroot := (relativePath_leads_back hwd (.empty ⟨"/"⟩) ⟨"a"⟩).2.2
  refine ⟨hkept, ?_, ?_, ?_⟩
  · rw [hkept] at hback
    rw [hback]
    decide
  · rw [← Bool.not_eq_false, hoff]
    decide
  · rw [hroot]
    decide

end GraphqlFragments.Configuration
