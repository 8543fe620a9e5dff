import FormatFuzz.Proofs.Schema.Imports

/-!
# Loading from files that agree

Two file systems that read the same main file and the same files at all paths that an import can
name load the same schemas, even if they list different numbers of files: the depth that the number
allows is never reached.
-/

set_option autoImplicit false

namespace FormatFuzz

/-- All that can be read is listed, among no more names than the file system has. -/
def FileSystem.Covers (fs : FileSystem) : Prop :=
  ∃ names : List String, names.length ≤ fs.names.length ∧ ∀ p t, fs.read p = .ok t → p ∈ names

namespace SchemaSet

theorem sameOk_read (fs gs : FileSystem) (path : String) (h : SameOk (fs.read path) (gs.read path)) :
    SameOk (SchemaFile.read fs path) (SchemaFile.read gs path) := by
  intro f
  unfold SchemaFile.read
  cases hf : fs.read path with
  | ok text => rw [(h text).mp hf]
  | error e =>
    cases hg : gs.read path with
    | ok text =>
      rw [(h text).mpr hg] at hf
      cases hf
    | error e' => simp

section

variable {fs gs : FileSystem}
  (h : ∀ dir name, SameOk (fs.read (importPath dir name)) (gs.read (importPath dir name)))

include h

theorem sameOk_loadImport (id : String) (importer : SchemaFile) (dir name : String) (p : Progress) :
    SameOk (loadImport fs id importer dir name p) (loadImport gs id importer dir name p) := by
  have hread := sameOk_read fs gs _ (h dir name)
  unfold loadImport
  generalize importPath dir name = path at hread ⊢
  by_cases hseen : path ∈ p.seen
  · simp only [if_pos hseen]
    exact SameOk.refl _
  · simp only [if_neg hseen]
    cases hf : SchemaFile.read fs path with
    | ok f =>
      rw [(hread f).mp hf]
      exact SameOk.refl _
    | error e =>
      cases hg : SchemaFile.read gs path with
      | ok f =>
        rw [(hread f).mpr hg] at hf
        cases hf
      | error e' =>
        intro r
        simp

theorem sameOk_loadImports (id : String) (fuel : ℕ) (importer : SchemaFile) (dir : String)
    (names : List String) (p : Progress) :
    SameOk (loadImports fs id fuel importer dir names p)
      (loadImports gs id fuel importer dir names p) := by
  induction fuel generalizing importer dir names p with
  | zero => cases names <;> simp only [loadImports] <;> exact SameOk.refl _
  | succ fuel ihfuel =>
    induction names generalizing p with
    | nil =>
      simp only [loadImports]
      exact SameOk.refl _
    | cons name names ih =>
      simp only [loadImports]
      apply sameOk_bind (sameOk_loadImport h id importer dir name p)
      rintro ⟨q, next⟩
      cases next with
      | none => exact ih q
      | some next => exact sameOk_bind (ihfuel next.1 next.2 _ q) ih

end

theorem loadImports_covered (fs : FileSystem) (hc : fs.Covers) (id : String) (fuel more : ℕ)
    (importer : SchemaFile) (dir : String) (names : List String) (p : Progress)
    (hfuel : fs.names.length < fuel) (hmore : fs.names.length < more) :
    SameOk (loadImports fs id fuel importer dir names p)
      (loadImports fs id more importer dir names p) := by
  obtain ⟨listed, hlength, hlisted⟩ := hc
  have hread : ∀ dir name, SameOk (fs.read (importPath dir name))
      ((⟨listed, fs.read⟩ : FileSystem).read (importPath dir name)) := fun _ _ => SameOk.refl _
  have hsame : ∀ n, SameOk (loadImports fs id n importer dir names p)
      (loadImports ⟨listed, fs.read⟩ id n importer dir names p) :=
    fun n => sameOk_loadImports hread id n importer dir names p
  have hunseen := unseen_le_length ⟨listed, fs.read⟩ p.seen
  have hdepth := loadImports_depth hlisted id fuel more importer dir names p
    (show unseen ⟨listed, fs.read⟩ p.seen < fuel by simp only at hunseen; omega)
    (show unseen ⟨listed, fs.read⟩ p.seen < more by simp only at hunseen; omega)
  exact (hsame fuel).trans (hdepth ▸ (hsame more).symm)

theorem sameOk_load (fs gs : FileSystem) (hf : fs.Covers) (hg : gs.Covers) (main : String)
    (hmain : SameOk (fs.read main) (gs.read main))
    (h : ∀ dir name, SameOk (fs.read (importPath dir name)) (gs.read (importPath dir name))) :
    SameOk (load fs main) (load gs main) := by
  unfold load
  apply sameOk_bind (sameOk_read fs gs main hmain)
  intro f
  refine sameOk_bind ?_ fun q => SameOk.refl _
  generalize hdepth : fs.names.length + gs.names.length + 1 = depth
  have hleft := loadImports_covered fs hf f.schema.id (fs.names.length + 1) depth f (Path.dir main)
    f.schema.body.head.imports ⟨[], [Path.clean main]⟩ (by omega) (by omega)
  have hright := loadImports_covered gs hg f.schema.id (gs.names.length + 1) depth f (Path.dir main)
    f.schema.body.head.imports ⟨[], [Path.clean main]⟩ (by omega) (by omega)
  exact hleft.trans ((sameOk_loadImports h _ _ _ _ _ _).trans hright.symm)

theorem isHollow_congr (fs gs : FileSystem) (main : String) (set : SchemaSet)
    (hmain : SameOk (fs.read main) (gs.read main))
    (h : ∀ dir name, SameOk (fs.read (importPath dir name)) (gs.read (importPath dir name)))
    (hload : load fs main = .ok set) : isHollow fs set = isHollow gs set := by
  have same : ∀ path f, SameOk (fs.read path) (gs.read path) → SchemaFile.read fs path = .ok f →
      SchemaFile.isHollow fs f = SchemaFile.isHollow gs f := by
    intro path f hpath hf
    obtain ⟨text, ht⟩ := read_eq_ok path f hf
    rw [SchemaFile.isHollow, SchemaFile.isHollow, read_path path f hf, ht, (hpath text).mp ht]
  obtain ⟨hfirst, himported⟩ := load_files main set hload
  rw [isHollow, isHollow, same main _ hmain hfirst, Bool.eq_iff_iff, Bool.or_eq_true, Bool.or_eq_true,
    List.any_eq_true, List.any_eq_true]
  refine or_congr_right (exists_congr fun e => and_congr_right fun he => ?_)
  obtain ⟨dir, name, hread⟩ := himported e he
  rw [same _ _ (h dir name) hread]

theorem ends_importPath (dir name : String) :
    ∃ l, Path.Ends (importPath dir name) l ∧ ".ksy".toList <:+ l.toList := by
  have hsuffix : ".ksy".toList <:+
      (if Text.endsWith ".ksy".toList name.toList then name else name ++ ".ksy").toList := by
    by_cases h : Text.endsWith ".ksy".toList name.toList = true
    · rw [if_pos h]
      exact List.isSuffixOf_iff_suffix.mp h
    · rw [if_neg h, String.toList_append]
      exact List.suffix_append _ _
  unfold importPath
  simp only
  generalize (if Text.endsWith ".ksy".toList name.toList then name else name ++ ".ksy") = p
    at hsuffix
  have ends : ∀ q : String, ".ksy".toList <:+ q.toList →
      ∃ l, Path.Ends q l ∧ ".ksy".toList <:+ l.toList :=
    fun q hq => Path.ends_of_suffix _ (by decide) (by decide) q hq
  by_cases hrooted : "/".toList.isPrefixOf p.toList = true
  · obtain ⟨rest, hrest⟩ := List.isPrefixOf_iff_prefix.mp hrooted
    have hp : p.toList = '/' :: rest := hrest.symm
    rw [Text.dropPrefix?, if_pos hrooted, hp]
    rw [hp, List.suffix_cons_iff] at hsuffix
    rcases hsuffix with heq | hsuffix
    · exact absurd (heq ▸ List.mem_cons_self) (by decide : '/' ∉ ".ksy".toList)
    · obtain ⟨l, hl, hksy⟩ := ends (String.ofList rest) (by simpa using hsuffix)
      exact ⟨l, hl.clean, hksy⟩
  · rw [Text.dropPrefix?, if_neg hrooted]
    obtain ⟨l, hl, hksy⟩ := ends p hsuffix
    exact ⟨l, (hl.join dir).clean, hksy⟩

theorem load_alone (fs : FileSystem) (path : String) (f : SchemaFile)
    (hread : SchemaFile.read fs path = .ok f) (hnone : f.schema.body.head.imports = []) :
    load fs path = .ok ⟨f, []⟩ := by
  unfold load
  rw [hread, ok_bind, hnone, loadImports]
  rfl

end SchemaSet

end FormatFuzz
