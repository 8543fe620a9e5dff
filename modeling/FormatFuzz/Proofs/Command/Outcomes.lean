import FormatFuzz.Command.Compile
import FormatFuzz.Proofs.Command.Sources

/-!
# What a compilation comes to

Compiling one schema is to render it, to make the directory of its file, and to write the file. What
is rendered depends on the schema and its imports alone. Only a tree that has a file or a directory
in the way keeps it from being written, and a tree that has grown still has it.
-/

set_option autoImplicit false

namespace FormatFuzz.Command

open FileTree
open Log (Logger)

def Job.translate (j : Job) (path : String) (s : SchemaSet) : Except Obstacle (String × String) :=
  match Model.compile j.options s with
  | .error e => .error (.schema e)
  | .ok m =>
    match j.backend.render ⟨j.package, Path.base path, j.seed⟩ m with
    | .error o => .error o
    | .ok text => .ok (j.file ((m.root?.map TypeDef.name).getD ""), text)

def Job.rendered (j : Job) (w : Workspace) (path : String) : Except Obstacle (String × String) :=
  match w.load j.root path with
  | .error e => .error (.load e)
  | .ok s => if w.isHollow j.root path s then .error .crash else j.translate path s

/-- What a compilation leaves behind and comes to, its log apart. -/
def Job.run (j : Job) (w : Workspace) (path : String) :
    FileTree × Except Obstacle (String × String) :=
  match j.rendered w path with
  | .error o => (w.files, .error o)
  | .ok (file, text) =>
    match place w.files file text with
    | (t, .error o) => (t, .error o)
    | (t, .ok _) => (t, .ok (file, text))

theorem compileLogged_eq (log : Logger) (o : Options) (s : SchemaSet) :
    (compileLogged log o s).2 = Model.compile o s := by
  unfold compileLogged Model.compile
  cases hn : s.normalize o with
  | error e => rfl
  | ok n =>
    cases hm : Model.ofNormal o n with
    | error e => simp [hm, ok_bind]
    | ok m => simp [hm, ok_bind]

theorem compileOne_eq (w : Workspace) (log : Logger) (j : Job) (path : String) :
    (compileOne w log j path).2 = j.run w path := by
  unfold compileOne Job.run Job.rendered Job.translate
  cases w.load j.root path with
  | error e => rfl
  | ok s =>
    simp only
    by_cases hollow : w.isHollow j.root path s = true
    · simp only [if_pos hollow]
    · simp only [if_neg hollow]
      rw [← compileLogged_eq (log.add "schema" path)]
      cases compileLogged (log.add "schema" path) j.options s with
      | mk lines r =>
        cases r with
        | error e => rfl
        | ok m =>
          simp only
          cases j.backend.render ⟨j.package, Path.base path, j.seed⟩ m with
          | error o => rfl
          | ok text =>
            simp only
            cases place w.files (j.file ((m.root?.map TypeDef.name).getD "")) text with
            | mk t r => cases r <;> rfl

def Job.IsFile (j : Job) (file : String) : Prop :=
  ∃ id, file = j.file id

theorem rendered_isFile (w : Workspace) (j : Job) (path file text : String)
    (h : j.rendered w path = .ok (file, text)) : j.IsFile file := by
  unfold Job.rendered Job.translate at h
  split at h
  · cases h
  split at h
  · cases h
  split at h
  · cases h
  split at h
  · cases h
  obtain ⟨hfile, -⟩ := Prod.mk.inj (Except.ok.inj h)
  exact ⟨_, hfile.symm⟩

section

variable {j : Job} {file : String} (h : j.IsFile file)

include h

theorem Job.IsFile.ends : ∃ l, Path.Ends file l ∧ j.backend.suffix.toList <:+ l.toList := by
  obtain ⟨id, rfl⟩ := h
  have hsuffix : j.backend.suffix.toList <:+ (id ++ j.backend.suffix).toList := by
    rw [String.toList_append]
    exact List.suffix_append _ _
  obtain ⟨l, hl, hs⟩ := Path.ends_of_suffix j.backend.suffix.toList
    (by cases j.backend <;> decide) (by cases j.backend <;> decide) _ hsuffix
  exact ⟨l, hl.join _, hs⟩

theorem Job.IsFile.not_schema (hin : isOutside file = false) (l : String)
    (hl : (segments file).getLast? = some l) : ¬ ".ksy".toList <:+ l.toList := by
  obtain ⟨m, hm, hs⟩ := h.ends
  rw [segments_dir hm hin, List.getLast?_concat, Option.some.injEq] at hl
  subst hl
  intro hksy
  have hshort : j.backend.suffix.toList.length ≤ ".ksy".toList.length := by
    cases j.backend <;> decide
  have hsub := List.suffix_of_suffix_length_le hs hksy hshort
  revert hsub
  cases j.backend <;> decide

theorem Job.IsFile.eq_of_segments (other : String) (ho : j.IsFile other)
    (hin : isOutside file = false) (hout : isOutside other = false)
    (hs : segments file = segments other) : file = other := by
  have clean : ∀ f, j.IsFile f → Path.clean f = f := by
    rintro f ⟨id, rfl⟩
    have hne : id ++ j.backend.suffix ≠ "" := by cases j.backend <;> simp [Backend.suffix]
    rw [Job.file, Path.join_pair _ _ hne, Path.clean_clean]
  have rooted : ∀ f, isOutside f = false → Path.isRooted f = false := by
    intro f hf
    rw [isOutside_eq, Bool.or_eq_false_iff] at hf
    exact hf.1
  rw [segments_eq _ (rooted _ hin), segments_eq _ (rooted _ hout)] at hs
  rw [← clean file h, ← clean other ho, Path.clean_eq, Path.clean_eq, rooted _ hin, rooted _ hout,
    hs]

end

section

variable {t : FileTree} {file l text : String} (hl : Path.Ends file l)

include hl

theorem makeDir_dir_eq_none : (t.makeDir (Path.dir file)).2 = none ↔
    (isOutside file = false → t.CanMake (segments (Path.dir file))) := by
  rw [makeDir_eq_none, isOutside_dir hl]

theorem dir_made (h : (t.makeDir (Path.dir file)).2 = none) (hin : isOutside file = false) :
    FileTree.entry? (t.makeDir (Path.dir file)).1 (segments (Path.dir file)) = some .dir :=
  (t.dir_makeDir _ _).mpr <| .inr ⟨(isOutside_dir hl).trans hin, List.prefix_refl _,
    (makeDir_dir_eq_none hl).mp h hin⟩

theorem blocks_of_makeDir (e : String × FileTree.Fault) (h : (t.makeDir (Path.dir file)).2 = some e) :
    t.Blocks file := by
  have hsome : ¬ (isOutside file = false → t.CanMake (segments (Path.dir file))) := by
    rw [← makeDir_dir_eq_none hl, h]
    simp
  exact .inr (Classical.not_imp.mp hsome)

theorem bars_of_blocks (h : (t.makeDir (Path.dir file)).2 = none) (hb : t.Blocks file) :
    t.Bars file :=
  hb.resolve_right fun hn => hn.2 ((makeDir_dir_eq_none hl).mp h hn.1)

end

inductive Placing (t : FileTree) (file text : String) : FileTree × Except Obstacle Unit → Prop
  | blocked (o : Obstacle) (ho : o ≠ .crash) (hb : t.Blocks file) :
    Placing t file text ((t.makeDir (Path.dir file)).1, .error o)
  | free (u : FileTree) (hb : ¬ t.Blocks file) (hm : (t.makeDir (Path.dir file)).2 = none)
      (hw : (t.makeDir (Path.dir file)).1.replace file text = .ok u) :
    Placing t file text (u, .ok ())

theorem place_cases (j : Job) (t : FileTree) (file text : String) (hf : j.IsFile file) :
    Placing t file text (place t file text) := by
  obtain ⟨l, hl, -⟩ := hf.ends
  cases hm : (t.makeDir (Path.dir file)).2 with
  | some e =>
    have hp : place t file text = ((t.makeDir (Path.dir file)).1, .error (.noDirectory e.1 e.2)) := by
      unfold place
      simp only [hm]
    rw [hp]
    exact .blocked _ (by simp) (blocks_of_makeDir hl e hm)
  | none =>
    cases hw : (t.makeDir (Path.dir file)).1.replace file text with
    | error fault =>
      have hp : place t file text
          = ((t.makeDir (Path.dir file)).1, .error (.notReplaced file fault)) := by
        unfold place
        simp only [hm, hw]
      have hbars := (replace_eq_error _ file text).mp ⟨fault, hw⟩
      rw [hp]
      exact .blocked _ (by simp) (.inl (bars_makeDir hl hbars))
    | ok u =>
      have hp : place t file text = (u, .ok ()) := by
        unfold place
        simp only [hm, hw]
      rw [hp]
      refine .free u (fun hb => ?_) hm hw
      have hbars := (t.grows_makeDir (Path.dir file)).bars file (bars_of_blocks hl hm hb)
      obtain ⟨fault, herror⟩ := (replace_eq_error _ file text).mpr hbars
      rw [hw] at herror
      cases herror

inductive Run (w : Workspace) (j : Job) (path : String) :
    FileTree × Except Obstacle (String × String) → Prop
  | refused (o : Obstacle) (hr : j.rendered w path = .error o) : Run w j path (w.files, .error o)
  | blocked (file text : String) (o : Obstacle) (hr : j.rendered w path = .ok (file, text))
      (ho : o ≠ .crash) (hb : w.files.Blocks file) :
      Run w j path ((w.files.makeDir (Path.dir file)).1, .error o)
  | written (file text : String) (t : FileTree) (hr : j.rendered w path = .ok (file, text))
      (hb : ¬ w.files.Blocks file) (hm : (w.files.makeDir (Path.dir file)).2 = none)
      (hw : (w.files.makeDir (Path.dir file)).1.replace file text = .ok t) :
      Run w j path (t, .ok (file, text))

theorem run_cases (w : Workspace) (j : Job) (path : String) : Run w j path (j.run w path) := by
  cases hr : j.rendered w path with
  | error o =>
    have hrun : j.run w path = (w.files, .error o) := by
      unfold Job.run
      simp only [hr]
    exact hrun ▸ .refused o hr
  | ok r =>
    obtain ⟨file, text⟩ := r
    have hplace := place_cases j w.files file text (rendered_isFile w j path file text hr)
    unfold Job.run
    simp only [hr]
    generalize place w.files file text = placed at hplace
    cases hplace with
    | blocked o ho hb => exact .blocked file text o hr ho hb
    | free u hb hm hw => exact .written file text u hr hb hm hw

section

variable (w : Workspace) (log : Logger) (j : Job) (path : String)

/-- The file and the text that compiling a schema alone writes, if it writes any. -/
def alone : Option (String × String) := (compileOne w log j path).2.2.toOption

def left : FileTree := (compileOne w log j path).2.1

def Crashes : Prop := (compileOne w log j path).2.2 = .error .crash

theorem compileOne_ok (r : String × String) :
    (compileOne w log j path).2.2 = .ok r ↔ alone w log j path = some r := by
  unfold alone
  cases (compileOne w log j path).2.2 <;> simp [Except.toOption]

theorem compileOne_error :
    (∃ o, (compileOne w log j path).2.2 = .error o) ↔ alone w log j path = none := by
  unfold alone
  cases (compileOne w log j path).2.2 <;> simp [Except.toOption]

theorem run_of_some (r : String × String) (h : alone w log j path = some r) :
    j.run w path = (left w log j path, .ok r) := by
  rw [left, ← compileOne_eq w log, ← (compileOne_ok w log j path r).mpr h]

theorem crashes_iff : Crashes w log j path ↔ j.rendered w path = .error .crash := by
  rw [Crashes, compileOne_eq]
  have h := run_cases w j path
  generalize j.run w path = r at h
  cases h with
  | refused o hr => simp [hr]
  | blocked file text o hr ho hb => simp [hr, ho]
  | written file text t hr hb hm hw => simp [hr]

theorem alone_eq_some (file text : String) : alone w log j path = some (file, text) ↔
    j.rendered w path = .ok (file, text) ∧ ¬ w.files.Blocks file := by
  rw [alone, compileOne_eq]
  have h := run_cases w j path
  generalize j.run w path = r at h
  cases h with
  | refused o hr => simp [hr, Except.toOption]
  | blocked f s o hr ho hb =>
    simp only [hr, Except.toOption, Except.ok.injEq, Prod.mk.injEq, reduceCtorEq, false_iff]
    rintro ⟨⟨rfl, -⟩, hn⟩
    exact hn hb
  | written f s t hr hb hm hw =>
    simp only [hr, Except.toOption, Option.some.injEq, Except.ok.injEq, Prod.mk.injEq]
    exact ⟨fun h => ⟨h, h.1 ▸ hb⟩, fun h => h.1⟩

theorem alone_of_ok (file text : String) (h : j.rendered w path = .ok (file, text)) :
    alone w log j path = some (file, text) ∨
      alone w log j path = none ∧ w.files.Blocks file := by
  have hsome := alone_eq_some w log j path
  by_cases hb : w.files.Blocks file
  · refine .inr ⟨?_, hb⟩
    cases ha : alone w log j path with
    | none => rfl
    | some r =>
      obtain ⟨hr, hfree⟩ := (hsome r.1 r.2).mp ha
      rw [h] at hr
      obtain ⟨rfl, -⟩ := Prod.mk.inj (Except.ok.inj hr)
      exact absurd hb hfree
  · exact .inl ((hsome file text).mpr ⟨h, hb⟩)

theorem alone_of_error (o : Obstacle) (h : j.rendered w path = .error o) :
    alone w log j path = none := by
  cases ha : alone w log j path with
  | none => rfl
  | some r =>
    rw [((alone_eq_some w log j path r.1 r.2).mp ha).1] at h
    cases h

theorem alone_isFile (file text : String) (h : alone w log j path = some (file, text)) :
    j.IsFile file :=
  rendered_isFile w j path file text ((alone_eq_some w log j path file text).mp h).1

theorem alone_of_read (file text : String)
    (hread : ((SchemaFile.read (w.below (w.top j.root path))
        (Path.relative (w.top j.root path) (w.absolute path))).toOption.map fun f =>
      (f.schema.body.head.imports, SchemaFile.isHollow (w.below (w.top j.root path)) f,
        (j.translate path ⟨f, []⟩).toOption)) = some ([], false, some (file, text)))
    (hplace : (place w.files file text).2.toOption.isSome = true) :
    alone w log j path = some (file, text) := by
  obtain ⟨f, hf, he⟩ := exists_ok_of_toOption_map _ _ _ hread
  obtain ⟨hnone, he⟩ := Prod.mk.inj he
  obtain ⟨hfull, htext⟩ := Prod.mk.inj he
  have hload : w.load j.root path = SchemaSet.load (w.below (w.top j.root path))
      (Path.relative (w.top j.root path) (w.absolute path)) := rfl
  have hwhole : w.isHollow j.root path ⟨f, []⟩ = false := by
    simp [Workspace.isHollow, SchemaSet.isHollow, hfull]
  have hr : j.rendered w path = .ok (file, text) := by
    unfold Job.rendered
    rw [hload, SchemaSet.load_alone _ _ f hf hnone]
    simp only [hwhole, Bool.false_eq_true, if_false]
    generalize j.translate path ⟨f, []⟩ = r at htext ⊢
    cases r with
    | error o => cases htext
    | ok r => exact congrArg Except.ok (Option.some.inj htext)
  refine (alone_eq_some w log j path file text).mpr ⟨hr, ?_⟩
  have h := place_cases j w.files file text (rendered_isFile w j path file text hr)
  generalize place w.files file text = placed at h hplace
  cases h with
  | blocked o ho hb => cases hplace
  | free u hb hm hw => exact hb

theorem left_of_some (file text : String) (h : alone w log j path = some (file, text)) :
    (w.files.makeDir (Path.dir file)).2 = none ∧
      (w.files.makeDir (Path.dir file)).1.set? file text = some (left w log j path) := by
  have hok := (compileOne_ok w log j path _).mpr h
  rw [left]
  rw [compileOne_eq] at hok ⊢
  have hrun := run_cases w j path
  generalize j.run w path = r at hrun hok
  cases hrun with
  | refused o hr => cases hok
  | blocked f s o hr ho hb => cases hok
  | written f s t hr hb hm hw =>
    cases hok
    exact ⟨hm, ((replace_eq_ok _ file text t).mp hw).2⟩

theorem left_of_error (o : Obstacle) (h : j.rendered w path = .error o) :
    left w log j path = w.files := by
  rw [left, compileOne_eq]
  have hrun := run_cases w j path
  generalize j.run w path = r at hrun
  cases hrun with
  | refused => rfl
  | blocked _ _ _ hr | written _ _ _ hr =>
    rw [h] at hr
    cases hr

variable (hs : w.files.Sound)

include hs

/-- The directories that a compilation leaves: those on the way to its file that can be made, even
if the file itself cannot be written. -/
theorem dir_left (file text : String) (h : j.rendered w path = .ok (file, text)) (q : List String) :
    FileTree.entry? (left w log j path) q = some .dir ↔ w.files.entry? q = some .dir ∨
      isOutside file = false ∧ q <+: segments (Path.dir file) ∧ w.files.CanMake q := by
  have hfile := rendered_isFile w j path file text h
  obtain ⟨l, hl, -⟩ := hfile.ends
  rw [left, compileOne_eq, ← isOutside_dir hl, ← dir_makeDir]
  have hrun := run_cases w j path
  generalize j.run w path = r at hrun
  cases hrun with
  | refused o hr =>
    rw [h] at hr
    cases hr
  | blocked f s o hr =>
    rw [h] at hr
    cases hr
    dsimp only
    exact Iff.rfl
  | written f s t hr hb hm hw =>
    rw [h] at hr
    cases hr
    exact dir_set hl (w.files.sound_makeDir _ hs) (dir_made hl hm) ((replace_eq_ok _ _ _ _).mp hw).2 q

theorem sound_left : (left w log j path).Sound := by
  rw [left, compileOne_eq]
  have hrun := run_cases w j path
  generalize j.run w path = r at hrun
  cases hrun with
  | refused => exact hs
  | blocked =>
    dsimp only
    exact w.files.sound_makeDir _ hs
  | written file text t hr hb hm hw =>
    obtain ⟨l, hl, -⟩ := (rendered_isFile w j path file text hr).ends
    exact sound_set hl (w.files.sound_makeDir _ hs) (dir_made hl hm) ((replace_eq_ok _ _ _ _).mp hw).2

structure Wrote (t u : FileTree) (file text : String) : Prop where
  grows : Grows t u
  holds : isOutside file = false → u.entry? (segments file) = some (.file text)
  dirs : isOutside file = false → ∀ q, u.entry? q = some .dir →
    t.entry? q = some .dir ∨ q <+: segments (Path.dir file)
  others : ∀ q, (isOutside file = false → q ≠ segments file) → Workspace.SameFile t u q

theorem wrote_of_some (file text : String) (h : alone w log j path = some (file, text)) :
    Wrote w.files (left w log j path) file text := by
  have hr := ((alone_eq_some w log j path file text).mp h).1
  obtain ⟨l, hl, -⟩ := (alone_isFile w log j path file text h).ends
  obtain ⟨hm, hw⟩ := left_of_some w log j path file text h
  have hmade := w.files.sound_makeDir (Path.dir file) hs
  have hd := dir_made hl hm
  refine ⟨(w.files.grows_makeDir _).trans (grows_set hl hmade hd hw), ?_, ?_, ?_⟩
  · intro hin
    rw [(entry_set hl hin hmade (hd hin) hw _).2, if_pos rfl]
  · intro hin q hq
    exact ((dir_left w log j path hs file text hr q).mp hq).imp_right fun hp => hp.2.1
  · intro q hq now
    rw [← w.files.file_makeDir (Path.dir file)]
    by_cases hout : isOutside file = true
    · rw [set?_outside _ file text hout] at hw
      rw [Option.some.inj hw]
    · have hin : isOutside file = false := by simpa using hout
      rw [(entry_set hl hin hmade (hd hin) hw q).2, if_neg (hq hin)]

omit hs in
theorem rendered_congr (t u : FileTree) (ht : t.Sound) (hu : u.Sound)
    (hmain : ∀ q, w.source? j.root path = some q → Workspace.SameFile t u q)
    (hksy : ∀ q l, q.getLast? = some l → ".ksy".toList <:+ l.toList → Workspace.SameFile t u q) :
    j.rendered { w with files := t } path = j.rendered { w with files := u } path ∨
      ∃ e, j.rendered { w with files := t } path = .error (.load e) ∧
        ∃ e, j.rendered { w with files := u } path = .error (.load e) := by
  have hload := w.sameOk_load t u ht hu j.root path hmain hksy
  unfold Job.rendered
  cases htl : Workspace.load { w with files := t } j.root path with
  | ok s =>
    have hhollow := w.isHollow_congr t u ht hu j.root path hmain hksy s htl
    rw [(hload s).mp htl]
    exact .inl (by simp only [hhollow])
  | error e =>
    cases hul : Workspace.load { w with files := u } j.root path with
    | ok s =>
      rw [(hload s).mpr hul] at htl
      cases htl
    | error e' => exact .inr ⟨e, rfl, e', rfl⟩

end

end FormatFuzz.Command
