import FormatFuzz.Proofs.Command.Batch

/-!
# Outputs of a batch

A batch keeps its outputs if what was compiled stands where it was reported, with the text that
compiling it alone gives, if exactly those compilations fail that fail alone, and if nothing else was
written. It does so for every order of turns if and only if none crashes and no two meddle with each
other: one file has one text, no file lies where another needs a directory, and no file is written
over a schema in a way that matters to it.
-/

set_option autoImplicit false

namespace FormatFuzz.Command

open FileTree
open Log (Logger)

/-- A file holds a text: it is what was last written under its path, and it stands at its place. -/
def Batch.Holds {n : ℕ} (b : Batch n) (file text : String) : Prop :=
  b.written file = some text ∧
    (isOutside file = false → b.files.entry? (segments file) = some (.file text))

section

variable (w : Workspace) (log : Logger) (j : Job) (paths : List String)

/-- It comes to a report, no output is lost, none is made up, and what fails is what fails alone. -/
structure KeepsOutputs (b : Batch paths.length) : Prop where
  up : b.crashed = false
  compiled : ∀ i file text, b.stages i = .compiled file text →
    (compileOne w log j (paths.get i)).2.2 = .ok (file, text) ∧ b.Holds file text
  failed : ∀ i, (∃ o, b.stages i = .failed o) ↔
    ∃ o, (compileOne w log j (paths.get i)).2.2 = .error o
  files : ∀ q text, b.files.entry? q = some (.file text) →
    w.files.entry? q = some (.file text) ∨
      ∃ i file, b.stages i = .compiled file text ∧ isOutside file = false ∧ segments file = q
  written : ∀ file text, b.written file = some text → ∃ i, b.stages i = .compiled file text

def IsOutput (q : List String) : Prop :=
  ∃ i file text, alone w log j (paths.get i) = some (file, text) ∧ isOutside file = false ∧
    segments file = q

/-- A compilation does in a tree what it does in the first one: it comes to the same, it does not
crash, and it makes no directory where another one writes its file. -/
structure Fits (t : FileTree) (k : Fin paths.length) : Prop where
  same : alone { w with files := t } log j (paths.get k) = alone w log j (paths.get k)
  runs : ¬ Crashes { w with files := t } log j (paths.get k)
  free : ∀ q, IsOutput w log j paths q →
    FileTree.entry? (left { w with files := t } log j (paths.get k)) q ≠ some .dir

/-- Compilations that do not meddle with each other: they are the same in the first tree and, where
one writes over the schema of another, in the tree that it leaves. -/
structure Apart : Prop where
  texts : ∀ i k file s t, alone w log j (paths.get i) = some (file, s) →
    alone w log j (paths.get k) = some (file, t) → s = t
  fits : ∀ k, Fits w log j paths w.files k
  sources : ∀ i k file text, i ≠ k → alone w log j (paths.get i) = some (file, text) →
    isOutside file = false → w.source? j.root (paths.get k) = some (segments file) →
      Fits w log j paths (left w log j (paths.get i)) k

/-- Compilations that all succeed alone are apart if none of their files lies where another one lies
or needs a directory, or where a schema is read. -/
theorem apart_of_files (hs : w.files.Sound) (file : Fin paths.length → String)
    (halone : ∀ i, ∃ s, alone w log j (paths.get i) = some (file i, s))
    (hfiles : ∀ i k, i ≠ k → ¬ segments (file i) <+: segments (file k))
    (hsources : ∀ i k, w.source? j.root (paths.get k) ≠ some (segments (file i))) :
    Apart w log j paths := by
  have hfile : ∀ i f s, alone w log j (paths.get i) = some (f, s) → f = file i := by
    intro i f s hi
    obtain ⟨now, hnow⟩ := halone i
    exact (Prod.mk.inj (Option.some.inj (hi.symm.trans hnow))).1
  refine ⟨?_, ?_, ?_⟩
  · intro i k f s t hi hk
    by_cases hik : i = k
    · subst hik
      exact (Prod.mk.inj (Option.some.inj (hi.symm.trans hk))).2
    · have hsame : file i = file k := (hfile i f s hi).symm.trans (hfile k f t hk)
      exact absurd (hsame ▸ List.prefix_refl _) (hfiles i k hik)
  · intro k
    obtain ⟨s, hk⟩ := halone k
    have hr := ((alone_eq_some w log j _ _ s).mp hk).1
    refine ⟨rfl, ?_, ?_⟩
    · intro hcrash
      rw [(crashes_iff w log j _).mp hcrash] at hr
      cases hr
    · rintro _ ⟨i, f, x, hi, hin, rfl⟩ hdir
      obtain rfl := hfile i f x hi
      rcases (dir_left w log j _ hs _ s hr _).mp hdir with hdir | ⟨hkin, hp, -⟩
      · exact ((alone_eq_some w log j _ _ x).mp hi).2 (.inl (.inr ⟨hin, hdir⟩))
      · obtain ⟨l, hl, -⟩ := (alone_isFile w log j _ _ s hk).ends
        have hplace := segments_dir hl hkin
        by_cases hik : i = k
        · subst hik
          have hlen := hp.length_le
          rw [hplace, List.length_append, List.length_singleton] at hlen
          omega
        · exact hfiles i k hik (hplace ▸ hp.trans (List.prefix_append _ _))
  · intro i k f text _ hi _ hsource
    rw [hfile i f text hi] at hsource
    exact absurd hsource (hsources i k)

/-- On the way to a file no directory can be made where a compilation writes its own. -/
def Careful (t : FileTree) (file : String) : Prop :=
  isOutside file = false → ∀ q, IsOutput w log j paths q →
    q <+: segments (Path.dir file) → ¬ t.CanMake q

/-- How a stage agrees with what the compilation comes to alone. Where it fails alone, something is
in the way of its file, even if what it renders has changed. -/
def Accords (b : Batch paths.length) (a : Option (String × String)) : Stage → Prop
  | .waiting => True
  | .rendered file text =>
    (a = some (file, text) ∨ a = none ∧ b.files.Blocks file) ∧ Careful w log j paths b.files file
  | .placed file text => a = some (file, text) ∨ a = none ∧ b.files.Bars file
  | .compiled file text => a = some (file, text) ∧ b.Holds file text
  | .failed _ => a = none

/-- What turns keep if compilations are apart: none has crashed, no new directory stands where one
of them writes its file, new texts were written by them, and their stages agree with what they come
to alone. -/
structure Faithful (b : Batch paths.length) : Prop where
  regular : Regular j paths w.files b
  up : b.crashed = false
  dirs : ∀ q, IsOutput w log j paths q → b.files.entry? q = some .dir →
    w.files.entry? q = some .dir
  files : ∀ q text, b.files.entry? q = some (.file text) →
    w.files.entry? q = some (.file text) ∨
      ∃ i file, b.stages i = .compiled file text ∧ isOutside file = false ∧ segments file = q
  written : ∀ file text, b.written file = some text → ∃ i, b.stages i = .compiled file text
  stages : ∀ i, Accords w log j paths b (alone w log j (paths.get i)) (b.stages i)

theorem faithful_start (hs : w.files.Sound) :
    Faithful w log j paths (.start w.files paths.length) where
  regular := regular_start w j paths hs
  up := rfl
  dirs := fun _ _ h => h
  files := fun _ _ h => Or.inl h
  written := by simp [Batch.start]
  stages := fun _ => trivial

section

variable (b : Batch paths.length) (hb : Faithful w log j paths b) (i : Fin paths.length)

include hb

theorem faithful_set (hopen : ¬ (b.stages i).IsOver) (s : Stage) (t : FileTree)
    (hregular : Regular j paths w.files (b.set i s t)) (hgrows : Grows b.files t)
    (hdirs : ∀ q, IsOutput w log j paths q → t.entry? q = some .dir → b.files.entry? q = some .dir)
    (hfiles : ∀ q text, t.entry? q = some (.file text) → b.files.entry? q = some (.file text) ∨
      ∃ file, s = .compiled file text ∧ isOutside file = false ∧ segments file = q)
    (hholds : ∀ k file text, b.stages k = .compiled file text → (b.set i s t).Holds file text)
    (hstage : Accords w log j paths (b.set i s t) (alone w log j (paths.get i)) s) :
    Faithful w log j paths (b.set i s t) := by
  have hkept : ∀ k file text, b.stages k = .compiled file text →
      (b.set i s t).stages k = .compiled file text := by
    intro k file text hk
    have hki : k ≠ i := by
      rintro rfl
      rw [hk] at hopen
      exact hopen trivial
    rw [b.set_other i k s t hki, hk]
  refine ⟨hregular, hb.up, fun q ho hq => hb.dirs q ho (hdirs q ho hq), ?_, ?_, ?_⟩
  · intro q text hq
    rcases hfiles q text hq with hq | ⟨file, rfl, hin, he⟩
    · rcases hb.files q text hq with hw | ⟨k, file, hk, hin, he⟩
      · exact Or.inl hw
      · exact Or.inr ⟨k, file, hkept k file text hk, hin, he⟩
    · exact Or.inr ⟨i, file, b.set_self i _ t, hin, he⟩
  · intro file text hf
    have hold : b.written file = some text → ∃ k, (b.set i s t).stages k = .compiled file text := by
      intro hf
      obtain ⟨k, hk⟩ := hb.written file text hf
      exact ⟨k, hkept k file text hk⟩
    cases s with
    | waiting | rendered | placed | failed => exact hold hf
    | compiled f x =>
      by_cases he : file = f
      · subst he
        obtain rfl : x = text := by simpa [Batch.set] using hf
        exact ⟨i, b.set_self i _ t⟩
      · exact hold (by simpa [Batch.set, he] using hf)
  · intro k
    by_cases hki : k = i
    · subst hki
      rw [Batch.set_self]
      exact hstage
    · rw [b.set_other i k s t hki]
      have hk := hb.stages k
      generalize hsk : b.stages k = sk at hk
      cases sk with
      | waiting => trivial
      | failed => exact hk
      | rendered f x =>
        refine ⟨hk.1.imp_right fun h => ⟨h.1, hgrows.blocks f h.2⟩, fun hin q ho hp hcan => ?_⟩
        exact hk.2 hin q ho hp (hgrows.canMake q hcan)
      | placed f x => exact hk.imp_right fun h => ⟨h.1, hgrows.bars f h.2⟩
      | compiled f x => exact ⟨hk.1, hholds k f x hsk⟩

theorem sameFile_start (q : List String) (hq : ∀ k file text, b.stages k = .compiled file text →
    isOutside file = false → segments file ≠ q) : Workspace.SameFile w.files b.files q := by
  have back : ∀ text, b.files.entry? q = some (.file text) →
      w.files.entry? q = some (.file text) := by
    intro text ht
    rcases hb.files q text ht with hw | ⟨k, file, hk, hin, he⟩
    · exact hw
    · exact absurd he (hq k file text hk hin)
  intro text
  constructor
  · intro ht
    obtain ⟨now, hnow⟩ := hb.regular.grows.files q text ht
    have := back now hnow
    rw [ht] at this
    rw [hnow, ← this]
  · exact back text

theorem sameFile_schema (q : List String) (l : String) (hl : q.getLast? = some l)
    (hksy : ".ksy".toList <:+ l.toList) : Workspace.SameFile w.files b.files q := by
  apply sameFile_start w log j paths b hb
  rintro k file text hk hin rfl
  exact (hb.regular.file k file text (by rw [hk]; rfl)).not_schema hin l hl hksy

/-- The tree that one compilation leaves alone has grown into that of the batch, once it is over
there too. -/
theorem grows_of_compiled (k : Fin paths.length) (file text : String)
    (hk : b.stages k = .compiled file text) (hin : isOutside file = false) (t : FileTree)
    (ht : Wrote w.files t file text) : Grows t b.files := by
  have hacc := hb.stages k
  rw [hk] at hacc
  have hplace := hacc.2.2 hin
  obtain ⟨l, hl, -⟩ := (hb.regular.file k file text (by rw [hk]; rfl)).ends
  constructor
  · intro q hq
    rcases ht.dirs hin q hq with hw | hp
    · exact hb.regular.grows.dirs q hw
    · exact dir_above hl hb.regular.sound hin (by simp [hplace]) q hp
  · intro q now hq
    by_cases he : q = segments file
    · exact ⟨text, he ▸ hplace⟩
    · exact hb.regular.grows.files q now ((ht.others q (fun _ => he) now).mpr hq)
  · intro q hq
    rcases hb.regular.grows.short q hq with hw | hshort
    · exact Or.inl (ht.grows.dirs q hw)
    · exact Or.inr hshort

theorem dirs_rendered (file text : String) (hi : b.stages i = .rendered file text)
    (q : List String) (ho : IsOutput w log j paths q)
    (hq : FileTree.entry? (b.files.makeDir (Path.dir file)).1 q = some .dir) :
    b.files.entry? q = some .dir := by
  have hacc := hb.stages i
  rw [hi] at hacc
  obtain ⟨l, hl, -⟩ := (hb.regular.file i file text (by rw [hi]; rfl)).ends
  rcases (b.files.dir_makeDir _ q).mp hq with hq | ⟨hin, hp, hcan⟩
  · exact hq
  · exact absurd hcan (hacc.2 ((isOutside_dir hl).symm.trans hin) q ho hp)

variable (hs : w.files.Sound) (ha : Apart w log j paths)

include ha

theorem faithful_compiled (file text : String) (t : FileTree) (hi : b.stages i = .placed file text)
    (hw : b.files.replace file text = .ok t)
    (hregular : Regular j paths w.files (b.set i (.compiled file text) t)) :
    Faithful w log j paths (b.set i (.compiled file text) t) := by
  have hfile := hb.regular.file i file text (by rw [hi]; rfl)
  obtain ⟨l, hl, -⟩ := hfile.ends
  have hd := hb.regular.placed i file text hi
  have hset := ((replace_eq_ok b.files file text t).mp hw).2
  have hentry : ∀ q, isOutside file = false → q = segments file →
      t.entry? q = some (.file text) := by
    rintro q hin rfl
    rw [(entry_set hl hin hb.regular.sound (hd hin) hset _).2, if_pos rfl]
  have hother : ∀ q, (isOutside file = false → q ≠ segments file) →
      t.entry? q = b.files.entry? q := by
    intro q hq
    by_cases hout : isOutside file = true
    · rw [b.files.set?_outside file text hout] at hset
      rw [Option.some.inj hset]
    · have hin : isOutside file = false := by simpa using hout
      rw [(entry_set hl hin hb.regular.sound (hd hin) hset q).2, if_neg (hq hin)]
  have hsome : alone w log j (paths.get i) = some (file, text) := by
    have hacc := hb.stages i
    rw [hi] at hacc
    refine hacc.resolve_right fun hbars => ?_
    obtain ⟨fault, herror⟩ := (replace_eq_error b.files file text).mpr hbars.2
    rw [hw] at herror
    cases herror
  refine faithful_set w log j paths b hb i (by rw [hi]; exact id) _ t hregular
    (grows_set hl hb.regular.sound hd hset)
    (fun q _ hq => (dir_set hl hb.regular.sound hd hset q).mp hq) ?_ ?_ ?_
  · intro q now hq
    by_cases he : isOutside file = false ∧ q = segments file
    · rw [hentry q he.1 he.2] at hq
      obtain rfl : text = now := by simpa using hq
      exact Or.inr ⟨file, rfl, he.1, he.2.symm⟩
    · rw [hother q fun hin heq => he ⟨hin, heq⟩] at hq
      exact Or.inl hq
  · intro k f x hk
    have hk' := hb.stages k
    rw [hk] at hk'
    obtain ⟨hkalone, hkwritten, hkplace⟩ := hk'
    constructor
    · by_cases he : f = file
      · subst he
        rw [ha.texts k i f x text hkalone hsome]
        simp [Batch.set]
      · simpa [Batch.set, he] using hkwritten
    · intro hfin
      change t.entry? (segments f) = _
      by_cases he : isOutside file = false ∧ segments f = segments file
      · have hfk := hb.regular.file k f x (by rw [hk]; rfl)
        obtain rfl := hfk.eq_of_segments file hfile hfin he.1 he.2
        rw [hentry _ hfin rfl, ha.texts k i f x text hkalone hsome]
      · rw [hother _ fun hin heq => he ⟨hin, heq⟩, hkplace hfin]
  · exact ⟨hsome, by simp [Batch.set], fun hin => hentry _ hin rfl⟩

include hs

/-- What a waiting compilation renders now it renders in a tree before, which it fits: the first one,
or the one that was left by a compilation that wrote over its schema. -/
theorem exists_fits (hi : b.stages i = .waiting) : ∃ t : FileTree, t.Sound ∧ Grows t b.files ∧
    Fits w log j paths t i ∧
    (j.rendered { w with files := t } (paths.get i)
        = j.rendered { w with files := b.files } (paths.get i) ∨
      ∃ e, j.rendered { w with files := t } (paths.get i) = .error (.load e) ∧
        ∃ e, j.rendered { w with files := b.files } (paths.get i) = .error (.load e)) := by
  have hsound := hb.regular.sound
  by_cases hover : ∃ k file text, b.stages k = .compiled file text ∧ isOutside file = false ∧
      w.source? j.root (paths.get i) = some (segments file)
  · obtain ⟨k, file, text, hk, hin, hsource⟩ := hover
    have hki : k ≠ i := by
      rintro rfl
      rw [hk] at hi
      cases hi
    have hacc := hb.stages k
    rw [hk] at hacc
    have hwrote := wrote_of_some w log j _ hs file text hacc.1
    have hleft := sound_left w log j (paths.get k) hs
    have hfile := hb.regular.file k file text (by rw [hk]; rfl)
    refine ⟨_, hleft, grows_of_compiled w log j paths b hb k file text hk hin _ hwrote,
      ha.sources k i file text hki hacc.1 hin hsource, ?_⟩
    apply rendered_congr w j _ _ b.files hleft hsound
    · intro q hq now
      obtain rfl := Option.some.inj (hsource.symm.trans hq)
      rw [hwrote.holds hin, hacc.2.2 hin]
    · intro q l hl hksy now
      have hne : q ≠ segments file := by
        rintro rfl
        exact hfile.not_schema hin l hl hksy
      rw [← hwrote.others q (fun _ => hne) now]
      exact sameFile_schema w log j paths b hb q l hl hksy now
  · refine ⟨w.files, hs, hb.regular.grows, ha.fits i, ?_⟩
    apply rendered_congr w j _ w.files b.files hs hsound
    · intro q hq
      apply sameFile_start w log j paths b hb
      rintro k file text hk hin rfl
      exact hover ⟨k, file, text, hk, hin, hq⟩
    · exact sameFile_schema w log j paths b hb

/-- What a waiting compilation renders now is what it comes to alone, unless it fails alone and
something is in the way of its file. -/
theorem rendered_accords (hi : b.stages i = .waiting) :
    (∀ o, j.rendered { w with files := b.files } (paths.get i) = .error o →
      o ≠ .crash ∧ alone w log j (paths.get i) = none) ∧
    ∀ file text, j.rendered { w with files := b.files } (paths.get i) = .ok (file, text) →
      (alone w log j (paths.get i) = some (file, text) ∨
        alone w log j (paths.get i) = none ∧ b.files.Blocks file) ∧
      Careful w log j paths b.files file := by
  obtain ⟨t, ht, hgrows, hfits, hsame⟩ := exists_fits w log j paths b hb i hs ha hi
  rw [← hfits.same]
  constructor
  · intro o ho
    rcases hsame with he | ⟨e, he, e', he'⟩
    · rw [← he] at ho
      refine ⟨?_, alone_of_error _ log j _ o ho⟩
      rintro rfl
      exact hfits.runs ((crashes_iff _ log j _).mpr ho)
    · rw [ho] at he'
      cases he'
      exact ⟨by simp, alone_of_error _ log j _ _ he⟩
  · intro file text hok
    have hr : j.rendered { w with files := t } (paths.get i) = .ok (file, text) := by
      rcases hsame with he | ⟨-, -, e', he'⟩
      · rw [he, hok]
      · rw [hok] at he'
        cases he'
    refine ⟨(alone_of_ok _ log j _ file text hr).imp_right fun h =>
      ⟨h.1, hgrows.blocks file h.2⟩, fun hin q ho hp hcan => ?_⟩
    exact hfits.free q ho ((dir_left { w with files := t } log j _ ht file text hr q).mpr
      (.inr ⟨hin, hp, hgrows.canMake q hcan⟩))

theorem not_blocks (file text : String) (hi : alone w log j (paths.get i) = some (file, text)) :
    ¬ b.files.Blocks file := by
  obtain ⟨hr, hfree⟩ := (alone_eq_some w log j _ file text).mp hi
  rintro ((hname | ⟨hin, hdir⟩) | ⟨hin, hcan⟩)
  · exact hfree (.inl (.inl hname))
  · exact hfree (.inl (.inr ⟨hin, hb.dirs _ ⟨i, file, text, hi, hin, rfl⟩ hdir⟩))
  · have hmade : w.files.CanMake (segments (Path.dir file)) := by
      by_contra hnot
      exact hfree (.inr ⟨hin, hnot⟩)
    refine hcan fun q hq => (dirFault?_eq_none b.files q).mpr ?_
    obtain ⟨hpath, hentry⟩ := (dirFault?_eq_none w.files q).mp (hmade q hq)
    refine ⟨hpath, ?_⟩
    cases he : b.files.entry? q with
    | none =>
      rcases hentry with hd | hn
      · rw [hb.regular.grows.dirs q hd] at he
        cases he
      · exact .inr ⟨rfl, hn.2⟩
    | some e =>
      cases e with
      | dir => exact .inl rfl
      | file x =>
        rcases hb.files q x he with hw | ⟨k, f, hk, hkin, rfl⟩
        · rw [hw] at hentry
          simp at hentry
        · -- the file of another compilation, where this one needs a directory
          have hacc := hb.stages k
          rw [hk] at hacc
          have hp := ((mem_beginnings _ _).mp hq).2
          exact absurd ((dir_left w log j _ hs file text hr _).mpr (.inr ⟨hin, hp, hmade.above hp⟩))
            ((ha.fits i).free _ ⟨k, f, x, hacc.1, hkin, rfl⟩)

omit ha hs in
theorem faithful_quiet (s : Stage) (t : FileTree) (hopen : ¬ (b.stages i).IsOver)
    (hquiet : ∀ file text, s ≠ .compiled file text)
    (hregular : Regular j paths w.files (b.set i s t)) (hgrows : Grows b.files t)
    (hdirs : ∀ q, IsOutput w log j paths q → t.entry? q = some .dir → b.files.entry? q = some .dir)
    (hfiles : ∀ q text, t.entry? q = some (.file text) ↔ b.files.entry? q = some (.file text))
    (hstage : Accords w log j paths (b.set i s t) (alone w log j (paths.get i)) s) :
    Faithful w log j paths (b.set i s t) := by
  refine faithful_set w log j paths b hb i hopen s t hregular hgrows hdirs
    (fun q text hq => Or.inl ((hfiles q text).mp hq)) ?_ hstage
  intro k file text hk
  have hacc := hb.stages k
  rw [hk] at hacc
  cases s with
  | waiting | rendered | placed | failed =>
    exact ⟨hacc.2.1, fun hin => (hfiles _ _).mpr (hacc.2.2 hin)⟩
  | compiled f x => exact absurd rfl (hquiet f x)

omit ha hs in
theorem faithful_made (file text : String) (hi : b.stages i = .rendered file text) (s : Stage)
    (hquiet : ∀ file text, s ≠ .compiled file text)
    (hregular : Regular j paths w.files (b.set i s (b.files.makeDir (Path.dir file)).1))
    (hstage : Accords w log j paths (b.set i s (b.files.makeDir (Path.dir file)).1)
      (alone w log j (paths.get i)) s) :
    Faithful w log j paths (b.set i s (b.files.makeDir (Path.dir file)).1) :=
  faithful_quiet w log j paths b hb i s _ (by rw [hi]; exact id) hquiet hregular
    (b.files.grows_makeDir _) (dirs_rendered w log j paths b hb i file text hi)
    (b.files.file_makeDir _) hstage

omit ha hs in
theorem faithful_same (s : Stage) (hopen : ¬ (b.stages i).IsOver)
    (hquiet : ∀ file text, s ≠ .compiled file text)
    (hregular : Regular j paths w.files (b.set i s b.files))
    (hstage : Accords w log j paths (b.set i s b.files) (alone w log j (paths.get i)) s) :
    Faithful w log j paths (b.set i s b.files) :=
  faithful_quiet w log j paths b hb i s _ hopen hquiet hregular (Grows.refl _)
    (fun _ _ hq => hq) (fun _ _ => Iff.rfl) hstage

theorem faithful_turn (c : Batch paths.length) (h : Turn w j paths b i c) :
    Faithful w log j paths c := by
  have hregular := regular_turn w j paths w.files b hb.regular i c h
  have hblocks := not_blocks w log j paths b hb i hs ha
  have haccords := rendered_accords w log j paths b hb i hs ha
  have hacc := hb.stages i
  cases h with
  | ended => exact hb
  | crashed hi hr => exact absurd rfl ((haccords hi).1 _ hr).1
  | refused o hi hr =>
    exact faithful_same w log j paths b hb i _ (by rw [hi]; exact id) (by simp) hregular
      ((haccords hi).1 o hr).2
  | rendered file text hi hr =>
    exact faithful_same w log j paths b hb i _ (by rw [hi]; exact id) (by simp) hregular
      ((haccords hi).2 file text hr)
  | barred file text e o hi hm =>
    rw [hi] at hacc
    refine faithful_made w log j paths b hb i file text hi _ (by simp) hregular ?_
    obtain ⟨l, hl, -⟩ := (hb.regular.file i file text (by rw [hi]; rfl)).ends
    rcases hacc.1 with hsome | hnone
    · exact absurd (blocks_of_makeDir hl e hm) (hblocks file text hsome)
    · exact hnone.1
  | placed file text hi hm =>
    rw [hi] at hacc
    refine faithful_made w log j paths b hb i file text hi _ (by simp) hregular ?_
    obtain ⟨l, hl, -⟩ := (hb.regular.file i file text (by rw [hi]; rfl)).ends
    rw [Accords, Batch.set_files]
    exact hacc.1.imp_right fun hnone =>
      ⟨hnone.1, (b.files.grows_makeDir _).bars file (bars_of_blocks hl hm hnone.2)⟩
  | taken file text fault o hi hw =>
    rw [hi] at hacc
    refine faithful_same w log j paths b hb i _ (by rw [hi]; exact id) (by simp) hregular ?_
    have hbars := (replace_eq_error b.files file text).mp ⟨fault, hw⟩
    rcases hacc with hsome | hnone
    · exact absurd hbars fun h => hblocks file text hsome (.inl h)
    · exact hnone.1
  | compiled file text t hi hw =>
    exact faithful_compiled w log j paths b hb i ha file text t hi hw hregular

end

theorem faithful_batch (hs : w.files.Sound) (ha : Apart w log j paths)
    (order : List (Fin paths.length)) : Faithful w log j paths (batch w j paths order) :=
  turns_keep w j paths _ (fun b i c hb => faithful_turn w log j paths b hb i hs ha c) _ order
    (faithful_start w log j paths hs)

theorem keepsOutputs_of_faithful (b : Batch paths.length) (hb : Faithful w log j paths b)
    (hover : b.IsOver) : KeepsOutputs w log j paths b := by
  refine ⟨hb.up, ?_, ?_, hb.files, hb.written⟩
  · intro i file text hi
    have hacc := hb.stages i
    rw [hi] at hacc
    exact ⟨(compileOne_ok w log j _ _).mpr hacc.1, hacc.2⟩
  · intro i
    have hacc := hb.stages i
    have hi := hover.resolve_left (by simp [hb.up]) i
    rw [compileOne_error]
    generalize b.stages i = s at hacc hi
    cases s with
    | waiting | rendered | placed => exact hi.elim
    | failed o => exact ⟨fun _ => hacc, fun _ => ⟨o, rfl⟩⟩
    | compiled file text =>
      rw [hacc.1]
      simp

theorem KeepsOutputs.holds (b : Batch paths.length) (hk : KeepsOutputs w log j paths b)
    (hover : b.IsOver) (i : Fin paths.length) (file text : String)
    (ha : alone w log j (paths.get i) = some (file, text)) : b.Holds file text := by
  have hi := hover.resolve_left (by simp [hk.up]) i
  cases hs : b.stages i with
  | waiting | rendered | placed =>
    rw [hs] at hi
    exact hi.elim
  | failed o =>
    have hnone := (compileOne_error w log j _).mp ((hk.failed i).mp ⟨o, hs⟩)
    rw [ha] at hnone
    cases hnone
  | compiled f x =>
    obtain ⟨hok, hholds⟩ := hk.compiled i f x hs
    rw [(compileOne_ok w log j _ _).mp hok] at ha
    obtain ⟨rfl, rfl⟩ := Prod.mk.inj (Option.some.inj ha)
    exact hholds

include log in
theorem batch_over (is : List (Fin paths.length)) (hn : is.Nodup) (hall : ∀ i, i ∈ is) :
    (batch w j paths (inTurn is)).IsOver :=
  (turns_inTurn w log j paths is hn (.start w.files paths.length) (fun _ _ => rfl) rfl
    { files := w.files } ⟨rfl, rfl, rfl⟩).ended.imp_right fun h i => h i (hall i)

section

variable (hs : w.files.Sound) (h : ∀ order, (batch w j paths order).IsOver →
  KeepsOutputs w log j paths (batch w j paths order))

include hs h

/-- A compilation that is next after some others does what it does alone in the tree that they
leave: so it fits there, if every order keeps the outputs. -/
theorem fits_of_keepsOutputs (front : List (Fin paths.length)) (k : Fin paths.length)
    (hn : (k :: front).Nodup) (b : Batch paths.length) (hb : batch w j paths (inTurn front) = b)
    (hwait : b.stages k = .waiting) (hc : b.crashed = false) : Fits w log j paths b.files k := by
  let others := (List.finRange paths.length).filter fun m => m ∉ front ∧ m ≠ k
  let order := inTurn (front ++ k :: others)
  obtain ⟨hk, hfront⟩ := List.nodup_cons.mp hn
  have hover : (batch w j paths order).IsOver := by
    apply batch_over w log j paths
    · have hothers : others.Nodup := (List.nodup_finRange _).filter _
      refine List.nodup_append.mpr ⟨hfront, List.nodup_cons.mpr ⟨by simp [others], hothers⟩, ?_⟩
      rintro m hm n hn rfl
      rcases List.mem_cons.mp hn with rfl | hn
      · exact hk hm
      · simp [others, hm] at hn
    · intro m
      by_cases hmf : m ∈ front <;> by_cases hmk : m = k <;> simp [others, hmf, hmk]
  have hkeeps := h order hover
  have hholds := hkeeps.holds w log j paths _ hover
  have hrun := turns_run w j paths b k hc hwait
  rw [← compileOne_eq { w with files := b.files } log] at hrun
  generalize hr : (compileOne { w with files := b.files } log j (paths.get k)).2 = r at hrun
  have horder : batch w j paths order = turns w j paths (b.finish k r) (inTurn others) := by
    have hinTurn : order = inTurn front ++ ([k, k, k] ++ inTurn others) := by
      simp [order, inTurn]
    rw [← hrun, ← hb, batch, batch, hinTurn, turns_append, turns_append]
  have hregular : Regular j paths w.files (b.finish k r) := by
    rw [← hrun, ← hb]
    exact regular_turns w j paths w.files _ (regular_batch w j paths hs _) _
  have hgrows := grows_turns w j paths w.files _ hregular (inTurn others)
  have hstage := turns_over w j paths (b.finish k r) (inTurn others) k
  have hcrashed := turns_crashed w j paths (b.finish k r) (inTurn others)
  rw [← horder] at hgrows hstage hcrashed
  rw [b.finish_files] at hgrows
  have hup : r.2 ≠ .error .crash := by
    intro he
    have hdown : (b.finish k r).crashed = true := by
      rw [← Prod.eta r, he]
      rfl
    have hup := hkeeps.up
    rw [hcrashed hdown, hdown] at hup
    cases hup
  refine ⟨?_, fun hcrash => hup (hr ▸ hcrash), ?_⟩
  · rw [alone, hr]
    obtain ⟨t, o | ⟨file, text⟩⟩ := r
    · rw [b.finish_error k t o fun he => hup (he ▸ rfl), Batch.set_self] at hstage
      exact ((compileOne_error w log j _).mp ((hkeeps.failed k).mp ⟨o, hstage trivial⟩)).symm
    · have hstage : (batch w j paths order).stages k = .compiled file text := by
        rw [b.finish_ok, Batch.set_self] at hstage
        exact hstage trivial
      exact ((compileOne_ok w log j _ _).mp (hkeeps.compiled k file text hstage).1).symm
  · rintro _ ⟨m, f, x, hm, hin, rfl⟩ hdir
    rw [left, hr] at hdir
    have hfile := (hholds m f x hm).2 hin
    rw [hgrows.dirs _ hdir] at hfile
    cases hfile

theorem apart_of_keepsOutputs : Apart w log j paths := by
  have hover := batch_over w log j paths (List.finRange paths.length) (List.nodup_finRange _)
    (List.mem_finRange ·)
  have hholds := (h _ hover).holds w log j paths _ hover
  refine ⟨?_, ?_, ?_⟩
  · intro i k file s t hi hk
    have hsame := (hholds i file s hi).1.symm.trans (hholds k file t hk).1
    exact Option.some.inj hsame
  · exact fun k => fits_of_keepsOutputs w log j paths hs h [] k (by simp) _ rfl rfl rfl
  · intro i k file text hik hi hin hsource
    have hrun : batch w j paths (inTurn [i]) = (Batch.start w.files paths.length).set i
        (.compiled file text) (left w log j (paths.get i)) := by
      have hthree : inTurn [i] = [i, i, i] := rfl
      have hfiles : (Batch.start w.files paths.length).files = w.files := rfl
      rw [batch, hthree, turns_run w j paths _ i rfl rfl, hfiles, run_of_some w log j _ _ hi,
        Batch.finish_ok]
    have hfits := fits_of_keepsOutputs w log j paths hs h [i] k (by simpa using hik.symm) _ hrun
      (Batch.set_other _ _ _ _ _ hik.symm) rfl
    rwa [Batch.set_files] at hfits

end

end

/-- A schema without fields and one with a field, which has an id of its own or that of the first. -/
def pair (id : String) : Workspace :=
  ⟨"/w", ⟨[], [(["a.ksy"], "meta:\n  id: x\n"),
    (["b.ksy"], "meta:\n  id: " ++ id ++ "\nseq:\n  - id: n\n    type: u1\n")]⟩⟩

def pages : Job := ⟨.page, "generated", "main", 0, "", {}⟩

def terse : Logger := { level := .error, format := .text, attributes := [] }

def firstPage : String :=
  "# x\n\nGenerated from `a.ksy`.\n\n## Fields\n\n"
    ++ "| Field | Type | Role | Optional | Details |\n"
    ++ "|-------|------|------|----------|---------|\n\n"
    ++ "Generation order: \n"

def secondPage (id : String) : String :=
  "# " ++ id ++ "\n\nGenerated from `b.ksy`.\n\n## Fields\n\n"
    ++ "| Field | Type | Role | Optional | Details |\n"
    ++ "|-------|------|------|----------|---------|\n"
    ++ "| `n` | u1 | base | No |  |\n\n"
    ++ "Generation order: n\n"

theorem sound_pair (id : String) : (pair id).files.Sound :=
  FileTree.sound_of_listed _ (by simp [pair])

theorem alone_pair (log : Logger) (id : String) (h : id ∈ ["x", "y"]) :
    alone (pair id) log pages "a.ksy" = some ("generated/x.md", firstPage) ∧
      alone (pair id) log pages "b.ksy" = some ("generated/" ++ id ++ ".md", secondPage id) := by
  simp only [List.mem_cons, List.not_mem_nil, or_false] at h
  rcases h with rfl | rfl <;>
    exact ⟨alone_of_read _ log pages "a.ksy" _ _ (by decide +kernel) (by decide +kernel),
      alone_of_read _ log pages "b.ksy" _ _ (by decide +kernel) (by decide +kernel)⟩

-- what a compilation comes to is known from alone_pair, and is not to be evaluated
attribute [local irreducible] alone in
theorem apart_pair (log : Logger) : Apart (pair "y") log pages ["a.ksy", "b.ksy"] := by
  obtain ⟨ha, hb⟩ := alone_pair log "y" (by simp)
  apply apart_of_files (pair "y") log pages ["a.ksy", "b.ksy"] (sound_pair "y")
    ["generated/x.md", "generated/y.md"].get
  · intro i
    match i with
    | 0 => exact ⟨_, ha⟩
    | 1 => exact ⟨_, hb⟩
  · decide +kernel
  · decide +kernel

end FormatFuzz.Command
