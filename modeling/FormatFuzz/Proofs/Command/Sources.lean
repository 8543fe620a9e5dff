import FormatFuzz.Command.Outcome
import FormatFuzz.Proofs.FileTree
import FormatFuzz.Proofs.Schema.Agreement

/-!
# Where schemas are read

Each path below a root leads to one place in the working directory, whatever stands there, and no
two paths lead to one place. So loading depends on what stands at the place of the main file and at
places with the suffix of a schema, and on nothing else.
-/

set_option autoImplicit false

namespace FormatFuzz

namespace Path

theorem dropShared_eq (as bs : List String) :
    ∃ shared, as = shared ++ (dropShared as bs).1 ∧ bs = shared ++ (dropShared as bs).2 := by
  induction as generalizing bs with
  | nil => exact ⟨[], by simp [dropShared]⟩
  | cons a as ih =>
    cases bs with
    | nil => exact ⟨[], by simp [dropShared]⟩
    | cons b bs =>
      by_cases hab : a = b
      · obtain ⟨shared, ha, hb⟩ := ih bs
        refine ⟨a :: shared, ?_, ?_⟩
        · rw [dropShared, if_pos hab, List.cons_append, ← ha]
        · rw [dropShared, if_pos hab, List.cons_append, ← hb, hab]
      · exact ⟨[], by simp [dropShared, hab]⟩

theorem stack_up (above : List String) (s : String) :
    ∃ now, stack false (above ++ [".."]) s = now ++ [".."] := by
  by_cases hskip : s = "" ∨ s = "."
  · exact ⟨above, by unfold stack; rw [if_pos (by simpa using hskip)]⟩
  by_cases hup : s = ".."
  · subst hup
    cases above with
    | nil => exact ⟨[".."], by simp [stack]⟩
    | cons d ds =>
      by_cases hd : d = ".."
      · exact ⟨".." :: d :: ds, by simp [stack, hd]⟩
      · exact ⟨ds, by simp [stack, hd]⟩
  · have hs : IsName s := ⟨fun h => hskip (Or.inl h), fun h => hskip (Or.inr h), hup⟩
    exact ⟨s :: above, by rw [stack_name _ _ _ hs]; rfl⟩

theorem foldl_stack_up (above rest : List String) :
    ∃ now, rest.foldl (stack false) (above ++ [".."]) = now ++ [".."] := by
  induction rest generalizing above with
  | nil => exact ⟨above, rfl⟩
  | cons s rest ih =>
    obtain ⟨now, hn⟩ := stack_up above s
    rw [List.foldl_cons, hn]
    exact ih now

theorem names_of_kept (p : String) (front rest : List String) (he : kept p = front ++ rest)
    (hr : rest.head? ≠ some "..") : ∀ s ∈ rest, IsName s := by
  obtain ⟨n, names, hk, hnames, -⟩ := kept_shape p
  rw [he] at hk
  rcases List.append_eq_append_iff.mp hk with ⟨more, hups, hrest⟩ | ⟨more, -, hmore⟩
  · cases more with
    | nil =>
      rw [hrest, List.nil_append]
      exact hnames
    | cons s more =>
      have hs : s = ".." := List.eq_of_mem_replicate (n := n) (hups ▸ by simp)
      rw [hrest, hs] at hr
      exact absurd rfl hr
  · intro s hs
    exact hnames s (hmore ▸ List.mem_append_right _ hs)

theorem kept_relative (dir p : String) (h : FileTree.isOutside (relative dir p) = false) :
    kept p = kept dir ++ FileTree.segments (relative dir p) ∧
      ∀ s ∈ FileTree.segments (relative dir p), IsName s := by
  obtain ⟨shared, hdir, hp⟩ := dropShared_eq (kept dir) (kept p)
  have hrel : relative dir p = clean (Text.join "/"
      ((dropShared (kept dir) (kept p)).1.map (fun _ => "..")
        ++ (dropShared (kept dir) (kept p)).2)) := by
    rw [← segments_eq, ← segments_eq]
    rfl
  generalize (dropShared (kept dir) (kept p)).1 = up at hdir hrel
  generalize (dropShared (kept dir) (kept p)).2 = down at hp hrel
  -- the way is up from the directory and then down
  have hway : ∀ s ∈ up.map (fun _ => "..") ++ down, '/' ∉ s.toList ∧ s ≠ "" := by
    intro s hs
    rcases List.mem_append.mp hs with hs | hs
    · obtain ⟨-, -, rfl⟩ := List.mem_map.mp hs
      decide
    · have hs : s ∈ kept p := hp ▸ List.mem_append_right _ hs
      exact ⟨notMem_kept p s hs, (ne_of_mem_kept p s hs).1⟩
  generalize hw : up.map (fun _ => "..") ++ down = way at hway hrel
  have hrooted : isRooted (relative dir p) = false := by
    rw [hrel, isRooted_clean]
    exact isRooted_join way hway
  have hkept : kept (relative dir p) = (way.foldl (stack false) []).reverse := by
    rw [hrel, kept_clean, kept, isRooted_join way hway, cleanSegments_eq]
    by_cases hnil : way = []
    · subst hnil
      decide
    · rw [Text.splitOn_join way hnil fun s hs => (hway s hs).1]
  rw [FileTree.isOutside_eq, hrooted, Bool.false_or, hkept] at h
  rw [FileTree.segments_eq _ hrooted, hkept]
  have hfirst : way.head? ≠ some ".." := by
    intro hhead
    cases way with
    | nil => cases hhead
    | cons s way =>
      rw [List.head?_cons, Option.some.injEq] at hhead
      subst hhead
      obtain ⟨now, hn⟩ := foldl_stack_up [] way
      have hstep : stack false [] ".." = [] ++ [".."] := by decide
      rw [List.foldl_cons, hstep, hn] at h
      simp at h
  cases up with
  | cons u up =>
    rw [← hw] at hfirst
    exact absurd rfl hfirst
  | nil =>
    rw [List.map_nil, List.nil_append] at hw
    subst hw
    rw [List.append_nil] at hdir
    have hnames := names_of_kept p shared down hp hfirst
    rw [foldl_stack_names _ _ _ hnames]
    simp only [List.append_nil, List.reverse_reverse]
    exact ⟨hdir ▸ hp, hnames⟩

theorem kept_join (root path : String) (h : isValid path = true) :
    kept (join [root, path]) = kept root ++ kept path := by
  have hne : path ≠ "" := by
    rintro rfl
    exact absurd h (by decide)
  rw [join_pair root path hne, kept_clean]
  by_cases hroot : root = ""
  · rw [if_pos hroot, hroot]
    rfl
  · have hrooted : isRooted (root ++ "/" ++ path) = isRooted root := by
      rw [String.append_assoc, isRooted_append _ _ hroot]
    rw [if_neg hroot, kept, hrooted, Text.splitOn_append, cleanSegments_eq, List.foldl_append]
    rcases names_of_isValid path h with rfl | hnames
    · have hdot : ∀ done, (Text.splitOn "." "/").foldl (stack (isRooted root)) done = done :=
        fun done => rfl
      rw [hdot, ← cleanSegments_eq]
      exact (List.append_nil _).symm
    · rw [foldl_stack_names _ _ _ hnames, (kept_of_names path hnames).2, List.reverse_append,
        List.reverse_reverse, ← cleanSegments_eq]
      rfl

theorem eq_of_kept (p q : String) (hp : isValid p = true) (hq : isValid q = true)
    (h : kept p = kept q) : p = q := by
  have hrooted : ∀ r, isValid r = true → isRooted r = false := by
    intro r hr
    rcases names_of_isValid r hr with rfl | hnames
    · decide
    · exact (kept_of_names r hnames).1
  rw [← clean_of_isValid p hp, ← clean_of_isValid q hq, clean_eq, clean_eq, hrooted p hp,
    hrooted q hq, h]

end Path

namespace Workspace

def place? (w : Workspace) (root path : String) : Option (List String) :=
  if Path.isValid path then
    FileTree.spot? (Path.relative w.directory (Path.join [root, path]))
  else none

variable (w : Workspace)

theorem place?_eq_some (root path : String) (place : List String)
    (h : w.place? root path = some place) : Path.isValid path = true ∧
      Path.kept root ++ Path.kept path = Path.kept w.directory ++ place := by
  unfold place? FileTree.spot? at h
  split at h
  next hv =>
    split at h
    next hs =>
      obtain rfl := Option.some.inj h
      exact ⟨hv, by rw [← Path.kept_join root path hv, (Path.kept_relative _ _ hs.2.1).1]⟩
    next => cases h
  next => cases h

theorem getLast?_place (root path l : String) (hl : Path.Ends path l) (place : List String)
    (h : w.place? root path = some place) (hne : place ≠ []) : place.getLast? = some l := by
  obtain ⟨-, hk⟩ := w.place?_eq_some root path place h
  obtain ⟨front, -, hf⟩ := hl.kept
  rw [hf, ← List.append_assoc] at hk
  have hlast := congrArg List.getLast? hk
  rw [List.getLast?_append_of_ne_nil _ hne] at hlast
  simpa using hlast.symm

theorem read_below (hs : w.files.Sound) (root path text : String) :
    (w.below root).read path = .ok text ↔
      ∃ place, w.place? root path = some place ∧ w.files.entry? place = some (.file text) := by
  have hclean : Path.clean (Path.relative w.directory (Path.join [root, path]))
      = Path.relative w.directory (Path.join [root, path]) := by
    rw [Path.relative]
    exact Path.clean_clean _
  have hread := w.files.read_clean hs _ hclean text
  unfold below place?
  by_cases hv : Path.isValid path = true
  · simp only [hv, Bool.not_true, Bool.false_eq_true, if_false, if_true]
    rw [← hread]
    cases w.files.read (Path.relative w.directory (Path.join [root, path])) with
    | ok now => simp
    | error e => cases e <;> simp
  · simp [hv]

theorem covers_below (hs : w.files.Sound) (root : String) : (w.below root).Covers := by
  classical
  let name (place : List String) : String :=
    if h : ∃ path, w.place? root path = some place then h.choose else ""
  refine ⟨w.files.files.map fun f => name f.1, by simp [below], ?_⟩
  intro path text hread
  obtain ⟨place, hp, he⟩ := (w.read_below hs root path text).mp hread
  have hfile := w.files.mem_files_of_entry place text he
  have hname : name place = path := by
    have hex : ∃ path, w.place? root path = some place := ⟨path, hp⟩
    obtain ⟨hv, hk⟩ := w.place?_eq_some root path place hp
    obtain ⟨hv', hk'⟩ := w.place?_eq_some root _ place hex.choose_spec
    have hsame := Path.eq_of_kept _ _ hv' hv (List.append_cancel_left (hk'.trans hk.symm))
    rw [← hsame]
    exact dif_pos hex
  obtain ⟨f, hf, rfl⟩ := List.mem_map.mp hfile
  exact hname ▸ List.mem_map_of_mem hf

def source? (root path : String) : Option (List String) :=
  w.place? (w.top root path) (Path.relative (w.top root path) (w.absolute path))

def SameFile (t u : FileTree) (place : List String) : Prop :=
  ∀ text, t.entry? place = some (.file text) ↔ u.entry? place = some (.file text)

theorem sameOk_read_below (t u : FileTree) (ht : t.Sound) (hu : u.Sound) (root path : String)
    (h : ∀ place, w.place? root path = some place → SameFile t u place) :
    SameOk ((below { w with files := t } root).read path)
      ((below { w with files := u } root).read path) := by
  intro text
  rw [read_below _ ht, read_below _ hu]
  exact exists_congr fun place => and_congr_right fun hp => h place hp text

section

variable (t u : FileTree) (ht : t.Sound) (hu : u.Sound) (root path : String)
  (hmain : ∀ place, w.source? root path = some place → SameFile t u place)
  (hksy : ∀ place l, place.getLast? = some l → ".ksy".toList <:+ l.toList → SameFile t u place)

include ht hu

include hksy in
theorem sameOk_read_import (top dir name : String) :
    SameOk ((below { w with files := t } top).read (SchemaSet.importPath dir name))
      ((below { w with files := u } top).read (SchemaSet.importPath dir name)) := by
  apply w.sameOk_read_below t u ht hu
  intro place hp
  by_cases hne : place = []
  · subst hne
    intro text
    simp [FileTree.entry_nil]
  · obtain ⟨l, hl, hsuffix⟩ := SchemaSet.ends_importPath dir name
    exact hksy place l (w.getLast?_place _ _ l hl place hp hne) hsuffix

include hmain hksy

/-- Trees that have the same file at the place of a schema, and the same files at all places with
the suffix of a schema, load the same. -/
theorem sameOk_load :
    SameOk (load { w with files := t } root path) (load { w with files := u } root path) := by
  change SameOk
    (SchemaSet.load (below { w with files := t } (w.top root path))
      (Path.relative (w.top root path) (w.absolute path)))
    (SchemaSet.load (below { w with files := u } (w.top root path))
      (Path.relative (w.top root path) (w.absolute path)))
  exact SchemaSet.sameOk_load _ _ (covers_below { w with files := t } ht _)
    (covers_below { w with files := u } hu _) _ (w.sameOk_read_below t u ht hu _ _ hmain)
    (w.sameOk_read_import t u ht hu hksy _)

theorem isHollow_congr (set : SchemaSet) (h : load { w with files := t } root path = .ok set) :
    isHollow { w with files := t } root path set
      = isHollow { w with files := u } root path set := by
  change SchemaSet.isHollow (below { w with files := t } (w.top root path)) set
    = SchemaSet.isHollow (below { w with files := u } (w.top root path)) set
  change SchemaSet.load (below { w with files := t } (w.top root path))
    (Path.relative (w.top root path) (w.absolute path)) = .ok set at h
  exact SchemaSet.isHollow_congr _ _ _ set (w.sameOk_read_below t u ht hu _ _ hmain)
    (w.sameOk_read_import t u ht hu hksy _) h

end

end Workspace

end FormatFuzz
