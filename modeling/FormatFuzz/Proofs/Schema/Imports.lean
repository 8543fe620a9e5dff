import FormatFuzz.Proofs.Fallible
import FormatFuzz.Proofs.Keyed
import FormatFuzz.Proofs.Path
import FormatFuzz.Schema.Load
import Mathlib.Data.Finset.Card
import Mathlib.Data.List.Perm.Subperm
import Mathlib.Logic.Relation

/-!
# What loading reaches

A file leads to the files it imports, and those to the files they import. Which path an import
stands for follows from the path of the file and the rules of cleaning. A walk lists what it meets
on the way, depth first and each path once. Loading a file walks through everything it leads to: it
fails exactly if something on the way cannot be read or two files have one id, and otherwise keeps
the files of the walk in its order. The bound on the depth of imports is never reached.
-/

set_option autoImplicit false

namespace FormatFuzz

theorem FileSystem.read_ofList (files : List (String × String)) (p t : String)
    (h : (ofList files).read p = .ok t) :
    p ∈ (ofList files).names ∧ Path.clean p = p := by
  unfold ofList at h ⊢
  simp only at h ⊢
  split at h
  next text hget =>
    split at h
    next hvalid =>
      refine ⟨?_, Path.clean_of_isValid p hvalid⟩
      simp only [Keyed.get?, Option.map_eq_some_iff] at hget
      obtain ⟨e, he, -⟩ := hget
      have hkey := List.find?_some he
      simp only [beq_iff_eq] at hkey
      exact hkey ▸ List.mem_map_of_mem (List.mem_of_find?_eq_some he)
    next => simp at h
  next =>
    split at h <;> simp at h

theorem Text.dropPrefix?_slash (s rest : String) :
    dropPrefix? s "/" = some rest ↔ s = "/" ++ rest := by
  have hslash : "/".toList = ['/'] := rfl
  rw [dropPrefix?, hslash, ← String.toList_inj, String.toList_append, hslash]
  cases s.toList with
  | nil => simp [List.isPrefixOf]
  | cons c cs =>
    by_cases hc : '/' = c
    · subst hc
      rw [if_pos (by simp [List.isPrefixOf]), Option.some.injEq, ← String.toList_inj]
      simp
    · rw [if_neg (by simpa [List.isPrefixOf] using hc)]
      simpa using fun h => absurd h.symm hc

namespace SchemaSet

inductive Suffixed : String → String → Prop
  | given (stem : String) : Suffixed (stem ++ ".ksy") (stem ++ ".ksy")
  | short (name : String) (h : ∀ stem, name ≠ stem ++ ".ksy") : Suffixed name (name ++ ".ksy")

/-- The path that a file means by the name of an import. With a slash in front it is seen from the
root, else from the directory of the file. -/
inductive Names (path name : String) : String → Prop
  | fromRoot (rest target : String) (hs : Suffixed name ("/" ++ rest))
      (ht : Path.Cleaned rest target) : Names path name target
  | fromDirectory (s front last target : String) (hs : Suffixed name s)
      (hr : ∀ rest, s ≠ "/" ++ rest) (hd : Path.Divides path front last)
      (ht : Path.Cleaned (front ++ s) target) : Names path name target

theorem suffixed_iff (name s : String) : Suffixed name s ↔
    s = if Text.endsWith ".ksy".toList name.toList then name else name ++ ".ksy" := by
  have hends : Text.endsWith ".ksy".toList name.toList = true ↔ ∃ stem, name = stem ++ ".ksy" := by
    rw [Text.endsWith, List.isSuffixOf_iff_suffix]
    constructor
    · rintro ⟨front, hf⟩
      exact ⟨String.ofList front, String.toList_injective (by rw [← hf]; simp)⟩
    · rintro ⟨stem, rfl⟩
      exact ⟨stem.toList, by simp⟩
  constructor
  · rintro (stem | ⟨_, h⟩)
    · rw [if_pos (hends.mpr ⟨stem, rfl⟩)]
    · rw [if_neg fun he => by obtain ⟨stem, hstem⟩ := hends.mp he; exact h stem hstem]
  · rintro rfl
    split
    next he =>
      obtain ⟨stem, rfl⟩ := hends.mp he
      exact .given stem
    next he => exact .short name fun stem hstem => he (hends.mpr ⟨stem, hstem⟩)

theorem isRooted_of_ne_slash (s : String) (h : ∀ rest, s ≠ "/" ++ rest) :
    Path.isRooted s = false := by
  rw [Path.isRooted]
  cases hs : s.toList with
  | nil => rfl
  | cons c cs =>
    have hc : c ≠ '/' := by
      rintro rfl
      exact h (String.ofList cs) (String.toList_injective (by simp [hs]))
    simpa using hc

theorem names_iff (path name target : String) :
    Names path name target ↔ target = importPath (Path.dir path) name := by
  obtain ⟨s, hs⟩ : ∃ s, Suffixed name s := ⟨_, (suffixed_iff name _).mpr rfl⟩
  have hone (t : String) (ht : Suffixed name t) : t = s :=
    ((suffixed_iff name t).mp ht).trans ((suffixed_iff name s).mp hs).symm
  have hne : s ≠ "" := by cases hs <;> simp
  rw [importPath, ← (suffixed_iff name s).mp hs]
  cases hroot : Text.dropPrefix? s "/" with
  | some rest =>
    obtain rfl := (Text.dropPrefix?_slash s rest).mp hroot
    dsimp only
    constructor
    · rintro (⟨rest', _, hs', ht⟩ | ⟨t, _, _, _, ht, hr, -, -⟩)
      · obtain rfl : rest' = rest := by simpa using hone _ hs'
        exact (Path.cleaned_iff _ _).mp ht
      · exact absurd (hone t ht) (hr rest)
    · exact fun ht => .fromRoot rest target hs ((Path.cleaned_iff _ _).mpr ht)
  | none =>
    have hr (rest : String) : s ≠ "/" ++ rest := fun h => by
      rw [(Text.dropPrefix?_slash s rest).mpr h] at hroot
      cases hroot
    have hdir (front last : String) (hd : Path.Divides path front last) :
        Path.clean (Path.join [Path.dir path, s]) = Path.clean (front ++ s) := by
      rw [Path.dir_of_divides path front last hd]
      exact Path.clean_join_dir front s hd.front (isRooted_of_ne_slash s hr) hne
    dsimp only
    constructor
    · rintro (⟨rest, _, hs', -⟩ | ⟨t, front, last, _, ht, -, hd, hclean⟩)
      · exact absurd (hone _ hs').symm (hr rest)
      · rw [hdir front last hd, ← hone t ht]
        exact (Path.cleaned_iff _ _).mp hclean
    · intro ht
      obtain ⟨front, last, hd⟩ := Path.exists_divides path
      rw [hdir front last hd] at ht
      exact .fromDirectory s front last target hs hr hd ((Path.cleaned_iff _ _).mpr ht)

/-- What a walk through some paths meets, depth first and without the paths seen before. From a path
it goes on to those that come next. -/
inductive Walk (next : String → List String → Prop) :
    List String → List String → List String → Prop
  | done (seen : List String) : Walk next seen [] []
  | skip (seen : List String) (p : String) (ps met : List String) (hp : p ∈ seen)
      (h : Walk next seen ps met) : Walk next seen (p :: ps) met
  | visit (seen : List String) (p : String) (qs ps below after : List String) (hp : p ∉ seen)
      (hn : next p qs) (hb : Walk next (p :: seen) qs below)
      (ha : Walk next (below.reverse ++ p :: seen) ps after) :
      Walk next seen (p :: ps) (p :: below ++ after)

namespace Walk

variable {next : String → List String → Prop} {seen ps met : List String}

theorem unique (hnext : ∀ p qs rs, next p qs → next p rs → rs = qs) (h : Walk next seen ps met)
    (other : List String) (ho : Walk next seen ps other) : other = met := by
  induction h generalizing other with
  | done => cases ho; rfl
  | skip seen p ps met hp _ ih =>
    cases ho with
    | skip _ _ _ _ _ ho => exact ih other ho
    | visit _ _ _ _ _ _ hnp => exact absurd hp hnp
  | visit seen p qs ps below after hp hn _ _ ihb iha =>
    cases ho with
    | skip _ _ _ _ hmem => exact absurd hmem hp
    | visit _ _ rs _ below' after' _ hr hb ha =>
      obtain rfl := hnext p qs rs hn hr
      obtain rfl := ihb below' hb
      rw [iha after' ha]

theorem nodup (h : Walk next seen ps met) (hs : seen.Nodup) : (met.reverse ++ seen).Nodup := by
  induction h with
  | done => simpa using hs
  | skip _ _ _ _ _ _ ih => exact ih hs
  | visit seen p qs ps below after hp _ _ _ ihb iha =>
    have hafter := iha (ihb (List.nodup_cons.mpr ⟨hp, hs⟩))
    simpa using hafter

theorem closed (h : Walk next seen ps met) :
    (∀ p ∈ ps, p ∈ met ∨ p ∈ seen) ∧
      ∀ p ∈ met, ∃ qs, next p qs ∧ ∀ q ∈ qs, q ∈ met ∨ q ∈ seen := by
  induction h with
  | done => simp
  | skip seen p ps met hp _ ih =>
    refine ⟨fun q hq => ?_, ih.2⟩
    rcases List.mem_cons.mp hq with rfl | hq
    · exact .inr hp
    · exact ih.1 q hq
  | visit seen p qs ps below after hp hn _ _ ihb iha =>
    have inBelow : ∀ q, q ∈ below ∨ q ∈ p :: seen → q ∈ p :: below ++ after ∨ q ∈ seen := by
      intro q hq
      simp only [List.mem_append, List.mem_cons] at hq ⊢
      tauto
    have inAfter : ∀ q, q ∈ after ∨ q ∈ below.reverse ++ p :: seen →
        q ∈ p :: below ++ after ∨ q ∈ seen := by
      intro q hq
      simp only [List.mem_append, List.mem_cons, List.mem_reverse] at hq ⊢
      tauto
    refine ⟨fun q hq => ?_, fun q hq => ?_⟩
    · rcases List.mem_cons.mp hq with rfl | hq
      · exact .inl (by simp)
      · exact inAfter q (iha.1 q hq)
    · rcases List.mem_append.mp hq with hq | hq
      · rcases List.mem_cons.mp hq with rfl | hq
        · exact ⟨qs, hn, fun r hr => inBelow r (ihb.1 r hr)⟩
        · obtain ⟨rs, hrs, hall⟩ := ihb.2 q hq
          exact ⟨rs, hrs, fun r hr => inBelow r (hall r hr)⟩
      · obtain ⟨rs, hrs, hall⟩ := iha.2 q hq
        exact ⟨rs, hrs, fun r hr => inAfter r (hall r hr)⟩

end Walk

variable (fs : FileSystem)

def Lists (path : String) (targets : List String) : Prop :=
  ∃ f, SchemaFile.read fs path = .ok f ∧
    List.Forall₂ (Names path) f.schema.body.head.imports targets

def Reaches (main path : String) : Prop :=
  Relation.ReflTransGen (fun p q => ∃ targets, Lists fs p targets ∧ q ∈ targets) main path

def Broken (main : String) : Prop :=
  ∃ p, Reaches fs main p ∧ ((∃ e, fs.read p = .error e) ∨
    ∃ text, fs.read p = .ok text ∧ ∃ e, SchemaFile.parse p text = .error e)

def Clashing (main : String) : Prop :=
  ∃ p q f g, Reaches fs main p ∧ Reaches fs main q ∧ p ≠ q ∧ SchemaFile.read fs p = .ok f ∧
    SchemaFile.read fs q = .ok g ∧ f.schema.id = g.schema.id

def Keeps (path : String) (e : String × SchemaFile) : Prop :=
  SchemaFile.read fs path = .ok e.2 ∧ e.1 = e.2.schema.id

/-- Progress that has gone on from a file with some id: it has met some paths, keeps their files, and
no two ids are the same. -/
structure Traces (main id : String) (met : List String) (p : Progress) : Prop where
  seen : p.seen = met.reverse ++ [main]
  kept : List.Forall₂ (Keeps fs) met p.imported
  ids : (id :: Keyed.keys p.imported).Nodup
  reached : ∀ q ∈ met, Reaches fs main q

/-- How many listed paths were not seen. It bounds how deep imports can still go. -/
def unseen (seen : List String) : ℕ :=
  (fs.names.toFinset \ seen.toFinset).card

theorem unseen_le_length (seen : List String) : unseen fs seen ≤ fs.names.length :=
  (Finset.card_le_card Finset.sdiff_subset).trans (List.toFinset_card_le _)

theorem unseen_le (seen more : List String) (h : ∀ p ∈ seen, p ∈ more) :
    unseen fs more ≤ unseen fs seen := by
  refine Finset.card_le_card (Finset.sdiff_subset_sdiff (Finset.Subset.refl _) fun p hp => ?_)
  exact List.mem_toFinset.mpr (h p (List.mem_toFinset.mp hp))

theorem unseen_lt (seen : List String) (p : String) (hn : p ∈ fs.names) (hp : p ∉ seen) :
    unseen fs (p :: seen) < unseen fs seen := by
  unfold unseen
  rw [List.toFinset_cons, Finset.sdiff_insert]
  exact Finset.card_erase_lt_of_mem (by simp [hn, hp])

section

variable {fs} (id : String) (fuel : ℕ) (importer : SchemaFile) (dir name : String)
  (names : List String) (p : Progress)

theorem loadImports_error (e : LoadError)
    (h : loadImport fs id importer dir name p = .error e) :
    loadImports fs id (fuel + 1) importer dir (name :: names) p = .error e := by
  rw [loadImports, h]
  rfl

theorem loadImports_seen (q : Progress) (h : loadImport fs id importer dir name p = .ok (q, none)) :
    loadImports fs id (fuel + 1) importer dir (name :: names) p
      = loadImports fs id (fuel + 1) importer dir names q := by
  rw [loadImports, h]
  rfl

theorem loadImports_new (q : Progress) (f : SchemaFile) (sub : String)
    (h : loadImport fs id importer dir name p = .ok (q, some (f, sub))) :
    loadImports fs id (fuel + 1) importer dir (name :: names) p
      = (loadImports fs id fuel f sub f.schema.body.head.imports q
        >>= loadImports fs id (fuel + 1) importer dir names) := by
  rw [loadImports, h]
  rfl

end

section

variable {fs} (hfs : ∀ p t, fs.read p = .ok t → p ∈ fs.names)

theorem read_eq_ok (p : String) (f : SchemaFile) (h : SchemaFile.read fs p = .ok f) :
    ∃ t, fs.read p = .ok t := by
  unfold SchemaFile.read at h
  split at h
  · cases h
  next t ht => exact ⟨t, ht⟩

theorem read_path (p : String) (f : SchemaFile) (h : SchemaFile.read fs p = .ok f) : f.path = p := by
  unfold SchemaFile.read SchemaFile.parse at h
  split at h
  · cases h
  split at h
  · cases h
  split at h
  · cases h
  split at h
  · cases h
  split at h
  · cases h
  · cases h
    rfl

theorem broken_of_error (main p : String) (e : LoadError) (hp : Reaches fs main p)
    (h : SchemaFile.read fs p = .error e) : Broken fs main := by
  refine ⟨p, hp, ?_⟩
  unfold SchemaFile.read at h
  split at h
  next e' he => exact .inl ⟨e', he⟩
  next t ht => exact .inr ⟨t, ht, e, h⟩

theorem lists_iff (p : String) (f : SchemaFile) (h : SchemaFile.read fs p = .ok f)
    (targets : List String) :
    Lists fs p targets ↔ targets = f.schema.body.head.imports.map (importPath (Path.dir p)) := by
  have hnames (names : List String) : List.Forall₂ (Names p) names targets ↔
      targets = names.map (importPath (Path.dir p)) := by
    constructor
    · intro hall
      rw [map_eq_of_forall₂ _ id hall fun name q hq => ((names_iff p name q).mp hq).symm,
        List.map_id]
    · rintro rfl
      exact List.forall₂_map_right_iff.mpr (List.forall₂_same.mpr fun name _ =>
        (names_iff p name _).mpr rfl)
  constructor
  · rintro ⟨g, hg, hall⟩
    cases h.symm.trans hg
    exact (hnames _).mp hall
  · exact fun heq => ⟨f, h, (hnames _).mpr heq⟩

theorem lists_unique (p : String) (qs rs : List String) (hq : Lists fs p qs)
    (hr : Lists fs p rs) : rs = qs := by
  obtain ⟨f, hf, -⟩ := id hq
  rw [(lists_iff p f hf qs).mp hq, (lists_iff p f hf rs).mp hr]

theorem reaches_import (p name : String) (f : SchemaFile) (h : SchemaFile.read fs p = .ok f)
    (hname : name ∈ f.schema.body.head.imports) (main : String) (hp : Reaches fs main p) :
    Reaches fs main (importPath (Path.dir p) name) :=
  hp.tail ⟨_, (lists_iff p f h _).mpr rfl, List.mem_map_of_mem hname⟩

theorem traces_visit (main id path : String) (met : List String) (p : Progress) (f : SchemaFile)
    (hp : Traces fs main id met p) (hpath : Reaches fs main path)
    (hread : SchemaFile.read fs path = .ok f)
    (hid : f.schema.id ∉ id :: Keyed.keys p.imported) :
    Traces fs main id (met ++ [path]) ⟨Keyed.set p.imported f.schema.id f, path :: p.seen⟩ := by
  simp only [List.mem_cons, not_or] at hid
  obtain ⟨hne, hnew⟩ := hid
  have hset := Keyed.set_of_not_mem p.imported f.schema.id f hnew
  refine ⟨by simp [hp.seen], ?_, ?_, ?_⟩
  · rw [hset]
    exact List.rel_append hp.kept (.cons ⟨hread, rfl⟩ .nil)
  · rw [Keyed.keys_set, if_neg hnew]
    have hids := List.nodup_cons.mp hp.ids
    refine List.nodup_cons.mpr ⟨?_, List.nodup_append.mpr ⟨hids.2, List.nodup_singleton _, ?_⟩⟩
    · simpa [Ne.symm hne] using hids.1
    · rintro k hk l hl rfl
      exact hnew (List.mem_singleton.mp hl ▸ hk)
  · intro q hq
    rcases List.mem_append.mp hq with hq | hq
    · exact hp.reached q hq
    · exact List.mem_singleton.mp hq ▸ hpath

theorem clashing_of_mem (main path : String) (mainFile f : SchemaFile) (met : List String)
    (p : Progress) (hmain : SchemaFile.read fs main = .ok mainFile)
    (hp : Traces fs main mainFile.schema.id met p) (hpath : Reaches fs main path)
    (hread : SchemaFile.read fs path = .ok f) (hnew : path ∉ p.seen)
    (hid : f.schema.id ∈ mainFile.schema.id :: Keyed.keys p.imported) : Clashing fs main := by
  have hnew : path ∉ met ∧ path ≠ main := by simpa [hp.seen] using hnew
  rcases List.mem_cons.mp hid with hid | hid
  · exact ⟨path, main, f, mainFile, hpath, .refl, hnew.2, hread, hmain, hid⟩
  · obtain ⟨e, he, hkey⟩ := List.mem_map.mp hid
    obtain ⟨q, hq, hkept⟩ := forall₂_mem_right _ _ _ hp.kept e he
    refine ⟨path, q, f, e.2, hpath, hp.reached q hq, ?_, hread, hkept.1, ?_⟩
    · rintro rfl
      exact hnew.1 hq
    · rw [← hkey, hkept.2]

theorem loadImport_cases (main : String) (mainFile importer : SchemaFile) (dir name : String)
    (met : List String) (p : Progress) (hmain : SchemaFile.read fs main = .ok mainFile)
    (hp : Traces fs main mainFile.schema.id met p) (hname : Reaches fs main (importPath dir name)) :
    (∃ e, loadImport fs mainFile.schema.id importer dir name p = .error e ∧
      (Broken fs main ∨ Clashing fs main)) ∨
    (importPath dir name ∈ p.seen ∧
      loadImport fs mainFile.schema.id importer dir name p = .ok (p, none)) ∨
    ∃ f q, importPath dir name ∉ p.seen ∧ SchemaFile.read fs (importPath dir name) = .ok f ∧
      loadImport fs mainFile.schema.id importer dir name p
        = .ok (q, some (f, Path.dir (importPath dir name))) ∧
      q.seen = importPath dir name :: p.seen ∧
      Traces fs main mainFile.schema.id (met ++ [importPath dir name]) q := by
  unfold loadImport
  simp only
  generalize importPath dir name = path at hname ⊢
  by_cases hseen : path ∈ p.seen
  · exact .inr (.inl ⟨hseen, if_pos hseen⟩)
  rw [if_neg hseen]
  cases hread : SchemaFile.read fs path with
  | error e => exact .inl ⟨_, rfl, .inl (broken_of_error main path e hname hread)⟩
  | ok f =>
    simp only
    have htaken : (Keyed.get? p.imported f.schema.id).isSome || f.schema.id = mainFile.schema.id
        ↔ f.schema.id ∈ mainFile.schema.id :: Keyed.keys p.imported := by
      rw [Bool.or_eq_true, Keyed.get?_isSome, decide_eq_true_eq, List.mem_cons, or_comm]
    by_cases hid : f.schema.id ∈ mainFile.schema.id :: Keyed.keys p.imported
    · rw [if_pos (htaken.mpr hid)]
      exact .inl ⟨_, rfl, .inr
        (clashing_of_mem main path mainFile f met p hmain hp hname hread hseen hid)⟩
    · rw [if_neg (htaken.not.mpr hid)]
      exact .inr (.inr ⟨f, _, hseen, rfl, rfl, rfl,
        traces_visit main _ path met p f hp hname hread hid⟩)

include hfs in
theorem loadImports_walk (main : String) (mainFile : SchemaFile)
    (hmain : SchemaFile.read fs main = .ok mainFile) (fuel : ℕ) (importer : SchemaFile)
    (dir : String) (names : List String) (met : List String) (p : Progress)
    (hp : Traces fs main mainFile.schema.id met p)
    (hnames : ∀ name ∈ names, Reaches fs main (importPath dir name))
    (hfuel : unseen fs p.seen < fuel) :
    (∃ e, loadImports fs mainFile.schema.id fuel importer dir names p = .error e ∧
      (Broken fs main ∨ Clashing fs main)) ∨
    ∃ q more, loadImports fs mainFile.schema.id fuel importer dir names p = .ok q ∧
      Walk (Lists fs) p.seen (names.map (importPath dir)) more ∧
      Traces fs main mainFile.schema.id (met ++ more) q := by
  induction fuel generalizing importer dir names met p with
  | zero => omega
  | succ fuel ihfuel =>
    induction names generalizing met p with
    | nil => exact .inr ⟨p, [], by simp [loadImports], .done _, by simpa using hp⟩
    | cons name names ih =>
      have hname := hnames name (by simp)
      have hrest := fun n hn => hnames n (List.mem_cons_of_mem name hn)
      rcases loadImport_cases main mainFile importer dir name met p hmain hp hname with
        ⟨e, he, hbad⟩ | ⟨hseen, he⟩ | ⟨f, q, hseen, hread, he, hq, htraces⟩
      · exact .inl ⟨e, loadImports_error _ _ _ _ _ _ _ e he, hbad⟩
      · rw [loadImports_seen _ _ _ _ _ _ _ p he]
        rcases ih met p hp hrest hfuel with ⟨e, he, hbad⟩ | ⟨r, more, he, hwalk, hr⟩
        · exact .inl ⟨e, he, hbad⟩
        · exact .inr ⟨r, more, he, .skip _ _ _ _ hseen hwalk, hr⟩
      · obtain ⟨t, ht⟩ := read_eq_ok _ f hread
        have hless := unseen_lt fs p.seen _ (hfs _ t ht) hseen
        have hbelow := fun n hn => reaches_import _ n f hread hn main hname
        rw [loadImports_new _ _ _ _ _ _ _ q f _ he]
        rcases ihfuel f _ _ _ q htraces hbelow (by rw [hq]; omega) with
          ⟨e, hsub, hbad⟩ | ⟨r, below, hsub, hwalk, hr⟩
        · exact .inl ⟨e, by rw [hsub]; rfl, hbad⟩
        have hrseen : r.seen = below.reverse ++ importPath dir name :: p.seen := by
          rw [hr.seen, hp.seen]
          simp
        have hle := unseen_le fs p.seen r.seen fun s hs => by simp [hrseen, hs]
        rw [hsub, ok_bind]
        rcases ih _ r hr hrest (by omega) with ⟨e, hgo, hbad⟩ | ⟨u, after, hgo, hwalk', hu⟩
        · exact .inl ⟨e, hgo, hbad⟩
        · refine .inr ⟨u, _, hgo, .visit _ _ _ _ below after hseen
            ((lists_iff _ f hread _).mpr rfl) ?_ ?_, ?_⟩
          · exact hq ▸ hwalk
          · exact hrseen ▸ hwalk'
          · simpa using hu

theorem loadImport_ok (id : String) (importer : SchemaFile) (dir name : String) (p q : Progress)
    (next : Option (SchemaFile × String))
    (h : loadImport fs id importer dir name p = .ok (q, next)) :
    (next = none ∧ q = p) ∨ ∃ f, SchemaFile.read fs (importPath dir name) = .ok f ∧
      importPath dir name ∉ p.seen ∧
      q = ⟨Keyed.set p.imported f.schema.id f, importPath dir name :: p.seen⟩ := by
  unfold loadImport at h
  simp only at h
  split at h
  · cases h
    exact .inl ⟨rfl, rfl⟩
  next hseen =>
    split at h
    · cases h
    next f hread =>
      split at h
      · cases h
      · cases h
        exact .inr ⟨f, hread, hseen, rfl⟩

theorem loadImports_keeps (P : Progress → Prop) (id : String)
    (step : ∀ importer dir name p q next,
      loadImport fs id importer dir name p = .ok (q, next) → P p → P q)
    (fuel : ℕ) (importer : SchemaFile) (dir : String) (names : List String) (p q : Progress)
    (h : loadImports fs id fuel importer dir names p = .ok q) (hp : P p) : P q := by
  induction fuel generalizing importer dir names p q with
  | zero =>
    have : q = p := by
      cases names <;> rw [loadImports] at h <;> cases h <;> rfl
    exact this ▸ hp
  | succ fuel ihfuel =>
    induction names generalizing p with
    | nil =>
      rw [loadImports] at h
      cases h
      exact hp
    | cons name names ih =>
      cases he : loadImport fs id importer dir name p with
      | error e =>
        rw [loadImports_error _ _ _ _ _ _ _ e he] at h
        cases h
      | ok r =>
        obtain ⟨r, next⟩ := r
        have hr := step importer dir name p r next he hp
        cases next with
        | none =>
          rw [loadImports_seen _ _ _ _ _ _ _ r he] at h
          exact ih r h hr
        | some next =>
          rw [loadImports_new _ _ _ _ _ _ _ r _ _ he] at h
          obtain ⟨u, hsub, h⟩ := (bind_eq_ok _ _ _).mp h
          exact ih u h (ihfuel _ _ _ r u hsub hr)

theorem seen_loadImport (id : String) (importer : SchemaFile) (dir name : String) (p q : Progress)
    (next : Option (SchemaFile × String))
    (h : loadImport fs id importer dir name p = .ok (q, next)) : ∀ s ∈ p.seen, s ∈ q.seen := by
  rcases loadImport_ok id importer dir name p q next h with ⟨-, rfl⟩ | ⟨f, -, -, rfl⟩
  · exact fun s hs => hs
  · exact fun s hs => List.mem_cons_of_mem _ hs

theorem seen_loadImports (id : String) (fuel : ℕ) (importer : SchemaFile) (dir : String)
    (names : List String) (p q : Progress)
    (h : loadImports fs id fuel importer dir names p = .ok q) : ∀ s ∈ p.seen, s ∈ q.seen := by
  refine loadImports_keeps (fun r => ∀ s ∈ p.seen, s ∈ r.seen) id ?_ fuel importer dir names p q h
    fun s hs => hs
  exact fun importer dir name r u next h hr s hs =>
    seen_loadImport id importer dir name r u next h s (hr s hs)

theorem load_files (path : String) (set : SchemaSet) (h : load fs path = .ok set) :
    SchemaFile.read fs path = .ok set.main ∧
      ∀ e ∈ set.imported, ∃ dir name, SchemaFile.read fs (importPath dir name) = .ok e.2 := by
  obtain ⟨main, hmain, h⟩ := (bind_eq_ok _ _ _).mp h
  obtain ⟨p, hp, h⟩ := (bind_eq_ok _ _ _).mp h
  rw [pure_eq_ok] at h
  subst h
  refine ⟨hmain, ?_⟩
  have hread : Keyed.Each
      (fun f => ∃ dir name, SchemaFile.read fs (importPath dir name) = .ok f) p.imported := by
    refine loadImports_keeps (fun r => Keyed.Each _ r.imported) _ ?_ _ main _ _ _ p hp
      (Keyed.each_nil _)
    intro importer dir name q r next h hq
    rcases loadImport_ok _ importer dir name q r next h with ⟨-, rfl⟩ | ⟨f, hf, -, rfl⟩
    · exact hq
    · exact Keyed.each_set _ q.imported _ f hq ⟨dir, name, hf⟩
  exact hread.2

include hfs in
theorem loadImports_depth (id : String) (fuel more : ℕ) (importer : SchemaFile) (dir : String)
    (names : List String) (p : Progress) (hfuel : unseen fs p.seen < fuel)
    (hmore : unseen fs p.seen < more) :
    loadImports fs id fuel importer dir names p = loadImports fs id more importer dir names p := by
  induction fuel generalizing more importer dir names p with
  | zero => omega
  | succ fuel ihfuel =>
    obtain ⟨more, rfl⟩ : ∃ m, more = m + 1 := ⟨more - 1, by omega⟩
    induction names generalizing p with
    | nil => simp [loadImports]
    | cons name names ih =>
      cases he : loadImport fs id importer dir name p with
      | error e =>
        rw [loadImports_error _ _ _ _ _ _ _ e he, loadImports_error _ _ _ _ _ _ _ e he]
      | ok r =>
        obtain ⟨r, next⟩ := r
        have hle := unseen_le fs _ _ (seen_loadImport id importer dir name p r next he)
        cases next with
        | none =>
          rw [loadImports_seen _ _ _ _ _ _ _ r he, loadImports_seen _ _ _ _ _ _ _ r he]
          exact ih r (by omega) (by omega)
        | some next =>
          have hless : unseen fs r.seen < unseen fs p.seen := by
            rcases loadImport_ok id importer dir name p r _ he with ⟨hn, -⟩ | ⟨f, hf, hp, rfl⟩
            · cases hn
            · obtain ⟨t, ht⟩ := read_eq_ok _ f hf
              exact unseen_lt fs p.seen _ (hfs _ t ht) hp
          rw [loadImports_new _ _ _ _ _ _ _ r _ _ he, loadImports_new _ _ _ _ _ _ _ r _ _ he,
            ihfuel more _ _ _ r (by omega) (by omega)]
          cases hsub : loadImports fs id more next.1 next.2 next.1.schema.body.head.imports r with
          | error e => rfl
          | ok u =>
            have hle := unseen_le fs _ _ (seen_loadImports id _ _ _ _ r u hsub)
            exact ih u (by omega) (by omega)

theorem traces_end (main : String) (mainFile : SchemaFile) (met : List String) (p : Progress)
    (hmain : SchemaFile.read fs main = .ok mainFile)
    (hwalk : Walk (Lists fs) [] [main] (main :: met))
    (hp : Traces fs main mainFile.schema.id met p) :
    (main :: met).Nodup ∧ (∀ q, q ∈ main :: met ↔ Reaches fs main q) ∧
      ¬ Broken fs main ∧ ¬ Clashing fs main := by
  have hnodup : (main :: met).Nodup := by
    have hrev := hwalk.nodup List.nodup_nil
    rwa [List.append_nil, List.nodup_reverse] at hrev
  have hall : ∀ q, q ∈ main :: met ↔ Reaches fs main q := by
    intro q
    constructor
    · intro hq
      rcases List.mem_cons.mp hq with rfl | hq
      · exact .refl
      · exact hp.reached q hq
    · intro hq
      -- what was met leads to nothing but what was met
      induction hq with
      | refl => simp
      | tail _ hbc ih =>
        obtain ⟨qs, hqs, hc⟩ := hbc
        obtain ⟨rs, hrs, hclosed⟩ := hwalk.closed.2 _ ih
        obtain rfl := lists_unique _ _ _ hqs hrs
        simpa using hclosed _ hc
  have hkept : List.Forall₂ (Keeps fs) (main :: met)
      ((mainFile.schema.id, mainFile) :: p.imported) := .cons ⟨hmain, rfl⟩ hp.kept
  have hread : ∀ q ∈ main :: met, ∃ f, SchemaFile.read fs q = .ok f := by
    intro q hq
    obtain ⟨e, -, he⟩ := forall₂_mem_left _ _ _ hkept q hq
    exact ⟨e.2, he.1⟩
  refine ⟨hnodup, hall, ?_, ?_⟩
  · rintro ⟨q, hq, hbad⟩
    obtain ⟨f, hf⟩ := hread q ((hall q).mpr hq)
    unfold SchemaFile.read at hf
    rcases hbad with ⟨e, he⟩ | ⟨text, ht, e, he⟩
    · rw [he] at hf
      cases hf
    · simp [ht, he] at hf
  · rintro ⟨q, r, f, g, hq, hr, hne, hf, hg, hid⟩
    let idAt (path : String) : Option String :=
      (SchemaFile.read fs path).toOption.map fun f => f.schema.id
    have hids : (main :: met).map idAt
        = (mainFile.schema.id :: Keyed.keys p.imported).map some := by
      have hmap := map_eq_of_forall₂ idAt (fun e => some e.1) hkept fun path e he => by
        simp [idAt, he.1, he.2, Except.toOption]
      simpa [Keyed.keys, Function.comp_def] using hmap
    have hinj := List.inj_on_of_nodup_map (hids ▸ hp.ids.map (Option.some_injective _))
    refine hne (hinj ((hall q).mpr hq) ((hall r).mpr hr) ?_)
    simp [idAt, hf, hg, hid, Except.toOption]

end

theorem load_read (files : List (String × String)) (main : String) (f : SchemaFile)
    (h : SchemaFile.read (.ofList files) main = .ok f) :
    load (.ofList files) main = (do
      let p ← loadImports (.ofList files) f.schema.id (files.length + 1) f (Path.dir main)
        f.schema.body.head.imports ⟨[], [main]⟩
      return ⟨f, p.imported⟩) := by
  obtain ⟨t, ht⟩ := read_eq_ok main f h
  have hlength : (FileSystem.ofList files).names.length = files.length := List.length_map ..
  rw [load, h, (FileSystem.read_ofList files main t ht).2, hlength]
  rfl

/-- Loading a file fails exactly if something it leads to cannot be read or two of these files have
one id. Otherwise it keeps every file it leads to but itself, once, in the order in which a walk
meets them. No depth beyond the number of files changes what it finds. -/
theorem load_walk (files : List (String × String)) (main : String) :
    let fs := FileSystem.ofList files
    ((∃ e, load fs main = .error e) ↔ Broken fs main ∨ Clashing fs main) ∧
    (∀ set, load fs main = .ok set → SchemaFile.read fs main = .ok set.main ∧
      ∃ met, Walk (Lists fs) [] [main] (main :: met) ∧
        (∀ other, Walk (Lists fs) [] [main] other → other = main :: met) ∧
        (main :: met).Nodup ∧ (∀ p, p ∈ main :: met ↔ Reaches fs main p) ∧
        List.Forall₂ (Keeps fs) met set.imported) ∧
    ∀ f depth, SchemaFile.read fs main = .ok f → files.length < depth →
      load fs main = (do
        let p ← loadImports fs f.schema.id depth f (Path.dir main) f.schema.body.head.imports
          ⟨[], [main]⟩
        return ⟨f, p.imported⟩) := by
  intro fs
  have hlisted : ∀ p t, fs.read p = .ok t → p ∈ fs.names := fun p t ht =>
    (FileSystem.read_ofList files p t ht).1
  have hunseen : unseen fs [main] ≤ files.length := by
    simpa [fs, FileSystem.ofList] using unseen_le_length fs [main]
  cases hread : SchemaFile.read fs main with
  | error e =>
    have hload : load fs main = .error e := by
      rw [load, hread]
      rfl
    have hbroken := broken_of_error main main e .refl hread
    simp [hload, hbroken]
  | ok f =>
    have hload := load_read files main f hread
    have hstart : Traces fs main f.schema.id [] ⟨[], [main]⟩ :=
      ⟨rfl, .nil, List.nodup_singleton _, by simp⟩
    have hnames := fun n hn => reaches_import main n f hread hn main .refl
    have hless : unseen fs [main] < files.length + 1 := by omega
    refine and_assoc.mp ⟨?_, fun f' depth hf' hdepth => ?_⟩
    · rcases loadImports_walk hlisted main f hread (files.length + 1) f (Path.dir main) _ [] _
        hstart hnames hless with
        ⟨e, he, hbad⟩ | ⟨p, met, he, hwalk, hp⟩
      · rw [he] at hload
        refine ⟨⟨fun _ => hbad, fun _ => ⟨e, hload⟩⟩, fun set hset => ?_⟩
        rw [hload] at hset
        cases hset
      · have hload : load fs main = .ok ⟨f, p.imported⟩ := by
          rw [hload, he]
          rfl
        have hwalk : Walk (Lists fs) [] [main] (main :: met) := by
          have hvisit := Walk.visit [] main _ [] met [] List.not_mem_nil
            ((lists_iff main f hread _).mpr rfl) hwalk (.done _)
          rwa [List.append_nil] at hvisit
        obtain ⟨hnodup, hall, hbroken, hclashing⟩ := traces_end main f met p hread hwalk hp
        refine ⟨by simp [hload, hbroken, hclashing], fun set hset => ?_⟩
        rw [hload] at hset
        cases hset
        exact ⟨rfl, met, hwalk, hwalk.unique lists_unique, hnodup, hall, hp.kept⟩
    · cases hf'
      have hdeep := loadImports_depth hlisted f.schema.id (files.length + 1) depth f (Path.dir main)
        f.schema.body.head.imports ⟨[], [main]⟩ hless (Nat.lt_of_le_of_lt hunseen hdepth)
      rw [hload, hdeep]

end SchemaSet

end FormatFuzz
