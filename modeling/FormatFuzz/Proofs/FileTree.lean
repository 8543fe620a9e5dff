import FormatFuzz.Proofs.Path
import Mathlib.Data.List.Induction

/-!
# Trees that grow

In a sound tree whatever stands somewhere stands in directories. Making a directory and writing a
file keep a tree sound: they add directories on the way to one place, change the text at one place,
and leave everything else as it was. A clean path is read at the place that its segments name.
-/

set_option autoImplicit false

namespace FormatFuzz.FileTree

def Sound (t : FileTree) : Prop :=
  ∀ place s, t.entry? (place ++ [s]) ≠ none → t.entry? place = some .dir

/-- A tree has grown into another: its directories and its files are still there, the files perhaps
with another text, and no new directory has a name that is too long. -/
structure Grows (t u : FileTree) : Prop where
  dirs : ∀ place, t.entry? place = some .dir → u.entry? place = some .dir
  files : ∀ place text, t.entry? place = some (.file text) →
    ∃ now, u.entry? place = some (.file now)
  short : ∀ place, u.entry? place = some .dir →
    t.entry? place = some .dir ∨ place.getLast?.any isTooLong = false

theorem Grows.refl (t : FileTree) : Grows t t :=
  ⟨fun _ h => h, fun _ text h => ⟨text, h⟩, fun _ h => Or.inl h⟩

theorem Grows.trans {t u v : FileTree} (h : Grows t u) (g : Grows u v) : Grows t v := by
  constructor
  · exact fun place hp => g.dirs place (h.dirs place hp)
  · intro place text hp
    obtain ⟨now, hn⟩ := h.files place text hp
    exact g.files place now hn
  · intro place hp
    rcases g.short place hp with hu | hshort
    · exact h.short place hu
    · exact Or.inr hshort

theorem entry_nil (t : FileTree) : t.entry? [] = some .dir := by
  simp [FileTree.entry?]

theorem Sound.above {t : FileTree} (hs : t.Sound) (front rest : List String) (hr : rest ≠ [])
    (h : t.entry? (front ++ rest) ≠ none) : t.entry? front = some .dir := by
  induction rest using List.reverseRecOn with
  | nil => exact absurd rfl hr
  | append_singleton rest s ih =>
    have hdir := hs (front ++ rest) s (by simpa using h)
    by_cases hrest : rest = []
    · simpa [hrest] using hdir
    · exact ih hrest (by simp [hdir])

theorem mem_beginnings (place q : List String) : q ∈ beginnings place ↔ q ≠ [] ∧ q <+: place := by
  induction place generalizing q with
  | nil => simp [beginnings]
  | cons s place ih =>
    cases q with
    | nil => simp [beginnings]
    | cons t q =>
      by_cases hq : q = []
      · simp [beginnings, hq, ih, eq_comm]
      · simp [beginnings, hq, ih, List.cons_prefix_cons, eq_comm, and_comm]

theorem mem_dirs_of_entry (t : FileTree) (place : List String) (hne : place ≠ [])
    (h : t.entry? place = some .dir) : place ∈ t.dirs := by
  by_contra hnot
  simp [FileTree.entry?, hne, hnot] at h

theorem mem_files_of_entry (t : FileTree) (place : List String) (text : String)
    (h : t.entry? place = some (.file text)) : place ∈ t.files.map Prod.fst := by
  unfold FileTree.entry? at h
  split at h
  · simp at h
  · obtain ⟨f, hf, -⟩ := Option.map_eq_some_iff.mp h
    have hkey := List.find?_some hf
    rw [beq_iff_eq] at hkey
    exact hkey ▸ List.mem_map_of_mem (List.mem_of_find?_eq_some hf)

theorem sound_of_listed (t : FileTree)
    (h : ∀ place ∈ t.dirs ++ t.files.map Prod.fst, place.dropLast = [] ∨ place.dropLast ∈ t.dirs) :
    t.Sound := by
  intro place s hne
  have hmem : place ++ [s] ∈ t.dirs ++ t.files.map Prod.fst := by
    cases he : t.entry? (place ++ [s]) with
    | none => exact absurd he hne
    | some e =>
      cases e with
      | dir => exact List.mem_append_left _ (t.mem_dirs_of_entry _ (by simp) he)
      | file text => exact List.mem_append_right _ (t.mem_files_of_entry _ text he)
  have habove := h _ hmem
  rw [List.dropLast_concat] at habove
  rcases habove with rfl | hdir
  · exact t.entry_nil
  · simp [FileTree.entry?, hdir]

theorem addDir_of_dir (t : FileTree) (place : List String) (hs : t.Sound)
    (h : t.entry? place = some .dir) : t.addDir place = t := by
  have hnone : (beginnings place).filter (fun d => d ∉ t.dirs) = [] := by
    rw [List.filter_eq_nil_iff]
    intro q hq
    obtain ⟨hne, rest, rfl⟩ := (mem_beginnings place q).mp hq
    have hdir : t.entry? q = some .dir := by
      by_cases hr : rest = []
      · simpa [hr] using h
      · exact hs.above q rest hr (by simp [h])
    simpa using t.mem_dirs_of_entry q hne hdir
  rw [addDir, hnone, List.append_nil]

theorem entry_put (t : FileTree) (place : List String) (text : String) (hs : t.Sound)
    (hdir : t.entry? place ≠ some .dir) (habove : t.entry? place.dropLast = some .dir)
    (q : List String) :
    FileTree.entry? (t.put place text) q = if q = place then some (.file text) else t.entry? q := by
  rw [put, t.addDir_of_dir place.dropLast hs habove]
  by_cases hq : q = place
  · subst hq
    have hnot : ¬ ((q = [] || decide (q ∈ t.dirs)) = true) := by
      intro h
      exact hdir (by rw [FileTree.entry?, if_pos h])
    have hfind : (t.files.filter fun f => f.1 != q).find? (fun f => f.1 == q) = none := by simp
    rw [if_pos rfl, entry?, if_neg hnot, List.find?_append, hfind]
    simp
  · rw [if_neg hq]
    have hsame : ((t.files.filter fun f => f.1 != place) ++ [(place, text)]).find?
        (fun f => f.1 == q) = t.files.find? fun f => f.1 == q := by
      rw [List.find?_append, List.find?_filter]
      have hlast : [(place, text)].find? (fun f => f.1 == q) = none := by simp [Ne.symm hq]
      rw [hlast, Option.or_none]
      congr 1
      funext f
      by_cases hf : f.1 = q
      · simp [hf, hq]
      · simp [hf]
    simp only [FileTree.entry?, hsame]

theorem dirFault?_eq_none (t : FileTree) (place : List String) :
    t.dirFault? place = none ↔ pathFault? (Text.join "/" place) = none ∧
      (t.entry? place = some .dir ∨
        t.entry? place = none ∧ place.getLast?.any isTooLong = false) := by
  unfold dirFault?
  cases pathFault? (Text.join "/" place) with
  | some fault => simp
  | none =>
    cases t.entry? place with
    | none => simp
    | some e => cases e <;> simp

def CanMake (t : FileTree) (place : List String) : Prop :=
  ∀ q ∈ beginnings place, t.dirFault? q = none

theorem CanMake.above {t : FileTree} {place q : List String} (h : t.CanMake place)
    (hq : q <+: place) : t.CanMake q := by
  intro r hr
  obtain ⟨hne, hp⟩ := (mem_beginnings q r).mp hr
  exact h r ((mem_beginnings place r).mpr ⟨hne, hp.trans hq⟩)

theorem CanMake.entry {t : FileTree} {place : List String} (h : t.CanMake place) :
    t.entry? place = some .dir ∨
      t.entry? place = none ∧ place.getLast?.any isTooLong = false := by
  by_cases hne : place = []
  · exact .inl (hne ▸ t.entry_nil)
  · exact ((dirFault?_eq_none t place).mp
      (h place ((mem_beginnings place place).mpr ⟨hne, List.prefix_refl _⟩))).2

theorem mem_takeWhile_beginnings (p : List String → Bool) (place q : List String) :
    q ∈ (beginnings place).takeWhile p ↔ q ∈ beginnings place ∧ ∀ r ∈ beginnings q, p r = true := by
  induction place generalizing p q with
  | nil => simp [beginnings]
  | cons s place ih =>
    rw [beginnings, List.takeWhile_cons]
    by_cases hs : p [s] = true
    · rw [if_pos hs, List.takeWhile_map, List.mem_cons, List.mem_map, List.mem_cons, List.mem_map]
      constructor
      · rintro (rfl | ⟨q, hq, rfl⟩)
        · exact ⟨.inl rfl, by simpa [beginnings] using hs⟩
        · obtain ⟨hq, hall⟩ := (ih _ q).mp hq
          refine ⟨.inr ⟨q, hq, rfl⟩, ?_⟩
          simpa [beginnings, hs] using hall
      · rintro ⟨rfl | ⟨q, hq, rfl⟩, hall⟩
        · exact .inl rfl
        · refine .inr ⟨q, (ih _ q).mpr ⟨hq, fun r hr => ?_⟩, rfl⟩
          exact hall (s :: r) (by simp [beginnings, hr])
    · rw [if_neg hs]
      constructor
      · simp
      · rintro ⟨hq, hall⟩
        refine absurd (hall [s] ?_) hs
        rcases List.mem_cons.mp hq with rfl | hq
        · simp [beginnings]
        · obtain ⟨r, -, rfl⟩ := List.mem_map.mp hq
          simp [beginnings]

section

variable (t : FileTree) (path : String)

theorem makeDir_outside (hout : isOutside path = true) : t.makeDir path = (t, none) := by
  rw [makeDir, if_pos hout]

theorem makeDir_eq_none : (t.makeDir path).2 = none ↔
    (isOutside path = false → t.CanMake (segments path)) := by
  cases hout : isOutside path with
  | true => simp [t.makeDir_outside path hout]
  | false =>
    rw [makeDir, hout]
    simp [CanMake, List.findSome?_eq_none_iff]

theorem dir_makeDir (q : List String) : FileTree.entry? (t.makeDir path).1 q = some .dir ↔
    t.entry? q = some .dir ∨ isOutside path = false ∧ q <+: segments path ∧ t.CanMake q := by
  cases hout : isOutside path with
  | true => simp [t.makeDir_outside path hout]
  | false =>
    by_cases hq : q = []
    · simp [hq, entry_nil]
    have hmem := mem_takeWhile_beginnings (fun place => (t.dirFault? place).isNone) (segments path) q
    simp only [mem_beginnings (segments path) q, hq, ne_eq, not_false_eq_true, true_and,
      Option.isNone_iff_eq_none] at hmem
    have hentry : FileTree.entry? (t.makeDir path).1 q =
        if q ∈ (beginnings (segments path)).takeWhile fun place => (t.dirFault? place).isNone
        then some .dir else t.entry? q := by
      rw [makeDir, hout]
      by_cases hd : q ∈ t.dirs <;> simp [FileTree.entry?, hq, hd]
    rw [hentry]
    by_cases hmade : q <+: segments path ∧ t.CanMake q
    · rw [if_pos (hmem.mpr hmade)]
      simp [hmade]
    · rw [if_neg (mt hmem.mp hmade)]
      simp [hmade]

theorem file_makeDir (q : List String) (text : String) :
    FileTree.entry? (t.makeDir path).1 q = some (.file text) ↔ t.entry? q = some (.file text) := by
  have hdir := t.dir_makeDir path q
  by_cases hnew : isOutside path = false ∧ q <+: segments path ∧ t.CanMake q
  · rw [hdir.mpr (.inr hnew)]
    rcases hnew.2.2.entry with h | ⟨h, -⟩ <;> simp [h]
  · have hsame : ∀ u, u = (t.makeDir path).1 → u.files = t.files := by
      rintro u rfl
      unfold makeDir
      split <;> rfl
    rw [or_iff_left hnew] at hdir
    by_cases hd : t.entry? q = some .dir
    · rw [hdir.mpr hd, hd]
    · have hu := mt hdir.mp hd
      unfold FileTree.entry? at hd hu ⊢
      rw [hsame _ rfl] at hu ⊢
      split at hd
      · exact absurd rfl hd
      split at hu
      · exact absurd rfl hu
      next hnt hnu => rw [if_neg hnt, if_neg hnu]

theorem grows_makeDir : Grows t (t.makeDir path).1 := by
  refine ⟨fun q hq => (t.dir_makeDir path q).mpr (.inl hq),
    fun q text hq => ⟨text, (t.file_makeDir path q text).mpr hq⟩, fun q hq => ?_⟩
  rcases (t.dir_makeDir path q).mp hq with hq | ⟨-, -, hmade⟩
  · exact .inl hq
  · exact hmade.entry.imp_right fun h => h.2

theorem sound_makeDir (hs : t.Sound) : (t.makeDir path).1.Sound := by
  intro place s hne
  rw [dir_makeDir]
  cases he : FileTree.entry? (t.makeDir path).1 (place ++ [s]) with
  | none => exact absurd he hne
  | some e =>
    cases e with
    | file text =>
      exact .inl (hs place s (by simp [(t.file_makeDir path _ text).mp he]))
    | dir =>
      rcases (t.dir_makeDir path _).mp he with h | ⟨hin, hp, hmade⟩
      · exact .inl (hs place s (by simp [h]))
      · have hfront := List.prefix_append place [s]
        exact .inr ⟨hin, hfront.trans hp, hmade.above hfront⟩

end

section

variable (t : FileTree) (path text : String)

theorem set?_outside (hout : isOutside path = true) : t.set? path text = some t := by
  simp [set?, hout]

theorem set?_eq_none : t.set? path text = none ↔
    isOutside path = false ∧ t.entry? (segments path) = some .dir := by
  cases hout : isOutside path <;> simp [set?, hout]

theorem set?_of_write (u : FileTree) (h : t.write? path text = some u) :
    t.set? path text = some u := by
  unfold write? at h
  split at h
  · cases h
  · exact h

theorem replace_eq_ok (u : FileTree) : t.replace path text = .ok u ↔
    nameFault? (temporary path) = none ∧ t.set? path text = some u := by
  unfold replace
  cases nameFault? (temporary path) with
  | some fault => simp
  | none => cases hs : t.set? path text <;> simp [hs]

end

/-- A file cannot be replaced: its name is no name for a file, or a directory stands there. -/
def Bars (t : FileTree) (path : String) : Prop :=
  nameFault? (temporary path) ≠ none ∨
    isOutside path = false ∧ t.entry? (segments path) = some .dir

/-- A file cannot be written at a path, or the directory that it is to lie in cannot be made. -/
def Blocks (t : FileTree) (path : String) : Prop :=
  t.Bars path ∨ isOutside path = false ∧ ¬ t.CanMake (segments (Path.dir path))

theorem replace_eq_error (t : FileTree) (path text : String) :
    (∃ fault, t.replace path text = .error fault) ↔ t.Bars path := by
  unfold replace Bars
  rw [← t.set?_eq_none path text]
  cases nameFault? (temporary path) with
  | some fault => simp
  | none => cases hs : t.set? path text <;> simp [hs]

section

variable {t u : FileTree}

theorem Grows.dirFault? (h : Grows t u) (place : List String) (hf : t.dirFault? place ≠ none) :
    u.dirFault? place ≠ none := by
  intro hu
  obtain ⟨hpath, hentry⟩ := (dirFault?_eq_none u place).mp hu
  apply hf
  refine (dirFault?_eq_none t place).mpr ⟨hpath, ?_⟩
  cases ht : t.entry? place with
  | none =>
    rcases hentry with hd | hn
    · rcases h.short place hd with hd | hs
      · rw [ht] at hd
        cases hd
      · exact Or.inr ⟨rfl, hs⟩
    · exact Or.inr ⟨rfl, hn.2⟩
  | some e =>
    cases e with
    | dir => exact Or.inl rfl
    | file text =>
      obtain ⟨now, hnow⟩ := h.files place text ht
      rw [hnow] at hentry
      simp at hentry

theorem Grows.canMake (h : Grows t u) (place : List String) (hu : u.CanMake place) :
    t.CanMake place := by
  intro q hq
  by_contra hf
  exact h.dirFault? q hf (hu q hq)

theorem Grows.bars (h : Grows t u) (path : String) (hb : t.Bars path) : u.Bars path :=
  hb.imp_right fun ⟨hin, hd⟩ => ⟨hin, h.dirs _ hd⟩

theorem Grows.blocks (h : Grows t u) (path : String) (hb : t.Blocks path) : u.Blocks path :=
  hb.imp (h.bars path) fun ⟨hin, hn⟩ => ⟨hin, fun hu => hn (h.canMake _ hu)⟩

end

section

variable {t u : FileTree} {path l text : String} (hl : Path.Ends path l)

include hl

theorem bars_makeDir (h : (t.makeDir (Path.dir path)).1.Bars path) : t.Bars path := by
  refine h.imp_right fun ⟨hin, hd⟩ => ⟨hin, ?_⟩
  rcases (t.dir_makeDir _ _).mp hd with hd | ⟨-, hp, -⟩
  · exact hd
  · have hlen := hp.length_le
    rw [segments_dir hl hin, List.length_append, List.length_singleton] at hlen
    omega

theorem dir_above (hs : t.Sound) (hin : isOutside path = false)
    (h : t.entry? (segments path) ≠ none) (q : List String) (hq : q <+: segments (Path.dir path)) :
    t.entry? q = some .dir := by
  obtain ⟨rest, hrest⟩ := hq
  apply hs.above q (rest ++ [l]) (by simp)
  rw [← List.append_assoc, hrest, ← segments_dir hl hin]
  exact h

theorem entry_set (hin : isOutside path = false) (hs : t.Sound)
    (hd : t.entry? (segments (Path.dir path)) = some .dir) (h : t.set? path text = some u)
    (q : List String) : t.entry? (segments path) ≠ some .dir ∧
      u.entry? q = if q = segments path then some (.file text) else t.entry? q := by
  have hdrop : (segments path).dropLast = segments (Path.dir path) := by
    simp [segments_dir hl hin]
  have hdir : t.entry? (segments path) ≠ some .dir := by
    intro hdir
    rw [(t.set?_eq_none path text).mpr ⟨hin, hdir⟩] at h
    cases h
  simp only [set?, hin, Bool.false_eq_true, if_false, if_neg hdir] at h
  obtain rfl := Option.some.inj h
  exact ⟨hdir, t.entry_put _ text hs hdir (by rw [hdrop]; exact hd) q⟩

section

variable (hs : t.Sound) (hd : isOutside path = false → t.entry? (segments (Path.dir path)) = some .dir)
  (h : t.set? path text = some u)

include hs hd h

theorem sound_set : u.Sound := by
  by_cases hout : isOutside path = true
  · rw [t.set?_outside path text hout] at h
    exact Option.some.inj h ▸ hs
  have hin : isOutside path = false := by simpa using hout
  have hentry := entry_set hl hin hs (hd hin) h
  intro place s hne
  rw [(hentry _).2] at hne
  rw [(hentry _).2]
  have hplace : t.entry? place = some .dir := by
    by_cases he : place ++ [s] = segments path
    · have hsame := segments_dir hl hin
      rw [← he] at hsame
      rw [(List.append_inj_left' hsame rfl)]
      exact hd hin
    · rw [if_neg he] at hne
      exact hs place s hne
  by_cases he : place = segments path
  · exact absurd (he ▸ hplace) (hentry []).1
  · rw [if_neg he]
    exact hplace

theorem dir_set (q : List String) : u.entry? q = some .dir ↔ t.entry? q = some .dir := by
  by_cases hout : isOutside path = true
  · rw [t.set?_outside path text hout] at h
    rw [Option.some.inj h]
  have hin : isOutside path = false := by simpa using hout
  have hentry := entry_set hl hin hs (hd hin) h q
  rw [hentry.2]
  by_cases he : q = segments path
  · rw [if_pos he, he]
    simpa using hentry.1
  · rw [if_neg he]

theorem grows_set : Grows t u := by
  by_cases hout : isOutside path = true
  · rw [t.set?_outside path text hout] at h
    exact Option.some.inj h ▸ Grows.refl t
  have hin : isOutside path = false := by simpa using hout
  have hentry := entry_set hl hin hs (hd hin) h
  constructor
  · intro q hq
    have hne : q ≠ segments path := by
      rintro rfl
      exact (hentry []).1 hq
    rw [(hentry q).2, if_neg hne, hq]
  · intro q now hq
    rw [(hentry q).2]
    by_cases he : q = segments path
    · exact ⟨text, by rw [if_pos he]⟩
    · exact ⟨now, by rw [if_neg he, hq]⟩
  · intro q hq
    rw [(hentry q).2] at hq
    by_cases he : q = segments path
    · simp [he] at hq
    · rw [if_neg he] at hq
      exact Or.inl hq

end

end

def spot? (path : String) : Option (List String) :=
  if pathFault? path = none ∧ isOutside path = false ∧ ∀ s ∈ segments path, isTooLong s = false then
    some (segments path)
  else none

variable (t : FileTree)

theorem read_eq_ok (path text : String) :
    t.read path = .ok text ↔
      ∃ place, t.locate path = .ok place ∧ t.entry? place = some (.file text) := by
  unfold read stat
  cases t.locate path with
  | error e => cases e <;> simp
  | ok place =>
    cases he : t.entry? place with
    | none => simp [he]
    | some e => cases e <;> simp [he]

theorem walk_above (n : ℕ) (rest place : List String) : t.walk (.above n) rest ≠ .ok place := by
  induction rest generalizing n with
  | nil => simp [walk]
  | cons s rest ih =>
    rw [walk]
    split_ifs
    · exact ih n
    · exact ih (n + 1)
    · simp
    · simp

theorem walk_names (hs : t.Sound) (at_ names place : List String) (hn : ∀ s ∈ names, Path.IsName s) :
    t.walk (.below at_) names = .ok place ↔ place = at_ ++ names ∧
      (∀ s ∈ names, isTooLong s = false) ∧ t.entry? place ≠ none := by
  induction names generalizing at_ with
  | nil =>
    rw [walk]
    by_cases he : (t.entry? at_).isSome = true
    · simp only [he, if_true, Except.ok.injEq, List.append_nil, List.not_mem_nil, false_implies,
        implies_true, true_and]
      constructor
      · rintro rfl
        exact ⟨rfl, by simpa [Option.isSome_iff_ne_none] using he⟩
      · exact fun h => h.1.symm
    · simp only [he, Bool.false_eq_true, if_false, reduceCtorEq, List.append_nil, false_iff]
      rintro ⟨rfl, -, hne⟩
      exact he (Option.isSome_iff_ne_none.mpr hne)
  | cons s names ih =>
    have hs' := hn s (by simp)
    have hrest : ∀ s ∈ names, Path.IsName s := fun r hr => hn r (List.mem_cons_of_mem s hr)
    cases he : t.entry? at_ with
    | none =>
      simp only [walk, he, reduceCtorEq, false_iff]
      rintro ⟨rfl, -, hne⟩
      rw [hs.above at_ (s :: names) (by simp) hne] at he
      cases he
    | some e =>
      cases e with
      | file text =>
        simp only [walk, he, reduceCtorEq, false_iff]
        rintro ⟨rfl, -, hne⟩
        rw [hs.above at_ (s :: names) (by simp) hne] at he
        cases he
      | dir =>
        have hstep : t.walk (.below at_) (s :: names)
            = if isTooLong s = true then .error .tooLong else t.walk (.below (at_ ++ [s])) names := by
          simp [walk, he, hs'.1, hs'.2.1, hs'.2.2]
        rw [hstep]
        by_cases hlong : isTooLong s = true
        · simp [hlong]
        · rw [if_neg hlong, ih _ hrest]
          simp [hlong]

theorem locate_clean (hs : t.Sound) (path : String) (hc : Path.clean path = path)
    (place : List String) :
    t.locate path = .ok place ↔ spot? path = some place ∧ t.entry? place ≠ none := by
  have hempty : path ≠ "" := by
    rintro rfl
    exact absurd hc (by decide)
  unfold locate spot?
  cases pathFault? path with
  | some fault => simp
  | none =>
    simp only [if_neg hempty]
    by_cases hr : Path.isRooted path = true
    · simp [hr, walk_above, isOutside_eq]
    have hsplit := Path.splitOn_clean path
    rw [hc, if_neg hr] at hsplit
    obtain ⟨n, names, hk, hnames, -⟩ := Path.kept_shape path
    rw [if_neg hr, segments_eq path (by simpa using hr), isOutside_eq, hsplit, hk]
    cases n with
    | succ n =>
      have hup : t.walk (.below []) (".." :: (List.replicate n ".." ++ names))
          = t.walk (.above 1) (List.replicate n ".." ++ names) := by
        simp [walk, entry_nil]
      simp [List.replicate_succ, hup, walk_above]
    | zero =>
      have hhead : (Path.isRooted path || names.head? == some "..") = false := by
        cases names with
        | nil => simp [hr]
        | cons s names => simp [hr, (hnames s (by simp)).2.2]
      have hwalk : t.walk (.below []) (if names = [] then ["."] else names)
          = t.walk (.below []) names := by
        by_cases hnil : names = []
        · subst hnil
          simp [walk, entry_nil]
        · rw [if_neg hnil]
      rw [List.replicate_zero, List.nil_append, hwalk, t.walk_names hs [] names place hnames,
        List.nil_append, hhead]
      by_cases hshort : ∀ s ∈ names, isTooLong s = false
      · rw [if_pos ⟨trivial, rfl, hshort⟩, Option.some.injEq, eq_comm]
        exact and_congr_right fun _ => and_iff_right hshort
      · rw [if_neg fun h => hshort h.2.2]
        simp [hshort]

theorem read_clean (hs : t.Sound) (path : String) (hc : Path.clean path = path) (text : String) :
    t.read path = .ok text ↔
      ∃ place, spot? path = some place ∧ t.entry? place = some (.file text) := by
  rw [read_eq_ok]
  constructor
  · rintro ⟨place, hl, he⟩
    exact ⟨place, ((t.locate_clean hs path hc place).mp hl).1, he⟩
  · rintro ⟨place, hp, he⟩
    exact ⟨place, (t.locate_clean hs path hc place).mpr ⟨hp, by simp [he]⟩, he⟩

end FormatFuzz.FileTree
