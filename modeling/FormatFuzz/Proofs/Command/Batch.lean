import FormatFuzz.Proofs.Command.Outcomes
import Mathlib.Logic.Function.Basic

/-!
# Batches of compilations

The compilations of a batch take turns in one working directory. A turn renders the schema as the
files then stand, or makes the directory of the output, or writes it; a crash is the end of all. What
one turn can do is said once; that trees stay sound and only grow follows from it for every order of
turns. Compiling one schema after the other is one of these orders.
-/

set_option autoImplicit false

namespace FormatFuzz.Command

open FileTree
open Log (Logger)

inductive Stage where
  | waiting
  | rendered (file text : String)
  | placed (file text : String)
  | compiled (file text : String)
  | failed (o : Obstacle)

def Stage.IsOver : Stage → Prop
  | .compiled .. | .failed _ => True
  | _ => False

/-- A batch on its way: the files, the text last written under each path, how far each compilation
has come, and whether one of them has crashed. What lies outside of the working directory is no part
of the files. -/
structure Batch (n : ℕ) where
  files : FileTree
  written : String → Option String
  stages : Fin n → Stage
  crashed : Bool

namespace Batch

variable {n : ℕ}

def start (t : FileTree) (n : ℕ) : Batch n :=
  ⟨t, fun _ => none, fun _ => .waiting, false⟩

def set (b : Batch n) (i : Fin n) (s : Stage) (t : FileTree) : Batch n where
  files := t
  written :=
    match s with
    | .compiled file text => Function.update b.written file (some text)
    | _ => b.written
  stages := Function.update b.stages i s
  crashed := b.crashed

def finish (b : Batch n) (i : Fin n) : FileTree × Except Obstacle (String × String) → Batch n
  | (t, .error .crash) => { b with files := t, crashed := true }
  | (t, .error o) => b.set i (.failed o) t
  | (t, .ok (file, text)) => b.set i (.compiled file text) t

def IsOver (b : Batch n) : Prop :=
  b.crashed = true ∨ ∀ i, (b.stages i).IsOver

variable (b : Batch n) (i k : Fin n) (s : Stage) (t : FileTree)

theorem set_files : (b.set i s t).files = t := rfl

theorem set_self : (b.set i s t).stages i = s := by
  simp [set]

theorem set_other (h : k ≠ i) : (b.set i s t).stages k = b.stages k := by
  simp [set, h]

theorem set_set (s' : Stage) (t' : FileTree) (hs : ¬ s.IsOver) :
    (b.set i s t).set i s' t' = b.set i s' t' := by
  cases s with
  | compiled | failed => exact absurd trivial hs
  | waiting | rendered | placed => simp [set]

theorem finish_ok (file text : String) :
    b.finish i (t, .ok (file, text)) = b.set i (.compiled file text) t := rfl

theorem finish_error (o : Obstacle) (ho : o ≠ .crash) :
    b.finish i (t, .error o) = b.set i (.failed o) t := by
  cases o with
  | crash => exact absurd rfl ho
  | load | schema | program | noDirectory | notReplaced => rfl

theorem finish_files (r : FileTree × Except Obstacle (String × String)) :
    (b.finish i r).files = r.1 := by
  unfold finish
  split <;> rfl

theorem finish_other (r : FileTree × Except Obstacle (String × String)) (h : k ≠ i) :
    (b.finish i r).stages k = b.stages k := by
  unfold finish
  split
  · rfl
  · exact b.set_other i k _ _ h
  · exact b.set_other i k _ _ h

end Batch

section

variable (w : Workspace) (j : Job) (paths : List String)

/-- A turn of one compilation. A schema is read with its imports in one turn: imports have a suffix
that no output has, so that the main file alone can change between two reads. -/
def turn (b : Batch paths.length) (i : Fin paths.length) : Batch paths.length :=
  if b.crashed then b
  else match b.stages i with
  | .waiting =>
    match j.rendered { w with files := b.files } (paths.get i) with
    | .error .crash => { b with crashed := true }
    | .error o => b.set i (.failed o) b.files
    | .ok (file, text) => b.set i (.rendered file text) b.files
  | .rendered file text =>
    match (b.files.makeDir (Path.dir file)).2 with
    | some (dir, fault) =>
      b.set i (.failed (.noDirectory dir fault)) (b.files.makeDir (Path.dir file)).1
    | none => b.set i (.placed file text) (b.files.makeDir (Path.dir file)).1
  | .placed file text =>
    match b.files.replace file text with
    | .error fault => b.set i (.failed (.notReplaced file fault)) b.files
    | .ok t => b.set i (.compiled file text) t
  | .compiled .. | .failed _ => b

def turns (b : Batch paths.length) (order : List (Fin paths.length)) : Batch paths.length :=
  order.foldl (turn w j paths) b

def batch (order : List (Fin paths.length)) : Batch paths.length :=
  turns w j paths (.start w.files paths.length) order

inductive Turn (b : Batch paths.length) (i : Fin paths.length) : Batch paths.length → Prop
  | crashed (hs : b.stages i = .waiting)
      (hr : j.rendered { w with files := b.files } (paths.get i) = .error .crash) :
      Turn b i { b with crashed := true }
  | refused (o : Obstacle) (hs : b.stages i = .waiting)
      (hr : j.rendered { w with files := b.files } (paths.get i) = .error o) :
      Turn b i (b.set i (.failed o) b.files)
  | rendered (file text : String) (hs : b.stages i = .waiting)
      (hr : j.rendered { w with files := b.files } (paths.get i) = .ok (file, text)) :
      Turn b i (b.set i (.rendered file text) b.files)
  | barred (file text : String) (e : String × FileTree.Fault) (o : Obstacle)
      (hs : b.stages i = .rendered file text)
      (hm : (b.files.makeDir (Path.dir file)).2 = some e) :
      Turn b i (b.set i (.failed o) (b.files.makeDir (Path.dir file)).1)
  | placed (file text : String) (hs : b.stages i = .rendered file text)
      (hm : (b.files.makeDir (Path.dir file)).2 = none) :
      Turn b i (b.set i (.placed file text) (b.files.makeDir (Path.dir file)).1)
  | taken (file text : String) (fault : FileTree.Fault) (o : Obstacle)
      (hs : b.stages i = .placed file text) (hw : b.files.replace file text = .error fault) :
      Turn b i (b.set i (.failed o) b.files)
  | compiled (file text : String) (t : FileTree) (hs : b.stages i = .placed file text)
      (hw : b.files.replace file text = .ok t) : Turn b i (b.set i (.compiled file text) t)
  | ended (hs : b.crashed = true ∨ (b.stages i).IsOver) : Turn b i b

theorem turn_cases (b : Batch paths.length) (i : Fin paths.length) :
    Turn w j paths b i (turn w j paths b i) := by
  unfold turn
  split
  next hc => exact .ended (.inl hc)
  next hc =>
    split
    next hs =>
      split
      next hr => exact .crashed hs hr
      next o _ hr => exact .refused o hs hr
      next file text hr => exact .rendered file text hs hr
    next file text hs =>
      split
      next dir fault hm => exact .barred file text _ _ hs hm
      next hm => exact .placed file text hs hm
    next file text hs =>
      split
      next fault hw => exact .taken file text fault _ hs hw
      next t hw => exact .compiled file text t hs hw
    next file text hs => exact .ended (.inr (by rw [hs]; trivial))
    next o hs => exact .ended (.inr (by rw [hs]; trivial))

theorem turns_append (b : Batch paths.length) (first rest : List (Fin paths.length)) :
    turns w j paths b (first ++ rest) = turns w j paths (turns w j paths b first) rest :=
  List.foldl_append

theorem turns_keep (P : Batch paths.length → Prop)
    (step : ∀ b i c, P b → Turn w j paths b i c → P c) (b : Batch paths.length)
    (order : List (Fin paths.length)) (hb : P b) : P (turns w j paths b order) := by
  induction order generalizing b with
  | nil => exact hb
  | cons i order ih => exact ih _ (step b i _ hb (turn_cases w j paths b i))

end

def Stage.output? : Stage → Option (String × String)
  | .rendered file text | .placed file text | .compiled file text => some (file, text)
  | _ => none

section

variable (w : Workspace) (j : Job) (paths : List String)

/-- What turns keep in whatever order: the tree is sound and has grown from some other, outputs are
files of the job, and a directory is there once it was made. -/
structure Regular (t : FileTree) (b : Batch paths.length) : Prop where
  sound : b.files.Sound
  grows : Grows t b.files
  file : ∀ i file text, (b.stages i).output? = some (file, text) → j.IsFile file
  placed : ∀ i file text, b.stages i = .placed file text → isOutside file = false →
    b.files.entry? (segments (Path.dir file)) = some .dir

theorem regular_start (hs : w.files.Sound) :
    Regular j paths w.files (.start w.files paths.length) where
  sound := hs
  grows := Grows.refl _
  file := by simp [Batch.start, Stage.output?]
  placed := by simp [Batch.start]

section

variable (first : FileTree) (b : Batch paths.length) (hb : Regular j paths first b)
  (i : Fin paths.length)

include hb

theorem regular_set (s : Stage) (t : FileTree) (ht : t.Sound) (hg : Grows b.files t)
    (hfile : ∀ file text, s.output? = some (file, text) → j.IsFile file)
    (hplaced : ∀ file text, s = .placed file text → isOutside file = false →
      t.entry? (segments (Path.dir file)) = some .dir) :
    Regular j paths first (b.set i s t) := by
  refine ⟨ht, hb.grows.trans hg, ?_, ?_⟩
  · intro k file text hk
    by_cases hki : k = i
    · rw [hki, Batch.set_self] at hk
      exact hfile file text hk
    · rw [b.set_other i k s t hki] at hk
      exact hb.file k file text hk
  · intro k file text hk hin
    by_cases hki : k = i
    · rw [hki, Batch.set_self] at hk
      exact hplaced file text hk hin
    · rw [b.set_other i k s t hki] at hk
      exact hg.dirs _ (hb.placed k file text hk hin)

theorem regular_turn (c : Batch paths.length) (h : Turn w j paths b i c) :
    Regular j paths first c := by
  have failed (o : Obstacle) (t : FileTree) (ht : t.Sound) (hg : Grows b.files t) :
      Regular j paths first (b.set i (.failed o) t) :=
    regular_set j paths first b hb i _ t ht hg (by simp [Stage.output?]) (by simp)
  cases h with
  | crashed hs hr => exact ⟨hb.sound, hb.grows, hb.file, hb.placed⟩
  | refused o hs hr => exact failed o _ hb.sound (Grows.refl _)
  | barred file text e o hs hm =>
    exact failed o _ (b.files.sound_makeDir _ hb.sound) (b.files.grows_makeDir _)
  | taken file text fault o hs hw => exact failed o _ hb.sound (Grows.refl _)
  | ended hs => exact hb
  | rendered file text hs hr =>
    have hfile := rendered_isFile _ j _ file text hr
    exact regular_set j paths first b hb i _ _ hb.sound (Grows.refl _)
      (by rintro f s ⟨⟩; exact hfile) (by simp)
  | placed file text hs hm =>
    have hfile : j.IsFile file := hb.file i file text (by rw [hs]; rfl)
    obtain ⟨l, hl, -⟩ := hfile.ends
    apply regular_set j paths first b hb i _ _ (b.files.sound_makeDir _ hb.sound)
      (b.files.grows_makeDir _)
    · rintro f s ⟨⟩
      exact hfile
    · rintro f s ⟨⟩
      exact dir_made hl hm
  | compiled file text t hs hw =>
    have hfile : j.IsFile file := hb.file i file text (by rw [hs]; rfl)
    obtain ⟨l, hl, -⟩ := hfile.ends
    have hd := hb.placed i file text hs
    have hset := ((replace_eq_ok b.files file text t).mp hw).2
    apply regular_set j paths first b hb i _ t (sound_set hl hb.sound hd hset)
      (grows_set hl hb.sound hd hset)
    · rintro f s ⟨⟩
      exact hfile
    · simp

theorem regular_turns (order : List (Fin paths.length)) :
    Regular j paths first (turns w j paths b order) :=
  turns_keep w j paths _ (fun b i c hb => regular_turn w j paths first b hb i c) b order hb

theorem grows_turns (order : List (Fin paths.length)) :
    Grows b.files (turns w j paths b order).files :=
  (regular_turns w j paths b.files b ⟨hb.sound, Grows.refl _, hb.file, hb.placed⟩ order).grows

end

theorem regular_batch (hs : w.files.Sound) (order : List (Fin paths.length)) :
    Regular j paths w.files (batch w j paths order) :=
  regular_turns w j paths _ _ (regular_start w j paths hs) order

theorem turns_over (b : Batch paths.length) (order : List (Fin paths.length))
    (k : Fin paths.length) (h : (b.stages k).IsOver) :
    (turns w j paths b order).stages k = b.stages k := by
  apply turns_keep w j paths (fun c => c.stages k = b.stages k) _ b order rfl
  intro c i d hc ht
  by_cases hik : i = k
  · subst hik
    rw [← hc] at h
    cases ht with
    | ended => exact hc
    | crashed hs | refused _ hs | rendered _ _ hs | barred _ _ _ _ hs | placed _ _ hs
    | taken _ _ _ _ hs | compiled _ _ _ hs =>
      rw [hs] at h
      exact h.elim
  · cases ht with
    | ended | crashed => exact hc
    | refused | rendered | barred | placed | taken | compiled =>
      rw [Batch.set_other _ _ _ _ _ (Ne.symm hik), hc]

theorem turns_crashed (b : Batch paths.length) (order : List (Fin paths.length))
    (h : b.crashed = true) : turns w j paths b order = b := by
  induction order with
  | nil => rfl
  | cons i order ih =>
    have hturn : turn w j paths b i = b := by
      unfold turn
      rw [if_pos h]
    change turns w j paths (turn w j paths b i) order = b
    rw [hturn, ih]

theorem turn_over (b : Batch paths.length) (i : Fin paths.length) (h : (b.stages i).IsOver) :
    turn w j paths b i = b := by
  have ht := turn_cases w j paths b i
  generalize turn w j paths b i = c at ht
  cases ht with
  | ended => rfl
  | crashed hs | refused _ hs | rendered _ _ hs | barred _ _ _ _ hs | placed _ _ hs
  | taken _ _ _ _ hs | compiled _ _ _ hs =>
    rw [hs] at h
    exact h.elim

section

variable (b : Batch paths.length) (i : Fin paths.length)

theorem turns_three : turns w j paths b [i, i, i]
    = turn w j paths (turn w j paths (turn w j paths b i) i) i := rfl

theorem finish_turn (r : FileTree × Except Obstacle (String × String)) :
    turn w j paths (b.finish i r) i = b.finish i r := by
  unfold Batch.finish
  split
  · unfold turn
    rw [if_pos rfl]
  · exact turn_over w j paths _ i (by rw [Batch.set_self]; trivial)
  · exact turn_over w j paths _ i (by rw [Batch.set_self]; trivial)

variable (hc : b.crashed = false)

include hc

theorem turn_rendered (file text : String) (t : FileTree) :
    turn w j paths (b.set i (.rendered file text) t) i
      = match (t.makeDir (Path.dir file)).2 with
        | some (dir, fault) =>
          b.set i (.failed (.noDirectory dir fault)) (t.makeDir (Path.dir file)).1
        | none => b.set i (.placed file text) (t.makeDir (Path.dir file)).1 := by
  have hup : (b.set i (.rendered file text) t).crashed = false := hc
  have hfiles : (b.set i (.rendered file text) t).files = t := rfl
  unfold turn
  simp only [hup, Bool.false_eq_true, if_false, Batch.set_self, hfiles]
  cases (t.makeDir (Path.dir file)).2 <;> exact b.set_set i _ _ _ _ id

theorem turn_placed (file text : String) (t : FileTree) :
    turn w j paths (b.set i (.placed file text) t) i
      = match t.replace file text with
        | .error fault => b.set i (.failed (.notReplaced file fault)) t
        | .ok t => b.set i (.compiled file text) t := by
  have hup : (b.set i (.placed file text) t).crashed = false := hc
  have hfiles : (b.set i (.placed file text) t).files = t := rfl
  unfold turn
  simp only [hup, Bool.false_eq_true, if_false, Batch.set_self, hfiles]
  cases t.replace file text <;> exact b.set_set i _ _ _ _ id

theorem turns_run (hs : b.stages i = .waiting) : turns w j paths b [i, i, i]
    = b.finish i (j.run { w with files := b.files } (paths.get i)) := by
  have hend := finish_turn w j paths b i
  rw [turns_three]
  cases hr : j.rendered { w with files := b.files } (paths.get i) with
  | error o =>
    have hrun : j.run { w with files := b.files } (paths.get i) = (b.files, .error o) := by
      unfold Job.run
      simp only [hr]
    have hturn : turn w j paths b i = b.finish i (b.files, .error o) := by
      unfold turn
      simp only [hc, Bool.false_eq_true, if_false, hs, hr]
      cases o <;> rfl
    rw [hrun, hturn, hend, hend]
  | ok r =>
    obtain ⟨file, text⟩ := r
    have hturn : turn w j paths b i = b.set i (.rendered file text) b.files := by
      unfold turn
      simp only [hc, Bool.false_eq_true, if_false, hs, hr]
    have hrun : j.run { w with files := b.files } (paths.get i)
        = ((place b.files file text).1, (place b.files file text).2.map fun _ => (file, text)) := by
      unfold Job.run
      simp only [hr]
      generalize place b.files file text = placed
      obtain ⟨t, r⟩ := placed
      cases r <;> rfl
    rw [hturn, turn_rendered w j paths b i hc, hrun]
    unfold place
    cases hm : (b.files.makeDir (Path.dir file)).2 with
    | some e =>
      simp only [hm]
      exact hend (_, .error (.noDirectory e.1 e.2))
    | none =>
      simp only [hm]
      rw [turn_placed w j paths b i hc]
      cases (b.files.makeDir (Path.dir file)).1.replace file text <;>
        simp only [Except.map, Batch.finish]

end

end

def inTurn {n : ℕ} (is : List (Fin n)) : List (Fin n) :=
  is.flatMap fun i => [i, i, i]

theorem inTurn_cons {n : ℕ} (i : Fin n) (is : List (Fin n)) :
    inTurn (i :: is) = [i, i, i] ++ inTurn is := rfl

def lastWritten (writes : List (String × String)) (file : String) : Option String :=
  (writes.reverse.find? fun e => e.1 == file).map Prod.snd

theorem lastWritten_snoc (writes : List (String × String)) (file text : String) :
    lastWritten (writes ++ [(file, text)])
      = Function.update (lastWritten writes) file (some text) := by
  funext other
  by_cases h : other = file
  · subst h
    simp [lastWritten]
  · simp [lastWritten, h, Ne.symm h]

def Stage.done? (path : String) : Stage → Option (String × String)
  | .compiled file _ => some (path, file)
  | _ => none

def Stage.failed? (path : String) : Stage → Option (String × String)
  | .failed o => some (path, o.message)
  | _ => none

section

variable {n : ℕ} (p : Progress) (b : Batch n) (i : Fin n) (path lines : String)
  (r : FileTree × Except Obstacle (String × String))

structure Tells : Prop where
  files : p.files = b.files
  written : b.written = lastWritten p.writes
  crashed : p.crashed = b.crashed

theorem tells_add (h : Tells p b) : Tells (p.add path (lines, r)) (b.finish i r) := by
  obtain ⟨t, o | ⟨file, text⟩⟩ := r
  · cases o with
    | crash => exact ⟨rfl, h.written, rfl⟩
    | load | schema | program | noDirectory | notReplaced => exact ⟨rfl, h.written, h.crashed⟩
  · refine ⟨rfl, ?_, h.crashed⟩
    change Function.update b.written file (some text) = lastWritten (p.writes ++ [(file, text)])
    rw [lastWritten_snoc, h.written]

theorem over_finish : (b.finish i r).crashed = true ∨ ((b.finish i r).stages i).IsOver := by
  unfold Batch.finish
  split
  · exact .inl rfl
  · exact .inr (by rw [Batch.set_self]; trivial)
  · exact .inr (by rw [Batch.set_self]; trivial)

variable (hs : b.stages i = .waiting)

include hs

theorem done_add : (p.add path (lines, r)).done
    = p.done ++ (((b.finish i r).stages i).done? path).toList := by
  obtain ⟨t, o | ⟨file, text⟩⟩ := r
  · cases o with
    | crash => simp [Progress.add, Batch.finish, hs, Stage.done?]
    | load | schema | program | noDirectory | notReplaced =>
      simp [Progress.add, Batch.finish, Batch.set_self, Stage.done?]
  · simp [Progress.add, Batch.finish, Batch.set_self, Stage.done?]

theorem failed_add : (p.add path (lines, r)).failed
    = p.failed ++ (((b.finish i r).stages i).failed? path).toList := by
  obtain ⟨t, o | ⟨file, text⟩⟩ := r
  · cases o with
    | crash => simp [Progress.add, Batch.finish, hs, Stage.failed?]
    | load | schema | program | noDirectory | notReplaced =>
      simp [Progress.add, Batch.finish, Batch.set_self, Stage.failed?]
  · simp [Progress.add, Batch.finish, Batch.set_self, Stage.failed?]

end

section

variable (w : Workspace) (log : Logger) (j : Job) (paths : List String)

-- a compilation is not to be evaluated when the two sides are compared
attribute [local irreducible] compileOne in
theorem compileAll_cons (p : Progress) (path : String) (rest : List String) :
    compileAll w log j p (path :: rest)
      = if (p.add path (compileOne { w with files := p.files } log j path)).crashed
        then p.add path (compileOne { w with files := p.files } log j path)
        else compileAll w log j (p.add path (compileOne { w with files := p.files } log j path)) rest :=
  rfl

/-- What is reported of some compilations of a batch, behind what was reported before. -/
structure Reports (is : List (Fin paths.length)) (p q : Progress) (b : Batch paths.length) : Prop
    extends Tells q b where
  done : q.done = p.done ++ is.filterMap fun i => (b.stages i).done? (paths.get i)
  failed : q.failed = p.failed ++ is.filterMap fun i => (b.stages i).failed? (paths.get i)
  ended : b.crashed = true ∨ ∀ i ∈ is, (b.stages i).IsOver

theorem turns_inTurn (is : List (Fin paths.length)) (hn : is.Nodup) (b : Batch paths.length)
    (hs : ∀ i ∈ is, b.stages i = .waiting) (hc : b.crashed = false) (p : Progress)
    (hp : Tells p b) : Reports paths is p (compileAll w log j p (is.map paths.get))
      (turns w j paths b (inTurn is)) := by
  induction is generalizing b p with
  | nil => exact ⟨hp, (List.append_nil _).symm, (List.append_nil _).symm, .inr (by simp)⟩
  | cons i is ih =>
    obtain ⟨hi, hn⟩ := List.nodup_cons.mp hn
    have hwait := hs i (by simp)
    rw [inTurn_cons, turns_append, turns_run w j paths b i hc hwait, List.map_cons, compileAll_cons,
      hp.files, ← compileOne_eq _ log]
    generalize compileOne { w with files := b.files } log j (paths.get i) = r
    obtain ⟨lines, r⟩ := r
    have htells := tells_add p b i (paths.get i) lines r hp
    have hdone := done_add p b i (paths.get i) lines r hwait
    have hfailed := failed_add p b i (paths.get i) lines r hwait
    have hover := over_finish b i r
    have hothers : ∀ k ∈ is, (b.finish i r).stages k = .waiting := by
      intro k hk
      rw [b.finish_other i k r (by rintro rfl; exact hi hk)]
      exact hs k (List.mem_cons_of_mem i hk)
    have hcons : ∀ (β : Type) (f : Fin paths.length → Option β),
        (i :: is).filterMap f = (f i).toList ++ is.filterMap f := by
      intro β f
      cases h : f i <;> simp [h]
    simp only [htells.crashed]
    cases hcrash : (b.finish i r).crashed with
    | true =>
      have hnone : ∀ (β : Type) (f : Fin paths.length → Option β), (∀ k ∈ is, f k = none) →
          is.filterMap f = [] := fun β f hf => List.filterMap_eq_nil_iff.mpr hf
      rw [turns_crashed w j paths _ _ hcrash, if_pos rfl]
      refine ⟨htells, ?_, ?_, .inl hcrash⟩
      · rw [hdone, hcons, hnone _ _ fun k hk => by rw [hothers k hk]; rfl, List.append_nil]
      · rw [hfailed, hcons, hnone _ _ fun k hk => by rw [hothers k hk]; rfl, List.append_nil]
    | false =>
      have hover : ((b.finish i r).stages i).IsOver := hover.resolve_left (by simp [hcrash])
      have hstage := turns_over w j paths (b.finish i r) (inTurn is) i hover
      have hrest := ih hn (b.finish i r) hothers hcrash _ htells
      rw [if_neg (by simp)]
      refine ⟨hrest.toTells, ?_, ?_, hrest.ended.imp_right fun h => ?_⟩
      · rw [hrest.done, hdone, hcons, hstage, List.append_assoc]
      · rw [hrest.failed, hfailed, hcons, hstage, List.append_assoc]
      · exact List.forall_mem_cons.mpr ⟨hstage ▸ hover, h⟩

theorem compileAll_batch :
    Reports paths (List.finRange paths.length) { files := w.files }
      (compileAll w log j { files := w.files } paths)
      (batch w j paths (inTurn (List.finRange paths.length))) := by
  have hreports := turns_inTurn w log j paths (List.finRange paths.length)
    (List.nodup_finRange _) (.start w.files paths.length) (fun _ _ => rfl) rfl
    { files := w.files } ⟨rfl, rfl, rfl⟩
  rwa [List.map_get_finRange] at hreports

end

end FormatFuzz.Command
