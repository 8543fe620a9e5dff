import FormatFuzz.FileTree
import Mathlib.Data.List.Basic
import Mathlib.Data.List.TakeWhile
import Mathlib.Logic.Relation

/-!
# Clean paths

A text splits at slashes into parts without a slash, and such parts are what their joined text
splits into. Cleaning leaves a stack of segments: double dots first, if the path is not rooted, and
names behind them. Such a stack is clean already, and a name at the end of a path stays there.
It is what four rules make of a path, applied in any order for as long as one of them applies.
-/

set_option autoImplicit false

namespace FormatFuzz

namespace Text

theorem splitAux_ne_nil (a : Char) (sep acc : List Char) (skip : ℕ) (cs : List Char) :
    splitAux a sep acc skip cs ≠ [] := by
  fun_induction splitAux a sep acc skip cs with
  | case1 => simp
  | case2 acc skip c cs ih => exact ih
  | case3 => simp
  | case4 acc c cs h ih => exact ih

section

variable (a c : Char) (acc cs : List Char)

theorem splitAux_same : splitAux a [] acc 0 (a :: cs) = acc.reverse :: splitAux a [] [] 0 cs := by
  simp [splitAux]

theorem splitAux_other (h : a ≠ c) :
    splitAux a [] acc 0 (c :: cs) = splitAux a [] (c :: acc) 0 cs := by
  simp [splitAux, h]

theorem notMem_splitAux (ha : a ∉ acc) : ∀ part ∈ splitAux a [] acc 0 cs, a ∉ part := by
  induction cs generalizing acc with
  | nil => simpa [splitAux] using ha
  | cons c cs ih =>
    by_cases hc : a = c
    · subst hc
      rw [splitAux_same]
      intro part hpart
      rcases List.mem_cons.mp hpart with rfl | hpart
      · simpa using ha
      · exact ih [] (by simp) part hpart
    · rw [splitAux_other a c acc cs hc]
      exact ih (c :: acc) (by simp [hc, ha])

theorem splitAux_undivided (ha : a ∉ cs) : splitAux a [] acc 0 cs = [acc.reverse ++ cs] := by
  induction cs generalizing acc with
  | nil => simp [splitAux]
  | cons c cs ih =>
    simp only [List.mem_cons, not_or] at ha
    rw [splitAux_other a c acc cs ha.1, ih _ ha.2]
    simp

theorem splitAux_append (rest : List Char) :
    splitAux a [] acc 0 (cs ++ a :: rest) = splitAux a [] acc 0 cs ++ splitAux a [] [] 0 rest := by
  induction cs generalizing acc with
  | nil => simp [splitAux_same, splitAux]
  | cons c cs ih =>
    by_cases hc : a = c
    · subst hc
      rw [List.cons_append, splitAux_same, splitAux_same, ih, List.cons_append]
    · rw [List.cons_append, splitAux_other a c _ _ hc, splitAux_other a c _ _ hc, ih]

end

theorem splitOn_slash (s : String) :
    splitOn s "/" = (splitAux '/' [] [] 0 s.toList).map String.ofList := rfl

theorem splitOn_append (s t : String) :
    splitOn (s ++ "/" ++ t) "/" = splitOn s "/" ++ splitOn t "/" := by
  have h : (s ++ "/" ++ t).toList = s.toList ++ '/' :: t.toList := by simp
  rw [splitOn_slash, h, splitAux_append, List.map_append, splitOn_slash, splitOn_slash]

theorem splitOn_undivided (s : String) (h : '/' ∉ s.toList) : splitOn s "/" = [s] := by
  simp [splitOn_slash, splitAux_undivided _ _ _ h]

theorem notMem_splitOn (s : String) : ∀ part ∈ splitOn s "/", '/' ∉ part.toList := by
  rw [splitOn_slash]
  intro part hpart
  obtain ⟨cs, hcs, rfl⟩ := List.mem_map.mp hpart
  simpa using notMem_splitAux '/' [] s.toList (by simp) cs hcs

theorem splitOn_ne_nil (s : String) {sep : String} : splitOn s sep ≠ [] := by
  unfold splitOn
  split
  · simp
  · rw [ne_eq, List.map_eq_nil_iff]
    exact splitAux_ne_nil _ _ _ _ _

theorem join_cons (sep s : String) (rest : List String) (h : rest ≠ []) :
    join sep (s :: rest) = s ++ sep ++ join sep rest := by
  obtain ⟨t, ts, rfl⟩ := List.exists_cons_of_ne_nil h
  rfl

theorem join_append (sep : String) (front back : List String) (hf : front ≠ []) (hb : back ≠ []) :
    join sep (front ++ back) = join sep front ++ sep ++ join sep back := by
  induction front with
  | nil => exact absurd rfl hf
  | cons s front ih =>
    rw [List.cons_append, join_cons _ _ _ (by simp [hb])]
    by_cases hfront : front = []
    · simp [hfront, join]
    · rw [ih hfront, join_cons _ _ _ hfront]
      simp only [String.append_assoc]

theorem join_snoc (sep : String) (front : List String) (s : String) (h : front ≠ []) :
    join sep (front ++ [s]) = join sep front ++ sep ++ s :=
  join_append sep front [s] h (by simp)

theorem join_splitAux (a : Char) (sep acc : List Char) (skip : ℕ) (cs : List Char) :
    join (String.ofList (a :: sep)) ((splitAux a sep acc skip cs).map String.ofList)
      = String.ofList (acc.reverse ++ cs.drop skip) := by
  fun_induction splitAux a sep acc skip cs with
  | case1 => simp [join]
  | case2 acc skip c cs ih => simpa using ih
  | case3 acc c cs h ih =>
    obtain ⟨rest, hrest⟩ := List.isPrefixOf_iff_prefix.mp h
    obtain ⟨rfl, rfl⟩ := List.cons.inj hrest
    rw [List.map_cons, join_cons _ _ _ (by simpa using splitAux_ne_nil _ _ _ _ _), ih]
    apply String.toList_injective
    simp
  | case4 acc c cs h ih =>
    rw [ih]
    simp

theorem join_splitOn (s sep : String) : join sep (splitOn s sep) = s := by
  unfold splitOn
  split
  next => rfl
  next a rest hsep =>
    have h := join_splitAux a rest [] 0 s.toList
    rw [← hsep] at h
    simpa using h

theorem splitOn_join (parts : List String) (hne : parts ≠ [])
    (h : ∀ s ∈ parts, '/' ∉ s.toList) : splitOn (join "/" parts) "/" = parts := by
  induction parts with
  | nil => exact absurd rfl hne
  | cons s parts ih =>
    by_cases hp : parts = []
    · subst hp
      exact splitOn_undivided s (h s (by simp))
    · rw [join_cons _ _ _ hp, splitOn_append, splitOn_undivided s (h s (by simp)),
        ih hp fun t ht => h t (List.mem_cons_of_mem s ht)]
      rfl

end Text

namespace Path

def IsName (s : String) : Prop :=
  s ≠ "" ∧ s ≠ "." ∧ s ≠ ".."

def stack (rooted : Bool) (done : List String) (s : String) : List String :=
  if s = "" || s = "." then done
  else if s = ".." then
    match done with
    | d :: ds => if d = ".." then ".." :: done else ds
    | [] => if rooted then [] else [".."]
  else s :: done

/-- Names last first, and then double dots, of which a rooted path has none. -/
structure Stacked (rooted : Bool) (done : List String) : Prop where
  shape : ∃ names n, done = names ++ List.replicate n ".." ∧ (∀ s ∈ names, IsName s) ∧
    (rooted = true → n = 0)

section

variable (rooted : Bool)

theorem cleanSegments_eq (done rest : List String) :
    cleanSegments rooted done rest = (rest.foldl (stack rooted) done).reverse := by
  fun_induction cleanSegments rooted done rest <;> simp_all [stack]

theorem stack_name (done : List String) (s : String) (h : IsName s) :
    stack rooted done s = s :: done := by
  simp [stack, h.1, h.2.1, h.2.2]

theorem foldl_stack_names (done names : List String) (h : ∀ s ∈ names, IsName s) :
    names.foldl (stack rooted) done = names.reverse ++ done := by
  induction names generalizing done with
  | nil => rfl
  | cons s names ih =>
    rw [List.foldl_cons, stack_name _ _ _ (h s (by simp)),
      ih _ fun t ht => h t (List.mem_cons_of_mem s ht)]
    simp

theorem stacked_nil : Stacked rooted [] := ⟨[], 0, rfl, by simp, fun _ => rfl⟩

theorem stacked_stack (done : List String) (s : String) (h : Stacked rooted done) :
    Stacked rooted (stack rooted done s) := by
  obtain ⟨names, n, rfl, hnames, hn⟩ := h
  by_cases hskip : s = "" ∨ s = "."
  · unfold stack
    rw [if_pos (by simpa using hskip)]
    exact ⟨names, n, rfl, hnames, hn⟩
  by_cases hup : s = ".."
  · subst hup
    cases names with
    | cons t names =>
      have ht := (hnames t (by simp)).2.2
      have : stack rooted ((t :: names) ++ List.replicate n "..") ".."
          = names ++ List.replicate n ".." := by simp [stack, ht]
      rw [this]
      exact ⟨names, n, rfl, fun t ht => hnames t (List.mem_cons_of_mem _ ht), hn⟩
    | nil =>
      cases n with
      | zero =>
        cases rooted with
        | true => exact stacked_nil true
        | false => exact ⟨[], 1, rfl, by simp, by simp⟩
      | succ n =>
        refine ⟨[], n + 2, ?_, by simp, fun hr => absurd (hn hr) (by simp)⟩
        simp [stack, List.replicate_succ]
  · have hs : IsName s := ⟨fun h => hskip (.inl h), fun h => hskip (.inr h), hup⟩
    rw [stack_name _ _ _ hs]
    refine ⟨s :: names, n, rfl, ?_, hn⟩
    intro t ht
    rcases List.mem_cons.mp ht with rfl | ht
    · exact hs
    · exact hnames t ht

theorem stacked_foldl (done rest : List String) (h : Stacked rooted done) :
    Stacked rooted (rest.foldl (stack rooted) done) := by
  induction rest generalizing done with
  | nil => exact h
  | cons s rest ih => exact ih _ (stacked_stack rooted done s h)

theorem foldl_stack_self (done : List String) (h : Stacked rooted done) :
    done.reverse.foldl (stack rooted) [] = done := by
  obtain ⟨names, n, rfl, hnames, hn⟩ := h
  have hups : ∀ m, (rooted = true → m = 0) →
      (List.replicate m "..").foldl (stack rooted) [] = List.replicate m ".." := by
    intro m hm
    induction m with
    | zero => rfl
    | succ m ih =>
      have hr : rooted = false := by simpa using hm
      subst hr
      rw [List.replicate_succ', List.foldl_append, ih (by simp), ← List.replicate_succ']
      cases m <;> simp [stack, List.replicate_succ]
  rw [List.reverse_append, List.reverse_replicate, List.foldl_append, hups n hn,
    foldl_stack_names _ _ _ (by simpa using hnames), List.reverse_reverse]

end

/-- A rule of cleaning, applied to the segments of a path: a blank segment or a dot goes, so does a
name together with the double dot behind it, and a double dot at the beginning of a rooted path. -/
inductive Tidies (rooted : Bool) : List String → List String → Prop
  | blank (front back : List String) : Tidies rooted (front ++ "" :: back) (front ++ back)
  | dot (front back : List String) : Tidies rooted (front ++ "." :: back) (front ++ back)
  | up (front back : List String) (s : String) (hs : IsName s) :
      Tidies rooted (front ++ s :: ".." :: back) (front ++ back)
  | root (back : List String) (h : rooted = true) : Tidies rooted (".." :: back) back

/-- A path is another one cleaned: the rules lead from the one to the other, and none applies to it.
A path without segments is the root or a dot. -/
def Cleaned (p q : String) : Prop :=
  ∃ parts, Relation.ReflTransGen (Tidies (isRooted p)) (Text.splitOn p "/") parts ∧
    (∀ more, ¬ Tidies (isRooted p) parts more) ∧
    q = if isRooted p = true then "/" ++ Text.join "/" parts
      else if parts = [] then "." else Text.join "/" parts

section

variable (rooted : Bool)

theorem tidies_stack (done rest : List String) (s : String) (h : Stacked rooted done) :
    Relation.ReflTransGen (Tidies rooted) (done.reverse ++ s :: rest)
      ((stack rooted done s).reverse ++ rest) := by
  by_cases hblank : s = ""
  · subst hblank
    exact .single (.blank _ _)
  by_cases hdot : s = "."
  · subst hdot
    exact .single (.dot _ _)
  by_cases hup : s = ".."
  · subst hup
    obtain ⟨names, n, rfl, hnames, hn⟩ := h
    cases names with
    | cons t names =>
      have ht := hnames t (by simp)
      have hstack : stack rooted ((t :: names) ++ List.replicate n "..") ".."
          = names ++ List.replicate n ".." := by simp [stack, ht.2.2]
      rw [hstack]
      simpa using Relation.ReflTransGen.single
        (Tidies.up (names ++ List.replicate n "..").reverse rest t ht)
    | nil =>
      cases n with
      | succ n => simp [stack, List.replicate_succ, Relation.ReflTransGen.refl]
      | zero =>
        cases rooted with
        | true => exact .single (.root rest rfl)
        | false => exact .refl
  · rw [stack_name rooted done s ⟨hblank, hdot, hup⟩]
    simp [Relation.ReflTransGen.refl]

theorem tidies_foldl (done rest : List String) (h : Stacked rooted done) :
    Relation.ReflTransGen (Tidies rooted) (done.reverse ++ rest)
      (rest.foldl (stack rooted) done).reverse := by
  induction rest generalizing done with
  | nil => simp [Relation.ReflTransGen.refl]
  | cons s rest ih =>
    exact (tidies_stack rooted done rest s h).trans (ih _ (stacked_stack rooted done s h))

theorem tidies_cleanSegments (parts : List String) :
    Relation.ReflTransGen (Tidies rooted) parts (cleanSegments rooted [] parts) := by
  have h := tidies_foldl rooted [] parts (stacked_nil rooted)
  rwa [← cleanSegments_eq] at h

theorem cleanSegments_tidies (parts more : List String) (h : Tidies rooted parts more) :
    cleanSegments rooted [] parts = cleanSegments rooted [] more := by
  simp only [cleanSegments_eq]
  congr 1
  cases h with
  | blank front back =>
    simp only [List.foldl_append, List.foldl_cons]
    rfl
  | dot front back =>
    simp only [List.foldl_append, List.foldl_cons]
    rfl
  | up front back s hs =>
    simp only [List.foldl_append, List.foldl_cons, stack_name _ _ s hs]
    simp [stack, hs.2.2]
  | root back h =>
    subst h
    rfl

theorem length_tidies (parts more : List String) (h : Tidies rooted parts more) :
    more.length < parts.length := by
  cases h <;> simp only [List.length_append, List.length_cons] <;> omega

theorem length_stack_le (done : List String) (s : String) :
    (stack rooted done s).length ≤ done.length + 1 := by
  unfold stack
  split
  · omega
  split
  · cases done with
    | nil => cases rooted <;> simp
    | cons d ds =>
      dsimp only
      split <;> simp
      omega
  · simp

theorem length_foldl_stack_le (done rest : List String) :
    (rest.foldl (stack rooted) done).length ≤ done.length + rest.length := by
  induction rest generalizing done with
  | nil => simp
  | cons s rest ih =>
    have h := ih (stack rooted done s)
    have hs := length_stack_le rooted done s
    rw [List.foldl_cons, List.length_cons]
    omega

theorem not_tidies_cleanSegments (parts more : List String) :
    ¬ Tidies rooted (cleanSegments rooted [] parts) more := by
  intro h
  have hself : cleanSegments rooted [] (cleanSegments rooted [] parts)
      = cleanSegments rooted [] parts := by
    rw [cleanSegments_eq rooted [] parts, cleanSegments_eq,
      foldl_stack_self _ _ (stacked_foldl rooted _ _ (stacked_nil rooted))]
  have hless := length_tidies rooted _ more h
  have hle := length_foldl_stack_le rooted [] more
  rw [← hself, cleanSegments_tidies rooted _ more h, cleanSegments_eq, List.length_reverse] at hless
  simp only [List.length_nil] at hle
  omega

theorem tidied_iff (parts tidied : List String) :
    Relation.ReflTransGen (Tidies rooted) parts tidied ∧ (∀ more, ¬ Tidies rooted tidied more) ↔
      tidied = cleanSegments rooted [] parts := by
  constructor
  · rintro ⟨hsteps, hend⟩
    have hsame : cleanSegments rooted [] parts = cleanSegments rooted [] tidied := by
      induction hsteps using Relation.ReflTransGen.head_induction_on with
      | refl => rfl
      | head h _ ih => exact (cleanSegments_tidies rooted _ _ h).trans ih
    rw [hsame]
    rcases (tidies_cleanSegments rooted tidied).cases_head with heq | ⟨more, hmore, -⟩
    · exact heq
    · exact absurd hmore (hend more)
  · rintro rfl
    exact ⟨tidies_cleanSegments rooted parts, not_tidies_cleanSegments rooted parts⟩

end

def kept (p : String) : List String :=
  cleanSegments (isRooted p) [] (Text.splitOn p "/")

theorem stacked_kept (p : String) : Stacked (isRooted p) (kept p).reverse := by
  rw [kept, cleanSegments_eq, List.reverse_reverse]
  exact stacked_foldl _ _ _ (stacked_nil _)

theorem stack_subset (rooted : Bool) (done : List String) (s t : String)
    (h : t ∈ stack rooted done s) : t ∈ done ∨ t = s ∨ t = ".." := by
  unfold stack at h
  split at h
  · exact Or.inl h
  split at h
  · split at h
    · split at h
      · rcases List.mem_cons.mp h with rfl | h
        · exact Or.inr (Or.inr rfl)
        · exact Or.inl h
      · exact Or.inl (List.mem_cons_of_mem _ h)
    · cases rooted <;> simp_all
  · rcases List.mem_cons.mp h with rfl | h
    · exact Or.inr (Or.inl rfl)
    · exact Or.inl h

theorem notMem_kept (p : String) : ∀ s ∈ kept p, '/' ∉ s.toList := by
  have hrun : ∀ rest done : List String, (∀ s ∈ rest, '/' ∉ s.toList) →
      (∀ s ∈ done, '/' ∉ s.toList) →
        ∀ s ∈ rest.foldl (stack (isRooted p)) done, '/' ∉ s.toList := by
    intro rest
    induction rest with
    | nil => exact fun done _ h => h
    | cons t rest ih =>
      intro done hrest hdone
      apply ih _ fun s hs => hrest s (List.mem_cons_of_mem t hs)
      intro s hs
      rcases stack_subset _ _ _ _ hs with hs | rfl | rfl
      · exact hdone s hs
      · exact hrest s (by simp)
      · decide
  intro s hs
  rw [kept, cleanSegments_eq, List.mem_reverse] at hs
  exact hrun _ [] (Text.notMem_splitOn p) (by simp) s hs

theorem kept_shape (p : String) : ∃ n names, kept p = List.replicate n ".." ++ names ∧
    (∀ s ∈ names, IsName s) ∧ (isRooted p = true → n = 0) := by
  obtain ⟨names, n, he, hnames, hn⟩ := stacked_kept p
  refine ⟨n, names.reverse, ?_, by simpa using hnames, hn⟩
  rw [← List.reverse_reverse (kept p), he]
  simp

theorem ne_of_mem_kept (p : String) : ∀ s ∈ kept p, s ≠ "" ∧ s ≠ "." := by
  intro s hs
  obtain ⟨n, names, he, hnames, -⟩ := kept_shape p
  rw [he] at hs
  rcases List.mem_append.mp hs with h | h
  · rw [List.eq_of_mem_replicate h]
    decide
  · exact ⟨(hnames s h).1, (hnames s h).2.1⟩

theorem join_kept_eq_nil (p : String) : Text.join "/" (kept p) = "" ↔ kept p = [] := by
  constructor
  · intro h
    by_contra hne
    have hsplit := Text.splitOn_join (kept p) hne (notMem_kept p)
    rw [h] at hsplit
    exact (ne_of_mem_kept p "" (hsplit ▸ (by decide : "" ∈ Text.splitOn "" "/"))).1 rfl
  · intro h
    rw [h]
    rfl

theorem clean_eq (p : String) : clean p =
    if isRooted p = true then "/" ++ Text.join "/" (kept p)
    else if kept p = [] then "." else Text.join "/" (kept p) := by
  simp only [← join_kept_eq_nil]
  rfl

theorem cleaned_iff (p q : String) : Cleaned p q ↔ q = clean p := by
  constructor
  · rintro ⟨parts, hsteps, hend, rfl⟩
    rw [clean_eq, kept, ← (tidied_iff _ _ _).mp ⟨hsteps, hend⟩]
  · rintro rfl
    obtain ⟨hsteps, hend⟩ := (tidied_iff _ (Text.splitOn p "/") (kept p)).mpr rfl
    exact ⟨kept p, hsteps, hend, clean_eq p⟩

theorem isRooted_append (s t : String) (h : s ≠ "") : isRooted (s ++ t) = isRooted s := by
  have hs : s.toList ≠ [] := by simpa using h
  obtain ⟨c, cs, hc⟩ := List.exists_cons_of_ne_nil hs
  simp [isRooted, hc]

theorem isRooted_undivided (s : String) (h : '/' ∉ s.toList) : isRooted s = false := by
  cases hs : s.toList with
  | nil => simp [isRooted, hs]
  | cons c cs =>
    simp only [hs, List.mem_cons, not_or] at h
    simp [isRooted, hs, Ne.symm h.1]

theorem isRooted_join (parts : List String) (h : ∀ s ∈ parts, '/' ∉ s.toList ∧ s ≠ "") :
    isRooted (Text.join "/" parts) = false := by
  cases parts with
  | nil => decide
  | cons s parts =>
    have hs := isRooted_undivided s (h s (by simp)).1
    by_cases hp : parts = []
    · rw [hp]
      exact hs
    · rw [Text.join_cons _ _ _ hp, String.append_assoc, isRooted_append _ _ (h s (by simp)).2, hs]

theorem isRooted_clean (p : String) : isRooted (clean p) = isRooted p := by
  rw [clean_eq]
  by_cases hr : isRooted p = true
  · rw [if_pos hr, isRooted_append _ _ (by decide), hr]
    decide
  · rw [if_neg hr, Bool.eq_false_iff.mpr hr]
    by_cases hk : kept p = []
    · rw [if_pos hk]
      decide
    · rw [if_neg hk]
      exact isRooted_join _ fun s hs => ⟨notMem_kept p s hs, (ne_of_mem_kept p s hs).1⟩

theorem splitOn_clean (p : String) : Text.splitOn (clean p) "/" =
    if isRooted p = true then "" :: (if kept p = [] then [""] else kept p)
    else if kept p = [] then ["."] else kept p := by
  rw [clean_eq]
  by_cases hk : kept p = []
  · by_cases hr : isRooted p = true <;> simp [hr, hk] <;> decide
  · have hsplit := Text.splitOn_join (kept p) hk (notMem_kept p)
    by_cases hr : isRooted p = true
    · have happ := Text.splitOn_append "" (Text.join "/" (kept p))
      rw [hsplit] at happ
      simpa [hr, hk, (by decide : Text.splitOn "" "/" = [""])] using happ
    · simp [hr, hk, hsplit]

theorem kept_clean (p : String) : kept (clean p) = kept p := by
  have hself : cleanSegments (isRooted p) [] (kept p) = kept p := by
    have h := foldl_stack_self _ _ (stacked_kept p)
    rw [List.reverse_reverse] at h
    rw [cleanSegments_eq, h, List.reverse_reverse]
  rw [kept, isRooted_clean, splitOn_clean]
  by_cases hk : kept p = []
  · by_cases hr : isRooted p = true <;> simp [hr, hk, cleanSegments]
  · by_cases hr : isRooted p = true
    · rw [if_pos hr, if_neg hk]
      simpa [cleanSegments] using hself
    · rw [if_neg hr, if_neg hk]
      exact hself

theorem clean_clean (p : String) : clean (clean p) = clean p := by
  rw [clean_eq (clean p), isRooted_clean, kept_clean, ← clean_eq]

theorem join_pair (d p : String) (hp : p ≠ "") :
    join [d, p] = clean (if d = "" then p else d ++ "/" ++ p) := by
  by_cases hd : d = "" <;> simp [join, hd, hp, Text.join]

theorem segments_eq (p : String) : segments p = kept p := by
  have hall : (kept p).filter (fun s => s ≠ "" && s ≠ ".") = kept p := by
    rw [List.filter_eq_self]
    intro s hs
    simpa using ne_of_mem_kept p s hs
  rw [segments, splitOn_clean]
  by_cases hr : isRooted p = true <;> by_cases hk : kept p = [] <;> simp_all

theorem names_of_isValid (p : String) (h : isValid p = true) :
    p = "." ∨ ∀ s ∈ Text.splitOn p "/", IsName s := by
  simpa [isValid, IsName, and_assoc] using h

theorem kept_of_names (p : String) (h : ∀ s ∈ Text.splitOn p "/", IsName s) :
    isRooted p = false ∧ kept p = Text.splitOn p "/" := by
  constructor
  · have hj := isRooted_join (Text.splitOn p "/") fun s hs => ⟨Text.notMem_splitOn p s hs, (h s hs).1⟩
    rwa [Text.join_splitOn] at hj
  · rw [kept, cleanSegments_eq, foldl_stack_names _ _ _ h]
    simp

theorem clean_of_isValid (p : String) (h : isValid p = true) : clean p = p := by
  rcases names_of_isValid p h with rfl | hnames
  · rfl
  · obtain ⟨hrooted, hkept⟩ := kept_of_names p hnames
    rw [clean_eq, hrooted, hkept]
    simp [Text.splitOn_ne_nil, Text.join_splitOn]

structure Divides (p front last : String) : Prop where
  eq : p = front ++ last
  last : '/' ∉ last.toList
  front : front = "" ∨ ∃ d, front = d ++ "/"

theorem exists_divides (p : String) : ∃ front last, Divides p front last := by
  refine ⟨String.ofList (p.toList.reverse.dropWhile (· != '/')).reverse, lastPart p, ?_, ?_, ?_⟩
  · apply String.toList_injective
    rw [lastPart, String.toList_append, String.toList_ofList, String.toList_ofList,
      ← List.reverse_append, List.takeWhile_append_dropWhile, List.reverse_reverse]
  · intro h
    rw [lastPart, String.toList_ofList, List.mem_reverse] at h
    simpa using List.mem_takeWhile_imp h
  · cases hd : p.toList.reverse.dropWhile (· != '/') with
    | nil => exact .inl rfl
    | cons c cs =>
      have hc := List.head_dropWhile_not (· != '/') (l := p.toList.reverse) (by simp [hd])
      simp only [hd, List.head_cons, bne_eq_false_iff_eq] at hc
      subst hc
      refine .inr ⟨String.ofList cs.reverse, String.toList_injective ?_⟩
      simp

theorem dir_of_divides (p front last : String) (h : Divides p front last) :
    dir p = clean front := by
  have hlast : ∀ c ∈ last.toList.reverse, (c != '/') = true := by
    intro c hc
    rw [bne_iff_ne]
    rintro rfl
    exact h.last (List.mem_reverse.mp hc)
  rw [dir, h.eq, String.toList_append, List.reverse_append, List.dropWhile_append_of_pos hlast]
  congr 1
  apply String.toList_injective
  rcases h.front with rfl | ⟨d, rfl⟩ <;> simp

theorem clean_congr (p q : String) (hrooted : isRooted p = isRooted q) (hkept : kept p = kept q) :
    clean p = clean q := by
  rw [clean_eq, clean_eq, hrooted, hkept]

theorem clean_ne_empty (p : String) : clean p ≠ "" := by
  rw [clean_eq]
  split
  · simp
  split
  · decide
  next hk => exact (join_kept_eq_nil p).not.mpr hk

theorem foldl_stack_splitOn (p : String) :
    (Text.splitOn p "/").foldl (stack (isRooted p)) [] = (kept p).reverse := by
  rw [kept, cleanSegments_eq, List.reverse_reverse]

theorem splitOn_slash_end (d : String) : Text.splitOn (d ++ "/") "/" = Text.splitOn d "/" ++ [""] := by
  have h := Text.splitOn_append d ""
  rwa [String.append_empty, (by decide : Text.splitOn "" "/" = [""])] at h

theorem clean_join_dir (front s : String) (hfront : front = "" ∨ ∃ d, front = d ++ "/")
    (hs : isRooted s = false) (hne : s ≠ "") :
    clean (join [clean front, s]) = clean (front ++ s) := by
  rw [join_pair _ s hne, if_neg (clean_ne_empty front), clean_clean]
  rcases hfront with rfl | ⟨d, rfl⟩
  · have hsplit := Text.splitOn_append "." s
    refine clean_congr _ _ ?_ ?_
    · rw [String.append_assoc, isRooted_append _ _ (clean_ne_empty ""), String.empty_append, hs]
      decide
    · rw [(by decide : clean "" = "."), String.empty_append, kept, kept, hsplit, hs,
        String.append_assoc, isRooted_append "." _ (by decide)]
      rfl
  · have hrooted : isRooted (clean (d ++ "/") ++ "/" ++ s) = isRooted (d ++ "/" ++ s) := by
      rw [String.append_assoc, isRooted_append _ _ (clean_ne_empty _), isRooted_clean,
        isRooted_append (d ++ "/") s (by simp)]
    refine clean_congr _ _ hrooted ?_
    have hdir := foldl_stack_splitOn (clean (d ++ "/"))
    have hd := foldl_stack_splitOn (d ++ "/")
    rw [isRooted_clean, kept_clean] at hdir
    rw [splitOn_slash_end, List.foldl_append] at hd
    rw [kept, kept, hrooted, Text.splitOn_append, Text.splitOn_append, cleanSegments_eq,
      cleanSegments_eq, List.foldl_append, List.foldl_append,
      isRooted_append (d ++ "/") s (by simp), hdir, ← hd]
    rfl

structure Ends (p l : String) : Prop where
  name : IsName l
  split : ∃ front, Text.splitOn p "/" = front ++ [l]

theorem ends_of_suffix (suffix : List Char) (hslash : '/' ∉ suffix) (hlong : 2 < suffix.length)
    (p : String) (h : suffix <:+ p.toList) : ∃ l, Ends p l ∧ suffix <:+ l.toList := by
  obtain ⟨l, hfront⟩ : ∃ l, ∃ front, Text.splitOn p "/" = front ++ [l] := by
    obtain ⟨front, l, hs⟩ := List.eq_nil_or_concat (Text.splitOn p "/") |>.resolve_left
      (Text.splitOn_ne_nil p)
    exact ⟨l, front, by simpa using hs⟩
  obtain ⟨front, hf⟩ := hfront
  have hp : p = Text.join "/" (front ++ [l]) := by rw [← hf, Text.join_splitOn]
  have hl : suffix <:+ l.toList := by
    by_cases hfront : front = []
    · subst hfront
      exact (show p = l from hp) ▸ h
    · have hchars : p.toList = (Text.join "/" front).toList ++ '/' :: l.toList := by
        rw [hp, Text.join_snoc _ _ _ hfront]
        simp
      have hend : '/' :: l.toList <:+ p.toList := ⟨_, hchars.symm⟩
      by_cases hlen : suffix.length ≤ l.toList.length
      · exact List.suffix_of_suffix_length_le h ((List.suffix_cons _ _).trans hend) hlen
      · have hsub := List.suffix_of_suffix_length_le hend h (by rw [List.length_cons]; omega)
        exact absurd (hsub.subset List.mem_cons_self) hslash
  have hlen : 2 < l.toList.length := Nat.lt_of_lt_of_le hlong hl.length_le
  refine ⟨l, ⟨⟨?_, ?_, ?_⟩, front, hf⟩, hl⟩ <;>
  · rintro rfl
    exact absurd hlen (by decide)

section

variable {p l : String} (h : Ends p l)

include h

theorem Ends.ne_empty : p ≠ "" := by
  rintro rfl
  obtain ⟨front, hf⟩ := h.split
  have hlast := congrArg List.getLast? hf
  rw [List.getLast?_concat] at hlast
  exact h.name.1 (Option.some.inj (hlast.symm.trans (by decide)))

theorem Ends.kept : ∃ front, Text.splitOn p "/" = front ++ [l] ∧
    kept p = cleanSegments (isRooted p) [] front ++ [l] := by
  obtain ⟨front, hf⟩ := h.split
  refine ⟨front, hf, ?_⟩
  rw [Path.kept, hf, cleanSegments_eq, cleanSegments_eq, List.foldl_append]
  simp [stack_name _ _ _ h.name]

theorem Ends.clean : Ends (clean p) l := by
  obtain ⟨front, -, hk⟩ := h.kept
  refine ⟨h.name, ?_⟩
  have hne : Path.kept p ≠ [] := by simp [hk]
  simp only [splitOn_clean, if_neg hne]
  by_cases hr : isRooted p = true
  · exact ⟨"" :: cleanSegments (isRooted p) [] front, by rw [if_pos hr, hk]; rfl⟩
  · exact ⟨_, by rw [if_neg hr, hk]⟩

theorem Ends.join (d : String) : Ends (join [d, p]) l := by
  rw [join_pair d p h.ne_empty]
  by_cases hd : d = ""
  · rw [if_pos hd]
    exact h.clean
  · rw [if_neg hd]
    apply Ends.clean
    obtain ⟨front, hf⟩ := h.split
    exact ⟨h.name, Text.splitOn d "/" ++ front, by rw [Text.splitOn_append, hf, List.append_assoc]⟩

theorem Ends.dir : isRooted (dir p) = isRooted p ∧ Path.kept p = Path.kept (dir p) ++ [l] := by
  obtain ⟨front, hf, hk⟩ := h.kept
  have hl : '/' ∉ l.toList := Text.notMem_splitOn p l (by simp [hf])
  have hp : p = Text.join "/" (front ++ [l]) := by rw [← hf, Text.join_splitOn]
  rw [hk]
  by_cases hfront : front = []
  · subst hfront
    obtain rfl : p = l := hp
    have hdir : Path.dir p = "." := by
      rw [dir_of_divides p "" p ⟨by simp, hl, .inl rfl⟩]
      decide
    rw [hdir, isRooted_undivided p hl]
    exact ⟨by decide, rfl⟩
  · have hp : p = Text.join "/" front ++ "/" ++ l := by
      rw [hp, Text.join_snoc _ _ _ hfront]
    generalize Text.join "/" front = x at hp
    have hdir := dir_of_divides p (x ++ "/") l ⟨hp, hl, .inr ⟨x, rfl⟩⟩
    have hrooted : isRooted (x ++ "/") = isRooted p := by
      rw [hp, isRooted_append _ l (by simp)]
    have hsplit : Text.splitOn (x ++ "/") "/" = front ++ [""] := by
      have hx := Text.splitOn_append x l
      rw [← hp, hf, Text.splitOn_undivided l hl] at hx
      rw [splitOn_slash_end, ← List.append_cancel_right hx]
    rw [hdir, isRooted_clean, kept_clean, hrooted, Path.kept, hsplit, hrooted, cleanSegments_eq,
      cleanSegments_eq, List.foldl_append]
    exact ⟨rfl, rfl⟩

end

end Path

namespace FileTree

theorem segments_eq (p : String) (h : Path.isRooted p = false) : segments p = Path.kept p := by
  have hsplit := Path.splitOn_clean p
  have hclean := Path.clean_eq p
  simp only [h, Bool.false_eq_true, if_false] at hsplit hclean
  unfold segments
  by_cases hk : Path.kept p = []
  · simp [hclean, hk]
  · rw [if_neg hk] at hsplit
    split
    next hdot =>
      rw [hdot, (by decide : Text.splitOn "." "/" = ["."])] at hsplit
      exact absurd rfl (Path.ne_of_mem_kept p "." (hsplit ▸ List.mem_singleton_self _)).2
    next => exact hsplit

theorem isOutside_eq (p : String) : isOutside p = (Path.isRooted p ||
    (Path.kept p).head? == some "..") := by
  unfold isOutside
  by_cases hr : Path.isRooted p = true
  · simp [hr]
  · rw [segments_eq p (by simpa using hr)]

section

variable {p l : String} (h : Path.Ends p l)

include h

theorem isOutside_dir : isOutside (Path.dir p) = isOutside p := by
  obtain ⟨hr, hk⟩ := h.dir
  rw [isOutside_eq, isOutside_eq, hr, hk]
  cases Path.kept (Path.dir p) with
  | nil => simp [h.name.2.2]
  | cons s rest => rfl

theorem segments_dir (hin : isOutside p = false) : segments p = segments (Path.dir p) ++ [l] := by
  obtain ⟨hr, hk⟩ := h.dir
  have hp : Path.isRooted p = false := by
    rw [isOutside_eq, Bool.or_eq_false_iff] at hin
    exact hin.1
  rw [segments_eq p hp, segments_eq _ (hr.trans hp), hk]

end

end FileTree

end FormatFuzz
