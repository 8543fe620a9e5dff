import FormatFuzz.Program.Name
import FormatFuzz.Proofs.Numeral
import Mathlib.Data.List.Nodup
import Mathlib.Data.List.Perm.Subperm

/-!
# Names of members

Exported names begin with a capital letter. The members of a type are named one after the other, each
with as many underscores as it takes to differ from the accessors and from the members before it.
There is always such a name: each underscore gives another one, and the names to avoid are as many as
the underscores that may be added.
-/

set_option autoImplicit false

namespace FormatFuzz

namespace Text

theorem mem_wordsAux (acc cs : List Char) (hacc : ∀ c ∈ acc, isWordChar c = true) :
    ∀ w ∈ wordsAux acc cs, w ≠ [] ∧ ∀ c ∈ w, isWordChar c = true := by
  have word : acc.isEmpty = false → acc.reverse ≠ [] ∧ ∀ c ∈ acc.reverse, isWordChar c = true := by
    intro h
    exact ⟨by simpa using h, fun c hc => hacc c (List.mem_reverse.mp hc)⟩
  induction cs generalizing acc with
  | nil =>
    intro w hw
    cases h : acc.isEmpty with
    | true => simp [wordsAux, h] at hw
    | false =>
      simp only [wordsAux, h, Bool.false_eq_true, if_false, List.mem_singleton] at hw
      exact hw ▸ word h
  | cons c cs ih =>
    intro w hw
    rw [wordsAux] at hw
    split at hw
    next hc =>
      have hacc' : ∀ x ∈ c :: acc, isWordChar x = true := List.forall_mem_cons.mpr ⟨hc, hacc⟩
      refine ih (c :: acc) hacc' (fun _ => ⟨by simp, fun x hx => ?_⟩) w hw
      exact hacc' x (List.mem_reverse.mp hx)
    next =>
      have tail := ih [] (by simp) (by simp)
      split at hw
      next => exact tail w hw
      next h =>
        rcases List.mem_cons.mp hw with rfl | hw
        · exact word (Bool.not_eq_true _ ▸ h)
        · exact tail w hw

theorem mem_words (cs : List Char) : ∀ w ∈ words cs, w ≠ [] ∧ ∀ c ∈ w, isWordChar c = true :=
  mem_wordsAux [] cs (by simp)

end Text

theorem Text.isWordChar_induction (P : Char → Bool)
    (h : ∀ n < 128, isWordChar (Char.ofNat n) = true → P (Char.ofNat n) = true) (c : Char)
    (hc : isWordChar c = true) : P c = true := by
  have hlt : c.toNat < 128 := by
    simp only [isWordChar, Bool.or_eq_true, isAlpha_iff, isUpper_iff, isLower_iff,
      Char.isDigit_iff_toNat, Char.reduceToNat] at hc
    omega
  have := h c.toNat hlt
  rw [Char.ofNat_toNat] at this
  exact this hc

theorem Text.toUpper_wordChar (c : Char) (h : isWordChar c = true) :
    c.toUpper.isUpper = true ∨ c.toUpper.isDigit = true := by
  have := isWordChar_induction (fun c => c.toUpper.isUpper || c.toUpper.isDigit) (by decide) c h
  exact Bool.or_eq_true_iff.mp this

theorem Text.toLower_capital (c : Char) (h : c.isUpper = true) : c.toLower.isLower = true := by
  have := isWordChar_induction (fun c => !c.isUpper || c.toLower.isLower) (by decide) c
    (by simp [isWordChar, isAlpha_iff, h])
  simpa [h] using this

namespace Program

def IsExported (s : String) : Prop := ∃ c cs, s.toList = c :: cs ∧ c.isUpper = true

def IsInternal (s : String) : Prop := ∃ c cs, s.toList = c :: cs ∧ c.isLower = true

theorem IsExported.not_internal (s : String) (h : IsExported s) : ¬ IsInternal s := by
  rintro ⟨c, cs, hs, hc⟩
  obtain ⟨d, ds, hd, hup⟩ := h
  rw [hs, List.cons.injEq] at hd
  rw [← hd.1, Text.isUpper_iff] at hup
  rw [Text.isLower_iff] at hc
  omega

theorem IsExported.append (s t : String) (h : IsExported s) : IsExported (s ++ t) := by
  obtain ⟨c, cs, hs, hc⟩ := h
  exact ⟨c, cs ++ t.toList, by simp [hs], hc⟩

theorem IsInternal.append (s t : String) (h : IsInternal s) : IsInternal (s ++ t) := by
  obtain ⟨c, cs, hs, hc⟩ := h
  exact ⟨c, cs ++ t.toList, by simp [hs], hc⟩

theorem isInternal_hiddenName (s : String) (h : IsExported s) : IsInternal (hiddenName s) := by
  obtain ⟨c, cs, hs, hc⟩ := h
  unfold hiddenName
  rw [hs]
  exact ⟨c.toLower, cs, String.toList_ofList, Text.toLower_capital c hc⟩

theorem exportedWord_cons (c : Char) (cs : List Char) :
    ∃ rest, exportedWord (c :: cs) = c.toUpper :: rest := by
  unfold exportedWord
  split
  · exact ⟨_, rfl⟩
  · exact ⟨_, rfl⟩

theorem isExported_exportedName (s : String) : IsExported (exportedName s) := by
  unfold exportedName IsExported
  simp only [String.toList_ofList]
  split
  next => exact ⟨'X', _, rfl, rfl⟩
  next h =>
    simp only [Bool.or_eq_true, not_or] at h
    cases hw : Text.words s.toList with
    | nil => simp [hw] at h
    | cons w ws =>
      obtain ⟨hne, hchars⟩ := Text.mem_words s.toList w (by simp [hw])
      cases w with
      | nil => exact absurd rfl hne
      | cons c cs =>
        obtain ⟨rest, hrest⟩ := exportedWord_cons c cs
        have hbody : (Text.words s.toList).flatMap exportedWord = c.toUpper :: (rest ++ ws.flatMap exportedWord) := by
          simp [hw, hrest]
        rw [hw] at hbody
        rw [hw, hbody] at h
        refine ⟨c.toUpper, _, hbody, ?_⟩
        rcases Text.toUpper_wordChar c (hchars c (by simp)) with hc | hc
        · exact hc
        · exact absurd hc h.2

theorem isExported_typeName (p : TypePath) : IsExported (typeName p) :=
  isExported_exportedName _

def underscored : String → Nat → String
  | name, 0 => name
  | name, n + 1 => underscored (name ++ "_") n

theorem length_underscored (name : String) (n : Nat) :
    (underscored name n).length = name.length + n := by
  induction n generalizing name with
  | zero => rfl
  | succ n ih =>
    rw [underscored, ih, String.length_append]
    have : "_".length = 1 := rfl
    omega

theorem isExported_underscored (name : String) (n : Nat) (h : IsExported name) :
    IsExported (underscored name n) := by
  induction n generalizing name with
  | zero => exact h
  | succ n ih => exact ih _ (h.append name "_")

theorem untaken_eq (taken : List String) (fuel : Nat) (name : String) :
    ∃ n, untaken taken fuel name = underscored name n := by
  induction fuel generalizing name with
  | zero => exact ⟨0, rfl⟩
  | succ fuel ih =>
    rw [untaken]
    split
    · obtain ⟨n, hn⟩ := ih (name ++ "_")
      exact ⟨n + 1, hn⟩
    · exact ⟨0, rfl⟩

theorem underscored_mem (taken : List String) (fuel : Nat) (name : String)
    (h : untaken taken fuel name ∈ taken) : ∀ n ≤ fuel, underscored name n ∈ taken := by
  induction fuel generalizing name with
  | zero =>
    intro n hn
    obtain rfl : n = 0 := by omega
    exact h
  | succ fuel ih =>
    rw [untaken] at h
    split at h
    next hname =>
      intro n hn
      cases n with
      | zero => exact hname
      | succ n => exact ih (name ++ "_") h n (by omega)
    next hname => exact absurd h hname

theorem untaken_not_mem (taken : List String) (name : String) :
    untaken taken taken.length name ∉ taken := by
  intro h
  have hall := underscored_mem taken taken.length name h
  have hnodup : ((List.range (taken.length + 1)).map (underscored name)).Nodup := by
    refine List.Nodup.map (fun i j hij => ?_) List.nodup_range
    have := congrArg String.length hij
    rw [length_underscored, length_underscored] at this
    omega
  have hsub : (List.range (taken.length + 1)).map (underscored name) ⊆ taken := by
    intro x hx
    obtain ⟨i, hi, rfl⟩ := List.mem_map.mp hx
    exact hall i (by simpa [Nat.lt_succ_iff] using hi)
  have hlen := (hnodup.subperm hsub).length_le
  rw [List.length_map, List.length_range] at hlen
  omega

theorem assignNames_fst (taken ids : List String) :
    (assignNames taken ids).map Prod.fst = ids := by
  induction ids generalizing taken with
  | nil => rfl
  | cons id ids ih => simp [assignNames, ih]

theorem isExported_assignNames (taken ids : List String) :
    ∀ e ∈ assignNames taken ids, IsExported e.2 := by
  induction ids generalizing taken with
  | nil => simp [assignNames]
  | cons id ids ih =>
    rw [assignNames]
    refine List.forall_mem_cons.mpr ⟨?_, ih _⟩
    obtain ⟨n, hn⟩ := untaken_eq taken taken.length (exportedName id)
    rw [hn]
    exact isExported_underscored _ n (isExported_exportedName id)

theorem nodup_assignNames (taken ids : List String) :
    ((assignNames taken ids).map Prod.snd).Nodup ∧
      ∀ n ∈ (assignNames taken ids).map Prod.snd, n ∉ taken := by
  induction ids generalizing taken with
  | nil => simp [assignNames]
  | cons id ids ih =>
    have hfresh := untaken_not_mem taken (exportedName id)
    rw [assignNames, List.map_cons]
    generalize untaken taken taken.length (exportedName id) = name at hfresh
    obtain ⟨hn, havoid⟩ := ih (name :: taken)
    refine ⟨List.nodup_cons.mpr ⟨fun hmem => ?_, hn⟩, List.forall_mem_cons.mpr ⟨hfresh, fun x hx => ?_⟩⟩
    · exact havoid name hmem (by simp)
    · exact fun ht => havoid x hx (List.mem_cons_of_mem _ ht)

def memberIds (t : TypeDef) : List String := t.fields.map Field.id ++ t.instances.map Instance.id

namespace NameTable

theorem getElem?_ofTypes (ts : List TypeDef) (hts : (ts.map TypeDef.path).Nodup) (t : TypeDef)
    (ht : t ∈ ts) : (ofTypes ts)[t.path]? = some (.ofList (memberNames t)) := by
  have run : ∀ (ts : List TypeDef) (names : NameTable), (ts.map TypeDef.path).Nodup →
      (∀ u ∈ ts, u.path = t.path → u = t) → (t ∈ ts ∨ names[t.path]? = some (.ofList (memberNames t))) →
      (ts.foldl (fun names t => names.insert t.path (.ofList (memberNames t))) names)[t.path]?
        = some (.ofList (memberNames t)) := by
    intro ts
    induction ts with
    | nil =>
      intro names _ _ h
      simpa using h
    | cons u ts ih =>
      intro names hn huniq h
      rw [List.foldl_cons]
      rw [List.map_cons, List.nodup_cons] at hn
      refine ih _ hn.2 (fun v hv => huniq v (List.mem_cons_of_mem _ hv)) ?_
      rw [Std.HashMap.getElem?_insert]
      by_cases hp : u.path = t.path
      · right
        rw [huniq u (by simp) hp]
        simp
      · rcases h with h | h
        · rcases List.mem_cons.mp h with rfl | h
          · exact absurd rfl hp
          · exact .inl h
        · right
          simpa [hp] using h
  refine run ts ∅ hts (fun u hu hpath => ?_) (.inl ht)
  exact List.inj_on_of_nodup_map hts hu ht hpath

theorem member_eq (ts : List TypeDef) (hts : (ts.map TypeDef.path).Nodup) (t : TypeDef)
    (ht : t ∈ ts) (hids : (memberIds t).Nodup) (e : String × String) (he : e ∈ memberNames t) :
    (ofTypes ts).member t e.1 = e.2 := by
  have hfst : (memberNames t).map Prod.fst = memberIds t := assignNames_fst _ _
  have hdistinct : (memberNames t).Pairwise fun a b => (a.1 == b.1) = false := by
    rw [← hfst, List.nodup_iff_pairwise_ne, List.pairwise_map] at hids
    exact hids.imp fun h => by simpa using h
  rw [member, getElem?_ofTypes ts hts t ht, Option.bind_some,
    Std.HashMap.getElem?_ofList_of_mem (beq_self_eq_true e.1) hdistinct he, Option.getD_some]

end NameTable

end Program

end FormatFuzz
