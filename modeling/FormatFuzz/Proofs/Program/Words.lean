import FormatFuzz.Proofs.Program.Declarations

/-!
# Characters of names

Every name in a program is a word: an ASCII letter, and after it letters, digits and underscores.
-/

set_option autoImplicit false

namespace FormatFuzz

def isNameChar (c : Char) : Bool :=
  Text.isWordChar c || c == '_'

theorem isNameChar_induction (P : Char → Bool)
    (h : ∀ n < 128, isNameChar (Char.ofNat n) = true → P (Char.ofNat n) = true) (c : Char)
    (hc : isNameChar c = true) : P c = true := by
  rcases Bool.or_eq_true_iff.mp hc with hw | hu
  · refine Text.isWordChar_induction P (fun n hn hword => h n hn ?_) c hw
    exact Bool.or_eq_true_iff.mpr (.inl hword)
  · rw [beq_iff_eq.mp hu]
    exact h 95 (by omega) (by decide)

namespace Program

def NameText (s : String) : Prop :=
  ∀ c ∈ s.toList, isNameChar c = true

def IsName (s : String) : Prop :=
  ∃ c cs, s.toList = c :: cs ∧ c.isAlpha = true ∧ ∀ x ∈ cs, isNameChar x = true

theorem isNameChar_alpha (c : Char) (h : c.isAlpha = true) : isNameChar c = true := by
  simp [isNameChar, Text.isWordChar, h]

theorem IsName.text {s : String} (h : IsName s) : NameText s := by
  obtain ⟨c, cs, hs, hc, hcs⟩ := h
  unfold NameText
  rw [hs]
  exact List.forall_mem_cons.mpr ⟨isNameChar_alpha c hc, hcs⟩

theorem NameText.append {s t : String} (hs : NameText s) (ht : NameText t) :
    NameText (s ++ t) := by
  unfold NameText
  rw [String.toList_append]
  exact List.forall_mem_append.mpr ⟨hs, ht⟩

theorem IsName.append {s t : String} (hs : IsName s) (ht : NameText t) : IsName (s ++ t) := by
  obtain ⟨c, cs, hs, hc, hcs⟩ := hs
  refine ⟨c, cs ++ t.toList, by simp [hs], hc, List.forall_mem_append.mpr ⟨hcs, ht⟩⟩

theorem IsExported.isName {s : String} (h : IsExported s) (hs : NameText s) : IsName s := by
  obtain ⟨c, cs, hcs, hc⟩ := h
  unfold NameText at hs
  rw [hcs] at hs
  exact ⟨c, cs, hcs, (Text.isAlpha_iff c).mpr (.inl hc), (List.forall_mem_cons.mp hs).2⟩

theorem isWordChar_toUpper (c : Char) (h : Text.isWordChar c = true) :
    Text.isWordChar c.toUpper = true :=
  Text.isWordChar_induction (fun c => Text.isWordChar c.toUpper) (by decide) c h

theorem isWordChar_exportedName (s : String) :
    ∀ c ∈ (exportedName s).toList, Text.isWordChar c = true := by
  have hbody : ∀ c ∈ (Text.words s.toList).flatMap exportedWord, Text.isWordChar c = true := by
    intro c hc
    obtain ⟨w, hw, hc⟩ := List.mem_flatMap.mp hc
    have hchars := (Text.mem_words s.toList w hw).2
    unfold exportedWord at hc
    split at hc
    · obtain ⟨d, hd, rfl⟩ := List.mem_map.mp hc
      exact isWordChar_toUpper d (hchars d hd)
    · cases w with
      | nil => cases hc
      | cons d ds =>
        rw [Text.capitalize] at hc
        rcases List.mem_cons.mp hc with rfl | hc
        · exact isWordChar_toUpper d (hchars d (by simp))
        · exact hchars c (List.mem_cons_of_mem d hc)
  unfold exportedName
  simp only [String.toList_ofList]
  split
  · exact List.forall_mem_cons.mpr ⟨by decide, hbody⟩
  · exact hbody

theorem nameText_exportedName (s : String) : NameText (exportedName s) :=
  fun c hc => Bool.or_eq_true_iff.mpr (.inl (isWordChar_exportedName s c hc))

theorem isName_exportedName (s : String) : IsName (exportedName s) :=
  (isExported_exportedName s).isName (nameText_exportedName s)

theorem isName_typeName (p : TypePath) : IsName (typeName p) :=
  isName_exportedName _

theorem isName_enumName (e : EnumId) : IsName (enumName e) :=
  (isName_typeName e.owner).append (nameText_exportedName e.name)

theorem isName_memberConst (e : EnumId) (id : String) : IsName (memberConst e id) :=
  (isName_enumName e).append (nameText_exportedName id)

theorem isName_hiddenName {s : String} (h : IsName s) : IsName (hiddenName s) := by
  obtain ⟨c, cs, hs, hc, hcs⟩ := h
  unfold hiddenName
  rw [hs]
  have hlower := Text.isWordChar_induction (fun c => !c.isAlpha || c.toLower.isAlpha) (by decide) c
    (by simp [Text.isWordChar, hc])
  simp only [hc, Bool.not_true, Bool.false_or] at hlower
  exact ⟨c.toLower, cs, String.toList_ofList, hlower, hcs⟩

theorem isName_assignNames (taken ids : List String) :
    ∀ e ∈ assignNames taken ids, IsName e.2 := by
  have hunderscored (n : Nat) (name : String) (h : NameText name) :
      NameText (underscored name n) := by
    induction n generalizing name with
    | zero => exact h
    | succ n ih => exact ih _ (h.append (by simp [NameText, isNameChar]))
  have htext : ∀ e ∈ assignNames taken ids, NameText e.2 := by
    induction ids generalizing taken with
    | nil => simp [assignNames]
    | cons id ids ih =>
      rw [assignNames]
      refine List.forall_mem_cons.mpr ⟨?_, ih _⟩
      obtain ⟨n, hn⟩ := untaken_eq taken taken.length (exportedName id)
      rw [hn]
      exact hunderscored n _ (nameText_exportedName id)
  exact fun e he => (isExported_assignNames taken ids e he).isName (htext e he)

theorem find?_memberIds (t : TypeDef) (id : String) :
    (∀ f, t.field? id = some f → id ∈ memberIds t) ∧
      ∀ i, t.instance? id = some i → id ∈ memberIds t := by
  constructor
  · intro f hf
    have hid : f.id = id := by simpa using List.find?_some hf
    exact List.mem_append_left _ (hid ▸ List.mem_map_of_mem (List.mem_of_find?_eq_some hf))
  · intro i hi
    have hid : i.id = id := by simpa using List.find?_some hi
    exact List.mem_append_right _ (hid ▸ List.mem_map_of_mem (List.mem_of_find?_eq_some hi))

/-- The names that a program for a compiled model has for members are words. -/
structure Named (p : Plan) : Prop where
  member (t : TypeDef) (ht : t ∈ p.types) (id : String) (hid : id ∈ memberIds t) :
    IsName (p.names.member t id)

theorem Named.static {p : Plan} (h : Named p) (t : TypeDef) (ht : t ∈ p.types) (id : String)
    (hid : id ∈ memberIds t) : IsName (p.names.static t id) :=
  (isName_hiddenName (isName_typeName t.path)).append (h.member t ht id hid).text

theorem toModel_learn (p : Plan) (x : TypeDef × Instance) : (p.learn x).toModel = p.toModel := by
  unfold Plan.learn
  dsimp only
  split <;> rfl

theorem toModel_ofModel (m : Model) : (Plan.ofModel m).toModel = m :=
  settle_keeps (·.toModel = m) _ (fun x _ p h => (toModel_learn p x).trans h) _ _ rfl

theorem named_ofModel (o : Options) (set : SchemaSet) (m : Model)
    (h : Model.compile o set = .ok m) (hn : (m.types.map TypeDef.path).Nodup) :
    Named (.ofModel m) where
  member t ht id hid := by
    rw [toModel_ofModel] at ht
    have hids := compile_memberIds o set m h t ht
    have hfst : (memberNames t).map Prod.fst = memberIds t := assignNames_fst _ _
    obtain ⟨e, he, rfl⟩ := List.mem_map.mp (hfst ▸ hid)
    rw [names_ofModel, NameTable.member_eq m.types hn t ht hids e he]
    exact isName_assignNames _ _ e he

end Program

end FormatFuzz
