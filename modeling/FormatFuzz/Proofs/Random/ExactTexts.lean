import FormatFuzz.Proofs.Random.Texts

/-!
# Exact and clean texts

A terminator that is a byte stands at the end of a text and nowhere else, and a text is refused only
where its length leaves no room. Whatever the room left and the byte kept out, some word is accepted
at once: one of the letters `A` and `B` is allowed, and both take one byte. A source that gives such
words one after another ends every text.
-/

set_option autoImplicit false

namespace FormatFuzz.Draw

variable {σ : Type} [RandomSource σ]

def letter (exclude : Option UInt8) : Nat :=
  if exclude = some 0x41 then 0x42 else 0x41

theorem letter_lt (exclude : Option UInt8) : letter exclude < 128 := by
  rw [letter]
  split_ifs <;> omega

theorem letter_free (exclude : Option UInt8) : exclude ≠ some (UInt8.ofNat (letter exclude)) := by
  rw [letter]
  split_ifs with h
  · rw [h]
    decide
  · exact h

theorem utf8EncodeChar_letter (exclude : Option UInt8) :
    String.utf8EncodeChar (Char.ofNat (letter exclude)) = [UInt8.ofNat (letter exclude)] := by
  rw [letter]
  split_ifs <;> rfl

theorem letter_isValidChar (exclude : Option UInt8) : (letter exclude).isValidChar :=
  .inl ((letter_lt exclude).trans (by omega))

theorem exists_word_character (room : Nat) (exclude : Option UInt8) :
    ∃ w : UInt64, ∀ {σ : Type} [RandomSource σ] (s : σ), (RandomSource.next s).1 = w →
      ∀ tries fuel, (character (tries + 1) room exclude (fuel + 1)).Gives s
        [UInt8.ofNat (letter exclude)] (RandomSource.next s).2 := by
  have hlt := letter_lt exclude
  have hroom := ascii_le_greatestIn room
  have hx : (Int64.ofNat (letter exclude)).toInt = letter exclude :=
    Int64.toInt_ofNat_of_lt (by omega)
  obtain ⟨w, hw⟩ := exists_word_int 0 (greatestIn room) (Int64.ofNat (letter exclude))
    (by rw [hx, Int64.toInt_zero]; omega) (by omega)
  refine ⟨w, fun s hs tries fuel => (hw s hs tries).bind ?_⟩
  have hb : ¬ exclude.any [UInt8.ofNat (letter exclude)].contains = true := by
    rw [any_contains_iff]
    rintro ⟨b, hb, hm⟩
    exact letter_free exclude (List.mem_singleton.mp hm ▸ hb)
  simp only [hx, Int.toNat_natCast, if_pos (letter_isValidChar exclude), utf8EncodeChar_letter,
    if_neg hb]
  exact gives_pure _ _

theorem exists_word_tableByte (src : TextSource) (h : src ≠ .encoded .utf8)
    (exclude : Option UInt8) :
    ∃ w : UInt64, ∀ {σ : Type} [RandomSource σ] (s : σ), (RandomSource.next s).1 = w →
      ∀ tries fuel, (tableByte (tries + 1) src.table exclude (fuel + 1)).Gives s
        (UInt8.ofNat (letter exclude)) (RandomSource.next s).2 := by
  obtain ⟨i, hi, hget⟩ := List.mem_iff_getElem.mp
    (ascii_mem_table src h (letter exclude) (letter_lt exclude))
  have hle := length_table_le src
  obtain ⟨w, hw⟩ := exists_word_position src.table.length i hi (by omega)
  refine ⟨w, fun s hs tries fuel => (hw s hs tries).bind ?_⟩
  simp only [List.getD_eq_getElem src.table 0 hi, hget, if_neg (letter_free exclude)]
  exact gives_pure _ _

structure Script where
  words : List UInt64

instance : RandomSource Script where
  next s := (s.words.headD 0, ⟨s.words.tail⟩)

theorem exists_script_characters (exclude : Option UInt8) (fuel room : Nat) :
    ∃ (s t : Script) (bs : List UInt8),
      ∀ tries, (characters (tries + 1) exclude fuel room).Gives s bs t := by
  induction fuel generalizing room with
  | zero => exact ⟨⟨[]⟩, ⟨[]⟩, [], fun tries => gives_pure _ _⟩
  | succ fuel ih =>
    by_cases hroom : room = 0
    · refine ⟨⟨[]⟩, ⟨[]⟩, [], fun tries => ?_⟩
      rw [characters, if_pos hroom]
      exact gives_pure _ _
    · obtain ⟨w, hw⟩ := exists_word_character room exclude
      obtain ⟨⟨ws⟩, t, bs, hbs⟩ := ih (room - 1)
      refine ⟨⟨w :: ws⟩, t, UInt8.ofNat (letter exclude) :: bs, fun tries => ?_⟩
      rw [characters, if_neg hroom]
      exact (hw (⟨w :: ws⟩ : Script) rfl tries tries).bind ((hbs tries).map _)

theorem exists_script_tableBytes (src : TextSource) (h : src ≠ .encoded .utf8)
    (exclude : Option UInt8) (n : Nat) :
    ∃ (s t : Script) (bs : List UInt8),
      ∀ tries, (tableBytes (tries + 1) src.table exclude n).Gives s bs t := by
  induction n with
  | zero => exact ⟨⟨[]⟩, ⟨[]⟩, [], fun tries => gives_pure _ _⟩
  | succ n ih =>
    obtain ⟨w, hw⟩ := exists_word_tableByte src h exclude
    obtain ⟨⟨ws⟩, t, bs, hbs⟩ := ih
    refine ⟨⟨w :: ws⟩, t, UInt8.ofNat (letter exclude) :: bs, fun tries => ?_⟩
    exact (hw (⟨w :: ws⟩ : Script) rfl tries tries).bind ((hbs tries).map _)

theorem exists_script_body (src : TextSource) (n : Nat) (exclude : Option UInt8) :
    ∃ (s t : Script) (bs : List UInt8),
      ∀ tries, (body (tries + 1) src n exclude).Gives s bs t := by
  by_cases h : src = .encoded .utf8
  · rw [h]
    exact exists_script_characters exclude n n
  · simp only [body_table _ src h]
    exact exists_script_tableBytes src h exclude n

def terminated (terminator : Option UInt8) : Option Int :=
  terminator.map fun b => (b.toNat : Int)

theorem ofInt_toNat (b : UInt8) : UInt8.ofInt b.toNat = b := by
  rw [UInt8.ofInt, Int.emod_eq_of_lt (by omega) (by exact_mod_cast b.toNat_lt)]
  exact UInt8.ofNat_toNat

theorem excluded_byte (src : TextSource) (b : UInt8) : excluded src b.toNat = some b := by
  have hlt : (b.toNat : Int) < 256 := by exact_mod_cast b.toNat_lt
  rw [excluded, if_pos (by simp [hlt]), ofInt_toNat]

/-- No text has this length: there are no negative lengths, and a terminator takes a byte. -/
def Cramped (n : Int) (terminator : Option UInt8) : Prop :=
  n < 0 ∨ n = 0 ∧ terminator.isSome

/-- What is true of a text of exactly `n` bytes, from any source and however many draws may be
refused before giving up: as long as it does not give up. -/
structure MakesText (src : TextSource) (n : Int) (terminator : Option UInt8) : Prop where
  /-- A length is refused before anything is drawn. -/
  cramped : Cramped n terminator → ∀ {σ : Type} [RandomSource σ] (s : σ) (tries : Nat),
    text tries src n (terminated terminator) s =
      (.error (if n < 0 then .negativeText n else .noRoom n), s)
  /-- Any other length is met by a clean body and the terminator. More tries give the same. -/
  exact : ¬ Cramped n terminator → ∀ {σ : Type} [RandomSource σ] (s : σ) (tries : Nat),
    ¬ (text tries src n (terminated terminator)).Stalls s →
    ∃ bs t, (((bs ++ terminator.toList).length : Nat) : Int) = n ∧
      src.Clean bs.length terminator bs ∧
      ∀ more ≥ tries, (text more src n (terminated terminator)).Gives s
        (bs ++ terminator.toList) t
  /-- However little room is left for a character, some word is accepted at once. -/
  character : src = .encoded .utf8 → ∀ room > 0, ∃ (w : UInt64) (bs : List UInt8),
    ∀ {σ : Type} [RandomSource σ] (s : σ), (RandomSource.next s).1 = w →
      ∀ tries > 0, ∀ fuel > 0,
        (Draw.character tries room terminator fuel).Gives s bs (RandomSource.next s).2
  /-- Some word gives a byte of the table at once. -/
  byte : src ≠ .encoded .utf8 → ∃ (w : UInt64) (b : UInt8),
    ∀ {σ : Type} [RandomSource σ] (s : σ), (RandomSource.next s).1 = w →
      ∀ tries > 0, ∀ fuel > 0,
        (tableByte tries src.table terminator fuel).Gives s b (RandomSource.next s).2
  /-- Some source ends the text, with any number of tries. -/
  ends : ∃ s : Script, ∀ tries > 0, ¬ (text tries src n (terminated terminator)).Stalls s

section

variable (src : TextSource) (n : Int)

theorem text_cramped (terminator : Option UInt8) (h : Cramped n terminator) (s : σ)
    (tries : Nat) : text tries src n (terminated terminator) s =
      (.error (if n < 0 then .negativeText n else .noRoom n), s) := by
  rw [text.eq_def]
  by_cases hn : n < 0
  · rw [if_pos hn, if_pos hn]
    rfl
  · obtain ⟨rfl, ht⟩ := h.resolve_left hn
    obtain ⟨b, rfl⟩ := Option.isSome_iff_exists.mp ht
    rfl

theorem text_fits (terminator : Option UInt8) (h : ¬ Cramped n terminator) (tries : Nat) :
    (text tries src n (terminated terminator) : Draw σ (List UInt8)) =
      body tries src (n.toNat - terminator.toList.length) terminator >>=
        fun bs => pure (bs ++ terminator.toList) := by
  rw [Cramped, not_or] at h
  cases terminator with
  | none =>
    rw [terminated, Option.map_none, text_none tries src n (by omega)]
    simp only [Option.toList_none, List.length_nil, Nat.sub_zero, List.append_nil, bind_pure]
  | some b =>
    have hn : n ≠ 0 := fun hn => h.2 ⟨hn, rfl⟩
    rw [terminated, Option.map_some, text_some tries src n _ (by omega), excluded_byte,
      ofInt_toNat]
    rfl

theorem text_exact (terminator : Option UInt8) (h : ¬ Cramped n terminator) (s : σ)
    (tries : Nat) (hs : ¬ (text tries src n (terminated terminator)).Stalls s) :
    ∃ bs t, (((bs ++ terminator.toList).length : Nat) : Int) = n ∧
      src.Clean bs.length terminator bs ∧
      ∀ more ≥ tries, (text more src n (terminated terminator)).Gives s
        (bs ++ terminator.toList) t := by
  have hfits := text_fits src n terminator h tries (σ := σ)
  rw [hfits] at hs
  obtain ⟨bs, t, hbs, hclean⟩ :=
    (body_yields tries src (n.toNat - terminator.toList.length) terminator s).resolve_left
      fun hb => hs (hb.bind _)
  have htext : (text tries src n (terminated terminator)).Gives s
      (bs ++ terminator.toList) t := hfits ▸ hbs.map _
  refine ⟨bs, t, ?_, ⟨rfl, hclean.spells, hclean.free⟩, fun more hm => ?_⟩
  · rw [List.length_append, hclean.length]
    rw [Cramped, not_or] at h
    cases terminator with
    | none => simp; omega
    | some b =>
      have hn : n ≠ 0 := fun hn => h.2 ⟨hn, rfl⟩
      simp
      omega
  · exact (text_extends src n (terminated terminator) tries more hm).gives htext

theorem exists_script_text (terminator : Option UInt8) :
    ∃ s : Script, ∀ tries > 0,
      ¬ (text tries src n (terminated terminator)).Stalls s := by
  by_cases h : Cramped n terminator
  · refine ⟨⟨[]⟩, fun tries _ hs => ?_⟩
    obtain ⟨t, ht⟩ := hs
    rw [text_cramped src n terminator h, Prod.mk.injEq, Except.error.injEq] at ht
    by_cases hn : n < 0 <;> simp [hn] at ht
  · obtain ⟨s, t, bs, hbs⟩ := exists_script_body src (n.toNat - terminator.toList.length) terminator
    refine ⟨s, fun tries htries hs => ?_⟩
    obtain ⟨tries, rfl⟩ := Nat.exists_eq_add_one_of_ne_zero (Nat.pos_iff_ne_zero.mp htries)
    obtain ⟨u, hu⟩ := hs
    rw [text_fits src n terminator h, (hbs tries).map (· ++ terminator.toList)] at hu
    cases hu

/-- Texts are exact and clean. -/
theorem makesText (terminator : Option UInt8) : MakesText src n terminator where
  cramped h _ _ s tries := text_cramped src n terminator h s tries
  exact h _ _ s tries hs := text_exact src n terminator h s tries hs
  character h room hroom := by
    obtain ⟨w, hw⟩ := exists_word_character room terminator
    refine ⟨w, [UInt8.ofNat (letter terminator)], fun s hs tries htries fuel hfuel => ?_⟩
    have hgives := hw s hs (tries - 1) (fuel - 1)
    rwa [Nat.sub_add_cancel htries, Nat.sub_add_cancel hfuel] at hgives
  byte h := by
    obtain ⟨w, hw⟩ := exists_word_tableByte src h terminator
    refine ⟨w, UInt8.ofNat (letter terminator), fun s hs tries htries fuel hfuel => ?_⟩
    have hgives := hw s hs (tries - 1) (fuel - 1)
    rwa [Nat.sub_add_cancel htries, Nat.sub_add_cancel hfuel] at hgives
  ends := exists_script_text src n terminator

end

end FormatFuzz.Draw
