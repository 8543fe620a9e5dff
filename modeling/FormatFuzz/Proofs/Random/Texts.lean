import FormatFuzz.Proofs.Random.Draws
import FormatFuzz.Random.Text

/-!
# What random texts are made of

A text has exactly the length that was asked for, and before its terminator no such byte: a
character never takes more than the room that is left, and a table gives one byte at a time. UTF-8
text is a sequence of whole characters, other text has bytes of its table. Only an acceptable word
may be missing, and at every place there is one: not all words are refused. How many may be is a
matter of the number of tries and not of the text.
-/

set_option autoImplicit false

namespace FormatFuzz

/-- Bytes that a source of text can put together: the encoded forms of characters, which are Unicode
scalar values, or bytes of its table. -/
def TextSource.Spells (src : TextSource) (bs : List UInt8) : Prop :=
  match src with
  | .encoded .utf8 => ∃ cs : List Char, bs = cs.flatMap String.utf8EncodeChar
  | src => ∀ b ∈ bs, b ∈ src.table

theorem TextSource.spells_table (src : TextSource) (h : src ≠ .encoded .utf8) (bs : List UInt8) :
    src.Spells bs ↔ ∀ b ∈ bs, b ∈ src.table := by
  rw [TextSource.Spells]
  exact h

structure TextSource.Clean (src : TextSource) (n : Nat) (exclude : Option UInt8)
    (bs : List UInt8) : Prop where
  length : bs.length = n
  spells : src.Spells bs
  free : ∀ b ∈ exclude, b ∉ bs

namespace Draw

variable {σ : Type} [RandomSource σ]

theorem toInt_greatestIn (room : Nat) : (greatestIn room).toInt =
    if room = 1 then 0x7f else if room = 2 then 0x7ff else if room = 3 then 0xffff
      else 0x10ffff := by
  rw [greatestIn]
  split
  · rfl
  · split
    · rfl
    · split <;> rfl

theorem ascii_le_greatestIn (room : Nat) : 0x7f ≤ (greatestIn room).toInt := by
  rw [toInt_greatestIn]
  split_ifs <;> omega

theorem zero_le_greatestIn (room : Nat) : (0 : Int64) ≤ greatestIn room := by
  have h := ascii_le_greatestIn room
  rw [Int64.le_iff_toInt_le, Int64.toInt_zero]
  omega

theorem utf8Size_ofNat (n : Nat) (hv : n.isValidChar) : (Char.ofNat n).utf8Size =
    if n ≤ 0x7f then 1 else if n ≤ 0x7ff then 2 else if n ≤ 0xffff then 3 else 4 := by
  have hval : (Char.ofNat n).val.toNat = n := by
    rw [Char.ofNat, dif_pos hv]
    rfl
  rw [Char.utf8Size]
  simp [UInt32.le_iff_toNat_le, hval]

theorem utf8Size_le (n room : Nat) (hv : n.isValidChar) (hroom : 0 < room)
    (h : (n : Int) ≤ (greatestIn room).toInt) : (Char.ofNat n).utf8Size ≤ room := by
  rw [toInt_greatestIn] at h
  rw [utf8Size_ofNat n hv]
  split_ifs at h ⊢ <;> omega

theorem any_contains_iff (exclude : Option UInt8) (bs : List UInt8) :
    exclude.any bs.contains = true ↔ ∃ b ∈ exclude, b ∈ bs := by
  cases exclude <;> simp

theorem character_yields (tries room : Nat) (exclude : Option UInt8) (hroom : 0 < room)
    (fuel : Nat) :
    Yields (fun bs => ∃ c : Char, bs = String.utf8EncodeChar c ∧ c.utf8Size ≤ room ∧
        ∀ b ∈ exclude, b ∉ bs)
      (character tries room exclude fuel : Draw σ (List UInt8)) := by
  induction fuel with
  | zero => exact yields_stalled _
  | succ fuel ih =>
    refine (int_yields 0 (greatestIn room) tries (zero_le_greatestIn room)).bind
      fun c hc => ?_
    rw [Int64.toInt_zero] at hc
    by_cases hv : c.toInt.toNat.isValidChar
    · by_cases hb : exclude.any (String.utf8EncodeChar (Char.ofNat c.toInt.toNat)).contains
      · simpa only [if_pos hv, if_pos hb] using ih
      · simp only [if_pos hv, if_neg hb]
        rw [any_contains_iff] at hb
        refine yields_pure _ _ ⟨_, rfl, utf8Size_le _ room hv hroom (by omega), ?_⟩
        exact fun b hx hm => hb ⟨b, hx, hm⟩
    · simpa only [if_neg hv] using ih

theorem character_extends (room : Nat) (exclude : Option UInt8) (tries more fuel extra : Nat)
    (h : tries ≤ more) (hf : fuel ≤ extra) :
    Extends (character more room exclude extra : Draw σ (List UInt8))
      (character tries room exclude fuel) := by
  induction fuel generalizing extra with
  | zero => exact extends_stalled _
  | succ fuel ih =>
    obtain ⟨extra, rfl⟩ := Nat.exists_eq_add_one_of_ne_zero (show extra ≠ 0 by omega)
    have ih := ih extra (by omega)
    refine (int_extends 0 _ tries more (zero_le_greatestIn room) h).bind fun c => ?_
    by_cases hv : c.toInt.toNat.isValidChar
    · by_cases hb : exclude.any (String.utf8EncodeChar (Char.ofNat c.toInt.toNat)).contains
      · simpa only [if_pos hv, if_pos hb] using ih
      · simpa only [if_pos hv, if_neg hb] using Extends.refl _
    · simpa only [if_neg hv] using ih

theorem characters_yields (tries : Nat) (exclude : Option UInt8) (fuel room : Nat)
    (h : room ≤ fuel) :
    Yields (TextSource.Clean (.encoded .utf8) room exclude)
      (characters tries exclude fuel room : Draw σ (List UInt8)) := by
  have hnil : TextSource.Clean (.encoded .utf8) 0 exclude [] := ⟨rfl, ⟨[], rfl⟩, by simp⟩
  induction fuel generalizing room with
  | zero =>
    obtain rfl : room = 0 := by omega
    exact yields_pure _ _ hnil
  | succ fuel ih =>
    by_cases hroom : room = 0
    · rw [characters, if_pos hroom, hroom]
      exact yields_pure _ _ hnil
    · rw [characters, if_neg hroom]
      refine (character_yields tries room exclude (by omega) tries).bind fun bs hbs => ?_
      obtain ⟨c, rfl, hsize, hfree⟩ := hbs
      have hpos := c.utf8Size_pos
      rw [String.length_utf8EncodeChar]
      refine (ih (room - c.utf8Size) (by omega)).bind fun rest hrest => yields_pure _ _ ?_
      obtain ⟨hlen, ⟨cs, rfl⟩, hrest⟩ := hrest
      refine ⟨?_, ⟨c :: cs, by rw [List.flatMap_cons]⟩, fun b hb hm => ?_⟩
      · rw [List.length_append, hlen, String.length_utf8EncodeChar]
        omega
      · exact (List.mem_append.mp hm).elim (hfree b hb) (hrest b hb)

theorem characters_extends (exclude : Option UInt8) (tries more fuel room : Nat)
    (h : tries ≤ more) :
    Extends (characters more exclude fuel room : Draw σ (List UInt8))
      (characters tries exclude fuel room) := by
  induction fuel generalizing room with
  | zero => exact Extends.refl _
  | succ fuel ih =>
    by_cases hroom : room = 0
    · rw [characters, characters, if_pos hroom, if_pos hroom]
      exact Extends.refl _
    · rw [characters, characters, if_neg hroom, if_neg hroom]
      refine (character_extends room exclude tries more tries more h h).bind fun bs => ?_
      exact (ih _).bind fun _ => Extends.refl _

theorem ascii_mem_table (src : TextSource) (h : src ≠ .encoded .utf8) (n : Nat) (hn : n < 128) :
    UInt8.ofNat n ∈ src.table := by
  cases src with
  | binary => exact List.mem_map_of_mem (List.mem_range.mpr (by omega))
  | encoded e =>
    cases e with
    | utf8 => exact absurd rfl h
    | ascii => exact List.mem_map_of_mem (List.mem_range.mpr hn)
    | latin part =>
      refine List.mem_map_of_mem (List.mem_filter.mpr ⟨List.mem_range.mpr (by omega), ?_⟩)
      rw [Encoding.isDefined, if_pos hn]

theorem length_table_le (src : TextSource) : src.table.length ≤ 256 := by
  cases src with
  | binary => simp [TextSource.table]
  | encoded e =>
    cases e with
    | utf8 => simp [TextSource.table, Encoding.table]
    | ascii => simp [TextSource.table, Encoding.table]
    | latin part =>
      have h := List.length_filter_le (Encoding.isDefined part) (List.range 256)
      rw [List.length_range] at h
      simpa [TextSource.table, Encoding.table] using h

section

variable (table : List UInt8) (ht : 0 < table.length) (hlt : table.length ≤ 256)

include ht hlt

theorem tableByte_yields (tries : Nat) (exclude : Option UInt8) (fuel : Nat) :
    Yields (fun b => b ∈ table ∧ exclude ≠ some b)
      (tableByte tries table exclude fuel : Draw σ UInt8) := by
  induction fuel with
  | zero => exact yields_stalled _
  | succ fuel ih =>
    refine (position_yields tries table.length ht (by omega)).bind fun i hi => ?_
    by_cases hb : exclude = some (table.getD i 0)
    · simpa only [if_pos hb] using ih
    · simp only [if_neg hb]
      refine yields_pure _ _ ⟨?_, hb⟩
      rw [List.getD_eq_getElem table 0 hi]
      exact List.getElem_mem hi

theorem tableBytes_yields (tries : Nat) (exclude : Option UInt8) (n : Nat) :
    Yields (fun bs => bs.length = n ∧ (∀ b ∈ bs, b ∈ table) ∧ ∀ b ∈ exclude, b ∉ bs)
      (tableBytes tries table exclude n : Draw σ (List UInt8)) := by
  induction n with
  | zero => exact yields_pure _ _ (by simp)
  | succ n ih =>
    refine (tableByte_yields table ht hlt tries exclude tries).bind fun b hb => ?_
    refine ih.bind fun bs hbs => yields_pure _ _ ⟨?_, ?_, fun x hx hm => ?_⟩
    · rw [List.length_cons, hbs.1]
    · exact List.forall_mem_cons.mpr ⟨hb.1, hbs.2.1⟩
    · rcases List.mem_cons.mp hm with rfl | hm
      · exact hb.2 hx
      · exact hbs.2.2 x hx hm

end

theorem tableByte_extends (table : List UInt8) (exclude : Option UInt8)
    (tries more fuel extra : Nat) (h : tries ≤ more) (hf : fuel ≤ extra) :
    Extends (tableByte more table exclude extra : Draw σ UInt8)
      (tableByte tries table exclude fuel) := by
  induction fuel generalizing extra with
  | zero => exact extends_stalled _
  | succ fuel ih =>
    obtain ⟨extra, rfl⟩ := Nat.exists_eq_add_one_of_ne_zero (show extra ≠ 0 by omega)
    refine (position_extends table.length tries more h).bind fun i => ?_
    by_cases hb : exclude = some (table.getD i 0)
    · simpa only [if_pos hb] using ih extra (by omega)
    · simpa only [if_neg hb] using Extends.refl _

theorem tableBytes_extends (table : List UInt8) (exclude : Option UInt8) (tries more n : Nat)
    (h : tries ≤ more) :
    Extends (tableBytes more table exclude n : Draw σ (List UInt8))
      (tableBytes tries table exclude n) := by
  induction n with
  | zero => exact Extends.refl _
  | succ n ih =>
    refine (tableByte_extends table exclude tries more tries more h h).bind fun b => ?_
    exact ih.bind fun _ => Extends.refl _

theorem length_table_pos (src : TextSource) (h : src ≠ .encoded .utf8) : 0 < src.table.length :=
  List.length_pos_of_mem (ascii_mem_table src h 0 (by omega))

theorem body_utf8 (tries n : Nat) (exclude : Option UInt8) :
    (body tries (.encoded .utf8) n exclude : Draw σ (List UInt8)) =
      characters tries exclude n n := rfl

theorem body_table (tries : Nat) (src : TextSource) (h : src ≠ .encoded .utf8) (n : Nat)
    (exclude : Option UInt8) :
    (body tries src n exclude : Draw σ (List UInt8)) = tableBytes tries src.table exclude n := by
  rw [body]
  exact h

theorem body_yields (tries : Nat) (src : TextSource) (n : Nat) (exclude : Option UInt8) :
    Yields (src.Clean n exclude) (body tries src n exclude : Draw σ (List UInt8)) := by
  by_cases hs : src = .encoded .utf8
  · rw [hs, body_utf8]
    exact characters_yields tries exclude n n le_rfl
  · rw [body_table tries src hs]
    have hyields := tableBytes_yields (σ := σ) src.table (length_table_pos src hs)
      (length_table_le src) tries exclude n
    refine hyields.mono fun bs hbs => ?_
    exact ⟨hbs.1, (TextSource.spells_table src hs bs).mpr hbs.2.1, hbs.2.2⟩

theorem body_extends (src : TextSource) (n : Nat) (exclude : Option UInt8) (tries more : Nat)
    (h : tries ≤ more) :
    Extends (body more src n exclude : Draw σ (List UInt8)) (body tries src n exclude) := by
  by_cases hs : src = .encoded .utf8
  · rw [hs, body_utf8, body_utf8]
    exact characters_extends exclude tries more n n h
  · rw [body_table more src hs, body_table tries src hs]
    exact tableBytes_extends src.table exclude tries more n h

theorem text_none (tries : Nat) (src : TextSource) (n : Int) (hn : 0 ≤ n) :
    (text tries src n none : Draw σ (List UInt8)) = body tries src n.toNat none := by
  rw [text.eq_def, if_neg (by omega)]

theorem text_some (tries : Nat) (src : TextSource) (n t : Int) (hn : 1 ≤ n) :
    (text tries src n (some t) : Draw σ (List UInt8)) =
      body tries src (n.toNat - 1) (excluded src t) >>= fun bs => pure (bs ++ [UInt8.ofInt t]) := by
  rw [text.eq_def, if_neg (by omega)]
  exact if_neg (by omega)

theorem text_extends (src : TextSource) (n : Int) (terminator : Option Int)
    (tries more : Nat) (h : tries ≤ more) :
    Extends (text more src n terminator : Draw σ (List UInt8))
      (text tries src n terminator) := by
  by_cases hn : n < 0
  · rw [text.eq_def, text.eq_def tries, if_pos hn, if_pos hn]
    exact Extends.refl _
  cases terminator with
  | none =>
    rw [text_none more src n (by omega), text_none tries src n (by omega)]
    exact body_extends src _ none tries more h
  | some t =>
    by_cases hone : n < 1
    · rw [text.eq_def, text.eq_def tries, if_neg hn, if_neg hn]
      simpa only [if_pos hone] using Extends.refl _
    · rw [text_some more src n t (by omega), text_some tries src n t (by omega)]
      exact (body_extends src _ _ tries more h).bind fun _ => Extends.refl _

theorem text_yields (tries : Nat) (src : TextSource) (n : Int) (terminator : Option Int)
    (hn : 0 ≤ n) (ht : terminator.isSome → 1 ≤ n) :
    Yields (fun bs => bs.length = n.toNat)
      (text tries src n terminator : Draw σ (List UInt8)) := by
  cases terminator with
  | none =>
    rw [text_none tries src n hn]
    exact (body_yields tries src n.toNat none).mono fun bs hbs => hbs.length
  | some t =>
    have hone := ht rfl
    rw [text_some tries src n t hone]
    refine (body_yields tries src (n.toNat - 1) (excluded src t)).bind fun bs hbs => ?_
    exact yields_pure _ _ (by rw [List.length_append, hbs.length, List.length_singleton]; omega)

end Draw

end FormatFuzz
