import FormatFuzz.Proofs.Random.Draws
import Mathlib.Data.Set.Function

/-!
# Uniform draws of a range

A draw of a range takes an offset from its source and gives the member at that offset. The width of
the range and the sum with its lower end are computed modulo `2 ^ 64`; still, the numbers up to the
width and the members of the range stand one to one, whatever the signs of its ends and also where
the members are all words and their number is none.
-/

set_option autoImplicit false

namespace FormatFuzz

def Random.Error.isEmptyRange : Random.Error → Bool
  | .emptyInt .. => true
  | .emptyUint .. => true
  | _ => false

namespace Draw

variable {σ : Type} [RandomSource σ]

section

variable {α : Type} (num : α → Int) (toWord : α → UInt64) (lo hi : α)

def offsets : Set UInt64 :=
  {k | (k.toNat : Int) ≤ num hi - num lo}

def between : Set α :=
  {x | num lo ≤ num x ∧ num x ≤ num hi}

/-- What a draw of the members of a range does with at most some number of tries. An empty range is
refused, and nothing is taken. From any other range it gives the member at the offset taken, and
stalls only where all words it may try are surplus; every offset is given by some word at once, and offsets and
members stand one to one. -/
structure DrawsExactly (draw : ∀ {σ : Type} [RandomSource σ], Nat → Draw σ α)
    (value : UInt64 → α) (refusal : Random.Error) : Prop where
  empty : ∀ {σ : Type} [RandomSource σ] (tries : Nat) (s : σ),
    (∃ e t, draw tries s = (.error e, t) ∧ e.isEmptyRange = true) ↔ num hi < num lo
  refused : num hi < num lo → ∀ {σ : Type} [RandomSource σ] (tries : Nat) (s : σ),
    draw tries s = (.error refusal, s)
  stalled : num lo ≤ num hi → ∀ {σ : Type} [RandomSource σ] (tries : Nat) (s : σ),
    (draw tries).Stalls s ↔ ¬ Settles tries (members (toWord lo) (toWord hi)) s
  drawn : num lo ≤ num hi → ∀ {σ : Type} [RandomSource σ] (tries : Nat) (s : σ),
    (offset tries (toWord lo) (toWord hi)).Stalls s ∧ (draw tries).Stalls s ∨
      ∃ k ∈ offsets num lo hi, ∃ t, (offset tries (toWord lo) (toWord hi)).Gives s k t ∧
        (draw tries).Gives s (value k) t
  reached : num lo ≤ num hi → ∀ k ∈ offsets num lo hi,
    ∃ w : UInt64, ∀ {σ : Type} [RandomSource σ] (s : σ), (RandomSource.next s).1 = w →
      ∀ tries, (draw (tries + 1)).Gives s (value k) (RandomSource.next s).2
  bijective : num lo ≤ num hi → Set.BijOn value (offsets num lo hi) (between num lo hi)

/-- The width of a range, computed in words and counted without bound, is the same number. -/
def SpansExactly : Prop :=
  num lo ≤ num hi → ((toWord hi - toWord lo).toNat : Int) = num hi - num lo

theorem mem_offsets (hspan : SpansExactly num toWord lo hi) (h : num lo ≤ num hi) (k : UInt64) :
    k ∈ offsets num lo hi ↔ k.toNat ≤ (toWord hi - toWord lo).toNat := by
  rw [offsets, Set.mem_ofPred_eq, ← hspan h, Nat.cast_le]

theorem offset_drawn (hspan : SpansExactly num toWord lo hi) (h : num lo ≤ num hi) (tries : Nat)
    (value : UInt64 → α) (s : σ) :
    (offset tries (toWord lo) (toWord hi)).Stalls s ∧
        (offset tries (toWord lo) (toWord hi) >>= fun k => pure (value k)).Stalls s ∨
      ∃ k ∈ offsets num lo hi, ∃ t, (offset tries (toWord lo) (toWord hi)).Gives s k t ∧
        (offset tries (toWord lo) (toWord hi) >>= fun k => pure (value k)).Gives s
          (value k) t := by
  rcases offset_yields (toWord lo) (toWord hi) tries s with hs | ⟨k, t, hk, hle⟩
  · exact .inl ⟨hs, hs.bind _⟩
  · exact .inr ⟨k, (mem_offsets num toWord lo hi hspan h k).mpr hle, t, hk, hk.map value⟩

theorem drawsExactly_of_offset (draw : ∀ {σ : Type} [RandomSource σ], Nat → Draw σ α)
    (value : UInt64 → α) (refusal : Random.Error) (hempty : refusal.isEmptyRange = true)
    (hspan : SpansExactly num toWord lo hi)
    (hrefused : num hi < num lo → ∀ {σ : Type} [RandomSource σ] (tries : Nat) (s : σ),
      draw tries s = (.error refusal, s))
    (hdraw : num lo ≤ num hi → ∀ {σ : Type} [RandomSource σ] (tries : Nat),
      (draw tries : Draw σ α) =
        offset tries (toWord lo) (toWord hi) >>= fun k => pure (value k))
    (hbij : num lo ≤ num hi → Set.BijOn value (offsets num lo hi) (between num lo hi)) :
    DrawsExactly num toWord lo hi draw value refusal where
  empty tries s := by
    refine ⟨?_, fun h => ⟨refusal, s, hrefused h tries s, hempty⟩⟩
    rintro ⟨e, t, he, hr⟩
    by_contra h
    rw [hdraw (not_lt.mp h)] at he
    rcases offset_drawn num toWord lo hi hspan (not_lt.mp h) tries value s with
      ⟨-, u, hu⟩ | ⟨k, -, u, -, hu⟩
    · rw [he] at hu
      cases hu
      cases hr
    · rw [Gives, he] at hu
      cases hu
  refused := hrefused
  stalled h _ _ tries s := by
    rw [hdraw h]
    refine ⟨fun hstalled hs => ?_, fun hs => (offset_stalls _ _ tries s hs).bind _⟩
    obtain ⟨u, hu⟩ := hstalled
    obtain ⟨k, t, hk, -⟩ := offset_gives _ _ tries s hs
    rw [hk.map value] at hu
    cases hu
  drawn h _ _ tries s := by
    rw [hdraw h]
    exact offset_drawn num toWord lo hi hspan h tries value s
  reached h k hk := by
    obtain ⟨w, hw⟩ := exists_word_offset (toWord lo) (toWord hi) k
      ((mem_offsets num toWord lo hi hspan h k).mp hk)
    refine ⟨w, fun s hs tries => ?_⟩
    rw [hdraw h]
    exact (hw s hs tries).map value
  bijective := hbij

end

section

variable (lo hi : UInt64)

theorem le_of_cast_le (h : (lo.toNat : Int) ≤ hi.toNat) : lo ≤ hi :=
  UInt64.le_iff_toNat_le.mpr (Int.ofNat_le.mp h)

theorem uint_spansExactly :
    SpansExactly (fun x : UInt64 => (x.toNat : Int)) id lo hi := by
  intro h
  have hle := le_of_cast_le lo hi h
  change ((hi - lo).toNat : Int) = (hi.toNat : Int) - lo.toNat
  rw [UInt64.toNat_sub_of_le hi lo hle]
  exact Int.ofNat_sub (UInt64.le_iff_toNat_le.mp hle)

theorem injective_uintAt : Function.Injective (uintAt lo hi) := by
  intro j k hjk
  by_cases ha : hi - lo = 0xffffffffffffffff
  · rwa [uintAt, uintAt, if_pos ha, if_pos ha] at hjk
  · rw [uintAt, uintAt, if_neg ha, if_neg ha] at hjk
    exact (UInt64.add_right_inj lo).mp hjk

theorem bijOn_uintAt (h : (lo.toNat : Int) ≤ hi.toNat) :
    Set.BijOn (uintAt lo hi) (offsets (fun x : UInt64 => (x.toNat : Int)) lo hi)
      (between (fun x : UInt64 => (x.toNat : Int)) lo hi) := by
  have hmem := mem_offsets _ id lo hi (uint_spansExactly lo hi) h
  refine ⟨fun k hk => ?_, (injective_uintAt lo hi).injOn, fun x hx => ?_⟩
  · obtain ⟨hlo, hhi⟩ := uintAt_between lo hi (le_of_cast_le lo hi h) k ((hmem k).mp hk)
    exact ⟨Int.ofNat_le.mpr hlo, Int.ofNat_le.mpr hhi⟩
  · obtain ⟨k, hk, hx⟩ := exists_uintAt lo hi x (Int.ofNat_le.mp hx.1) (Int.ofNat_le.mp hx.2)
    exact ⟨k, (hmem k).mpr hk, hx⟩

theorem uint_exact : DrawsExactly (fun x : UInt64 => (x.toNat : Int)) id lo hi
    (fun tries => uint tries lo hi) (uintAt lo hi) (.emptyUint lo.toNat hi.toNat) := by
  refine drawsExactly_of_offset _ id lo hi _ _ _ rfl (uint_spansExactly lo hi)
    (fun h σ _ tries s => ?_)
    (fun h σ _ tries => uint_eq lo hi tries (le_of_cast_le lo hi h)) (bijOn_uintAt lo hi)
  have hlt : hi < lo := UInt64.lt_iff_toNat_lt.mpr (Int.ofNat_lt.mp h)
  exact congrFun (if_pos hlt) s

end

section

variable (lo hi : Int64)

theorem int_spansExactly : SpansExactly Int64.toInt Int64.toUInt64 lo hi :=
  fun h => toNat_signed_span lo hi (Int64.le_iff_toInt_le.mpr h)

theorem injective_intAt : Function.Injective (intAt lo hi) := by
  intro j k hjk
  by_cases ha : hi.toUInt64 - lo.toUInt64 = 0xffffffffffffffff
  · rw [intAt, intAt, if_pos ha, if_pos ha] at hjk
    exact congrArg Int64.toUInt64 hjk
  · rw [intAt, intAt, if_neg ha, if_neg ha] at hjk
    exact congrArg Int64.toUInt64 ((Int64.add_right_inj lo).mp hjk)

theorem bijOn_intAt (h : lo.toInt ≤ hi.toInt) :
    Set.BijOn (intAt lo hi) (offsets Int64.toInt lo hi) (between Int64.toInt lo hi) := by
  have hmem := mem_offsets _ _ lo hi (int_spansExactly lo hi) h
  refine ⟨fun k hk => ?_, (injective_intAt lo hi).injOn, fun x hx => ?_⟩
  · exact intAt_between lo hi (Int64.le_iff_toInt_le.mpr h) k ((hmem k).mp hk)
  · obtain ⟨k, hk, hx⟩ := exists_intAt lo hi x hx.1 hx.2
    exact ⟨k, (hmem k).mpr hk, hx⟩

theorem int_exact : DrawsExactly Int64.toInt Int64.toUInt64 lo hi
    (fun tries => int tries lo hi) (intAt lo hi) (.emptyInt lo.toInt hi.toInt) := by
  refine drawsExactly_of_offset _ _ lo hi _ _ _ rfl (int_spansExactly lo hi)
    (fun h σ _ tries s => ?_)
    (fun h σ _ tries => int_eq lo hi tries (Int64.le_iff_toInt_le.mpr h)) (bijOn_intAt lo hi)
  have hlt : hi < lo := Int64.lt_iff_toInt_lt.mpr h
  exact congrFun (if_pos hlt) s

theorem count_refused (h : lo < 0 ∨ hi < 0) (tries : Nat) (s : σ) :
    count tries lo hi s = (.error (.negativeCount lo.toInt hi.toInt), s) :=
  congrFun (if_pos (by simpa using h)) s

end

/-- Draws of ranges of words, with a sign and without one, are exact up to the ends of the words,
and a draw of a count without negative ends is one of them. -/
theorem ranges_exact :
    (∀ lo hi : Int64, DrawsExactly Int64.toInt Int64.toUInt64 lo hi
      (fun tries => int tries lo hi) (intAt lo hi) (.emptyInt lo.toInt hi.toInt)) ∧
    (∀ lo hi : UInt64, DrawsExactly (fun x : UInt64 => (x.toNat : Int)) id lo hi
      (fun tries => uint tries lo hi) (uintAt lo hi) (.emptyUint lo.toNat hi.toNat)) ∧
    ∀ (lo hi : Int64) {σ : Type} [RandomSource σ],
      (lo < 0 ∨ hi < 0 → ∀ (tries : Nat) (s : σ),
        count tries lo hi s = (.error (.negativeCount lo.toInt hi.toInt), s)) ∧
      (0 ≤ lo → 0 ≤ hi → ∀ tries, (count tries lo hi : Draw σ Int64) = int tries lo hi) :=
  ⟨int_exact, uint_exact, fun lo hi _ _ => ⟨count_refused lo hi, count_eq lo hi⟩⟩

theorem ranges_exact_all : Int64.minValue.toInt ≤ Int64.maxValue.toInt ∧
    Set.BijOn (intAt Int64.minValue Int64.maxValue)
      (offsets Int64.toInt Int64.minValue Int64.maxValue)
      (between Int64.toInt Int64.minValue Int64.maxValue) ∧
    intAt Int64.minValue Int64.maxValue 0x8000000000000000 = Int64.minValue ∧
    int 1 1 0 (Pcg.ofSeed 1) = (.error (.emptyInt 1 0), Pcg.ofSeed 1) :=
  ⟨by decide, (ranges_exact.1 Int64.minValue Int64.maxValue).bijective (by decide), by decide,
    (ranges_exact.1 1 0).refused (by decide) 1 (Pcg.ofSeed 1)⟩

end Draw

end FormatFuzz
