import FormatFuzz.Random.Draw
import Mathlib.Data.Nat.Bitwise
import Mathlib.Tactic.Linarith

/-!
# What a draw gives

A draw takes words from its source until one is acceptable, and gives up after so many of them.
Whether it ends is therefore a matter of the words to come: `Settles tries n s` says that a number
below `n` is found from the state `s`. A draw of a range then ends with a member of the range, and every
member can come out. A draw that may try more often ends with the same result wherever one that may
try less often ends.
-/

set_option autoImplicit false

namespace FormatFuzz.Draw

variable {σ α β : Type}

/-- From the state `s` a draw gives `a` and leaves the source at `t`. -/
def Gives (d : Draw σ α) (s : σ) (a : α) (t : σ) : Prop :=
  d s = (.ok a, t)

def Stalls (d : Draw σ α) (s : σ) : Prop :=
  ∃ t, d s = (.error .stalled, t)

def Yields (P : α → Prop) (d : Draw σ α) : Prop :=
  ∀ s, d.Stalls s ∨ ∃ a t, d.Gives s a t ∧ P a

theorem bind_apply (d : Draw σ α) (f : α → Draw σ β) (s : σ) :
    (d >>= f) s = match d s with
      | (.ok a, t) => f a t
      | (.error e, t) => (.error e, t) := by
  change ExceptT.bindCont f (d s).1 (d s).2 = _
  rcases d s with ⟨_ | a, t⟩ <;> rfl

theorem gives_pure (a : α) (s : σ) : (pure a : Draw σ α).Gives s a s := rfl

theorem Gives.bind {d : Draw σ α} {f : α → Draw σ β} {s t u : σ} {a : α} {b : β}
    (hd : d.Gives s a t) (hf : (f a).Gives t b u) : (d >>= f).Gives s b u := by
  rw [Gives, bind_apply, hd]
  exact hf

theorem Gives.value {d : Draw σ α} {s t u : σ} {a b : α} (ha : d.Gives s a t)
    (hb : d.Gives s b u) : a = b := by
  have h : (Except.ok a, t) = (Except.ok b, u) := ha.symm.trans hb
  exact Except.ok.inj (congrArg Prod.fst h)

theorem Gives.map {d : Draw σ α} (f : α → β) {s t : σ} {a : α} (hd : d.Gives s a t) :
    (d >>= fun a => pure (f a)).Gives s (f a) t :=
  hd.bind (gives_pure (f a) t)

theorem Stalls.bind {d : Draw σ α} (f : α → Draw σ β) {s : σ} (hd : d.Stalls s) :
    (d >>= f).Stalls s := by
  obtain ⟨t, ht⟩ := hd
  exact ⟨t, by rw [bind_apply, ht]⟩

theorem Gives.bind_stalls {d : Draw σ α} {f : α → Draw σ β} {s t : σ} {a : α}
    (hd : d.Gives s a t) (hf : (f a).Stalls t) : (d >>= f).Stalls s := by
  obtain ⟨u, hu⟩ := hf
  refine ⟨u, ?_⟩
  rw [bind_apply, hd]
  exact hu

theorem yields_pure (P : α → Prop) (a : α) (ha : P a) : Yields P (pure a : Draw σ α) :=
  fun s => .inr ⟨a, s, gives_pure a s, ha⟩

theorem yields_stalled (P : α → Prop) : Yields P (throw .stalled : Draw σ α) :=
  fun s => .inl ⟨s, rfl⟩

theorem Yields.bind {P : α → Prop} {Q : β → Prop} {d : Draw σ α} {f : α → Draw σ β}
    (hd : Yields P d) (hf : ∀ a, P a → Yields Q (f a)) : Yields Q (d >>= f) := by
  intro s
  rcases hd s with hs | ⟨a, t, hs, ha⟩
  · exact .inl (hs.bind f)
  · rcases hf a ha t with ht | ⟨b, u, ht, hb⟩
    · exact .inl (hs.bind_stalls ht)
    · exact .inr ⟨b, u, hs.bind ht, hb⟩

theorem Yields.mono {P Q : α → Prop} {d : Draw σ α} (hd : Yields P d) (h : ∀ a, P a → Q a) :
    Yields Q d := by
  intro s
  rcases hd s with hs | ⟨a, t, hs, ha⟩
  · exact .inl hs
  · exact .inr ⟨a, t, hs, h a ha⟩

def Extends (d e : Draw σ α) : Prop :=
  ∀ s, e.Stalls s ∨ d s = e s

theorem Extends.refl (d : Draw σ α) : Extends d d := fun _ => .inr rfl

theorem extends_stalled (d : Draw σ α) : Extends d (throw .stalled) := fun s => .inl ⟨s, rfl⟩

theorem Extends.bind {d e : Draw σ α} {f g : α → Draw σ β} (hd : Extends d e)
    (hf : ∀ a, Extends (f a) (g a)) : Extends (d >>= f) (e >>= g) := by
  intro s
  rcases hd s with hs | hs
  · exact .inl (hs.bind g)
  cases he : e s with
  | mk r t =>
    cases r with
    | error x => exact .inr (by rw [bind_apply, bind_apply, hs, he])
    | ok a =>
      rcases hf a t with ht | ht
      · exact .inl (Gives.bind_stalls he ht)
      · exact .inr (by rw [bind_apply, bind_apply, hs, he]; exact ht)

theorem Extends.gives {d e : Draw σ α} (h : Extends d e) {s t : σ} {a : α} (he : e.Gives s a t) :
    d.Gives s a t := by
  rcases h s with ⟨u, hu⟩ | hs
  · rw [Gives, hu] at he
    cases he
  · exact hs.trans he

variable [RandomSource σ]

theorem word_gives (s : σ) : (word : Draw σ UInt64).Gives s (RandomSource.next s).1
    (RandomSource.next s).2 := rfl

def after (s : σ) : Nat → σ
  | 0 => s
  | i + 1 => after (RandomSource.next s).2 i

def wordAt (s : σ) (i : Nat) : UInt64 :=
  (RandomSource.next (after s i)).1

def isSurplus (n : Nat) (w : UInt64) : Prop :=
  w.toNat * n % Word.size < (Word.size - n) % n

/-- From the state `s`, a number below `n` is found: at once for a power of two, else as soon as a
word is not surplus. -/
def Settles (tries : Nat) (n : UInt64) (s : σ) : Prop :=
  n &&& (n - 1) = 0 ∨ ∃ i < tries, ¬ isSurplus n.toNat (wordAt s i)

theorem highProduct_surplus (n fuel : Nat) (s : σ) (h : isSurplus n (wordAt s 0)) :
    highProduct n ((Word.size - n) % n) (fuel + 1) s =
      highProduct n ((Word.size - n) % n) fuel (RandomSource.next s).2 := by
  rw [highProduct, bind_apply, word_gives]
  exact congrFun (if_pos h) _

theorem highProduct_ends (n fuel : Nat) (s : σ) (h : ¬ isSurplus n (wordAt s 0)) :
    (highProduct n ((Word.size - n) % n) (fuel + 1)).Gives s
      ((wordAt s 0).toNat * n / Word.size) (RandomSource.next s).2 := by
  refine (word_gives s).bind ?_
  rw [Gives]
  exact congrFun (if_neg h) _

theorem highProduct_gives (n fuel : Nat) (s : σ)
    (h : ∃ i < fuel, ¬ isSurplus n (wordAt s i)) :
    ∃ w t, (highProduct n ((Word.size - n) % n) fuel).Gives s
      (UInt64.toNat w * n / Word.size) t := by
  induction fuel generalizing s with
  | zero => obtain ⟨i, hi, -⟩ := h; omega
  | succ fuel ih =>
    by_cases hw : isSurplus n (wordAt s 0)
    · obtain ⟨i, hi, hs⟩ := h
      cases i with
      | zero => exact absurd hw hs
      | succ i =>
        obtain ⟨w, t, ht⟩ := ih (RandomSource.next s).2 ⟨i, by omega, hs⟩
        exact ⟨w, t, (highProduct_surplus n fuel s hw).trans ht⟩
    · exact ⟨wordAt s 0, _, highProduct_ends n fuel s hw⟩

theorem highProduct_stalls (n fuel : Nat) (s : σ)
    (h : ∀ i < fuel, isSurplus n (wordAt s i)) :
    (highProduct n ((Word.size - n) % n) fuel).Stalls s := by
  induction fuel generalizing s with
  | zero => exact ⟨s, rfl⟩
  | succ fuel ih =>
    obtain ⟨t, ht⟩ := ih (RandomSource.next s).2 fun i hi => h (i + 1) (by omega)
    exact ⟨t, (highProduct_surplus n fuel s (h 0 (by omega))).trans ht⟩

theorem high_lt (w : UInt64) (n : Nat) (hn : 0 < n) : w.toNat * n / Word.size < n := by
  rw [Nat.div_lt_iff_lt_mul (by decide), Nat.mul_comm]
  exact Nat.mul_lt_mul_of_pos_left w.toNat_lt hn

theorem highProduct_yields (n least fuel : Nat) (hn : 0 < n) :
    Yields (fun k => k < n) (highProduct n least fuel : Draw σ Nat) := by
  induction fuel with
  | zero => exact yields_stalled _
  | succ fuel ih =>
    have hword : Yields (fun _ => True) (word : Draw σ UInt64) :=
      fun s => .inr ⟨_, _, word_gives s, trivial⟩
    refine hword.bind fun w _ => ?_
    by_cases h : w.toNat * n % Word.size < least
    · simpa only [if_pos h] using ih
    · simp only [if_neg h]
      exact yields_pure _ _ (high_lt w n hn)

theorem highProduct_extends (n least fuel more : Nat) (h : fuel ≤ more) :
    Extends (highProduct n least more : Draw σ Nat) (highProduct n least fuel) := by
  induction fuel generalizing more with
  | zero => exact extends_stalled _
  | succ fuel ih =>
    obtain ⟨more, rfl⟩ := Nat.exists_eq_add_one_of_ne_zero (show more ≠ 0 by omega)
    refine (Extends.refl word).bind fun w => ?_
    by_cases hw : w.toNat * n % Word.size < least
    · simpa only [if_pos hw] using ih more (by omega)
    · simpa only [if_neg hw] using Extends.refl _

theorem toNat_pred (n : UInt64) (hn : 0 < n.toNat) : (n - 1).toNat = n.toNat - 1 := by
  have hle : (1 : UInt64) ≤ n := UInt64.le_iff_toNat_le.mpr hn
  rw [UInt64.toNat_sub_of_le n 1 hle]
  rfl

theorem below_gives (tries : Nat) (n : UInt64) (s : σ) (hn : 0 < n.toNat)
    (hs : Settles tries n s) : ∃ k t, (below tries n).Gives s k t ∧ k.toNat < n.toNat := by
  by_cases hp : n &&& (n - 1) = 0
  · refine ⟨_, _, by rw [below, if_pos hp]; exact (word_gives s).map _, ?_⟩
    rw [UInt64.toNat_and, toNat_pred n hn]
    exact (Nat.and_le_right).trans_lt (by omega)
  · obtain ⟨w, t, ht⟩ := highProduct_gives n.toNat tries s (hs.resolve_left hp)
    refine ⟨_, t, by rw [below, if_neg hp]; exact ht.map _, ?_⟩
    have hlt := high_lt w n.toNat hn
    rwa [UInt64.toNat_ofNat_of_lt' (hlt.trans n.toNat_lt)]

theorem below_stalls (tries : Nat) (n : UInt64) (s : σ) (hs : ¬ Settles tries n s) :
    (below tries n).Stalls s := by
  rw [Settles, not_or] at hs
  rw [below, if_neg hs.1]
  refine Stalls.bind _ (highProduct_stalls n.toNat tries s ?_)
  intro i hi
  by_contra h
  exact hs.2 ⟨i, hi, h⟩

theorem below_yields (tries : Nat) (n : UInt64) (hn : 0 < n.toNat) :
    Yields (fun k => k.toNat < n.toNat) (below tries n : Draw σ UInt64) := by
  by_cases hp : n &&& (n - 1) = 0
  · intro s
    have hlt : ((RandomSource.next s).1 &&& (n - 1)).toNat < n.toNat := by
      rw [UInt64.toNat_and, toNat_pred n hn]
      exact (Nat.and_le_right).trans_lt (by omega)
    exact .inr ⟨_, _, by rw [below, if_pos hp]; exact (word_gives s).map _, hlt⟩
  · rw [below, if_neg hp]
    refine (highProduct_yields n.toNat _ tries hn).bind fun k hk => yields_pure _ _ ?_
    rwa [UInt64.toNat_ofNat_of_lt' (hk.trans n.toNat_lt)]

theorem below_extends (n : UInt64) (tries more : Nat) (h : tries ≤ more) :
    Extends (below more n : Draw σ UInt64) (below tries n) := by
  by_cases hp : n &&& (n - 1) = 0
  · rw [below, below, if_pos hp, if_pos hp]
    exact Extends.refl _
  · rw [below, below, if_neg hp, if_neg hp]
    exact (highProduct_extends n.toNat _ tries more h).bind fun _ => Extends.refl _

/-- The least word whose product with `n` lies in the part for `k` and is not surplus. -/
def wordFor (n k : Nat) : Nat :=
  (k * Word.size + (Word.size - n) % n + (n - 1)) / n

theorem wordFor_product (n k : Nat) (hn : 0 < n) (hs : n < Word.size) :
    k * Word.size + (Word.size - n) % n ≤ wordFor n k * n ∧
      wordFor n k * n < (k + 1) * Word.size := by
  have hmod := Nat.div_add_mod' (k * Word.size + (Word.size - n) % n + (n - 1)) n
  have hlt := Nat.mod_lt (k * Word.size + (Word.size - n) % n + (n - 1)) hn
  rw [← wordFor] at hmod
  -- The surplus and one product more stay within a word: a large `n` leaves little surplus.
  have hroom : (Word.size - n) % n + (n - 1) < Word.size := by
    have hle := Nat.mod_le (Word.size - n) n
    omega
  rw [Nat.succ_mul]
  omega

theorem wordFor_lt (n k : Nat) (hn : 0 < n) (hk : k < n) (hs : n < Word.size) :
    wordFor n k < Word.size := by
  have h := (wordFor_product n k hn hs).2
  have hle : (k + 1) * Word.size ≤ Word.size * n := by
    rw [Nat.mul_comm]
    exact Nat.mul_le_mul_left _ hk
  exact Nat.lt_of_mul_lt_mul_right (h.trans_le hle)

structure Constant where
  word : UInt64

instance : RandomSource Constant where
  next s := (s.word, s)

theorem and_pred_of_lt (n k : UInt64) (hk : k.toNat < n.toNat) (hp : n &&& (n - 1) = 0) :
    k &&& (n - 1) = k := by
  have hpred : (n - 1).toNat = n.toNat - 1 := toNat_pred n (by omega)
  have htwo : n.toNat.isPowerOfTwo := by
    refine Nat.ne_zero_and_sub_one_eq_zero_iff_isPowerOfTwo.mp ⟨by omega, ?_⟩
    rw [← hpred, ← UInt64.toNat_and, hp]
    rfl
  obtain ⟨j, hj⟩ := htwo
  refine UInt64.toNat.inj ?_
  rw [UInt64.toNat_and, hpred, hj]
  exact Nat.and_two_pow_sub_one_of_lt_two_pow (hj ▸ hk)

theorem exists_word_below (n k : UInt64) (hk : k.toNat < n.toNat) :
    ∃ w : UInt64, ∀ {σ : Type} [RandomSource σ] (s : σ), (RandomSource.next s).1 = w →
      ∀ tries, (below (tries + 1) n).Gives s k (RandomSource.next s).2 := by
  by_cases hp : n &&& (n - 1) = 0
  · refine ⟨k, fun s hs tries => ?_⟩
    have h := (word_gives s).map fun w => w &&& (n - 1)
    rw [below, if_pos hp]
    rwa [hs, and_pred_of_lt n k hk hp] at h
  · obtain ⟨w, hw⟩ : ∃ w : UInt64, w.toNat = wordFor n.toNat k.toNat :=
      ⟨_, UInt64.toNat_ofNat_of_lt' (wordFor_lt n.toNat k.toNat (by omega) hk n.toNat_lt)⟩
    obtain ⟨hleast, hmost⟩ := wordFor_product n.toNat k.toNat (by omega) n.toNat_lt
    have hdiv : w.toNat * n.toNat / Word.size = k.toNat := by
      rw [hw]
      exact Nat.div_eq_of_lt_le ((Nat.le_add_right _ _).trans hleast) hmost
    have hkeep : ¬ isSurplus n.toNat w := by
      have hsplit := Nat.div_add_mod' (w.toNat * n.toNat) Word.size
      rw [hdiv, hw] at hsplit
      rw [isSurplus, hw]
      omega
    refine ⟨w, fun s hs tries => ?_⟩
    have h := (highProduct_ends n.toNat tries s (by rwa [wordAt, after, hs])).map UInt64.ofNat
    rw [below, if_neg hp]
    rwa [wordAt, after, hs, hdiv, UInt64.ofNat_toNat] at h

theorem settles_of_gives (tries : Nat) (n k : UInt64) (s t : σ)
    (h : (below tries n).Gives s k t) : Settles tries n s := by
  by_contra hs
  obtain ⟨u, hu⟩ := below_stalls tries n s hs
  rw [Gives, hu] at h
  cases h

theorem exists_settles (n : UInt64) : ∃ s : Constant, Settles 1 n s := by
  by_cases hn : 0 < n.toNat
  · obtain ⟨w, hw⟩ := exists_word_below n 0 hn
    exact ⟨⟨w⟩, settles_of_gives 1 n 0 _ _ (hw (⟨w⟩ : Constant) rfl 0)⟩
  · have hz : n = 0 := UInt64.toNat.inj (by rw [UInt64.toNat_zero]; omega)
    exact ⟨⟨0⟩, .inl (by rw [hz]; rfl)⟩

/-- The number of members of a range of words; zero stands for all words. -/
def members (lo hi : UInt64) : UInt64 :=
  hi - lo + 1

theorem members_all (lo hi : UInt64) (h : hi - lo = 0xffffffffffffffff) : members lo hi = 0 := by
  rw [members, h]
  rfl

theorem toNat_members (lo hi : UInt64) (h : hi - lo ≠ 0xffffffffffffffff) :
    (members lo hi).toNat = (hi - lo).toNat + 1 := by
  have hne : (hi - lo).toNat ≠ 0xffffffffffffffff := fun he => h (UInt64.toNat.inj he)
  have hlt := (hi - lo).toNat_lt
  rw [members, UInt64.toNat_add]
  exact Nat.mod_eq_of_lt (show (hi - lo).toNat + 1 < _ by omega)

theorem settles_members_all (tries : Nat) (lo hi : UInt64) (s : σ)
    (h : hi - lo = 0xffffffffffffffff) : Settles tries (members lo hi) s :=
  .inl (by rw [members_all lo hi h]; rfl)

/-- The number that a draw of the members from `lo` to `hi` takes from its source: a word where they
are all words, else a number below the number of members. -/
def offset (tries : Nat) (lo hi : UInt64) : Draw σ UInt64 :=
  if hi - lo = 0xffffffffffffffff then word else below tries (members lo hi)

section Offsets

variable (lo hi : UInt64)

theorem offset_all (tries : Nat) (h : hi - lo = 0xffffffffffffffff) :
    (offset tries lo hi : Draw σ UInt64) = word := if_pos h

theorem offset_some (tries : Nat) (h : hi - lo ≠ 0xffffffffffffffff) :
    (offset tries lo hi : Draw σ UInt64) = below tries (members lo hi) := if_neg h

theorem offset_yields (tries : Nat) :
    Yields (fun k => k.toNat ≤ (hi - lo).toNat) (offset tries lo hi : Draw σ UInt64) := by
  by_cases ha : hi - lo = 0xffffffffffffffff
  · intro s
    rw [offset_all lo hi tries ha, ha]
    exact .inr ⟨_, _, word_gives s, Nat.le_of_lt_succ (UInt64.toNat_lt _)⟩
  · have hm := toNat_members lo hi ha
    rw [offset_some lo hi tries ha]
    exact (below_yields tries (members lo hi) (by omega)).mono fun k hk => by omega

theorem offset_extends (tries more : Nat) (h : tries ≤ more) :
    Extends (offset more lo hi : Draw σ UInt64) (offset tries lo hi) := by
  by_cases ha : hi - lo = 0xffffffffffffffff
  · rw [offset_all lo hi _ ha, offset_all lo hi _ ha]
    exact Extends.refl _
  · rw [offset_some lo hi _ ha, offset_some lo hi _ ha]
    exact below_extends _ tries more h

theorem offset_stalls (tries : Nat) (s : σ) (hs : ¬ Settles tries (members lo hi) s) :
    (offset tries lo hi).Stalls s := by
  have ha : hi - lo ≠ 0xffffffffffffffff := fun ha => hs (settles_members_all tries lo hi s ha)
  rw [offset_some lo hi _ ha]
  exact below_stalls tries _ s hs

theorem offset_gives (tries : Nat) (s : σ) (hs : Settles tries (members lo hi) s) :
    ∃ k t, (offset tries lo hi).Gives s k t ∧ k.toNat ≤ (hi - lo).toNat := by
  by_cases ha : hi - lo = 0xffffffffffffffff
  · rw [offset_all lo hi _ ha, ha]
    exact ⟨_, _, word_gives s, Nat.le_of_lt_succ (UInt64.toNat_lt _)⟩
  · have hm := toNat_members lo hi ha
    obtain ⟨k, t, ht, hk⟩ := below_gives tries (members lo hi) s (by omega) hs
    rw [offset_some lo hi _ ha]
    exact ⟨k, t, ht, by omega⟩

theorem exists_word_offset (k : UInt64) (hk : k.toNat ≤ (hi - lo).toNat) :
    ∃ w : UInt64, ∀ {σ : Type} [RandomSource σ] (s : σ), (RandomSource.next s).1 = w →
      ∀ tries, (offset (tries + 1) lo hi).Gives s k (RandomSource.next s).2 := by
  by_cases ha : hi - lo = 0xffffffffffffffff
  · refine ⟨k, fun s hs tries => ?_⟩
    rw [offset_all lo hi _ ha, ← hs]
    exact word_gives s
  · have hm := toNat_members lo hi ha
    obtain ⟨w, hw⟩ := exists_word_below (members lo hi) k (by omega)
    refine ⟨w, fun s hs tries => ?_⟩
    rw [offset_some lo hi _ ha]
    exact hw s hs tries

theorem exists_offset_gives (k : UInt64) (hk : k.toNat ≤ (hi - lo).toNat) :
    ∃ s : Constant, Settles 1 (members lo hi) s ∧ (offset 1 lo hi).Gives s k s := by
  obtain ⟨w, hw⟩ := exists_word_offset lo hi k hk
  have hgives : (offset 1 lo hi).Gives (⟨w⟩ : Constant) k ⟨w⟩ := hw (⟨w⟩ : Constant) rfl 0
  refine ⟨⟨w⟩, ?_, hgives⟩
  by_contra hs
  obtain ⟨u, hu⟩ := offset_stalls lo hi 1 _ hs
  rw [Gives, hu] at hgives
  cases hgives

end Offsets

section Unsigned

variable (lo hi : UInt64)

def uintAt (k : UInt64) : UInt64 :=
  if hi - lo = 0xffffffffffffffff then k else lo + k

theorem uint_eq (tries : Nat) (h : lo ≤ hi) : (uint tries lo hi : Draw σ UInt64) =
    offset tries lo hi >>= fun k => pure (uintAt lo hi k) := by
  rw [uint, if_neg (UInt64.not_lt.mpr h)]
  by_cases ha : hi - lo = 0xffffffffffffffff
  · simp only [offset, uintAt, if_pos ha, bind_pure]
  · simp only [offset, uintAt, if_neg ha, members]

theorem toNat_span_all (h : lo ≤ hi) (hs : hi - lo = 0xffffffffffffffff) :
    lo.toNat = 0 ∧ hi.toNat = 0xffffffffffffffff := by
  have hspan := UInt64.toNat_sub_of_le hi lo h
  have hlt := hi.toNat_lt
  rw [hs, show (0xffffffffffffffff : UInt64).toNat = 0xffffffffffffffff from rfl] at hspan
  omega

theorem toNat_uintAt (h : lo ≤ hi) (k : UInt64) (hk : k.toNat ≤ (hi - lo).toNat) :
    (uintAt lo hi k).toNat = lo.toNat + k.toNat := by
  have hspan := UInt64.toNat_sub_of_le hi lo h
  have hle := UInt64.le_iff_toNat_le.mp h
  by_cases ha : hi - lo = 0xffffffffffffffff
  · have hlo := (toNat_span_all lo hi h ha).1
    rw [uintAt, if_pos ha]
    omega
  · have hlt := hi.toNat_lt
    rw [uintAt, if_neg ha, UInt64.toNat_add]
    exact Nat.mod_eq_of_lt (show lo.toNat + k.toNat < 2 ^ 64 by omega)

theorem uintAt_between (h : lo ≤ hi) (k : UInt64) (hk : k.toNat ≤ (hi - lo).toNat) :
    lo.toNat ≤ (uintAt lo hi k).toNat ∧ (uintAt lo hi k).toNat ≤ hi.toNat := by
  have hat := toNat_uintAt lo hi h k hk
  rw [UInt64.toNat_sub_of_le hi lo h] at hk
  have hle := UInt64.le_iff_toNat_le.mp h
  omega

theorem exists_uintAt (x : UInt64) (hlo : lo.toNat ≤ x.toNat) (hhi : x.toNat ≤ hi.toNat) :
    ∃ k : UInt64, k.toNat ≤ (hi - lo).toNat ∧ uintAt lo hi k = x := by
  have h : lo ≤ hi := UInt64.le_iff_toNat_le.mpr (hlo.trans hhi)
  have hspan := UInt64.toNat_sub_of_le hi lo h
  have hx := UInt64.toNat_sub_of_le x lo (UInt64.le_iff_toNat_le.mpr hlo)
  have hk : (x - lo).toNat ≤ (hi - lo).toNat := by omega
  refine ⟨x - lo, hk, UInt64.toNat.inj ?_⟩
  rw [toNat_uintAt lo hi h _ hk]
  omega

theorem uint_gives (h : lo ≤ hi) (tries : Nat) (s : σ) (hs : Settles tries (members lo hi) s) :
    ∃ x t, (uint tries lo hi).Gives s x t ∧ lo.toNat ≤ x.toNat ∧ x.toNat ≤ hi.toNat := by
  obtain ⟨k, t, ht, hk⟩ := offset_gives lo hi tries s hs
  rw [uint_eq lo hi tries h]
  exact ⟨_, t, ht.map _, uintAt_between lo hi h k hk⟩

theorem exists_uint_gives (x : UInt64) (hlo : lo.toNat ≤ x.toNat) (hhi : x.toNat ≤ hi.toNat) :
    ∃ s : Constant, Settles 1 (members lo hi) s ∧ (uint 1 lo hi).Gives s x s := by
  obtain ⟨k, hk, rfl⟩ := exists_uintAt lo hi x hlo hhi
  obtain ⟨s, hs, hgives⟩ := exists_offset_gives lo hi k hk
  rw [uint_eq lo hi 1 (UInt64.le_iff_toNat_le.mpr (hlo.trans hhi))]
  exact ⟨s, hs, hgives.map _⟩

end Unsigned

theorem toInt_eq_bmod (x : Int64) : x.toInt = (x.toUInt64.toNat : Int).bmod (2 ^ 64) :=
  BitVec.toInt_eq_toNat_bmod x.toBitVec

theorem toInt_toInt64 (k : UInt64) : k.toInt64.toInt = (k.toNat : Int).bmod (2 ^ 64) :=
  BitVec.toInt_eq_toNat_bmod k.toBitVec

theorem bmod_emod_word (v : Int) : v.bmod (2 ^ 64) % 2 ^ 64 = v % 2 ^ 64 :=
  Int.bmod_emod

theorem toNat_toUInt64 (x : Int64) : (x.toUInt64.toNat : Int) = x.toInt % 2 ^ 64 := by
  have hlt := x.toUInt64.toNat_lt
  rw [toInt_eq_bmod, bmod_emod_word, Int.emod_eq_of_lt (by omega) (by omega)]

section Signed

variable (lo hi : Int64)

/-- The member of a range at an offset. Of all words it is the one with the bits of the offset. -/
def intAt (k : UInt64) : Int64 :=
  if hi.toUInt64 - lo.toUInt64 = 0xffffffffffffffff then k.toInt64 else lo + k.toInt64

theorem int_eq (tries : Nat) (h : lo ≤ hi) : (int tries lo hi : Draw σ Int64) =
    offset tries lo.toUInt64 hi.toUInt64 >>= fun k => pure (intAt lo hi k) := by
  rw [int, if_neg (Int64.not_lt.mpr h)]
  by_cases ha : hi.toUInt64 - lo.toUInt64 = 0xffffffffffffffff
  · simp only [offset, intAt, if_pos ha]
  · simp only [offset, intAt, if_neg ha, members]

theorem toNat_signed_span (h : lo ≤ hi) :
    ((hi.toUInt64 - lo.toUInt64).toNat : Int) = hi.toInt - lo.toInt := by
  have hle := Int64.le_iff_toInt_le.mp h
  have hlo := lo.le_toInt
  have hhi := hi.toInt_lt
  rw [← Int64.toUInt64_sub, toNat_toUInt64, Int64.toInt_sub, bmod_emod_word,
    Int.emod_eq_of_lt (by omega) (by omega)]

theorem toInt_span_all (h : lo ≤ hi) (hs : hi.toUInt64 - lo.toUInt64 = 0xffffffffffffffff) :
    lo.toInt = -2 ^ 63 ∧ hi.toInt = 2 ^ 63 - 1 := by
  have hspan := toNat_signed_span lo hi h
  have hlo := lo.le_toInt
  have hhi := hi.toInt_lt
  rw [hs, show (0xffffffffffffffff : UInt64).toNat = 0xffffffffffffffff from rfl] at hspan
  omega

theorem toInt_add_of_le (k : UInt64) (hk : lo.toInt + k.toNat ≤ hi.toInt) :
    (lo + k.toInt64).toInt = lo.toInt + k.toNat := by
  have hlo := lo.le_toInt
  have hhi := hi.toInt_lt
  rw [Int64.toInt_add, toInt_toInt64, Int.add_bmod_bmod]
  exact Int.bmod_eq_of_le_mul_two (by omega) (by omega)

theorem intAt_between (h : lo ≤ hi) (k : UInt64)
    (hk : k.toNat ≤ (hi.toUInt64 - lo.toUInt64).toNat) :
    lo.toInt ≤ (intAt lo hi k).toInt ∧ (intAt lo hi k).toInt ≤ hi.toInt := by
  by_cases ha : hi.toUInt64 - lo.toUInt64 = 0xffffffffffffffff
  · obtain ⟨hlo, hhi⟩ := toInt_span_all lo hi h ha
    have hx := (intAt lo hi k).le_toInt
    have hx' := (intAt lo hi k).toInt_lt
    omega
  · have hspan := toNat_signed_span lo hi h
    have hx := toInt_add_of_le lo hi k (by omega)
    rw [intAt, if_neg ha]
    omega

theorem exists_intAt (x : Int64) (hlo : lo.toInt ≤ x.toInt) (hhi : x.toInt ≤ hi.toInt) :
    ∃ k : UInt64, k.toNat ≤ (hi.toUInt64 - lo.toUInt64).toNat ∧ intAt lo hi k = x := by
  by_cases ha : hi.toUInt64 - lo.toUInt64 = 0xffffffffffffffff
  · refine ⟨x.toUInt64, ?_, if_pos ha⟩
    rw [ha]
    exact Nat.le_of_lt_succ x.toUInt64.toNat_lt
  · have hspan := toNat_signed_span lo hi (Int64.le_iff_toInt_le.mpr (hlo.trans hhi))
    have hx := toNat_signed_span lo x (Int64.le_iff_toInt_le.mpr hlo)
    refine ⟨x.toUInt64 - lo.toUInt64, by omega, Int64.toInt_inj.mp ?_⟩
    rw [intAt, if_neg ha, toInt_add_of_le lo hi _ (by omega)]
    omega

theorem int_gives (h : lo ≤ hi) (tries : Nat) (s : σ)
    (hs : Settles tries (members lo.toUInt64 hi.toUInt64) s) :
    ∃ x t, (int tries lo hi).Gives s x t ∧ lo.toInt ≤ x.toInt ∧ x.toInt ≤ hi.toInt := by
  obtain ⟨k, t, ht, hk⟩ := offset_gives _ _ tries s hs
  rw [int_eq lo hi tries h]
  exact ⟨_, t, ht.map _, intAt_between lo hi h k hk⟩

theorem int_yields (tries : Nat) (h : lo ≤ hi) :
    Yields (fun x => lo.toInt ≤ x.toInt ∧ x.toInt ≤ hi.toInt)
      (int tries lo hi : Draw σ Int64) := by
  rw [int_eq lo hi tries h]
  exact (offset_yields _ _ tries).bind fun k hk =>
    yields_pure _ _ (intAt_between lo hi h k hk)

theorem int_extends (tries more : Nat) (h : lo ≤ hi) (hm : tries ≤ more) :
    Extends (int more lo hi : Draw σ Int64) (int tries lo hi) := by
  rw [int_eq lo hi _ h, int_eq lo hi _ h]
  exact (offset_extends _ _ tries more hm).bind fun _ => Extends.refl _

theorem count_eq (hlo : 0 ≤ lo) (hhi : 0 ≤ hi) (tries : Nat) :
    (count tries lo hi : Draw σ Int64) = int tries lo hi := by
  have hneg : ¬ lo < 0 ∧ ¬ hi < 0 := ⟨Int64.not_lt.mpr hlo, Int64.not_lt.mpr hhi⟩
  exact if_neg (by simpa using hneg)

theorem exists_word_int (x : Int64) (hlo : lo.toInt ≤ x.toInt) (hhi : x.toInt ≤ hi.toInt) :
    ∃ w : UInt64, ∀ {σ : Type} [RandomSource σ] (s : σ), (RandomSource.next s).1 = w →
      ∀ tries, (int (tries + 1) lo hi).Gives s x (RandomSource.next s).2 := by
  obtain ⟨k, hk, rfl⟩ := exists_intAt lo hi x hlo hhi
  obtain ⟨w, hw⟩ := exists_word_offset _ _ k hk
  refine ⟨w, fun s hs tries => ?_⟩
  rw [int_eq lo hi _ (Int64.le_iff_toInt_le.mpr (hlo.trans hhi))]
  exact (hw s hs tries).map _

theorem exists_int_gives (x : Int64) (hlo : lo.toInt ≤ x.toInt) (hhi : x.toInt ≤ hi.toInt) :
    ∃ s : Constant, Settles 1 (members lo.toUInt64 hi.toUInt64) s ∧
      (int 1 lo hi).Gives s x s := by
  obtain ⟨k, hk, rfl⟩ := exists_intAt lo hi x hlo hhi
  obtain ⟨s, hs, hgives⟩ := exists_offset_gives _ _ k hk
  rw [int_eq lo hi 1 (Int64.le_iff_toInt_le.mpr (hlo.trans hhi))]
  exact ⟨s, hs, hgives.map _⟩

end Signed

theorem below_zero (tries : Nat) : (below tries 0 : Draw σ UInt64) =
    word >>= fun w => pure (w &&& (0 - 1)) := rfl

theorem position_gives (tries n : Nat) (hn : 0 < n) (s : σ)
    (hs : Settles tries (UInt64.ofNat n) s) :
    ∃ i t, (position tries n).Gives s i t ∧ i < n := by
  have hmod : (UInt64.ofNat n).toNat = n % 2 ^ 64 := UInt64.toNat_ofNat
  by_cases h : 0 < (UInt64.ofNat n).toNat
  · obtain ⟨k, t, ht, hk⟩ := below_gives tries (UInt64.ofNat n) s h hs
    exact ⟨k.toNat, t, ht.map _, hk.trans_le (hmod ▸ Nat.mod_le _ _)⟩
  · -- A list this long is a multiple of all words long, and any word is a position in it.
    have hz : UInt64.ofNat n = 0 := UInt64.toNat.inj (by rw [UInt64.toNat_zero]; omega)
    have hword := ((word_gives s).map fun w => w &&& (0 - 1)).map UInt64.toNat
    refine ⟨_, _, by rwa [position, hz, below_zero], ?_⟩
    refine (UInt64.toNat_lt _).trans_le ?_
    omega

theorem position_yields (tries n : Nat) (hn : 0 < n) (hlt : n < 2 ^ 64) :
    Yields (fun i => i < n) (position tries n : Draw σ Nat) := by
  have hmod : (UInt64.ofNat n).toNat = n := UInt64.toNat_ofNat_of_lt' hlt
  refine (below_yields tries (UInt64.ofNat n) (by omega)).bind fun k hk => ?_
  exact yields_pure _ _ (by omega)

theorem position_extends (n tries more : Nat) (h : tries ≤ more) :
    Extends (position more n : Draw σ Nat) (position tries n) :=
  (below_extends (UInt64.ofNat n) tries more h).bind fun _ => Extends.refl _

theorem exists_word_position (n i : Nat) (hi : i < n) (hlt : n < 2 ^ 64) :
    ∃ w : UInt64, ∀ {σ : Type} [RandomSource σ] (s : σ), (RandomSource.next s).1 = w →
      ∀ tries, (position (tries + 1) n).Gives s i (RandomSource.next s).2 := by
  have hn : (UInt64.ofNat n).toNat = n := UInt64.toNat_ofNat_of_lt' hlt
  have hk : (UInt64.ofNat i).toNat = i := UInt64.toNat_ofNat_of_lt' (hi.trans hlt)
  obtain ⟨w, hw⟩ := exists_word_below (UInt64.ofNat n) (UInt64.ofNat i) (by omega)
  refine ⟨w, fun s hs tries => ?_⟩
  have h := (hw s hs tries).map UInt64.toNat
  rwa [hk] at h

end FormatFuzz.Draw
