import FormatFuzz.Proofs.Random.Draws

/-!
# Random bytes

The words of a source, each with its least significant byte first, are one endless sequence of
bytes. A draw of bytes gives the first of them and takes the words they come from, the last of which
it may use in part; so a shorter draw from the same state gives the first bytes of a longer one.
-/

set_option autoImplicit false

namespace FormatFuzz.Draw

variable {σ : Type} [RandomSource σ]

/-- The byte of a word that stands behind `j` others, the least significant first. -/
def byteOf (w : UInt64) (j : Nat) : UInt8 :=
  (w >>> UInt64.ofNat (8 * j)).toUInt8

def byteAt (s : σ) (i : Nat) : UInt8 :=
  byteOf (wordAt s (i / 8)) (i % 8)

theorem byteOf_eq (w : UInt64) (j : Nat) (hj : j < 8) :
    byteOf w j = UInt8.ofNat (w.toNat / Nat.pow 256 j) := by
  have hlt : 8 * j < 2 ^ 64 := by omega
  have hshift : (UInt64.ofNat (8 * j)).toNat % 64 = 8 * j := by
    rw [UInt64.toNat_ofNat_of_lt' hlt]
    omega
  have hpow : Nat.pow 256 j = 2 ^ (8 * j) := by
    rw [Nat.pow_mul]
    rfl
  refine UInt8.toNat.inj ?_
  rw [byteOf, UInt64.toNat_toUInt8, UInt64.toNat_shiftRight, hshift, Nat.shiftRight_eq_div_pow,
    hpow, UInt8.toNat_ofNat']

theorem wordBytes_eq (w : UInt64) : wordBytes w = (List.range 8).map (byteOf w) :=
  List.map_congr_left fun j hj => (byteOf_eq w j (List.mem_range.mp hj)).symm

theorem byteAt_word (s : σ) (n j : Nat) (hj : j < 8) :
    byteAt s (8 * n + j) = byteOf (wordAt s n) j := by
  rw [byteAt, show (8 * n + j) / 8 = n by omega, show (8 * n + j) % 8 = j by omega]

theorem flatMap_wordBytes (s : σ) (n : Nat) :
    ((List.range n).map (wordAt s)).flatMap wordBytes = (List.range (8 * n)).map (byteAt s) := by
  induction n with
  | zero => rfl
  | succ n ih =>
    have hlast : wordBytes (wordAt s n) = (List.range 8).map fun j => byteAt s (8 * n + j) := by
      rw [wordBytes_eq]
      exact List.map_congr_left fun j hj => (byteAt_word s n j (List.mem_range.mp hj)).symm
    rw [List.range_succ, List.map_append, List.flatMap_append, ih, Nat.mul_succ, List.range_add,
      List.map_append, List.map_map, List.map_singleton, List.flatMap_singleton, hlast]
    rfl

theorem words_gives (n : Nat) (s : σ) :
    (words n).Gives s ((List.range n).map (wordAt s)) (after s n) := by
  induction n generalizing s with
  | zero => rfl
  | succ n ih =>
    have hshift : (List.range (n + 1)).map (wordAt s)
        = wordAt s 0 :: (List.range n).map (wordAt (RandomSource.next s).2) := by
      rw [List.range_succ_eq_map, List.map_cons, List.map_map]
      rfl
    rw [hshift]
    exact (word_gives s).bind ((ih (RandomSource.next s).2).map _)

theorem bytes_refused (n : Int) (hn : n < 0) (s : σ) :
    bytes n s = (.error (.negativeBytes n), s) :=
  congrFun (if_pos hn) s

theorem bytes_gives_first (n : Int) (hn : 0 ≤ n) (s : σ) :
    (bytes n).Gives s ((List.range n.toNat).map (byteAt s)) (after s ((n.toNat + 7) / 8)) := by
  have htake : (((List.range ((n.toNat + 7) / 8)).map (wordAt s)).flatMap wordBytes).take n.toNat
      = (List.range n.toNat).map (byteAt s) := by
    rw [flatMap_wordBytes, ← List.map_take, List.take_range, Nat.min_eq_left (by omega)]
  rw [bytes, if_neg (by omega), ← htake]
  exact (words_gives ((n.toNat + 7) / 8) s).map fun ws => (ws.flatMap wordBytes).take n.toNat

theorem bytes_gives (n : Int) (hn : 0 ≤ n) (s : σ) :
    ∃ bs t, (bytes n).Gives s bs t ∧ bs.length = n.toNat :=
  ⟨_, _, bytes_gives_first n hn s, by simp⟩

/-- From any state, so many bytes take an eighth of their number of words, rounded up, and are the
bytes of these words in order; they are the first of any greater number of bytes from the same
state. A negative number of bytes is refused, and nothing is taken. -/
theorem bytes_stream (s : σ) (n : Int) :
    (0 ≤ n → ∃ bs, (bytes n).Gives s bs (after s ((n.toNat + 7) / 8)) ∧ bs.length = n.toNat ∧
      (∀ i < n.toNat, bs[i]? = some (byteOf (wordAt s (i / 8)) (i % 8))) ∧
      ∀ m, n ≤ m → ∃ cs, (bytes m).Gives s cs (after s ((m.toNat + 7) / 8)) ∧
        bs = cs.take n.toNat) ∧
    (n < 0 → bytes n s = (.error (.negativeBytes n), s)) := by
  refine ⟨fun hn => ?_, fun hn => bytes_refused n hn s⟩
  refine ⟨_, bytes_gives_first n hn s, by simp, fun i hi => ?_, fun m hm => ?_⟩
  · rw [List.getElem?_map, List.getElem?_range hi]
    rfl
  · refine ⟨_, bytes_gives_first m (hn.trans hm) s, ?_⟩
    rw [← List.map_take, List.take_range, Nat.min_eq_left (Int.toNat_le_toNat hm)]

theorem bytes_stream_nine : (0 : Int) ≤ 9 ∧ (9 : Int) ≤ 17 ∧ (-1 : Int) < 0 ∧
    (∃ bs cs, (bytes 9).Gives (Pcg.ofSeed 5) bs (after (Pcg.ofSeed 5) 2) ∧
      bs[8]? = some (byteOf (wordAt (Pcg.ofSeed 5) 1) 0) ∧
      (bytes 17).Gives (Pcg.ofSeed 5) cs (after (Pcg.ofSeed 5) 3) ∧ bs = cs.take 9) ∧
    bytes (-1) (Pcg.ofSeed 5) = (.error (.negativeBytes (-1)), Pcg.ofSeed 5) := by
  obtain ⟨bs, hbs, -, hbyte, hprefix⟩ := (bytes_stream (Pcg.ofSeed 5) 9).1 (by decide)
  obtain ⟨cs, hcs, htake⟩ := hprefix 17 (by decide)
  exact ⟨by decide, by decide, by decide, ⟨bs, cs, hbs, hbyte 8 (by decide), hcs, htake⟩,
    (bytes_stream (Pcg.ofSeed 5) (-1)).2 (by decide)⟩

end FormatFuzz.Draw
