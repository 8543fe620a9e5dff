import FormatFuzz.Program.Method
import FormatFuzz.Proofs.Model.Members
import FormatFuzz.Proofs.Random.Bytes
import FormatFuzz.Proofs.Random.Texts

/-!
# Lengths that are drawn

The bounds of a free size and of a repetition come from the options, from the key of the field and
from its terminator; the size may become free only after its bounds were set. Whatever their source,
they are counts of a word with the lower one first, and leave room for a terminator. So a drawn
length lies between them, and the bytes or the text of that length can be made.
-/

set_option autoImplicit false

namespace FormatFuzz

/-- The defaults of the bounds are integers of a word. -/
structure Options.FitsWords (o : Options) : Prop where
  sizeMin : Word.isSigned o.sizeMin = true
  sizeMax : Word.isSigned o.sizeMax = true
  repeatMin : Word.isSigned o.repeatMin = true
  repeatMax : Word.isSigned o.repeatMax = true
  untilMax : Word.isSigned o.untilMax = true

theorem Word.isSigned_getD (v : Option Int) (d : Int) (hv : ∀ i ∈ v, isSigned i = true)
    (hd : isSigned d = true) : isSigned (v.getD d) = true := by
  cases v with
  | none => exact hd
  | some i => exact hv i rfl

theorem Word.isSigned_max (v w : Int) (hv : isSigned v = true) (hw : isSigned w = true) :
    isSigned (max v w) = true := by
  rcases max_choice v w with h | h <;> rwa [h]

structure Counts (lo hi : Int) : Prop where
  nonneg : 0 ≤ lo
  le : lo ≤ hi
  word : hi < 2 ^ 63

theorem counts_of_isSigned (lo hi : Int) (h0 : 0 ≤ lo) (h : lo ≤ hi)
    (hw : Word.isSigned hi = true) : Counts lo hi := by
  simp only [Word.isSigned, Bool.and_eq_true, decide_eq_true_eq] at hw
  exact ⟨h0, h, hw.2⟩

namespace Build

variable (o : Options) (ho : o.FitsWords) (a : Attr)
  (ha : ∀ v ∈ a.integers, ∀ i ∈ v, Word.isSigned i = true)

include ho ha

theorem size_counts (terminated : Bool) (s : Size) (h : size o a terminated = .ok (some s)) :
    Counts s.min s.max ∧ (terminated = true → 1 ≤ s.min) := by
  have hmax : Word.isSigned (a.sizeMax.getD o.sizeMax) = true :=
    Word.isSigned_getD _ _ (ha _ (by simp [Attr.integers])) ho.sizeMax
  unfold size at h
  dsimp only at h
  obtain ⟨hbounds, h⟩ := guard_eq_ok _ _ _ _ h
  obtain ⟨declared, -, h⟩ := (bind_eq_ok _ _ _).mp h
  obtain ⟨_, -, h⟩ := (bind_eq_ok _ _ _).mp h
  simp only [Bool.or_eq_true, decide_eq_true_eq, not_or, Int.not_lt] at hbounds
  split at h
  next => cases h
  next =>
    rw [pure_eq_ok, Option.some.injEq] at h
    subst h
    split
    next hlow =>
      simp only [Bool.and_eq_true, decide_eq_true_eq] at hlow
      have hword := Word.isSigned_max _ 1 hmax (by decide)
      exact ⟨counts_of_isSigned 1 _ Int.one_nonneg (le_max_right _ _) hword, fun _ => le_rfl⟩
    next hlow =>
      simp only [Bool.and_eq_true, decide_eq_true_eq, not_and, Int.not_lt] at hlow
      exact ⟨counts_of_isSigned _ _ hbounds.1 hbounds.2 hmax, hlow⟩

theorem repetition_counts (r : Repeat) (h : repetition o a = .ok r) :
    Counts r.min r.max ∧ (r.form.until?.isSome = true → 1 ≤ r.max) := by
  unfold repetition at h
  obtain ⟨form, -, h⟩ := (bind_eq_ok _ _ _).mp h
  obtain ⟨hbounds, h⟩ := guard_eq_ok _ _ _ _ h
  simp only [Bool.or_eq_true, Bool.and_eq_true, decide_eq_true_eq, not_or, Int.not_lt, not_and]
    at hbounds
  obtain rfl := (pure_eq_ok _ _).mp h
  refine ⟨counts_of_isSigned _ _ hbounds.1.1 hbounds.1.2 ?_, hbounds.2⟩
  refine Word.isSigned_getD _ _ (ha _ (by simp [Attr.integers])) ?_
  cases form with
  | count n => rfl
  | «until» c => exact ho.untilMax
  | eos => exact ho.repeatMax

end Build

namespace Counts

variable {lo hi : Int} (h : Counts lo hi)

include h

theorem toInt_lo : (Int64.ofInt lo).toInt = lo :=
  Int64.toInt_ofInt_of_le (by have := h.nonneg; omega) (h.le.trans_lt h.word)

theorem toInt_hi : (Int64.ofInt hi).toInt = hi :=
  Int64.toInt_ofInt_of_le (by have := h.nonneg.trans h.le; omega) h.word

/-- From every state from which a number of the members of the range is found, a count between the
bounds is drawn. -/
theorem count_gives {σ : Type} [RandomSource σ] (tries : Nat) (s : σ)
    (hs : Draw.Settles tries
      (Draw.members (Int64.ofInt lo).toUInt64 (Int64.ofInt hi).toUInt64) s) :
    ∃ n t, (Draw.count tries (Int64.ofInt lo) (Int64.ofInt hi)).Gives s n t ∧
      lo ≤ n.toInt ∧ n.toInt ≤ hi := by
  have hlo := h.toInt_lo
  have hhi := h.toInt_hi
  have h0 : (0 : Int64) ≤ Int64.ofInt lo := by
    rw [Int64.le_iff_toInt_le, hlo]
    exact h.nonneg
  have hle : Int64.ofInt lo ≤ Int64.ofInt hi := by
    rw [Int64.le_iff_toInt_le, hlo, hhi]
    exact h.le
  rw [Draw.count_eq _ _ h0 (Int64.le_trans h0 hle) tries]
  simpa only [hlo, hhi] using Draw.int_gives _ _ hle tries s hs

end Counts

/-- The call of a count with two bounds as its arguments gives a count between them. -/
structure CountEnds (lo hi : Int) : Prop where
  argument_lo : (Int64.ofInt lo).toInt = lo
  argument_hi : (Int64.ofInt hi).toInt = hi
  gives (σ : Type) [RandomSource σ] (tries : Nat) (s : σ)
    (hs : Draw.Settles tries
      (Draw.members (Int64.ofInt lo).toUInt64 (Int64.ofInt hi).toUInt64) s) :
    ∃ n t, (Draw.count tries (Int64.ofInt lo) (Int64.ofInt hi)).Gives s n t ∧
      lo ≤ n.toInt ∧ n.toInt ≤ hi

theorem Counts.countEnds {lo hi : Int} (h : Counts lo hi) : CountEnds lo hi :=
  ⟨h.toInt_lo, h.toInt_hi, fun _ _ tries s hs => h.count_gives tries s hs⟩

/-- What is drawn for a field whose lengths are not given by an expression. -/
structure Field.DrawsLengths (f : Field) : Prop where
  /-- The length of a free size is drawn as a count between its bounds. -/
  sizeCode (z : Size) (h : f.size = some z) (free : z.isFree = true) (fr : Program.Frame) :
    Program.sizeLines fr f = .ok (Program.drawLines f.id "n" (Program.countCall z.min z.max))
  size (z : Size) (h : f.size = some z) (free : z.isFree = true) : CountEnds z.min z.max
  /-- So many bytes can be made. -/
  bytes (z : Size) (h : f.size = some z) (free : z.isFree = true) (n : Int) (hlo : z.min ≤ n)
    (hhi : n ≤ z.max) (σ : Type) [RandomSource σ] (s : σ) :
    ∃ bs t, (Draw.bytes n).Gives s bs t ∧ (bs.length : Int) = n
  /-- So many bytes of text are made, its terminator included, once acceptable words come. -/
  text (z : Size) (h : f.size = some z) (free : z.isFree = true) (n : Int) (hlo : z.min ≤ n)
    (hhi : n ≤ z.max) (src : TextSource) (σ : Type) [RandomSource σ] (tries : Nat) :
    Draw.Yields (fun bs => (bs.length : Int) = n)
      (Draw.text tries src n (f.terminator.map fun b => (b.toNat : Int)) : Draw σ (List UInt8))
  eosCode (r : Repeat) (h : f.repeated = some r) (hr : r.form = .eos) (fr : Program.Frame) :
    Program.countLines fr f r = .ok (Program.drawLines f.id "n" (Program.countCall r.min r.max))
  eos (r : Repeat) (h : f.repeated = some r) (hr : r.form = .eos) : CountEnds r.min r.max
  /-- A loop that ends on a condition may run at least once. -/
  cap (r : Repeat) (h : f.repeated = some r) (c : Expr) (hr : r.form = .until c) : 1 ≤ r.max

theorem Resolve.size_freeSize (base : TypeDef) (f : Field) (z : Size)
    (h : (Resolve.freeSize base f).size = some z) :
    ∃ s, f.size = some s ∧ z.min = s.min ∧ z.max = s.max := by
  rcases Resolve.freeSize_cases base f with hf | ⟨s, hs, hf⟩
  · rw [hf] at h
    exact ⟨z, h, rfl, rfl⟩
  · rw [hf, Option.some.injEq] at h
    subst h
    exact ⟨s, hs, rfl, rfl⟩

theorem Resolve.freeSize_rest (base : TypeDef) (f : Field) :
    (Resolve.freeSize base f).terminator = f.terminator ∧
      (Resolve.freeSize base f).repeated = f.repeated := by
  rcases Resolve.freeSize_cases base f with hf | ⟨s, hs, hf⟩ <;> rw [hf] <;> exact ⟨rfl, rfl⟩

theorem Field.MadeFrom.counts (o : Options) (ho : o.FitsWords) (set n : SchemaSet)
    (hn : set.normalize o = .ok n) (f : Field) (h : f.MadeFrom o n) :
    (∀ z, f.size = some z → Counts z.min z.max ∧ (f.terminator.isSome = true → 1 ≤ z.min)) ∧
      ∀ r, f.repeated = some r →
        Counts r.min r.max ∧ (r.form.until?.isSome = true → 1 ≤ r.max) := by
  obtain ⟨a, b, here, g, base, ha, hb, hf⟩ := h.builds o set n hn f
  obtain ⟨hterm, hrep⟩ := Resolve.freeSize_rest base g
  rw [hf]
  refine ⟨fun z hz => ?_, fun r hr => ?_⟩
  · obtain ⟨s, hs, hmin, hmax⟩ := Resolve.size_freeSize base g z hz
    rw [hmin, hmax, show Field.terminator _ = g.terminator from hterm]
    exact Build.size_counts o ho a ha _ s (hb.size s hs)
  · exact Build.repetition_counts o ho a ha r (hb.repeated r (hrep ▸ hr))

/-- A terminated text, bytes up to the end, bytes whose length field measures them, and two lists
without a count. -/
def record : SchemaSet :=
  ⟨⟨"record.ksy", .mk
    { head := { Meta.empty with id := "record" }
      seq := [
        { id := "name", type := some (.named "strz"), sizeMax := some 0 },
        { id := "rest", sizeEos := true, sizeMin := some 2 },
        { id := "len", type := some (.named "u1"), attrLen := .str "data" },
        { id := "data", size := .str "len" },
        { id := "items", type := some (.named "u1"), repeated := "eos" },
        { id := "marks", type := some (.named "u1"), repeated := "until",
          repeatUntil := .str "_ == 0" }] } []⟩,
    []⟩

end FormatFuzz
