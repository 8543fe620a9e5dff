import FormatFuzz.Double.Basic
import FormatFuzz.Runtime
import Mathlib.Data.List.Basic

/-!
# Calls on a buffer

The calls append, write, read, take and seek as steps of a machine. A call adds its payload at the
end of the data and may move the position, which stays within the data; so the data are the
payloads in their order whatever was read or sought in between. What one call answers is said of
any buffer with its position within its data.
-/

set_option autoImplicit false

namespace FormatFuzz.Buffer

inductive Op where
  | append (parts : List (List UInt8))
  | write (bs : List UInt8)
  | read (n : Nat)
  | next (n : Int)
  | seek (offset : Int64) (whence : Int)

def Op.payload : Op → List UInt8
  | .append parts => parts.flatten
  | .write bs => bs
  | _ => []

def step (b : Buffer) : Op → Buffer
  | .append parts => b.append parts
  | .write bs => (b.write bs).2
  | .read n => ((b.read n).map Prod.snd).getD b
  | .next n => (b.next n).2
  | .seek offset whence =>
    match b.seek offset whence with
    | .ok (_, c) => c
    | .error _ => b

def after (ops : List Op) : Buffer :=
  ops.foldl step empty

def Within (b : Buffer) : Prop :=
  b.pos ≤ b.size

/-- `bs` is the content between the old position and the new one, and nothing else changed. -/
structure Took (b : Buffer) (bs : List UInt8) (c : Buffer) : Prop where
  content : bs = (b.data.drop b.pos).take (c.pos - b.pos)
  moved : c.pos = b.pos + bs.length
  data : c.data = b.data
  within : c.Within

variable (b : Buffer)

theorem length_rest : b.rest.length = b.size - b.pos :=
  List.length_drop

theorem took_take (h : b.Within) (n : Nat) :
    Took b (b.rest.take n) { b with pos := b.pos + (b.rest.take n).length } where
  content := by
    rw [Nat.add_sub_cancel_left]
    exact List.take_eq_take_iff.mpr (by simp [rest])
  moved := rfl
  data := rfl
  within := by
    have hle := List.length_take_le' n b.rest
    rw [length_rest] at hle
    rw [Within] at h ⊢
    change b.pos + _ ≤ b.size
    omega

theorem read_eq_none (h : b.Within) (n : Nat) : b.read n = none ↔ b.pos = b.size := by
  rw [Within] at h
  by_cases hend : b.atEnd <;> simp [read, hend] <;> simp [atEnd] at hend <;> omega

theorem read_took (h : b.Within) (n : Nat) (bs : List UInt8) (c : Buffer)
    (hr : b.read n = some (bs, c)) : Took b bs c ∧ bs.length = min n (b.size - b.pos) := by
  by_cases hend : b.atEnd
  · simp [read, hend] at hr
  · simp only [read, hend, Bool.false_eq_true, if_false, Option.some.injEq, Prod.mk.injEq] at hr
    obtain ⟨rfl, rfl⟩ := hr
    exact ⟨took_take b h n, by rw [List.length_take, length_rest]⟩

/-- How many bytes a call for `n` takes: all that are left for a negative or too large `n`. -/
def share (n : Int) : Nat :=
  if n < 0 ∨ (b.size - b.pos : Nat) < n then b.size - b.pos else n.toNat

theorem next_eq (n : Int) : b.next n =
    (b.rest.take (b.share n), { b with pos := b.pos + (b.rest.take (b.share n)).length }) := by
  have hlen := length_rest b
  have hshare : (if n < 0 then b.rest else b.rest.take n.toNat) = b.rest.take (b.share n) := by
    rw [share]
    split_ifs with hn hs hs
    · rw [List.take_of_length_le (Nat.le_of_eq hlen)]
    · omega
    · rw [List.take_of_length_le (Nat.le_of_eq hlen), List.take_of_length_le (by omega)]
    · rfl
  rw [next, hshare]

theorem next_took (h : b.Within) (n : Int) :
    Took b (b.next n).1 (b.next n).2 ∧ (b.next n).1.length = b.share n := by
  have hshare : b.share n ≤ b.size - b.pos := by
    rw [share]
    split_ifs <;> omega
  rw [next_eq]
  exact ⟨took_take b h _, by rw [List.length_take, length_rest]; omega⟩

def origin (whence : Int) : Option Nat :=
  if whence = 0 then some 0
  else if whence = 1 then some b.pos
  else if whence = 2 then some b.size
  else none

theorem seek_eq (offset : Int64) (whence : Int) : b.seek offset whence =
    match b.origin whence with
    | none => .error (.whence whence)
    | some n =>
      let p := (Int64.ofNat n + offset).toInt
      if p < 0 || (b.size : Int) < p then .error (.offset p)
      else .ok (p, { b with pos := p.toNat }) := rfl

theorem origin_le (h : b.Within) (whence : Int) (n : Nat) (hn : b.origin whence = some n) :
    n ≤ b.size := by
  rw [Within] at h
  rw [origin] at hn
  split_ifs at hn <;> simp at hn <;> omega

theorem cast_half : ((Word.half : Nat) : Int) = 0x8000000000000000 := rfl

theorem cast_size : ((Word.size : Nat) : Int) = 0x10000000000000000 := rfl

theorem toInt_add_offset (n : Nat) (offset : Int64) (hn : n < Word.half) :
    (Int64.ofNat n + offset).toInt =
      if n + offset.toInt < Word.half then n + offset.toInt
      else n + offset.toInt - Word.size := by
  have hhalf := cast_half
  have hsize := cast_size
  have hword : (n : Int) < Word.half := Int.ofNat_lt.mpr hn
  have hlo := offset.le_toInt
  have hhi := offset.toInt_lt
  rw [Int64.toInt_add, Int64.toInt_ofNat_of_lt hn]
  split_ifs with h
  · exact Int.bmod_eq_of_le_mul_two (by omega) (by omega)
  · rw [← Int.sub_bmod_right (n + offset.toInt) Word.size]
    exact Int.bmod_eq_of_le_mul_two (by omega) (by omega)

/-- A sum in a word is a position of the data exactly when the sum of the integers is: beyond a word
one is negative and the other past the data. -/
theorem add_offset_within (n size : Nat) (hn : n ≤ size) (hs : size < Word.half) (offset : Int64)
    (p : Int) : (Int64.ofNat n + offset).toInt = p ∧ 0 ≤ p ∧ p ≤ size ↔
      p = n + offset.toInt ∧ 0 ≤ p ∧ p ≤ size := by
  have hword : (size : Int) < Word.half := Int.ofNat_lt.mpr hs
  have hhalf := cast_half
  have hsize := cast_size
  have hhi := offset.toInt_lt
  rw [toInt_add_offset n offset (Nat.lt_of_le_of_lt hn hs)]
  split_ifs with hfit <;> omega

theorem seek_within (offset : Int64) (whence p : Int) (c : Buffer)
    (h : b.seek offset whence = .ok (p, c)) : c.data = b.data ∧ c.Within := by
  rw [seek_eq] at h
  cases ho : b.origin whence with
  | none => simp [ho] at h
  | some n =>
    simp only [ho, Bool.or_eq_true, decide_eq_true_eq] at h
    split_ifs at h with hout
    · rw [Except.ok.injEq, Prod.mk.injEq] at h
      obtain ⟨-, rfl⟩ := h
      refine ⟨rfl, ?_⟩
      change (Int64.ofNat n + offset).toInt.toNat ≤ b.size
      omega

theorem seek_ok_iff (h : b.Within) (hs : b.size < Word.half) (offset : Int64) (whence p : Int)
    (c : Buffer) : b.seek offset whence = .ok (p, c) ↔
      ∃ n, b.origin whence = some n ∧ p = n + offset.toInt ∧ 0 ≤ p ∧ p ≤ b.size ∧
        c = { b with pos := p.toNat } := by
  rw [seek_eq]
  cases ho : b.origin whence with
  | none => simp
  | some n =>
    have hsum := add_offset_within n b.size (origin_le b h whence n ho) hs offset
    simp only [Bool.or_eq_true, decide_eq_true_eq, Option.some.injEq, exists_eq_left']
    split_ifs with hout
    · refine iff_of_false nofun ?_
      rintro ⟨hp, hlo, hhi, -⟩
      obtain ⟨heq, -, -⟩ := (hsum p).mpr ⟨hp, hlo, hhi⟩
      omega
    · rw [Except.ok.injEq, Prod.mk.injEq]
      constructor
      · rintro ⟨rfl, rfl⟩
        obtain ⟨hp, hlo, hhi⟩ := (hsum _).mp ⟨rfl, by omega, by omega⟩
        exact ⟨hp, hlo, hhi, rfl⟩
      · rintro ⟨hp, hlo, hhi, rfl⟩
        obtain ⟨heq, -, -⟩ := (hsum p).mpr ⟨hp, hlo, hhi⟩
        exact ⟨heq, by rw [heq]⟩

theorem step_within (h : b.Within) (op : Op) : (b.step op).Within := by
  cases op with
  | append parts => exact Nat.le_trans h (by simp [step, append, size])
  | write bs => exact Nat.le_trans h (by simp [step, write, size])
  | read n =>
    cases hr : b.read n with
    | none => simpa [step, hr] using h
    | some r => simpa [step, hr] using (read_took b h n r.1 r.2 hr).1.within
  | next n => exact (next_took b h n).1.within
  | seek offset whence =>
    cases hs : b.seek offset whence with
    | error e => simpa [step, hs] using h
    | ok r => simpa [step, hs] using (seek_within b offset whence r.1 r.2 hs).2

theorem read_data (n : Nat) : (b.step (.read n)).data = b.data := by
  by_cases hend : b.atEnd <;> simp [step, read, hend]

theorem seek_data (offset : Int64) (whence : Int) :
    (b.step (.seek offset whence)).data = b.data := by
  cases hs : b.seek offset whence with
  | error e => simp [step, hs]
  | ok r => simpa [step, hs] using (seek_within b offset whence r.1 r.2 hs).1

theorem step_data (op : Op) : (b.step op).data = b.data ++ op.payload := by
  cases op with
  | append parts => rfl
  | write bs => rfl
  | read n => exact (read_data b n).trans (List.append_nil _).symm
  | next n => exact (List.append_nil _).symm
  | seek offset whence => exact (seek_data b offset whence).trans (List.append_nil _).symm

theorem foldl_step_within (h : b.Within) (ops : List Op) : (ops.foldl step b).Within := by
  induction ops generalizing b with
  | nil => exact h
  | cons op ops ih => exact ih (b.step op) (step_within b h op)

theorem foldl_step_data (ops : List Op) :
    (ops.foldl step b).data = b.data ++ ops.flatMap Op.payload := by
  induction ops generalizing b with
  | nil => exact (List.append_nil _).symm
  | cons op ops ih => rw [List.foldl_cons, ih, step_data, List.append_assoc, List.flatMap_cons]

/-- What holds after some calls, and what the next call does. -/
structure Behaves (ops : List Op) (b : Buffer) : Prop where
  within : b.pos ≤ b.size
  content : b.data = ops.flatMap Op.payload
  /-- Nothing is read exactly at the end. -/
  atEnd (n : Nat) : b.read n = none ↔ b.pos = b.size
  read (n : Nat) (bs : List UInt8) (c : Buffer) (h : b.read n = some (bs, c)) :
    Took b bs c ∧ bs.length = min n (b.size - b.pos)
  next (n : Int) : Took b (b.next n).1 (b.next n).2 ∧ (b.next n).1.length = b.share n
  /-- The sum of the integers decides, for every offset of a word. -/
  seek (hs : b.size < Word.half) (offset : Int64) (whence p : Int) (c : Buffer) :
    b.seek offset whence = .ok (p, c) ↔
      ∃ n, b.origin whence = some n ∧ p = n + offset.toInt ∧ 0 ≤ p ∧ p ≤ b.size ∧
        c = { b with pos := p.toNat }
  unread (n : Nat) (h : b.read n = none) : b.step (.read n) = b
  unsought (offset : Int64) (whence : Int) (e : Error) (h : b.seek offset whence = .error e) :
    b.step (.seek offset whence) = b

theorem Within.behaves (h : b.Within) (ops : List Op) (hdata : b.data = ops.flatMap Op.payload) :
    b.Behaves ops where
  within := h
  content := hdata
  atEnd := read_eq_none b h
  read := read_took b h
  next := next_took b h
  seek := seek_ok_iff b h
  unread n hn := by simp [step, hn]
  unsought offset whence e he := by simp [step, he]

/-- Any sequence of calls on an empty buffer keeps the position within the data, which are what was
added in the order of the calls; and each next call does what it should. -/
theorem behaves_after (ops : List Op) : (after ops).Behaves ops :=
  (foldl_step_within empty (Nat.le_refl 0) ops).behaves _ ops (foldl_step_data empty ops)

example : (after [.write [1, 2, 3], .next 2]).seek 0x7fffffffffffffff 1 =
    .error (.offset (-0x7fffffffffffffff)) := rfl

end FormatFuzz.Buffer
