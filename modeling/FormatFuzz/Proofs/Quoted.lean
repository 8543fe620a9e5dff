import FormatFuzz.Text.Characters
import Mathlib.Data.List.Basic
import Mathlib.Data.Nat.ModEq

/-!
# Quoted texts end where they end

Between quotes every character has a form of its own, and no form goes on with another: a letter
after the backslash says how many digits follow it. So a quoted text in front of any rest gives back
the text and the rest.
-/

set_option autoImplicit false

namespace FormatFuzz.Text

def readHex (cs : List Char) : Nat :=
  cs.foldl (fun n c => 16 * n + (hexValue c).getD 0) 0

theorem hexValue_hexDigit (n : Nat) : hexValue (hexDigit n) = some (n % 16) := by
  have all : ∀ d < 16, hexValue (hexDigit d) = some d := by decide
  have hd : hexDigit n = hexDigit (n % 16) := by simp [hexDigit]
  rw [hd]
  exact all _ (Nat.mod_lt n (by omega))

theorem length_hexFixed (width n : Nat) : (hexFixed width n).length = width := by
  simp [hexFixed]

theorem hexFixed_succ (width n : Nat) :
    hexFixed (width + 1) n = hexFixed width (n / 16) ++ [hexDigit n] := by
  have hshift : ∀ i ∈ List.range width,
      hexDigit (n / Nat.pow 16 (width + 1 - 1 - i))
        = hexDigit (n / 16 / Nat.pow 16 (width - 1 - i)) := by
    intro i hi
    have hi : i < width := List.mem_range.mp hi
    have hp : Nat.pow 16 (width + 1 - 1 - i) = 16 * Nat.pow 16 (width - 1 - i) := by
      rw [show width + 1 - 1 - i = width - 1 - i + 1 by omega, Nat.pow_eq, Nat.pow_eq, pow_succ,
        mul_comm]
    rw [hp, Nat.div_div_eq_div_mul]
  rw [hexFixed, List.range_succ, List.map_append, List.map_congr_left hshift]
  simp [hexFixed]

theorem readHex_hexFixed (width n : Nat) : readHex (hexFixed width n) = n % 16 ^ width := by
  induction width generalizing n with
  | zero =>
    rw [pow_zero, Nat.mod_one]
    rfl
  | succ width ih =>
    have happ : readHex (hexFixed width (n / 16) ++ [hexDigit n])
        = 16 * readHex (hexFixed width (n / 16)) + n % 16 := by
      simp [readHex, hexValue_hexDigit]
    rw [hexFixed_succ, happ, ih, pow_succ', Nat.mod_mul, Nat.add_comm]

def letterCode (l : Char) : Nat :=
  match l with
  | 'a' => 7
  | 'b' => 8
  | 't' => 9
  | 'n' => 10
  | 'v' => 11
  | 'f' => 12
  | 'r' => 13
  | _ => l.toNat

/-- The code point of the character that a text between quotes begins with, and what follows. -/
def readEscape : List Char → Nat × List Char
  | '\\' :: 'x' :: cs => (readHex (cs.take 2), cs.drop 2)
  | '\\' :: 'u' :: cs => (readHex (cs.take 4), cs.drop 4)
  | '\\' :: 'U' :: cs => (readHex (cs.take 8), cs.drop 8)
  | '\\' :: l :: cs => (letterCode l, cs)
  | c :: cs => (c.toNat, cs)
  | [] => (0, [])

theorem read_hexFixed (width n : Nat) (rest : List Char) (h : n < 16 ^ width) :
    (readHex ((hexFixed width n ++ rest).take width), (hexFixed width n ++ rest).drop width)
      = (n, rest) := by
  have hl := length_hexFixed width n
  rw [List.take_append_of_le_length hl.ge, List.drop_append_of_le_length hl.ge,
    List.take_of_length_le hl.le, List.drop_of_length_le hl.le, readHex_hexFixed,
    Nat.mod_eq_of_lt h, List.nil_append]

theorem controlLetter?_eq_some (c l : Char) (h : controlLetter? c = some l) :
    letterCode l = c.toNat ∧ l ≠ 'x' ∧ l ≠ 'u' ∧ l ≠ 'U' := by
  unfold controlLetter? at h
  split at h
  all_goals first
    | (obtain rfl := Option.some.inj h; simp_all [letterCode])
    | cases h

theorem readEscape_escape (c : Char) (rest : List Char) :
    readEscape (escape '"' c ++ rest) = (c.toNat, rest) := by
  unfold escape
  split
  next h =>
    have h : c = '"' ∨ c = '\\' := by simpa using h
    rcases h with rfl | rfl <;> rfl
  next h =>
    have hb : c ≠ '\\' := fun e => h (by simp [e])
    split
    next => simp [readEscape, hb]
    next =>
      split
      next l hl =>
        obtain ⟨hcode, hx, hu, hU⟩ := controlLetter?_eq_some c l hl
        simp [readEscape, hcode]
      next =>
        have hc : c.toNat < 16 ^ 8 := by
          have := c.valid
          simp only [UInt32.isValidChar, Nat.isValidChar] at this
          simp only [Char.toNat]
          omega
        split
        next hs =>
          have hs : c.toNat < 0x20 ∨ c.toNat = 0x7f := by simpa using hs
          exact read_hexFixed 2 c.toNat rest (by omega)
        next =>
          split
          next hs => exact read_hexFixed 4 c.toNat rest hs
          next => exact read_hexFixed 8 c.toNat rest hc

theorem escape_head (c : Char) : ∃ d ds, escape '"' c = d :: ds ∧ d ≠ '"' := by
  unfold escape
  split
  next => exact ⟨_, _, rfl, by decide⟩
  next h =>
    have hq : c ≠ '"' := fun e => h (by simp [e])
    split
    next => exact ⟨_, _, rfl, hq⟩
    next =>
      split
      next => exact ⟨_, _, rfl, by decide⟩
      next => split <;> [skip; split] <;> exact ⟨_, _, rfl, by decide⟩

theorem escapes_append_inj (cs ds rest tail : List Char)
    (h : cs.flatMap (escape '"') ++ '"' :: rest = ds.flatMap (escape '"') ++ '"' :: tail) :
    cs = ds ∧ rest = tail := by
  induction cs generalizing ds with
  | nil =>
    cases ds with
    | nil => simpa using h
    | cons d ds =>
      obtain ⟨x, xs, hx, hq⟩ := escape_head d
      simp [hx, hq.symm] at h
  | cons c cs ih =>
    cases ds with
    | nil =>
      obtain ⟨x, xs, hx, hq⟩ := escape_head c
      simp [hx, hq] at h
    | cons d ds =>
      rw [List.flatMap_cons, List.flatMap_cons, List.append_assoc, List.append_assoc] at h
      have hr := congrArg readEscape h
      rw [readEscape_escape, readEscape_escape, Prod.mk.injEq, Char.toNat_inj] at hr
      obtain ⟨rfl, hrest⟩ := hr
      obtain ⟨rfl, rfl⟩ := ih ds hrest
      exact ⟨rfl, rfl⟩

theorem toList_quoted (s : String) :
    (quoted s).toList = '"' :: (s.toList.flatMap (escape '"') ++ ['"']) := by
  simp [quoted]

theorem quoted_append_inj (s t : String) (rest tail : List Char)
    (h : (quoted s).toList ++ rest = (quoted t).toList ++ tail) : s = t ∧ rest = tail := by
  rw [toList_quoted, toList_quoted] at h
  obtain ⟨hst, hrest⟩ := escapes_append_inj s.toList t.toList rest tail (by simpa using h)
  exact ⟨String.toList_inj.mp hst, hrest⟩

end FormatFuzz.Text
