import FormatFuzz.Expr.Parser
import FormatFuzz.Proofs.Expr.Formation
import FormatFuzz.Proofs.Markdown.Rows
import FormatFuzz.Proofs.Quoted
import FormatFuzz.Proofs.Yaml.Scalar

/-!
# The text of an expression stays on its line

Numerals, operators and names have no line breaks, and a line break of a string is written by its
letter. What comes from elsewhere are the names of enums and their owners in members that were not
written out.
-/

set_option autoImplicit false

namespace FormatFuzz

namespace Text

theorem unbroken_ofList (cs : List Char) : Unbroken (String.ofList cs) ↔ '\n' ∉ cs := by
  rw [Unbroken, String.toList_ofList]

theorem plain_of_toList (s : String)
    (h : ∀ c ∈ s.toList, c.isDigit = true ∨ c ∈ ['.', 'e', '-', '+']) : Plain s :=
  ⟨fun hc => absurd (h _ hc) (by decide), fun hc => absurd (h _ hc) (by decide)⟩

theorem plain_int (v : Int) : Plain (toString v) := by
  refine plain_of_toList _ fun c hc => ?_
  cases v with
  | ofNat n =>
    rw [show (Int.ofNat n : Int) = (n : Int) from rfl, Numeral.toList_toString_ofNat] at hc
    exact .inl (Double.toDigits_isDigit n c hc)
  | negSucc n =>
    rw [Numeral.toList_toString_negSucc] at hc
    rcases List.mem_cons.mp hc with rfl | hc
    · exact .inr (by simp)
    · exact .inl (Double.toDigits_isDigit _ c hc)

theorem plain_double (v : Double) : Plain (v.render .general) := by
  by_cases hnan : v.isNaN = true
  · rw [Double.render, if_pos hnan]
    decide
  · by_cases hinf : v.isInfinite = true
    · rw [Double.render, if_neg hnan]
      dsimp only
      rw [if_pos hinf]
      cases v.negative <;> decide
    · obtain ⟨s, hs, htext, -⟩ :=
        Double.render_chars .general (by decide) v (Double.isFinite_of v hnan hinf)
      refine plain_of_toList _ fun c hc => ?_
      rw [htext] at hc
      rcases List.mem_append.mp hc with hc | hc
      · cases hneg : v.negative <;> simp [hneg] at hc
        exact .inr (by simp [hc])
      · exact s.mem_chars hs c hc

theorem hexDigit_ne (n : Nat) : hexDigit n ≠ '\n' := by
  have all : ∀ d < 16, hexDigit d ≠ '\n' := by decide
  have hd : hexDigit n = hexDigit (n % 16) := by simp [hexDigit]
  rw [hd]
  exact all _ (Nat.mod_lt n (by decide))

theorem notMem_hexFixed (width n : Nat) : '\n' ∉ hexFixed width n := by
  intro h
  obtain ⟨i, -, hi⟩ := List.mem_map.mp h
  exact hexDigit_ne _ hi

theorem notMem_escape (c : Char) : '\n' ∉ escape '"' c := by
  unfold escape
  split
  next h =>
    have h : c = '"' ∨ c = '\\' := by simpa using h
    rcases h with rfl | rfl <;> decide
  next =>
    split
    next hc =>
      intro h
      rw [← List.mem_singleton.mp h] at hc
      exact absurd hc (by decide)
    next =>
      split
      next l hl =>
        unfold controlLetter? at hl
        split at hl
        all_goals first
          | (obtain rfl := Option.some.inj hl; decide)
          | cases hl
      next =>
        split
        · simpa using notMem_hexFixed 2 c.toNat
        · split
          · simpa using notMem_hexFixed 4 c.toNat
          · simpa using notMem_hexFixed 8 c.toNat

theorem unbroken_quoted (s : String) : Unbroken (quoted s) := by
  rw [Unbroken, toList_quoted]
  simpa using fun c _ => notMem_escape c

theorem unbroken_hex (bs : List UInt8) : Unbroken (hex bs) := by
  rw [hex, unbroken_ofList]
  intro h
  obtain ⟨b, -, hb⟩ := List.mem_flatMap.mp h
  exact notMem_hexFixed _ _ hb

end Text

namespace Expr

open Text (Unbroken)
open Token (isIdentifier)

theorem unbroken_identifier (id : String) (h : isIdentifier id = true) : Unbroken id := by
  intro hc
  unfold isIdentifier at h
  split at h
  next => cases h
  next c cs hcs =>
    rw [hcs] at hc
    obtain ⟨hstart, hpart⟩ := Bool.and_eq_true_iff.mp h
    rcases List.mem_cons.mp hc with rfl | hc
    · exact absurd hstart (by decide)
    · exact absurd (List.all_eq_true.mp hpart _ hc) (by decide)

theorem unbroken_operators (u : UnaryOp) (b : BinaryOp) : Unbroken u.text ∧ Unbroken b.text := by
  cases u <;> cases b <;> decide

theorem unbroken_member (path : List String) (id : String) (h : ∀ s ∈ path ++ [id], Unbroken s) :
    Unbroken (text (.member path id)) := by
  rw [text]
  exact Text.unbroken_join _ _ (by decide) h

theorem unbroken_list (xs : List Expr) (h : ∀ x ∈ xs, Unbroken x.text) :
    Unbroken (text (.list xs)) := by
  have htexts : ∀ s ∈ texts xs, Unbroken s := by
    induction xs with
    | nil => simp [texts]
    | cons x xs ih =>
      obtain ⟨hx, hxs⟩ := List.forall_mem_cons.mp h
      exact List.forall_mem_cons.mpr ⟨hx, ih hxs⟩
  rw [text, Text.unbroken_append, Text.unbroken_append]
  exact ⟨⟨by decide, Text.unbroken_join _ _ (by decide) htexts⟩, by decide⟩

theorem Formed.unbroken {e : Expr} (h : Formed e) : Unbroken e.text := by
  induction h with
  | int v => exact (Text.plain_int v).1
  | float => exact (Text.plain_double _).1
  | str s => exact Text.unbroken_quoted s
  | bool b => cases b <;> decide
  | name hid => exact unbroken_identifier _ hid
  | member h => exact unbroken_member _ _ fun s hs => unbroken_identifier s (h s hs)
  | @unary op x _ _ ih =>
    rw [text, Text.unbroken_append]
    exact ⟨(unbroken_operators op .or).1, ih⟩
  | @binary op x y _ _ ihx ihy =>
    simp only [text, Text.unbroken_append]
    exact ⟨⟨⟨⟨⟨⟨by decide, ihx⟩, by decide⟩, (unbroken_operators .neg op).2⟩, by decide⟩, ihy⟩,
      by decide⟩
  | cond _ _ _ ihc iha ihb =>
    simp only [text, Text.unbroken_append]
    exact ⟨⟨⟨⟨⟨⟨by decide, ihc⟩, by decide⟩, iha⟩, by decide⟩, ihb⟩, by decide⟩
  | attr _ hid ih =>
    simp only [text, Text.unbroken_append]
    exact ⟨⟨ih, by decide⟩, unbroken_identifier _ hid⟩
  | index _ _ ihx ihi =>
    simp only [text, Text.unbroken_append]
    exact ⟨⟨⟨ihx, by decide⟩, ihi⟩, by decide⟩
  | list _ ih => exact unbroken_list _ ih

mutual

theorem unbroken_ofValue : ∀ (v : Value) (e : Expr), ofValue v = .ok (some e) → Unbroken e.text
  | .null, e, h => by simp [ofValue] at h
  | .int n, e, h => by
    obtain rfl : .int n = e := by simpa [ofValue] using h
    exact (Text.plain_int n).1
  | .float x, e, h => by
    obtain rfl : .float x = e := by simpa [ofValue] using h
    exact (Text.plain_double x).1
  | .bool b, e, h => by
    obtain rfl : .bool b = e := by simpa [ofValue] using h
    cases b <;> decide
  | .str s, e, h => by
    rw [ofValue] at h
    split at h
    next x hx =>
      obtain rfl : x = e := by simpa using h
      exact (formed_parse s x hx).unbroken
    next => cases h
  | .list vs, e, h => by
    rw [ofValue] at h
    split at h
    next es hes =>
      obtain rfl : .list es = e := by simpa using h
      exact unbroken_list es (unbroken_ofValues vs es hes)
    next => cases h
  | .time t, e, h => by simp [ofValue] at h
  | .map es, e, h => by simp [ofValue] at h
  | .table es, e, h => by simp [ofValue] at h

theorem unbroken_ofValues : ∀ (vs : List Value) (es : List Expr), ofValues vs = .ok es →
    ∀ e ∈ es, Unbroken e.text
  | [], es, h => by
    obtain rfl : [] = es := by simpa [ofValues] using h
    simp
  | v :: vs, es, h => by
    rw [ofValues] at h
    split at h
    next => cases h
    next x hx =>
      split at h
      next => cases h
      next xs hxs =>
        obtain rfl : x.getD .absent :: xs = es := by simpa using h
        refine List.forall_mem_cons.mpr ⟨?_, unbroken_ofValues vs xs hxs⟩
        cases x with
        | none => exact (by decide : Unbroken "")
        | some e => exact unbroken_ofValue v e hx

end

theorem unbroken_printed {e : Expr} (h : Unbroken e.text) : Unbroken e.printed := by
  unfold printed
  split
  · exact h
  · split <;> decide

end Expr

end FormatFuzz
