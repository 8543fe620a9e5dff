import FormatFuzz.Program.Method
import FormatFuzz.Proofs.Model.Sizes
import FormatFuzz.Proofs.Program.Declarations
import FormatFuzz.Proofs.Random.Draws

/-!
# Comparisons of unsigned words

A program computes with signed words. A field of eight bytes without a sign is converted to one, and
a constant is written as the one with its low bits, so equality means what it means for integers.
An order does not once exactly one of the two is in the upper half: it becomes negative.
-/

set_option autoImplicit false

namespace FormatFuzz

def BinaryOp.comparisons : List BinaryOp := [.eq, .ne, .lt, .le, .gt, .ge]

def BinaryOp.compares (op : BinaryOp) (a b : Int) : Bool :=
  match op with
  | .eq => a = b
  | .ne => a ≠ b
  | .lt => a < b
  | .le => a ≤ b
  | .gt => a > b
  | .ge => a ≥ b
  | _ => false

namespace Program

/-- A comparison of what a place holds, a word without a sign, with a constant. -/
structure Comparison where
  op : BinaryOp
  place : String
  constant : Int64
  /-- Does the constant come first? -/
  flipped : Bool

namespace Comparison

def source (c : Comparison) (e : Expr) (v : Int) : Expr :=
  if c.flipped then .binary c.op (.int v) e else .binary c.op e (.int v)

def code (c : Comparison) : String :=
  let held := call "int64" [c.place]
  let constant := toString c.constant.toInt
  if c.flipped then "(" ++ constant ++ " " ++ c.op.text ++ " " ++ held ++ ")"
  else "(" ++ held ++ " " ++ c.op.text ++ " " ++ constant ++ ")"

/-- What the program finds where the place holds `x`: both are signed words to it. -/
def finds (c : Comparison) (x : UInt64) : Bool :=
  if c.flipped then c.op.compares c.constant.toInt x.toInt64.toInt
  else c.op.compares x.toInt64.toInt c.constant.toInt

def means (c : Comparison) (x : UInt64) (v : Int) : Bool :=
  if c.flipped then c.op.compares v x.toNat else c.op.compares x.toNat v

end Comparison

theorem bmod_word (v : Int) (h0 : 0 ≤ v) (hlt : v < 2 ^ 64) :
    v.bmod (2 ^ 64) = if v < 2 ^ 63 then v else v - 2 ^ 64 := by
  rw [Int.bmod_def, Int.emod_eq_of_lt h0 (by exact_mod_cast hlt)]
  norm_num

section Words

variable (a b : Int) (ha : 0 ≤ a) (ha' : a < 2 ^ 64) (hb : 0 ≤ b) (hb' : b < 2 ^ 64)

include ha ha' hb hb'

theorem compares_equality (op : BinaryOp) (hop : op = .eq ∨ op = .ne) :
    op.compares (a.bmod (2 ^ 64)) (b.bmod (2 ^ 64)) = op.compares a b := by
  have h : a.bmod (2 ^ 64) = b.bmod (2 ^ 64) ↔ a = b := by
    rw [bmod_word a ha ha', bmod_word b hb hb']
    split_ifs <;> omega
  rcases hop with rfl | rfl <;> simp only [BinaryOp.compares, ne_eq, h]

theorem compares_order (op : BinaryOp) (hop : op ∈ [BinaryOp.lt, .le, .gt, .ge]) :
    op.compares (a.bmod (2 ^ 64)) (b.bmod (2 ^ 64)) = op.compares a b ↔
      (a < 2 ^ 63 ↔ b < 2 ^ 63) := by
  rw [bmod_word a ha ha', bmod_word b hb hb']
  simp only [List.mem_cons, List.not_mem_nil, or_false] at hop
  rcases hop with rfl | rfl | rfl | rfl <;> simp only [BinaryOp.compares, decide_eq_decide] <;>
    split_ifs <;> omega

theorem compares_iff (op : BinaryOp) (hop : op ∈ BinaryOp.comparisons) :
    op.compares (a.bmod (2 ^ 64)) (b.bmod (2 ^ 64)) = op.compares a b ↔
      op = .eq ∨ op = .ne ∨ (a < 2 ^ 63 ↔ b < 2 ^ 63) := by
  rw [← or_assoc]
  by_cases heq : op = .eq ∨ op = .ne
  · exact iff_of_true (compares_equality a b ha ha' hb hb' op heq) (.inl heq)
  · rw [or_iff_right heq]
    refine compares_order a b ha ha' hb hb' op ?_
    rw [not_or] at heq
    exact List.mem_of_ne_of_mem heq.2 (List.mem_of_ne_of_mem heq.1 hop)

end Words

def comparison (op : BinaryOp) (place : String) (v : Int) (flipped : Bool) : Comparison :=
  ⟨op, place, Int64.ofInt v, flipped⟩

theorem Comparison.finds_iff (op : BinaryOp) (hop : op ∈ BinaryOp.comparisons) (place : String)
    (v : Int) (h0 : 0 ≤ v) (hlt : v < 2 ^ 64) (flipped : Bool) (x : UInt64) :
    (comparison op place v flipped).finds x = (comparison op place v flipped).means x v ↔
      op = .eq ∨ op = .ne ∨ (x.toNat < 2 ^ 63 ↔ v < 2 ^ 63) := by
  have hx : (x.toNat : Int) < 2 ^ 64 := by exact_mod_cast x.toNat_lt
  have hhalf : (x.toNat : Int) < 2 ^ 63 ↔ x.toNat < 2 ^ 63 := by exact_mod_cast Iff.rfl
  have hv : (Int64.ofInt v).toInt = v.bmod (2 ^ 64) := Int64.toInt_ofInt
  rw [finds, means, comparison, Draw.toInt_toInt64, hv, ← hhalf]
  cases flipped with
  | false => exact compares_iff _ v (by omega) hx h0 hlt op hop
  | true =>
    rw [iff_comm (a := (x.toNat : Int) < 2 ^ 63)]
    exact compares_iff v _ h0 hlt (by omega) hx op hop

section Code

variable (fr : Frame) (e : Expr) (place : String)
  (he : fr.expr e = .ok (.ofStored place (.int false 8)))

include he

theorem expr_comparison (op : BinaryOp) (hop : op ∈ BinaryOp.comparisons) (v : Int)
    (flipped : Bool) : fr.expr ((comparison op place v flipped).source e v) =
      .ok ⟨(comparison op place v flipped).code, .bool, false⟩ := by
  have hv : Value.ofInt v = ⟨toString (Int64.ofInt v).toInt, .word, true⟩ := by
    rw [Value.ofInt, Word.wrap, Int64.toInt_ofInt]
  have hheld : Value.ofStored place (.int false 8) = ⟨call "int64" [place], .word, false⟩ := rfl
  rw [Frame.expr, hheld] at he
  have hop : opClass op = .equality ∨ opClass op = .order := by
    simp only [BinaryOp.comparisons, List.mem_cons, List.not_mem_nil, or_false] at hop
    rcases hop with rfl | rfl | rfl | rfl | rfl | rfl <;> simp [opClass]
  cases flipped with
  | false =>
    rw [Frame.expr, Comparison.source, comparison, if_neg (by simp), exprCode, he, exprCode, hv]
    rcases hop with hop | hop <;> simp only [binaryCode, hop, Value.promote, ok_bind] <;> rfl
  | true =>
    rw [Frame.expr, Comparison.source, comparison, if_pos rfl, exprCode, he, exprCode, hv]
    rcases hop with hop | hop <;> simp only [binaryCode, hop, Value.promote, ok_bind] <;> rfl

end Code

/-- A frame that sees a member of its type: it holds an object and hides no member by a variable. -/
structure Sees (fr : Frame) (t : TypeDef) (id : String) : Prop where
  here : fr.here = t
  holder : fr.holder ≠ ""
  free : Keyed.get? fr.locals id = none

def Frame.place (fr : Frame) (id : String) : String :=
  fr.holder ++ "." ++ fr.plan.names.member fr.here id

theorem nameCode_member (infer : Infer) (fr : Frame) (id : String) (hid : id ∉ Expr.reserved)
    (hfree : Keyed.get? fr.locals id = none) :
    nameCode infer fr id = memberCode infer fr.plan.names fr.holder fr.here id := by
  simp only [Expr.reserved, List.mem_cons, List.not_mem_nil, or_false, not_or] at hid
  obtain ⟨hroot, hparent, hstream, hcurrent, hindex⟩ := hid
  simp [nameCode, hfree, hroot, hparent, hstream, hcurrent, hindex]

theorem expr_field (t : TypeDef) (hn : (memberIds t).Nodup) (f : Field) (hf : f ∈ t.fields)
    (hid : f.id ∉ Expr.reserved) (fr : Frame) (hsees : Sees fr t f.id) :
    fr.expr (.name f.id) = .ok (.ofField (fr.place f.id) f) := by
  obtain ⟨rfl, hholder, hfree⟩ := hsees
  have hfield : fr.here.field? f.id = some f :=
    (Resolve.field?_eq_some fr.here hn.of_append_left f.id f).mpr ⟨hf, rfl⟩
  have hinstance : fr.here.instance? f.id = none := by
    refine List.find?_eq_none.mpr fun i hi h => ?_
    have hmem : f.id ∈ fr.here.instances.map Instance.id := by
      rw [← beq_iff_eq.mp h]
      exact List.mem_map_of_mem hi
    exact List.disjoint_of_nodup_append hn (List.mem_map_of_mem hf) hmem
  rw [Frame.expr, exprCode, nameCode_member _ fr f.id hid hfree, memberCode, hfield, hinstance]
  simp [hholder, Frame.place]

theorem ofField_int (f : Field) (place : String) {signed : Bool} {width : Nat}
    {endian : Option Endian} (htype : f.type = .prim (.int signed width endian))
    (hsingle : f.repeated = none) :
    Value.ofField place f = .ofStored place (.int signed width) := by
  simp [Value.ofField, hsingle, elementType, htype]

end Program

open Program

/-- In a compiled model the name of a field of eight bytes without a sign stands for such a word in a
place. Whatever expression does, its comparison with a literal gives what it gives for the integers
if it asks for equality or has both of them in one half of the words, and the opposite if not. -/
theorem Model.compile_comparison_iff (o : Options) (set : SchemaSet) (m : Model)
    (h : Model.compile o set = .ok m) (t : TypeDef) (ht : t ∈ m.types) (f : Field)
    (hf : f ∈ t.fields) (endian : Option Endian) (htype : f.type = .prim (.int false 8 endian))
    (hsingle : f.repeated = none) (hid : f.id ∉ Expr.reserved) (fr : Frame)
    (hsees : Sees fr t f.id) (op : BinaryOp) (hop : op ∈ BinaryOp.comparisons) (v : Int)
    (h0 : 0 ≤ v) (hlt : v < 2 ^ 64) (flipped : Bool) :
    fr.expr (.name f.id) = .ok (.ofStored (fr.place f.id) (.int false 8)) ∧
    ∀ e place, fr.expr e = .ok (.ofStored place (.int false 8)) →
      fr.expr ((comparison op place v flipped).source e v) =
          .ok ⟨(comparison op place v flipped).code, .bool, false⟩ ∧
        ∀ x : UInt64, (comparison op place v flipped).finds x =
            (comparison op place v flipped).means x v ↔
          op = .eq ∨ op = .ne ∨ (x.toNat < 2 ^ 63 ↔ v < 2 ^ 63) := by
  have hname := expr_field t (compile_memberIds o set m h t ht) f hf hid fr hsees
  rw [ofField_int f _ htype hsingle] at hname
  refine ⟨hname, fun e place he => ?_⟩
  exact ⟨expr_comparison fr e place he op hop v flipped,
    Comparison.finds_iff op hop place v h0 hlt flipped⟩

def counter : SchemaSet :=
  ⟨⟨"counter.ksy", .mk
    { head := { Meta.empty with id := "counter" }
      seq := [{ id := "n", type := some (.named "u8") }] } []⟩, []⟩

def Model.singles (m : Model) : List (List (String × Primitive)) :=
  m.types.map fun t => t.fields.filterMap fun f =>
    match f.type, f.repeated with
    | .prim p, none => some (f.id, p)
    | _, _ => none

theorem compile_counter : ∃ m, Model.compile {} counter = .ok m ∧ ∃ t ∈ m.types, ∃ f ∈ t.fields,
    f.id = "n" ∧ f.type = .prim (.int false 8 (some .little)) ∧ f.repeated = none := by
  obtain ⟨m, hm, hsingles⟩ := exists_ok_of_toOption_map (Model.compile {} counter) Model.singles
    [[("n", .int false 8 (some .little))]] (by decide +kernel)
  obtain ⟨t, ht, hfields⟩ := List.mem_map.mp
    (show [("n", Primitive.int false 8 (some .little))] ∈ m.types.map _ from
      hsingles ▸ List.mem_singleton_self _)
  obtain ⟨f, hf, hfield⟩ := List.mem_filterMap.mp (hfields ▸ List.mem_singleton_self _)
  split at hfield
  next p htype hrepeated =>
    obtain ⟨hid, rfl⟩ := Prod.mk.inj (Option.some.inj hfield)
    exact ⟨m, hm, t, ht, f, hf, hid, htype, hrepeated⟩
  next => cases hfield

theorem sees_ownFrame (p : Plan) (t : TypeDef) (id : String) : Sees (ownFrame p t) t id :=
  ⟨rfl, by simp [ownFrame], rfl⟩

theorem Model.compile_comparison_iff_counter : ∃ m, Model.compile {} counter = .ok m ∧
    ∃ t ∈ m.types, ∃ f ∈ t.fields, f.id = "n" ∧ Sees (ownFrame (.ofModel m) t) t f.id ∧
      ∃ c : Comparison, (ownFrame (.ofModel m) t).expr (.binary .lt (.name f.id) (.int 5)) =
        .ok ⟨c.code, .bool, false⟩ ∧ c.finds 4 = c.means 4 5 := by
  obtain ⟨m, hm, t, ht, f, hf, hid, htype, hsingle⟩ := compile_counter
  have hsees := sees_ownFrame (.ofModel m) t f.id
  obtain ⟨hname, hcompares⟩ := Model.compile_comparison_iff {} counter m hm t ht f hf _ htype
    hsingle (by rw [hid]; decide) _ hsees .lt (by decide) 5 (by decide) (by decide) false
  obtain ⟨hcode, hfinds⟩ := hcompares _ _ hname
  exact ⟨m, hm, t, ht, f, hf, hid, hsees, _, hcode, (hfinds 4).mpr (.inr (.inr (by decide)))⟩

theorem code_counter (place : String) :
    (comparison .gt place 5 false).code = "(int64(" ++ place ++ ") > 5)" := by
  have hopen : "(" ++ call "int64" [place] = "(int64(" ++ (place ++ ")") := by
    rw [call, Text.join, ← String.append_assoc, ← String.append_assoc, String.append_assoc]
    rfl
  have hclose : ")" ++ (" " ++ (">" ++ (" " ++ (toString (Int64.ofInt 5).toInt ++ ")")))) =
      ") > 5)" := by decide
  calc (comparison .gt place 5 false).code
    _ = "(" ++ call "int64" [place] ++ " " ++ ">" ++ " " ++ toString (Int64.ofInt 5).toInt ++ ")" :=
      rfl
    _ = "(int64(" ++ place ++ ") > 5)" := by
      rw [hopen]
      simp only [String.append_assoc, hclose]

theorem misses_counter (place : String) :
    (comparison .gt place 5 false).means 0x8000000000000000 5 = true ∧
      (comparison .gt place 5 false).finds 0x8000000000000000 = false :=
  ⟨rfl, rfl⟩

/-- The program takes the first word of the upper half not to be greater than five. -/
theorem Model.compile_misses_greater : ∃ m, Model.compile {} counter = .ok m ∧ ∃ t ∈ m.types,
    ∃ place, (ownFrame (.ofModel m) t).expr (.name "n") = .ok (.ofStored place (.int false 8)) ∧
      (ownFrame (.ofModel m) t).expr (.binary .gt (.name "n") (.int 5)) =
        .ok ⟨"(int64(" ++ place ++ ") > 5)", .bool, false⟩ ∧
      (comparison .gt place 5 false).means 0x8000000000000000 5 = true ∧
      (comparison .gt place 5 false).finds 0x8000000000000000 = false := by
  obtain ⟨m, hm, t, ht, f, hf, hid, htype, hsingle⟩ := compile_counter
  have hsees := sees_ownFrame (.ofModel m) t f.id
  have hname := expr_field t (compile_memberIds {} counter m hm t ht) f hf (by rw [hid]; decide) _
    hsees
  rw [hid, ofField_int f _ htype hsingle] at hname
  have hcode := expr_comparison _ _ _ hname .gt (by decide) 5 false
  rw [code_counter] at hcode
  exact ⟨m, hm, t, ht, _, hname, hcode, misses_counter _⟩

end FormatFuzz
