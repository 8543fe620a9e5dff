import FormatFuzz.Program.Method
import FormatFuzz.Proofs.Model.Members
import FormatFuzz.Proofs.Random.Draws

/-!
# Integers drawn from a range

A program draws an integer field by one of two calls, chosen by the bounds of its range, and
converts what it gets to the type that holds the field. The call gives any member of the range, so
the conversion loses nothing exactly when the range is not empty and lies within the type. A normal
schema has such ranges if its copies kept the names of the types: a range is checked against the
name of the type as it was before the last copies.
-/

set_option autoImplicit false

namespace FormatFuzz

namespace Program

/-- The call that draws from a range, with its arguments as the runtime gets them. -/
inductive RangeCall where
  | int (lo hi : Int64)
  | uint (lo hi : UInt64)

namespace RangeCall

def bounds : RangeCall → Int × Int
  | .int lo hi => (lo.toInt, hi.toInt)
  | .uint lo hi => (lo.toNat, hi.toNat)

def name : RangeCall → String
  | .int .. => "g.ctx.rand.Int"
  | .uint .. => "g.ctx.rand.Uint"

def code (c : RangeCall) : String :=
  call c.name [intText c.bounds.1, intText c.bounds.2]

def draw {σ : Type} [RandomSource σ] (tries : Nat) : RangeCall → Draw σ Int
  | .int lo hi => do return (← Draw.int tries lo hi).toInt
  | .uint lo hi => do return ((← Draw.uint tries lo hi).toNat : Int)

/-- The number of members of the range, zero standing for all words. -/
def members : RangeCall → UInt64
  | .int lo hi => Draw.members lo.toUInt64 hi.toUInt64
  | .uint lo hi => Draw.members lo hi

def ofRange (r : Int × Int) : RangeCall :=
  if Word.isSigned r.1 && Word.isSigned r.2 then .int (Int64.ofInt r.1) (Int64.ofInt r.2)
  else .uint (UInt64.ofNat r.1.toNat) (UInt64.ofNat r.2.toNat)

variable (c : RangeCall)

theorem draw_gives {σ : Type} [RandomSource σ] (h : c.bounds.1 ≤ c.bounds.2) (tries : Nat)
    (s : σ) (hs : Draw.Settles tries c.members s) :
    ∃ x t, (c.draw tries).Gives s x t ∧ c.bounds.1 ≤ x ∧ x ≤ c.bounds.2 := by
  cases c with
  | int lo hi =>
    obtain ⟨x, t, ht, hlo, hhi⟩ := Draw.int_gives lo hi (Int64.le_iff_toInt_le.mpr h) tries s hs
    exact ⟨x.toInt, t, ht.map _, hlo, hhi⟩
  | uint lo hi =>
    have hle : lo ≤ hi := UInt64.le_iff_toNat_le.mpr (Int.ofNat_le.mp h)
    obtain ⟨x, t, ht, hlo, hhi⟩ := Draw.uint_gives lo hi hle tries s hs
    exact ⟨x.toNat, t, ht.map _, Int.ofNat_le.mpr hlo, Int.ofNat_le.mpr hhi⟩

theorem exists_draw_gives (x : Int) (hlo : c.bounds.1 ≤ x) (hhi : x ≤ c.bounds.2) :
    ∃ s : Draw.Constant, Draw.Settles 1 c.members s ∧ (c.draw 1).Gives s x s := by
  cases c with
  | int lo hi =>
    have hx : (Int64.ofInt x).toInt = x :=
      Int64.toInt_ofInt_of_le (lo.le_toInt.trans hlo) (hhi.trans_lt hi.toInt_lt)
    obtain ⟨s, hs, hgives⟩ := Draw.exists_int_gives lo hi (Int64.ofInt x) (hx.symm ▸ hlo)
      (hx.symm ▸ hhi)
    have hmap := hgives.map fun y => y.toInt
    exact ⟨s, hs, hx ▸ hmap⟩
  | uint lo hi =>
    simp only [bounds] at hlo hhi
    have hlt := hi.toNat_lt
    have hx : (UInt64.ofNat x.toNat).toNat = x.toNat :=
      UInt64.toNat_ofNat_of_lt' (show x.toNat < 2 ^ 64 by omega)
    obtain ⟨s, hs, hgives⟩ := Draw.exists_uint_gives lo hi (UInt64.ofNat x.toNat) (by omega)
      (by omega)
    have hmap := hgives.map fun y => (y.toNat : Int)
    rw [hx, Int.toNat_of_nonneg (by omega)] at hmap
    exact ⟨s, hs, hmap⟩

end RangeCall

/-- The integer that a type of a width holds after a conversion. -/
def stored (signed : Bool) (width : Nat) (v : Int) : Int :=
  if signed then v.bmod (2 ^ (8 * width)) else v % 2 ^ (8 * width)

theorem emod_eq_self_iff (m : Nat) (hm : 0 < m) (v : Int) : v % m = v ↔ 0 ≤ v ∧ v < m := by
  constructor
  · intro h
    rw [← h]
    exact ⟨Int.emod_nonneg v (by omega), Int.emod_lt_of_pos v (by omega)⟩
  · exact fun h => Int.emod_eq_of_lt h.1 h.2

theorem bmod_eq_self_iff (half : Nat) (hh : 0 < half) (v : Int) :
    v.bmod (2 * half) = v ↔ -half ≤ v ∧ v < half := by
  constructor
  · intro h
    have hlo := Int.le_bmod (x := v) (show 0 < 2 * half by omega)
    have hhi := Int.bmod_lt (x := v) (show 0 < 2 * half by omega)
    rw [h] at hlo hhi
    omega
  · exact fun h => Int.bmod_eq_of_le_mul_two (by omega) (by omega)

theorem stored_eq_iff (signed : Bool) (width : Nat) (hw : 0 < width) (v : Int) :
    stored signed width v = v ↔
      (Primitive.bounds signed width).1 ≤ v ∧ v ≤ (Primitive.bounds signed width).2 := by
  cases signed with
  | false =>
    have hb : Primitive.bounds false width = (0, ((2 ^ (8 * width) : Nat) : Int) - 1) := rfl
    have h := emod_eq_self_iff (2 ^ (8 * width)) (by positivity) v
    rw [hb, show stored false width v = v % ((2 ^ (8 * width) : Nat) : Int) by simp [stored], h]
    exact and_congr_right' (by omega)
  | true =>
    have hb : Primitive.bounds true width = (-((2 ^ (8 * width - 1) : Nat) : Int),
        ((2 ^ (8 * width - 1) : Nat) : Int) - 1) := rfl
    have hsplit : 2 ^ (8 * width) = 2 * 2 ^ (8 * width - 1) := by
      rw [← pow_succ', Nat.sub_add_cancel (by omega)]
    have h := bmod_eq_self_iff (2 ^ (8 * width - 1)) (by positivity) v
    rw [hb, show stored true width v = v.bmod (2 ^ (8 * width)) from rfl, hsplit, h]
    exact and_congr_right' (by omega)

theorem bounds_word (signed : Bool) (width : Nat) (hw : width ∈ [1, 2, 4, 8]) :
    (Primitive.bounds signed width).2 < 2 ^ 64 ∧ (0 ≤ (Primitive.bounds signed width).1 ∨
      -2 ^ 63 ≤ (Primitive.bounds signed width).1 ∧
        (Primitive.bounds signed width).2 < 2 ^ 63) := by
  simp only [List.mem_cons, List.not_mem_nil, or_false] at hw
  cases signed <;> rcases hw with rfl | rfl | rfl | rfl <;> decide

theorem fits_of_bounds (signed : Bool) (width : Nat) (hw : width ∈ [1, 2, 4, 8]) (r : Int × Int)
    (hlo : (Primitive.bounds signed width).1 ≤ r.1) (hle : r.1 ≤ r.2)
    (hhi : r.2 ≤ (Primitive.bounds signed width).2) :
    (Word.isSigned r.1 && Word.isSigned r.2) = true ∨
      0 ≤ r.1 ∧ r.1 < 2 ^ 64 ∧ 0 ≤ r.2 ∧ r.2 < 2 ^ 64 := by
  obtain ⟨htop, h0 | ⟨hmin, hmax⟩⟩ := bounds_word signed width hw
  · exact .inr (by omega)
  · refine .inl ?_
    simp only [Word.isSigned, Bool.and_eq_true, decide_eq_true_eq]
    exact ⟨⟨hmin.trans hlo, (hle.trans hhi).trans_lt hmax⟩, hmin.trans (hlo.trans hle),
      hhi.trans_lt hmax⟩

/-- The program draws every integer of a range, and no other, and holds it as it is. -/
structure KeepsRange (signed : Bool) (width : Nat) (r : Int × Int) : Prop where
  /-- The bounds are written as the arguments of the call. -/
  code : rangeCall r = (RangeCall.ofRange r).code
  arguments : (RangeCall.ofRange r).bounds = r
  /-- The call does not fail where numbers below the size of the range are found, and what it gives
  is a member of the range that the type can hold. -/
  draws (σ : Type) [RandomSource σ] (tries : Nat) (s : σ)
    (hs : Draw.Settles tries (RangeCall.ofRange r).members s) :
    ∃ x t, ((RangeCall.ofRange r).draw tries).Gives s x t ∧ r.1 ≤ x ∧ x ≤ r.2 ∧
      stored signed width x = x

theorem ofRange_bounds (r : Int × Int)
    (h : (Word.isSigned r.1 && Word.isSigned r.2) = true ∨
      0 ≤ r.1 ∧ r.1 < 2 ^ 64 ∧ 0 ≤ r.2 ∧ r.2 < 2 ^ 64) : (RangeCall.ofRange r).bounds = r := by
  by_cases hs : (Word.isSigned r.1 && Word.isSigned r.2) = true
  · rw [RangeCall.ofRange, if_pos hs]
    simp only [Word.isSigned, Bool.and_eq_true, decide_eq_true_eq] at hs
    exact Prod.ext (Int64.toInt_ofInt_of_le hs.1.1 hs.1.2) (Int64.toInt_ofInt_of_le hs.2.1 hs.2.2)
  · obtain ⟨hlo, hlo', hhi, hhi'⟩ := h.resolve_left hs
    have hcast (v : Int) (h0 : 0 ≤ v) (hlt : v < 2 ^ 64) :
        ((UInt64.ofNat v.toNat).toNat : Int) = v := by
      rw [UInt64.toNat_ofNat_of_lt' (show v.toNat < 2 ^ 64 by omega), Int.toNat_of_nonneg h0]
    rw [RangeCall.ofRange, if_neg hs]
    exact Prod.ext (hcast r.1 hlo hlo') (hcast r.2 hhi hhi')

theorem rangeCall_eq (r : Int × Int) (h : (RangeCall.ofRange r).bounds = r) :
    rangeCall r = (RangeCall.ofRange r).code := by
  rw [RangeCall.code, h, rangeCall]
  by_cases hs : (Word.isSigned r.1 && Word.isSigned r.2) = true
  · simp only [RangeCall.ofRange, if_pos hs]
    rfl
  · simp only [RangeCall.ofRange, if_neg hs]
    rfl

theorem keepsRange_iff (signed : Bool) (width : Nat) (hw : width ∈ [1, 2, 4, 8]) (r : Int × Int) :
    KeepsRange signed width r ↔ (Primitive.bounds signed width).1 ≤ r.1 ∧ r.1 ≤ r.2 ∧
      r.2 ≤ (Primitive.bounds signed width).2 := by
  have hpos : 0 < width := by
    simp only [List.mem_cons, List.not_mem_nil, or_false] at hw
    omega
  constructor
  · intro h
    obtain ⟨s, hs⟩ := Draw.exists_settles (RangeCall.ofRange r).members
    obtain ⟨x, t, -, hlo, hhi, -⟩ := h.draws _ 1 s hs
    have hle := hlo.trans hhi
    have hstored : ∀ y, r.1 ≤ y → y ≤ r.2 → stored signed width y = y := by
      intro y hylo hyhi
      obtain ⟨u, hu, hy⟩ := (RangeCall.ofRange r).exists_draw_gives y (h.arguments.symm ▸ hylo)
        (h.arguments.symm ▸ hyhi)
      obtain ⟨z, t, hz, -, -, hkeep⟩ := h.draws _ 1 u hu
      rwa [hy.value hz]
    exact ⟨((stored_eq_iff signed width hpos _).mp (hstored _ le_rfl hle)).1, hle,
      ((stored_eq_iff signed width hpos _).mp (hstored _ hle le_rfl)).2⟩
  · rintro ⟨hlo, hle, hhi⟩
    have hbounds := ofRange_bounds r (fits_of_bounds signed width hw r hlo hle hhi)
    refine ⟨rangeCall_eq r hbounds, hbounds, fun σ _ tries s hs => ?_⟩
    obtain ⟨x, t, ht, hxlo, hxhi⟩ :=
      (RangeCall.ofRange r).draw_gives (hbounds.symm ▸ hle) tries s hs
    rw [hbounds] at hxlo hxhi
    exact ⟨x, t, ht, hxlo, hxhi,
      (stored_eq_iff signed width hpos x).mpr ⟨hlo.trans hxlo, hxhi.trans hhi⟩⟩

end Program

open Program

/-- An integer field whose elements are drawn from its range. -/
structure Field.DrawsRange (f : Field) (signed : Bool) (width : Nat) (e : Option Endian) :
    Prop where
  type : f.type = .prim (.int signed width e)
  base : f.elemRole = .base
  fixed : f.fixed = none
  enum : f.enum = none

structure Drawn where
  signed : Bool
  width : Nat
  endian : Option Endian
  range : Int × Int
  deriving DecidableEq

def Field.drawn? (f : Field) : Option Drawn :=
  match f.type, f.range with
  | .prim (.int signed width e), some r =>
    if f.elemRole = .base && f.fixed.isNone && f.enum.isNone then some ⟨signed, width, e, r⟩
    else none
  | _, _ => none

theorem Field.drawsRange_of_drawn? (f : Field) (d : Drawn) (h : f.drawn? = some d) :
    f.DrawsRange d.signed d.width d.endian ∧ f.range = some d.range := by
  unfold drawn? at h
  split at h
  next htype hrange =>
    split at h
    next hrest =>
      cases h
      simp only [Bool.and_eq_true, decide_eq_true_eq, Option.isNone_iff_eq_none] at hrest
      exact ⟨⟨htype, hrest.1.1, hrest.1.2, hrest.2⟩, hrange⟩
    next => cases h
  next => cases h

def Model.drawn (m : Model) : List Drawn :=
  m.types.flatMap fun t => t.fields.filterMap Field.drawn?

theorem Model.exists_of_mem_drawn (m : Model) (d : Drawn) (h : d ∈ m.drawn) :
    ∃ t ∈ m.types, ∃ f ∈ t.fields, f.DrawsRange d.signed d.width d.endian ∧
      f.range = some d.range := by
  obtain ⟨t, ht, h⟩ := List.mem_flatMap.mp h
  obtain ⟨f, hf, h⟩ := List.mem_filterMap.mp h
  exact ⟨t, ht, f, hf, f.drawsRange_of_drawn? d h⟩

theorem Field.DrawsRange.lines (f : Field) (signed : Bool) (width : Nat) (e : Option Endian)
    (h : f.DrawsRange signed width e) (r : Int × Int) (hr : f.range = some r) (fr : Frame) :
    valueLines fr f = .ok (drawLines f.id "x" (rangeCall r)
      ++ ["v := " ++ call (ValueType.int signed width).code ["x"]]) := by
  have helem : elementType f = .int signed width := by rw [elementType, h.type]
  simp only [valueLines, h.base, baseLines, fixedCode, h.fixed, h.type, intLines, h.enum, hr, helem]
  rfl

theorem Primitive.width_bare? (s : String) (q : Option Endian → Primitive)
    (h : bare? s = some q) (signed : Bool) (width : Nat) (e e' : Option Endian)
    (hq : q e = .int signed width e') : width ∈ [1, 2, 4, 8] := by
  unfold bare? at h
  split at h <;> cases h <;> cases hq <;> decide

theorem Primitive.width_ofName? (name : String) (signed : Bool) (width : Nat) (e : Option Endian)
    (h : ofName? name = some (.int signed width e)) : width ∈ [1, 2, 4, 8] := by
  unfold ofName? at h
  split at h
  · cases h
  split at h
  · cases h
  simp only at h
  split at h
  next q hq =>
    split at h
    · cases h
    · exact width_bare? _ q hq signed width _ e (Option.some.inj h)
  next => cases h

namespace Build

theorem typeRef_prim (m : Model) (here : TypePath) (a : Attr) (p : Primitive)
    (h : typeRef (findType m here) a = .ok (.prim p)) :
    ∃ name, a.type = some (.named name) ∧ Primitive.ofName? name = some p := by
  unfold typeRef at h
  split at h
  next on cases htype =>
    obtain ⟨_, -, h⟩ := (bind_eq_ok _ _ _).mp h
    obtain ⟨_, -, h⟩ := (bind_eq_ok _ _ _).mp h
    cases h
  next => cases h
  next name hne htype =>
    unfold findType at h
    split at h
    next q hq =>
      split at h
      · cases h
      · cases h
        exact ⟨name, htype, hq⟩
    next =>
      split at h
      · cases h
      · cases h
  next => cases h

theorem range_int (signed : Bool) (width : Nat) (e : Option Endian) (a : Attr)
    (r : Option (Int × Int)) (h : range (.prim (.int signed width e)) a = .ok r) :
    ∃ lo hi, a.rangeMin = some (.int lo) ∧ a.rangeMax = some (.int hi) ∧ r = some (lo, hi) := by
  unfold range at h
  rw [if_neg (by simp [TypeRef.kind, Primitive.kind])] at h
  split at h
  next lo hi hlo hhi => exact ⟨lo, hi, hlo, hhi, (Except.ok.inj h).symm⟩
  next => cases h

end Build

theorem Resolve.freeSize_drawn (base : TypeDef) (f : Field) :
    (Resolve.freeSize base f).type = f.type ∧ (Resolve.freeSize base f).range = f.range := by
  rcases Resolve.freeSize_cases base f with hf | ⟨s, -, hf⟩ <;> rw [hf] <;> exact ⟨rfl, rfl⟩

/-- A compiled model has a range for each integer it draws. The program draws that range and holds
what it draws exactly when the range is not empty and lies within the type; and that is so if the
copies on the way to the normal form come back as they were written. -/
theorem Model.compile_keepsRange_iff (o : Options) (set : SchemaSet) (m : Model)
    (h : Model.compile o set = .ok m) (t : TypeDef) (ht : t ∈ m.types) (f : Field)
    (hf : f ∈ t.fields) (signed : Bool) (width : Nat) (e : Option Endian)
    (hd : f.DrawsRange signed width e) :
    ∃ r, f.range = some r ∧
      (∀ fr, valueLines fr f = .ok (drawLines f.id "x" (rangeCall r)
        ++ ["v := " ++ call (ValueType.int signed width).code ["x"]])) ∧
      (KeepsRange signed width r ↔ (Primitive.bounds signed width).1 ≤ r.1 ∧ r.1 ≤ r.2 ∧
        r.2 ≤ (Primitive.bounds signed width).2) ∧
      (set.Proper → set.KeptThrough o → KeepsRange signed width r) := by
  obtain ⟨n, hn, hfields⟩ := Model.compile_fields o set m h
  obtain ⟨x, hx, a, ha, b, here, g, base, hfield, hg⟩ := hfields t ht f hf
  have hbuilds := Build.field_ok o b here a g hfield
  obtain ⟨htype, hrange⟩ := Resolve.freeSize_drawn base g
  have hprim : g.type = .prim (.int signed width e) := by
    rw [← htype, ← hd.type, hg]
  obtain ⟨name, hname, hp⟩ := Build.typeRef_prim b here a _ (hprim ▸ hbuilds.type)
  obtain ⟨lo, hi, hlo, hhi, hr⟩ := Build.range_int signed width e a _ (hprim ▸ hbuilds.range)
  have hfr : f.range = some (lo, hi) := by rw [hg, ← hr, ← hrange]
  have hiff := keepsRange_iff signed width (Primitive.width_ofName? name signed width e hp) (lo, hi)
  refine ⟨(lo, hi), hfr, hd.lines f signed width e _ hfr, hiff, fun hproper hkept => ?_⟩
  obtain ⟨-, hfilled, hspelled, hordered⟩ := SchemaSet.normalize_ok o set n hproper hkept hn
  have hready := Build.all_allShells SchemaBody.Ready n (fun s hs =>
    SchemaSet.ready_of_filled n _ "" s (hfilled s hs) (hspelled s hs) (hordered s hs)) x hx
  obtain ⟨lo', hi', hlo', hhi', hbounds⟩ :=
    hready.ranged a (List.mem_append_left _ ha) name signed width e hname hp
  cases hlo.symm.trans hlo'
  cases hhi.symm.trans hhi'
  exact hiff.mpr hbounds

def dials : String :=
  "meta:\n  id: a\nseq:\n  - id: x\n    type: u8\n    -fz-range-min: 9223372036854775808\n" ++
  "  - id: y\n    type: s8\n"

theorem Model.compile_keepsRange_iff_dials : ∃ set m,
    SchemaSet.ofText "a.ksy" dials = .ok set ∧ set.Proper ∧ set.KeptThrough {} ∧
      Model.compile {} set = .ok m ∧ ∃ t ∈ m.types, ∃ f ∈ t.fields,
        f.DrawsRange false 8 (some .little) ∧ f.range = some (2 ^ 63, 2 ^ 64 - 1) ∧
          KeepsRange false 8 (2 ^ 63, 2 ^ 64 - 1) := by
  obtain ⟨set, hset, hview⟩ := exists_ok_of_toOption_map (SchemaSet.ofText "a.ksy" dials)
    (fun set => (set.isSteadyThrough {}, (Model.compile {} set).toOption.map Model.drawn))
    (true, some [⟨false, 8, some .little, 2 ^ 63, 2 ^ 64 - 1⟩,
      ⟨true, 8, some .little, -2 ^ 63, 2 ^ 63 - 1⟩]) (by decide +kernel)
  obtain ⟨hsteady, hdrawn⟩ := Prod.mk.inj hview
  obtain ⟨m, hm, hdrawn⟩ := exists_ok_of_toOption_map (Model.compile {} set) Model.drawn _ hdrawn
  obtain ⟨t, ht, f, hf, hd, hr⟩ := m.exists_of_mem_drawn
    ⟨false, 8, some .little, 2 ^ 63, 2 ^ 64 - 1⟩ (by rw [hdrawn]; simp)
  have hproper := (SchemaSet.Parsed.formed set (.inl ⟨_, _, hset⟩)).proper
  have hkept := set.keptThrough_of_isSteadyThrough {} hsteady
  obtain ⟨r, hfr, -, -, hkeeps⟩ :=
    Model.compile_keepsRange_iff {} set m hm t ht f hf false 8 (some .little) hd
  cases hfr.symm.trans hr
  exact ⟨set, m, hset, hproper, hkept, hm, t, ht, f, hf, hd, hr, hkeeps hproper hkept⟩

/-- The type of the field is the schema itself by its name when the range is looked at, and the
name of a built-in type after the next copies, each of which drops some of its blanks. -/
def renamed : String :=
  "meta:\n  id: \"\\n\\n  u1\"\nseq:\n  - id: n\n    type: \"\\n\\n    u1\"\n" ++
  "    -fz-range-min: 5\n    -fz-range-max: 1000\n"

/-- A range beyond its type goes through compilation. -/
theorem Model.compile_exceeds_type : ∃ set m,
    SchemaSet.ofText "a.ksy" renamed = .ok set ∧ Model.compile {} set = .ok m ∧
      ∃ t ∈ m.types, ∃ f ∈ t.fields, f.DrawsRange false 1 none ∧ f.range = some (5, 1000) ∧
        ¬ KeepsRange false 1 (5, 1000) := by
  obtain ⟨set, hset, hview⟩ := exists_ok_of_toOption_map (SchemaSet.ofText "a.ksy" renamed)
    (fun set => (Model.compile {} set).toOption.map Model.drawn)
    (some [⟨false, 1, none, 5, 1000⟩]) (by decide +kernel)
  obtain ⟨m, hm, hdrawn⟩ := exists_ok_of_toOption_map (Model.compile {} set) Model.drawn _ hview
  obtain ⟨t, ht, f, hf, hd, hr⟩ := m.exists_of_mem_drawn ⟨false, 1, none, 5, 1000⟩
    (by rw [hdrawn]; simp)
  refine ⟨set, m, hset, hm, t, ht, f, hf, hd, hr, fun hkeeps => ?_⟩
  have h := (keepsRange_iff false 1 (by decide) (5, 1000)).mp hkeeps
  exact absurd h.2.2 (by decide)

end FormatFuzz
