import FormatFuzz.Program.Source
import FormatFuzz.Proofs.Model.EnumPaths
import FormatFuzz.Proofs.Program.Ranges

/-!
# Constants of integer fields

An integer field takes a constant from its `valid` key, its choices, its enum or a pool. Whichever
it is, the program holds the constant in sixty-four bits first and then converts it to the type of
the field. Nothing has looked at the constant by then, as something has at the bounds of a range: it
comes out as it is exactly when it happens to lie within the type.
-/

set_option autoImplicit false

namespace FormatFuzz

def Model.constant? (m : Model) (here : TypePath) : Expr → Option Int
  | .int v => some v
  | .member path id => (m.lookupMember here path id).toOption.map fun x => x.2.value
  | _ => none

def Field.popped (m : Model) (f : Field) : List Int :=
  f.pool.toList.flatMap fun p => ((m.find? p).bind TypeDef.pool).toList.flatMap fun d =>
    d.entries.filterMap (m.constant? p)

/-- The constants that an element of an integer field of the type `here` can be. -/
def Field.offered (m : Model) (here : TypePath) (f : Field) : List Int :=
  match f.elemRole with
  | .base =>
    match f.fixed, f.enum with
    | some e, _ => (m.constant? here e).toList
    | none, some en => (m.enumAt en.name en.owner).toList.flatMap fun d =>
      d.2.members.map EnumMember.value
    | none, none => []
  | .randomChoice => f.choices.filterMap (m.constant? here)
  | .randomPop => f.popped m
  | .fixedPop => f.popped m
  | _ => []

namespace Program

/-- The value that a constant becomes in a program, and the word it is: a literal as its low bits,
an enum member by a name that is declared with its value. -/
inductive Writes (m : Model) (v : Int) : Value → Int → Prop
  | literal : Writes m v (.ofInt v) (Word.wrap v)
  | member (t : TypeDef) (d : EnumDef) (x : EnumMember) (ht : m.find? t.path = some t)
      (hd : d ∈ t.enums) (hx : x ∈ d.members) (hv : x.value = v)
      (hl : memberConst ⟨t.path, d.name⟩ x.id ++ "\tint64\t= " ++ toString v ∈ enumLines t d) :
      Writes m v ⟨memberConst ⟨t.path, d.name⟩ x.id, .word, false⟩ v

theorem mem_enumLines_const (t : TypeDef) (d : EnumDef) (x : EnumMember) (hx : x ∈ d.members) :
    memberConst ⟨t.path, d.name⟩ x.id ++ "\tint64\t= " ++ toString x.value ∈ enumLines t d := by
  rw [enumLines]
  refine List.mem_append_left _ (List.mem_cons_of_mem _ (List.mem_append_left _ ?_))
  refine List.mem_append_right _ (List.mem_flatMap.mpr ⟨x, hx, ?_⟩)
  rw [documented]
  split <;> simp

theorem mem_enumLines_value (t : TypeDef) (d : EnumDef) (x : EnumMember) (hx : x ∈ d.members) :
    memberConst ⟨t.path, d.name⟩ x.id ++ "," ∈ enumLines t d := by
  rw [enumLines]
  refine List.mem_append_right _ (List.mem_cons_of_mem _ (List.mem_append_left _ ?_))
  exact List.mem_append_right _ (List.mem_map_of_mem hx)

theorem enumAt_ok (m : Model) (en e : EnumId) (d : EnumDef)
    (h : m.enumAt en.name en.owner = some (e, d)) :
    ∃ t, m.find? t.path = some t ∧ d ∈ t.enums ∧ en = ⟨t.path, d.name⟩ := by
  obtain ⟨-, hname, -⟩ := m.enumAt_eq en.name en.owner e d h
  unfold Model.enumAt at h
  split at h
  next t ht =>
    have hpath : t.path = en.owner := by simpa using List.find?_some ht
    obtain ⟨d', hd, he⟩ := Option.map_eq_some_iff.mp h
    cases he
    exact ⟨t, hpath ▸ ht, List.mem_of_find?_eq_some hd, by rw [hpath, hname]⟩
  next => cases h

theorem writes_member (m : Model) (here : TypePath) (path : List String) (id : String) (e : EnumId)
    (x : EnumMember) (h : m.lookupMember here path id = .ok (e, x)) :
    Writes m x.value ⟨memberConst e x.id, .word, false⟩ x.value := by
  obtain ⟨d, hd, hx⟩ := (m.lookupMember_ok here path id e x).mp h
  obtain ⟨t, ht, hmem, rfl⟩ := enumAt_ok m e e d (m.lookupEnum_at here path e d hd)
  have hx := List.mem_of_find?_eq_some hx
  exact .member t d x ht hmem hx rfl (mem_enumLines_const t d x hx)

variable {fr : Frame} {m : Model} {here : TypePath} {e : Expr} {v : Int}

theorem expr_constant (hm : fr.plan.toModel = m) (hhere : fr.here.path = here)
    (h : m.constant? here e = some v) : ∃ a w, fr.expr e = .ok a ∧ Writes m v a w := by
  unfold Model.constant? at h
  split at h
  next v' =>
    cases h
    exact ⟨.ofInt v, _, by rw [Frame.expr, exprCode], .literal⟩
  next path id =>
    obtain ⟨⟨en, x⟩, hx, rfl⟩ := exists_ok_of_toOption_map _ _ _ h
    refine ⟨⟨memberConst en x.id, .word, false⟩, x.value, ?_, writes_member m here path id en x hx⟩
    rw [Frame.expr, exprCode, hm, hhere, hx]
  next => cases h

theorem Writes.type {a : Value} {w : Int} (h : Writes m v a w) : a.type = .word := by
  cases h <;> rfl

/-- The lines that make an element of a field, with the code of a constant in its place among those
that can become the element. The last line converts whichever it is. -/
inductive Emits (fr : Frame) (f : Field) (a : Value) : Lines → Prop
  | fixed : Emits fr f a ["x := " ++ a.typed, "v := " ++ call (elementType f).code ["x"]]
  | chosen (codes : List String) (h : a.code ∈ codes) :
    Emits fr f a (drawLines f.id "c" (call "fzrt.Choice"
        ["g.ctx.rand", "[]int64\x7b" ++ Text.join ", " codes ++ "\x7d"])
      ++ ["v := " ++ call (elementType f).code ["c"]])
  | drawn (t : TypeDef) (d : EnumDef) (h : a.code ++ "," ∈ enumLines t d) :
    Emits fr f a (drawLines f.id "x" (call "fzrt.Choice"
        ["g.ctx.rand", enumName ⟨t.path, d.name⟩ ++ "Values"])
      ++ ["v := " ++ call (elementType f).code ["x"]])
  | popped (u : TypeDef) (d : PoolDef) (pop : String) (hd : u.pool = some d)
      (h : ∀ codes, poolEntryCodes fr.plan u d = .ok codes → a.code ∈ codes) :
    Emits fr f a (drawLines f.id "p" ("g.ctx." ++ poolName u.path ++ "." ++ pop)
      ++ ["v := " ++ call (elementType f).code ["p"]])

variable {f : Field} {signed : Bool} {width : Nat} {endian : Option Endian}

theorem elementType_int (ht : f.type = .prim (.int signed width endian)) :
    elementType f = .int signed width := by
  rw [elementType, ht]

theorem emits_fixed (ht : f.type = .prim (.int signed width endian)) (hrole : f.elemRole = .base)
    (hf : f.fixed = some e) (hm : fr.plan.toModel = m) (hhere : fr.here.path = here)
    (hv : m.constant? here e = some v) :
    ∃ lines a w, valueLines fr f = .ok lines ∧ Writes m v a w ∧ Emits fr f a lines := by
  obtain ⟨a, w, ha, hw⟩ := expr_constant hm hhere hv
  refine ⟨_, a, w, ?_, hw, .fixed⟩
  obtain ⟨code, type, untyped⟩ := a
  obtain rfl : type = .word := hw.type
  simp only [valueLines, hrole, baseLines, fixedCode, hf, ht, ha, intLines]
  rfl

theorem emits_drawn (ht : f.type = .prim (.int signed width endian)) (hrole : f.elemRole = .base)
    (hf : f.fixed = none) (en : EnumId) (hen : f.enum = some en) (d : EnumId × EnumDef)
    (hd : m.enumAt en.name en.owner = some d) (x : EnumMember) (hx : x ∈ d.2.members) :
    ∃ lines a w, valueLines fr f = .ok lines ∧ Writes m x.value a w ∧ Emits fr f a lines := by
  obtain ⟨t, hfind, hmem, rfl⟩ := enumAt_ok m en d.1 d.2 hd
  have hw := Writes.member t d.2 x hfind hmem hx rfl (mem_enumLines_const t d.2 x hx)
  refine ⟨_, _, _, ?_, hw, .drawn t d.2 (mem_enumLines_value t d.2 x hx)⟩
  simp only [valueLines, hrole, baseLines, fixedCode, hf, ht, intLines, hen]
  rfl

theorem choiceCode_int (a : Value) (ha : fr.expr e = .ok a) (ht : a.type = .word) :
    choiceCode fr (.int signed width) e = .ok a.code := by
  obtain ⟨code, type, untyped⟩ := a
  obtain rfl : type = .word := ht
  rw [choiceCode, ha]
  rfl

theorem emits_chosen (ht : f.type = .prim (.int signed width endian))
    (hrole : f.elemRole = .randomChoice) (he : e ∈ f.choices) (hm : fr.plan.toModel = m)
    (hhere : fr.here.path = here) (hv : m.constant? here e = some v) (lines : Lines)
    (hlines : valueLines fr f = .ok lines) : ∃ a w, Writes m v a w ∧ Emits fr f a lines := by
  obtain ⟨a, w, ha, hw⟩ := expr_constant hm hhere hv
  simp only [valueLines, hrole, choiceLines, elementType_int ht, choiceType] at hlines
  obtain ⟨codes, hcodes, hlines⟩ := (bind_eq_ok _ _ _).mp hlines
  obtain rfl := (pure_eq_ok _ _).mp hlines
  obtain ⟨code, hcode, hrun⟩ := forall₂_mem_left _ _ _ (mapM_eq_ok _ _ _ hcodes) e he
  rw [choiceCode_int a ha hw.type] at hrun
  cases hrun
  have hemits : Emits fr f a _ := .chosen codes hcode
  rw [elementType_int ht] at hemits
  exact ⟨a, w, hw, hemits⟩

theorem Error.at_eq_ok {α : Type} (type : TypePath) (member key : String) (r : Except Error α)
    (a : α) : Error.at_ type member key r = .ok a ↔ r = .ok a := by
  cases r <;> simp [Error.at_]

theorem emits_popped (ht : f.type = .prim (.int signed width endian)) (hm : fr.plan.toModel = m)
    (hv : v ∈ f.popped m) (pop : String) :
    ∃ a w, Writes m v a w ∧ Emits fr f a (popLines f pop) := by
  obtain ⟨p, hp, hv⟩ := List.mem_flatMap.mp hv
  obtain ⟨d, hd, hv⟩ := List.mem_flatMap.mp hv
  obtain ⟨e, he, hv⟩ := List.mem_filterMap.mp hv
  obtain ⟨u, hu, hd⟩ := Option.bind_eq_some_iff.mp (Option.mem_toList.mp hd)
  have hpath : u.path = p := by simpa using List.find?_some hu
  have hconst : ∃ a w, Frame.expr ⟨fr.plan, u, "", []⟩ e = .ok a ∧ Writes m v a w :=
    expr_constant hm hpath hv
  obtain ⟨a, w, ha, hw⟩ := hconst
  have hentry (codes : List String) (h : poolEntryCodes fr.plan u d = .ok codes) :
      a.code ∈ codes := by
    rw [poolEntryCodes, Error.at_eq_ok] at h
    obtain ⟨code, hcode, hrun⟩ := forall₂_mem_left _ _ _ (mapM_eq_ok _ _ _ h) e he
    rw [ha] at hrun
    cases hrun
    exact hcode
  have hemits : Emits fr f a _ := .popped u d pop hd hentry
  rw [elementType_int ht, hpath] at hemits
  rw [popLines, elementType_int ht, Option.mem_toList.mp hp]
  exact ⟨a, w, hw, hemits⟩

theorem exists_emits (ht : f.type = .prim (.int signed width endian)) (hm : fr.plan.toModel = m)
    (hhere : fr.here.path = here) (hv : v ∈ f.offered m here) (lines : Lines)
    (hlines : valueLines fr f = .ok lines) : ∃ a w, Writes m v a w ∧ Emits fr f a lines := by
  unfold Field.offered at hv
  split at hv
  next hrole =>
    split at hv
    next e hf =>
      obtain ⟨ls, a, w, hls, hemits⟩ :=
        emits_fixed ht hrole hf hm hhere (Option.mem_toList.mp hv)
      cases hls.symm.trans hlines
      exact ⟨a, w, hemits⟩
    next en hf hen =>
      obtain ⟨d, hd, hv⟩ := List.mem_flatMap.mp hv
      obtain ⟨x, hx, rfl⟩ := List.mem_map.mp hv
      obtain ⟨ls, a, w, hls, hemits⟩ :=
        emits_drawn ht hrole hf en hen d (Option.mem_toList.mp hd) x hx
      cases hls.symm.trans hlines
      exact ⟨a, w, hemits⟩
    next => cases hv
  next hrole =>
    obtain ⟨e, he, hv⟩ := List.mem_filterMap.mp hv
    exact emits_chosen ht hrole he hm hhere hv lines hlines
  next hrole =>
    rw [valueLines, hrole] at hlines
    cases hlines
    exact emits_popped ht hm hv _
  next hrole =>
    rw [valueLines, hrole] at hlines
    cases hlines
    exact emits_popped ht hm hv _
  next => cases hv

theorem stored_wrap (signed : Bool) (width : Nat) (hw : width ∈ [1, 2, 4, 8]) (v : Int) :
    stored signed width (Word.wrap v) = stored signed width v := by
  have hdvd : 2 ^ (8 * width) ∣ Word.size := by
    simp only [List.mem_cons, List.not_mem_nil, or_false] at hw
    rcases hw with rfl | rfl | rfl | rfl <;> decide
  rw [Word.wrap]
  cases signed with
  | true => exact Int.bmod_bmod_of_dvd hdvd
  | false =>
    have hdvd : ((2 ^ (8 * width) : Nat) : Int) ∣ (Word.size : Int) := by exact_mod_cast hdvd
    have h (x : Int) : stored false width x = x % ((2 ^ (8 * width) : Nat) : Int) := by
      simp [stored]
    rw [h, h, ← Int.emod_emod_of_dvd _ hdvd, Int.bmod_emod, Int.emod_emod_of_dvd _ hdvd]

theorem stored_writes {a : Value} {w : Int} (signed : Bool) (width : Nat)
    (hw : width ∈ [1, 2, 4, 8]) (h : Writes m v a w) :
    stored signed width w = stored signed width v := by
  cases h with
  | literal => exact stored_wrap signed width hw v
  | member => rfl

end Program

open Program

/-- The program puts every constant of an integer field in its place and converts it, and the field
holds the constant exactly when it lies within the type. -/
theorem Model.compile_keepsConstant_iff (o : Options) (set : SchemaSet) (m : Model)
    (h : Model.compile o set = .ok m) (t : TypeDef) (ht : t ∈ m.types) (f : Field)
    (hf : f ∈ t.fields) (signed : Bool) (width : Nat) (e : Option Endian)
    (htype : f.type = .prim (.int signed width e)) (v : Int) (hv : v ∈ f.offered m t.path) :
    (∀ fr lines, fr.plan.toModel = m → fr.here = t → valueLines fr f = .ok lines →
      ∃ a w, Writes m v a w ∧ Emits fr f a lines) ∧
    ∀ a w, Writes m v a w → (stored signed width w = v ↔
      (Primitive.bounds signed width).1 ≤ v ∧ v ≤ (Primitive.bounds signed width).2) := by
  obtain ⟨n, -, hfields⟩ := Model.compile_fields o set m h
  obtain ⟨x, -, a, -, b, here, g, base, hfield, hg⟩ := hfields t ht f hf
  have hprim : g.type = .prim (.int signed width e) := by
    rw [← (Resolve.freeSize_drawn base g).1, ← htype, hg]
  have hbuilds := Build.field_ok o b here a g hfield
  obtain ⟨name, -, hp⟩ := Build.typeRef_prim b here a _ (hprim ▸ hbuilds.type)
  have hwidth := Primitive.width_ofName? name signed width e hp
  have hpos : 0 < width := by
    simp only [List.mem_cons, List.not_mem_nil, or_false] at hwidth
    omega
  refine ⟨fun fr lines hm hhere hlines => ?_, fun a w hw => ?_⟩
  · exact exists_emits htype hm (congrArg TypeDef.path hhere) hv lines hlines
  · rw [stored_writes signed width hwidth hw]
    exact stored_eq_iff signed width hpos v

structure Offered where
  id : String
  type : Primitive
  values : List Int
  deriving DecidableEq

def Field.offer? (m : Model) (here : TypePath) (f : Field) : Option Offered :=
  match f.type with
  | .prim p => some ⟨f.id, p, f.offered m here⟩
  | _ => none

def Model.offers (m : Model) : List (List Offered) :=
  m.types.map fun t => t.fields.filterMap (Field.offer? m t.path)

theorem Field.of_offer? (m : Model) (here : TypePath) (f : Field) (x : Offered)
    (h : f.offer? m here = some x) :
    f.id = x.id ∧ f.type = .prim x.type ∧ f.offered m here = x.values := by
  unfold offer? at h
  split at h
  next htype =>
    cases h
    exact ⟨rfl, htype, rfl⟩
  next => cases h

/-- A field of one byte for each way to get a constant, and constants beyond a byte. -/
def wide : SchemaSet :=
  ⟨⟨"wide.ksy", .mk
    { head := { Meta.empty with id := "wide" }
      seq := [
        { id := "fixed", type := some (.named "u1"), valid := .int 300 },
        { id := "chosen", type := some (.named "u1"), choice := [.int 256, .str "e::big"] },
        { id := "drawn", type := some (.named "u1"), enum := "e" },
        { id := "popped", type := some (.named "u1"), orderPop := true }]
      enums := [("e", [⟨1000, .verbose ⟨"big", "", []⟩, 0⟩])]
      order := [.int (-1), .int 7] } []⟩, []⟩

def wideOffers : List Offered :=
  [⟨"fixed", .int false 1 none, [300]⟩, ⟨"chosen", .int false 1 none, [256, 1000]⟩,
    ⟨"drawn", .int false 1 none, [1000]⟩, ⟨"popped", .int false 1 none, [-1, 7]⟩]

theorem offers_wide : ∃ m, Model.compile {} wide = .ok m ∧ ∃ t ∈ m.types, ∀ x ∈ wideOffers,
    ∃ f ∈ t.fields, f.id = x.id ∧ f.type = .prim x.type ∧ f.offered m t.path = x.values := by
  obtain ⟨m, hm, hoffers⟩ := exists_ok_of_toOption_map (Model.compile {} wide) Model.offers
    [wideOffers] (by decide +kernel)
  refine ⟨m, hm, ?_⟩
  obtain ⟨t, ht, hfields⟩ := List.mem_map.mp
    (show wideOffers ∈ m.types.map _ from hoffers ▸ List.mem_singleton_self _)
  refine ⟨t, ht, fun x hx => ?_⟩
  obtain ⟨f, hf, hoffer⟩ := List.mem_filterMap.mp (hfields ▸ hx)
  exact ⟨f, hf, Field.of_offer? m t.path f x hoffer⟩

theorem Model.compile_keepsConstant_iff_wide : ∃ m, Model.compile {} wide = .ok m ∧
    ∃ t ∈ m.types, ∃ f ∈ t.fields, f.type = .prim (.int false 1 none) ∧ 7 ∈ f.offered m t.path ∧
      ∀ a w, Writes m 7 a w → stored false 1 w = 7 := by
  obtain ⟨m, hm, t, ht, hoffers⟩ := offers_wide
  obtain ⟨f, hf, -, htype, hoffered⟩ := hoffers ⟨"popped", .int false 1 none, [-1, 7]⟩
    (by simp [wideOffers])
  have hv : 7 ∈ f.offered m t.path := by simp [hoffered]
  obtain ⟨-, hkeeps⟩ :=
    Model.compile_keepsConstant_iff {} wide m hm t ht f hf false 1 none htype 7 hv
  exact ⟨m, hm, t, ht, f, hf, htype, hv, fun a w hw => (hkeeps a w hw).mpr (by decide)⟩

/-- A field of `wide` by its id, a constant for it, and what a byte makes of the constant. -/
def wrapped : List (String × Int × Int) :=
  [("fixed", 300, 44), ("chosen", 256, 0), ("chosen", 1000, 232), ("drawn", 1000, 232),
    ("popped", -1, 255)]

/-- Constants beyond a byte get into a byte by each of the ways, and come out as others. -/
theorem Model.compile_exceeds_width : ∃ m, Model.compile {} wide = .ok m ∧ ∃ t ∈ m.types,
    ∀ c ∈ wrapped, ∃ f ∈ t.fields, f.id = c.1 ∧ f.type = .prim (.int false 1 none) ∧
      c.2.1 ∈ f.offered m t.path ∧ stored false 1 c.2.1 = c.2.2 ∧ c.2.2 ≠ c.2.1 := by
  obtain ⟨m, hm, t, ht, hoffers⟩ := offers_wide
  refine ⟨m, hm, t, ht, fun c hc => ?_⟩
  have hwrapped : ∀ c ∈ wrapped, ∃ x ∈ wideOffers, x.id = c.1 ∧ x.type = .int false 1 none ∧
      c.2.1 ∈ x.values ∧ stored false 1 c.2.1 = c.2.2 ∧ c.2.2 ≠ c.2.1 := by decide
  obtain ⟨x, hx, hid, htype, hv, hstored⟩ := hwrapped c hc
  obtain ⟨f, hf, hfid, hftype, hoffered⟩ := hoffers x hx
  exact ⟨f, hf, hfid.trans hid, htype ▸ hftype, hoffered ▸ hv, hstored⟩

end FormatFuzz
