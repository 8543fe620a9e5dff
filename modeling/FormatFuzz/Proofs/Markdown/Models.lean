import FormatFuzz.Proofs.Markdown.Cells
import FormatFuzz.Proofs.Model.Completeness
import FormatFuzz.Proofs.Model.Users

/-!
# Cells of a compiled model

Every expression of a compiled model was read from a value, except for the member that a bare name
among the choices stands for: its path is made of names of the model. The types, enums and pools that
a field refers to are looked up in the model too. So a model with plain names gives plain cells.
-/

set_option autoImplicit false

namespace FormatFuzz

open Text (Unbroken Plain)

/-- The ids and names in a type: of the type, its members, its enums and their members, and of the
encodings of its texts. -/
def TypeDef.names (t : TypeDef) : List String :=
  t.path ++ t.fields.flatMap (fun f => [f.id, f.encoding]) ++ t.instances.map Instance.id
    ++ t.enums.flatMap fun e => e.name :: e.members.map EnumMember.id

def Model.names (m : Model) : List String :=
  m.types.flatMap TypeDef.names

namespace Model

variable (m : Model) (t : TypeDef) (ht : t ∈ m.types)

include ht

theorem mem_names_path : ∀ s ∈ t.path, s ∈ m.names := by
  intro s hs
  refine List.mem_flatMap.mpr ⟨t, ht, ?_⟩
  simp [TypeDef.names, hs]

theorem mem_names_field (f : Field) (hf : f ∈ t.fields) :
    f.id ∈ m.names ∧ f.encoding ∈ m.names := by
  have hmem : ∀ s ∈ [f.id, f.encoding], s ∈ m.names := by
    intro s hs
    have hs : s ∈ t.fields.flatMap fun f => [f.id, f.encoding] := List.mem_flatMap.mpr ⟨f, hf, hs⟩
    refine List.mem_flatMap.mpr ⟨t, ht, ?_⟩
    exact List.mem_append_left _ (List.mem_append_left _ (List.mem_append_right _ hs))
  exact ⟨hmem _ (by simp), hmem _ (by simp)⟩

theorem mem_names_instance (i : Instance) (hi : i ∈ t.instances) : i.id ∈ m.names := by
  refine List.mem_flatMap.mpr ⟨t, ht, ?_⟩
  exact List.mem_append_left _ (List.mem_append_right _ (List.mem_map_of_mem hi))

theorem mem_names_enum (e : EnumDef) (he : e ∈ t.enums) :
    e.name ∈ m.names ∧ ∀ x ∈ e.members, x.id ∈ m.names := by
  have hmem : ∀ s ∈ e.name :: e.members.map EnumMember.id, s ∈ m.names := by
    intro s hs
    exact List.mem_flatMap.mpr
      ⟨t, ht, List.mem_append_right _ (List.mem_flatMap.mpr ⟨e, he, hs⟩)⟩
  exact ⟨hmem _ (by simp), fun x hx => hmem _ (List.mem_cons_of_mem _ (List.mem_map_of_mem hx))⟩

omit ht t

theorem mem_names_of_has (p : TypePath) (h : m.has p = true) : ∀ s ∈ p, s ∈ m.names := by
  obtain ⟨t, ht, rfl⟩ := List.mem_map.mp ((m.has_iff p).mp h)
  exact m.mem_names_path t ht

theorem mem_names_of_lookupEnum (here : TypePath) (path : List String) (e : EnumId) (d : EnumDef)
    (h : m.lookupEnum here path = some (e, d)) : ∀ s ∈ e.owner ++ [e.name], s ∈ m.names := by
  have hat := m.lookupEnum_at here path e d h
  obtain ⟨-, hname, hhas⟩ := m.enumAt_eq _ _ _ _ hat
  have hd : d.name ∈ m.names := by
    unfold enumAt at hat
    split at hat
    next t ht =>
      obtain ⟨d', hd, he⟩ := Option.map_eq_some_iff.mp hat
      cases he
      exact (m.mem_names_enum t (List.mem_of_find?_eq_some ht) d
        (List.mem_of_find?_eq_some hd)).1
    next => cases hat
  intro s hs
  rcases List.mem_append.mp hs with hs | hs
  · exact m.mem_names_of_has _ hhas s hs
  · rw [List.mem_singleton.mp hs, ← hname]
    exact hd

theorem mem_enumPath (here : TypePath) (e : EnumId) :
    ∀ s ∈ m.enumPath here e, s ∈ e.owner ++ [e.name] := by
  unfold enumPath
  intro s hs
  split at hs
  next =>
    split at hs
    next => exact List.mem_append_right _ hs
    next => exact hs
  next => exact hs

end Model

structure TypeDef.MadeIn (o : Options) (b : Model) (t : TypeDef) : Prop where
  field (f : Field) (h : f ∈ t.fields) : ∃ a g base, Build.fieldAt o b t.path a = .ok g ∧
    f = { Resolve.freeSize base g with deps := f.deps }
  inst (i : Instance) (h : i ∈ t.instances) : ∃ id a j, Build.instance t.path id a = .ok j ∧
    i.value = j.value ∧ i.guard = j.guard

theorem Model.compile_madeIn (o : Options) (set : SchemaSet) (m : Model)
    (h : Model.compile o set = .ok m) :
    ∃ b : Model, b.SameNames m ∧ ∀ t ∈ m.types, t.MadeIn o b := by
  obtain ⟨n, built, -, hbuilt, hus⟩ := Model.compile_each o set m h
  obtain ⟨b, hsame, hmakes, -⟩ := Model.build_each o n built hbuilt
  refine ⟨b, ?_, fun u hu => ?_⟩
  · refine forall₂_comp (fun t t' u htt' htu => ?_) hsame hus
    obtain ⟨find?, hu⟩ := htu
    obtain ⟨hpath, henums, -⟩ := Resolve.typeDef_keeps find? t' u hu
    exact ⟨htt'.1.trans hpath.symm, htt'.2.trans henums.symm⟩
  · obtain ⟨t, ht, find?, hu⟩ := forall₂_mem_right _ _ _ hus u hu
    obtain ⟨x, -, hx⟩ := forall₂_mem_right _ _ _ hmakes t ht
    have hres := Resolve.typeDef_ok find? t u hu
    constructor
    case field =>
      intro f hf
      obtain ⟨g, hg, -, -, base, -, hfg⟩ := forall₂_mem_right _ _ _ hres.fields f hf
      obtain ⟨a, -, ha⟩ := forall₂_mem_right _ _ _ (mapM_eq_ok _ _ _ hx.fields) g hg
      exact ⟨a, g, base, hres.path ▸ ha, hfg⟩
    case inst =>
      intro i hi
      obtain ⟨j, hj, hij⟩ := forall₂_mem_right _ _ _ hres.instances i hi
      obtain ⟨e, -, he⟩ := forall₂_mem_right _ _ _ (mapM_eq_ok _ _ _ hx.instances) j hj
      obtain ⟨-, hvalue, hguard, -⟩ := Resolve.instanceDeps_ok u j i hij
      exact ⟨e.1, e.2, j, hres.path ▸ he, hvalue, hguard⟩

namespace Build

variable {o : Options} {b : Model} {here : TypePath} {a : Attr}

theorem unbroken_expr? {v : Value} {x : Option Expr} {e : Expr} (h : expr? v = .ok x)
    (hx : x = some e) : Unbroken e.text := by
  unfold expr? at h
  split at h
  next y hy =>
    obtain rfl := Except.ok.inj h
    exact Expr.unbroken_ofValue v e (hx ▸ hy)
  next => cases h

theorem unbroken_exprOr {fault : Misuse} {v : Value} {e : Expr} (h : exprOr fault v = .ok e) :
    Unbroken e.text := by
  obtain ⟨x, hx, h⟩ := (bind_eq_ok _ _ _).mp h
  cases x with
  | none => cases h
  | some y =>
    obtain rfl := (pure_eq_ok _ _).mp h
    exact unbroken_expr? hx rfl

theorem unbroken_repeatForm {form : RepeatForm} {e : Expr} (h : repeatForm a = .ok form)
    (he : form = .count e ∨ form = .until e) : Unbroken e.text := by
  unfold repeatForm at h
  split at h
  next =>
    obtain ⟨x, hx, h⟩ := (bind_eq_ok _ _ _).mp h
    obtain rfl := (pure_eq_ok _ _).mp h
    rcases he with he | he
    · cases he
      exact unbroken_exprOr hx
    · cases he
  next =>
    split at h
    next =>
      obtain ⟨x, hx, h⟩ := (bind_eq_ok _ _ _).mp h
      obtain rfl := (pure_eq_ok _ _).mp h
      rcases he with he | he
      · cases he
      · cases he
        exact unbroken_exprOr hx
    next =>
      split at h
      next =>
        cases h
        rcases he with he | he <;> cases he
      next => cases h

theorem unbroken_checksum {type : TypeRef} {s : Option Size} {d : Digest} {e : Expr}
    (h : checksum a type s = .ok (d, e)) : Unbroken e.text := by
  unfold checksum at h
  split at h
  next =>
    split at h
    next => cases h
    next =>
      obtain ⟨x, hx, h⟩ := (bind_eq_ok _ _ _).mp h
      obtain ⟨_, -, h⟩ := (bind_eq_ok _ _ _).mp h
      obtain ⟨-, rfl⟩ := Prod.mk.inj ((pure_eq_ok _ _).mp h)
      exact unbroken_exprOr hx
  next => cases h

theorem unbroken_parse {s : String} {e : Expr} (h : Expr.parse s = .ok e) : Unbroken e.text :=
  (Expr.formed_parse s e h).unbroken

theorem unbroken_switch {on : Expr} {cases : List (Expr × TypePath)} {default : Option TypePath}
    (h : typeRef (findType b here) a = .ok (.switch on cases default)) :
    Unbroken on.text ∧ ∀ c ∈ cases, Unbroken c.1.text := by
  obtain ⟨v, entries, ha⟩ := exists_switch_of_typeRef h
  rw [typeRef, ha] at h
  obtain ⟨x, hx, h⟩ := (bind_eq_ok _ _ _).mp h
  obtain ⟨⟨cases', default'⟩, hcases, h⟩ := (bind_eq_ok _ _ _).mp h
  cases h
  refine ⟨unbroken_exprOr hx, fun c hc => ?_⟩
  obtain ⟨entry, -, hentry⟩ := forall₂_mem_right _ _ _ (switchCases_keys hcases) c hc
  exact unbroken_parse hentry

theorem unbroken_choice {enum : Option EnumId} {v : Value} {e : Expr}
    (h : choice b here enum v = .ok e)
    (henum : ∀ en, enum = some en → ∀ s ∈ en.owner ++ [en.name], Unbroken s) :
    Unbroken e.text := by
  obtain ⟨x, hx, h⟩ := (bind_eq_ok _ _ _).mp h
  -- a bare name becomes a member of the enum of the field
  have hname : ∀ id en, x = some (.name id) → enum = some en →
      Unbroken (Expr.member (b.enumPath here en) id).text := by
    intro id en hid hen
    refine Expr.unbroken_member _ _ fun s hs => ?_
    rcases List.mem_append.mp hs with hs | hs
    · exact henum en hen s (b.mem_enumPath here en s hs)
    · rw [List.mem_singleton.mp hs]
      exact unbroken_expr? hx hid
  dsimp only at h
  split at h
  next p id hpath =>
    obtain ⟨_, -, h⟩ := (bind_eq_ok _ _ _).mp h
    obtain rfl := (pure_eq_ok _ _).mp h
    split at hpath
    next id' en =>
      rw [← Option.some.inj hpath]
      exact hname id' en rfl rfl
    next => exact unbroken_expr? hx hpath
  next z hz hpath =>
    obtain rfl := (pure_eq_ok _ _).mp h
    split at hpath
    · exact absurd (Option.some.inj hpath).symm (hz _ _)
    · exact unbroken_expr? hx hpath
  next =>
    obtain rfl := (pure_eq_ok _ _).mp h
    decide

theorem Builds.unbroken {g : Field} (h : Builds o b here a g)
    (henum : ∀ en, g.enum = some en → ∀ s ∈ en.owner ++ [en.name], Unbroken s) (k : Place)
    (e : Expr) (he : g.Holds k e) : Unbroken e.text := by
  cases he with
  | guard he => exact unbroken_expr? h.guard he
  | fixed he => exact unbroken_expr? ((fixedValue_eq a).symm.trans h.fixed) he
  | measure he =>
    have hm := h.completes.measure
    split at hm
    next => exact unbroken_expr? (measure_ok hm) he
    next => cases hm.symm.trans he
  | input he =>
    have hi := h.completes.input
    split at hi
    next =>
      obtain ⟨d, x, hx, hi⟩ := hi
      cases hi.symm.trans he
      exact unbroken_checksum hx
    next => cases hi.symm.trans he
  | count he hr => exact unbroken_repeatForm (repetition_form (h.repeated _ he)) (.inl hr)
  | «until» he hr => exact unbroken_repeatForm (repetition_form (h.repeated _ he)) (.inr hr)
  | processKey he =>
    obtain ⟨hp, -⟩ | ⟨_, _, x, hp, -, -, hparse⟩ := process_cases (h.process _ he)
    · cases hp
    · cases hp
      exact unbroken_parse hparse
  | choice he =>
    have hc := h.completes.choices
    split at hc
    next =>
      obtain ⟨v, -, hv⟩ := forall₂_mem_right _ _ _ (mapM_eq_ok _ _ _ hc) e he
      exact unbroken_choice hv henum
    next =>
      rw [hc] at he
      cases he
  | switchOn he => exact (unbroken_switch (he ▸ h.type)).1
  | caseMatch he hc => exact (unbroken_switch (he ▸ h.type)).2 _ hc
  | size he hs => exact unbroken_expr? (size_declared (h.size _ he)) hs

theorem enumId_found {type : TypeRef} {name : String} {e : EnumId}
    (h : enumId b here type name = .ok (some e)) :
    ∃ path d, b.lookupEnum here path = some (e, d) := by
  unfold enumId at h
  split at h
  next => cases h
  next =>
    split at h
    next => cases h
    next =>
      split at h
      next e' d hfound =>
        cases h
        exact ⟨_, d, hfound⟩
      next => cases h

theorem fieldPool_around {type : TypeRef} {p : TypePath} (h : fieldPool b here type = .ok p) :
    p <+: here := by
  unfold fieldPool at h
  split at h
  next => cases h
  next p' d hp =>
    split at h
    next => cases h
    next =>
      cases h
      obtain ⟨outer, -, haround, hpool, -⟩ := (findSome?_enclosing _ _ _).mp hp
      split at hpool
      next =>
        obtain ⟨_, -, hd⟩ := Option.map_eq_some_iff.mp hpool
        cases hd
        exact haround
      next => cases hpool

theorem elementKeys_pool {f g : Field} {p : TypePath} (h : elementKeys b here a f = .ok g)
    (hf : f.pool = none) (hg : g.pool = some p) : p <+: here := by
  unfold elementKeys at h
  dsimp only at h
  have hpool (at_ : Except SchemaError TypePath)
      (hat : at_ = Fault.at_ here a.id "-fz-order-pop" (fieldPool b here f.type))
      (h : (do return { f with pool := some (← at_) }) = Except.ok g) : p <+: here := by
    obtain ⟨q, hq, h⟩ := (bind_eq_ok _ _ _).mp h
    obtain rfl := (pure_eq_ok _ _).mp h
    cases hg
    exact fieldPool_around ((Fault.at_eq_ok _ _ _ _ _).mp (hat ▸ hq))
  split at h
  case h_2 => exact hpool _ rfl h
  case h_3 => exact hpool _ rfl h
  case h_7 =>
    obtain rfl := Except.ok.inj h
    cases hf.symm.trans hg
  all_goals
    obtain ⟨_, -, h⟩ := (bind_eq_ok _ _ _).mp h
    obtain rfl := (pure_eq_ok _ _).mp h
    cases hf.symm.trans hg

theorem field_pool {f : Field} {p : TypePath} (h : fieldAt o b here a = .ok f)
    (hf : f.pool = some p) : p <+: here := by
  obtain ⟨-, h⟩ := guard_eq_ok _ _ _ _ h
  obtain ⟨_, -, h⟩ := (bind_eq_ok _ _ _).mp h
  unfold fieldOf at h
  dsimp only at h
  obtain ⟨_, -, h⟩ := (bind_eq_ok _ _ _).mp h
  obtain ⟨_, -, h⟩ := join_eq_ok _ _ _ _ _ h
  obtain ⟨_, -, h⟩ := (bind_eq_ok _ _ _).mp h
  obtain ⟨_, -, h⟩ := (bind_eq_ok _ _ _).mp h
  obtain ⟨_, -, h⟩ := (bind_eq_ok _ _ _).mp h
  obtain ⟨_, -, h⟩ := join_eq_ok _ _ _ _ _ h
  obtain ⟨_, -, h⟩ := join_eq_ok _ _ _ _ _ h
  obtain ⟨_, -, h⟩ := (bind_eq_ok _ _ _).mp h
  obtain ⟨-, h⟩ := guard_eq_ok _ _ _ _ h
  obtain ⟨_, -, h⟩ := join_eq_ok _ _ _ _ _ h
  exact elementKeys_pool h rfl hf

end Build

theorem Resolve.holds_of_freeSize {base : TypeDef} {g : Field} {k : Place} {e : Expr}
    (h : (freeSize base g).Holds k e) : g.Holds k e := by
  rcases freeSize_cases base g with hg | ⟨s, hs, hg⟩
  · exact hg ▸ h
  · rw [hg] at h
    cases h with
    | guard h => exact .guard h
    | fixed h => exact .fixed h
    | measure h => exact .measure h
    | input h => exact .input h
    | count h hr => exact .count h hr
    | «until» h hr => exact .until h hr
    | processKey h => exact .processKey h
    | choice h => exact .choice h
    | switchOn h => exact .switchOn h
    | caseMatch h hc => exact .caseMatch h hc
    | size h hs =>
      cases h
      cases hs

namespace Markdown

variable (o : Options) (set : SchemaSet) (m : Model) (hm : Model.compile o set = .ok m)
  (hnames : ∀ s ∈ m.names, Plain s) (t : TypeDef) (ht : t ∈ m.types)

include hm hnames ht

theorem lined_of_compile (f : Field) (hf : f ∈ t.fields) : Lined f := by
  obtain ⟨b, hsame, hmade⟩ := Model.compile_madeIn o set m hm
  obtain ⟨a, g, base, hg, hfg⟩ := (hmade t ht).field f hf
  have hbuilds := Build.field_ok o b t.path a g hg
  have hparts : f.enum = g.enum ∧ f.pool = g.pool := by
    rw [hfg]
    rcases Resolve.freeSize_cases base g with h | ⟨s, -, h⟩ <;> rw [h] <;> exact ⟨rfl, rfl⟩
  -- the field was built where names lead to the enums of the model itself
  have henum : ∀ en, g.enum = some en → ∀ s ∈ en.owner ++ [en.name], Plain s := by
    intro en hen s hs
    obtain ⟨path, d, hfound⟩ := Build.enumId_found (hbuilds.enum.trans (congrArg Except.ok hen))
    rw [hsame.lookupEnum] at hfound
    exact hnames s (m.mem_names_of_lookupEnum _ _ en d hfound s hs)
  obtain ⟨hid, hencoding⟩ := m.mem_names_field t ht f hf
  constructor
  case id => exact hnames _ hid
  case exprs =>
    intro k e he
    rw [hfg] at he
    have he := Resolve.holds_of_freeSize (Resolve.holds_of_deps _ _ k e he)
    exact Expr.unbroken_printed
      (hbuilds.unbroken (fun en hen s hs => (henum en hen s hs).1) k e he)
  case users =>
    intro p hp s hs
    obtain ⟨v, hv, rfl⟩ := Model.compile_users o set m hm t ht f hf p hp
    exact hnames s (m.mem_names_path v hv s hs)
  case enum =>
    intro e he
    exact (henum e (hparts.1 ▸ he) e.name (by simp)).1
  case encoding => exact (hnames _ hencoding).1
  case pool =>
    intro p hp s hs
    have haround := Build.field_pool hg (hparts.2 ▸ hp)
    exact hnames s (m.mem_names_path t ht s (haround.subset hs))

theorem row_instance_of_compile (i : Instance) (hi : i ∈ t.instances) : Row 5 (instanceRow i) := by
  obtain ⟨b, -, hmade⟩ := Model.compile_madeIn o set m hm
  obtain ⟨id, a, j, hj, hvalue, hguard⟩ := (hmade t ht).inst i hi
  obtain ⟨value, hv, hj⟩ := (bind_eq_ok _ _ _).mp hj
  obtain ⟨guard, hg, hj⟩ := (bind_eq_ok _ _ _).mp hj
  obtain rfl := (pure_eq_ok _ _).mp hj
  refine row_instanceRow i (hnames _ (m.mem_names_instance t ht i hi)) fun k e he =>
    Expr.unbroken_printed ?_
  cases he with
  | value => exact hvalue ▸ Build.unbroken_exprOr ((Fault.at_eq_ok _ _ _ _ _).mp hv)
  | guard he =>
    exact Build.unbroken_expr? ((Fault.at_eq_ok _ _ _ _ _).mp hg) (hguard.symm.trans he)

end Markdown

end FormatFuzz
