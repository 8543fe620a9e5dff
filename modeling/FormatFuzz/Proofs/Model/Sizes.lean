import FormatFuzz.Proofs.Model.GenerationOrder

/-!
# Sizes that become free

Resolution drops the size of a field if a length field that measures the field is named anywhere in
it, whatever else the size is made of: sums and products go, and so do names of other members and
names of nothing at all. Every other size stays, and the field is generated after all it names.
-/

set_option autoImplicit false

namespace FormatFuzz

def Expr.Refers (e : Expr) (id : String) : Prop :=
  Within (.name id) e ∧ id ∉ reserved

def TypeDef.Measures (t : TypeDef) (l id : String) : Prop :=
  ∃ g ∈ t.fields, g.id = l ∧ g.role = .derivedLength ∧ ∃ e, g.measure = some e ∧ e.Refers id

/-- A size names a length field that measures the field `id`, alone or among other things. -/
def TypeDef.NamesLength (t : TypeDef) (id : String) (size : Expr) : Prop :=
  ∃ l, size.Refers l ∧ t.Measures l id

/-- What resolution makes of the size `e` that a field declares; `f` and its type `t` as they were
built, `g` and `u` as they come out. -/
structure Field.SizeResolved (t u : TypeDef) (f g : Field) (s : Size) (e : Expr) : Prop where
  /-- A free size has the bounds of the declared one. -/
  freed : g.size = some { s with expr := none } ↔ t.NamesLength f.id e
  /-- Any other size stays, and all it names is known and comes first. -/
  kept : ¬ t.NamesLength f.id e →
    g.size = some s ∧ ∀ r, e.Refers r → r ∈ u.refs ∧ (u.HasStatic r ∨ r ∈ g.deps)
  /-- Only the size that is the name of a length field is freed, unless there is such a name inside
  a larger size. -/
  bare : (g.size = some { s with expr := none } → ∃ l, e = .name l ∧ t.Measures l f.id) ↔
    (t.NamesLength f.id e → ∃ l, e = .name l)

namespace Resolve

theorem mem_optRefs (id : String) (e : Option Expr) :
    id ∈ optRefs e ↔ ∃ x, e = some x ∧ x.Refers id := by
  cases e <;> simp [optRefs, Expr.mem_refs, Expr.Refers]

theorem field?_eq_some (t : TypeDef) (hn : (t.fields.map Field.id).Nodup) (id : String)
    (f : Field) : t.field? id = some f ↔ f ∈ t.fields ∧ f.id = id := by
  unfold TypeDef.field?
  generalize t.fields = fs at hn ⊢
  induction fs with
  | nil => simp
  | cons g fs ih =>
    rw [List.map_cons, List.nodup_cons] at hn
    rw [List.find?_cons]
    by_cases hg : g.id = id
    · have hrest : ∀ x ∈ fs, x.id ≠ id := fun x hx hid =>
        hn.1 (hg ▸ hid ▸ List.mem_map_of_mem hx)
      simp only [hg, beq_self_eq_true, Option.some.injEq, List.mem_cons]
      constructor
      · rintro rfl
        exact ⟨.inl rfl, hg⟩
      · rintro ⟨rfl | hf, hid⟩
        · rfl
        · exact absurd hid (hrest f hf)
    · rw [beq_false_of_ne hg, ih hn.2, List.mem_cons]
      refine and_congr_left fun hid => (or_iff_right ?_).symm
      rintro rfl
      exact hg hid

theorem isMeasured_iff (t : TypeDef) (hn : (t.fields.map Field.id).Nodup) (id : String)
    (size : Expr) : isMeasured t id size = true ↔ t.NamesLength id size := by
  rw [isMeasured, List.any_eq_true]
  refine exists_congr fun l => and_congr (Expr.mem_refs l size) ?_
  constructor
  · intro h
    split at h
    next g hg =>
      obtain ⟨hmem, rfl⟩ := (field?_eq_some t hn l g).mp hg
      rw [Bool.and_eq_true, beq_iff_eq, List.contains_iff_mem, mem_optRefs] at h
      exact ⟨g, hmem, rfl, h⟩
    next => cases h
  · rintro ⟨g, hmem, rfl, hrole, hrefs⟩
    rw [(field?_eq_some t hn g.id g).mpr ⟨hmem, rfl⟩]
    simp only [hrole, beq_self_eq_true, Bool.true_and, List.contains_iff_mem]
    exact (mem_optRefs id g.measure).mpr hrefs

theorem freeSize_size (t : TypeDef) (f : Field) (s : Size) (e : Expr) (hs : f.size = some s)
    (he : s.expr = some e) : (freeSize t f).size =
      if isMeasured t f.id e then some { s with expr := none } else some s := by
  simp only [freeSize, hs, he]
  split
  · rfl
  · exact hs

theorem addDep_known (t : TypeDef) (f : Field) (deps out : List String) (key name : String)
    (h : addDep t f deps key name = .ok out) : name ∈ t.refs := by
  rw [addDep] at h
  by_contra hname
  rw [if_pos (by simpa using hname)] at h
  cases h

theorem fieldDeps_known (find? : TypePath → Option TypeDef) (t : TypeDef) (f : Field)
    (deps : List String) (h : fieldDeps find? t f = .ok deps) :
    ∀ k ∈ demands find? t f, k.2 ∈ t.refs := by
  refine foldlM_run (fun deps (k : String × String) => addDep t f deps k.1 k.2)
    (fun done _ => ∀ k ∈ done, k.2 ∈ t.refs) ?_ _ [] deps (by simp) h
  intro done deps k out hd hs j hj
  rcases List.mem_append.mp hj with hj | hj
  · exact hd j hj
  · exact List.mem_singleton.mp hj ▸ addDep_known t f deps out k.1 k.2 hs

/-- `g` is the field `f` with the size that its type `t` leaves it, and with its dependencies, found
while the type stood with the names of `u`. -/
def Sized (find? : TypeDef → TypePath → Option TypeDef) (t u : TypeDef) (f g : Field) : Prop :=
  ∃ now : TypeDef, now.refs = u.refs ∧ now.statics = u.statics ∧
    fieldDeps (find? now) now (freeSize t f) = .ok g.deps ∧
      g = { freeSize t f with deps := g.deps }

theorem fields_sized (find? : TypeDef → TypePath → Option TypeDef) (t : TypeDef)
    (done rest fs : List Field) (h : fields find? t done rest = .ok fs) :
    ∃ gs, fs = done ++ gs ∧ List.Forall₂ (Sized find? t t) rest gs := by
  induction rest generalizing done with
  | nil =>
    obtain rfl := Except.ok.inj h
    exact ⟨[], by simp, .nil⟩
  | cons f rest ih =>
    obtain ⟨deps, hd, h⟩ := (bind_eq_ok _ _ _).mp h
    obtain ⟨gs, rfl, hf⟩ := ih _ h
    refine ⟨{ freeSize t f with deps := deps } :: gs, by simp, .cons ?_ hf⟩
    exact ⟨{ t with fields := done ++ freeSize t f :: rest }, rfl, rfl, hd, rfl⟩

variable (find? : TypeDef → TypePath → Option TypeDef) (t u : TypeDef)

theorem typeDef_sized (h : typeDef find? t = .ok u) :
    List.Forall₂ (Sized find? t u) t.fields u.fields := by
  obtain ⟨refs, -, h⟩ := (bind_eq_ok _ _ _).mp h
  obtain ⟨fs, hf, h⟩ := (bind_eq_ok _ _ _).mp h
  obtain ⟨is, -, h⟩ := (bind_eq_ok _ _ _).mp h
  obtain ⟨ids, -, h⟩ := (bind_eq_ok _ _ _).mp h
  obtain rfl := (pure_eq_ok _ _).mp h
  obtain ⟨gs, rfl, hs⟩ := fields_sized find? _ _ _ _ hf
  exact hs

theorem free_ne (s : Size) (e : Expr) (he : s.expr = some e) :
    some s ≠ some { s with expr := none } := by
  intro h
  have hnone := congrArg Size.expr (Option.some.inj h)
  rw [he] at hnone
  cases hnone

variable {find? t u}

theorem Sized.size {f g : Field} (hfg : Sized find? t u f g) (hres : Resolved find? t u) (s : Size)
    (e : Expr) (hs : f.size = some s) (he : s.expr = some e) : f.SizeResolved t u g s e := by
  have hn : (t.fields.map Field.id).Nodup := by
    have hn := hres.nodup
    rw [hres.refs] at hn
    exact hn.of_append_left
  obtain ⟨now, hrefs, hstatics, hdeps, hg⟩ := hfg
  have hfree := freeSize_size t f s e hs he
  have hsize : g.size = if isMeasured t f.id e then some { s with expr := none } else some s := by
    rw [hg]
    exact hfree
  have hfreed : g.size = some { s with expr := none } ↔ t.NamesLength f.id e := by
    rw [← isMeasured_iff t hn, hsize]
    split_ifs with hm
    · exact iff_of_true rfl hm
    · exact iff_of_false (free_ne s e he) hm
  refine ⟨hfreed, fun hnot => ?_, ?_⟩
  · rw [← isMeasured_iff t hn] at hnot
    rw [if_neg hnot] at hsize hfree
    refine ⟨hsize, fun r hr => ?_⟩
    have hdemand := own_demanded (find? now) now _ .size e (.size hfree he) r
      ((Expr.mem_refs r e).mpr hr)
    refine ⟨hrefs ▸ fieldDeps_known _ _ _ _ hdeps _ hdemand, ?_⟩
    rcases fieldDeps_ok _ _ _ _ hdeps _ hdemand with hst | hd | ⟨-, hu⟩
    · exact .inl (hasStatic_of_mem find? t u hres r (hstatics ▸ hst))
    · exact .inr hd
    · cases key_until .size hu
  · rw [hfreed]
    constructor
    · intro h hl
      obtain ⟨l, hl, -⟩ := h hl
      exact ⟨l, hl⟩
    · intro h hl
      obtain ⟨l, rfl⟩ := h hl
      obtain ⟨r, ⟨hr, -⟩, hm⟩ := hl
      cases hr
      exact ⟨l, rfl, hm⟩

end Resolve

/-- The fields of a type before and after resolution: a field that declares no size expression keeps
its size, the others fare as their expressions have it. -/
def TypeDef.SizesResolved (t u : TypeDef) : Prop :=
  u.path = t.path ∧ List.Forall₂ (fun f g => g.id = f.id ∧
    (Resolve.sizeExpr? f = none → g.size = f.size) ∧
    ∀ s e, f.size = some s → s.expr = some e → f.SizeResolved t u g s e) t.fields u.fields

theorem Resolve.freeSize_undeclared (t : TypeDef) (f : Field) (h : sizeExpr? f = none) :
    freeSize t f = f := by
  unfold freeSize
  split
  next s hs =>
    have he : s.expr = none := by simpa [sizeExpr?, hs] using h
    rw [he]
  next => rfl

/-- A compiled model has, type by type and field by field, the sizes of the model that was built,
but for those that name a length field of their own. -/
theorem Model.compile_sizes (o : Options) (set : SchemaSet) (m : Model)
    (h : Model.compile o set = .ok m) :
    ∃ n b, set.normalize o = .ok n ∧ Model.build o n = .ok b ∧
      List.Forall₂ TypeDef.SizesResolved b.types m.types := by
  obtain ⟨n, b, hn, hb, hus⟩ := Model.compile_each o set m h
  refine ⟨n, b, hn, hb, hus.imp ?_⟩
  rintro t u ⟨find?, hu⟩
  have hres := Resolve.typeDef_ok find? t u hu
  refine ⟨hres.path, (Resolve.typeDef_sized find? t u hu).imp fun f g hfg => ?_⟩
  refine ⟨?_, fun hnone => ?_, fun s e hs he => hfg.size hres s e hs he⟩
  · obtain ⟨-, -, -, -, hg⟩ := hfg
    rw [hg]
    exact Resolve.freeSize_id t f
  · obtain ⟨-, -, -, -, hg⟩ := hfg
    rw [hg, Resolve.freeSize_undeclared t f hnone]

def Size.sum? (s : Size) : Option (String × String) :=
  match s.expr with
  | some (.binary .add (.name a) (.name b)) => some (a, b)
  | _ => none

theorem Size.expr_of_sum? (s : Size) (a b : String) (h : s.sum? = some (a, b)) :
    s.expr = some (.binary .add (.name a) (.name b)) := by
  unfold sum? at h
  split at h
  next he =>
    cases h
    exact he
  next => cases h

/-- The size of a field as far as it is a sum of two names, and the members that its type knows. -/
structure Summed where
  known : List String
  id : String
  free : Bool
  sum : Option (String × String)
  min : Int
  max : Int
  deriving DecidableEq

def Model.sizes (m : Model) : List Summed :=
  m.types.flatMap fun t => t.fields.filterMap fun f =>
    f.size.map fun s => ⟨t.refs, f.id, s.isFree, s.sum?, s.min, s.max⟩

theorem Model.exists_of_mem_sizes (m : Model) (x : Summed) (h : x ∈ m.sizes) :
    ∃ t ∈ m.types, t.refs = x.known ∧ ∃ f ∈ t.fields, ∃ s, f.id = x.id ∧ f.size = some s ∧
      s.isFree = x.free ∧ s.sum? = x.sum ∧ s.min = x.min ∧ s.max = x.max := by
  obtain ⟨t, ht, h⟩ := List.mem_flatMap.mp h
  obtain ⟨f, hf, h⟩ := List.mem_filterMap.mp h
  obtain ⟨s, hs, rfl⟩ := Option.map_eq_some_iff.mp h
  exact ⟨t, ht, rfl, f, hf, s, rfl, hs, rfl, rfl, rfl, rfl⟩

/-- A length of some data, a size for the data that adds to the length, and a size for other data
that does so too. -/
def padded : SchemaSet :=
  ⟨⟨"padded.ksy", .mk
    { head := { Meta.empty with id := "padded" }
      seq := [
        { id := "len", type := some (.named "u1"), attrLen := .str "data" },
        { id := "data", size := .str "len + nosuch" },
        { id := "tail", size := .str "len + len" }] } []⟩, []⟩

/-- The sizes of the model that is built for a schema, then those of the compiled one. -/
def SchemaSet.sizes (set : SchemaSet) : Except SchemaError (List Summed × List Summed) := do
  let n ← set.normalize {}
  let b ← Model.build {} n
  let m ← b.resolve
  return (b.sizes, m.sizes)

def paddedBuilt : List Summed :=
  [⟨[], "data", false, some ("len", "nosuch"), 0, 64⟩,
    ⟨[], "tail", false, some ("len", "len"), 0, 64⟩]

def paddedCompiled : List Summed :=
  [⟨["len", "data", "tail"], "data", true, none, 0, 64⟩,
    ⟨["len", "data", "tail"], "tail", false, some ("len", "len"), 0, 64⟩]

theorem sizes_padded : ∃ n b m, padded.normalize {} = .ok n ∧ Model.build {} n = .ok b ∧
    Model.compile {} padded = .ok m ∧ b.sizes = paddedBuilt ∧ m.sizes = paddedCompiled := by
  obtain ⟨x, hx, hsizes⟩ := exists_ok_of_toOption_map padded.sizes id (paddedBuilt, paddedCompiled)
    (by decide +kernel)
  obtain ⟨n, hn, hx⟩ := (bind_eq_ok _ _ _).mp hx
  obtain ⟨b, hb, hx⟩ := (bind_eq_ok _ _ _).mp hx
  obtain ⟨m, hm, hx⟩ := (bind_eq_ok _ _ _).mp hx
  obtain rfl := (pure_eq_ok _ _).mp hx
  obtain ⟨hbefore, hafter⟩ := Prod.mk.inj hsizes
  refine ⟨n, b, m, hn, hb, ?_, hbefore, hafter⟩
  exact (bind_eq_ok _ _ _).mpr ⟨n, hn, (bind_eq_ok _ _ _).mpr ⟨b, hb, hm⟩⟩

theorem Model.compile_sizes_padded : ∃ n b m, Model.compile {} padded = .ok m ∧
    padded.normalize {} = .ok n ∧ Model.build {} n = .ok b ∧
      List.Forall₂ TypeDef.SizesResolved b.types m.types := by
  obtain ⟨-, -, m, -, -, hm, -⟩ := sizes_padded
  obtain ⟨n, b, hn, hb, hall⟩ := Model.compile_sizes {} padded m hm
  exact ⟨n, b, m, hm, hn, hb, hall⟩

/-- A sum is dropped although it names something that does not exist. -/
theorem Model.compile_frees_sum : ∃ n b m, padded.normalize {} = .ok n ∧
    Model.build {} n = .ok b ∧ Model.compile {} padded = .ok m ∧
      ∃ t ∈ b.types, ∃ u ∈ m.types, ∃ f ∈ t.fields, ∃ g ∈ u.fields, ∃ s,
        f.id = "data" ∧ g.id = "data" ∧ f.size = some s ∧
          s.expr = some (.binary .add (.name "len") (.name "nosuch")) ∧ "nosuch" ∉ u.refs ∧
          g.size = some { s with expr := none } := by
  obtain ⟨n, b, m, hn, hb, hm, hbefore, hafter⟩ := sizes_padded
  obtain ⟨t, ht, -, f, hf, s, hfid, hfs, -, hsum, hlo, hhi⟩ :=
    b.exists_of_mem_sizes ⟨[], "data", false, some ("len", "nosuch"), 0, 64⟩
      (by rw [hbefore]; simp [paddedBuilt])
  obtain ⟨u, hu, hknown, g, hg, free, hgid, hgs, hfree, -, hlo', hhi'⟩ :=
    m.exists_of_mem_sizes ⟨["len", "data", "tail"], "data", true, none, 0, 64⟩
      (by rw [hafter]; simp [paddedCompiled])
  obtain ⟨expr, lo, hi⟩ := free
  obtain rfl : expr = none := Option.isNone_iff_eq_none.mp hfree
  refine ⟨n, b, m, hn, hb, hm, t, ht, u, hu, f, hf, g, hg, s, hfid, hgid, hfs,
    s.expr_of_sum? _ _ hsum, by rw [hknown]; decide, ?_⟩
  rw [hgs, hlo, hhi, ← hlo', ← hhi']

end FormatFuzz
