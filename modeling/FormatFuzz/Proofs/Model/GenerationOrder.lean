import FormatFuzz.Model.Resolve
import FormatFuzz.Proofs.Model.Noting
import FormatFuzz.Proofs.Model.Resolution

/-!
# Safe generation order

In a compiled model the order of a type lists every field and every instance that is not static,
each once, and nothing that generating a member evaluates names a member that comes later.
-/

set_option autoImplicit false

namespace FormatFuzz

def TypeDef.HasStatic (t : TypeDef) (id : String) : Prop :=
  ∃ i ∈ t.instances, i.isStatic = true ∧ i.id = id

/-- Every member stands in the order once and after the members its expressions mention. Only the
ending condition of a repeated field may mention the field itself. -/
structure TypeDef.SafeOrder (t : TypeDef) : Prop where
  nodup : t.order.Nodup
  lists : ∀ id, id ∈ t.order ↔
    (∃ f ∈ t.fields, f.id = id) ∨ ∃ i ∈ t.instances, i.isStatic = false ∧ i.id = id
  fields : ∀ before id after, t.order = before ++ id :: after → ∀ f ∈ t.fields, f.id = id →
    ∀ k e, f.Holds k e → ∀ r, Expr.Within (.name r) e → r ∉ Expr.reserved →
      t.HasStatic r ∨ r ∈ before ∨ (k = .until ∧ r = id)
  instances : ∀ before id after, t.order = before ++ id :: after → ∀ i ∈ t.instances, i.id = id →
    ∀ k e, i.Holds k e → ∀ r, Expr.Within (.name r) e → r ∉ Expr.reserved →
      t.HasStatic r ∨ r ∈ before

theorem Build.instance_fresh (here : TypePath) (id : String) (a : Attr) (i : Instance)
    (h : Build.instance here id a = .ok i) : i.isStatic = false := by
  obtain ⟨value, -, h⟩ := (bind_eq_ok _ _ _).mp h
  obtain ⟨guard, -, h⟩ := (bind_eq_ok _ _ _).mp h
  obtain rfl := (pure_eq_ok _ _).mp h
  rfl

theorem Model.build_fresh (o : Options) (s : SchemaSet) (m : Model) (h : Model.build o s = .ok m)
    (t : TypeDef) (ht : t ∈ m.types) (i : Instance) (hi : i ∈ t.instances) :
    i.isStatic = false := by
  obtain ⟨_, _, types, -, -, hts, hm⟩ := Model.build_ok o s m h
  obtain ⟨u, hu, rfl⟩ := List.mem_map.mp (hm ▸ ht)
  obtain ⟨⟨shell, body⟩, -, h⟩ := forall₂_mem_right _ _ _ (mapM_eq_ok _ _ _ hts) u hu
  obtain ⟨fields, -, h⟩ := (bind_eq_ok _ _ _).mp h
  obtain ⟨instances, his, h⟩ := (bind_eq_ok _ _ _).mp h
  obtain rfl := (pure_eq_ok _ _).mp h
  obtain ⟨e, -, h⟩ := forall₂_mem_right _ _ _ (mapM_eq_ok _ _ _ his) i hi
  exact Build.instance_fresh _ _ _ i h

theorem Model.compile_ok (o : Options) (s : SchemaSet) (m : Model)
    (h : Model.compile o s = .ok m) :
    ∃ b : Model, (∀ t ∈ b.types, ∀ i ∈ t.instances, i.isStatic = false) ∧
      Resolve.types [] b.types = .ok m.types := by
  obtain ⟨n, -, h⟩ := (bind_eq_ok _ _ _).mp h
  obtain ⟨b, hb, h⟩ := (bind_eq_ok _ _ _).mp h
  obtain ⟨ts, hts, h⟩ := (bind_eq_ok _ _ _).mp h
  obtain rfl := (pure_eq_ok _ _).mp h
  exact ⟨b, Model.build_fresh o n b hb, hts⟩

theorem Model.compile_each (o : Options) (s : SchemaSet) (m : Model)
    (h : Model.compile o s = .ok m) : ∃ n b, s.normalize o = .ok n ∧ Model.build o n = .ok b ∧
      List.Forall₂ (fun t u => ∃ find?, Resolve.typeDef find? t = .ok u) b.types m.types := by
  obtain ⟨n, hn, h⟩ := (bind_eq_ok _ _ _).mp h
  obtain ⟨b, hb, h⟩ := (bind_eq_ok _ _ _).mp h
  obtain ⟨ts, hts, h⟩ := (bind_eq_ok _ _ _).mp h
  obtain rfl := (pure_eq_ok _ _).mp h
  obtain ⟨us, rfl, hus⟩ := Resolve.types_each [] b.types ts hts
  exact ⟨n, b, hn, hb, hus⟩

namespace Resolve

variable (find? : TypeDef → TypePath → Option TypeDef) (t out : TypeDef)
  (h : Resolved find? t out)

include h

theorem hasStatic_of_mem (id : String) (hs : id ∈ out.statics) : out.HasStatic id := by
  obtain ⟨i, hi, rfl⟩ := statics_instances t.instances id (h.statics ▸ hs)
  obtain ⟨j, hj, hij⟩ := forall₂_mem_left _ _ _ h.instances i hi
  obtain ⟨hid, -, -, hst, -⟩ := instanceDeps_ok out i j hij
  exact ⟨j, hj, by simp [hst, hs], hid⟩

theorem field_not_static (g : Field) (hg : g ∈ out.fields) :
    g.id ∈ out.refs ∧ g.id ∉ out.statics := by
  obtain ⟨f, hf, now, -, hs⟩ := forall₂_mem_right _ _ _ h.fields g hg
  rw [settled_id find? now f g hs]
  have hf' : f.id ∈ t.fields.map Field.id := List.mem_map_of_mem hf
  constructor
  · rw [h.refs]
    exact List.mem_append_left _ hf'
  · intro hst
    obtain ⟨i, hi, hid⟩ := statics_instances t.instances f.id (h.statics ▸ hst)
    have hn := h.nodup
    rw [h.refs] at hn
    exact List.disjoint_of_nodup_append hn hf' (hid ▸ List.mem_map_of_mem hi)

theorem mem_refs_iff (id : String) :
    id ∈ out.refs ↔ (∃ f ∈ out.fields, f.id = id) ∨ ∃ i ∈ out.instances, i.id = id := by
  rw [h.refs, List.mem_append, List.mem_map, List.mem_map]
  refine or_congr ⟨?_, ?_⟩ ⟨?_, ?_⟩
  · rintro ⟨f, hf, rfl⟩
    obtain ⟨g, hg, now, -, hs⟩ := forall₂_mem_left _ _ _ h.fields f hf
    exact ⟨g, hg, settled_id find? now f g hs⟩
  · rintro ⟨g, hg, rfl⟩
    obtain ⟨f, hf, now, -, hs⟩ := forall₂_mem_right _ _ _ h.fields g hg
    exact ⟨f, hf, (settled_id find? now f g hs).symm⟩
  · rintro ⟨i, hi, rfl⟩
    obtain ⟨j, hj, hij⟩ := forall₂_mem_left _ _ _ h.instances i hi
    exact ⟨j, hj, (instanceDeps_ok out i j hij).1⟩
  · rintro ⟨j, hj, rfl⟩
    obtain ⟨i, hi, hij⟩ := forall₂_mem_right _ _ _ h.instances j hj
    exact ⟨i, hi, (instanceDeps_ok out i j hij).1.symm⟩

theorem instance_static_iff (hf : ∀ i ∈ t.instances, i.isStatic = false) (j : Instance)
    (hj : j ∈ out.instances) : j.isStatic = false ↔ j.id ∉ out.statics := by
  obtain ⟨i, hi, hij⟩ := forall₂_mem_right _ _ _ h.instances j hj
  obtain ⟨hid, -, -, hst, -⟩ := instanceDeps_ok out i j hij
  simp [hst, hid, hf i hi]

theorem resolved_safeOrder (hf : ∀ i ∈ t.instances, i.isStatic = false) : out.SafeOrder := by
  obtain ⟨hn, hm, ho⟩ := order_ok out out.order h.nodup h.order
  refine ⟨hn, ?_, ?_, ?_⟩
  · intro id
    rw [hm, mem_refs_iff find? t out h]
    constructor
    · rintro ⟨hg | ⟨j, hj, rfl⟩, hs⟩
      · exact Or.inl hg
      · exact Or.inr ⟨j, hj, (instance_static_iff find? t out h hf j hj).mpr hs, rfl⟩
    · rintro (⟨g, hg, rfl⟩ | ⟨j, hj, hst, rfl⟩)
      · exact ⟨Or.inl ⟨g, hg, rfl⟩, (field_not_static find? t out h g hg).2⟩
      · exact ⟨Or.inr ⟨j, hj, rfl⟩, (instance_static_iff find? t out h hf j hj).mp hst⟩
  · rintro before id after he g hg rfl k e hk r hr hres
    obtain ⟨f, -, now, hstage, hs⟩ := forall₂_mem_right _ _ _ h.fields g hg
    rcases settled_own find? now f g hs k e hk r ((Expr.mem_refs r e).mpr ⟨hr, hres⟩)
      with hst | hd | ⟨rfl, rfl⟩
    · exact Or.inl (hasStatic_of_mem find? t out h r (hstage.statics ▸ hst))
    · rcases ho before g.id after he r (Or.inl ⟨g, hg, rfl, hd⟩) with hst | hb
      · exact Or.inl (hasStatic_of_mem find? t out h r hst)
      · exact Or.inr (Or.inl hb)
    · exact Or.inr (Or.inr ⟨rfl, rfl⟩)
  · rintro before id after he j hj rfl k e hk r hr hres
    obtain ⟨i, -, hij⟩ := forall₂_mem_right _ _ _ h.instances j hj
    obtain ⟨hid, hv, hg, -, hdeps⟩ := instanceDeps_ok out i j hij
    -- an instance in the order is not static, so its dependencies were recorded
    have hns : j.id ∉ out.statics := ((hm j.id).mp (he ▸ by simp)).2
    have hk' : r ∈ instanceRefs j :=
      holds_instanceRefs j k e hk r ((Expr.mem_refs r e).mpr ⟨hr, hres⟩)
    have hi' : r ∈ instanceRefs i := by simpa [instanceRefs, hv, hg] using hk'
    rcases hdeps (hid ▸ hns) r hi' with hst | hd
    · exact Or.inl (hasStatic_of_mem find? t out h r hst)
    · rcases ho before j.id after he r (Or.inr ⟨j, hj, rfl, hd⟩) with hst | hb
      · exact Or.inl (hasStatic_of_mem find? t out h r hst)
      · exact Or.inr hb

end Resolve

/-- Whatever compiles, all of its types have a safe order. -/
theorem Model.compile_safeOrder (o : Options) (s : SchemaSet) (m : Model)
    (h : Model.compile o s = .ok m) (t : TypeDef) (ht : t ∈ m.types) : t.SafeOrder := by
  obtain ⟨b, hfresh, hts⟩ := Model.compile_ok o s m h
  obtain ⟨ts, hm, -, hres⟩ := Resolve.types_ok [] b.types m.types hts
  rw [List.nil_append] at hm
  obtain ⟨before, after, he⟩ := List.append_of_mem (hm ▸ ht)
  obtain ⟨u, hu, later, -, hr⟩ := hres before t after he
  exact Resolve.resolved_safeOrder _ u t hr (hfresh u hu)

/-- A length follows the bytes it measures, a size waits for a value that waits for this length,
and a list ends by its own length. -/
def packet : SchemaSet :=
  ⟨⟨"packet.ksy", .mk
    { head := { Meta.empty with id := "packet" }
      seq := [
        { id := "body", size := .str "count * width" },
        { id := "len", type := some (.named "u1"), attrLen := .str "data" },
        { id := "data", size := .str "len" },
        { id := "items", type := some (.named "u1"), repeated := "until",
          repeatUntil := .str "_ == 0 or items.size > width" }]
      instances := [("count", { value := .str "len + 1" }), ("width", { value := .int 4 })] } []⟩,
    []⟩

theorem Model.compile_safeOrder_packet :
    ∃ m, Model.compile {} packet = .ok m ∧
      m.types.map TypeDef.order = [["data", "len", "items", "count", "body"]] ∧
      ∀ t ∈ m.types, t.SafeOrder := by
  obtain ⟨m, hm, ho⟩ := exists_ok_of_toOption_map (Model.compile {} packet)
    (fun m => m.types.map TypeDef.order) [["data", "len", "items", "count", "body"]]
    (by decide +kernel)
  exact ⟨m, hm, ho, Model.compile_safeOrder {} packet m hm⟩

end FormatFuzz
