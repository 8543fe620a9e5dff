import FormatFuzz.Proofs.Model.GenerationOrder
import Mathlib.Data.List.Perm.Subperm
import Mathlib.Order.Bounds.Defs

/-!
# Static instances

An instance is static if all it mentions are static instances. Passes over the instances are
repeated until one of them marks nothing; each name that a pass adds was justified by the names
listed before it, and where nothing is added nothing was justified. So the marked instances are the
least set that the rule allows, and the only way to stay out of it is a chain of mentions that leads
to something that is no instance, to a reserved name, or in a circle.
-/

set_option autoImplicit false

namespace FormatFuzz

def Instance.Mentions (i : Instance) (r : String) : Prop :=
  ∃ k e, i.Holds k e ∧ Expr.Within (.name r) e

/-- Do the value and the guard of an instance use no reserved name, and does every name that they
mention belong to an instance of the set? -/
def TypeDef.Allows (t : TypeDef) (set : Set Instance) (i : Instance) : Prop :=
  ∀ r, i.Mentions r → r ∉ Expr.reserved ∧ ∃ j ∈ t.instances, j.id = r ∧ j ∈ set

def TypeDef.Leads (t : TypeDef) (id r : String) : Prop :=
  ∃ i ∈ t.instances, i.id = id ∧ i.Mentions r

namespace Resolve

inductive Settles (is : List Instance) : List String → List String → Prop
  | done {s : List String} (h : staticPass is s = s) : Settles is s s
  | again {s out : List String} (h : staticPass is s ≠ s) (ho : Settles is (staticPass is s) out) :
      Settles is s out

theorem mentions_iff (i : Instance) (r : String) :
    i.Mentions r ↔ r ∈ i.value.names ∨ ∃ g, i.guard = some g ∧ r ∈ g.names := by
  simp only [Expr.mem_names]
  constructor
  · rintro ⟨k, e, h, hr⟩
    cases h with
    | value => exact Or.inl hr
    | guard h => exact Or.inr ⟨e, h, hr⟩
  · rintro (hr | ⟨g, hg, hr⟩)
    · exact ⟨_, _, .value, hr⟩
    · exact ⟨_, _, .guard hg, hr⟩

theorem usesReserved_iff (i : Instance) :
    usesReserved i = true ↔ ∃ r, i.Mentions r ∧ r ∈ Expr.reserved := by
  simp only [mentions_iff, usesReserved, Expr.usesReserved, Expr.isReserved, Bool.or_eq_true,
    List.any_eq_true, Option.any_eq_true, List.contains_iff_mem]
  constructor
  · rintro (⟨r, hr, hres⟩ | ⟨g, hg, r, hr, hres⟩)
    · exact ⟨r, Or.inl hr, hres⟩
    · exact ⟨r, Or.inr ⟨g, hg, hr⟩, hres⟩
  · rintro ⟨r, hr | ⟨g, hg, hr⟩, hres⟩
    · exact Or.inl ⟨r, hr, hres⟩
    · exact Or.inr ⟨g, hg, r, hr, hres⟩

theorem mem_instanceRefs (i : Instance) (r : String) :
    r ∈ instanceRefs i ↔ i.Mentions r ∧ r ∉ Expr.reserved := by
  have hguard : r ∈ optRefs i.guard ↔ ∃ g, i.guard = some g ∧ r ∈ g.refs := by
    cases i.guard <;> simp [optRefs]
  simp only [instanceRefs, mem_distinct, List.mem_append, hguard, mentions_iff, Expr.mem_refs,
    Expr.mem_names]
  constructor
  · rintro (⟨h, hr⟩ | ⟨g, hg, h, hr⟩)
    · exact ⟨Or.inl h, hr⟩
    · exact ⟨Or.inr ⟨g, hg, h⟩, hr⟩
  · rintro ⟨h | ⟨g, hg, h⟩, hr⟩
    · exact Or.inl ⟨h, hr⟩
    · exact Or.inr ⟨g, hg, h, hr⟩

theorem isStaticGiven_iff (s : List String) (i : Instance) :
    isStaticGiven s i = true ↔ ∀ r, i.Mentions r → r ∉ Expr.reserved ∧ r ≠ i.id ∧ r ∈ s := by
  have hall : ((instanceRefs i).all fun r => r != i.id && s.contains r) = true ↔
      ∀ r, i.Mentions r → r ∉ Expr.reserved → r ≠ i.id ∧ r ∈ s := by
    simp only [List.all_eq_true, mem_instanceRefs, Bool.and_eq_true, bne_iff_ne,
      List.contains_iff_mem, and_imp]
  have hnone : (!usesReserved i) = true ↔ ∀ r, i.Mentions r → r ∉ Expr.reserved := by
    rw [Bool.not_eq_true', Bool.eq_false_iff, ne_eq, usesReserved_iff]
    push Not
    exact Iff.rfl
  rw [isStaticGiven, Bool.and_eq_true, hall, hnone]
  constructor
  · rintro ⟨hres, hs⟩ r hr
    exact ⟨hres r hr, hs r hr (hres r hr)⟩
  · intro h
    exact ⟨fun r hr => (h r hr).1, fun r hr _ => (h r hr).2⟩

theorem staticPass_cons (i : Instance) (is : List Instance) (s : List String) :
    staticPass (i :: is) s
      = staticPass is (if !s.contains i.id && isStaticGiven s i then s ++ [i.id] else s) := rfl

theorem staticPass_extends (is : List Instance) (s : List String) : s <+: staticPass is s := by
  induction is generalizing s with
  | nil => exact List.prefix_refl s
  | cons i is ih =>
    rw [staticPass_cons]
    by_cases h : (!s.contains i.id && isStaticGiven s i) = true
    · rw [if_pos h]
      exact (List.prefix_append s [i.id]).trans (ih _)
    · rw [if_neg h]
      exact ih s

theorem mem_of_staticPass_eq (is : List Instance) (s : List String) (h : staticPass is s = s) :
    ∀ i ∈ is, isStaticGiven s i = true → i.id ∈ s := by
  induction is with
  | nil => simp
  | cons j is ih =>
    by_cases hj : (!s.contains j.id && isStaticGiven s j) = true
    · have hlonger := (staticPass_extends is (s ++ [j.id])).length_le
      rw [staticPass_cons, if_pos hj] at h
      rw [h, List.length_append, List.length_singleton] at hlonger
      omega
    · rw [staticPass_cons, if_neg hj] at h
      intro i hi hs
      rcases List.mem_cons.mp hi with rfl | hi
      · by_contra hn
        simp [hs, hn] at hj
      · exact ih h i hi hs

/-- What passes keep: no name is listed twice, and each belongs to an instance that the names in
front of it justify. -/
structure Justified (is : List Instance) (s : List String) : Prop where
  nodup : s.Nodup
  given : ∀ before id after, s = before ++ id :: after →
    ∃ i ∈ is, i.id = id ∧ isStaticGiven before i = true

theorem justified_nil (is : List Instance) : Justified is [] :=
  ⟨List.nodup_nil, by simp⟩

theorem justified_snoc (is : List Instance) (s : List String) (h : Justified is s) (i : Instance)
    (hi : i ∈ is) (hn : i.id ∉ s) (hs : isStaticGiven s i = true) :
    Justified is (s ++ [i.id]) := by
  refine ⟨?_, Graph.forall_split_snoc _ s i.id h.given ⟨i, hi, rfl, hs⟩⟩
  rw [← List.concat_eq_append, List.nodup_concat]
  exact ⟨hn, h.nodup⟩

theorem justified_pass (is js : List Instance) (hjs : ∀ j ∈ js, j ∈ is) (s : List String)
    (h : Justified is s) : Justified is (staticPass js s) := by
  induction js generalizing s with
  | nil => exact h
  | cons j js ih =>
    rw [staticPass_cons]
    apply ih fun k hk => hjs k (List.mem_cons_of_mem j hk)
    by_cases hj : (!s.contains j.id && isStaticGiven s j) = true
    · rw [if_pos hj]
      simp only [Bool.and_eq_true, Bool.not_eq_true', List.contains_eq_mem,
        decide_eq_false_iff_not] at hj
      exact justified_snoc is s h j (hjs j (by simp)) hj.1 hj.2
    · rw [if_neg hj]
      exact h

theorem Justified.mem_instances {is : List Instance} {s : List String} (h : Justified is s) :
    ∀ id ∈ s, id ∈ is.map Instance.id := by
  intro id hid
  obtain ⟨before, after, he⟩ := List.append_of_mem hid
  obtain ⟨i, hi, rfl, -⟩ := h.given before id after he
  exact List.mem_map_of_mem hi

theorem Justified.length_le {is : List Instance} {s : List String} (h : Justified is s) :
    s.length ≤ is.length := by
  have := (List.subperm_of_subset h.nodup h.mem_instances).length_le
  rwa [List.length_map] at this

theorem staticPasses_fixed (is : List Instance) (n : Nat) (s : List String)
    (h : staticPass is s = s) : staticPasses is n s = s := by
  induction n with
  | zero => rfl
  | succ n ih => rw [staticPasses, h, ih]

theorem settles_passes (is : List Instance) (n : Nat) (s : List String) (h : Justified is s)
    (hn : is.length ≤ n + s.length) : Settles is s (staticPasses is n s) := by
  induction n generalizing s with
  | zero =>
    have hext := staticPass_extends is s
    have hle := (justified_pass is is (fun _ hi => hi) s h).length_le
    exact .done (hext.eq_of_length_le (by omega)).symm
  | succ n ih =>
    by_cases hfix : staticPass is s = s
    · rw [staticPasses_fixed is (n + 1) s hfix]
      exact .done hfix
    · have hext := staticPass_extends is s
      have hlonger : s.length < (staticPass is s).length := by
        by_contra hle
        exact hfix (hext.eq_of_length_le (by omega)).symm
      exact .again hfix (ih _ (justified_pass is is (fun _ hi => hi) s h) (by omega))

theorem settles_statics (is : List Instance) : Settles is [] (statics is) :=
  settles_passes is is.length [] (justified_nil is) (by simp)

theorem Settles.fixed {is : List Instance} {s out : List String} (h : Settles is s out) :
    staticPass is out = out := by
  induction h with
  | done h => exact h
  | again _ _ ih => exact ih

theorem Settles.justified {is : List Instance} {s out : List String} (h : Settles is s out)
    (hs : Justified is s) : Justified is out := by
  induction h with
  | done => exact hs
  | again _ _ ih => exact ih (justified_pass is is (fun _ hi => hi) _ hs)

theorem justified_statics (is : List Instance) : Justified is (statics is) :=
  (settles_statics is).justified (justified_nil is)

end Resolve

namespace TypeDef

variable (t : TypeDef)

def marked : Set Instance :=
  {i | i ∈ t.instances ∧ i.id ∈ Resolve.statics t.instances}

theorem instance_unique (hn : (t.instances.map Instance.id).Nodup) (i j : Instance)
    (hi : i ∈ t.instances) (hj : j ∈ t.instances) (h : i.id = j.id) : i = j :=
  List.inj_on_of_nodup_map hn hi hj h

theorem marked_closed (i : Instance) (hi : i ∈ t.instances) (h : t.Allows t.marked i) :
    i ∈ t.marked := by
  refine ⟨hi, ?_⟩
  by_cases hself : i.Mentions i.id
  · obtain ⟨-, j, -, hj, hm⟩ := h i.id hself
    exact hj ▸ hm.2
  · apply Resolve.mem_of_staticPass_eq _ _ (Resolve.settles_statics t.instances).fixed i hi
    rw [Resolve.isStaticGiven_iff]
    intro r hr
    obtain ⟨hres, j, -, rfl, hm⟩ := h r hr
    exact ⟨hres, fun he => hself (he ▸ hr), hm.2⟩

theorem mentions_before (hn : (t.instances.map Instance.id).Nodup) (before after : List String)
    (id : String) (he : Resolve.statics t.instances = before ++ id :: after) (i : Instance)
    (hi : i ∈ t.instances) (hid : i.id = id) (r : String) (hr : i.Mentions r) :
    r ∉ Expr.reserved ∧ r ∈ before := by
  obtain ⟨j, hj, hjid, hs⟩ := (Resolve.justified_statics t.instances).given before id after he
  obtain rfl := t.instance_unique hn i j hi hj (hid.trans hjid.symm)
  obtain ⟨hres, -, hb⟩ := (Resolve.isStaticGiven_iff before i).mp hs r hr
  exact ⟨hres, hb⟩

theorem marked_subset (hn : (t.instances.map Instance.id).Nodup) (set : Set Instance)
    (hs : ∀ i ∈ t.instances, t.Allows set i → i ∈ set) : t.marked ⊆ set := by
  -- along the list of names: those in front are in the set already
  have run : ∀ names rest, Resolve.statics t.instances = names ++ rest →
      ∀ i ∈ t.instances, i.id ∈ names → i ∈ set := by
    intro names
    induction names using List.reverseRecOn with
    | nil => simp
    | append_singleton names id ih =>
      intro rest he i hi hid
      have he' : Resolve.statics t.instances = names ++ id :: rest := by simp [he]
      rcases List.mem_append.mp hid with h | h
      · exact ih _ he' i hi h
      · apply hs i hi
        intro r hr
        obtain ⟨hres, hb⟩ := t.mentions_before hn names rest id he' i hi
          (List.mem_singleton.mp h) r hr
        have hr' := (Resolve.justified_statics t.instances).mem_instances r
          (he' ▸ List.mem_append_left _ hb)
        obtain ⟨j, hj, rfl⟩ := List.mem_map.mp hr'
        exact ⟨hres, j, hj, rfl, ih _ he' j hj hb⟩
  exact fun i hi => run _ [] (by simp) i hi.1 hi.2

theorem leads_before (hn : (t.instances.map Instance.id).Nodup) (id r : String)
    (hid : id ∈ Resolve.statics t.instances) (h : Relation.TransGen t.Leads id r) :
    r ∉ Expr.reserved ∧ r ∈ Resolve.statics t.instances ∧
      (Resolve.statics t.instances).idxOf r < (Resolve.statics t.instances).idxOf id := by
  have step : ∀ a b, a ∈ Resolve.statics t.instances → t.Leads a b →
      b ∉ Expr.reserved ∧ b ∈ Resolve.statics t.instances ∧
        (Resolve.statics t.instances).idxOf b < (Resolve.statics t.instances).idxOf a := by
    rintro a b ha ⟨i, hi, hia, hb⟩
    obtain ⟨before, after, he⟩ := List.append_of_mem ha
    obtain ⟨hres, hbefore⟩ := t.mentions_before hn before after a he i hi hia b hb
    have hna : a ∉ before := by
      intro hin
      have hnodup := (Resolve.justified_statics t.instances).nodup
      rw [he] at hnodup
      exact List.disjoint_of_nodup_append hnodup hin (by simp)
    rw [he, List.idxOf_append_of_mem hbefore, List.idxOf_append_of_notMem hna]
    have := List.idxOf_lt_length_of_mem hbefore
    exact ⟨hres, List.mem_append_left _ hbefore, by omega⟩
  induction h with
  | single h => exact step id _ hid h
  | @tail b c _ h ih =>
    obtain ⟨hres, hc, hlt⟩ := step b c ih.2.1 h
    exact ⟨hres, hc, Nat.lt_trans hlt ih.2.2⟩

/-- A name keeps out whatever leads to it if it is reserved, a field, no member at all, or on a
circle of instances. -/
def Bars (r : String) : Prop :=
  r ∈ Expr.reserved ∨ (∃ f ∈ t.fields, f.id = r) ∨ (∀ i ∈ t.instances, i.id ≠ r) ∨
    Relation.TransGen t.Leads r r

theorem marked_of_chains (i : Instance) (hi : i ∈ t.instances)
    (h : ∀ r, Relation.TransGen t.Leads i.id r → ¬ t.Bars r) : i ∈ t.marked := by
  classical
  by_contra hout
  -- the unmarked instances that are reached: each of them leads to another, so some form a circle
  let outside := t.instances.filter fun j =>
    (j.id = i.id ∨ Relation.TransGen t.Leads i.id j.id) ∧ j.id ∉ Resolve.statics t.instances
  have hmem : ∀ j, j ∈ outside ↔ j ∈ t.instances ∧
      (j.id = i.id ∨ Relation.TransGen t.Leads i.id j.id) ∧
        j.id ∉ Resolve.statics t.instances := by
    simp [outside]
  have hreach : ∀ j ∈ outside, ∀ r, Relation.TransGen t.Leads j.id r →
      Relation.TransGen t.Leads i.id r := by
    intro j hj r hr
    rcases ((hmem j).mp hj).2.1 with he | hpath
    · exact he ▸ hr
    · exact hpath.trans hr
  have hnext : ∀ j ∈ outside, ∃ k ∈ outside, t.Leads j.id k.id := by
    intro j hj
    obtain ⟨hjt, -, hnot⟩ := (hmem j).mp hj
    have hstuck : Resolve.isStaticGiven (Resolve.statics t.instances) j ≠ true := fun hs => hnot
      (Resolve.mem_of_staticPass_eq _ _ (Resolve.settles_statics t.instances).fixed j hjt hs)
    rw [ne_eq, Resolve.isStaticGiven_iff] at hstuck
    push Not at hstuck
    obtain ⟨r, hr, hstuck⟩ := hstuck
    have hlead : t.Leads j.id r := ⟨j, hjt, rfl, hr⟩
    have hir := hreach j hj r (.single hlead)
    have hfree := h r hir
    rw [Bars] at hfree
    push Not at hfree
    obtain ⟨hres, -, ⟨k, hk, rfl⟩, hcircle⟩ := hfree
    have hself : k.id ≠ j.id := fun he => hcircle (.single (he ▸ hlead))
    exact ⟨k, (hmem k).mpr ⟨hk, Or.inr hir, hstuck hres hself⟩, hlead⟩
  have hne : outside ≠ [] := List.ne_nil_of_mem
    ((hmem i).mpr ⟨hi, Or.inl rfl, fun hs => hout ⟨hi, hs⟩⟩)
  obtain ⟨j, hj, hcircle⟩ := Graph.exists_circle (fun j k => t.Leads j.id k.id) outside hne hnext
  have hpath : Relation.TransGen t.Leads j.id j.id := hcircle.lift Instance.id fun _ _ h => h
  exact h j.id (hreach j hj j.id hpath) (Or.inr (Or.inr (Or.inr hpath)))

theorem marked_iff_chains (hn : (t.fields.map Field.id ++ t.instances.map Instance.id).Nodup)
    (i : Instance) (hi : i ∈ t.instances) :
    i ∈ t.marked ↔ ∀ r, Relation.TransGen t.Leads i.id r → ¬ t.Bars r := by
  have hni := (List.nodup_append.mp hn).2.1
  constructor
  · rintro hm r hr hbar
    obtain ⟨hres, hr', -⟩ := t.leads_before hni i.id r hm.2 hr
    have hinst := (Resolve.justified_statics t.instances).mem_instances r hr'
    rcases hbar with hbar | ⟨f, hf, rfl⟩ | hbar | hbar
    · exact hres hbar
    · exact List.disjoint_of_nodup_append hn (List.mem_map_of_mem hf) hinst
    · obtain ⟨j, hj, hjr⟩ := List.mem_map.mp hinst
      exact hbar j hj hjr
    · exact Nat.lt_irrefl _ (t.leads_before hni r r hr' hbar).2.2
  · exact t.marked_of_chains i hi

/-- Passes end at the listed names and mark the least set that the rule allows. Only a chain of
mentions to a name that bars an instance keeps it out, and each name stands once, behind all that its
instance mentions. -/
structure StaticsOf (names : List String) (set : Set Instance) : Prop where
  settles : Resolve.Settles t.instances [] names
  least : IsLeast {s | ∀ i ∈ t.instances, t.Allows s i → i ∈ s} set
  chains : ∀ i ∈ t.instances, i ∉ set ↔ ∃ r, Relation.TransGen t.Leads i.id r ∧ t.Bars r
  nodup : names.Nodup
  listed : ∀ id, id ∈ names ↔ ∃ i ∈ set, i.id = id
  behind : ∀ before id after, names = before ++ id :: after →
    ∀ i ∈ t.instances, i.id = id → ∀ r, i.Mentions r → r ∈ before

theorem statics_ofType (hn : (t.fields.map Field.id ++ t.instances.map Instance.id).Nodup) :
    t.StaticsOf (Resolve.statics t.instances) t.marked := by
  have hni := (List.nodup_append.mp hn).2.1
  have hj := Resolve.justified_statics t.instances
  refine ⟨Resolve.settles_statics t.instances, ⟨t.marked_closed, ?_⟩, ?_, hj.nodup, ?_, ?_⟩
  · exact fun s hs => t.marked_subset hni s hs
  · intro i hi
    rw [t.marked_iff_chains hn i hi]
    push Not
    exact Iff.rfl
  · intro id
    constructor
    · intro hid
      obtain ⟨i, hi, rfl⟩ := List.mem_map.mp (hj.mem_instances id hid)
      exact ⟨i, ⟨hi, hid⟩, rfl⟩
    · rintro ⟨i, hi, rfl⟩
      exact hi.2
  · intro before id after he i hi hid r hr
    exact (t.mentions_before hni before after id he i hi hid r hr).2

end TypeDef

/-- Among the members of a built type, the least set that the rule allows is what resolution lists
and marks. -/
theorem Model.build_statics (o : Options) (s : SchemaSet) (m : Model) (hm : Model.build o s = .ok m)
    (t : TypeDef) (ht : t ∈ m.types)
    (hn : (t.fields.map Field.id ++ t.instances.map Instance.id).Nodup) :
    t.StaticsOf (Resolve.statics t.instances) t.marked ∧
      ∀ find? out, Resolve.typeDef find? t = .ok out →
        out.statics = Resolve.statics t.instances ∧
          List.Forall₂ (fun i j => j.id = i.id ∧ j.value = i.value ∧ j.guard = i.guard ∧
            (j.isStatic = true ↔ i ∈ t.marked)) t.instances out.instances := by
  refine ⟨t.statics_ofType hn, ?_⟩
  intro find? out hout
  have hr := Resolve.typeDef_ok find? t out hout
  refine ⟨hr.statics, ?_⟩
  have hfresh := Model.build_fresh o s m hm t ht
  have hmarks : ∀ i ∈ t.instances, ∀ j, Resolve.instanceDeps out i = .ok j →
      j.id = i.id ∧ j.value = i.value ∧ j.guard = i.guard ∧
        (j.isStatic = true ↔ i ∈ t.marked) := by
    intro i hi j hij
    obtain ⟨hid, hv, hg, hst, -⟩ := Resolve.instanceDeps_ok out i j hij
    refine ⟨hid, hv, hg, ?_⟩
    rw [hst, hr.statics, hfresh i hi]
    simp [TypeDef.marked, hi]
  have hboth := (List.forall₂_and_left t.instances out.instances).mpr ⟨fun i hi => hi, hr.instances⟩
  exact hboth.imp fun i j h => hmarks i h.1 j h.2

/-- An instance before the one it mentions, two that mention each other, and two that need the
object around them. -/
def constants : SchemaSet :=
  ⟨⟨"constants.ksy", .mk
    { head := { Meta.empty with id := "constants" }
      seq := [{ id := "n", size := .int 1 }]
      instances := [("double", { value := .str "width * 2" }), ("width", { value := .int 4 }),
        ("here", { value := .str "there" }), ("there", { value := .str "here" }),
        ("total", { value := .str "n + double" }), ("top", { value := .str "_root.n" })] } []⟩, []⟩

theorem Model.build_statics_constants :
    ∃ m t, Model.build {} constants = .ok m ∧ m.types = [t] ∧
      t.instances.map Instance.id = ["double", "width", "here", "there", "total", "top"] ∧
      t.StaticsOf ["width", "double"] t.marked := by
  obtain ⟨m, hm, hview⟩ := exists_ok_of_toOption_map (Model.build {} constants)
    (fun m => m.types.map fun t => (t.fields.map Field.id, t.instances.map Instance.id,
      Resolve.statics t.instances))
    [(["n"], ["double", "width", "here", "there", "total", "top"], ["width", "double"])]
    (by decide +kernel)
  obtain ⟨t, ht, hview⟩ := List.map_eq_singleton_iff.mp hview
  obtain ⟨hf, hview⟩ := Prod.mk.inj hview
  obtain ⟨hi, hs⟩ := Prod.mk.inj hview
  refine ⟨m, t, hm, ht, hi, ?_⟩
  rw [← hs]
  exact (Model.build_statics {} constants m hm t (by simp [ht]) (by rw [hf, hi]; decide)).1

end FormatFuzz
