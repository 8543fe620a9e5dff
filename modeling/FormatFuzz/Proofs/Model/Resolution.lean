import FormatFuzz.Proofs.Fallible
import FormatFuzz.Proofs.Graph.Linearization
import FormatFuzz.Proofs.Model.Place

/-!
# What resolving a type establishes

One statement for each step of resolution: the ids of the members are distinct, static instances
are instances, a field's dependencies meet all that its expressions and the types it holds ask for,
the graph of the members has every dependency as an edge, and the order is what the graph allows.
-/

set_option autoImplicit false

namespace FormatFuzz.Resolve

theorem memberIds_ok (t : TypeDef) (ids : List String) (h : memberIds t = .ok ids) :
    ids = t.fields.map Field.id ++ t.instances.map Instance.id ∧ ids.Nodup := by
  refine foldlM_run _ (fun done ids => ids = done ∧ ids.Nodup) ?_ _ [] ids
    ⟨rfl, List.nodup_nil⟩ h
  rintro done ids id out ⟨rfl, hn⟩ hs
  by_cases hi : id ∈ ids
  · simp [hi] at hs
  · rw [if_neg hi] at hs
    obtain rfl := Except.ok.inj hs
    refine ⟨rfl, List.nodup_append.mpr ⟨hn, by simp, ?_⟩⟩
    intro a ha b hb e
    rw [List.mem_singleton.mp hb] at e
    exact hi (e ▸ ha)

theorem staticPass_instances (is : List Instance) (s : List String) (id : String)
    (h : id ∈ staticPass is s) : id ∈ s ∨ ∃ i ∈ is, i.id = id := by
  unfold staticPass at h
  induction is generalizing s with
  | nil => exact Or.inl h
  | cons i is ih =>
    rw [List.foldl_cons] at h
    rcases ih _ h with h | ⟨j, hj, rfl⟩
    · split at h
      next =>
        rcases List.mem_append.mp h with h | h
        · exact Or.inl h
        · exact Or.inr ⟨i, by simp, (List.mem_singleton.mp h).symm⟩
      next => exact Or.inl h
    · exact Or.inr ⟨j, List.mem_cons_of_mem i hj, rfl⟩

theorem staticPasses_instances (is : List Instance) (n : Nat) (s : List String) (id : String)
    (h : id ∈ staticPasses is n s) : id ∈ s ∨ ∃ i ∈ is, i.id = id := by
  induction n generalizing s with
  | zero => exact Or.inl h
  | succ n ih =>
    rcases ih _ h with h | h
    · exact staticPass_instances is s id h
    · exact Or.inr h

theorem statics_instances (is : List Instance) (id : String) (h : id ∈ statics is) :
    ∃ i ∈ is, i.id = id := by
  rcases staticPasses_instances is is.length [] id h with h | h
  · simp at h
  · exact h

/-- A name under a key is static, waited for, or the field itself in its own ending condition. -/
def Met (statics deps : List String) (self key name : String) : Prop :=
  name ∈ statics ∨ name ∈ deps ∨ (name = self ∧ key = "repeat-until")

theorem met_mono (statics deps more : List String) (self key name : String)
    (hm : ∀ d ∈ deps, d ∈ more) (h : Met statics deps self key name) :
    Met statics more self key name := by
  rcases h with h | h | h
  · exact Or.inl h
  · exact Or.inr (Or.inl (hm name h))
  · exact Or.inr (Or.inr h)

theorem addDep_ok (t : TypeDef) (f : Field) (deps out : List String) (key name : String)
    (h : addDep t f deps key name = .ok out) :
    (∀ d ∈ deps, d ∈ out) ∧ Met t.statics out f.id key name := by
  unfold addDep at h
  split at h
  next => simp at h
  next =>
    split at h
    next hs =>
      obtain rfl := Except.ok.inj h
      rw [Bool.or_eq_true, List.contains_iff_mem, List.contains_iff_mem] at hs
      exact ⟨fun _ hd => hd, hs.elim Or.inl (fun hd => Or.inr (Or.inl hd))⟩
    next =>
      split at h
      next hu =>
        obtain rfl := Except.ok.inj h
        exact ⟨fun _ hd => hd, Or.inr (Or.inr (by simpa using hu))⟩
      next =>
        obtain rfl := Except.ok.inj h
        exact ⟨fun _ hd => List.mem_append_left _ hd, Or.inr (Or.inl (by simp))⟩

/-- All names a field asks for, each under its key: those of its own expressions, and those that
the types it can hold read through their parent. -/
def demands (find? : TypePath → Option TypeDef) (t : TypeDef) (f : Field) :
    List (String × String) :=
  let keys := keyedExprs f ++ (sizeExpr? f).toList.map fun e => ("size", e)
  let read := (f.type.users.filterMap find?).flatMap parentRefs
  (keys.flatMap fun k => k.2.refs.map fun r => (k.1, r))
    ++ (read.filter fun r => t.refs.contains r && r != f.id).map fun r => ("type", r)

theorem fieldDeps_ok (find? : TypePath → Option TypeDef) (t : TypeDef) (f : Field)
    (deps : List String) (h : fieldDeps find? t f = .ok deps) :
    ∀ k ∈ demands find? t f, Met t.statics deps f.id k.1 k.2 := by
  refine foldlM_run (fun deps (k : String × String) => addDep t f deps k.1 k.2)
    (fun done deps => ∀ k ∈ done, Met t.statics deps f.id k.1 k.2) ?_ _ [] deps (by simp) h
  intro done deps k out hd hs j hj
  obtain ⟨hm, hk⟩ := addDep_ok t f deps out k.1 k.2 hs
  rcases List.mem_append.mp hj with hj | hj
  · exact met_mono _ deps out _ _ _ hm (hd j hj)
  · exact (List.mem_singleton.mp hj) ▸ hk

theorem own_demanded (find? : TypePath → Option TypeDef) (t : TypeDef) (f : Field) (k : Place)
    (e : Expr) (h : f.Holds k e) (r : String) (hr : r ∈ e.refs) :
    (k.key, r) ∈ demands find? t f := by
  apply List.mem_append_left
  exact List.mem_flatMap.mpr ⟨_, holds_keyed f k e h, List.mem_map_of_mem hr⟩

theorem parent_demanded (find? : TypePath → Option TypeDef) (t : TypeDef) (f : Field)
    (p : TypePath) (hp : p ∈ f.type.users) (u : TypeDef) (hu : find? p = some u) (x : String)
    (hx : x ∈ parentRefs u) (ht : x ∈ t.refs) (hf : x ≠ f.id) :
    ("type", x) ∈ demands find? t f := by
  apply List.mem_append_right
  apply List.mem_map_of_mem
  refine List.mem_filter.mpr ⟨List.mem_flatMap.mpr ⟨u, ?_, hx⟩, by simp [ht, hf]⟩
  exact List.mem_filterMap.mpr ⟨p, hp, hu⟩

theorem freeSize_cases (t : TypeDef) (f : Field) :
    freeSize t f = f ∨
      ∃ s, f.size = some s ∧ freeSize t f = { f with size := some { s with expr := none } } := by
  unfold freeSize
  split
  next s hs =>
    split
    next e he =>
      split
      next => exact Or.inr ⟨s, hs, rfl⟩
      next => exact Or.inl rfl
    next => exact Or.inl rfl
  next => exact Or.inl rfl

theorem freeSize_id (t : TypeDef) (f : Field) : (freeSize t f).id = f.id := by
  rcases freeSize_cases t f with h | ⟨s, -, h⟩ <;> rw [h]

theorem freeSize_scanned (t : TypeDef) (f : Field) (e : Expr)
    (h : e ∈ parentExprs (freeSize t f)) : e ∈ parentExprs f := by
  rcases freeSize_cases t f with hf | ⟨s, hs, hf⟩
  · rwa [hf] at h
  · rw [hf] at h
    simp only [parentExprs, sizeExpr?, List.mem_append] at h ⊢
    simp only [Option.bind_some, Option.toList_none, List.not_mem_nil, or_false] at h
    tauto

theorem holds_of_deps (f : Field) (deps : List String) (k : Place) (e : Expr)
    (h : Field.Holds { f with deps := deps } k e) : f.Holds k e := by
  cases h with
  | guard h => exact .guard h
  | fixed h => exact .fixed h
  | measure h => exact .measure h
  | input h => exact .input h
  | count h hr => exact .count h hr
  | «until» h hr => exact .until h hr
  | processKey h => exact .processKey h
  | choice h => exact .choice h
  | switchOn h => exact .switchOn h
  | caseMatch h hc => exact .caseMatch h hc
  | size h hs => exact .size h hs

/-- `now` stands for the resolved type `out` while its fields are gone through: it has the same
members and reads at least as much through its parent. -/
structure Stage (out now : TypeDef) : Prop where
  refs : now.refs = out.refs
  statics : now.statics = out.statics
  path : now.path = out.path
  reads : ∀ x ∈ parentRefs out, x ∈ parentRefs now

/-- `g` is the field `f` with its dependencies, found while its type stood as `now`; its size may
have become free. -/
def Settled (find? : TypeDef → TypePath → Option TypeDef) (now : TypeDef) (f g : Field) : Prop :=
  ∃ base, fieldDeps (find? now) now (freeSize base f) = .ok g.deps ∧
    g = { freeSize base f with deps := g.deps }

theorem settled_id (find? : TypeDef → TypePath → Option TypeDef) (now : TypeDef) (f g : Field)
    (h : Settled find? now f g) : g.id = f.id := by
  obtain ⟨base, -, hg⟩ := h
  rw [hg]
  exact freeSize_id base f

theorem settled_scanned (find? : TypeDef → TypePath → Option TypeDef) (now : TypeDef)
    (f g : Field) (h : Settled find? now f g) (e : Expr) (he : e ∈ parentExprs g) :
    e ∈ parentExprs f := by
  obtain ⟨base, -, hg⟩ := h
  rw [hg] at he
  exact freeSize_scanned base f e he

theorem settled_own (find? : TypeDef → TypePath → Option TypeDef) (now : TypeDef) (f g : Field)
    (h : Settled find? now f g) (k : Place) (e : Expr) (hk : g.Holds k e) (r : String)
    (hr : r ∈ e.refs) : r ∈ now.statics ∨ r ∈ g.deps ∨ (r = g.id ∧ k = .until) := by
  have hid := settled_id find? now f g h
  obtain ⟨base, hd, hg⟩ := h
  rw [hg] at hk
  have hm := fieldDeps_ok _ _ _ _ hd _
    (own_demanded (find? now) now _ k e (holds_of_deps _ _ k e hk) r hr)
  rw [freeSize_id, ← hid] at hm
  rcases hm with h | h | ⟨h, hu⟩
  · exact Or.inl h
  · exact Or.inr (Or.inl h)
  · exact Or.inr (Or.inr ⟨h, key_until k hu⟩)

theorem settled_parent (find? : TypeDef → TypePath → Option TypeDef) (now : TypeDef)
    (f g : Field) (h : Settled find? now f g) (p : TypePath) (hp : g.type.Reaches p)
    (u : TypeDef) (hu : find? now p = some u) (x : String) (hx : x ∈ parentRefs u)
    (ht : x ∈ now.refs) (hg : x ≠ g.id) : x ∈ now.statics ∨ x ∈ g.deps := by
  have hid := settled_id find? now f g h
  obtain ⟨base, hd, he⟩ := h
  have hp' : p ∈ (freeSize base f).type.users := by
    rw [he] at hp
    exact (TypeRef.reaches_iff _ p).mp hp
  have hm := fieldDeps_ok _ _ _ _ hd _
    (parent_demanded (find? now) now _ p hp' u hu x hx ht (by rw [freeSize_id, ← hid]; exact hg))
  rcases hm with h | h | ⟨-, hu⟩
  · exact Or.inl h
  · exact Or.inr h
  · simp at hu

theorem fields_ok (find? : TypeDef → TypePath → Option TypeDef) (t : TypeDef)
    (done rest fs : List Field) (h : fields find? t done rest = .ok fs) :
    ∃ gs, fs = done ++ gs ∧ List.Forall₂ (fun f g => ∃ now : TypeDef,
      (now = { t with fields := now.fields } ∧
        ∀ e ∈ fs.flatMap parentExprs, e ∈ now.fields.flatMap parentExprs) ∧
      Settled find? now f g) rest gs := by
  induction rest generalizing done with
  | nil =>
    obtain rfl := Except.ok.inj h
    exact ⟨[], by simp, .nil⟩
  | cons f rest ih =>
    obtain ⟨deps, hd, h⟩ := (bind_eq_ok _ _ _).mp h
    obtain ⟨gs, rfl, hf⟩ := ih _ h
    refine ⟨{ freeSize t f with deps := deps } :: gs, by simp, .cons ?_ hf⟩
    refine ⟨{ t with fields := done ++ freeSize t f :: rest }, ⟨rfl, ?_⟩, t, hd, rfl⟩
    -- the fields still to come read no more once they are settled
    have later : ∀ e ∈ gs.flatMap parentExprs, e ∈ rest.flatMap parentExprs := by
      intro e he
      obtain ⟨g, hg, he⟩ := List.mem_flatMap.mp he
      obtain ⟨f', hf', now, -, hs⟩ := forall₂_mem_right _ _ _ hf g hg
      exact List.mem_flatMap.mpr ⟨f', hf', settled_scanned find? now f' g hs e he⟩
    intro e he
    simp only [List.flatMap_append, List.flatMap_cons, List.flatMap_nil, List.append_nil,
      List.mem_append] at he ⊢
    rcases he with (he | he) | he
    · exact Or.inl he
    · exact Or.inr (Or.inl he)
    · exact Or.inr (Or.inr (later e he))

theorem instanceDeps_ok (t : TypeDef) (i j : Instance) (h : instanceDeps t i = .ok j) :
    j.id = i.id ∧ j.value = i.value ∧ j.guard = i.guard ∧
      j.isStatic = (t.statics.contains i.id || i.isStatic) ∧
      (i.id ∉ t.statics → ∀ r ∈ instanceRefs i, r ∈ t.statics ∨ r ∈ j.deps) := by
  unfold instanceDeps at h
  by_cases hs : i.id ∈ t.statics
  · rw [if_pos (by simpa using hs)] at h
    obtain rfl := Except.ok.inj h
    simp [hs]
  · rw [if_neg (by simpa using hs)] at h
    dsimp only at h
    split at h
    next => cases h
    next =>
      obtain rfl := (pure_eq_ok _ _).mp h
      refine ⟨rfl, rfl, rfl, by simp [hs], fun _ r hr => ?_⟩
      by_cases hm : r ∈ t.statics
      · exact Or.inl hm
      · exact Or.inr (List.mem_filter.mpr ⟨hr, by simpa using hm⟩)

def Needs (t : TypeDef) (id d : String) : Prop :=
  (∃ f ∈ t.fields, f.id = id ∧ d ∈ f.deps) ∨ ∃ i ∈ t.instances, i.id = id ∧ d ∈ i.deps

theorem graph_ok (t : TypeDef) (g : Graph) (hn : t.refs.Nodup) (h : graph t = .ok g) :
    g.WellFormed ∧ g.nodes = t.refs ∧ ∀ id d, Needs t id d → g.DependsOn id d := by
  have hstart := Graph.addNodes t.refs Graph.empty Graph.wellFormed_empty hn
  have hrun := foldlM_run (fun (g : Graph) (e : String × String) => g.addDependency e.1 e.2)
    (fun done g => g.WellFormed ∧ g.nodes = t.refs ∧ ∀ e ∈ done, g.DependsOn e.1 e.2)
    (by
      rintro done g e k ⟨hw, hr, hd⟩ hs
      have hk := Graph.dependsOn_addDependency g k hw.nodup e.1 e.2 hs
      refine ⟨Graph.wellFormed_addDependency g k e.1 e.2 hw hs,
        (Graph.nodes_addDependency g k e.1 e.2 hs).trans hr, ?_⟩
      intro x hx
      rw [hk]
      rcases List.mem_append.mp hx with hx | hx
      · exact Or.inl (hd x hx)
      · rw [List.mem_singleton.mp hx]
        exact Or.inr ⟨rfl, rfl⟩)
    _ _ g ⟨hstart.1, hstart.2, by simp⟩ h
  refine ⟨hrun.1, hrun.2.1, ?_⟩
  rintro id d (⟨f, hf, rfl, hd⟩ | ⟨i, hi, rfl, hd⟩)
  · exact hrun.2.2 (f.id, d) (List.mem_append_left _
      (List.mem_flatMap.mpr ⟨f, hf, List.mem_map_of_mem hd⟩))
  · exact hrun.2.2 (i.id, d) (List.mem_append_right _
      (List.mem_flatMap.mpr ⟨i, hi, List.mem_map_of_mem hd⟩))

theorem order_ok (t : TypeDef) (ids : List String) (hn : t.refs.Nodup) (h : order t = .ok ids) :
    ids.Nodup ∧ (∀ id, id ∈ ids ↔ id ∈ t.refs ∧ id ∉ t.statics) ∧
      ∀ before id after, ids = before ++ id :: after →
        ∀ d, Needs t id d → d ∈ t.statics ∨ d ∈ before := by
  unfold order at h
  split at h
  next listed hl =>
    obtain rfl := Except.ok.inj h
    obtain ⟨g, hg, hl⟩ := (bind_eq_ok _ _ _).mp hl
    obtain ⟨hw, hr, hd⟩ := graph_ok t g hn hg
    obtain ⟨hp, ho⟩ := Graph.linearize_ok g hw listed hl
    refine ⟨(hp.nodup_iff.mpr hw.nodup).filter _, ?_, ?_⟩
    · intro id
      rw [List.mem_filter, hp.mem_iff, hr]
      simp
    · intro before id after he d hneed
      obtain ⟨l, r, rfl, hb, hr⟩ := List.filter_eq_append_iff.mp he
      obtain ⟨r₁, r₂, rfl, h₁, -, -⟩ := List.filter_eq_cons_iff.mp hr
      by_cases hs : d ∈ t.statics
      · exact Or.inl hs
      · have hm := ho (l ++ r₁) id r₂ (by simp) d (hd id d hneed)
        rcases List.mem_append.mp hm with hm | hm
        · exact Or.inr (hb ▸ List.mem_filter.mpr ⟨hm, by simpa using hs⟩)
        · exact absurd (by simpa using hs) (h₁ d hm)
  next => simp at h

structure Resolved (find? : TypeDef → TypePath → Option TypeDef) (t out : TypeDef) : Prop where
  path : out.path = t.path
  refs : out.refs = t.fields.map Field.id ++ t.instances.map Instance.id
  nodup : out.refs.Nodup
  statics : out.statics = Resolve.statics t.instances
  fields : List.Forall₂ (fun f g => ∃ now, Stage out now ∧ Settled find? now f g)
    t.fields out.fields
  instances : List.Forall₂ (fun i j => instanceDeps out i = .ok j) t.instances out.instances
  order : Resolve.order out = .ok out.order

theorem parentRefs_mono (u v : TypeDef)
    (hf : ∀ e ∈ u.fields.flatMap parentExprs, e ∈ v.fields.flatMap parentExprs)
    (hi : ∀ i ∈ u.instances, ∃ j ∈ v.instances, i.value = j.value ∧ i.guard = j.guard)
    (x : String) (hx : x ∈ parentRefs u) : x ∈ parentRefs v := by
  obtain ⟨e, he, hx⟩ := (mem_parentRefs u x).mp hx
  refine (mem_parentRefs v x).mpr ⟨e, ?_, hx⟩
  rcases List.mem_append.mp he with he | he
  · exact List.mem_append_left _ (hf e he)
  · obtain ⟨i, hm, he⟩ := List.mem_flatMap.mp he
    obtain ⟨j, hj, hv, hg⟩ := hi i hm
    rw [hv, hg] at he
    exact List.mem_append_right _ (List.mem_flatMap.mpr ⟨j, hj, he⟩)

theorem instances_stored (t : TypeDef) (is js : List Instance)
    (h : List.Forall₂ (fun i j => instanceDeps t i = .ok j) is js) :
    ∀ j ∈ js, ∃ i ∈ is, j.value = i.value ∧ j.guard = i.guard := by
  intro j hj
  obtain ⟨i, hi, hij⟩ := forall₂_mem_right _ _ _ h j hj
  obtain ⟨-, hv, hg, -⟩ := instanceDeps_ok t i j hij
  exact ⟨i, hi, hv, hg⟩

theorem typeDef_ok (find? : TypeDef → TypePath → Option TypeDef) (t out : TypeDef)
    (h : typeDef find? t = .ok out) : Resolved find? t out := by
  obtain ⟨refs, hr, h⟩ := (bind_eq_ok _ _ _).mp h
  obtain ⟨fs, hf, h⟩ := (bind_eq_ok _ _ _).mp h
  obtain ⟨is, hi, h⟩ := (bind_eq_ok _ _ _).mp h
  obtain ⟨ids, ho, h⟩ := (bind_eq_ok _ _ _).mp h
  obtain rfl := (pure_eq_ok _ _).mp h
  obtain ⟨hrefs, hn⟩ := memberIds_ok t refs hr
  obtain ⟨gs, rfl, hs⟩ := fields_ok find? _ _ _ _ hf
  have his := mapM_eq_ok _ _ _ hi
  refine ⟨rfl, hrefs, hn, rfl, ?_, his, ho⟩
  refine List.Forall₂.imp ?_ hs
  rintro f g ⟨now, ⟨hnow, hreads⟩, hg⟩
  refine ⟨now, ⟨by rw [hnow], by rw [hnow], by rw [hnow], ?_⟩, hg⟩
  refine parentRefs_mono _ now hreads ?_
  rw [hnow]
  exact instances_stored _ _ _ his

/-- Resolving changes neither the path of a type nor adds to what it reads through its parent. -/
structure Sheds (t out : TypeDef) : Prop where
  path : out.path = t.path
  reads : ∀ x ∈ parentRefs out, x ∈ parentRefs t

theorem sheds_refl (t : TypeDef) : Sheds t t := ⟨rfl, fun _ h => h⟩

theorem resolved_sheds (find? : TypeDef → TypePath → Option TypeDef) (t out : TypeDef)
    (h : Resolved find? t out) : Sheds t out := by
  refine ⟨h.path, parentRefs_mono out t ?_ (instances_stored out _ _ h.instances)⟩
  intro e he
  obtain ⟨g, hg, he⟩ := List.mem_flatMap.mp he
  obtain ⟨f, hf, now, -, hs⟩ := forall₂_mem_right _ _ _ h.fields g hg
  exact List.mem_flatMap.mpr ⟨f, hf, settled_scanned find? now f g hs e he⟩

theorem find?_sheds (ts us : List TypeDef) (h : List.Forall₂ Sheds ts us) (p : TypePath)
    (u : TypeDef) (hu : Model.find? ⟨us⟩ p = some u) :
    ∃ t, Model.find? ⟨ts⟩ p = some t ∧ Sheds t u := by
  induction h with
  | nil => simp [Model.find?] at hu
  | @cons a b as bs hab _ ih =>
    simp only [Model.find?, List.find?_cons] at hu ih ⊢
    rw [hab.path] at hu
    split at hu
    next =>
      obtain rfl := Option.some.inj hu
      exact ⟨a, rfl, hab⟩
    next => exact ih hu

theorem types_ok (done rest out : List TypeDef) (h : types done rest = .ok out) :
    ∃ ts, out = done ++ ts ∧ List.Forall₂ Sheds rest ts ∧
      ∀ before t' after', ts = before ++ t' :: after' →
        ∃ t ∈ rest, ∃ after, List.Forall₂ Sheds after after' ∧
          Resolved (fun now => Model.find? ⟨done ++ before ++ now :: after⟩) t t' := by
  induction rest generalizing done with
  | nil =>
    obtain rfl := Except.ok.inj h
    exact ⟨[], by simp, .nil, by simp⟩
  | cons u rest ih =>
    obtain ⟨u', hu, h⟩ := (bind_eq_ok _ _ _).mp h
    have hres := typeDef_ok _ _ _ hu
    obtain ⟨ts, rfl, hsheds, hts⟩ := ih _ h
    refine ⟨u' :: ts, by simp, .cons (resolved_sheds _ u u' hres) hsheds, ?_⟩
    intro before t' after' he
    cases before with
    | nil =>
      obtain ⟨rfl, rfl⟩ := List.cons.inj he
      exact ⟨u, by simp, rest, hsheds, by simpa using hres⟩
    | cons b before =>
      obtain ⟨rfl, rfl⟩ := List.cons.inj he
      obtain ⟨t, ht, after, hafter, hres⟩ := hts before t' after' rfl
      exact ⟨t, List.mem_cons_of_mem u ht, after, hafter, by simpa using hres⟩

theorem types_each (done rest out : List TypeDef) (h : types done rest = .ok out) :
    ∃ us, out = done ++ us ∧
      List.Forall₂ (fun t u => ∃ find?, typeDef find? t = .ok u) rest us := by
  induction rest generalizing done with
  | nil =>
    obtain rfl := Except.ok.inj h
    exact ⟨[], by simp, .nil⟩
  | cons t rest ih =>
    obtain ⟨u, hu, h⟩ := (bind_eq_ok _ _ _).mp h
    obtain ⟨us, rfl, hus⟩ := ih _ h
    exact ⟨u :: us, by simp, .cons ⟨_, hu⟩ hus⟩

theorem typeDef_keeps (find? : TypeDef → TypePath → Option TypeDef) (t u : TypeDef)
    (h : typeDef find? t = .ok u) :
    u.path = t.path ∧ u.enums = t.enums ∧ u.pool = t.pool ∧ u.users = t.users := by
  obtain ⟨_, -, h⟩ := (bind_eq_ok _ _ _).mp h
  obtain ⟨_, -, h⟩ := (bind_eq_ok _ _ _).mp h
  obtain ⟨_, -, h⟩ := (bind_eq_ok _ _ _).mp h
  obtain ⟨_, -, h⟩ := (bind_eq_ok _ _ _).mp h
  obtain rfl := (pure_eq_ok _ _).mp h
  exact ⟨rfl, rfl, rfl, rfl⟩

theorem types_kept (find? : TypeDef → TypePath → Option TypeDef) (t u : TypeDef)
    (h : typeDef find? t = .ok u) : t.fields.map Field.type = u.fields.map Field.type := by
  refine map_eq_of_forall₂ _ _ (typeDef_ok find? t u h).fields ?_
  rintro f g ⟨_, -, base, -, hg⟩
  rw [hg]
  rcases freeSize_cases base f with hf | ⟨s, -, hf⟩ <;> rw [hf]

end FormatFuzz.Resolve
