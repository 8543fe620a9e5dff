import FormatFuzz.Graph
import Mathlib.Data.List.Nodup
import Mathlib.Logic.Relation

/-!
# Graphs that edits make

Graphs grow from the empty one by edits, and an edit that names an unknown node changes nothing.
A graph that edits can reach holds each node once and each edge once, and depends on its own nodes
only.
-/

set_option autoImplicit false

namespace FormatFuzz.Graph

inductive Edit where
  | node (id : String)
  | dependency (id on : String)
  deriving DecidableEq, Repr

def edit (g : Graph) : Edit → Graph
  | .node id => g.addNode id
  | .dependency id on =>
    match g.addDependency id on with
    | .ok h => h
    | .error _ => g

def edited (edits : List Edit) : Graph := edits.foldl edit empty

def DependsOn (g : Graph) (id on : String) : Prop := on ∈ g.deps id

def Acyclic (g : Graph) : Prop := ∀ id, ¬ Relation.TransGen g.DependsOn id id

structure WellFormed (g : Graph) : Prop where
  nodup : g.nodes.Nodup
  closed : ∀ v ∈ g.vertices, ∀ d ∈ v.deps, d ∈ g.nodes
  once : ∀ v ∈ g.vertices, v.deps.Nodup

theorem deps_vertex (g : Graph) (hn : g.nodes.Nodup) (v : Vertex) (hv : v ∈ g.vertices) :
    g.deps v.id = v.deps := by
  obtain ⟨vs⟩ := g
  change (vs.map Vertex.id).Nodup at hn
  change v ∈ vs at hv
  change ((vs.find? fun w => w.id == v.id).map Vertex.deps).getD [] = v.deps
  induction vs with
  | nil => simp at hv
  | cons w ws ih =>
    obtain ⟨hw, hws⟩ := List.nodup_cons.mp hn
    by_cases h : w.id = v.id
    · have : v = w := by
        rcases List.mem_cons.mp hv with rfl | hm
        · rfl
        · exact absurd (h ▸ List.mem_map_of_mem hm) hw
      simp [this]
    · have hm : v ∈ ws := by
        rcases List.mem_cons.mp hv with rfl | hm
        · exact absurd rfl h
        · exact hm
      rw [List.find?_cons_of_neg (by simpa using h)]
      exact ih hws hm

theorem mem_nodes_of_dependsOn (g : Graph) (id on : String) (h : g.DependsOn id on) :
    id ∈ g.nodes := by
  unfold DependsOn deps at h
  cases hf : g.vertices.find? fun v => v.id == id with
  | none => simp [hf] at h
  | some v =>
    have hv := List.mem_of_find?_eq_some hf
    have he : v.id = id := by simpa using List.find?_some hf
    exact he ▸ List.mem_map_of_mem hv

theorem nodes_addNode (g : Graph) (id : String) :
    (g.addNode id).nodes = if id ∈ g.nodes then g.nodes else g.nodes ++ [id] := by
  unfold addNode
  split
  · rfl
  · simp [nodes]

theorem depend_id (v : Vertex) (id on : String) : (v.depend id on).id = v.id := by
  unfold Vertex.depend
  split <;> rfl

theorem mem_depend_deps (v : Vertex) (id on d : String) :
    d ∈ (v.depend id on).deps ↔ d ∈ v.deps ∨ (v.id = id ∧ d = on) := by
  unfold Vertex.depend
  by_cases hi : v.id = id
  · by_cases ho : on ∈ v.deps
    · have : d = on → d ∈ v.deps := fun h => h ▸ ho
      simpa [hi, ho] using this
    · simp [hi, ho]
  · simp [hi]

theorem addDependency_ok (g h : Graph) (id on : String) :
    g.addDependency id on = .ok h ↔
      id ∈ g.nodes ∧ on ∈ g.nodes ∧ h = ⟨g.vertices.map (·.depend id on)⟩ := by
  unfold addDependency
  by_cases hi : id ∈ g.nodes
  · by_cases ho : on ∈ g.nodes
    · simp [hi, ho, eq_comm]
    · simp [hi, ho]
  · simp [hi]

theorem nodes_addDependency (g h : Graph) (id on : String) (hg : g.addDependency id on = .ok h) :
    h.nodes = g.nodes := by
  obtain ⟨-, -, rfl⟩ := (addDependency_ok g h id on).mp hg
  simp [nodes, Function.comp_def, depend_id]

theorem wellFormed_empty : WellFormed empty :=
  ⟨List.nodup_nil, by simp [empty], by simp [empty]⟩

theorem wellFormed_addNode (g : Graph) (id : String) (hg : WellFormed g) :
    WellFormed (g.addNode id) := by
  have hn := nodes_addNode g id
  by_cases h : id ∈ g.nodes
  · simpa [addNode, h] using hg
  · rw [if_neg h] at hn
    have hvertices : ∀ v ∈ (g.addNode id).vertices, v ∈ g.vertices ∨ v.deps = [] := by
      intro v hv
      rw [addNode, if_neg h] at hv
      rcases List.mem_append.mp hv with hv | hv
      · exact Or.inl hv
      · exact Or.inr (by rw [List.mem_singleton.mp hv])
    constructor
    · rw [hn]
      exact List.concat_eq_append ▸ hg.nodup.concat h
    · intro v hv d hd
      rcases hvertices v hv with hv | hnone
      · rw [hn]
        exact List.mem_append_left _ (hg.closed v hv d hd)
      · simp [hnone] at hd
    · intro v hv
      rcases hvertices v hv with hv | hnone
      · exact hg.once v hv
      · simp [hnone]

theorem nodup_depend_deps (v : Vertex) (id on : String) (h : v.deps.Nodup) :
    (v.depend id on).deps.Nodup := by
  unfold Vertex.depend
  split
  next hnew =>
    have hon : on ∉ v.deps := by
      rw [Bool.and_eq_true] at hnew
      simpa using hnew.2
    exact List.concat_eq_append ▸ h.concat hon
  next => exact h

theorem wellFormed_addDependency (g h : Graph) (id on : String) (hg : WellFormed g)
    (he : g.addDependency id on = .ok h) : WellFormed h := by
  have hn := nodes_addDependency g h id on he
  obtain ⟨-, ho, rfl⟩ := (addDependency_ok g h id on).mp he
  refine ⟨hn ▸ hg.nodup, ?_, ?_⟩
  · intro v hv d hd
    rw [hn]
    obtain ⟨w, hw, rfl⟩ := List.mem_map.mp hv
    rcases (mem_depend_deps w id on d).mp hd with hd | ⟨-, rfl⟩
    · exact hg.closed w hw d hd
    · exact ho
  · intro v hv
    obtain ⟨w, hw, rfl⟩ := List.mem_map.mp hv
    exact nodup_depend_deps w id on (hg.once w hw)

theorem dependsOn_iff (g : Graph) (hn : g.nodes.Nodup) (id on : String) :
    g.DependsOn id on ↔ ∃ v ∈ g.vertices, v.id = id ∧ on ∈ v.deps := by
  constructor
  · intro h
    obtain ⟨v, hv, rfl⟩ := List.mem_map.mp (mem_nodes_of_dependsOn g id on h)
    exact ⟨v, hv, rfl, by simpa [DependsOn, deps_vertex g hn v hv] using h⟩
  · rintro ⟨v, hv, rfl, h⟩
    simpa [DependsOn, deps_vertex g hn v hv] using h

theorem dependsOn_node (g : Graph) (hg : WellFormed g) (id on : String) (h : g.DependsOn id on) :
    on ∈ g.nodes := by
  obtain ⟨v, hv, -, hd⟩ := (dependsOn_iff g hg.nodup id on).mp h
  exact hg.closed v hv on hd

theorem dependsOn_addDependency (g h : Graph) (hg : g.nodes.Nodup) (id on : String)
    (he : g.addDependency id on = .ok h) (x y : String) :
    h.DependsOn x y ↔ g.DependsOn x y ∨ (x = id ∧ y = on) := by
  have hn := nodes_addDependency g h id on he
  rw [dependsOn_iff h (hn ▸ hg), dependsOn_iff g hg]
  obtain ⟨hi, -, rfl⟩ := (addDependency_ok g h id on).mp he
  simp only [List.mem_map, exists_exists_and_eq_and, depend_id, mem_depend_deps]
  constructor
  · rintro ⟨v, hv, rfl, hy | ⟨rfl, rfl⟩⟩
    · exact Or.inl ⟨v, hv, rfl, hy⟩
    · exact Or.inr ⟨rfl, rfl⟩
  · rintro (⟨v, hv, rfl, hy⟩ | ⟨rfl, rfl⟩)
    · exact ⟨v, hv, rfl, Or.inl hy⟩
    · obtain ⟨v, hv, rfl⟩ := List.mem_map.mp hi
      exact ⟨v, hv, rfl, Or.inr ⟨rfl, rfl⟩⟩

theorem addNodes (ids : List String) (g : Graph) (hg : WellFormed g)
    (hn : (g.nodes ++ ids).Nodup) :
    WellFormed (ids.foldl addNode g) ∧ (ids.foldl addNode g).nodes = g.nodes ++ ids := by
  induction ids generalizing g with
  | nil => simpa using hg
  | cons id ids ih =>
    have hi : id ∉ g.nodes := fun h => List.disjoint_of_nodup_append hn h (by simp)
    have he : (g.addNode id).nodes = g.nodes ++ [id] := by rw [nodes_addNode, if_neg hi]
    have := ih (g.addNode id) (wellFormed_addNode g id hg) (by simpa [he] using hn)
    simpa [he] using this

theorem wellFormed_edit (g : Graph) (e : Edit) (hg : WellFormed g) : WellFormed (g.edit e) := by
  cases e with
  | node id => exact wellFormed_addNode g id hg
  | dependency id on =>
    rw [edit]
    split
    next k h => exact wellFormed_addDependency g k id on hg h
    next => exact hg

theorem wellFormed_edited (edits : List Edit) : WellFormed (edited edits) := by
  have run : ∀ (es : List Edit) (g : Graph), WellFormed g → WellFormed (es.foldl edit g) := by
    intro es
    induction es with
    | nil => exact fun g hg => hg
    | cons e es ih => exact fun g hg => ih _ (wellFormed_edit g e hg)
  exact run edits empty wellFormed_empty

end FormatFuzz.Graph
