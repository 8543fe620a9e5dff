import FormatFuzz.Proofs.Graph.Linearization

/-!
# Circles

When no linear order exists, the nodes that could not be listed are told. They are exactly those
that depend, directly or through others, on a node of a circle: such a node never becomes ready, and
a node that never becomes ready waits for another one like it, so that following what waits must
lead into a circle.
-/

set_option autoImplicit false

namespace FormatFuzz.Graph

/-- Does a node depend on itself, directly or through others? -/
def OnCircle (g : Graph) (id : String) : Prop := Relation.TransGen g.DependsOn id id

/-- Does some path of dependencies lead from a node to a circle? The path may be empty. -/
def ReachesCircle (g : Graph) (id : String) : Prop :=
  ∃ c, Relation.ReflTransGen g.DependsOn id c ∧ g.OnCircle c

theorem node_of_reachesCircle (g : Graph) (id : String) (h : g.ReachesCircle id) :
    id ∈ g.nodes := by
  obtain ⟨c, hpath, hc⟩ := h
  obtain ⟨d, hd, -⟩ := Relation.TransGen.head'_iff.mp (Relation.TransGen.trans_right hpath hc)
  exact mem_nodes_of_dependsOn g id d hd

theorem not_reachesCircle_of_ordered (g : Graph) (ids : List String) (hn : ids.Nodup)
    (ho : g.Ordered ids) (id : String) (hi : id ∈ ids) : ¬ g.ReachesCircle id := by
  rintro ⟨c, hpath, hc⟩
  have hmem : c ∈ ids := by
    rcases Relation.reflTransGen_iff_eq_or_transGen.mp hpath with rfl | h
    · exact hi
    · exact (idxOf_lt_of_transGen g ids hn ho id c hi h).1
  exact Nat.lt_irrefl _ (idxOf_lt_of_transGen g ids hn ho c c hmem hc).2

theorem reachesCircle_of_stuck (g : Graph) (ids : List String)
    (hs : ∀ id ∈ ids, ∃ d ∈ ids, g.DependsOn id d) (id : String) (hi : id ∈ ids) :
    g.ReachesCircle id := by
  classical
  let reached := ids.filter fun d => Relation.ReflTransGen g.DependsOn id d
  have hmem : ∀ d, d ∈ reached ↔ d ∈ ids ∧ Relation.ReflTransGen g.DependsOn id d := by
    simp [reached]
  -- what is reached among them is again such a collection
  have hreached : ∀ d ∈ reached, ∃ e ∈ reached, g.DependsOn d e := by
    intro d hd
    obtain ⟨hids, hpath⟩ := (hmem d).mp hd
    obtain ⟨e, he, hde⟩ := hs d hids
    exact ⟨e, (hmem e).mpr ⟨he, hpath.tail hde⟩, hde⟩
  have hne : reached ≠ [] := List.ne_nil_of_mem ((hmem id).mpr ⟨hi, .refl⟩)
  obtain ⟨c, hc, hcircle⟩ := exists_circle g.DependsOn reached hne hreached
  exact ⟨c, ((hmem c).mp hc).2, hcircle⟩

/-- When `linearize` fails it tells the nodes from which a path of dependencies leads to a circle,
all of them and no others, each once and in the order of insertion. What it does not tell depends
only on nodes that lie on no circle. -/
theorem linearize_cycle (edits : List Edit) (e : Error) (h : (edited edits).linearize = .error e) :
    ∃ rest, e = .cycle rest ∧ rest ≠ [] ∧ rest.Sublist (edited edits).nodes ∧ rest.Nodup ∧
      (∀ id, id ∈ rest ↔ (edited edits).ReachesCircle id) ∧
      ∀ id ∈ (edited edits).nodes, id ∉ rest →
        ∀ d, Relation.ReflTransGen (edited edits).DependsOn id d → ¬ (edited edits).OnCircle d := by
  have hg := wellFormed_edited edits
  obtain ⟨listed, rest, he, hne, hsub, hperm, ho, hs⟩ := linearize_stuck _ hg e h
  have hn : (listed ++ rest).Nodup := hperm.nodup_iff.mpr hg.nodup
  have hlisted : ∀ id ∈ listed, ¬ (edited edits).ReachesCircle id :=
    not_reachesCircle_of_ordered _ listed (List.Nodup.of_append_left hn) ho
  have hrest : ∀ id ∈ (edited edits).nodes, id ∉ rest → ¬ (edited edits).ReachesCircle id := by
    intro id hid hni
    exact hlisted id ((List.mem_append.mp (hperm.mem_iff.mpr hid)).resolve_right hni)
  refine ⟨rest, he, hne, hsub, hsub.nodup hg.nodup, fun id => ⟨?_, fun hr => ?_⟩, ?_⟩
  · exact reachesCircle_of_stuck _ rest hs id
  · by_contra hni
    exact hrest id (node_of_reachesCircle _ id hr) hni hr
  · intro id hid hni d hpath hd
    exact hrest id hid hni ⟨d, hpath, hd⟩

theorem linearize_cycle_crc :
    let edits : List Edit := [.node "magic", .node "len", .node "crc", .node "data",
      .dependency "len" "data", .dependency "data" "len", .dependency "crc" "data",
      .dependency "crc" "magic"]
    (edited edits).linearize = .error (.cycle ["len", "crc", "data"]) ∧
      (edited edits).ReachesCircle "crc" ∧ ¬ (edited edits).ReachesCircle "magic" := by
  intro edits
  have h : (edited edits).linearize = .error (.cycle ["len", "crc", "data"]) := by decide
  obtain ⟨rest, he, -, -, -, hr, -⟩ := linearize_cycle edits _ h
  obtain rfl : ["len", "crc", "data"] = rest := Error.cycle.inj he
  exact ⟨h, (hr "crc").mp (by decide), fun hm => absurd ((hr "magic").mpr hm) (by decide)⟩

end FormatFuzz.Graph
