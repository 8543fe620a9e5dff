import FormatFuzz.Proofs.Graph.Listing
import Mathlib.Data.Fintype.Card
import Mathlib.Data.Fintype.EquivFin
import Mathlib.Data.Fintype.Sets
import Mathlib.Order.WellFounded

/-!
# Linear orders of dependency graphs

When the listing loop has listed all nodes, each stands after everything it depends on. When it
stops early, the nodes with a count left are those that are not listed, and they depend on one
another in a circle.
-/

set_option autoImplicit false

namespace FormatFuzz.Graph

theorem exists_circle {α : Type} (r : α → α → Prop) (xs : List α) (hne : xs ≠ [])
    (hs : ∀ x ∈ xs, ∃ y ∈ xs, r x y) : ∃ x ∈ xs, Relation.TransGen r x x := by
  classical
  by_contra hnone
  push Not at hnone
  let below : {x // x ∈ xs} → {x // x ∈ xs} → Prop := fun x y => Relation.TransGen r y.1 x.1
  have : IsTrans _ below := ⟨fun _ _ _ hxy hyz => hyz.trans hxy⟩
  have : Std.Irrefl below := ⟨fun x => hnone x.1 x.2⟩
  have wf : WellFounded below := Finite.wellFounded_of_trans_of_irrefl below
  obtain ⟨first, hf⟩ := List.exists_mem_of_ne_nil xs hne
  obtain ⟨least, -, hl⟩ := wf.has_min Set.univ ⟨⟨first, hf⟩, trivial⟩
  obtain ⟨y, hy, hr⟩ := hs least.1 least.2
  exact hl ⟨y, hy⟩ trivial (Relation.TransGen.single hr)

theorem not_acyclic_of_stuck (g : Graph) (ids : List String) (hne : ids ≠ [])
    (hs : ∀ id ∈ ids, ∃ d ∈ ids, g.DependsOn id d) : ¬ g.Acyclic := by
  intro ha
  obtain ⟨id, -, hid⟩ := exists_circle g.DependsOn ids hne hs
  exact ha id hid

theorem idxOf_lt_of_ordered (g : Graph) (ids : List String) (hn : ids.Nodup) (ho : g.Ordered ids)
    (id on : String) (hi : id ∈ ids) (hd : g.DependsOn id on) : ids.idxOf on < ids.idxOf id := by
  obtain ⟨before, after, rfl⟩ := List.append_of_mem hi
  have hb : on ∈ before := ho before id after rfl on hd
  have hnot : id ∉ before := by
    intro h
    exact (List.disjoint_of_nodup_append hn) h (by simp)
  rw [List.idxOf_append_of_mem hb, List.idxOf_append_of_notMem hnot]
  have := List.idxOf_lt_length_of_mem hb
  omega

theorem idxOf_lt_of_transGen (g : Graph) (ids : List String) (hn : ids.Nodup) (ho : g.Ordered ids)
    (id on : String) (hi : id ∈ ids) (h : Relation.TransGen g.DependsOn id on) :
    on ∈ ids ∧ ids.idxOf on < ids.idxOf id := by
  have step : ∀ x y, x ∈ ids → g.DependsOn x y → y ∈ ids ∧ ids.idxOf y < ids.idxOf x := by
    intro x y hx hd
    refine ⟨?_, idxOf_lt_of_ordered g ids hn ho x y hx hd⟩
    obtain ⟨before, after, he⟩ := List.append_of_mem hx
    rw [he]
    exact List.mem_append_left _ (ho before x after he y hd)
  induction h with
  | single hd => exact step id _ hi hd
  | @tail y z _ hd ih =>
    obtain ⟨hz, hlt⟩ := step y z ih.1 hd
    exact ⟨hz, Nat.lt_trans hlt ih.2⟩

theorem acyclic_of_ordered (g : Graph) (ids : List String) (hn : ids.Nodup) (ho : g.Ordered ids)
    (hc : ∀ id ∈ g.nodes, id ∈ ids) : g.Acyclic := by
  intro id h
  obtain ⟨d, hd, -⟩ := Relation.TransGen.head'_iff.mp h
  have hi := hc id (mem_nodes_of_dependsOn g id d hd)
  exact Nat.lt_irrefl _ (idxOf_lt_of_transGen g ids hn ho id id hi h).2

theorem linearize_ok (g : Graph) (hg : WellFormed g) (ids : List String)
    (h : g.linearize = .ok ids) : ids.Perm g.nodes ∧ g.Ordered ids := by
  obtain ⟨hp, -⟩ := progress_list g hg
  unfold linearize at h
  simp only at h
  split at h
  next hlength =>
    obtain rfl := Except.ok.inj h
    exact ⟨perm_of_length g _ hp hlength, hp.ordered⟩
  next => cases h

theorem exists_missing (g : Graph) (l : Listing) (hp : Progress g l) (hr : l.ready = [])
    (id : String) (hid : id ∈ g.nodes) (hnew : id ∉ l.order) :
    ∃ d, g.DependsOn id d ∧ d ∉ l.order := by
  by_contra hnone
  push Not at hnone
  obtain ⟨i, hi⟩ := List.mem_iff_getElem?.mp hid
  have := (hp.ready i).mpr ⟨id, hi, hid, hnew, hnone⟩
  simp [hr] at this

theorem counted_eq (g : Graph) (l : Listing) (hp : Progress g l) (hr : l.ready = []) :
    ((g.nodes.zip l.pending).filter fun e => 0 < e.2).map Prod.fst
      = g.nodes.filter (· ∉ l.order) := by
  have hzip : ∀ f : String → Int, g.nodes.zip (g.nodes.map f) = g.nodes.map fun id => (id, f id) :=
    fun f => by simpa using List.zip_map' (f := id) (g := f) (l := g.nodes)
  have hcount : ∀ id ∈ g.nodes, 0 < (g.missing l.order id).length ↔ id ∉ l.order := by
    intro id hid
    rw [List.length_pos_iff_exists_mem]
    constructor
    · rintro ⟨d, hd⟩ hlisted
      obtain ⟨hd, hnew⟩ := (mem_missing g l.order id d).mp hd
      exact hnew (deps_listed g l.order hp.ordered id hlisted d hd)
    · intro hnew
      obtain ⟨d, hd⟩ := exists_missing g l hp hr id hid hnew
      exact ⟨d, (mem_missing g l.order id d).mpr hd⟩
  have hfirst : (Prod.fst ∘ fun id => (id, ((g.missing l.order id).length : Int))) = id := rfl
  rw [hp.pending, hzip, List.filter_map, List.map_map, hfirst, List.map_id]
  apply List.filter_congr
  intro id hid
  have := hcount id hid
  simp only [Function.comp, Int.natCast_pos, decide_eq_decide]
  exact this

/-- A loop that stopped early tells the nodes it did not list: each waits for another of them, and
the others are listed in order. -/
theorem linearize_stuck (g : Graph) (hg : WellFormed g) (e : Error) (h : g.linearize = .error e) :
    ∃ listed rest, e = .cycle rest ∧ rest ≠ [] ∧ rest.Sublist g.nodes ∧
      (listed ++ rest).Perm g.nodes ∧ g.Ordered listed ∧
      ∀ id ∈ rest, ∃ d ∈ rest, g.DependsOn id d := by
  obtain ⟨hp, hr⟩ := progress_list g hg
  unfold linearize at h
  simp only at h
  split at h
  next => cases h
  next hlength =>
    obtain rfl := Except.error.inj h
    generalize g.list g.size g.listing = l at hp hr hlength
    have hperm : (l.order ++ g.nodes.filter (· ∉ l.order)).Perm g.nodes := by
      have hn : (l.order ++ g.nodes.filter (· ∉ l.order)).Nodup := by
        refine List.nodup_append.mpr ⟨hp.nodup, hg.nodup.filter _, ?_⟩
        rintro a ha b hb rfl
        simpa [ha] using (List.mem_filter.mp hb).2
      rw [List.perm_ext_iff_of_nodup hn hg.nodup]
      intro id
      rw [List.mem_append, List.mem_filter, decide_eq_true_iff]
      constructor
      · rintro (hid | hid)
        · exact hp.nodes id hid
        · exact hid.1
      · intro hid
        by_cases hlisted : id ∈ l.order
        · exact Or.inl hlisted
        · exact Or.inr ⟨hid, hlisted⟩
    refine ⟨l.order, _, congrArg Error.cycle (counted_eq g l hp hr), ?_, List.filter_sublist,
      hperm, hp.ordered, ?_⟩
    · intro hnil
      rw [hnil, List.append_nil] at hperm
      exact hlength (by simpa [nodes, size] using hperm.length_eq)
    · -- a node that is not listed misses a dependency, which is a node that is not listed
      intro id hid
      obtain ⟨hn, hnew⟩ := List.mem_filter.mp hid
      obtain ⟨d, hd, hmiss⟩ := exists_missing g l hp hr id hn (by simpa using hnew)
      exact ⟨d, List.mem_filter.mpr ⟨dependsOn_node g hg id d hd, by simpa using hmiss⟩, hd⟩

theorem linearize_error (g : Graph) (hg : WellFormed g) (e : Error)
    (h : g.linearize = .error e) : ¬ g.Acyclic := by
  obtain ⟨-, rest, -, hne, -, -, -, hs⟩ := linearize_stuck g hg e h
  exact not_acyclic_of_stuck g rest hne hs

/-- For every graph that edits can make, `linearize` succeeds exactly when nothing depends on
itself, and what it returns is the nodes, each once and after all that `deps` reports for it. -/
theorem linearize_edited (edits : List Edit) :
    ((∃ ids, (edited edits).linearize = .ok ids) ↔ (edited edits).Acyclic) ∧
      ∀ ids, (edited edits).linearize = .ok ids →
        ids.Perm (edited edits).nodes ∧ ids.Nodup ∧
          ∀ before id after, ids = before ++ id :: after →
            ∀ d ∈ (edited edits).deps id, d ∈ before := by
  have hg := wellFormed_edited edits
  have success : ∀ ids, (edited edits).linearize = .ok ids →
      ids.Perm (edited edits).nodes ∧ ids.Nodup ∧ (edited edits).Ordered ids := by
    intro ids h
    obtain ⟨hp, ho⟩ := linearize_ok _ hg ids h
    exact ⟨hp, hp.nodup_iff.mpr hg.nodup, ho⟩
  refine ⟨⟨?_, ?_⟩, success⟩
  · rintro ⟨ids, h⟩
    obtain ⟨hp, hn, ho⟩ := success ids h
    exact acyclic_of_ordered _ ids hn ho (fun id hid => hp.mem_iff.mpr hid)
  · intro ha
    cases h : (edited edits).linearize with
    | ok ids => exact ⟨ids, rfl⟩
    | error e => exact absurd ha (linearize_error _ hg e h)

theorem linearize_edited_body :
    let edits : List Edit := [.node "body", .node "len", .node "body", .dependency "body" "len",
      .dependency "body" "len", .dependency "len" "crc", .dependency "crc" "len"]
    (edited edits).linearize = .ok ["len", "body"] ∧ (edited edits).Acyclic ∧
      ["len", "body"].Perm (edited edits).nodes ∧ ∀ d ∈ (edited edits).deps "body", d ∈ ["len"] := by
  intro edits
  have h : (edited edits).linearize = .ok ["len", "body"] := by decide
  obtain ⟨hp, -, ho⟩ := (linearize_edited edits).2 _ h
  exact ⟨h, (linearize_edited edits).1.mp ⟨_, h⟩, hp, ho ["len"] "body" [] rfl⟩

end FormatFuzz.Graph
