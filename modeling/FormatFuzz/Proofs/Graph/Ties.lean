import FormatFuzz.Proofs.Graph.Linearization

/-!
# Ties between ready nodes

Several nodes can be ready at one time. The ready list holds all of them, the earliest inserted
first, and each step lists its head, so every place of the linear order holds the earliest inserted
node that could stand there. A list with this property comes before every other linear order of the
graph, compared by insertion, and so there is only one. The order in which edges were added has no
part in it.
-/

set_option autoImplicit false

namespace FormatFuzz.Graph

/-- Does each place hold the earliest inserted of the nodes that could come next? -/
def Earliest (g : Graph) (ids : List String) : Prop :=
  ∀ before id after, ids = before ++ id :: after → g.Ready before id ∧
    ∀ other, g.Ready before other → g.nodes.idxOf id ≤ g.nodes.idxOf other

theorem earliest_snoc (g : Graph) (ids : List String) (id : String) (h : g.Earliest ids)
    (hr : g.Ready ids id)
    (hl : ∀ other, g.Ready ids other → g.nodes.idxOf id ≤ g.nodes.idxOf other) :
    g.Earliest (ids ++ [id]) :=
  forall_split_snoc _ ids id h ⟨hr, hl⟩

structure Course (g : Graph) (l : Listing) : Prop where
  progress : Progress g l
  earliest : g.Earliest l.order

theorem course_next (g : Graph) (hg : WellFormed g) (l : Listing) (hc : Course g l) :
    Course g (g.listNext l) := by
  have hp := hc.progress
  refine ⟨progress_next g hg l hp, ?_⟩
  cases hl : l.ready with
  | nil =>
    rw [listNext, hl]
    exact hc.earliest
  | cons i ready =>
    obtain ⟨id, hi, hid, horder, -⟩ := progress_step g hg l hp i ready hl
    rw [horder]
    apply earliest_snoc g l.order id hc.earliest hid
    intro other hother
    have hposition : g.nodes.idxOf id = i := by
      obtain ⟨hlt, rfl⟩ := List.getElem?_eq_some_iff.mp hi
      exact hg.nodup.idxOf_getElem i hlt
    have hmem : g.nodes.idxOf other ∈ i :: ready :=
      hl ▸ (hp.ready _).mpr ⟨other, List.getElem?_idxOf hother.1, hother⟩
    rw [hposition]
    rcases List.mem_cons.mp hmem with he | hm
    · exact Nat.le_of_eq he.symm
    · exact Nat.le_of_lt ((List.pairwise_cons.mp (hl ▸ hp.sorted)).1 _ hm)

theorem earliest_of_linearize (g : Graph) (hg : WellFormed g) (ids : List String)
    (h : g.linearize = .ok ids) : g.Earliest ids := by
  have hstart : Course g g.listing := ⟨progress_listing g hg, by simp [Earliest, listing]⟩
  have hc := list_keeps g (Course g) (course_next g hg) g.size g.listing hstart
  unfold linearize at h
  simp only at h
  split at h
  next =>
    obtain rfl := Except.ok.inj h
    exact hc.earliest
  next => cases h

def InsertedBefore (g : Graph) (id other : String) : Prop :=
  g.nodes.idxOf id < g.nodes.idxOf other

theorem earliest_least (g : Graph) (ids others : List String) (he : g.Earliest ids)
    (hp : others.Perm g.nodes) (hn : others.Nodup) (ho : g.Ordered others)
    (hl : ids.length = others.length) : ids = others ∨ List.Lex g.InsertedBefore ids others := by
  -- the two lists agree up to some place; the induction is on what follows
  have tails : ∀ rest rest' before, ids = before ++ rest → others = before ++ rest' →
      rest = rest' ∨ List.Lex g.InsertedBefore rest rest' := by
    intro rest
    induction rest with
    | nil =>
      intro rest' before hids hothers
      cases rest' with
      | nil => exact Or.inl rfl
      | cons y rest' => simp [hids, hothers] at hl
    | cons x rest ih =>
      intro rest' before hids hothers
      cases rest' with
      | nil => simp [hids, hothers] at hl
      | cons y rest' =>
        have hy : y ∈ g.nodes := hp.mem_iff.mp (by simp [hothers])
        have hready : g.Ready before y := by
          refine ⟨hy, fun hb => ?_, ho before y rest' hothers⟩
          rw [hothers] at hn
          exact List.disjoint_of_nodup_append hn hb (by simp)
        obtain ⟨hx, hleast⟩ := he before x rest hids
        rcases Nat.lt_or_eq_of_le (hleast y hready) with hlt | heq
        · exact Or.inr (.rel hlt)
        · obtain rfl := (List.idxOf_inj hx.1).mp heq
          rcases ih rest' (before ++ [x]) (by simp [hids]) (by simp [hothers]) with rfl | hlex
          · exact Or.inl rfl
          · exact Or.inr (.cons hlex)
  exact tails ids others [] rfl rfl

theorem earliest_congr (g h : Graph) (hn : h.nodes = g.nodes)
    (hd : ∀ x y, h.DependsOn x y ↔ g.DependsOn x y) (ids : List String) (he : h.Earliest ids) :
    g.Earliest ids := by
  have ready : ∀ listed id, h.Ready listed id ↔ g.Ready listed id := by
    intro listed id
    have hdeps : (∀ d ∈ h.deps id, d ∈ listed) ↔ ∀ d ∈ g.deps id, d ∈ listed :=
      forall_congr' fun d => imp_congr_left (hd id d)
    simp only [Ready, hn, hdeps]
  intro before id after hsplit
  obtain ⟨hr, hl⟩ := he before id after hsplit
  rw [hn] at hl
  exact ⟨(ready before id).mp hr, fun other ho => hl other ((ready before other).mpr ho)⟩

theorem earliest_unique (g : Graph) (ids others : List String) (hi : g.Earliest ids)
    (ho : g.Earliest others) (hl : ids.length = others.length) : ids = others := by
  have tails : ∀ rest rest' before, ids = before ++ rest → others = before ++ rest' →
      rest = rest' := by
    intro rest
    induction rest with
    | nil =>
      intro rest' before hids hothers
      simpa [hids, hothers, eq_comm] using hl
    | cons x rest ih =>
      intro rest' before hids hothers
      cases rest' with
      | nil => simp [hids, hothers] at hl
      | cons y rest' =>
        obtain ⟨hx, hleast⟩ := hi before x rest hids
        obtain ⟨hy, hleast'⟩ := ho before y rest' hothers
        obtain rfl := (List.idxOf_inj hx.1).mp (Nat.le_antisymm (hleast y hy) (hleast' x hx))
        rw [ih rest' (before ++ [x]) (by simp [hids]) (by simp [hothers])]
  exact tails ids others [] rfl rfl

/-- Where `linearize` succeeds, every place of its list holds the earliest inserted of the nodes
that could come next; the list comes first among all linear orders of the graph, compared by
insertion; and every graph with the same nodes and edges, however these were added, gives the same
list. -/
theorem linearize_earliest (edits : List Edit) (ids : List String)
    (h : (edited edits).linearize = .ok ids) :
    (edited edits).Earliest ids ∧
      (∀ others, others.Perm (edited edits).nodes → (edited edits).Ordered others →
        ids = others ∨ List.Lex (edited edits).InsertedBefore ids others) ∧
      ∀ again, (edited again).nodes = (edited edits).nodes →
        (∀ x y, (edited again).DependsOn x y ↔ (edited edits).DependsOn x y) →
        (edited again).linearize = .ok ids := by
  have hg := wellFormed_edited edits
  have he := earliest_of_linearize _ hg ids h
  obtain ⟨hp, ho⟩ := linearize_ok _ hg ids h
  refine ⟨he, fun others hperm hord => ?_, fun again hn hd => ?_⟩
  · exact earliest_least _ ids others he hperm (hperm.nodup_iff.mpr hg.nodup) hord
      (hp.trans hperm.symm).length_eq
  · have hg' := wellFormed_edited again
    cases hlin : (edited again).linearize with
    | ok ids' =>
      have he' := earliest_congr _ _ hn hd ids' (earliest_of_linearize _ hg' ids' hlin)
      have hp' := (linearize_ok _ hg' ids' hlin).1
      rw [hn] at hp'
      rw [earliest_unique _ ids ids' he he' (hp.trans hp'.symm).length_eq]
    | error e =>
      -- an order of the one graph is an order of the other, so that one has no circle either
      refine absurd ?_ (linearize_error _ hg' e hlin)
      apply acyclic_of_ordered _ ids (hp.nodup_iff.mpr hg.nodup)
      · exact fun before id after hs d hdep => ho before id after hs d ((hd id d).mp hdep)
      · exact fun id hid => hp.mem_iff.mpr (hn ▸ hid)

/-- A checksum that waits for two fields, and a length that becomes ready with it but stands in
front of it. -/
theorem linearize_earliest_checksum :
    let edits : List Edit := [.node "len", .node "type", .node "data", .node "crc",
      .dependency "len" "data", .dependency "crc" "data", .dependency "crc" "type"]
    let again : List Edit := [.node "len", .node "type", .node "len", .node "data", .node "crc",
      .dependency "crc" "type", .dependency "crc" "data", .dependency "crc" "type",
      .dependency "len" "data"]
    (edited edits).linearize = .ok ["type", "data", "len", "crc"] ∧
      (edited edits).Earliest ["type", "data", "len", "crc"] ∧
      (edited again).linearize = .ok ["type", "data", "len", "crc"] := by
  intro edits again
  have h : (edited edits).linearize = .ok ["type", "data", "len", "crc"] := by decide
  have hsame : ∀ x y, (edited again).DependsOn x y ↔ (edited edits).DependsOn x y := by
    intro x y
    have hone : (edited edits).vertices = [⟨"len", ["data"]⟩, ⟨"type", []⟩, ⟨"data", []⟩,
      ⟨"crc", ["data", "type"]⟩] := by decide
    have hother : (edited again).vertices = [⟨"len", ["data"]⟩, ⟨"type", []⟩, ⟨"data", []⟩,
      ⟨"crc", ["type", "data"]⟩] := by decide
    rw [dependsOn_iff _ (wellFormed_edited again).nodup,
      dependsOn_iff _ (wellFormed_edited edits).nodup, hone, hother]
    simp [or_comm]
  obtain ⟨he, -, hagain⟩ := linearize_earliest edits _ h
  exact ⟨h, he, hagain again (by decide) hsame⟩

end FormatFuzz.Graph
