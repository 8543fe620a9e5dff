import FormatFuzz.Proofs.Graph.Edits
import Mathlib.Data.List.Basic
import Mathlib.Data.List.Nodup
import Mathlib.Data.List.Perm.Subperm

/-!
# The listing loop

The loop counts down, for each node, the nodes it still waits for, and keeps the positions of those
that are ready in a sorted list. One step lists the first of them. The counts are those of the
dependencies that are missing, and the ready list holds exactly the nodes that can come next, each
once and the earliest inserted first; so the loop lists nodes in order, and runs out of ready nodes
before it runs out of steps.
-/

set_option autoImplicit false

namespace FormatFuzz.Graph

theorem search_place (xs : List ℕ) (x : ℕ) (hs : xs.Pairwise (· < ·)) (n lo hi : ℕ)
    (hle : lo ≤ hi) (hhi : hi ≤ xs.length) (hn : hi - lo ≤ n)
    (hbelow : ∀ y ∈ xs.take lo, y < x) (habove : ∀ y ∈ xs.drop hi, x ≤ y) :
    (∀ y ∈ xs.take (search xs x n lo hi), y < x) ∧
      ∀ y ∈ xs.drop (search xs x n lo hi), x ≤ y := by
  induction n generalizing lo hi with
  | zero =>
    obtain rfl : lo = hi := by omega
    exact ⟨hbelow, habove⟩
  | succ n ih =>
    rw [search]
    by_cases hlt : lo < hi
    · have hm : (lo + hi) / 2 < xs.length := by omega
      have hcut := List.pairwise_append.mp ((List.take_append_drop ((lo + hi) / 2) xs).symm ▸ hs)
      have hdrop := List.drop_eq_getElem_cons hm
      have hget : xs.getD ((lo + hi) / 2) 0 = xs[(lo + hi) / 2] := by simp [hm]
      simp only [hlt, if_true, hget]
      split
      next hx =>
        apply ih ((lo + hi) / 2 + 1) hi (by omega) hhi (by omega) _ habove
        intro y hy
        rw [List.take_succ_eq_append_getElem hm] at hy
        rcases List.mem_append.mp hy with hy | hy
        · exact Nat.lt_trans (hcut.2.2 y hy _ (hdrop ▸ List.mem_cons_self)) hx
        · rw [List.mem_singleton.mp hy]
          exact hx
      next hx =>
        apply ih lo ((lo + hi) / 2) (by omega) (by omega) (by omega) hbelow
        intro y hy
        have hsorted := hcut.2.1
        rw [hdrop] at hy hsorted
        rcases List.mem_cons.mp hy with rfl | hy
        · exact Nat.le_of_not_lt hx
        · exact Nat.le_of_lt
            (Nat.lt_of_le_of_lt (Nat.le_of_not_lt hx) ((List.pairwise_cons.mp hsorted).1 y hy))
    · obtain rfl : lo = hi := by omega
      simp only [hlt, if_false]
      exact ⟨hbelow, habove⟩

theorem mem_insertSorted (xs : List ℕ) (x y : ℕ) : y ∈ insertSorted xs x ↔ y = x ∨ y ∈ xs := by
  rw [insertSorted, List.mem_append, List.mem_cons, ← or_assoc, or_comm (b := y = x), or_assoc,
    ← List.mem_append, List.take_append_drop]

theorem sorted_insertSorted (xs : List ℕ) (x : ℕ) (hs : xs.Pairwise (· < ·)) (hx : x ∉ xs) :
    (insertSorted xs x).Pairwise (· < ·) := by
  obtain ⟨hbelow, habove⟩ := search_place xs x hs xs.length 0 xs.length (Nat.zero_le _)
    (Nat.le_refl _) (Nat.sub_le _ _) (by simp) (by simp)
  rw [insertSorted]
  generalize search xs x xs.length 0 xs.length = p at hbelow habove
  have hcut := List.pairwise_append.mp ((List.take_append_drop p xs).symm ▸ hs)
  have hafter : ∀ y ∈ xs.drop p, x < y := by
    intro y hy
    have hne : y ≠ x := fun h => hx (h ▸ List.mem_of_mem_drop hy)
    exact Nat.lt_of_le_of_ne (habove y hy) (Ne.symm hne)
  refine List.pairwise_append.mpr ⟨hcut.1, List.pairwise_cons.mpr ⟨hafter, hcut.2.1⟩, ?_⟩
  intro y hy z hz
  rcases List.mem_cons.mp hz with rfl | hz
  · exact hbelow y hy
  · exact hcut.2.2 y hy z hz

section

variable (l : Listing) (i k : ℕ)

theorem release_eq : l.release i = ⟨l.pending.modify i (· - 1),
    if l.pending[i]? = some 1 then insertSorted l.ready i else l.ready, l.order⟩ := by
  have hone : (l.pending.modify i (· - 1))[i]? = some 0 ↔ l.pending[i]? = some 1 := by
    rw [List.getElem?_modify]
    cases l.pending[i]? with
    | none => simp
    | some n => simp; omega
  unfold Listing.release
  simp only [hone]
  split <;> rfl

theorem release_pending : (l.release i).pending[k]? =
    if k = i then l.pending[k]?.map (· - 1) else l.pending[k]? := by
  rw [release_eq, List.getElem?_modify]
  by_cases h : k = i
  · simp [h]
  · simp [h, Ne.symm h]

end

structure Released (l : Listing) (is : List ℕ) (m : Listing) : Prop where
  order : m.order = l.order
  pending : ∀ k, m.pending[k]? = if k ∈ is then l.pending[k]?.map (· - 1) else l.pending[k]?
  sorted : m.ready.Pairwise (· < ·)
  ready : ∀ k, k ∈ m.ready ↔ k ∈ l.ready ∨ k ∈ is ∧ l.pending[k]? = some 1

theorem released_foldl (is : List ℕ) (hn : is.Nodup) (l : Listing)
    (hs : l.ready.Pairwise (· < ·)) (hfresh : ∀ k ∈ is, k ∉ l.ready) :
    Released l is (is.foldl Listing.release l) := by
  induction is generalizing l with
  | nil => exact ⟨rfl, by simp, hs, by simp⟩
  | cons i is ih =>
    obtain ⟨hi, hn⟩ := List.nodup_cons.mp hn
    have hmem : ∀ k, k ∈ (l.release i).ready ↔
        k ∈ l.ready ∨ k = i ∧ l.pending[i]? = some 1 := by
      intro k
      rw [release_eq]
      split
      next h => simp [mem_insertSorted, h, or_comm]
      next h => simp [h]
    have hsorted : (l.release i).ready.Pairwise (· < ·) := by
      rw [release_eq]
      split
      · exact sorted_insertSorted l.ready i hs (hfresh i (by simp))
      · exact hs
    have hrest : ∀ k ∈ is, k ∉ (l.release i).ready := by
      intro k hk hr
      rcases (hmem k).mp hr with hr | ⟨rfl, -⟩
      · exact hfresh k (List.mem_cons_of_mem i hk) hr
      · exact hi hk
    obtain ⟨horder, hpending, hready, hiff⟩ := ih hn _ hsorted hrest
    rw [List.foldl_cons]
    refine ⟨horder.trans (by rw [release_eq]), ?_, hready, ?_⟩
    · intro k
      rw [hpending, release_pending]
      by_cases hk : k = i
      · subst hk
        simp [hi]
      · simp [hk]
    · intro k
      rw [hiff, hmem, release_pending]
      by_cases hk : k = i
      · subst hk
        simp [hi]
      · simp [hk]

/-- Does each listed node come after everything it depends on? -/
def Ordered (g : Graph) (ids : List String) : Prop :=
  ∀ before id after, ids = before ++ id :: after → ∀ d ∈ g.deps id, d ∈ before

/-- Can a node come next: is it not listed yet, but all that it depends on? -/
def Ready (g : Graph) (listed : List String) (id : String) : Prop :=
  id ∈ g.nodes ∧ id ∉ listed ∧ ∀ d ∈ g.deps id, d ∈ listed

def missing (g : Graph) (listed : List String) (id : String) : List String :=
  (g.deps id).filter (· ∉ listed)

theorem mem_missing (g : Graph) (listed : List String) (id d : String) :
    d ∈ g.missing listed id ↔ g.DependsOn id d ∧ d ∉ listed := by
  simp [missing, DependsOn]

/-- What holds at every place of a list, and at the place behind it, holds at every place of the
list with one more member. -/
theorem forall_split_snoc {α : Type} (P : List α → α → Prop) (xs : List α) (x : α)
    (h : ∀ before y after, xs = before ++ y :: after → P before y) (hx : P xs x) :
    ∀ before y after, xs ++ [x] = before ++ y :: after → P before y := by
  intro before y after he
  rcases List.eq_nil_or_concat after with rfl | ⟨init, last, rfl⟩
  · obtain ⟨rfl, hy⟩ := List.append_inj' he rfl
    obtain rfl : x = y := by simpa using hy
    exact hx
  · rw [List.concat_eq_append, ← List.cons_append, ← List.append_assoc] at he
    exact h before y init (List.append_inj' he rfl).1

theorem deps_listed (g : Graph) (ids : List String) (h : g.Ordered ids) (id : String)
    (hid : id ∈ ids) : ∀ d ∈ g.deps id, d ∈ ids := by
  obtain ⟨before, after, rfl⟩ := List.append_of_mem hid
  exact fun d hd => List.mem_append_left _ (h before id after rfl d hd)

section

variable (g : Graph) (hg : WellFormed g)

include hg

theorem deps_at (i : ℕ) (v : Vertex) (hv : g.vertices[i]? = some v) : g.deps v.id = v.deps :=
  deps_vertex g hg.nodup v (List.mem_of_getElem? hv)

theorem nodup_deps (id : String) : (g.deps id).Nodup := by
  unfold deps
  cases hv : g.vertices.find? fun v => v.id == id with
  | none => exact List.nodup_nil
  | some v => exact hg.once v (List.mem_of_find?_eq_some hv)

theorem mem_dependents (id : String) (i : ℕ) :
    i ∈ g.dependents id ↔ ∃ other, g.nodes[i]? = some other ∧ g.DependsOn other id := by
  rw [dependents, List.mem_filter, List.mem_range, nodes, List.getElem?_map]
  cases hv : g.vertices[i]? with
  | none => simp
  | some v =>
    have hi : i < g.size := (List.getElem?_eq_some_iff.mp hv).1
    simp [hi, DependsOn, deps_at g hg i v hv]

theorem length_missing_snoc (listed : List String) (x id : String) (hx : x ∉ listed) :
    ((g.missing (listed ++ [x]) id).length : Int) =
      if x ∈ g.deps id then ((g.missing listed id).length : Int) - 1
      else (g.missing listed id).length := by
  have hn : (g.missing listed id).Nodup := (nodup_deps g hg id).filter _
  have herase : g.missing (listed ++ [x]) id = (g.missing listed id).erase x := by
    rw [hn.erase_eq_filter, missing, missing, List.filter_filter]
    apply List.filter_congr
    intro d _
    by_cases hd : d = x <;> simp [hd]
  have hmem : x ∈ g.missing listed id ↔ x ∈ g.deps id := by
    rw [mem_missing]
    exact and_iff_left hx
  rw [herase, List.length_erase]
  simp only [hmem]
  split
  next h =>
    have := List.length_pos_of_mem (hmem.mpr h)
    omega
  next => rfl

theorem ready_snoc (listed : List String) (ho : g.Ordered listed) (x other : String)
    (hx : g.Ready listed x) : g.Ready (listed ++ [x]) other ↔
      other ≠ x ∧ g.Ready listed other ∨
        g.DependsOn other x ∧ (g.missing listed other).length = 1 := by
  obtain ⟨-, hnew, hdeps⟩ := hx
  have hlength := length_missing_snoc g hg listed x other hnew
  have hnone : (g.missing (listed ++ [x]) other).length = 0 ↔
      ∀ d ∈ g.deps other, d ∈ listed ++ [x] := by
    simp [missing, or_iff_not_imp_left]
  constructor
  · rintro ⟨hn, hnot, hall⟩
    by_cases hd : x ∈ g.deps other
    · rw [if_pos hd] at hlength
      have := hnone.mpr hall
      exact Or.inr ⟨hd, by omega⟩
    · refine Or.inl ⟨?_, hn, fun h => hnot (List.mem_append_left _ h), ?_⟩
      · rintro rfl
        exact hnot (by simp)
      · intro d hm
        rcases List.mem_append.mp (hall d hm) with h | h
        · exact h
        · exact absurd (List.mem_singleton.mp h ▸ hm) hd
  · rintro (⟨hne, hn, hnot, hall⟩ | ⟨hd, hone⟩)
    · refine ⟨hn, ?_, fun d hm => List.mem_append_left _ (hall d hm)⟩
      simp [hne, hnot]
    · have hd' : x ∈ g.deps other := hd
      rw [if_pos hd'] at hlength
      refine ⟨mem_nodes_of_dependsOn g other x hd, ?_, hnone.mp (by omega)⟩
      intro hm
      rcases List.mem_append.mp hm with hm | hm
      · exact hnew (deps_listed g listed ho other hm x hd)
      · rw [List.mem_singleton.mp hm] at hd'
        exact hnew (hdeps x hd')

end

/-- What the loop keeps: listed nodes are in order, the counts are those of missing nodes, and the
ready nodes are exactly those that can come next, each once and earliest first. -/
structure Progress (g : Graph) (l : Listing) : Prop where
  nodup : l.order.Nodup
  nodes : ∀ id ∈ l.order, id ∈ g.nodes
  ordered : g.Ordered l.order
  pending : l.pending = g.nodes.map fun id => ((g.missing l.order id).length : Int)
  sorted : l.ready.Pairwise (· < ·)
  ready : ∀ i, i ∈ l.ready ↔ ∃ id, g.nodes[i]? = some id ∧ g.Ready l.order id

theorem perm_of_length (g : Graph) (l : Listing) (hp : Progress g l)
    (h : l.order.length = g.size) : l.order.Perm g.nodes :=
  (List.subperm_of_subset hp.nodup hp.nodes).perm_of_length_le (by simp [h, nodes, size])

theorem list_keeps (g : Graph) (P : Listing → Prop) (step : ∀ l, P l → P (g.listNext l)) (n : ℕ)
    (l : Listing) (h : P l) : P (g.list n l) := by
  induction n generalizing l with
  | zero => exact h
  | succ n ih => exact ih _ (step l h)

section

variable (g : Graph) (hg : WellFormed g)

include hg

theorem progress_listing : Progress g g.listing where
  nodup := List.nodup_nil
  nodes := by simp [listing]
  ordered := by simp [Ordered, listing]
  pending := by
    rw [listing, nodes, List.map_map]
    apply List.map_congr_left
    intro v hv
    simp [missing, deps_vertex g hg.nodup v hv]
  sorted := List.pairwise_lt_range.filter _
  ready := by
    intro i
    rw [listing, List.mem_filter, List.mem_range, nodes, List.getElem?_map]
    cases hv : g.vertices[i]? with
    | none => simp
    | some v =>
      have hi : i < g.size := (List.getElem?_eq_some_iff.mp hv).1
      have hid : v.id ∈ g.nodes := List.mem_map_of_mem (List.mem_of_getElem? hv)
      simp [hi, Ready, hid, deps_at g hg i v hv, List.eq_nil_iff_forall_not_mem]

theorem ready_rest (l : Listing) (hp : Progress g l) (i : ℕ) (ready : List ℕ)
    (hl : l.ready = i :: ready) (id : String) (hi : g.nodes[i]? = some id) (k : ℕ) :
    k ∈ ready ↔ ∃ other, g.nodes[k]? = some other ∧ other ≠ id ∧ g.Ready l.order other := by
  have hmem : k ∈ ready ↔ k ≠ i ∧ k ∈ l.ready := by
    rw [hl, List.mem_cons]
    constructor
    · intro hk
      exact ⟨Nat.ne_of_gt ((List.pairwise_cons.mp (hl ▸ hp.sorted)).1 k hk), Or.inr hk⟩
    · rintro ⟨hne, hk⟩
      exact hk.resolve_left hne
  have hsame : ∀ other, g.nodes[k]? = some other → (k = i ↔ other = id) := by
    intro other hk
    have hlt := (List.getElem?_eq_some_iff.mp hi).1
    rw [← Option.some_inj (a := other), ← hk, ← hi, eq_comm (a := g.nodes[k]?),
      List.getElem?_inj hlt hg.nodup, eq_comm]
  rw [hmem, hp.ready]
  constructor
  · rintro ⟨hne, other, hk, hr⟩
    exact ⟨other, hk, fun h => hne ((hsame other hk).mpr h), hr⟩
  · rintro ⟨other, hk, hne, hr⟩
    exact ⟨fun h => hne ((hsame other hk).mp h), other, hk, hr⟩

theorem released_next (l : Listing) (hp : Progress g l) (i : ℕ) (ready : List ℕ)
    (hl : l.ready = i :: ready) (id : String) (hi : g.nodes[i]? = some id)
    (hid : g.Ready l.order id) :
    Released { l with ready, order := l.order ++ [id] } (g.dependents id) (g.listNext l) := by
  have hnext : g.listNext l =
      (g.dependents id).foldl Listing.release { l with ready, order := l.order ++ [id] } := by
    simp [listNext, hl, hi]
  rw [hnext]
  apply released_foldl _ (List.nodup_range.filter _) _ (List.pairwise_cons.mp (hl ▸ hp.sorted)).2
  intro k hk hr
  obtain ⟨other, ho, hd⟩ := (mem_dependents g hg id k).mp hk
  obtain ⟨other', ho', -, hother⟩ := (ready_rest g hg l hp i ready hl id hi k).mp hr
  obtain rfl := Option.some.inj (ho.symm.trans ho')
  exact hid.2.1 (hother.2.2 id hd)

theorem progress_step (l : Listing) (hp : Progress g l) (i : ℕ) (ready : List ℕ)
    (hl : l.ready = i :: ready) : ∃ id, g.nodes[i]? = some id ∧ g.Ready l.order id ∧
      (g.listNext l).order = l.order ++ [id] ∧ Progress g (g.listNext l) := by
  obtain ⟨id, hi, hid⟩ := (hp.ready i).mp (by simp [hl])
  obtain ⟨horder, hpending, hready, hiff⟩ := released_next g hg l hp i ready hl id hi hid
  have hcount : ∀ k : ℕ, l.pending[k]? =
      g.nodes[k]?.map fun other => ((g.missing l.order other).length : Int) := by
    intro k
    rw [hp.pending, List.getElem?_map]
  refine ⟨id, hi, hid, horder, ?_, ?_, ?_, ?_, hready, ?_⟩
  · rw [horder]
    exact List.concat_eq_append ▸ hp.nodup.concat hid.2.1
  · intro other ho
    rw [horder] at ho
    rcases List.mem_append.mp ho with ho | ho
    · exact hp.nodes other ho
    · exact List.mem_singleton.mp ho ▸ hid.1
  · rw [horder]
    exact forall_split_snoc (fun before id => ∀ d ∈ g.deps id, d ∈ before) _ id hp.ordered hid.2.2
  · apply List.ext_getElem?
    intro k
    rw [hpending k, hcount k, List.getElem?_map, horder]
    cases hk : g.nodes[k]? with
    | none => simp
    | some other =>
      have hmem : k ∈ g.dependents id ↔ id ∈ g.deps other := by
        simp [mem_dependents g hg, hk, DependsOn]
      have hlength := length_missing_snoc g hg l.order id other hid.2.1
      by_cases hd : id ∈ g.deps other <;> simp [hmem, hd, hlength]
  · intro k
    rw [hiff k, horder, mem_dependents g hg, ready_rest g hg l hp i ready hl id hi k, hcount k]
    cases g.nodes[k]? with
    | none => simp
    | some other =>
      have hone : ((g.missing l.order other).length : Int) = 1 ↔
          (g.missing l.order other).length = 1 := by omega
      simp [ready_snoc g hg l.order hp.ordered id other hid, hone]

theorem progress_next (l : Listing) (hp : Progress g l) : Progress g (g.listNext l) := by
  cases hl : l.ready with
  | nil =>
    rw [listNext, hl]
    exact hp
  | cons i ready =>
    obtain ⟨-, -, -, -, hnext⟩ := progress_step g hg l hp i ready hl
    exact hnext

theorem list_length (n : ℕ) (l : Listing) (hp : Progress g l) :
    (g.list n l).ready = [] ∨ (g.list n l).order.length = l.order.length + n := by
  induction n generalizing l with
  | zero => exact Or.inr rfl
  | succ n ih =>
    have hnext := ih _ (progress_next g hg l hp)
    cases hl : l.ready with
    | nil =>
      left
      have hsame : g.listNext l = l := by rw [listNext, hl]
      apply list_keeps g (fun m => m.ready = []) _ (n + 1) l hl
      intro m hm
      rw [listNext, hm]
      exact hm
    | cons i ready =>
      obtain ⟨id, -, -, horder, -⟩ := progress_step g hg l hp i ready hl
      rw [horder, List.length_append, List.length_singleton, Nat.add_assoc, Nat.add_comm 1] at hnext
      exact hnext

theorem progress_list :
    Progress g (g.list g.size g.listing) ∧ (g.list g.size g.listing).ready = [] := by
  have hstart := progress_listing g hg
  have hp := list_keeps g (Progress g) (progress_next g hg) g.size _ hstart
  refine ⟨hp, ?_⟩
  rcases list_length g hg g.size _ hstart with hnone | hlength
  · exact hnone
  -- every node is listed, so that none can come next
  rw [List.eq_nil_iff_forall_not_mem]
  intro i hi
  obtain ⟨id, -, hn, hnew, -⟩ := (hp.ready i).mp hi
  have hall := perm_of_length g _ hp (by rw [hlength]; simp [listing])
  exact hnew (hall.mem_iff.mpr hn)

end

end FormatFuzz.Graph
