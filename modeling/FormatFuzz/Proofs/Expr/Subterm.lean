import FormatFuzz.Expr.Basic

/-!
# Trees inside trees

`Within x e` says that the tree `x` is `e` or stands somewhere below it, constructor by
constructor. The names of a tree, its references, and what it reads off a name are all found by
walking the list of its subterms; here they are tied to that relation.
-/

set_option autoImplicit false

namespace FormatFuzz.Expr

/-- The first tree is the second or stands below it. -/
inductive Within (x : Expr) : Expr → Prop
  | self : Within x x
  | operand {op : UnaryOp} {y : Expr} (h : Within x y) : Within x (.unary op y)
  | left {op : BinaryOp} {y z : Expr} (h : Within x y) : Within x (.binary op y z)
  | right {op : BinaryOp} {y z : Expr} (h : Within x z) : Within x (.binary op y z)
  | condition {c a b : Expr} (h : Within x c) : Within x (.cond c a b)
  | consequent {c a b : Expr} (h : Within x a) : Within x (.cond c a b)
  | alternative {c a b : Expr} (h : Within x b) : Within x (.cond c a b)
  | object {y : Expr} {id : String} (h : Within x y) : Within x (.attr y id)
  | indexed {y i : Expr} (h : Within x y) : Within x (.index y i)
  | position {y i : Expr} (h : Within x i) : Within x (.index y i)
  | element {y : Expr} {ys : List Expr} (hy : y ∈ ys) (h : Within x y) : Within x (.list ys)

theorem Within.trans {x y e : Expr} (hx : Within x y) (hy : Within y e) : Within x e := by
  induction hy with
  | self => exact hx
  | operand _ ih => exact .operand ih
  | left _ ih => exact .left ih
  | right _ ih => exact .right ih
  | condition _ ih => exact .condition ih
  | consequent _ ih => exact .consequent ih
  | alternative _ ih => exact .alternative ih
  | object _ ih => exact .object ih
  | indexed _ ih => exact .indexed ih
  | position _ ih => exact .position ih
  | element hz _ ih => exact .element hz ih

theorem mem_listSubterms (x : Expr) (ys : List Expr) :
    x ∈ listSubterms ys ↔ ∃ y ∈ ys, x ∈ y.subterms := by
  induction ys with
  | nil => simp [listSubterms]
  | cons y ys ih => simp [listSubterms, ih]

theorem self_mem_subterms (e : Expr) (h : e ≠ .absent) : e ∈ e.subterms := by
  cases e <;> simp_all [subterms]

theorem mem_subterms_of_within (x e : Expr) (hx : x ≠ .absent) (h : Within x e) :
    x ∈ e.subterms := by
  induction h with
  | self => exact self_mem_subterms x hx
  | element hy _ ih =>
    rw [subterms]
    exact List.mem_cons_of_mem _ ((mem_listSubterms x _).mpr ⟨_, hy, ih⟩)
  | _ => simp [subterms, *]

mutual

theorem within_of_mem_subterms (x : Expr) : ∀ e : Expr, x ∈ e.subterms → Within x e
  | .int v, h => by
    obtain rfl : x = .int v := by simpa [subterms] using h
    exact .self
  | .float v, h => by
    obtain rfl : x = .float v := by simpa [subterms] using h
    exact .self
  | .str s, h => by
    obtain rfl : x = .str s := by simpa [subterms] using h
    exact .self
  | .bool b, h => by
    obtain rfl : x = .bool b := by simpa [subterms] using h
    exact .self
  | .name id, h => by
    obtain rfl : x = .name id := by simpa [subterms] using h
    exact .self
  | .member path id, h => by
    obtain rfl : x = .member path id := by simpa [subterms] using h
    exact .self
  | .unary op y, h => by
    rw [subterms, List.mem_cons] at h
    rcases h with rfl | h
    · exact .self
    · exact .operand (within_of_mem_subterms x y h)
  | .binary op y z, h => by
    rw [subterms, List.mem_cons, List.mem_append] at h
    rcases h with rfl | h | h
    · exact .self
    · exact .left (within_of_mem_subterms x y h)
    · exact .right (within_of_mem_subterms x z h)
  | .cond c a b, h => by
    rw [subterms, List.mem_cons, List.mem_append, List.mem_append] at h
    rcases h with rfl | (h | h) | h
    · exact .self
    · exact .condition (within_of_mem_subterms x c h)
    · exact .consequent (within_of_mem_subterms x a h)
    · exact .alternative (within_of_mem_subterms x b h)
  | .attr y id, h => by
    rw [subterms, List.mem_cons] at h
    rcases h with rfl | h
    · exact .self
    · exact .object (within_of_mem_subterms x y h)
  | .index y i, h => by
    rw [subterms, List.mem_cons, List.mem_append] at h
    rcases h with rfl | h | h
    · exact .self
    · exact .indexed (within_of_mem_subterms x y h)
    · exact .position (within_of_mem_subterms x i h)
  | .list ys, h => by
    rw [subterms, List.mem_cons] at h
    rcases h with rfl | h
    · exact .self
    · obtain ⟨y, hy, hxy⟩ := within_of_mem_listSubterms x ys h
      exact .element hy hxy
  | .absent, h => by simp [subterms] at h

theorem within_of_mem_listSubterms (x : Expr) :
    ∀ ys : List Expr, x ∈ listSubterms ys → ∃ y ∈ ys, Within x y
  | [], h => by simp [listSubterms] at h
  | y :: ys, h => by
    rw [listSubterms, List.mem_append] at h
    rcases h with h | h
    · exact ⟨y, by simp, within_of_mem_subterms x y h⟩
    · obtain ⟨z, hz, hxz⟩ := within_of_mem_listSubterms x ys h
      exact ⟨z, List.mem_cons_of_mem y hz, hxz⟩

end

theorem mem_subterms (x e : Expr) (hx : x ≠ .absent) : x ∈ e.subterms ↔ Within x e :=
  ⟨within_of_mem_subterms x e, mem_subterms_of_within x e hx⟩

theorem mem_names (id : String) (e : Expr) : id ∈ e.names ↔ Within (.name id) e := by
  rw [← mem_subterms _ _ (by simp), names, List.mem_filterMap]
  constructor
  · rintro ⟨x, hx, h⟩
    cases x <;> simp_all [name?]
  · intro h
    exact ⟨_, h, rfl⟩

theorem mem_refs (id : String) (e : Expr) :
    id ∈ e.refs ↔ Within (.name id) e ∧ id ∉ reserved := by
  rw [refs, mem_distinct, List.mem_filter, mem_names]
  simp [isReserved]

theorem mem_attributesOf (id a : String) (e : Expr) :
    a ∈ attributesOf id e ↔ Within (.attr (.name id) a) e := by
  rw [← mem_subterms _ _ (by simp), attributesOf, List.mem_filterMap]
  constructor
  · rintro ⟨x, hx, h⟩
    split at h
    next n b =>
      by_cases hn : n = id
      · simp_all
      · simp [hn] at h
    next => simp at h
  · intro h
    exact ⟨_, h, by simp⟩

end FormatFuzz.Expr
