import FormatFuzz.Program.Source
import FormatFuzz.Proofs.Expr.Subterm
import FormatFuzz.Proofs.Fallible

/-!
# References between instances

The code of an expression depends on the types of the instances that it refers to: by their names,
and by attributes of objects, whatever leads to these. What the code of one name or attribute asks
for is at most one type; the code of an expression asks for what its parts ask for.
-/

set_option autoImplicit false

namespace FormatFuzz.Program

abbrev Site := TypeDef × Instance

/-- The instance that a member of an object is, if its code needs the type of one. -/
def memberInstance? (holder : String) (t : TypeDef) (id : String) : Option Site :=
  match (t.instance? id).filter Instance.isStatic with
  | some i => some (t, i)
  | none =>
    if holder = "" || (t.field? id).isSome then none else (t.instance? id).map fun i => (t, i)

def nameInstance? (f : Frame) (id : String) : Option Site :=
  if (Keyed.get? f.locals id).isSome || Expr.isReserved id then none
  else memberInstance? f.holder f.here id

def attrInstance? (m : Model) (v : Value) (id : String) : Option Site :=
  match v.type with
  | .object p =>
    (m.find? p).bind fun t =>
      if (t.field? id).isSome || (t.instance? id).isSome then memberInstance? v.code t id else none
  | _ => none

def NeedsOnly (site : Option Site) (code : Infer → Except Error Value) : Prop :=
  ∀ o, code o = match site with
    | some y => o y.1 y.2 >>= fun type => code fun _ _ => .ok type
    | none => code fun _ i => .error (.selfReference i.id)

theorem memberCode_needs (names : NameTable) (holder : String) (t : TypeDef) (id : String) :
    NeedsOnly (memberInstance? holder t id) (memberCode · names holder t id) := by
  intro o
  unfold memberInstance? memberCode
  dsimp only
  cases (t.instance? id).filter Instance.isStatic with
  | some i => rfl
  | none =>
    by_cases hholder : holder = ""
    · simp [hholder]
    · cases t.field? id with
      | some g => simp [hholder]
      | none =>
        cases t.instance? id with
        | none => simp [hholder]
        | some i =>
          simp only [hholder, decide_false, Option.isSome_none, Bool.or_self, Bool.false_eq_true,
            if_false, Option.map_some]
          rfl

theorem nameCode_needs (f : Frame) (id : String) :
    NeedsOnly (nameInstance? f id) (nameCode · f id) := by
  intro o
  unfold nameInstance? nameCode
  cases Keyed.get? f.locals id with
  | some v => rfl
  | none =>
    by_cases hr : id = Expr.current ∨ id = Expr.repeatIndex ∨ id = Expr.stream ∨ id = Expr.root ∨
        id = Expr.parent
    · have hreserved : Expr.isReserved id = true := by
        rcases hr with rfl | rfl | rfl | rfl | rfl <;> decide
      rw [hreserved, Bool.or_true, if_pos rfl]
      rcases hr with rfl | rfl | rfl | rfl | rfl <;> rfl
    · have hfree : Expr.isReserved id = false := by
        rw [← Bool.not_eq_true]
        intro hreserved
        simp only [Expr.isReserved, Expr.reserved, List.contains_eq_mem, List.mem_cons,
          List.not_mem_nil, or_false, decide_eq_true_eq] at hreserved
        tauto
      simp only [not_or] at hr
      obtain ⟨hcurrent, hindex, hstream, hroot, hparent⟩ := hr
      simp only [hcurrent, hindex, hstream, hroot, hparent, hfree, decide_false, Bool.or_self,
        Option.isSome_none, Bool.false_eq_true, if_false]
      exact memberCode_needs _ _ _ _ o

theorem attrCode_needs (p : Plan) (x : Expr) (v : Value) (id : String) :
    NeedsOnly (attrInstance? p.toModel v id) (attrCode · p x v id) := by
  intro o
  unfold attrInstance? attrCode
  dsimp only
  cases v.type with
  | object path =>
    dsimp only
    cases p.find? path with
    | none => rfl
    | some t =>
      dsimp only [Option.bind_some]
      by_cases hmember : ((t.field? id).isSome || (t.instance? id).isSome) = true
      · rw [if_pos hmember, if_pos hmember]
        simp only [if_pos hmember]
        exact memberCode_needs _ _ _ _ o
      · rw [if_neg hmember, if_neg hmember]
        simp only [if_neg hmember]
  | _ => rfl

/-- A name or an attribute asks for the type of an instance. What an attribute asks for depends on
the object that the types so far lead to. -/
inductive AsksHere (o : Infer) (f : Frame) (y : Site) : Expr → Prop
  | name {id : String} (h : nameInstance? f id = some y) : AsksHere o f y (.name id)
  | attr {x : Expr} {v : Value} {id : String} (hv : exprCode o f x = .ok v)
      (h : attrInstance? f.plan.toModel v id = some y) : AsksHere o f y (.attr x id)

/-- The code of an expression asks for the type of an instance if some part of it does. -/
def Asks (o : Infer) (f : Frame) (y : Site) (e : Expr) : Prop :=
  ∃ x, Expr.Within x e ∧ AsksHere o f y x

section

variable {o o' : Infer} {f : Frame} {y : Site}

theorem Asks.mono {x e : Expr} (h : Asks o f y x) (hx : Expr.Within x e) : Asks o f y e := by
  obtain ⟨z, hz, hy⟩ := h
  exact ⟨z, hz.trans hx, hy⟩

theorem memberInstance?_mem {holder : String} {t : TypeDef} {id : String}
    (h : memberInstance? holder t id = some y) : y.1 = t ∧ y.2 ∈ t.instances := by
  have hfind (i : Instance) (hi : t.instance? id = some i) : i ∈ t.instances :=
    List.mem_of_find?_eq_some hi
  unfold memberInstance? at h
  split at h
  next i hi =>
    cases h
    exact ⟨rfl, hfind i (Option.filter_eq_some_iff.mp hi).1⟩
  next =>
    split at h
    · cases h
    · obtain ⟨i, hi, rfl⟩ := Option.map_eq_some_iff.mp h
      exact ⟨rfl, hfind i hi⟩

theorem AsksHere.mem {x : Expr} (h : AsksHere o f y x) (hf : f.here ∈ f.plan.types) :
    y.1 ∈ f.plan.types ∧ y.2 ∈ y.1.instances := by
  cases h with
  | name h =>
    unfold nameInstance? at h
    split at h
    · cases h
    · obtain ⟨ht, hi⟩ := memberInstance?_mem h
      exact ht ▸ ⟨hf, hi⟩
  | attr hv h =>
    unfold attrInstance? at h
    split at h
    next path _ =>
      obtain ⟨t, ht, h⟩ := Option.bind_eq_some_iff.mp h
      split at h
      · obtain ⟨rfl, hi⟩ := memberInstance?_mem h
        exact ⟨List.mem_of_find?_eq_some ht, hi⟩
      · cases h
    next => cases h

theorem ok_of_within {x e : Expr} (h : Expr.Within x e) (v : Value) (hv : exprCode o f e = .ok v) :
    ∃ w, exprCode o f x = .ok w := by
  induction h generalizing v with
  | self => exact ⟨v, hv⟩
  | operand _ ih | object _ ih =>
    obtain ⟨w, hw, -⟩ := (bind_eq_ok _ _ _).mp hv
    exact ih w hw
  | left _ ih | indexed _ ih =>
    obtain ⟨w, hw, -⟩ := (bind_eq_ok _ _ _).mp hv
    exact ih w hw
  | right _ ih | position _ ih =>
    obtain ⟨_, -, hv⟩ := (bind_eq_ok _ _ _).mp hv
    obtain ⟨w, hw, -⟩ := (bind_eq_ok _ _ _).mp hv
    exact ih w hw
  | condition _ ih =>
    obtain ⟨w, hw, -⟩ := (bind_eq_ok _ _ _).mp hv
    exact ih w hw
  | consequent _ ih =>
    obtain ⟨_, -, hv⟩ := (bind_eq_ok _ _ _).mp hv
    obtain ⟨-, hv⟩ := guard_eq_ok _ _ _ _ hv
    obtain ⟨w, hw, -⟩ := (bind_eq_ok _ _ _).mp hv
    exact ih w hw
  | alternative _ ih =>
    obtain ⟨_, -, hv⟩ := (bind_eq_ok _ _ _).mp hv
    obtain ⟨-, hv⟩ := guard_eq_ok _ _ _ _ hv
    obtain ⟨_, -, hv⟩ := (bind_eq_ok _ _ _).mp hv
    obtain ⟨w, hw, -⟩ := (bind_eq_ok _ _ _).mp hv
    exact ih w hw
  | @element z zs hz _ ih =>
    obtain ⟨codes, hcodes, -⟩ := (bind_eq_ok _ _ _).mp hv
    suffices hlist : ∀ (whole : Expr) (ys : List Expr) (codes : List String), z ∈ ys →
        listCodes o f whole ys = .ok codes → ∃ w, exprCode o f z = .ok w by
      obtain ⟨w, hw⟩ := hlist (.list zs) zs codes hz hcodes
      exact ih w hw
    intro whole ys
    induction ys with
    | nil => simp
    | cons y ys ihys =>
      intro codes hmem hcodes
      obtain ⟨w, hw, hcodes⟩ := (bind_eq_ok _ _ _).mp hcodes
      obtain ⟨_, -, hcodes⟩ := (bind_eq_ok _ _ _).mp hcodes
      obtain ⟨rest, hrest, -⟩ := (bind_eq_ok _ _ _).mp hcodes
      rcases List.mem_cons.mp hmem with rfl | hmem
      · exact ⟨w, hw⟩
      · exact ihys rest hmem hrest

theorem NeedsOnly.answered {code : Infer → Except Error Value} {v : Value}
    (h : NeedsOnly (some y) code) (hv : code o = .ok v) : ∃ type, o y.1 y.2 = .ok type := by
  rw [h o] at hv
  obtain ⟨type, htype, -⟩ := (bind_eq_ok _ _ _).mp hv
  exact ⟨type, htype⟩

theorem Asks.answered {e : Expr} {v : Value} (h : Asks o f y e) (hv : exprCode o f e = .ok v) :
    ∃ type, o y.1 y.2 = .ok type := by
  obtain ⟨x, hx, hasks⟩ := h
  obtain ⟨w, hw⟩ := ok_of_within hx v hv
  cases hasks with
  | name h => exact (h ▸ nameCode_needs f _).answered hw
  | attr hobject h =>
    obtain ⟨u, hu, hw⟩ := (bind_eq_ok _ _ _).mp hw
    cases hu.symm.trans hobject
    exact (h ▸ attrCode_needs f.plan _ _ _).answered hw

end

end FormatFuzz.Program
