import FormatFuzz.Program.Source
import FormatFuzz.Proofs.Model.Users
import Mathlib.Logic.Relation

/-!
# The roots that objects hold

A program makes an object of the outermost type, and every object makes one for each of its fields
of a type of the model. An object is given the root of the object that makes it if both are of one
tree, and no root otherwise; an object of an outermost type that is given none is its own root.

So an object has no root exactly if, on the way to it, some nested type of its tree was entered from
another tree and no outermost type was passed since. The check of a model looks at the types that
are entered so and not at those below them. It keeps a type that reads its root from being entered
from another tree, but not from being made without a root further down.
-/

set_option autoImplicit false

namespace FormatFuzz

theorem Model.compile_outlines (o : Options) (set : SchemaSet) (m : Model)
    (h : Model.compile o set = .ok m) : ∃ n, set.normalize o = .ok n ∧ m.Outlines n := by
  obtain ⟨n, b, hn, hb, hus⟩ := Model.compile_each o set m h
  have hpaths : b.types.map TypeDef.path = m.types.map TypeDef.path :=
    map_eq_of_forall₂ _ _ hus fun t u ⟨find?, hu⟩ =>
      (Resolve.typeDef_keeps find? t u hu).1.symm
  exact ⟨n, hn, hpaths.symm.trans (Model.build_outlines o n b hb)⟩

theorem Model.compile_root (o : Options) (set : SchemaSet) (m : Model)
    (h : Model.compile o set = .ok m) (t : TypeDef) (ht : m.root? = some t) : t.path.length = 1 := by
  obtain ⟨n, -, hm⟩ := Model.compile_outlines o set m h
  have hhead : (m.types.map TypeDef.path).head? = some [n.main.schema.id] := by
    rw [hm]
    cases hmain : n.main.schema with
    | mk b ts => simp [Build.allShells, Build.shells, hmain]
  rw [List.head?_map, show m.types.head? = some t from ht, Option.map_some] at hhead
  rw [Option.some.inj hhead]
  rfl

namespace Program

/-- The root that the code of an argument denotes in an object, by the type of the object that it
refers to; the object holds `held` itself. -/
def argumentRoot (code : String) (held : Option TypePath) : Option TypePath :=
  if code = "g.root" then held else none

/-- The root that an object holds while its members are generated, after the lines at the start of
its constructor have gone over the root it was given. -/
def startRoot (p : TypePath) (given : Option TypePath) : Option TypePath :=
  if (ownRootLines p).isEmpty then given else some (given.getD p)

def Holds (m : Model) (p u : TypePath) : Prop :=
  ∃ t ∈ m.types, t.path = p ∧ ∃ f ∈ t.fields, u ∈ f.type.users

/-- The objects that a program makes, each by its type and the root that it holds. -/
inductive Made (m : Model) : TypePath → Option TypePath → Prop
  | root (t : TypeDef) (h : m.root? = some t) : Made m t.path (startRoot t.path none)
  | part (p u : TypePath) (r : Option TypePath) (h : Made m p r) (hu : Holds m p u) :
      Made m u (startRoot u (argumentRoot (rootArgument p u) r))

def ReadsRoot (m : Model) (p : TypePath) : Prop :=
  ∃ t ∈ m.types, t.path = p ∧ ∃ e ∈ typeExprs t, e.mentions Expr.root = true

/-- One type makes objects of a nested type of its own tree. -/
def Inside (m : Model) (p u : TypePath) : Prop :=
  Holds m p u ∧ treeRoot u = treeRoot p ∧ u.length ≠ 1

def Entered (m : Model) (u : TypePath) : Prop :=
  ∃ p r, Made m p r ∧ Holds m p u ∧ treeRoot u ≠ treeRoot p ∧ u.length ≠ 1

variable (m : Model)

theorem startRoot_top (p : TypePath) (given : Option TypePath) (h : p.length = 1) :
    startRoot p given = some (given.getD p) := by
  simp [startRoot, ownRootLines, h, block]

theorem startRoot_nested (p : TypePath) (given : Option TypePath) (h : p.length ≠ 1) :
    startRoot p given = given := by
  simp [startRoot, ownRootLines, h]

theorem argumentRoot_same (p u : TypePath) (r : Option TypePath) (h : treeRoot u = treeRoot p) :
    argumentRoot (rootArgument p u) r = r := by
  simp [argumentRoot, rootArgument, h]

theorem argumentRoot_other (p u : TypePath) (r : Option TypePath) (h : treeRoot u ≠ treeRoot p) :
    argumentRoot (rootArgument p u) r = none := by
  simp [argumentRoot, rootArgument, h]

theorem treeRoot_top (p : TypePath) (h : p.length = 1) : treeRoot p = p :=
  List.take_of_length_le (by omega)

theorem made_treeRoot (p : TypePath) (r : Option TypePath) (h : Made m p r) :
    r = none ∨ r = some (treeRoot p) := by
  have start : ∀ u given, given = none ∨ given = some (treeRoot u) →
      startRoot u given = none ∨ startRoot u given = some (treeRoot u) := by
    intro u given hgiven
    by_cases hu : u.length = 1
    · right
      rw [startRoot_top u given hu]
      rcases hgiven with rfl | rfl
      · rw [Option.getD_none, treeRoot_top u hu]
      · rfl
    · rw [startRoot_nested u given hu]
      exact hgiven
  induction h with
  | root t _ => exact start _ _ (.inl rfl)
  | part p u r _ _ ih =>
    apply start
    by_cases htree : treeRoot u = treeRoot p
    · rw [argumentRoot_same p u r htree, htree]
      exact ih
    · exact .inl (argumentRoot_other p u r htree)

theorem entered_of_made (hroot : ∀ t, m.root? = some t → t.path.length = 1) (p : TypePath)
    (h : Made m p none) : ∃ u, Entered m u ∧ Relation.ReflTransGen (Inside m) u p := by
  generalize hr : (none : Option TypePath) = r at h
  induction h with
  | root t ht =>
    rw [startRoot_top t.path none (hroot t ht)] at hr
    cases hr
  | part p u r h hu ih =>
    have hnested : u.length ≠ 1 := by
      intro htop
      rw [startRoot_top u _ htop] at hr
      cases hr
    rw [startRoot_nested u _ hnested] at hr
    by_cases htree : treeRoot u = treeRoot p
    · rw [argumentRoot_same p u r htree] at hr
      obtain ⟨v, hv, hpath⟩ := ih hr
      exact ⟨v, hv, hpath.tail ⟨hu, htree, hnested⟩⟩
    · exact ⟨u, ⟨p, r, h, hu, htree, hnested⟩, .refl⟩

theorem made_of_entered (u p : TypePath) (hu : Entered m u)
    (hpath : Relation.ReflTransGen (Inside m) u p) : Made m p none := by
  induction hpath with
  | refl =>
    obtain ⟨q, r, hq, hqu, htree, hnested⟩ := hu
    have h := Made.part q u r hq hqu
    rwa [startRoot_nested u _ hnested, argumentRoot_other q u r htree] at h
  | tail _ hstep ih =>
    obtain ⟨hholds, htree, hnested⟩ := hstep
    have h := Made.part _ _ none ih hholds
    rwa [startRoot_nested _ _ hnested, argumentRoot_same _ _ none htree] at h

theorem mem_users (o : Options) (set : SchemaSet) (h : Model.compile o set = .ok m)
    (p u : TypePath) : p ∈ m.users u ↔ Holds m p u := by
  rw [Model.compile_holders o set m h, Model.holders, mem_distinct, List.mem_map]
  simp only [List.mem_filter, List.any_eq_true, List.contains_iff_mem, Holds]
  constructor
  · rintro ⟨t, ⟨ht, hf⟩, rfl⟩
    exact ⟨t, ht, rfl, hf⟩
  · rintro ⟨t, ht, rfl, hf⟩
    exact ⟨t, ⟨ht, hf⟩, rfl⟩

theorem checkModel_entered (o : Options) (set : SchemaSet) (h : Model.compile o set = .ok m)
    (hc : checkModel m = .ok ()) (p : TypePath) (hp : ReadsRoot m p) : ¬ Entered m p := by
  rintro ⟨q, r, -, hholds, htree, hnested⟩
  obtain ⟨t, ht, rfl, hreads⟩ := hp
  have hforeign : readsForeignRoot m t = true := by
    simp only [readsForeignRoot, Bool.and_eq_true, bne_iff_ne, List.any_eq_true]
    exact ⟨⟨hnested, q, (mem_users m o set h q t.path).mpr hholds, htree.symm⟩, hreads⟩
  unfold checkModel at hc
  split at hc
  next => cases hc
  next =>
    split at hc
    next => cases hc
    next hnone =>
      have := List.find?_eq_none.mp hnone t ht
      exact this hforeign

/-- The outermost type of one schema has a field of a nested type of another, and that one has a field
of a type beside it that reads the root. -/
def relayed : SchemaSet where
  main := ⟨"a.ksy", .mk
    { head := { Meta.empty with id := "a" }
      seq := [{ id := "part", type := some (.named "b::x") }] } []⟩
  imported := [("b", ⟨"b.ksy", .mk
    { head := { Meta.empty with id := "b" }
      seq := [{ id := "n", type := some (.named "u1") }] }
    [("x", .mk { seq := [{ id := "inner", type := some (.named "y") }] } []),
      ("y", .mk { seq := [{ id := "data", size := .str "_root.n" }] } [])]⟩)]

theorem relayed_compiles : ∃ m, Model.compile {} relayed = .ok m ∧ checkModel m = .ok () ∧
    ReadsRoot m ["b", "y"] ∧ Made m ["b", "x"] none ∧ Holds m ["b", "x"] ["b", "y"] := by
  let view (m : Model) := ((checkModel m).toBool, m.root?.map TypeDef.path, m.users ["b", "x"],
    m.users ["b", "y"], m.types.any fun t =>
      t.path == ["b", "y"] && (typeExprs t).any fun e => e.mentions Expr.root)
  obtain ⟨m, hm, hview⟩ := exists_ok_of_toOption_map (Model.compile {} relayed) view
    (true, some ["a"], [["a"]], [["b", "x"]], true) (by decide +kernel)
  simp only [view, Prod.mk.injEq] at hview
  obtain ⟨hcheck, hroot, hx, hy, hreads⟩ := hview
  obtain ⟨t, ht, hpath⟩ := Option.map_eq_some_iff.mp hroot
  have hcheck : checkModel m = .ok () := by
    cases hc : checkModel m with
    | ok u => rfl
    | error e =>
      rw [hc] at hcheck
      cases hcheck
  have hroot : Made m ["a"] (startRoot ["a"] none) := by
    rw [← hpath]
    exact .root t ht
  have hx : Holds m ["a"] ["b", "x"] := (mem_users m {} relayed hm _ _).mp (by simp [hx])
  have hy : Holds m ["b", "x"] ["b", "y"] := (mem_users m {} relayed hm _ _).mp (by simp [hy])
  simp only [List.any_eq_true, Bool.and_eq_true, beq_iff_eq] at hreads
  obtain ⟨u, hu, hupath, e, he, hmentions⟩ := hreads
  exact ⟨m, hm, hcheck, ⟨u, hu, hupath, e, he, hmentions⟩, .part ["a"] ["b", "x"] _ hroot hx, hy⟩

/-- A type can read its root in an object that has none although the model passes the check. -/
theorem made_without_root : ∃ m, Model.compile {} relayed = .ok m ∧ checkModel m = .ok () ∧
    ReadsRoot m ["b", "y"] ∧ Made m ["b", "y"] none := by
  obtain ⟨m, hm, hc, hreads, hx, hholds⟩ := relayed_compiles
  exact ⟨m, hm, hc, hreads, .part ["b", "x"] ["b", "y"] none hx hholds⟩

/-- In a program for a compiled model that passes the check, every root is that of the tree, and a
type that reads its root is made without one exactly if it lies below a nested type that is entered
from another tree, one step or more down through nested types of its own tree. -/
theorem made_without_root_iff (o : Options) (set : SchemaSet)
    (h : Model.compile o set = .ok m) (hc : checkModel m = .ok ()) :
    (∀ p r, Made m p r → r = none ∨ r = some (treeRoot p)) ∧
    ∀ p, ReadsRoot m p →
      (Made m p none ↔ ∃ u, Entered m u ∧ Relation.TransGen (Inside m) u p) := by
  refine ⟨made_treeRoot m, fun p hp => ⟨fun hmade => ?_, ?_⟩⟩
  · obtain ⟨u, hu, hpath⟩ := entered_of_made m (Model.compile_root o set m h) p hmade
    rcases Relation.reflTransGen_iff_eq_or_transGen.mp hpath with rfl | hpath
    · exact absurd hu (checkModel_entered m o set h hc p hp)
    · exact ⟨u, hu, hpath⟩
  · rintro ⟨u, hu, hpath⟩
    exact made_of_entered m u p hu hpath.to_reflTransGen

theorem made_without_root_iff_relayed : ∃ m, Model.compile {} relayed = .ok m ∧
    checkModel m = .ok () ∧ ReadsRoot m ["b", "y"] ∧
    ∃ u, Entered m u ∧ Relation.TransGen (Inside m) u ["b", "y"] := by
  obtain ⟨m, hm, hc, hreads, hx, hholds⟩ := relayed_compiles
  have hmade : Made m ["b", "y"] none := .part ["b", "x"] ["b", "y"] none hx hholds
  exact ⟨m, hm, hc, hreads, ((made_without_root_iff m {} relayed hm hc).2 _ hreads).mp hmade⟩

end Program

end FormatFuzz
