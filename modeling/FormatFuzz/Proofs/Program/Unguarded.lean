import FormatFuzz.Proofs.Model.EnumPaths
import FormatFuzz.Proofs.Program.Methods
import Mathlib.Data.List.Find

/-!
# Guards that no program reads

Leaving out the guards of static instances changes no line of a program. Every function on the way
from a model to its program gives for the model without these guards what it gives for the model
itself; only the check of a model looks at them, and it asks for nothing but the root.
-/

set_option autoImplicit false

namespace FormatFuzz

def Instance.unguarded (i : Instance) : Instance :=
  if i.isStatic then { i with guard := none } else i

namespace Instance

variable (i : Instance)

@[simp] theorem unguarded_id : i.unguarded.id = i.id := by unfold unguarded; split <;> rfl
@[simp] theorem unguarded_doc : i.unguarded.doc = i.doc := by unfold unguarded; split <;> rfl
@[simp] theorem unguarded_value : i.unguarded.value = i.value := by unfold unguarded; split <;> rfl

@[simp] theorem unguarded_isStatic : i.unguarded.isStatic = i.isStatic := by
  unfold unguarded
  split <;> rfl

theorem unguarded_of_not_static (h : i.isStatic = false) : i.unguarded = i := by
  simp [unguarded, h]

end Instance

def TypeDef.unguarded (t : TypeDef) : TypeDef :=
  { t with instances := t.instances.map Instance.unguarded }

namespace TypeDef

variable (t : TypeDef)

@[simp] theorem unguarded_path : t.unguarded.path = t.path := rfl
@[simp] theorem unguarded_doc : t.unguarded.doc = t.doc := rfl
@[simp] theorem unguarded_name : t.unguarded.name = t.name := rfl
@[simp] theorem unguarded_fields : t.unguarded.fields = t.fields := rfl
@[simp] theorem unguarded_enums : t.unguarded.enums = t.enums := rfl
@[simp] theorem unguarded_pool : t.unguarded.pool = t.pool := rfl
@[simp] theorem unguarded_order : t.unguarded.order = t.order := rfl
@[simp] theorem unguarded_field? (id : String) : t.unguarded.field? id = t.field? id := rfl

@[simp] theorem unguarded_instances :
    t.unguarded.instances = t.instances.map Instance.unguarded := rfl

@[simp] theorem unguarded_instance? (id : String) :
    t.unguarded.instance? id = (t.instance? id).map Instance.unguarded := by
  simp only [instance?, unguarded_instances, List.find?_map]
  congr
  funext i
  simp

theorem statics_unguarded (is : List Instance) :
    (is.map Instance.unguarded).filter Instance.isStatic =
      (is.filter Instance.isStatic).map Instance.unguarded := by
  rw [List.filter_map]
  exact congrArg _ (List.filter_congr fun i _ => i.unguarded_isStatic)

theorem others_unguarded (is : List Instance) :
    (is.map Instance.unguarded).filter (fun i => !i.isStatic) = is.filter fun i => !i.isStatic := by
  rw [List.filter_map]
  have hsame : (is.filter fun i => !i.isStatic).map Instance.unguarded
      = is.filter fun i => !i.isStatic := by
    refine (List.map_congr_left fun i hi => ?_).trans (List.map_id _)
    exact i.unguarded_of_not_static (by simpa using (List.mem_filter.mp hi).2)
  refine Eq.trans ?_ hsame
  exact congrArg _ (List.filter_congr fun i _ => by simp)

end TypeDef

def Model.unguarded (m : Model) : Model :=
  ⟨m.types.map TypeDef.unguarded⟩

namespace Model

variable (m : Model)

@[simp] theorem unguarded_types : m.unguarded.types = m.types.map TypeDef.unguarded := rfl

@[simp] theorem unguarded_find? (p : TypePath) :
    m.unguarded.find? p = (m.find? p).map TypeDef.unguarded := by
  simp only [find?, unguarded_types, List.find?_map]
  rfl

@[simp] theorem unguarded_users (p : TypePath) : m.unguarded.users p = m.users p := by
  rw [users, users, unguarded_find?]
  cases m.find? p <;> rfl

theorem sameNames_unguarded : SameNames m.unguarded m :=
  List.forall₂_map_left_iff.mpr (List.forall₂_same.mpr fun _ _ => ⟨rfl, rfl⟩)

@[simp] theorem unguarded_lookupMember (here : TypePath) (path : List String) (id : String) :
    m.unguarded.lookupMember here path id = m.lookupMember here path id := by
  simp only [lookupMember, m.sameNames_unguarded.lookupEnum]

end Model

namespace Program

@[simp] theorem parent?_unguarded (m : Model) (p : TypePath) :
    parent? m.unguarded p = parent? m p := by
  simp only [parent?, Model.unguarded_users]

@[simp] theorem memberNames_unguarded (t : TypeDef) : memberNames t.unguarded = memberNames t := by
  simp only [memberNames, accessorNames, TypeDef.unguarded_fields, TypeDef.unguarded_instances,
    List.map_map]
  congr 2
  exact List.map_congr_left fun i _ => i.unguarded_id

theorem ofTypes_unguarded (ts : List TypeDef) :
    NameTable.ofTypes (ts.map TypeDef.unguarded) = NameTable.ofTypes ts := by
  simp only [NameTable.ofTypes, List.foldl_map, memberNames_unguarded, TypeDef.unguarded_path]

@[simp] theorem member_unguarded (names : NameTable) (t : TypeDef) (id : String) :
    names.member t.unguarded id = names.member t id := rfl

@[simp] theorem static_unguarded (names : NameTable) (t : TypeDef) (id : String) :
    names.static t.unguarded id = names.static t id := rfl

@[simp] theorem flag_unguarded (names : NameTable) (t : TypeDef) (id : String) :
    names.flag t.unguarded id = names.flag t id := rfl

@[simp] theorem wire_unguarded (names : NameTable) (t : TypeDef) (id : String) :
    names.wire t.unguarded id = names.wire t id := rfl

/-- Two ways to infer types that tell the same of a type and of the type without guards. -/
def Agrees (infer infer' : Infer) : Prop :=
  ∀ t i, infer' t.unguarded i.unguarded = infer t i

def Plan.unguarded (p : Plan) : Plan :=
  { p with types := p.types.map TypeDef.unguarded }

@[simp] theorem Plan.unguarded_toModel (p : Plan) : p.unguarded.toModel = p.toModel.unguarded := rfl
@[simp] theorem Plan.unguarded_names (p : Plan) : p.unguarded.names = p.names := rfl
@[simp] theorem Plan.unguarded_known (p : Plan) : p.unguarded.known = p.known := rfl

def Frame.unguarded (fr : Frame) : Frame :=
  { fr with plan := fr.plan.unguarded, here := fr.here.unguarded }

@[simp] theorem Frame.unguarded_plan (fr : Frame) : fr.unguarded.plan = fr.plan.unguarded := rfl
@[simp] theorem Frame.unguarded_here (fr : Frame) : fr.unguarded.here = fr.here.unguarded := rfl
@[simp] theorem Frame.unguarded_holder (fr : Frame) : fr.unguarded.holder = fr.holder := rfl
@[simp] theorem Frame.unguarded_locals (fr : Frame) : fr.unguarded.locals = fr.locals := rfl

theorem outerCode_unguarded (m : Model) (holder : String) (p : TypePath) (id : String) :
    outerCode m.unguarded holder p id = outerCode m holder p id := by
  simp only [outerCode, parent?_unguarded, Model.unguarded_users]

section Code

variable {infer infer' : Infer} (hi : Agrees infer infer')

include hi

theorem memberCode_unguarded (names : NameTable) (holder : String) (t : TypeDef) (id : String) :
    memberCode infer' names holder t.unguarded id = memberCode infer names holder t id := by
  unfold memberCode
  simp only [TypeDef.unguarded_field?, TypeDef.unguarded_instance?, static_unguarded,
    member_unguarded, TypeDef.unguarded_path]
  cases t.instance? id with
  | none => cases t.field? id <;> simp
  | some i => cases hs : i.isStatic <;> cases t.field? id <;> simp [Option.filter, hs, hi t i]

theorem nameCode_unguarded (fr : Frame) (id : String) :
    nameCode infer' fr.unguarded id = nameCode infer fr id := by
  simp only [nameCode, Frame.unguarded_locals, Frame.unguarded_plan, Frame.unguarded_holder,
    Frame.unguarded_here, Plan.unguarded_toModel, Plan.unguarded_names, TypeDef.unguarded_path,
    outerCode_unguarded, memberCode_unguarded hi]

theorem attrCode_unguarded (p : Plan) (x : Expr) (v : Value) (id : String) :
    attrCode infer' p.unguarded x v id = attrCode infer p x v id := by
  unfold attrCode
  dsimp only
  cases v.type with
  | object q =>
    simp only [Plan.unguarded_toModel, Model.unguarded_find?, Plan.unguarded_names]
    cases p.find? q with
    | none => rfl
    | some t =>
      simp only [Option.map_some, TypeDef.unguarded_field?, TypeDef.unguarded_instance?,
        Option.isSome_map, memberCode_unguarded hi, outerCode_unguarded]
  | _ => rfl

end Code

mutual

theorem exprCode_unguarded {infer infer' : Infer} (hi : Agrees infer infer') (fr : Frame) :
    (e : Expr) → exprCode infer' fr.unguarded e = exprCode infer fr e
  | .int _ => rfl
  | .float _ => rfl
  | .str _ => rfl
  | .bool _ => rfl
  | .name id => by rw [exprCode, exprCode, nameCode_unguarded hi]
  | .member path id => by
    rw [exprCode, exprCode, Frame.unguarded_plan, Plan.unguarded_toModel,
      Model.unguarded_lookupMember, Frame.unguarded_here, TypeDef.unguarded_path]
  | .attr x id => by
    rw [exprCode, exprCode, exprCode_unguarded hi fr x]
    simp only [Frame.unguarded_plan, attrCode_unguarded hi]
  | .index x i => by
    rw [exprCode, exprCode, exprCode_unguarded hi fr x, exprCode_unguarded hi fr i]
  | .unary op x => by rw [exprCode, exprCode, exprCode_unguarded hi fr x]
  | .binary op x y => by
    rw [exprCode, exprCode, exprCode_unguarded hi fr x, exprCode_unguarded hi fr y]
  | .cond c x y => by
    rw [exprCode, exprCode, exprCode_unguarded hi fr c, exprCode_unguarded hi fr x,
      exprCode_unguarded hi fr y]
  | .list xs => by rw [exprCode, exprCode, listCodes_unguarded hi fr (.list xs) xs]
  | .absent => rfl

theorem listCodes_unguarded {infer infer' : Infer} (hi : Agrees infer infer') (fr : Frame)
    (whole : Expr) :
    (xs : List Expr) → listCodes infer' fr.unguarded whole xs = listCodes infer fr whole xs
  | [] => rfl
  | x :: xs => by
    rw [listCodes, listCodes, exprCode_unguarded hi fr x, listCodes_unguarded hi fr whole xs]

end

def unguardedMember (x : TypeDef × Instance) : TypeDef × Instance :=
  (x.1.unguarded, x.2.unguarded)

theorem instanceFrame_unguarded (p : Plan) (t : TypeDef) (i : Instance) :
    p.unguarded.instanceFrame t.unguarded i.unguarded = (p.instanceFrame t i).unguarded := by
  simp [Plan.instanceFrame, Frame.unguarded]

theorem lookUp_unguarded (p : Plan) : Agrees p.lookUp p.unguarded.lookUp := by
  intro t i
  simp only [Plan.lookUp, Plan.unguarded_known, TypeDef.unguarded_path, Instance.unguarded_id]

theorem learn_unguarded (p : Plan) (x : TypeDef × Instance) :
    p.unguarded.learn (unguardedMember x) = (p.learn x).unguarded := by
  rw [learn_eq, learn_eq]
  simp only [unguardedMember, instanceFrame_unguarded, Instance.unguarded_value,
    TypeDef.unguarded_path, Instance.unguarded_id, exprCode_unguarded (lookUp_unguarded p)]
  cases exprCode p.lookUp (p.instanceFrame x.1 x.2) x.2.value <;> rfl

theorem foldl_learn_unguarded (xs : List (TypeDef × Instance)) (p : Plan) :
    (xs.map unguardedMember).foldl Plan.learn p.unguarded = (xs.foldl Plan.learn p).unguarded := by
  induction xs generalizing p with
  | nil => rfl
  | cons x xs ih => rw [List.map_cons, List.foldl_cons, learn_unguarded, ih, List.foldl_cons]

theorem settle_unguarded (xs : List (TypeDef × Instance)) (fuel : Nat) (p : Plan) :
    Plan.settle (xs.map unguardedMember) fuel p.unguarded = (Plan.settle xs fuel p).unguarded := by
  induction fuel generalizing xs p with
  | zero => rfl
  | succ fuel ih =>
    have hleft : (xs.map unguardedMember).filter
          (fun x => !p.unguarded.known.contains (x.1.path, x.2.id))
        = (xs.filter fun x => !p.known.contains (x.1.path, x.2.id)).map unguardedMember := by
      rw [List.filter_map]
      exact congrArg _ (List.filter_congr fun x _ => by simp [unguardedMember])
    rw [Plan.settle, Plan.settle, hleft, ← List.map_reverse, ← List.map_append,
      foldl_learn_unguarded]
    rw [Plan.unguarded_known, ih, apply_ite Plan.unguarded]
    rfl

theorem ofModel_unguarded (m : Model) : Plan.ofModel m.unguarded = (Plan.ofModel m).unguarded := by
  have hmembers : (m.unguarded.types.flatMap fun t => t.instances.map fun i => (t, i))
      = (m.types.flatMap fun t => t.instances.map fun i => (t, i)).map unguardedMember := by
    simp only [Model.unguarded_types, List.flatMap_map, List.map_flatMap, List.map_map,
      TypeDef.unguarded_instances]
    rfl
  have hstart : (⟨m.unguarded, .ofTypes m.unguarded.types, ∅⟩ : Plan)
      = Plan.unguarded ⟨m, .ofTypes m.types, ∅⟩ := by
    rw [Model.unguarded_types, ofTypes_unguarded]
    rfl
  rw [Plan.ofModel, Plan.ofModel, hmembers, hstart, settle_unguarded, List.length_map]

theorem inferWith_unguarded (p : Plan) (fuel : Nat) (open_ : List (TypePath × String)) :
    Agrees (inferWith p fuel open_) (inferWith p.unguarded fuel open_) := by
  induction fuel generalizing open_ with
  | zero => exact fun t i => by simp [inferWith]
  | succ fuel ih =>
    intro t i
    rw [inferWith, inferWith]
    simp only [Plan.unguarded_known, TypeDef.unguarded_path, Instance.unguarded_id,
      Instance.unguarded_value, instanceFrame_unguarded, exprCode_unguarded (ih _)]

theorem infer_unguarded (p : Plan) : Agrees (infer p) (infer p.unguarded) := by
  have hlength : (p.unguarded.types.flatMap TypeDef.instances).length
      = (p.types.flatMap TypeDef.instances).length := by
    simp only [Plan.unguarded_toModel, Model.unguarded_types, List.flatMap_map, List.length_flatMap,
      TypeDef.unguarded_instances, List.length_map]
  rw [infer, infer, hlength]
  exact inferWith_unguarded p _ []

@[simp] theorem expr_unguarded (fr : Frame) (e : Expr) : fr.unguarded.expr e = fr.expr e :=
  exprCode_unguarded (infer_unguarded fr.plan) fr e

section Lines

variable (fr : Frame) (t : TypeDef) (p : Plan) (f : Field)

theorem fieldBytes?_unguarded (e : Expr) : fieldBytes? fr.unguarded e = fieldBytes? fr e := by
  cases e with
  | attr x id =>
    simp only [fieldBytes?, expr_unguarded, Frame.unguarded_plan, Plan.unguarded_toModel,
      Model.unguarded_find?, Plan.unguarded_names]
    refine bind_congr fun v => ?_
    cases v.type with
    | object q =>
      dsimp only
      cases fr.plan.find? q <;> rfl
    | _ => rfl
  | _ => rfl

@[simp] theorem bytes_unguarded (e : Expr) : fr.unguarded.bytes e = fr.bytes e := by
  have hleaf (e : Expr) : leafBytes fr.unguarded e = leafBytes fr e := by
    simp only [leafBytes, fieldBytes?_unguarded, expr_unguarded]
  induction e using Frame.bytes.induct with
  | case1 x y ihx ihy => simp only [Frame.bytes, ihx, ihy, hleaf]
  | case2 op x y hop => simp only [Frame.bytes, if_neg hop, hleaf]
  | case3 e hnot => rw [Frame.bytes, Frame.bytes, hleaf] <;> exact hnot

@[simp] theorem sizeLines_unguarded : sizeLines fr.unguarded f = sizeLines fr f := by
  simp only [sizeLines, expr_unguarded]

theorem valueLines_unguarded : valueLines fr.unguarded f = valueLines fr f := by
  have hconstruct (u : TypePath) (name : String) :
      constructLines fr.unguarded f.id u name = constructLines fr f.id u name := rfl
  have hcase (on : Expr) : caseLines fr.unguarded f on = caseLines fr f on := by
    funext c
    simp only [caseLines, expr_unguarded, hconstruct]
  have hchoice (type : ValueType) : choiceCode fr.unguarded type = choiceCode fr type := by
    funext e
    simp only [choiceCode, expr_unguarded]
  simp only [valueLines, baseLines, fixedCode, textLines, bytesLines, choiceLines, digestLines,
    switchLines, defaultLines, expr_unguarded, bytes_unguarded, sizeLines_unguarded, hconstruct,
    hcase, hchoice]

@[simp] theorem elementLines_unguarded : elementLines fr.unguarded f = elementLines fr f := by
  simp only [elementLines, valueLines_unguarded, processLines, expr_unguarded]

theorem guardLines_unguarded (id : String) (guard : Option Expr) :
    guardLines fr.unguarded id guard = guardLines fr id guard := by
  simp only [guardLines, expr_unguarded]
  rfl

theorem fieldBody_unguarded : fieldBody fr.unguarded f = fieldBody fr f := by
  have hindexed : indexed fr.unguarded = (indexed fr).unguarded := rfl
  have hlocal (fr : Frame) (name : String) (v : Value) :
      fr.unguarded.withLocal name v = (fr.withLocal name v).unguarded := rfl
  simp only [fieldBody, singleLines, untilLines, countedLines, countLines, hindexed, hlocal,
    elementLines_unguarded, expr_unguarded, appendLines, Frame.unguarded_here,
    Frame.unguarded_plan, Plan.unguarded_names, member_unguarded, wire_unguarded]

theorem ownFrame_unguarded : ownFrame p.unguarded t.unguarded = (ownFrame p t).unguarded := rfl

theorem fieldMethod_unguarded :
    fieldMethod p.unguarded t.unguarded f = fieldMethod p t f := by
  have heq (p : Plan) (t : TypeDef) : fieldMethod p t f = (do
      let guard ← Error.at_ t.path f.id "if" (guardLines (ownFrame p t) f.id f.guard)
      let body ← Error.at_ t.path f.id f.elemRole.text (fieldBody (ownFrame p t) f)
      return block (methodHead t ("gen" ++ p.names.member t f.id) "error") (guard ++ body)) := rfl
  rw [heq, heq, ownFrame_unguarded, guardLines_unguarded, fieldBody_unguarded]
  rfl

theorem instanceMethod_unguarded (i : Instance) :
    instanceMethod p.unguarded t.unguarded i = instanceMethod p t i := by
  simp only [instanceMethod, ownFrame_unguarded, guardLines_unguarded, expr_unguarded]
  rfl

@[simp] theorem ownInstances_unguarded : ownInstances t.unguarded = ownInstances t :=
  TypeDef.others_unguarded t.instances

theorem instanceDecls_unguarded :
    (ownInstances t).mapM (instanceDecl p.unguarded t.unguarded) =
      (ownInstances t).mapM (instanceDecl p t) := by
  have hdecl (i : Instance) :
      instanceDecl p.unguarded t.unguarded i.unguarded = instanceDecl p t i := by
    simp only [instanceDecl, infer_unguarded p t i, Plan.unguarded_names, member_unguarded,
      Instance.unguarded_id, Instance.unguarded_doc]
  have hsame : (ownInstances t).map Instance.unguarded = ownInstances t := by
    refine (List.map_congr_left fun i hi => ?_).trans (List.map_id _)
    exact i.unguarded_of_not_static (by simpa using (List.mem_filter.mp hi).2)
  calc (ownInstances t).mapM (instanceDecl p.unguarded t.unguarded)
    _ = ((ownInstances t).map Instance.unguarded).mapM (instanceDecl p.unguarded t.unguarded) := by
      rw [hsame]
    _ = (ownInstances t).mapM (instanceDecl p t) := by
      rw [List.mapM_map]
      exact congrArg (fun g => (ownInstances t).mapM g) (funext hdecl)

theorem staticLines_unguarded : staticLines p.unguarded t.unguarded = staticLines p t := by
  have hframe (p : Plan) (t : TypeDef) :
      (⟨p.unguarded, t.unguarded, "", []⟩ : Frame) = Frame.unguarded ⟨p, t, "", []⟩ := rfl
  simp only [staticLines, TypeDef.unguarded_instances, TypeDef.statics_unguarded, List.mapM_map,
    Function.comp_def, hframe, expr_unguarded, Instance.unguarded_value, Instance.unguarded_id,
    Instance.unguarded_doc, Plan.unguarded_names, static_unguarded, TypeDef.unguarded_path]

theorem poolLines_unguarded : poolLines p.unguarded t.unguarded = poolLines p t := by
  have hframe (p : Plan) (t : TypeDef) :
      (⟨p.unguarded, t.unguarded, "", []⟩ : Frame) = Frame.unguarded ⟨p, t, "", []⟩ := rfl
  simp only [poolLines, poolEntryCodes, TypeDef.unguarded_pool, TypeDef.unguarded_path, hframe,
    expr_unguarded]

theorem typeLines_unguarded : typeLines p.unguarded t.unguarded = typeLines p t := by
  have hflags (names : NameTable) : flagDecls names t.unguarded = flagDecls names t := by
    simp only [flagDecls, TypeDef.unguarded_fields, ownInstances_unguarded, flag_unguarded]
  have hstruct (members : List MemberDecl) :
      structLines p.unguarded t.unguarded members = structLines p t members := by
    simp only [structLines, hflags, parentType, rootType, wireDecls, TypeDef.unguarded_path,
      TypeDef.unguarded_doc, TypeDef.unguarded_name, TypeDef.unguarded_fields,
      Plan.unguarded_toModel, Plan.unguarded_names, parent?_unguarded, wire_unguarded]
  have hconstructor (pool : Lines) :
      constructorLines p.unguarded t.unguarded pool = constructorLines p t pool := by
    simp only [constructorLines, parentType, rootType, accessor, TypeDef.unguarded_path,
      TypeDef.unguarded_name, TypeDef.unguarded_fields, TypeDef.unguarded_order,
      Plan.unguarded_toModel, Plan.unguarded_names, parent?_unguarded, member_unguarded]
  have haccessor (names : NameTable) : accessorMethod names t.unguarded = accessorMethod names t :=
    rfl
  have hdecl (names : NameTable) : fieldDecl names t.unguarded = fieldDecl names t := rfl
  have hbytes : bytesMethod t.unguarded = bytesMethod t := rfl
  simp only [typeLines, ownInstances_unguarded, instanceDecls_unguarded, poolLines_unguarded,
    fieldMethod_unguarded, instanceMethod_unguarded, hstruct, hconstructor, haccessor, hdecl,
    hbytes, TypeDef.unguarded_fields, Plan.unguarded_names]

end Lines

theorem typeParts_unguarded (p : Plan) (ts : List TypeDef) :
    typeParts p.unguarded (ts.map TypeDef.unguarded) = typeParts p ts := by
  induction ts with
  | nil => rfl
  | cons t ts ih =>
    rw [List.map_cons, typeParts, typeParts, staticLines_unguarded, typeLines_unguarded, ih]

def GuardsFreeOfRoot (m : Model) : Prop :=
  ∀ t ∈ m.types, ∀ i ∈ t.instances, i.isStatic = true → ∀ e, i.guard = some e →
    e.mentions Expr.root = false

section Whole

variable (m : Model) (hm : GuardsFreeOfRoot m)

include hm

theorem readsForeignRoot_unguarded (t : TypeDef) (ht : t ∈ m.types) :
    readsForeignRoot m.unguarded t.unguarded = readsForeignRoot m t := by
  have hinstance (i : Instance) (hi : i ∈ t.instances) :
      ((i.unguarded.value :: i.unguarded.guard.toList).any fun e => e.mentions Expr.root) =
        (i.value :: i.guard.toList).any fun e => e.mentions Expr.root := by
    cases hs : i.isStatic with
    | false => rw [i.unguarded_of_not_static hs]
    | true =>
      cases hg : i.guard with
      | none => simp [Instance.unguarded, hs]
      | some e => simp [Instance.unguarded, hs, hm t ht i hi hs e hg]
  have hinstances : (t.unguarded.instances.any fun i =>
        (i.value :: i.guard.toList).any fun e => e.mentions Expr.root) =
      t.instances.any fun i => (i.value :: i.guard.toList).any fun e => e.mentions Expr.root := by
    rw [TypeDef.unguarded_instances, List.any_map, Bool.eq_iff_iff, List.any_eq_true,
      List.any_eq_true]
    exact exists_congr fun i => and_congr_right fun hi => by rw [Function.comp_apply, hinstance i hi]
  simp only [readsForeignRoot, typeExprs, List.any_append, List.any_flatMap, hinstances,
    Model.unguarded_users, TypeDef.unguarded_path, TypeDef.unguarded_fields]

theorem checkModel_unguarded : checkModel m.unguarded = checkModel m := by
  have hfind : m.unguarded.types.find? (readsForeignRoot m.unguarded)
      = (m.types.find? (readsForeignRoot m)).map TypeDef.unguarded := by
    rw [Model.unguarded_types, List.find?_map]
    exact congrArg _ (List.find?_congr fun t ht => readsForeignRoot_unguarded m hm t ht)
  have hpaths : m.unguarded.types.map TypeDef.path = m.types.map TypeDef.path := by
    rw [Model.unguarded_types, List.map_map]
    rfl
  rw [checkModel, checkModel, hfind, hpaths]
  cases nameClash? [] (m.types.map TypeDef.path) with
  | some e => rfl
  | none => cases m.types.find? (readsForeignRoot m) <;> rfl

theorem draft_unguarded (s : Settings) : draft s m.unguarded = draft s m := by
  have hcontext : contextLines m.unguarded = contextLines m := by
    simp only [contextLines, Model.unguarded_types, List.filterMap_map]
    rfl
  have henums : m.unguarded.types.flatMap (fun t => t.enums.flatMap (enumLines t))
      = m.types.flatMap fun t => t.enums.flatMap (enumLines t) := by
    rw [Model.unguarded_types, List.flatMap_map]
    rfl
  have hencodings : encodingLines m.unguarded = encodingLines m := by
    simp only [encodingLines, encodings, encodingVars, Model.unguarded_types, List.flatMap_map]
    rfl
  have hroot : m.unguarded.root?.map TypeDef.path = m.root?.map TypeDef.path := by
    simp only [Model.root?, Model.unguarded_types, List.head?_map, Option.map_map]
    rfl
  have hparts : typeParts (.ofModel m.unguarded) m.unguarded.types
      = typeParts (.ofModel m) m.types := by
    rw [ofModel_unguarded, Model.unguarded_types, typeParts_unguarded]
  simp only [draft, checkModel_unguarded m hm, hcontext, henums, hencodings, hroot, hparts]

end Whole

end Program

end FormatFuzz
