import FormatFuzz.Proofs.Program.Constants
import FormatFuzz.Proofs.Program.Declarations
import FormatFuzz.Proofs.Program.Words

/-!
# What a program is made of

The functions that make a program go from expressions to lines, methods, types and the whole. For
each of them, what it has been given and what it has put where, once it has succeeded.
-/

set_option autoImplicit false

namespace FormatFuzz.Program

def elementFrame (fr : Frame) (f : Field) : Frame :=
  match f.repeated with
  | none => fr
  | some r =>
    match r.form with
    | .until _ => (indexed fr).withLocal Expr.current (.ofStored "v" (elementType f))
    | _ => indexed fr

/-- The frames in which the expressions of a program stand: in the code of a type, with its object or
with none, and in a loop with the number of the element and the element itself. -/
inductive Frame.InScope (m : Model) : Frame → Prop
  | own {t : TypeDef} (ht : t ∈ m.types) : InScope m (ownFrame (.ofModel m) t)
  | static {t : TypeDef} (ht : t ∈ m.types) : InScope m ⟨.ofModel m, t, "", []⟩
  | indexed {f : Frame} (hf : InScope m f) : InScope m (indexed f)
  | current {f : Frame} (hf : InScope m f) (t : ValueType) :
      InScope m (f.withLocal Expr.current (.ofStored "v" t))

theorem Frame.InScope.plan {m : Model} {f : Frame} (hf : f.InScope m) : f.plan = .ofModel m := by
  induction hf with
  | own | static => rfl
  | indexed _ ih | current _ _ ih => exact ih

theorem Frame.InScope.here {m : Model} {f : Frame} (hf : f.InScope m) : f.here ∈ f.plan.types := by
  rw [hf.plan, toModel_ofModel]
  induction hf with
  | own ht | static ht => exact ht
  | indexed _ ih | current _ _ ih => exact ih

theorem Frame.InScope.holder {m : Model} {f : Frame} (hf : f.InScope m) :
    f.holder = "" ∨ f.holder = "g" := by
  induction hf with
  | own => exact .inr rfl
  | static => exact .inl rfl
  | indexed _ ih | current _ _ ih => exact ih

theorem Frame.InScope.locals {m : Model} {f : Frame} (hf : f.InScope m) :
    ∀ l ∈ f.locals, l.2 = ⟨"i", .word, false⟩ ∨ ∃ t, l.2 = .ofStored "v" t := by
  induction hf with
  | own | static => simp [ownFrame]
  | indexed _ ih => exact List.forall_mem_cons.mpr ⟨.inl rfl, ih⟩
  | current _ t ih => exact List.forall_mem_cons.mpr ⟨.inr ⟨t, rfl⟩, ih⟩

variable {fr : Frame} {p : Plan} {t : TypeDef} {f : Field} {ls : Lines}

def leaveLines (flag code : String) : Lines :=
  assignment flag code :: block ("if !g." ++ flag) ["return nil"]

theorem guardLines_ok {id : String} {e : Expr} (h : guardLines fr id (some e) = .ok ls) :
    ∃ v, fr.expr e = .ok v ∧ v.type = .bool ∧
      ls = leaveLines (fr.plan.names.flag fr.here id) v.code := by
  obtain ⟨v, hv, h⟩ := (bind_eq_ok _ _ _).mp h
  obtain ⟨htype, h⟩ := guard_eq_ok _ _ _ _ h
  exact ⟨v, hv, not_not.mp htype, ((pure_eq_ok _ _).mp h).symm⟩

def fieldBody (fr : Frame) (f : Field) : Except Error Lines :=
  match f.repeated with
  | none => singleLines fr f
  | some r =>
    match r.form with
    | .until cond => untilLines fr f r cond
    | _ => countedLines fr f r

theorem fieldMethod_ok (h : fieldMethod p t f = .ok ls) : ∃ guard body,
    guardLines (ownFrame p t) f.id f.guard = .ok guard ∧ fieldBody (ownFrame p t) f = .ok body ∧
      ls = block (methodHead t ("gen" ++ p.names.member t f.id) "error") (guard ++ body) := by
  obtain ⟨guard, hguard, h⟩ := (bind_eq_ok _ _ _).mp h
  obtain ⟨body, hbody, h⟩ := (bind_eq_ok _ _ _).mp h
  exact ⟨guard, body, (Error.at_eq_ok _ _ _ _ _).mp hguard, (Error.at_eq_ok _ _ _ _ _).mp hbody,
    ((pure_eq_ok _ _).mp h).symm⟩

theorem instanceMethod_ok {i : Instance} (h : instanceMethod p t i = .ok ls) : ∃ guard v,
    guardLines (ownFrame p t) i.id i.guard = .ok guard ∧ (ownFrame p t).expr i.value = .ok v ∧
      ls = block (methodHead t ("gen" ++ p.names.member t i.id) "error")
        (guard ++ [assignment (p.names.member t i.id) v.typed, "return nil"]) := by
  obtain ⟨guard, hguard, h⟩ := (bind_eq_ok _ _ _).mp h
  obtain ⟨v, hv, h⟩ := (bind_eq_ok _ _ _).mp h
  exact ⟨guard, v, (Error.at_eq_ok _ _ _ _ _).mp hguard, (Error.at_eq_ok _ _ _ _ _).mp hv,
    ((pure_eq_ok _ _).mp h).symm⟩

theorem infix_block (head : String) (body ls : Lines) (h : ls <:+: body) : ls <:+: block head body :=
  List.infix_cons (List.infix_append_of_infix_left h)

theorem fieldBody_element (h : fieldBody fr f = .ok ls) :
    ∃ element, elementLines (elementFrame fr f) f = .ok element ∧ element <:+: ls := by
  unfold fieldBody at h
  unfold elementFrame
  cases hr : f.repeated with
  | none =>
    rw [hr] at h
    obtain ⟨element, helement, h⟩ := (bind_eq_ok _ _ _).mp h
    obtain rfl := (pure_eq_ok _ _).mp h
    refine ⟨element, helement, ?_⟩
    iterate 3 apply List.infix_append_of_infix_left
    exact List.infix_rfl
  | some r =>
    rw [hr] at h
    dsimp only at h ⊢
    split at h
    next cond _ =>
      obtain ⟨element, helement, h⟩ := (bind_eq_ok _ _ _).mp h
      obtain ⟨v, -, h⟩ := (bind_eq_ok _ _ _).mp h
      obtain ⟨-, h⟩ := guard_eq_ok _ _ _ _ h
      obtain rfl := (pure_eq_ok _ _).mp h
      refine ⟨element, helement, ?_⟩
      apply List.infix_append_of_infix_left
      apply List.infix_append_of_infix_right
      apply infix_block
      iterate 2 apply List.infix_append_of_infix_left
      exact List.infix_rfl
    next =>
      obtain ⟨count, -, h⟩ := (bind_eq_ok _ _ _).mp h
      obtain ⟨element, helement, h⟩ := (bind_eq_ok _ _ _).mp h
      obtain rfl := (pure_eq_ok _ _).mp h
      refine ⟨element, helement, ?_⟩
      apply List.infix_append_of_infix_left
      apply List.infix_append_of_infix_right
      apply infix_block
      apply List.infix_append_of_infix_left
      exact List.infix_rfl

theorem fieldBody_count {r : Repeat} {e : Expr} (h : fieldBody fr f = .ok ls)
    (hr : f.repeated = some r) (hc : r.form = .count e) : ∃ v, fr.expr e = .ok v := by
  rw [fieldBody, hr] at h
  dsimp only at h
  rw [hc] at h
  obtain ⟨count, hcount, -⟩ := (bind_eq_ok _ _ _).mp h
  rw [countLines, hc] at hcount
  obtain ⟨v, hv, -⟩ := (bind_eq_ok _ _ _).mp hcount
  exact ⟨v, hv⟩

theorem typeLines_ok (h : typeLines p t = .ok ls) : ∃ instances pool fields computed,
    List.Forall₂ (fun i d => instanceDecl p t i = .ok d) (ownInstances t) instances ∧
    poolLines p t = .ok pool ∧
    List.Forall₂ (fun f ls => ∃ method, fieldMethod p t f = .ok method ∧
      ls = apart method ++ apart (accessorMethod p.names t f)) t.fields fields ∧
    List.Forall₂ (fun i ls => ∃ method, instanceMethod p t i = .ok method ∧ ls = apart method)
      (ownInstances t) computed ∧
    ls = structLines p t (t.fields.map (fieldDecl p.names t) ++ instances)
      ++ constructorLines p t pool ++ bytesMethod t ++ fields.flatten ++ computed.flatten := by
  obtain ⟨instances, hinstances, h⟩ := (bind_eq_ok _ _ _).mp h
  obtain ⟨pool, hpool, h⟩ := (bind_eq_ok _ _ _).mp h
  obtain ⟨fields, hfields, h⟩ := (bind_eq_ok _ _ _).mp h
  obtain ⟨computed, hcomputed, h⟩ := (bind_eq_ok _ _ _).mp h
  refine ⟨instances, pool, fields, computed, mapM_eq_ok _ _ _ hinstances, hpool,
    (mapM_eq_ok _ _ _ hfields).imp ?_, (mapM_eq_ok _ _ _ hcomputed).imp ?_,
    ((pure_eq_ok _ _).mp h).symm⟩
  · intro f ls hf
    obtain ⟨method, hmethod, hf⟩ := (bind_eq_ok _ _ _).mp hf
    exact ⟨method, hmethod, ((pure_eq_ok _ _).mp hf).symm⟩
  · intro i ls hi
    obtain ⟨method, hmethod, hi⟩ := (bind_eq_ok _ _ _).mp hi
    exact ⟨method, hmethod, ((pure_eq_ok _ _).mp hi).symm⟩

theorem typeLines_field (h : typeLines p t = .ok ls) (hf : f ∈ t.fields) :
    ∃ method, fieldMethod p t f = .ok method ∧ method <:+: ls := by
  obtain ⟨instances, pool, fields, computed, -, -, hfields, -, rfl⟩ := typeLines_ok h
  obtain ⟨part, hpart, method, hmethod, rfl⟩ := forall₂_mem_left _ _ _ hfields f hf
  refine ⟨method, hmethod, ?_⟩
  have hin : method <:+: apart method ++ apart (accessorMethod p.names t f) :=
    List.infix_append_of_infix_left (List.infix_cons List.infix_rfl)
  apply List.infix_append_of_infix_left
  apply List.infix_append_of_infix_right
  exact hin.trans (List.infix_of_mem_flatten hpart)

theorem typeLines_element (h : typeLines p t = .ok ls) (hf : f ∈ t.fields) : ∃ value,
    valueLines (elementFrame (ownFrame p t) f) f = .ok value ∧ value <:+: ls := by
  obtain ⟨method, hmethod, hin⟩ := typeLines_field h hf
  obtain ⟨guard, body, -, hbody, rfl⟩ := fieldMethod_ok hmethod
  obtain ⟨element, helement, hbodyIn⟩ := fieldBody_element hbody
  obtain ⟨value, hvalue, helement⟩ := (bind_eq_ok _ _ _).mp helement
  obtain ⟨wire, -, helement⟩ := (bind_eq_ok _ _ _).mp helement
  obtain rfl := (pure_eq_ok _ _).mp helement
  refine ⟨value, hvalue, List.infix_append_left.trans (hbodyIn.trans (List.IsInfix.trans ?_ hin))⟩
  exact infix_block _ _ _ (List.infix_append_of_infix_right List.infix_rfl)

theorem typeLines_instance {i : Instance} (h : typeLines p t = .ok ls) (hi : i ∈ t.instances)
    (hs : i.isStatic = false) : ∃ method, instanceMethod p t i = .ok method ∧ method <:+: ls := by
  obtain ⟨instances, pool, fields, computed, -, -, -, hcomputed, rfl⟩ := typeLines_ok h
  have hi : i ∈ ownInstances t := List.mem_filter.mpr ⟨hi, by simp [hs]⟩
  obtain ⟨part, hpart, method, hmethod, rfl⟩ := forall₂_mem_left _ _ _ hcomputed i hi
  refine ⟨method, hmethod, ?_⟩
  have hin : method <:+: apart method := List.infix_cons List.infix_rfl
  apply List.infix_append_of_infix_right
  exact hin.trans (List.infix_of_mem_flatten hpart)

theorem staticLines_ok {i : Instance} (h : staticLines p t = .ok ls) (hi : i ∈ t.instances)
    (hs : i.isStatic = true) : ∃ v, Frame.expr ⟨p, t, "", []⟩ i.value = .ok v ∧
      p.names.static t i.id ++ "\t= " ++ v.typed ∈ ls := by
  obtain ⟨decls, hdecls, h⟩ := (bind_eq_ok _ _ _).mp h
  obtain rfl := (pure_eq_ok _ _).mp h
  have hi : i ∈ t.instances.filter Instance.isStatic := List.mem_filter.mpr ⟨hi, hs⟩
  obtain ⟨d, hd, hi⟩ := forall₂_mem_left _ _ _ (mapM_eq_ok _ _ _ hdecls) i hi
  obtain ⟨v, hv, hi⟩ := (bind_eq_ok _ _ _).mp hi
  obtain rfl := (pure_eq_ok _ _).mp hi
  exact ⟨v, (Error.at_eq_ok _ _ _ _ _).mp hv,
    List.mem_flatten.mpr ⟨_, hd, mem_documented _ _⟩⟩

theorem subset_varLines (decls : Lines) : decls ⊆ varLines decls := by
  intro l hl
  cases decls with
  | nil => cases hl
  | cons d ds =>
    simp only [varLines, apart, List.isEmpty_cons, Bool.false_eq_true, if_false, List.cons_append]
    exact List.mem_cons_of_mem _ (List.mem_cons_of_mem _ (List.mem_append_left [")"] hl))

theorem draft_type {s : Settings} {m : Model} (h : draft s m = .ok ls) (ht : t ∈ m.types) :
    ∃ statics code, staticLines (.ofModel m) t = .ok statics ∧
      typeLines (.ofModel m) t = .ok code ∧ statics ⊆ ls ∧ code <:+: ls := by
  obtain ⟨-, head, id, root, statics, types, hparts, rfl⟩ := draft_ok s m ls h
  obtain ⟨st, code, hst, hcode, hsub, hin⟩ := typeParts_ok _ _ statics types hparts t ht
  refine ⟨st, code, hst, hcode, fun l hl => ?_, ?_⟩
  · have := subset_varLines statics (hsub hl)
    simp only [List.mem_append]
    tauto
  · iterate 2 apply List.infix_append_of_infix_left
    exact List.infix_append_of_infix_right hin

end FormatFuzz.Program
