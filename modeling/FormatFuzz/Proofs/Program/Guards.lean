import FormatFuzz.Proofs.Model.StaticInstances
import FormatFuzz.Proofs.Program.Unguarded

/-!
# Guards

The method of a guarded member works out its guard first, notes the outcome and leaves if the guard
does not hold. A static instance has no method but a variable, which is given its value as soon as
the program starts. Its guard is no part of the program: nothing looks at its type, and the value is
there whether the guard holds or not.
-/

set_option autoImplicit false

namespace FormatFuzz

theorem Model.compile_static_plain (o : Options) (set : SchemaSet) (m : Model)
    (h : Model.compile o set = .ok m) (t : TypeDef) (ht : t ∈ m.types) (i : Instance)
    (hi : i ∈ t.instances) (hs : i.isStatic = true) (r : String) (hr : i.Mentions r) :
    r ∉ Expr.reserved := by
  obtain ⟨b, hfresh, hts⟩ := Model.compile_ok o set m h
  obtain ⟨_, rfl, -, hres⟩ := Resolve.types_ok [] b.types m.types hts
  obtain ⟨before, after, he⟩ := List.append_of_mem ht
  obtain ⟨u, hu, later, -, hresolved⟩ := hres before t after he
  have hid : i.id ∈ t.statics := by
    by_contra hnot
    have := (Resolve.instance_static_iff _ u t hresolved (hfresh u hu) i hi).mpr hnot
    rw [hs] at this
    cases this
  rw [hresolved.statics] at hid
  obtain ⟨first, rest, hsplit⟩ := List.append_of_mem hid
  obtain ⟨j, hj, hij⟩ := forall₂_mem_right _ _ _ hresolved.instances i hi
  obtain ⟨hji, hvalue, hguard, -⟩ := Resolve.instanceDeps_ok t j i hij
  have hmentions : j.Mentions r := by
    rw [Resolve.mentions_iff] at hr ⊢
    rwa [hvalue, hguard] at hr
  have hnodup : (u.instances.map Instance.id).Nodup := by
    have := hresolved.nodup
    rw [hresolved.refs] at this
    exact this.of_append_right
  exact (u.mentions_before hnodup first rest i.id hsplit j hj hji.symm r hmentions).1

namespace Program

theorem compile_guardsFreeOfRoot (o : Options) (set : SchemaSet) (m : Model)
    (h : Model.compile o set = .ok m) : GuardsFreeOfRoot m := by
  intro t ht i hi hs e he
  rw [Bool.eq_false_iff]
  intro hroot
  rw [Expr.mentions, List.contains_iff_mem, Expr.mem_names] at hroot
  have := Model.compile_static_plain o set m h t ht i hi hs Expr.root ⟨_, e, .guard he, hroot⟩
  exact this (by simp [Expr.reserved])

/-- The method of a member begins with its guard, which is a truth value: it notes the outcome, and
goes on to the lines that make the member only if the guard holds. -/
def Guarded (p : Plan) (t : TypeDef) (ls : Lines) (id : String) (e : Expr) : Prop :=
  ∃ v body, (ownFrame p t).expr e = .ok v ∧ v.type = .bool ∧
    block (methodHead t ("gen" ++ p.names.member t id) "error")
      (leaveLines (p.names.flag t id) v.code ++ body) <:+: ls

/-- A static instance is a variable that is given its value where it is declared. -/
def Unconditional (p : Plan) (t : TypeDef) (ls : Lines) (i : Instance) : Prop :=
  ∃ v, Frame.expr ⟨p, t, "", []⟩ i.value = .ok v ∧
    p.names.static t i.id ++ "\t= " ++ v.typed ∈ ls

section

variable {p : Plan} {t : TypeDef} {ls : Lines}

theorem typeLines_guarded_field (h : typeLines p t = .ok ls) {f : Field} (hf : f ∈ t.fields)
    {e : Expr} (he : f.guard = some e) : Guarded p t ls f.id e := by
  obtain ⟨method, hmethod, hin⟩ := typeLines_field h hf
  obtain ⟨guard, body, hguard, -, rfl⟩ := fieldMethod_ok hmethod
  obtain ⟨v, hv, htype, rfl⟩ := guardLines_ok (he ▸ hguard)
  exact ⟨v, body, hv, htype, hin⟩

theorem typeLines_guarded_instance (h : typeLines p t = .ok ls) {i : Instance}
    (hi : i ∈ t.instances) (hs : i.isStatic = false) {e : Expr} (he : i.guard = some e) :
    Guarded p t ls i.id e := by
  obtain ⟨method, hmethod, hin⟩ := typeLines_instance h hi hs
  obtain ⟨guard, w, hguard, -, rfl⟩ := instanceMethod_ok hmethod
  obtain ⟨v, hv, htype, rfl⟩ := guardLines_ok (he ▸ hguard)
  exact ⟨v, _, hv, htype, hin⟩

end

/-- Every guard of a field or of an instance that is not static is a truth value that its method looks
at first. Static instances get their values unconditionally, and without their guards the model has
the same program. -/
theorem guards_compiled (o : Options) (set : SchemaSet) (m : Model) (s : Settings) (ls : Lines)
    (h : Model.compile o set = .ok m) (hd : draft s m = .ok ls) :
    (∀ t ∈ m.types,
      (∀ f ∈ t.fields, ∀ e, f.guard = some e → Guarded (.ofModel m) t ls f.id e) ∧
      ∀ i ∈ t.instances,
        (i.isStatic = false → ∀ e, i.guard = some e → Guarded (.ofModel m) t ls i.id e) ∧
        (i.isStatic = true → Unconditional (.ofModel m) t ls i)) ∧
    draft s m.unguarded = .ok ls := by
  have mono {t : TypeDef} {code : Lines} {id : String} {e : Expr} (hin : code <:+: ls)
      (hg : Guarded (.ofModel m) t code id e) : Guarded (.ofModel m) t ls id e := by
    obtain ⟨v, body, hv, htype, hmethod⟩ := hg
    exact ⟨v, body, hv, htype, hmethod.trans hin⟩
  refine ⟨fun t ht => ?_, ?_⟩
  · obtain ⟨statics, code, hstatics, hcode, hsub, hin⟩ := draft_type hd ht
    refine ⟨fun f hf e he => mono hin (typeLines_guarded_field hcode hf he), fun i hi => ⟨?_, ?_⟩⟩
    · exact fun hs e he => mono hin (typeLines_guarded_instance hcode hi hs he)
    · intro hs
      obtain ⟨v, hv, hline⟩ := staticLines_ok hstatics hi hs
      exact ⟨v, hv, hsub hline⟩
  · rw [draft_unguarded m (compile_guardsFreeOfRoot o set m h) s, hd]

def numbered : SchemaSet :=
  ⟨⟨"a.ksy", .mk
    { head := { Meta.empty with id := "a" }
      instances := [("i", { value := .int 1, guard := .int 2 })] } []⟩, []⟩

def Instance.isNumbered (i : Instance) : Bool :=
  match i.isStatic, i.guard, i.value with
  | true, some (.int 2), .int 1 => true
  | _, _, _ => false

theorem numbered_compiles : ∃ m ls, Model.compile {} numbered = .ok m ∧ draft {} m = .ok ls ∧
    ∃ t ∈ m.types, ∃ i ∈ t.instances, i.isStatic = true ∧ i.guard = some (.int 2) ∧
      i.value = .int 1 := by
  obtain ⟨m, hm, hview⟩ := exists_ok_of_toOption_map (Model.compile {} numbered)
    (fun m => (m.types.any fun t => t.instances.any Instance.isNumbered, (draft {} m).toBool))
    (true, true) (by decide +kernel)
  obtain ⟨hinstance, hdraft⟩ := Prod.mk.inj hview
  simp only [List.any_eq_true] at hinstance
  obtain ⟨t, ht, i, hi, hview⟩ := hinstance
  cases hd : draft {} m with
  | error e =>
    rw [hd] at hdraft
    cases hdraft
  | ok ls =>
    refine ⟨m, ls, hm, hd, t, ht, i, hi, ?_⟩
    unfold Instance.isNumbered at hview
    split at hview
    next hs hg hv => exact ⟨hs, hg, hv⟩
    next => cases hview

/-- A program can give a static instance its value although its guard is no truth value. -/
theorem guard_ignored : ∃ m ls, Model.compile {} numbered = .ok m ∧ draft {} m = .ok ls ∧
    ∃ t ∈ m.types, ∃ i ∈ t.instances, i.guard = some (.int 2) ∧
      (∀ fr v, Frame.expr fr (.int 2) = .ok v → v.type ≠ .bool) ∧
      (Plan.ofModel m).names.static t i.id ++ "\t= int64(1)" ∈ ls := by
  obtain ⟨m, ls, hm, hd, t, ht, i, hi, hs, hg, hv⟩ := numbered_compiles
  refine ⟨m, ls, hm, hd, t, ht, i, hi, hg, fun fr v hcode => ?_, ?_⟩
  · rw [Frame.expr, exprCode] at hcode
    cases hcode
    simp [Value.ofInt, ValueType.word]
  · obtain ⟨statics, code, hstatics, -, hsub, -⟩ := draft_type hd ht
    obtain ⟨v, hcode, hline⟩ := staticLines_ok hstatics hi hs
    rw [hv, Frame.expr, exprCode] at hcode
    obtain rfl := Except.ok.inj hcode
    have htyped : "\t= " ++ (Value.ofInt 1).typed = "\t= int64(1)" := by decide
    rw [String.append_assoc, htyped] at hline
    exact hsub hline

theorem guards_compiled_numbered : ∃ m ls, Model.compile {} numbered = .ok m ∧
    draft {} m = .ok ls ∧ ∃ t ∈ m.types, ∃ i ∈ t.instances, i.guard.isSome ∧
      Unconditional (.ofModel m) t ls i ∧ draft {} m.unguarded = .ok ls := by
  obtain ⟨m, ls, hm, hd, t, ht, i, hi, hs, hg, -⟩ := numbered_compiles
  obtain ⟨hguards, hsame⟩ := guards_compiled {} numbered m {} ls hm hd
  exact ⟨m, ls, hm, hd, t, ht, i, hi, by simp [hg], ((hguards t ht).2 i hi).2 hs, hsame⟩

end Program

end FormatFuzz
