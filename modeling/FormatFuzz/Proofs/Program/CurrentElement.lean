import FormatFuzz.Proofs.Expr.Subterm
import FormatFuzz.Proofs.Program.Methods

/-!
# The element that is being made

In the condition that ends a repeated field, an underscore stands for the element just made, which
is in the variable `v`. Most code of a type is made in frames without that variable: there an
expression with an underscore has no code, and what stands before the underscore is all that can
fail in its place. The frame of the condition is that of the element as well, so the expressions
that the element itself is made from have the variable too, before anything is in it.
-/

set_option autoImplicit false

namespace FormatFuzz

inductive Purpose where
  | value
  | bytes
  deriving DecidableEq, Repr

/-- The element of a field is drawn as text or bytes of a length that its size may give. -/
structure Field.DrawsLength (f : Field) : Prop where
  type : (∃ e, f.type = .prim (.string e)) ∨ f.type = .bytes ∧ f.contents = none
  fixed : f.fixed = none

inductive Field.MakesFrom (f : Field) : Purpose → Expr → Prop
  | measure {e : Expr} (hr : f.elemRole = .derivedLength) (h : f.measure = some e) :
    MakesFrom f .bytes e
  | choice {e : Expr} (hr : f.elemRole = .randomChoice) (h : e ∈ f.choices) : MakesFrom f .value e
  | input {d : Digest} {e : Expr} (hr : f.elemRole = .checksum) (hd : f.digest = some d)
    (h : f.input = some e) : MakesFrom f .bytes e
  | caseMatch {on e : Expr} {u : TypePath} {cases : List (Expr × TypePath)}
    {default : Option TypePath} (hr : f.elemRole = .switch) (ht : f.type = .switch on cases default)
    (h : (e, u) ∈ cases) : MakesFrom f .value (.binary .eq on e)
  | otherSize {on e : Expr} {cases : List (Expr × TypePath)} {s : Size} (hr : f.elemRole = .switch)
    (ht : f.type = .switch on cases none) (h : f.size = some s) (hs : s.expr = some e) :
    MakesFrom f .value e
  | fixed {e : Expr} (hr : f.elemRole = .base) (h : f.fixed = some e) : MakesFrom f .value e
  | size {s : Size} {e : Expr} (hr : f.elemRole = .base) (hd : f.DrawsLength) (h : f.size = some s)
    (hs : s.expr = some e) : MakesFrom f .value e

def Field.EndsUntil (f : Field) : Prop :=
  ∃ r cond, f.repeated = some r ∧ r.form = .until cond

namespace Program

section Unbound

variable (infer : Infer) (f : Frame)

/-- An error lies with an expression: some part of it is not supported, or one without an underscore
fails with this very error. -/
def Blames (e : Expr) (err : Error) : Prop :=
  (∃ x r, Expr.Within x e ∧ err = .expr x r) ∨
    ∃ x, Expr.Within x e ∧ ¬ Expr.Within (.name Expr.current) x ∧ exprCode infer f x = .error err

theorem Blames.mono (x e : Expr) (err : Error) (hx : Expr.Within x e)
    (h : Blames infer f x err) : Blames infer f e err := by
  rcases h with ⟨y, r, hy, rfl⟩ | ⟨y, hy, hnot, herr⟩
  · exact .inl ⟨y, r, hy.trans hx, rfl⟩
  · exact .inr ⟨y, hy.trans hx, hnot, herr⟩

def Fails (e : Expr) : Prop :=
  ∃ err, exprCode infer f e = .error err ∧ Blames infer f e err

theorem fails_current (hfree : Keyed.get? f.locals Expr.current = none) :
    Fails infer f (.name Expr.current) := by
  refine ⟨.expr (.name Expr.current) .notCurrent, ?_, .inl ⟨_, _, .self, rfl⟩⟩
  rw [exprCode, nameCode, hfree]
  simp

theorem part_cases (x : Expr) (h : Expr.Within (.name Expr.current) x → Fails infer f x) :
    Fails infer f x ∨ ∃ v, exprCode infer f x = .ok v ∧ ¬ Expr.Within (.name Expr.current) x := by
  by_cases hx : Expr.Within (.name Expr.current) x
  · exact .inl (h hx)
  · cases hv : exprCode infer f x with
    | ok v => exact .inr ⟨v, rfl, hx⟩
    | error err => exact .inl ⟨err, hv, .inr ⟨x, .self, hx, hv⟩⟩

theorem Fails.of_part (x e : Expr) (h : Fails infer f x) (hx : Expr.Within x e)
    (he : ∀ err, exprCode infer f x = .error err → exprCode infer f e = .error err) :
    Fails infer f e := by
  obtain ⟨err, herr, hblames⟩ := h
  exact ⟨err, he err herr, hblames.mono infer f x e err hx⟩

theorem Fails.list (xs : List Expr) (err : Error)
    (he : listCodes infer f (.list xs) xs = .error err) (hb : Blames infer f (.list xs) err) :
    Fails infer f (.list xs) := by
  refine ⟨err, ?_, hb⟩
  rw [exprCode, he]
  rfl

theorem elementCode_error (whole x : Expr) (v : Value) (err : Error)
    (h : elementCode whole x v = .error err) : ∃ r, err = .expr whole r := by
  unfold elementCode at h
  split at h
  · exact ⟨_, (Except.error.inj h).symm⟩
  · split at h
    · split at h
      · exact ⟨_, (Except.error.inj h).symm⟩
      · cases h
    · cases h

mutual

theorem fails_unbound (hfree : Keyed.get? f.locals Expr.current = none) :
    (e : Expr) → Expr.Within (.name Expr.current) e → Fails infer f e
  | .name id, h => by
    cases h
    exact fails_current infer f hfree
  | .attr x id, .object hx => by
    refine (fails_unbound hfree x hx).of_part infer f x _ (.object .self) fun err herr => ?_
    rw [exprCode, herr]
    rfl
  | .unary op x, .operand hx => by
    refine (fails_unbound hfree x hx).of_part infer f x _ (.operand .self) fun err herr => ?_
    rw [exprCode, herr]
    rfl
  | .index x i, h => by
    rcases part_cases infer f x (fails_unbound hfree x) with hx | ⟨v, hv, hnot⟩
    · refine hx.of_part infer f x _ (.indexed .self) fun err herr => ?_
      rw [exprCode, herr]
      rfl
    · have hi : Expr.Within (.name Expr.current) i := by
        cases h
        · exact absurd ‹_› hnot
        · assumption
      refine (fails_unbound hfree i hi).of_part infer f i _ (.position .self) fun err herr => ?_
      rw [exprCode, hv, ok_bind, herr]
      rfl
  | .binary op x y, h => by
    rcases part_cases infer f x (fails_unbound hfree x) with hx | ⟨v, hv, hnot⟩
    · refine hx.of_part infer f x _ (.left .self) fun err herr => ?_
      rw [exprCode, herr]
      rfl
    · have hy : Expr.Within (.name Expr.current) y := by
        cases h
        · exact absurd ‹_› hnot
        · assumption
      refine (fails_unbound hfree y hy).of_part infer f y _ (.right .self) fun err herr => ?_
      rw [exprCode, hv, ok_bind, herr]
      rfl
  | .cond c x y, h => by
    rcases part_cases infer f c (fails_unbound hfree c) with hc | ⟨v, hv, hnotc⟩
    · refine hc.of_part infer f c _ (.condition .self) fun err herr => ?_
      rw [exprCode, herr]
      rfl
    · by_cases htype : v.type ≠ .bool
      · refine ⟨.expr (.cond c x y) .condition, ?_, .inl ⟨_, _, .self, rfl⟩⟩
        rw [exprCode, hv, ok_bind, if_pos htype]
        rfl
      · rcases part_cases infer f x (fails_unbound hfree x) with hx | ⟨w, hw, hnotx⟩
        · refine hx.of_part infer f x _ (.consequent .self) fun err herr => ?_
          rw [exprCode, hv, ok_bind, if_neg htype, herr]
          rfl
        · have hy : Expr.Within (.name Expr.current) y := by
            cases h
            · exact absurd ‹_› hnotc
            · exact absurd ‹_› hnotx
            · assumption
          refine (fails_unbound hfree y hy).of_part infer f y _ (.alternative .self)
            fun err herr => ?_
          rw [exprCode, hv, ok_bind, if_neg htype, hw, ok_bind, herr]
          rfl
  | .list xs, h => by
    obtain ⟨x, hx, hin⟩ : ∃ x ∈ xs, Expr.Within (.name Expr.current) x := by
      cases h
      exact ⟨_, ‹_›, ‹_›⟩
    obtain ⟨err, herr, hlie⟩ := fails_unbound_list hfree (.list xs) xs x hx hin
    refine .list infer f xs err herr ?_
    rcases hlie with ⟨r, rfl⟩ | ⟨y, hy, hb⟩
    · exact .inl ⟨_, _, .self, rfl⟩
    · exact hb.mono infer f y _ err (.element hy .self)
  | .int _, h => by cases h
  | .float _, h => by cases h
  | .str _, h => by cases h
  | .bool _, h => by cases h
  | .member _ _, h => by cases h
  | .absent, h => by cases h

theorem fails_unbound_list (hfree : Keyed.get? f.locals Expr.current = none) (whole : Expr) :
    (xs : List Expr) → (x : Expr) → x ∈ xs → Expr.Within (.name Expr.current) x →
      ∃ err, listCodes infer f whole xs = .error err ∧
        ((∃ r, err = .expr whole r) ∨ ∃ y ∈ xs, Blames infer f y err)
  | [], x, hx, _ => by cases hx
  | y :: ys, x, hx, hin => by
    rw [listCodes]
    rcases part_cases infer f y (fails_unbound hfree y) with ⟨err, herr, hb⟩ | ⟨v, hv, hnot⟩
    · exact ⟨err, by rw [herr]; rfl, .inr ⟨y, by simp, hb⟩⟩
    · rw [hv, ok_bind]
      cases hcode : elementCode whole y v with
      | error err => exact ⟨err, rfl, .inl (elementCode_error whole y v err hcode)⟩
      | ok code =>
        have hx : x ∈ ys := by
          rcases List.mem_cons.mp hx with rfl | hx
          · exact absurd hin hnot
          · exact hx
        obtain ⟨err, herr, hlie⟩ := fails_unbound_list hfree whole ys x hx hin
        refine ⟨err, by rw [ok_bind, herr]; rfl, hlie.imp id ?_⟩
        rintro ⟨z, hz, hb⟩
        exact ⟨z, List.mem_cons_of_mem _ hz, hb⟩

end

end Unbound

def Frame.code (fr : Frame) : Purpose → Expr → Except Error String
  | .value, e => do return (← fr.expr e).code
  | .bytes, e => fr.bytes e

theorem bytesOf_error (e : Expr) (v : Value) (err : Error) (h : bytesOf e v = .error err) :
    ∃ r, err = .expr e r := by
  unfold bytesOf at h
  split at h
  case h_5 => exact ⟨_, (Except.error.inj h).symm⟩
  all_goals cases h

/-- Why an expression has no code in a frame: a part of it is not supported, or one without an
underscore fails with this very error. -/
def Frame.Blames (fr : Frame) : Expr → Error → Prop :=
  Program.Blames (infer fr.plan) fr

section

variable (fr : Frame) (hfree : Keyed.get? fr.locals Expr.current = none)

include hfree

theorem expr_blames (e : Expr) (err : Error) (h : fr.expr e = .error err) : fr.Blames e err := by
  by_cases he : Expr.Within (.name Expr.current) e
  · obtain ⟨err', herr, hb⟩ := fails_unbound (infer fr.plan) fr hfree e he
    cases herr.symm.trans h
    exact hb
  · exact .inr ⟨e, .self, he, h⟩

theorem expr_free (e : Expr) (v : Value) (h : fr.expr e = .ok v) :
    ¬ Expr.Within (.name Expr.current) e := by
  intro he
  obtain ⟨err, herr, -⟩ := fails_unbound (infer fr.plan) fr hfree e he
  cases herr.symm.trans h

theorem fieldBytes?_blames (e : Expr) (err : Error) (h : fieldBytes? fr e = .error err) :
    fr.Blames e err := by
  unfold fieldBytes? at h
  split at h
  · split at h <;> cases h
  next x id =>
    rcases (bind_eq_error _ _ _).mp h with hx | ⟨v, -, h⟩
    · exact (expr_blames fr hfree x err hx).mono _ fr x _ err (.object .self)
    · split at h
      · split at h <;> cases h
      · cases h
  · cases h

theorem fieldBytes?_free (e : Expr) (code : String) (h : fieldBytes? fr e = .ok (some code)) :
    ¬ Expr.Within (.name Expr.current) e := by
  unfold fieldBytes? at h
  split at h
  next id =>
    split at h
    next hid =>
      intro he
      cases he
      simp [Expr.isReserved, Expr.reserved] at hid
    next => cases h
  next x id =>
    obtain ⟨v, hv, -⟩ := (bind_eq_ok _ _ _).mp h
    intro he
    cases he with
    | object hx => exact expr_free fr hfree x v hv hx
  next => cases h

theorem leafBytes_blames (e : Expr) (err : Error) (h : leafBytes fr e = .error err) :
    fr.Blames e err := by
  rcases (bind_eq_error _ _ _).mp h with hfield | ⟨code?, -, h⟩
  · exact fieldBytes?_blames fr hfree e err hfield
  · cases code? with
    | some code => cases h
    | none =>
      rcases (bind_eq_error _ _ _).mp h with hv | ⟨v, -, h⟩
      · exact expr_blames fr hfree e err hv
      · obtain ⟨r, rfl⟩ := bytesOf_error e v err h
        exact .inl ⟨e, r, .self, rfl⟩

theorem leafBytes_free (e : Expr) (code : String) (h : leafBytes fr e = .ok code) :
    ¬ Expr.Within (.name Expr.current) e := by
  obtain ⟨code?, hfield, h⟩ := (bind_eq_ok _ _ _).mp h
  cases code? with
  | some code => exact fieldBytes?_free fr hfree e code hfield
  | none =>
    obtain ⟨v, hv, -⟩ := (bind_eq_ok _ _ _).mp h
    exact expr_free fr hfree e v hv

theorem bytes_blames (e : Expr) (err : Error) (h : fr.bytes e = .error err) : fr.Blames e err := by
  induction e using Frame.bytes.induct with
  | case1 x y ihx ihy =>
    rw [Frame.bytes, if_pos rfl] at h
    rcases (bind_eq_error _ _ _).mp h with hx | ⟨left, -, h⟩
    · exact (ihx hx).mono _ fr x _ err (.left .self)
    · rcases (bind_eq_error _ _ _).mp h with hy | ⟨right, -, h⟩
      · exact (ihy hy).mono _ fr y _ err (.right .self)
      · cases h
  | case2 op x y hop =>
    rw [Frame.bytes, if_neg hop] at h
    exact leafBytes_blames fr hfree _ err h
  | case3 e hnot =>
    rw [Frame.bytes] at h
    · exact leafBytes_blames fr hfree e err h
    · exact hnot

theorem bytes_free (e : Expr) (code : String) (h : fr.bytes e = .ok code) :
    ¬ Expr.Within (.name Expr.current) e := by
  induction e using Frame.bytes.induct generalizing code with
  | case1 x y ihx ihy =>
    rw [Frame.bytes, if_pos rfl] at h
    obtain ⟨left, hx, h⟩ := (bind_eq_ok _ _ _).mp h
    obtain ⟨right, hy, -⟩ := (bind_eq_ok _ _ _).mp h
    intro he
    cases he with
    | left he => exact ihx left hx he
    | right he => exact ihy right hy he
  | case2 op x y hop =>
    rw [Frame.bytes, if_neg hop] at h
    exact leafBytes_free fr hfree _ code h
  | case3 e hnot =>
    rw [Frame.bytes] at h
    · exact leafBytes_free fr hfree e code h
    · exact hnot

/-- In a frame in which the underscore stands for nothing, no expression with one has code, and
whatever has none is itself to blame. -/
theorem code_unbound (k : Purpose) (e : Expr) (he : Expr.Within (.name Expr.current) e) :
    ∃ err, fr.code k e = .error err ∧ fr.Blames e err := by
  cases k with
  | value =>
    obtain ⟨err, herr, hb⟩ := fails_unbound (infer fr.plan) fr hfree e he
    refine ⟨err, ?_, hb⟩
    rw [Frame.code, Frame.expr, herr]
    rfl
  | bytes =>
    cases hcode : fr.bytes e with
    | ok code => exact absurd he (bytes_free fr hfree e code hcode)
    | error err => exact ⟨err, hcode, bytes_blames fr hfree e err hcode⟩

end

/-- The expressions of a type that become code before there is an element, with their frames. -/
inductive Early (p : Plan) (t : TypeDef) : Frame → Purpose → Expr → Prop
  | guard {f : Field} {e : Expr} (hf : f ∈ t.fields) (h : f.guard = some e) :
    Early p t (ownFrame p t) .value e
  | count {f : Field} {r : Repeat} {e : Expr} (hf : f ∈ t.fields) (h : f.repeated = some r)
    (hr : r.form = .count e) : Early p t (ownFrame p t) .value e
  | element {f : Field} {k : Purpose} {e : Expr} (hf : f ∈ t.fields) (h : f.MakesFrom k e) :
    Early p t (elementFrame (ownFrame p t) f) k e
  | instanceGuard {i : Instance} {e : Expr} (hi : i ∈ t.instances) (hs : i.isStatic = false)
    (h : i.guard = some e) : Early p t (ownFrame p t) .value e
  | instanceValue {i : Instance} (hi : i ∈ t.instances) (hs : i.isStatic = false) :
    Early p t (ownFrame p t) .value i.value
  | staticValue {i : Instance} (hi : i ∈ t.instances) (hs : i.isStatic = true) :
    Early p t ⟨p, t, "", []⟩ .value i.value

theorem code_of_expr (fr : Frame) (e : Expr) (v : Value) (h : fr.expr e = .ok v) :
    fr.code .value e = .ok v.code := by
  rw [Frame.code, h]
  rfl

section Made

variable {fr : Frame} {f : Field} {ls : Lines}

theorem sizeLines_code {s : Size} {e : Expr} (h : sizeLines fr f = .ok ls) (hs : f.size = some s)
    (he : s.expr = some e) : ∃ code, fr.code .value e = .ok code := by
  rw [sizeLines, hs] at h
  dsimp only at h
  rw [he] at h
  obtain ⟨v, hv, -⟩ := (bind_eq_ok _ _ _).mp h
  exact ⟨v.code, code_of_expr fr e v hv⟩

theorem baseLines_code {k : Purpose} {e : Expr} (h : baseLines fr f = .ok ls)
    (hr : f.elemRole = .base) (he : f.MakesFrom k e) : ∃ code, fr.code k e = .ok code := by
  obtain ⟨fixed, hfixed, h⟩ := (bind_eq_ok _ _ _).mp h
  cases he with
  | fixed _ he =>
    rw [fixedCode, he] at hfixed
    obtain ⟨v, hv, -⟩ := (bind_eq_ok _ _ _).mp hfixed
    exact ⟨v.code, code_of_expr fr e v hv⟩
  | size _ hd hs he =>
    obtain rfl : fixed = none := by
      rw [fixedCode, hd.fixed] at hfixed
      exact (Except.ok.inj hfixed).symm
    rcases hd.type with ⟨enc, ht⟩ | ⟨ht, hc⟩
    · rw [ht] at h
      obtain ⟨size, hsize, -⟩ := (bind_eq_ok _ _ _).mp h
      exact sizeLines_code hsize hs he
    · rw [ht] at h
      dsimp only at h
      simp only [bytesLines, hc] at h
      obtain ⟨size, hsize, -⟩ := (bind_eq_ok _ _ _).mp h
      exact sizeLines_code hsize hs he
  | measure hrole => cases hr.symm.trans hrole
  | choice hrole => cases hr.symm.trans hrole
  | input hrole => cases hr.symm.trans hrole
  | caseMatch hrole => cases hr.symm.trans hrole
  | otherSize hrole => cases hr.symm.trans hrole

theorem valueLines_code {k : Purpose} {e : Expr} (h : valueLines fr f = .ok ls)
    (he : f.MakesFrom k e) : ∃ code, fr.code k e = .ok code := by
  rw [valueLines] at h
  cases he with
  | measure hr he =>
    simp only [hr, he] at h
    obtain ⟨code, hcode, -⟩ := (bind_eq_ok _ _ _).mp h
    exact ⟨code, hcode⟩
  | choice hr he =>
    simp only [hr, choiceLines] at h
    split at h
    next => cases h
    next listed hlisted =>
      obtain ⟨codes, hcodes, -⟩ := (bind_eq_ok _ _ _).mp h
      obtain ⟨code, -, hcode⟩ := forall₂_mem_left _ _ _ (mapM_eq_ok _ _ _ hcodes) e he
      obtain ⟨v, hv, -⟩ := (bind_eq_ok _ _ _).mp hcode
      exact ⟨v.code, code_of_expr fr e v hv⟩
  | input hr hd he =>
    simp only [hr, digestLines, hd, he] at h
    obtain ⟨code, hcode, -⟩ := (bind_eq_ok _ _ _).mp h
    exact ⟨code, hcode⟩
  | @caseMatch on e u cases default hr ht he =>
    simp only [hr, switchLines, ht] at h
    obtain ⟨arms, harms, -⟩ := (bind_eq_ok _ _ _).mp h
    obtain ⟨arm, -, harm⟩ := forall₂_mem_left _ _ _ (mapM_eq_ok _ _ _ harms) (e, u) he
    obtain ⟨v, hv, -⟩ := (bind_eq_ok _ _ _).mp harm
    exact ⟨v.code, code_of_expr fr _ v hv⟩
  | otherSize hr ht hs he =>
    simp only [hr, switchLines, ht] at h
    obtain ⟨arms, -, h⟩ := (bind_eq_ok _ _ _).mp h
    obtain ⟨rest, hrest, -⟩ := (bind_eq_ok _ _ _).mp h
    simp only [defaultLines, hs, Option.isSome_some, if_true] at hrest
    obtain ⟨size, hsize, -⟩ := (bind_eq_ok _ _ _).mp hrest
    exact sizeLines_code hsize hs he
  | fixed hr he =>
    simp only [hr] at h
    exact baseLines_code h hr (.fixed hr he)
  | size hr hd hs he =>
    simp only [hr] at h
    exact baseLines_code h hr (.size hr hd hs he)

end Made

theorem early_code {s : Settings} {m : Model} {ls : Lines} (h : draft s m = .ok ls) {t : TypeDef}
    (ht : t ∈ m.types) {fr : Frame} {k : Purpose} {e : Expr} (he : Early (.ofModel m) t fr k e) :
    ∃ code, fr.code k e = .ok code := by
  obtain ⟨statics, code, hstatics, hcode, -, -⟩ := draft_type h ht
  have field {f : Field} (hf : f ∈ t.fields) : ∃ guard body,
      guardLines (ownFrame (.ofModel m) t) f.id f.guard = .ok guard ∧
        fieldBody (ownFrame (.ofModel m) t) f = .ok body := by
    obtain ⟨method, hmethod, -⟩ := typeLines_field hcode hf
    obtain ⟨guard, body, hguard, hbody, -⟩ := fieldMethod_ok hmethod
    exact ⟨guard, body, hguard, hbody⟩
  cases he with
  | guard hf he =>
    obtain ⟨guard, -, hguard, -⟩ := field hf
    obtain ⟨v, hv, -⟩ := guardLines_ok (he ▸ hguard)
    exact ⟨v.code, code_of_expr _ _ v hv⟩
  | count hf hr hc =>
    obtain ⟨-, body, -, hbody⟩ := field hf
    obtain ⟨v, hv⟩ := fieldBody_count hbody hr hc
    exact ⟨v.code, code_of_expr _ _ v hv⟩
  | element hf he =>
    obtain ⟨value, hvalue, -⟩ := typeLines_element hcode hf
    exact valueLines_code hvalue he
  | instanceGuard hi hs he =>
    obtain ⟨method, hmethod, -⟩ := typeLines_instance hcode hi hs
    obtain ⟨guard, -, hguard, -⟩ := instanceMethod_ok hmethod
    obtain ⟨v, hv, -⟩ := guardLines_ok (he ▸ hguard)
    exact ⟨v.code, code_of_expr _ _ v hv⟩
  | instanceValue hi hs =>
    obtain ⟨method, hmethod, -⟩ := typeLines_instance hcode hi hs
    obtain ⟨-, v, -, hv, -⟩ := instanceMethod_ok hmethod
    exact ⟨v.code, code_of_expr _ _ v hv⟩
  | staticValue hi hs =>
    obtain ⟨v, hv, -⟩ := staticLines_ok hstatics hi hs
    exact ⟨v.code, code_of_expr _ _ v hv⟩

/-- The underscore stands for something in the elements of the fields that end with a condition, and
in those only. -/
theorem elementFrame_current (p : Plan) (t : TypeDef) (f : Field) :
    (f.EndsUntil ∧ (elementFrame (ownFrame p t) f).expr (.name Expr.current) =
      .ok (.ofStored "v" (elementType f))) ∨
    ¬ f.EndsUntil ∧ Keyed.get? (elementFrame (ownFrame p t) f).locals Expr.current = none := by
  unfold elementFrame
  cases hr : f.repeated with
  | none => exact .inr ⟨by simp [Field.EndsUntil, hr], rfl⟩
  | some r =>
    obtain ⟨form, lo, hi⟩ := r
    cases form with
    | «until» cond => exact .inl ⟨⟨_, cond, hr, rfl⟩, by rw [Frame.expr, exprCode]; rfl⟩
    | count e => exact .inr ⟨by simp [Field.EndsUntil, hr], rfl⟩
    | eos => exact .inr ⟨by simp [Field.EndsUntil, hr], rfl⟩

/-- An expression that the elements of a field are made from that ends with a condition, in the frame
of the elements: there the underscore is the variable `v`, which nothing has been put into. -/
def Unready (p : Plan) (t : TypeDef) (fr : Frame) (k : Purpose) (e : Expr) : Prop :=
  ∃ f ∈ t.fields, f.EndsUntil ∧ f.MakesFrom k e ∧ fr = elementFrame (ownFrame p t) f ∧
    fr.expr (.name Expr.current) = .ok (.ofStored "v" (elementType f))

/-- What comes before an element is compiled where the underscore stands for nothing, unless the
element is one that the condition is about. -/
theorem early_cases {p : Plan} {t : TypeDef} {fr : Frame} {k : Purpose} {e : Expr}
    (he : Early p t fr k e) :
    Keyed.get? fr.locals Expr.current = none ∨ Unready p t fr k e := by
  cases he with
  | @element f k e hf he =>
    rcases elementFrame_current p t f with ⟨huntil, hv⟩ | ⟨-, hfree⟩
    · exact .inr ⟨f, hf, huntil, he, rfl, hv⟩
    · exact .inl hfree
  | _ => exact .inl rfl

theorem mentions_current (e : Expr) :
    e.mentions Expr.current = true ↔ Expr.Within (.name Expr.current) e := by
  rw [← Expr.mem_names, Expr.mentions, List.contains_iff_mem]

/-- An expression with an underscore that comes before an element has no code, because of a part of it
that is not supported or that, without an underscore, fails itself; only what the elements of a
field are made from that ends with a condition is spared. So in a program every expression that
comes before an element has code, and none has an underscore but those. -/
theorem early_current (m : Model) :
    (∀ t fr k e, Early (.ofModel m) t fr k e → e.mentions Expr.current = true →
      Unready (.ofModel m) t fr k e ∨ ∃ err, fr.code k e = .error err ∧ fr.Blames e err) ∧
    ∀ s ls, draft s m = .ok ls → ∀ t ∈ m.types, ∀ fr k e, Early (.ofModel m) t fr k e →
      (∃ code, fr.code k e = .ok code) ∧
        (e.mentions Expr.current = true → Unready (.ofModel m) t fr k e) := by
  have rejects (t : TypeDef) (fr : Frame) (k : Purpose) (e : Expr) (he : Early (.ofModel m) t fr k e)
      (hin : e.mentions Expr.current = true) :
      Unready (.ofModel m) t fr k e ∨ ∃ err, fr.code k e = .error err ∧ fr.Blames e err := by
    rcases early_cases he with hfree | hun
    · exact .inr (code_unbound fr hfree k e ((mentions_current e).mp hin))
    · exact .inl hun
  refine ⟨rejects, fun s ls h t ht fr k e he => ?_⟩
  have hcode := early_code h ht he
  refine ⟨hcode, fun hin => (rejects t fr k e he hin).resolve_right ?_⟩
  rintro ⟨err, herr, -⟩
  obtain ⟨code, hcode⟩ := hcode
  cases hcode.symm.trans herr

/-- Bytes up to a zero, each of them the one that is being made. -/
def echo : SchemaSet :=
  ⟨⟨"a.ksy", .mk
    { head := { Meta.empty with id := "a" }
      seq := [{ id := "n", type := some (.named "u1"), valid := .str "_", repeated := "until",
                repeatUntil := .str "_ == 0" }] } []⟩, []⟩

/-- A field of integers that ends with a condition and is made from the underscore alone. -/
structure Field.Echoes (f : Field) (signed : Bool) (width : Nat) : Prop where
  role : f.elemRole = .base
  type : ∃ endian, f.type = .prim (.int signed width endian)
  fixed : f.fixed = some (.name Expr.current)
  ends : f.EndsUntil

theorem Field.Echoes.lines (p : Plan) (t : TypeDef) (f : Field) (signed : Bool) (width : Nat)
    (h : Field.Echoes f signed width) : valueLines (elementFrame (ownFrame p t) f) f =
      .ok ["x := " ++ (Value.ofStored "v" (.int signed width)).typed,
        "v := " ++ call (ValueType.int signed width).code ["x"]] := by
  obtain ⟨hrole, ⟨endian, htype⟩, hfixed, hends⟩ := h
  rcases elementFrame_current p t f with ⟨-, hv⟩ | ⟨hnot, -⟩
  · rw [elementType_int htype] at hv
    simp only [valueLines, hrole, baseLines, fixedCode, hfixed, hv, htype]
    change intLines f (some (.name Expr.current, .ofStored "v" (.int signed width))) = _
    have hint : (Value.ofStored "v" (.int signed width)).type = .word := rfl
    rw [intLines, elementType_int htype, hint]
    rfl
  · exact absurd hends hnot

def Field.echoes (f : Field) : Bool :=
  match f.elemRole, f.type, f.fixed, f.repeated with
  | .base, .prim (.int false 1 _), some (.name "_"), some ⟨.until _, _, _⟩ => true
  | _, _, _, _ => false

theorem Field.echoes_of (f : Field) (h : Field.echoes f = true) : Field.Echoes f false 1 := by
  unfold echoes at h
  split at h
  next endian cond lo hi hrole htype hfixed hrepeated =>
    exact ⟨hrole, ⟨endian, htype⟩, hfixed, _, cond, hrepeated, rfl⟩
  next => cases h

theorem echo_compiles : ∃ m ls, Model.compile {} echo = .ok m ∧ draft {} m = .ok ls ∧
    ∃ t ∈ m.types, ∃ f ∈ t.fields, Field.Echoes f false 1 := by
  obtain ⟨m, hm, hview⟩ := exists_ok_of_toOption_map (Model.compile {} echo)
    (fun m => (m.types.any fun t => t.fields.any Field.echoes, (draft {} m).toBool))
    (true, true) (by decide +kernel)
  obtain ⟨hfield, hdraft⟩ := Prod.mk.inj hview
  simp only [List.any_eq_true] at hfield
  obtain ⟨t, ht, f, hf, hechoes⟩ := hfield
  cases hd : draft {} m with
  | error e =>
    rw [hd] at hdraft
    cases hdraft
  | ok ls => exact ⟨m, ls, hm, hd, t, ht, f, hf, Field.echoes_of f hechoes⟩

/-- A program can read the variable of an element before it declares it. -/
theorem reads_undeclared : ∃ m ls, Model.compile {} echo = .ok m ∧ draft {} m = .ok ls ∧
    ∃ t ∈ m.types, ∃ fr, Early (.ofModel m) t fr .value (.name Expr.current) ∧
      fr.code .value (.name Expr.current) = .ok "int64(v)" ∧
      ["x := int64(v)", "v := uint8(x)"] <:+: ls := by
  obtain ⟨m, ls, hm, hd, t, ht, f, hf, hechoes⟩ := echo_compiles
  obtain ⟨-, code, -, hcode, -, hin⟩ := draft_type hd ht
  obtain ⟨value, hvalue, hvalueIn⟩ := typeLines_element hcode hf
  cases (hechoes.lines _ t f false 1).symm.trans hvalue
  refine ⟨m, ls, hm, hd, t, ht, _, .element hf (.fixed hechoes.role hechoes.fixed), ?_, ?_⟩
  · rcases elementFrame_current (.ofModel m) t f with ⟨-, hv⟩ | ⟨hnot, -⟩
    · obtain ⟨endian, htype⟩ := hechoes.type
      rw [code_of_expr _ _ _ hv, elementType_int htype]
      exact congrArg Except.ok (by decide)
    · exact absurd hechoes.ends hnot
  · have hlines : ["x := " ++ (Value.ofStored "v" (.int false 1)).typed,
        "v := " ++ call (ValueType.int false 1).code ["x"]] = ["x := int64(v)", "v := uint8(x)"] := by
      decide
    rw [← hlines]
    exact hvalueIn.trans hin

theorem early_current_echo : ∃ m ls, Model.compile {} echo = .ok m ∧ draft {} m = .ok ls ∧
    ∃ t ∈ m.types, ∃ fr, Early (.ofModel m) t fr .value (.name Expr.current) ∧
      Unready (.ofModel m) t fr .value (.name Expr.current) := by
  obtain ⟨m, ls, hm, hd, t, ht, f, hf, hechoes⟩ := echo_compiles
  have hearly : Early (.ofModel m) t (elementFrame (ownFrame (.ofModel m) t) f) .value
      (.name Expr.current) := .element hf (.fixed hechoes.role hechoes.fixed)
  obtain ⟨-, hspares⟩ := (early_current m).2 {} ls hd t ht _ _ _ hearly
  exact ⟨m, ls, hm, hd, t, ht, _, hearly, hspares ((mentions_current _).mpr .self)⟩

end Program

end FormatFuzz
