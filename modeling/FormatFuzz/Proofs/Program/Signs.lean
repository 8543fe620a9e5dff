import FormatFuzz.Proofs.Expr.Formation
import FormatFuzz.Proofs.Expr.Subterm
import FormatFuzz.Proofs.Keyed
import FormatFuzz.Proofs.Program.Concatenations

/-!
# Signs that stand apart

No two plus signs are fused in the code of an expression. Two minus signs are fused where a minus is
put in front of code that begins with one. A negative number alone has such code, and an integer that
`to_i` is asked for is handed on as it is; every other operand stands in parentheses, or begins with a
name, a digit, a quote or a bracket.
-/

set_option autoImplicit false

namespace FormatFuzz

namespace Expr

/-- An integer literal that is negative as a word, or the same handed on by `to_i`. -/
def isMinusInt : Expr → Bool
  | .int v => Word.wrap v < 0
  | .attr x id => id == "to_i" && x.isMinusInt
  | _ => false

def isMinus : Expr → Bool
  | .float x => x.isFinite && x.negative
  | e => e.isMinusInt

/-- Somewhere a minus is put in front of code that begins with one. -/
def Fuses (e : Expr) : Prop :=
  ∃ x, Within (.unary .neg x) e ∧ x.isMinus = true

theorem Fuses.mono {x e : Expr} (h : x.Fuses) (hx : Within x e) : e.Fuses := by
  obtain ⟨y, hy, hm⟩ := h
  exact ⟨y, hy.trans hx, hm⟩

theorem Formed.within {x e : Expr} (he : Formed e) (h : Within x e) : Formed x := by
  induction h with
  | self => exact he
  | operand _ ih =>
    cases he with
    | unary hx _ => exact ih hx
  | left _ ih =>
    cases he with
    | binary hx _ => exact ih hx
  | right _ ih =>
    cases he with
    | binary _ hy => exact ih hy
  | condition _ ih =>
    cases he with
    | cond hc _ _ => exact ih hc
  | consequent _ ih =>
    cases he with
    | cond _ ha _ => exact ih ha
  | alternative _ ih =>
    cases he with
    | cond _ _ hb => exact ih hb
  | object _ ih =>
    cases he with
    | attr hx _ => exact ih hx
  | indexed _ ih =>
    cases he with
    | index hx _ => exact ih hx
  | position _ ih =>
    cases he with
    | index _ hi => exact ih hi
  | element hy _ ih => exact ih (he.elements _ hy)

/-- In the tree of a text a minus is put in front of a negative number only where `to_i` hands it
on: a literal without `to_i` has taken the sign in. -/
theorem fuses_parse (src : String) (e : Expr) (h : parse src = .ok e) :
    e.Fuses ↔ ∃ y, Within (.unary .neg (.attr y "to_i")) e ∧ y.isMinusInt = true := by
  constructor
  · rintro ⟨x, hx, hminus⟩
    cases (formed_parse src e h).within hx with
    | unary hformed hliteral =>
      cases hformed with
      | float hunsigned => simp [isMinus, hunsigned.2] at hminus
      | int n => exact absurd ⟨rfl, rfl⟩ hliteral
      | @attr y id _ _ =>
        obtain ⟨rfl, hy⟩ : id = "to_i" ∧ y.isMinusInt = true := by
          simpa [isMinus, isMinusInt] using hminus
        exact ⟨y, hx, hy⟩
      | _ => cases hminus
  · rintro ⟨y, hwithin, hy⟩
    exact ⟨.attr y "to_i", hwithin, by simpa [isMinus, isMinusInt] using hy⟩

end Expr

namespace Program

variable {fused : Prop} {infer : Infer} {p : Plan} {v w : Value} {b : Bool}

theorem Frame.InScope.spelt_holder {m : Model} {f : Frame} (hf : f.InScope m) :
    Holder fused f.holder := by
  rcases hf.holder with h | h
  · exact .inl h
  · have hname : IsName "g" := isName_ofList ['g'] (by decide)
    rw [h]
    exact .inr ⟨(clean_name hname).mono (endsName_of_follows .encoder), hname.starts⟩

theorem spelt_nameCode {m : Model} {f : Frame} (hf : f.InScope m) (hp : Named f.plan) (id : String)
    (h : nameCode infer f id = .ok v) : v.Spelt fused false := by
  have hi : IsName "i" := isName_ofList ['i'] (by decide)
  have hv : IsName "v" := isName_ofList ['v'] (by decide)
  unfold nameCode at h
  split at h
  next w hw =>
    cases h
    rcases hf.locals _ (Keyed.mem_of_get? _ _ _ hw) with rfl | ⟨t, rfl⟩
    · exact Value.spelt_of_name (clean_name hi) hi.starts
    · exact Value.spelt_ofStored "v" t (clean_name hv) hv.starts
  next =>
    split at h
    · cases h
    · split at h
      · cases h
      · split at h
        · exact spelt_outerCode hf.spelt_holder h
        · exact spelt_memberCode hp hf.here hf.spelt_holder h

theorem attrCode_toI (x : Expr) (hv : v.type.isInt = true) (h : attrCode infer p x v "to_i" = .ok w) :
    w = v := by
  obtain ⟨code, type, untyped⟩ := v
  cases type with
  | int signed width =>
    cases h
    rfl
  | _ => cases hv

theorem isInt_of_isMinusInt (f : Frame) (e : Expr) (h : exprCode infer f e = .ok v)
    (hm : e.isMinusInt = true) : v.type.isInt = true := by
  fun_induction Expr.isMinusInt e generalizing v with
  | case1 n =>
    cases h
    rfl
  | case2 x id ih =>
    obtain ⟨hid, hx⟩ : id = "to_i" ∧ x.isMinusInt = true := by simpa using hm
    obtain ⟨w, hw, h⟩ := (bind_eq_ok _ _ _).mp h
    have hint := ih hw hx
    rw [hid] at h
    rwa [attrCode_toI x hint h]
  | case3 => cases hm

/-- Among expressions with the type of an integer only literals and what hands them on begin with a
minus sign. -/
theorem isMinus_of_isInt {f : Frame} (x : Expr) (h : exprCode infer f x = .ok v)
    (hv : v.type.isInt = true) : x.isMinus = x.isMinusInt := by
  cases x with
  | float y =>
    cases h
    rw [Value.type_ofDouble y] at hv
    cases hv
  | _ => rfl

section

variable {m : Model} {f : Frame}

mutual

/-- The code of an expression is spelt with a sign exactly if the expression begins with one, and
signs are fused in it only where a minus is put in front of one. -/
theorem spelt_exprCode (hf : f.InScope m) (hp : Named f.plan) : (e : Expr) → (v : Value) →
    exprCode infer f e = .ok v → v.Spelt e.Fuses e.isMinus
  | .int n, v, h => by
    cases h
    exact Value.spelt_ofInt n
  | .float x, v, h => by
    cases h
    exact Value.spelt_ofDouble x
  | .str s, v, h => by
    cases h
    exact Value.spelt_of_anything (clean_quoted s) (starts_quoted s)
  | .bool c, v, h => by
    cases h
    have hname : IsName (if c then "true" else "false") := by
      cases c
      · exact isName_ofList ['f', 'a', 'l', 's', 'e'] (by decide)
      · exact isName_ofList ['t', 'r', 'u', 'e'] (by decide)
    exact Value.spelt_of_name (clean_name hname) hname.starts
  | .name id, v, h => spelt_nameCode hf hp id h
  | .member path id, v, h => by
    rw [exprCode] at h
    split at h
    next e k _ =>
      cases h
      have hname := isName_memberConst e k.id
      exact Value.spelt_of_name (clean_name hname) hname.starts
    next => cases h
  | .attr x id, w, h => by
    obtain ⟨v, hv, h⟩ := (bind_eq_ok _ _ _).mp h
    have hx : v.Spelt (Expr.attr x id).Fuses x.isMinus :=
      (spelt_exprCode hf hp x v hv).mono fun hfused => hfused.mono (.object .self)
    have hhanded (hint : v.type.isInt = true) (hid : id = "to_i") (hw : w = v) :
        w.Spelt (Expr.attr x id).Fuses (Expr.attr x id).isMinus := by
      have hsame : (Expr.attr x id).isMinus = x.isMinus := by
        rw [isMinus_of_isInt x hv hint, hid]
        simp [Expr.isMinus, Expr.isMinusInt]
      rw [hsame, hw]
      exact hx
    cases hm : (Expr.attr x id).isMinus with
    | true =>
      obtain ⟨hid, hminus⟩ : id = "to_i" ∧ x.isMinusInt = true := by
        simpa [Expr.isMinus, Expr.isMinusInt] using hm
      have hint := isInt_of_isMinusInt f x hv hminus
      exact hm ▸ hhanded hint hid (attrCode_toI x hint (hid ▸ h))
    | false =>
      rcases spelt_attrCode hp x id hx h with ⟨hw, hid, hint⟩ | hw
      · exact hm ▸ hhanded hint hid hw
      · exact hw
  | .index x i, a, h => by
    obtain ⟨v, hv, h⟩ := (bind_eq_ok _ _ _).mp h
    obtain ⟨w, hw, h⟩ := (bind_eq_ok _ _ _).mp h
    exact spelt_indexCode _ ((spelt_exprCode hf hp x v hv).mono fun hx => hx.mono (.indexed .self))
      ((spelt_exprCode hf hp i w hw).mono fun hi => hi.mono (.position .self)) h
  | .unary op x, a, h => by
    obtain ⟨v, hv, h⟩ := (bind_eq_ok _ _ _).mp h
    refine spelt_unaryCode _ op ((spelt_exprCode hf hp x v hv).mono fun hx => hx.mono (.operand .self))
      (fun hop hminus => ⟨x, ?_, hminus⟩) h
    rw [hop]
    exact .self
  | .binary op x y, a, h => by
    obtain ⟨v, hv, h⟩ := (bind_eq_ok _ _ _).mp h
    obtain ⟨w, hw, h⟩ := (bind_eq_ok _ _ _).mp h
    exact spelt_binaryCode _ op ((spelt_exprCode hf hp x v hv).mono fun hx => hx.mono (.left .self))
      ((spelt_exprCode hf hp y w hw).mono fun hy => hy.mono (.right .self)) h
  | .cond c x y, a, h => by
    obtain ⟨u, hu, h⟩ := (bind_eq_ok _ _ _).mp h
    obtain ⟨-, h⟩ := guard_eq_ok _ _ _ _ h
    obtain ⟨v, hv, h⟩ := (bind_eq_ok _ _ _).mp h
    obtain ⟨w, hw, h⟩ := (bind_eq_ok _ _ _).mp h
    exact spelt_condCode _ ((spelt_exprCode hf hp c u hu).mono fun hc => hc.mono (.condition .self))
      ((spelt_exprCode hf hp x v hv).mono fun hx => hx.mono (.consequent .self)).clean
      ((spelt_exprCode hf hp y w hw).mono fun hy => hy.mono (.alternative .self)).clean h
  | .list xs, v, h => by
    obtain ⟨codes, hcodes, h⟩ := (bind_eq_ok _ _ _).mp h
    obtain rfl := (pure_eq_ok _ _).mp h
    have hclean := clean_listCodes hf hp (.list xs) xs codes hcodes
    refine Value.spelt_of_anything (clean_byteList codes fun c hc => (hclean c hc).weaken ?_) ?_
    · rintro ⟨y, hy, hfused⟩
      exact hfused.mono (.element hy .self)
    · exact Starts.append (Starts.append ⟨'[', _, rfl, by decide⟩)
  | .absent, v, h => by cases h

theorem clean_listCodes (hf : f.InScope m) (hp : Named f.plan) (whole : Expr) :
    (xs : List Expr) → (codes : List String) → listCodes infer f whole xs = .ok codes →
      ∀ c ∈ codes, Clean closes (∃ y ∈ xs, Expr.Fuses y) c
  | [], codes, h => by
    cases h
    simp
  | x :: xs, codes, h => by
    obtain ⟨v, hv, h⟩ := (bind_eq_ok _ _ _).mp h
    obtain ⟨code, hcode, h⟩ := (bind_eq_ok _ _ _).mp h
    obtain ⟨rest, hrest, h⟩ := (bind_eq_ok _ _ _).mp h
    obtain rfl := (pure_eq_ok _ _).mp h
    have hx := clean_elementCode whole x code (spelt_exprCode hf hp x v hv) hcode
    refine List.forall_mem_cons.mpr ⟨hx.weaken fun h => ⟨x, List.mem_cons_self, h⟩, fun c hc => ?_⟩
    refine (clean_listCodes hf hp whole xs rest hrest c hc).weaken ?_
    rintro ⟨y, hy, hfused⟩
    exact ⟨y, List.mem_cons_of_mem x hy, hfused⟩

end

end

section

variable {m : Model} {f : Frame}

theorem clean_fieldBytes (hf : f.InScope m) (hp : Named f.plan) (e : Expr) (code : String)
    (h : fieldBytes? f e = .ok (some code)) : Clean closes e.Fuses code := by
  have hmem (t : TypeDef) (id : String) (hsome : (t.field? id).isSome = true) : id ∈ memberIds t := by
    obtain ⟨g, hg⟩ := Option.isSome_iff_exists.mp hsome
    exact (find?_memberIds t id).1 g hg
  unfold fieldBytes? at h
  split at h
  next id =>
    split at h
    next hcond =>
      cases h
      simp only [Bool.and_eq_true] at hcond
      exact clean_accessor hp hf.here (hmem _ _ hcond.2) hf.spelt_holder
    next => cases h
  next x id =>
    obtain ⟨v, hv, h⟩ := (bind_eq_ok _ _ _).mp h
    have hx : v.Spelt (Expr.attr x id).Fuses x.isMinus :=
      (spelt_exprCode hf hp x v hv).mono fun hfused => hfused.mono (.object .self)
    split at h
    next path htype =>
      split at h
      next t ht =>
        have h := (pure_eq_ok _ _).mp h
        split at h
        next hsome =>
          cases h
          exact clean_accessor hp (List.mem_of_find?_eq_some ht) (hmem _ _ hsome)
            (.inr (clean_object hx (by rw [htype]; rfl)))
        next => cases h
      next => cases h
    next => cases h
  next => cases h

theorem clean_leafBytes (hf : f.InScope m) (hp : Named f.plan) (e : Expr) (code : String)
    (h : leafBytes f e = .ok code) : Clean closes e.Fuses code := by
  obtain ⟨field, hfield, h⟩ := (bind_eq_ok _ _ _).mp h
  cases field with
  | some own =>
    obtain rfl := (pure_eq_ok _ _).mp h
    exact clean_fieldBytes hf hp e own hfield
  | none =>
    obtain ⟨v, hv, h⟩ := (bind_eq_ok _ _ _).mp h
    exact clean_bytesOf e (spelt_exprCode hf hp e v hv) code h

theorem clean_bytes (hf : f.InScope m) (hp : Named f.plan) (e : Expr) (code : String)
    (h : f.bytes e = .ok code) : Clean closes e.Fuses code := by
  rw [bytes_eq hf hp e] at h
  obtain ⟨codes, hcodes, rfl⟩ := (map_eq_ok _ _ _).mp h
  have hclean : ∀ c ∈ codes, Clean closes e.Fuses c := by
    intro c hc
    obtain ⟨x, hx, hc⟩ := forall₂_mem_right _ _ _ (mapM_eq_ok _ _ _ hcodes) c hc
    exact (clean_leafBytes hf hp x c hc).weaken fun hfused =>
      hfused.mono (e.within_of_mem_addends x hx)
  unfold concatenation
  split
  next => simpa using hclean
  next => exact (clean_call "fzrt.Concat" (by decide) codes hclean).mono fun _ _ => rfl

end

/-- Code is read as tokens, no two plus signs are fused in it, and two minus signs only if some
condition holds. -/
def ReadsApart (fused : Prop) (code : String) : Prop :=
  ∃ line, tokens code = some line ∧ "++" ∉ line.map Piece.token ∧
    ("--" ∈ line.map Piece.token → fused)

theorem Clean.readsApart {ends : Char → Bool} {code : String} (h : Clean ends fused code) :
    ReadsApart fused code := by
  obtain ⟨ts, hts, hplus, hminus⟩ := h
  obtain ⟨line, hline, rfl⟩ := hts.tokens
  exact ⟨line, hline, hplus, hminus⟩

/-- In every scope of a program the code of an expression has no fused signs but where a minus is put
in front of code that begins with one. That is the code of a negative number; the tree of a text has
a minus in front of one only where `to_i` hands it on, and there the signs are fused. -/
theorem signs_apart (o : Options) (set : SchemaSet) (m : Model) (h : Model.compile o set = .ok m)
    (hn : (structNames m).Nodup) (f : Frame) (hf : f.InScope m) (e : Expr) :
    (∀ v, f.expr e = .ok v →
      ReadsApart e.Fuses v.code ∧ ReadsApart e.Fuses v.typed ∧
      (v.code.toList.head? = some '-' ↔ e.isMinus = true) ∧
      ∀ x, e = .unary .neg x → x.isMinus = true →
        ∃ line, tokens v.code = some line ∧ "--" ∈ line.map Piece.token) ∧
    (∀ code, f.bytes e = .ok code → ReadsApart e.Fuses code) ∧
    ∀ src, Expr.parse src = .ok e →
      (e.Fuses ↔ ∃ y, Expr.Within (.unary .neg (.attr y "to_i")) e ∧ y.isMinusInt = true) := by
  have hp : Named f.plan := by
    rw [hf.plan]
    exact named_ofModel o set m h (nodup_paths m hn)
  refine ⟨fun v hv => ?_, fun code hcode => (clean_bytes hf hp e code hcode).readsApart,
    fun src hsrc => Expr.fuses_parse src e hsrc⟩
  have hspelt := spelt_exprCode hf hp e v hv
  refine ⟨hspelt.clean.readsApart, (Value.clean_typed hspelt.clean).readsApart, hspelt.begins, ?_⟩
  rintro x rfl hx
  obtain ⟨w, hw, hcode⟩ := (bind_eq_ok _ _ _).mp hv
  have hoperand : w.Spelt x.Fuses true := hx ▸ spelt_exprCode hf hp x w hw
  obtain ⟨ts, hts, hmem⟩ := fused_unaryCode _ hoperand hcode
  obtain ⟨line, hline, rfl⟩ := hts.tokens
  exact ⟨line, hline, hmem⟩

/-- A negative number that is handed on by `to_i` and given another sign. -/
def handed : SchemaSet :=
  ⟨⟨"a.ksy", .mk
    { head := { Meta.empty with id := "a" }
      instances := [("i", { value := .str "-(-5).to_i" })] } []⟩, []⟩

def handedValue : Expr :=
  .unary .neg (.attr (.int (-5)) "to_i")

def Instance.isHanded (i : Instance) : Bool :=
  match i.isStatic, i.value with
  | true, .unary .neg (.attr (.int n) id) => n == -5 && id == "to_i"
  | _, _ => false

theorem handed_compiles : ∃ m ls, Model.compile {} handed = .ok m ∧ draft {} m = .ok ls ∧
    ∃ t ∈ m.types, ∃ i ∈ t.instances, i.isStatic = true ∧ i.value = handedValue := by
  obtain ⟨m, hm, hview⟩ := exists_ok_of_toOption_map (Model.compile {} handed)
    (fun m => (m.types.any fun t => t.instances.any Instance.isHanded, (draft {} m).toBool))
    (true, true) (by decide +kernel)
  obtain ⟨hinstance, hdraft⟩ := Prod.mk.inj hview
  simp only [List.any_eq_true] at hinstance
  obtain ⟨t, ht, i, hi, hview⟩ := hinstance
  cases hd : draft {} m with
  | error e =>
    rw [hd] at hdraft
    cases hdraft
  | ok ls =>
    refine ⟨m, ls, hm, hd, t, ht, i, hi, ?_⟩
    unfold Instance.isHanded at hview
    split at hview
    next hs hv =>
      simp only [Bool.and_eq_true, beq_iff_eq] at hview
      obtain ⟨rfl, rfl⟩ := hview
      exact ⟨hs, hv⟩
    next => cases hview

theorem parse_handed : Expr.parse "-(-5).to_i" = .ok handedValue := by
  cbv

theorem expr_handed (f : Frame) : f.expr handedValue = .ok ⟨"(--5)", .word, true⟩ := rfl

/-- A program can be drafted with two minus signs that are one token. -/
theorem signs_fuse : ∃ m ls, Model.compile {} handed = .ok m ∧ draft {} m = .ok ls ∧
    ∃ t ∈ m.types, ∃ i ∈ t.instances, Expr.parse "-(-5).to_i" = .ok i.value ∧
      (Plan.ofModel m).names.static t i.id ++ "\t= int64((--5))" ∈ ls ∧
      ∃ line, tokens "int64((--5))" = some line ∧ "--" ∈ line.map Piece.token := by
  obtain ⟨m, ls, hm, hd, t, ht, i, hi, hs, hv⟩ := handed_compiles
  refine ⟨m, ls, hm, hd, t, ht, i, hi, hv ▸ parse_handed, ?_, ?_⟩
  · obtain ⟨statics, code, hstatics, -, hsub, -⟩ := draft_type hd ht
    obtain ⟨v, hcode, hline⟩ := staticLines_ok hstatics hi hs
    rw [hv] at hcode
    obtain rfl := Except.ok.inj ((expr_handed _).symm.trans hcode)
    have htyped : "\t= " ++ (⟨"(--5)", .word, true⟩ : Value).typed = "\t= int64((--5))" := by
      decide
    rw [String.append_assoc, htyped] at hline
    exact hsub hline
  · have htokens : (tokens "int64((--5))").map (List.map Piece.token)
        = some ["int64", "(", "(", "--", "5", ")", ")"] := by decide +kernel
    obtain ⟨line, hline, htexts⟩ := Option.map_eq_some_iff.mp htokens
    exact ⟨line, hline, htexts ▸ by decide⟩

theorem signs_apart_handed : ∃ m ls, Model.compile {} handed = .ok m ∧ draft {} m = .ok ls ∧
    ∃ (f : Frame) (e : Expr) (v : Value), f.InScope m ∧ Expr.parse "-(-5).to_i" = .ok e ∧
      f.expr e = .ok v ∧ e.Fuses ∧ ReadsApart e.Fuses v.code ∧
      ∃ line, tokens v.code = some line ∧ "--" ∈ line.map Piece.token := by
  obtain ⟨m, ls, hm, hd, t, ht, -⟩ := handed_compiles
  have hn : (structNames m).Nodup := nodup_structNames m (draft_ok {} m ls hd).1
  have hf : Frame.InScope m ⟨.ofModel m, t, "", []⟩ := .static ht
  have hv := expr_handed ⟨.ofModel m, t, "", []⟩
  have hminus : (Expr.attr (.int (-5)) "to_i").isMinus = true := by decide
  obtain ⟨hcode, -, hsource⟩ := signs_apart {} handed m hm hn _ hf handedValue
  obtain ⟨hreads, -, -, hfused⟩ := hcode _ hv
  exact ⟨m, ls, hm, hd, _, _, _, hf, parse_handed, hv,
    (hsource _ parse_handed).mpr ⟨.int (-5), .self, by decide⟩, hreads, hfused _ rfl hminus⟩

end Program

end FormatFuzz
