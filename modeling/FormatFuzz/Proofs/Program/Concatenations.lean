import FormatFuzz.Proofs.Expr.Subterm
import FormatFuzz.Proofs.Keyed
import FormatFuzz.Proofs.Path
import FormatFuzz.Proofs.Program.Methods
import FormatFuzz.Proofs.Program.Spelling
import FormatFuzz.Proofs.Quoted

/-!
# Concatenations

The encoded form of a sum is one call with the forms of its operands, however the sum is nested. The
call is put together from the calls for the two sides, which are cut open as texts. What is cut open
is always the call of a sum: no other encoded form begins like one.
-/

set_option autoImplicit false

namespace FormatFuzz

namespace Expr

/-- The operands of a sum from left to right, however it is nested; anything else is the only
operand of itself. -/
def addends : Expr → List Expr
  | .binary op x y => if op = .add then x.addends ++ y.addends else [.binary op x y]
  | e => [e]

def isSum : Expr → Bool
  | .binary op _ _ => op = .add
  | _ => false

theorem addends_of_not_sum (e : Expr) (h : e.isSum = false) : e.addends = [e] := by
  cases e with
  | binary op x y => rw [addends, if_neg (by simpa [isSum] using h)]
  | _ => rfl

theorem addends_ne_nil (e : Expr) : e.addends ≠ [] := by
  fun_induction addends e with
  | case1 x y ihx ihy => simp [ihx]
  | case2 | case3 => simp

theorem not_sum_of_mem_addends (e : Expr) : ∀ x ∈ e.addends, x.isSum = false := by
  fun_induction addends e with
  | case1 x y ihx ihy => exact List.forall_mem_append.mpr ⟨ihx, ihy⟩
  | case2 op x y hop => simpa [isSum] using hop
  | case3 e hnot =>
    cases e with
    | binary op x y => exact absurd rfl (hnot op x y)
    | _ => simp [isSum]

theorem within_of_mem_addends (e : Expr) : ∀ x ∈ e.addends, Within x e := by
  fun_induction addends e with
  | case1 x y ihx ihy =>
    exact List.forall_mem_append.mpr
      ⟨fun z hz => .left (ihx z hz), fun z hz => .right (ihy z hz)⟩
  | case2 | case3 => simpa using Within.self

end Expr

namespace Program

def Apart (code : String) : Prop :=
  ¬ "fzrt.Concat(".toList <+: code.toList

instance (code : String) : Decidable (Apart code) :=
  inferInstanceAs (Decidable (¬ _))

theorem apart_of_undivided {code : String} (h : '(' ∉ code.toList) : Apart code :=
  fun hbegins => h (hbegins.subset (by decide))

theorem apart_of_head {code : String} {c : Char} (h : code.toList.head? = some c) (hc : c ≠ 'f') :
    Apart code := by
  rintro ⟨rest, hrest⟩
  rw [← hrest] at h
  exact hc (Option.some.inj h).symm

theorem Apart.append_of_mem {s : String} {c : Char} (h : Apart s) (hc : c ∈ s.toList)
    (hnot : c ∉ "fzrt.Concat(".toList) (t : String) : Apart (s ++ t) := by
  intro hbegins
  rw [String.toList_append] at hbegins
  rcases List.prefix_or_prefix_of_prefix hbegins (List.prefix_append _ _) with hs | hs
  · exact h hs
  · exact hnot (hs.subset hc)

theorem Apart.append {s t : String} (h : Apart s) (ht : '(' ∉ t.toList) : Apart (s ++ t) := by
  intro hbegins
  rw [String.toList_append] at hbegins
  rcases List.prefix_or_prefix_of_prefix hbegins (List.prefix_append _ _) with hs | ⟨rest, hrest⟩
  · exact h hs
  · rw [← hrest, List.prefix_append_right_inj] at hbegins
    rcases List.eq_nil_or_concat' rest with rfl | ⟨front, c, rfl⟩
    · exact h ⟨[], by simpa using hrest.symm⟩
    · have hend : "fzrt.Concat(".toList.getLast? = some '(' := by decide
      rw [← hrest, ← List.append_assoc, List.getLast?_concat] at hend
      obtain rfl := Option.some.inj hend
      exact ht (hbegins.subset (by simp))

theorem call_chars (f : String) (args : List String) :
    (call f args).toList = f.toList ++ '(' :: ((Text.join ", " args).toList ++ [')']) := by
  simp [call]

theorem apart_call (f : String) (args : List String) (hf : '(' ∉ f.toList)
    (hne : f ≠ "fzrt.Concat") : Apart (call f args) := by
  have hname : '(' ∉ "fzrt.Concat".toList := by decide
  have hparts : "fzrt.Concat(".toList = "fzrt.Concat".toList ++ ['('] := by decide
  have hstop (s t : List Char) (hs : '(' ∉ s) : (s ++ '(' :: t).takeWhile (· != '(') = s := by
    rw [List.takeWhile_append_of_pos (by grind)]
    simp
  rintro ⟨rest, hrest⟩
  rw [call_chars, hparts, List.append_assoc, List.singleton_append] at hrest
  have hsame := congrArg (List.takeWhile (· != '(')) hrest
  rw [hstop _ _ hname, hstop _ _ hf] at hsame
  exact hne (String.toList_injective hsame.symm)

theorem IsName.undivided {s : String} (h : IsName s) : '(' ∉ s.toList :=
  fun hmem => absurd (h.text _ hmem) (by decide)

theorem IsName.apart {s : String} (h : IsName s) : Apart s :=
  apart_of_undivided h.undivided

theorem Apart.point {holder name : String} (h : Apart holder) (hname : '(' ∉ name.toList) :
    Apart (holder ++ "." ++ name) :=
  (h.append (by decide)).append hname

theorem Apart.bytes {code : String} (h : Apart code) : Apart (code ++ "Bytes()") := by
  have hname : Apart (code ++ "Bytes") := h.append (by decide)
  have hcode : code ++ "Bytes()" = code ++ "Bytes" ++ "()" := by
    rw [String.append_assoc]
    rfl
  rw [hcode]
  exact hname.append_of_mem (c := 's') (by simp) (by decide) _

section

variable {infer : Infer} {p : Plan} {v w : Value}

theorem Value.apart_ofStored {code : String} (h : Apart code) (t : ValueType) :
    Apart (Value.ofStored code t).code := by
  unfold Value.ofStored
  split
  · dsimp only
    split
    · exact h
    · exact apart_call "int64" _ (by decide) (by decide)
  · dsimp only
    split
    · exact h
    · exact apart_call "float64" _ (by decide) (by decide)
  · exact h

theorem Value.apart_ofField {code : String} (h : Apart code) (f : Field) :
    Apart (Value.ofField code f).code := by
  unfold Value.ofField
  split
  · exact h
  · exact Value.apart_ofStored h _

theorem apart_memberCode (hp : Named p) {t : TypeDef} (ht : t ∈ p.types) {holder id : String}
    (hh : Apart holder) (h : memberCode infer p.names holder t id = .ok v) : Apart v.code := by
  obtain ⟨hfield, hinstance⟩ := find?_memberIds t id
  have hof (code : String) (i : Instance) (hcode : Apart code)
      (h : (do return ⟨code, ← infer t i, false⟩ : Except Error Value) = .ok v) : Apart v.code := by
    obtain ⟨type, -, h⟩ := (bind_eq_ok _ _ _).mp h
    obtain rfl := (pure_eq_ok _ _).mp h
    exact hcode
  unfold memberCode at h
  dsimp only at h
  split at h
  next i hi =>
    obtain ⟨hi, -⟩ := Option.filter_eq_some_iff.mp hi
    exact hof _ i (hp.static t ht id (hinstance i hi)).apart h
  next =>
    split at h
    next => cases h
    next =>
      split at h
      next f hf =>
        cases h
        exact Value.apart_ofField (hh.point (hp.member t ht id (hfield f hf)).undivided) f
      next i _ hi => exact hof _ i (hh.point (hp.member t ht id (hinstance i hi)).undivided) h
      next => cases h

theorem apart_outerCode {m : Model} {holder id : String} {here : TypePath} (hh : Apart holder)
    (h : outerCode m holder here id = .ok v) : Apart v.code := by
  unfold outerCode at h
  split at h
  · cases h
  · split at h
    · cases h
      exact hh.append (by decide)
    · split at h
      · cases h
        exact hh.append (by decide)
      · cases h

theorem apart_builtinAttr (id : String) (h : builtinAttr v id = some w)
    (hw : w.type.isNumeric = false) : Apart w.code := by
  have hpick (f : String) (hf : '(' ∉ f.toList) (hne : f ≠ "fzrt.Concat") (t : ValueType) :
      Apart (Value.ofStored (call f [v.code]) t).code :=
    Value.apart_ofStored (apart_call f _ hf hne) t
  unfold builtinAttr at h
  dsimp only at h
  split at h
  case h_3 =>
    split at h <;> cases h
    · exact hpick "fzrt.First" (by decide) (by decide) _
    · cases hw
  case h_4 =>
    split at h <;> cases h
    · exact hpick "fzrt.Last" (by decide) (by decide) _
    · cases hw
  case h_5 =>
    cases h
    exact apart_call "strconv.FormatInt" _ (by decide) (by decide)
  case h_8 ht =>
    cases h
    rw [ht] at hw
    cases hw
  case h_10 =>
    split at h
    · split at h <;> cases h <;> cases hw
    · cases h
  all_goals
    cases h
    cases hw

theorem apart_attrCode (hp : Named p) (x : Expr) (id : String)
    (hv : ∀ path, v.type = .object path → Apart v.code) (h : attrCode infer p x v id = .ok w)
    (hw : w.type.isNumeric = false) : Apart w.code := by
  unfold attrCode at h
  extract_lets builtin at h
  have hbuiltin (h : builtin = .ok w) : Apart w.code := by
    unfold builtin at h
    split at h
    next hattr =>
      cases h
      exact apart_builtinAttr id hattr hw
    next => cases h
  split at h
  next path htype =>
    split at h
    next t ht =>
      split at h
      · exact apart_memberCode hp (List.mem_of_find?_eq_some ht) (hv path htype) h
      · split at h
        · exact apart_outerCode (hv path htype) h
        · exact hbuiltin h
    next => exact hbuiltin h
  next => exact hbuiltin h

theorem apart_indexCode {i : Value} (e : Expr) (h : indexCode e v i = .ok w) : Apart w.code := by
  unfold indexCode at h
  split at h
  · cases h
  · dsimp only at h
    have hat : Apart (call "fzrt.At" [v.code, i.code]) := apart_call _ _ (by decide) (by decide)
    split at h <;> cases h
    · exact Value.apart_ofStored hat _
    · exact apart_call "int64" _ (by decide) (by decide)

theorem apart_unaryCode (e : Expr) (op : UnaryOp) (h : unaryCode e op v = .ok w) :
    Apart w.code := by
  have hsigned (sign : String) (hs : sign.toList.head? = some '(') :
      Apart (sign ++ v.code ++ ")") := by
    refine apart_of_head (c := '(') ?_ (by decide)
    simp [List.head?_append, hs]
  unfold unaryCode at h
  split at h <;> cases h <;> exact hsigned _ rfl

theorem apart_between (op : BinaryOp) (a b : Value) (t : ValueType) (untyped : Bool) :
    Apart (between op a b t untyped).code := by
  refine apart_of_head (c := '(') ?_ (by decide)
  simp [between]

theorem apart_divisionCode (op : BinaryOp) (a b : Value) (untyped : Bool) :
    Apart (divisionCode op a b untyped).code := by
  unfold divisionCode
  split
  · split
    · exact apart_call "math.Mod" _ (by decide) (by decide)
    · exact apart_between op a b _ untyped
  · dsimp only
    split
    · exact apart_call "fzrt.Mod" _ (by decide) (by decide)
    · exact apart_call "fzrt.Div" _ (by decide) (by decide)

theorem apart_binaryCode {a b : Value} (e : Expr) (op : BinaryOp) (h : binaryCode e op a b = .ok w)
    (hw : op = .add → w.type ≠ .bytes) : Apart w.code := by
  unfold binaryCode at h
  generalize Value.promote a b = xy at h
  obtain ⟨x, y⟩ := xy
  dsimp only at h
  have hbetween (c : Bool) (x y : Value) (t : ValueType)
      (h : (if c = true then .ok (between op x y t (a.untyped && b.untyped))
        else .error (.expr e (.binary op a.type b.type)) : Except Error Value) = .ok w) :
      Apart w.code := by
    split at h
    · cases h
      exact apart_between op x y _ _
    · cases h
  split at h
  next =>
    cases h
    exact apart_between op a b _ _
  next hop _ _ =>
    cases h
    have hadd : op = .add := by cases op <;> first | rfl | cases hop
    exact absurd rfl (hw hadd)
  next => exact hbetween _ x y _ h
  next => exact hbetween _ x y _ h
  next =>
    split at h
    · cases h
      exact apart_divisionCode op x y _
    · cases h
  next => exact hbetween _ a b _ h
  next =>
    cases h
    exact apart_between op a b _ _
  next => cases h
  next =>
    cases h
    exact apart_between op a b _ _
  next =>
    cases h
    exact apart_between op a b _ _
  next =>
    cases h
    refine apart_of_head (c := '(') ?_ (by decide)
    simp
  next => exact hbetween _ x y _ h

theorem apart_condCode {c a b : Value} (e : Expr) (h : condCode e c a b = .ok w) :
    Apart w.code := by
  unfold condCode at h
  dsimp only at h
  split at h
  · cases h
  · cases h
    exact apart_call "fzrt.If" _ (by decide) (by decide)

end

section

variable {infer : Infer} {m : Model} {f : Frame} (hf : f.InScope m) (hp : Named f.plan)

include hf

theorem Frame.InScope.apart_holder : Apart f.holder := by
  rcases hf.holder with h | h <;> rw [h] <;> decide

include hp

theorem apart_nameCode {id : String} {v : Value} (h : nameCode infer f id = .ok v) :
    Apart v.code := by
  unfold nameCode at h
  split at h
  next w hw =>
    cases h
    rcases hf.locals _ (Keyed.mem_of_get? _ _ _ hw) with rfl | ⟨t, rfl⟩
    · exact apart_of_undivided (by decide)
    · exact Value.apart_ofStored (apart_of_undivided (by decide)) t
  next =>
    split at h
    · cases h
    · split at h
      · cases h
      · split at h
        · exact apart_outerCode hf.apart_holder h
        · exact apart_memberCode hp hf.here hf.apart_holder h

/-- Code begins like a concatenation only if it is one of a sum of bytes. The code of a number does
not stand in front of anything that has an encoded form, so it is left out. -/
theorem apart_exprCode : (e : Expr) → (v : Value) → exprCode infer f e = .ok v →
    v.type.isNumeric = false → (e.isSum = true → v.type ≠ .bytes) → Apart v.code
  | .int n, v, h, hn, _ => by
    cases h
    cases hn
  | .float x, v, h, hn, _ => by
    cases h
    rw [ValueType.isNumeric, Value.type_ofDouble x] at hn
    cases hn
  | .str s, v, h, _, _ => by
    cases h
    exact apart_of_head (congrArg List.head? (Text.toList_quoted s)) (by decide)
  | .bool b, v, h, _, _ => by
    cases h
    cases b <;> decide
  | .name id, v, h, _, _ => apart_nameCode hf hp h
  | .member path id, v, h, hn, _ => by
    rw [exprCode] at h
    split at h
    · cases h
      cases hn
    · cases h
  | .attr x id, w, h, hn, _ => by
    obtain ⟨v, hv, h⟩ := (bind_eq_ok _ _ _).mp h
    refine apart_attrCode hp x id (fun path htype => ?_) h hn
    exact apart_exprCode x v hv (by rw [htype]; rfl) (by simp [htype])
  | .index x i, w, h, _, _ => by
    obtain ⟨v, -, h⟩ := (bind_eq_ok _ _ _).mp h
    obtain ⟨k, -, h⟩ := (bind_eq_ok _ _ _).mp h
    exact apart_indexCode _ h
  | .unary op x, w, h, _, _ => by
    obtain ⟨v, -, h⟩ := (bind_eq_ok _ _ _).mp h
    exact apart_unaryCode _ op h
  | .binary op x y, w, h, _, hs => by
    obtain ⟨a, -, h⟩ := (bind_eq_ok _ _ _).mp h
    obtain ⟨b, -, h⟩ := (bind_eq_ok _ _ _).mp h
    exact apart_binaryCode _ op h fun hop => hs (decide_eq_true hop)
  | .cond c x y, w, h, _, _ => by
    obtain ⟨u, -, h⟩ := (bind_eq_ok _ _ _).mp h
    obtain ⟨-, h⟩ := guard_eq_ok _ _ _ _ h
    obtain ⟨a, -, h⟩ := (bind_eq_ok _ _ _).mp h
    obtain ⟨b, -, h⟩ := (bind_eq_ok _ _ _).mp h
    exact apart_condCode _ h
  | .list xs, v, h, _, _ => by
    obtain ⟨codes, -, h⟩ := (bind_eq_ok _ _ _).mp h
    obtain rfl := (pure_eq_ok _ _).mp h
    refine apart_of_head (c := '[') ?_ (by decide)
    simp [byteList]
  | .absent, v, h, _, _ => by cases h

theorem apart_fieldBytes (e : Expr) (code : String) (h : fieldBytes? f e = .ok (some code)) :
    Apart code := by
  have haccessor {t : TypeDef} {id holder : String} (ht : t ∈ f.plan.types)
      (hsome : (t.field? id).isSome = true) (hh : Apart holder) :
      Apart (accessor f.plan.names holder t id) := by
    obtain ⟨g, hg⟩ := Option.isSome_iff_exists.mp hsome
    exact (hh.point (hp.member t ht id ((find?_memberIds t id).1 g hg)).undivided).bytes
  unfold fieldBytes? at h
  split at h
  next id =>
    split at h
    next hcond =>
      cases h
      simp only [Bool.and_eq_true] at hcond
      exact haccessor hf.here hcond.2 hf.apart_holder
    next => cases h
  next x id =>
    obtain ⟨v, hv, h⟩ := (bind_eq_ok _ _ _).mp h
    split at h
    next path htype =>
      split at h
      next t ht =>
        have h := (pure_eq_ok _ _).mp h
        split at h
        next hsome =>
          cases h
          refine haccessor (List.mem_of_find?_eq_some ht) hsome ?_
          exact apart_exprCode hf hp x v hv (by rw [htype]; rfl) (by simp [htype])
        next => cases h
      next => cases h
    next => cases h
  next => cases h

theorem apart_leafBytes (e : Expr) (hs : e.isSum = false) (code : String)
    (h : leafBytes f e = .ok code) : Apart code := by
  obtain ⟨field, hfield, h⟩ := (bind_eq_ok _ _ _).mp h
  cases field with
  | some own =>
    obtain rfl := (pure_eq_ok _ _).mp h
    exact apart_fieldBytes hf hp e own hfield
  | none =>
    obtain ⟨v, hv, h⟩ := (bind_eq_ok _ _ _).mp h
    have hcode (hn : v.type.isNumeric = false) : Apart v.code :=
      apart_exprCode hf hp e v hv hn (by simp [hs])
    have hmethod (hn : v.type.isNumeric = false) : Apart (v.code ++ ".Bytes()") := by
      have hpoint := ((hcode hn).append (t := ".") (by decide)).bytes
      rwa [String.append_assoc] at hpoint
    unfold bytesOf at h
    split at h
    next ht =>
      cases h
      exact hcode (by rw [ht]; rfl)
    next =>
      cases h
      exact apart_call "[]byte" _ (by decide) (by decide)
    next ht =>
      cases h
      exact hmethod (by rw [ht]; rfl)
    next ht =>
      cases h
      exact hmethod (by rw [ht]; rfl)
    next => cases h

end

def concatenation : List String → String
  | [code] => code
  | codes => call "fzrt.Concat" codes

/-- Encoded forms of operands, of which there is at least one. If there is no other, it is no
concatenation. -/
structure Operands (codes : List String) : Prop where
  some : codes ≠ []
  single (code : String) (h : codes = [code]) : Apart code

theorem spliced_call (codes : List String) :
    spliced (call "fzrt.Concat" codes) = Text.join ", " codes := by
  have hcall : (call "fzrt.Concat" codes).toList
      = "fzrt.Concat(".toList ++ ((Text.join ", " codes).toList ++ [')']) := by
    simp [call]
  have hbegins : Text.dropPrefix? (call "fzrt.Concat" codes) "fzrt.Concat("
      = some (Text.join ", " codes ++ ")") := by
    rw [Text.dropPrefix?, hcall, if_pos (List.isPrefixOf_iff_prefix.mpr (List.prefix_append _ _)),
      List.drop_left]
    simp
  have hends : Text.dropSuffix? (Text.join ", " codes ++ ")") ")"
      = some (Text.join ", " codes) := by
    rw [Text.dropSuffix?, String.toList_append,
      if_pos (List.isSuffixOf_iff_suffix.mpr (List.suffix_append _ _)), List.length_append,
      Nat.add_sub_cancel, List.take_left, String.ofList_toList]
  rw [spliced, hbegins]
  exact congrArg (Option.getD · _) hends

theorem Apart.spliced {code : String} (h : Apart code) : spliced code = code := by
  have hnone : Text.dropPrefix? code "fzrt.Concat(" = none := by
    rw [Text.dropPrefix?, if_neg]
    rwa [List.isPrefixOf_iff_prefix]
  rw [Program.spliced, hnone]

theorem spliced_concatenation {codes : List String} (h : Operands codes) :
    spliced (concatenation codes) = Text.join ", " codes := by
  unfold concatenation
  split
  next code => exact (h.single code rfl).spliced
  next => exact spliced_call codes

theorem call_spliced {left right : List String} (hl : Operands left) (hr : Operands right) :
    call "fzrt.Concat" [spliced (concatenation left), spliced (concatenation right)]
      = concatenation (left ++ right) := by
  have hpair : concatenation (left ++ right) = call "fzrt.Concat" (left ++ right) := by
    obtain ⟨l, ls, rfl⟩ := List.exists_cons_of_ne_nil hl.some
    obtain ⟨r, rs, rfl⟩ := List.exists_cons_of_ne_nil hr.some
    cases ls <;> rfl
  rw [hpair, spliced_concatenation hl, spliced_concatenation hr, call, call,
    Text.join_append _ _ _ hl.some hr.some]
  rfl

section

variable {m : Model} {f : Frame} (hf : f.InScope m) (hp : Named f.plan)

include hf hp

theorem operands_addends (e : Expr) (codes : List String)
    (h : e.addends.mapM (leafBytes f) = .ok codes) : Operands codes := by
  have hcodes := mapM_eq_ok _ _ _ h
  refine ⟨?_, ?_⟩
  · rintro rfl
    exact e.addends_ne_nil (List.forall₂_nil_right_iff.mp hcodes)
  · rintro code rfl
    obtain ⟨x, hx, hcode⟩ := forall₂_mem_right _ _ _ hcodes code List.mem_cons_self
    exact apart_leafBytes hf hp x (e.not_sum_of_mem_addends x hx) code hcode

theorem bytes_eq (e : Expr) :
    f.bytes e = (e.addends.mapM (leafBytes f)).map concatenation := by
  have hleaf (e : Expr) (hs : e.isSum = false) :
      leafBytes f e = (e.addends.mapM (leafBytes f)).map concatenation := by
    rw [e.addends_of_not_sum hs, List.mapM_cons, List.mapM_nil]
    cases leafBytes f e <;> rfl
  induction e using Frame.bytes.induct with
  | case1 x y ihx ihy =>
    rw [Frame.bytes, if_pos rfl, Expr.addends, if_pos rfl, List.mapM_append, ihx, ihy]
    cases hx : x.addends.mapM (leafBytes f) with
    | error err => rfl
    | ok left =>
      cases hy : y.addends.mapM (leafBytes f) with
      | error err => rfl
      | ok right =>
        have hl := operands_addends hf hp x left hx
        have hr := operands_addends hf hp y right hy
        exact congrArg Except.ok (call_spliced hl hr)
  | case2 op x y hop =>
    rw [Frame.bytes, if_neg hop]
    exact hleaf _ (by simpa [Expr.isSum] using hop)
  | case3 e hnot =>
    rw [Frame.bytes]
    · refine hleaf e ?_
      cases e with
      | binary op x y => exact absurd rfl (hnot op x y)
      | _ => rfl
    · exact hnot

theorem mapM_addends (e : Expr) : e.addends.mapM (leafBytes f) = e.addends.mapM f.bytes := by
  have hsame : ∀ x ∈ e.addends, leafBytes f x = f.bytes x := by
    intro x hx
    rw [bytes_eq hf hp x, x.addends_of_not_sum (e.not_sum_of_mem_addends x hx), List.mapM_cons,
      List.mapM_nil]
    cases leafBytes f x <;> rfl
  generalize e.addends = xs at hsame
  induction xs with
  | nil => rfl
  | cons x xs ih =>
    obtain ⟨hx, hxs⟩ := List.forall_mem_cons.mp hsame
    rw [List.mapM_cons, List.mapM_cons, hx, ih hxs]

theorem bytes_sum (e : Expr) (h : 2 ≤ e.addends.length) :
    f.bytes e = (e.addends.mapM f.bytes).map (call "fzrt.Concat") := by
  rw [bytes_eq hf hp e, mapM_addends hf hp e]
  cases hcodes : e.addends.mapM f.bytes with
  | error err => rfl
  | ok codes =>
    have hlength := (mapM_eq_ok _ _ _ hcodes).length_eq
    match codes with
    | [] | [_] => rw [hlength] at h; simp at h
    | _ :: _ :: _ => rfl

end

/-- The name of a field of the type a frame is in. -/
structure Frame.NamesField (f : Frame) (id : String) : Prop where
  field : (f.here.field? id).isSome = true
  free : Keyed.get? f.locals id = none
  plain : Expr.isReserved id = false

theorem bytes_field {f : Frame} {id : String} (h : f.NamesField id) :
    f.bytes (.name id) = .ok (accessor f.plan.names f.holder f.here id) := by
  have hfield : fieldBytes? f (.name id)
      = .ok (some (accessor f.plan.names f.holder f.here id)) := by
    rw [fieldBytes?, if_pos]
    simp [h.field, h.free, h.plain]
  rw [Frame.bytes]
  · rw [leafBytes, hfield]
    rfl
  · simp

theorem namesField_own (p : Plan) {t : TypeDef} {g : Field} (hg : g ∈ t.fields)
    (hplain : Expr.isReserved g.id = false) : (ownFrame p t).NamesField g.id where
  field := List.find?_isSome.mpr ⟨g, hg, by simp⟩
  free := rfl
  plain := hplain

/-- A sum has an encoded form exactly if all its operands have one, and the form is then one call
with theirs, from left to right. The digest and the length of a sum of fields are taken of the
encoded forms of these fields, in the order in which the sum names them. -/
theorem bytes_concatenated (o : Options) (set : SchemaSet) (m : Model)
    (h : Model.compile o set = .ok m) (hn : (structNames m).Nodup) (f : Frame) (hf : f.InScope m)
    (e : Expr) :
    ((∃ code, f.bytes e = .ok code) ↔ ∀ x ∈ e.addends, ∃ code, f.bytes x = .ok code) ∧
    (2 ≤ e.addends.length → f.bytes e = (e.addends.mapM f.bytes).map (call "fzrt.Concat")) ∧
    ∀ ids : List String, 2 ≤ ids.length → e.addends = ids.map .name →
      (∀ id ∈ ids, f.NamesField id) →
      let whole := call "fzrt.Concat" (ids.map (accessor f.plan.names f.holder f.here))
      f.bytes e = .ok whole ∧
      (∀ g d, g.digest = some d → g.input = some e → digestLines f g =
        .ok (drawLines g.id "d" (call "fzrt.Digest" [Text.quoted d.name, whole])
          ++ ["v := " ++ digestValue g.type])) ∧
      ∀ g, g.elemRole = .derivedLength → g.measure = some e →
        valueLines f g = .ok ["v := " ++ call (elementType g).code [call "len" [whole]]] := by
  have hp : Named f.plan := by
    rw [hf.plan]
    exact named_ofModel o set m h (nodup_paths m hn)
  refine ⟨?_, bytes_sum hf hp e, ?_⟩
  · rw [bytes_eq hf hp e, mapM_addends hf hp e, ← exists_mapM_ok_iff]
    cases e.addends.mapM f.bytes <;> simp [Except.map]
  · intro ids hlength hids hfields whole
    have hcodes : (ids.map Expr.name).mapM f.bytes
        = .ok (ids.map (accessor f.plan.names f.holder f.here)) := by
      refine mapM_of_forall₂ _ _ _ ?_
      rw [List.forall₂_map_left_iff, List.forall₂_map_right_iff, List.forall₂_same]
      exact fun id hid => bytes_field (hfields id hid)
    have hwhole : f.bytes e = .ok whole := by
      rw [bytes_sum hf hp e (by rw [hids, List.length_map]; exact hlength), hids, hcodes]
      rfl
    refine ⟨hwhole, fun g d hd hi => ?_, fun g hg he => ?_⟩
    · rw [digestLines, hd, hi]
      dsimp only
      rw [hwhole]
      rfl
    · rw [valueLines, hg, he]
      dsimp only
      rw [hwhole]
      rfl

def chunk : SchemaSet :=
  ⟨⟨"chunk.ksy", .mk
    { head := { Meta.empty with id := "chunk" }
      seq := [
        { id := "kind", size := .int 4 },
        { id := "data", size := .int 4 },
        { id := "check", size := .int 4,
          extra := [("-fz-process-crc32", .str "data + (kind + data)")] }] } []⟩, []⟩

def chunkSum : Expr :=
  .binary .add (.name "data") (.binary .add (.name "kind") (.name "data"))

theorem chunk_compiles : ∃ m t, Model.compile {} chunk = .ok m ∧ (structNames m).Nodup ∧
    t ∈ m.types ∧ t.fields.map Field.id = ["kind", "data", "check"] ∧
      memberNames t = [("kind", "Kind"), ("data", "Data"), ("check", "Check")] := by
  obtain ⟨m, hm, hview⟩ := exists_ok_of_toOption_map (Model.compile {} chunk)
    (fun m => (decide (structNames m).Nodup, m.types.map fun t => (t.fields.map Field.id,
      memberNames t)))
    (true, [(["kind", "data", "check"],
      [("kind", "Kind"), ("data", "Data"), ("check", "Check")])])
    (by decide +kernel)
  obtain ⟨hn, htypes⟩ := Prod.mk.inj hview
  obtain ⟨t, ts, hts, hfields, -⟩ := List.map_eq_cons_iff.mp htypes
  obtain ⟨hids, hnames⟩ := Prod.mk.inj hfields
  exact ⟨m, t, hm, of_decide_eq_true hn, hts ▸ List.mem_cons_self, hids, hnames⟩

theorem bytes_concatenated_chunk : ∃ m t, Model.compile {} chunk = .ok m ∧ (structNames m).Nodup ∧
    t ∈ m.types ∧ chunkSum.addends = ["data", "kind", "data"].map .name ∧
    (∀ id ∈ ["data", "kind", "data"], (ownFrame (.ofModel m) t).NamesField id) ∧
    (ownFrame (.ofModel m) t).bytes chunkSum
      = .ok "fzrt.Concat(g.DataBytes(), g.KindBytes(), g.DataBytes())" := by
  obtain ⟨m, t, hm, hn, ht, hids, hnames⟩ := chunk_compiles
  have hfield (id : String) (hid : id ∈ ["kind", "data", "check"])
      (hr : Expr.isReserved id = false) :
      (ownFrame (.ofModel m) t).NamesField id := by
    obtain ⟨g, hg, rfl⟩ := List.mem_map.mp (hids ▸ hid)
    exact namesField_own _ hg hr
  have hdata := hfield "data" (by decide) (by decide)
  have hkind := hfield "kind" (by decide) (by decide)
  have hfields : ∀ id ∈ ["data", "kind", "data"], (ownFrame (.ofModel m) t).NamesField id :=
    List.forall_mem_cons.mpr ⟨hdata, List.forall_mem_cons.mpr ⟨hkind, by simpa using hdata⟩⟩
  have haccessor (id name : String) (he : (id, name) ∈ memberNames t) :
      accessor (Plan.ofModel m).names "g" t id = "g" ++ "." ++ name ++ "Bytes()" := by
    rw [accessor, names_ofModel, NameTable.member_eq m.types (nodup_paths m hn) t ht
      (compile_memberIds {} chunk m hm t ht) (id, name) he]
  obtain ⟨-, -, hwhole⟩ := bytes_concatenated {} chunk m hm hn _ (.own ht) chunkSum
  obtain ⟨hcode, -, -⟩ := hwhole ["data", "kind", "data"] (by decide) rfl hfields
  refine ⟨m, t, hm, hn, ht, rfl, hfields, hcode.trans ?_⟩
  have hd := haccessor "data" "Data" (by simp [hnames])
  have hk := haccessor "kind" "Kind" (by simp [hnames])
  simp only [List.map_cons, List.map_nil, ownFrame, hd, hk]
  exact congrArg Except.ok (by decide)

end Program

end FormatFuzz
