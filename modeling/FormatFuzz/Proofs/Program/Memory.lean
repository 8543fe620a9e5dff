import FormatFuzz.Proofs.Program.References

/-!
# A memory for types

A generator that looks for the type of an instance remembers the types it has found, and for which
instances it is looking. The code of an expression is then made step by step, each name and
attribute asking the memory. If the memory answers every question as a function would, the code is
what the function gives, and so code depends on nothing but the answers to the questions it asks.
-/

set_option autoImplicit false

namespace FormatFuzz.Program

/-- The types found so far, and the instances whose types are being looked for. -/
structure Memory where
  known : Std.HashMap (TypePath × String) ValueType := ∅
  pending : List (TypePath × String) := []

/-- A computation with a memory. An error leaves the memory as it is by then; nothing at all is
given by a computation that runs out of fuel. -/
abbrev Recall (α : Type) := ExceptT Error (StateT Memory Option) α

namespace Recall

variable {α β : Type}

/-- What a computation gives in a memory, and the memory it leaves. -/
def runIn (x : Recall α) (s : Memory) : Option (Except Error α × Memory) :=
  StateT.run (ExceptT.run x) s

def of (y : Except Error α) : Recall α :=
  ExceptT.mk fun s => some (y, s)

theorem runIn_bind (x : Recall α) (g : α → Recall β) (s : Memory) :
    (x >>= g).runIn s = match x.runIn s with
      | none => none
      | some (.ok a, t) => (g a).runIn t
      | some (.error e, t) => some (.error e, t) := by
  change (StateT.run (ExceptT.run x) s >>= fun r => ExceptT.bindCont g r.1 r.2) = _
  unfold runIn
  cases StateT.run (ExceptT.run x) s with
  | none => rfl
  | some r =>
    obtain ⟨r, t⟩ := r
    cases r <;> rfl

/-- In every memory of some kind a computation gives what it should, and leaves a memory of that
kind. -/
def Follows (I : Memory → Prop) (x : Recall α) (y : Except Error α) : Prop :=
  ∀ s, I s → ∃ t, x.runIn s = some (y, t) ∧ I t

variable {I : Memory → Prop}

theorem follows_of (y : Except Error α) : Follows I (of y) y :=
  fun s hs => ⟨s, rfl, hs⟩

theorem Follows.bind {x : Recall α} {y : Except Error α} {g : α → Recall β}
    {h : α → Except Error β} (hx : Follows I x y)
    (hg : ∀ a, y = .ok a → Follows I (g a) (h a)) : Follows I (x >>= g) (y >>= h) := by
  intro s hs
  obtain ⟨t, ht, hI⟩ := hx s hs
  rw [runIn_bind, ht]
  cases y with
  | error e => exact ⟨t, rfl, hI⟩
  | ok a => exact hg a rfl t hI

theorem Follows.unique {J : Memory → Prop} {x : Recall α} {y z : Except Error α}
    (hy : Follows I x y) (hz : Follows J x z) (s : Memory) (hI : I s) (hJ : J s) : y = z := by
  obtain ⟨t, ht, -⟩ := hy s hI
  obtain ⟨u, hu, -⟩ := hz s hJ
  exact (Prod.mk.inj (Option.some.inj (ht.symm.trans hu))).1

end Recall

open Recall

section

variable (ask : TypeDef → Instance → Recall ValueType)

def recallSite (site : Option Site) (code : Infer → Except Error Value) : Recall Value :=
  match site with
  | some y => do
    let type ← ask y.1 y.2
    Recall.of (code fun _ _ => .ok type)
  | none => Recall.of (code fun _ i => .error (.selfReference i.id))

mutual

def recallExpr (f : Frame) : Expr → Recall Value
  | .int v => .of (.ok (.ofInt v))
  | .float x => .of (.ok (.ofDouble x))
  | .str s => .of (.ok ⟨Text.quoted s, .str, true⟩)
  | .bool b => .of (.ok ⟨if b then "true" else "false", .bool, true⟩)
  | .name id => recallSite ask (nameInstance? f id) (nameCode · f id)
  | .member path id =>
    match f.plan.lookupMember f.here.path path id with
    | .ok (e, m) => .of (.ok ⟨memberConst e m.id, .word, false⟩)
    | .error e => .of (.error (.enum e))
  | .attr x id => do
    let v ← recallExpr f x
    recallSite ask (attrInstance? f.plan.toModel v id) (attrCode · f.plan x v id)
  | .index x i => do
    let v ← recallExpr f x
    let w ← recallExpr f i
    .of (indexCode (.index x i) v w)
  | .unary op x => do
    let v ← recallExpr f x
    .of (unaryCode (.unary op x) op v)
  | .binary op x y => do
    let a ← recallExpr f x
    let b ← recallExpr f y
    .of (binaryCode (.binary op x y) op a b)
  | .cond c x y => do
    let v ← recallExpr f c
    if v.type ≠ .bool then throw (.expr (.cond c x y) .condition)
    let a ← recallExpr f x
    let b ← recallExpr f y
    .of (condCode (.cond c x y) v a b)
  | .list xs => do
    let codes ← recallList f (.list xs) xs
    return ⟨byteList codes, .bytes, false⟩
  | .absent => .of (.error (.expr .absent .missing))

def recallList (f : Frame) (whole : Expr) : List Expr → Recall (List String)
  | [] => .of (.ok [])
  | x :: xs => do
    let v ← recallExpr f x
    let code ← .of (elementCode whole x v)
    let codes ← recallList f whole xs
    return code :: codes

end

end

section

variable {ask : TypeDef → Instance → Recall ValueType} {I : Memory → Prop} {o o' : Infer}
  {f : Frame}

theorem follows_site {site : Option Site} {code : Infer → Except Error Value}
    (hcode : NeedsOnly site code)
    (hask : ∀ y, site = some y → Follows I (ask y.1 y.2) (o y.1 y.2)) :
    Follows I (recallSite ask site code) (code o) := by
  rw [hcode o]
  cases site with
  | none => exact follows_of _
  | some y => exact (hask y rfl).bind fun type _ => follows_of _

mutual

/-- If the memory answers as a function does wherever an expression asks, the code of the expression
is what the function gives. -/
theorem recallExpr_follows : (e : Expr) →
    (∀ y, Asks o f y e → Follows I (ask y.1 y.2) (o y.1 y.2)) →
      Follows I (recallExpr ask f e) (exprCode o f e)
  | .int v, _ => follows_of _
  | .float x, _ => follows_of _
  | .str s, _ => follows_of _
  | .bool b, _ => follows_of _
  | .name id, h => by
    rw [recallExpr, exprCode]
    exact follows_site (nameCode_needs f id) fun y hy => h y ⟨_, .self, .name hy⟩
  | .member path id, _ => by
    rw [recallExpr, exprCode]
    cases f.plan.lookupMember f.here.path path id <;> exact follows_of _
  | .attr x id, h => by
    rw [recallExpr, exprCode]
    refine (recallExpr_follows x fun y hy => h y (hy.mono (.object .self))).bind fun v hv => ?_
    exact follows_site (attrCode_needs f.plan x v id) fun y hy => h y ⟨_, .self, .attr hv hy⟩
  | .index x i, h => by
    rw [recallExpr, exprCode]
    refine (recallExpr_follows x fun y hy => h y (hy.mono (.indexed .self))).bind fun v _ => ?_
    refine (recallExpr_follows i fun y hy => h y (hy.mono (.position .self))).bind fun w _ => ?_
    exact follows_of _
  | .unary op x, h => by
    rw [recallExpr, exprCode]
    refine (recallExpr_follows x fun y hy => h y (hy.mono (.operand .self))).bind fun v _ => ?_
    exact follows_of _
  | .binary op x y, h => by
    rw [recallExpr, exprCode]
    refine (recallExpr_follows x fun z hz => h z (hz.mono (.left .self))).bind fun a _ => ?_
    refine (recallExpr_follows y fun z hz => h z (hz.mono (.right .self))).bind fun b _ => ?_
    exact follows_of _
  | .cond c x y, h => by
    rw [recallExpr, exprCode]
    refine (recallExpr_follows c fun z hz => h z (hz.mono (.condition .self))).bind fun v _ => ?_
    by_cases htype : v.type ≠ .bool
    · rw [if_pos htype, if_pos htype]
      exact follows_of _
    · rw [if_neg htype, if_neg htype]
      refine (recallExpr_follows x fun z hz => h z (hz.mono (.consequent .self))).bind fun a _ => ?_
      refine (recallExpr_follows y fun z hz => h z (hz.mono (.alternative .self))).bind
        fun b _ => ?_
      exact follows_of _
  | .list xs, h => by
    rw [recallExpr, exprCode]
    refine (recallList_follows (.list xs) xs fun x hx y hy => ?_).bind fun codes _ => follows_of _
    exact h y (hy.mono (.element hx .self))
  | .absent, _ => follows_of _

theorem recallList_follows (whole : Expr) : (xs : List Expr) →
    (∀ x ∈ xs, ∀ y, Asks o f y x → Follows I (ask y.1 y.2) (o y.1 y.2)) →
      Follows I (recallList ask f whole xs) (listCodes o f whole xs)
  | [], _ => follows_of _
  | x :: xs, h => by
    obtain ⟨hx, hxs⟩ := List.forall_mem_cons.mp h
    rw [recallList, listCodes]
    refine (recallExpr_follows x hx).bind fun v _ => ?_
    refine (follows_of _).bind fun code _ => ?_
    exact (recallList_follows whole xs hxs).bind fun codes _ => follows_of _

end

theorem exprCode_congr {e : Expr} (h : ∀ y, Asks o f y e → o' y.1 y.2 = o y.1 y.2) :
    exprCode o' f e = exprCode o f e := by
  let ask : TypeDef → Instance → Recall ValueType := fun t i => .of (o' t i)
  have hone : Follows (fun _ => True) (recallExpr ask f e) (exprCode o f e) :=
    recallExpr_follows e fun y hy => h y hy ▸ follows_of _
  have hother : Follows (fun _ => True) (recallExpr ask f e) (exprCode o' f e) :=
    recallExpr_follows e fun y _ => follows_of _
  exact hother.unique hone {} trivial trivial

theorem exprCode_mono {e : Expr} {v : Value}
    (h : ∀ y, Asks o f y e → ∀ type, o y.1 y.2 = .ok type → o' y.1 y.2 = .ok type)
    (hv : exprCode o f e = .ok v) : exprCode o' f e = .ok v := by
  rw [exprCode_congr (o := o) fun y hy => ?_, hv]
  obtain ⟨type, htype⟩ := hy.answered hv
  rw [h y hy type htype, htype]

theorem Asks.of_more {e : Expr} {y : Site}
    (h : ∀ y, Asks o f y e → ∀ type, o y.1 y.2 = .ok type → o' y.1 y.2 = .ok type)
    (hy : Asks o f y e) : Asks o' f y e := by
  obtain ⟨x, hx, hasks⟩ := hy
  refine ⟨x, hx, ?_⟩
  cases hasks with
  | name hname => exact .name hname
  | @attr z v id hv hattr =>
    have hz : Expr.Within z e := .trans (.object .self) hx
    exact .attr (exprCode_mono (fun y hy => h y (hy.mono hz)) hv) hattr

end

def Plan.knowing (p : Plan) (known : Std.HashMap (TypePath × String) ValueType) : Plan :=
  { p with known := known }

def Frame.knowing (f : Frame) (known : Std.HashMap (TypePath × String) ValueType) : Frame :=
  { f with plan := f.plan.knowing known }

section

variable (ask : TypeDef → Instance → Recall ValueType) (f : Frame)
  (known : Std.HashMap (TypePath × String) ValueType)

mutual

theorem recallExpr_knowing : (e : Expr) → recallExpr ask (f.knowing known) e = recallExpr ask f e
  | .int _ => rfl
  | .float _ => rfl
  | .str _ => rfl
  | .bool _ => rfl
  | .name _ => rfl
  | .member _ _ => rfl
  | .attr x id => by
    rw [recallExpr, recallExpr, recallExpr_knowing x]
    rfl
  | .index x i => by rw [recallExpr, recallExpr, recallExpr_knowing x, recallExpr_knowing i]
  | .unary _ x => by rw [recallExpr, recallExpr, recallExpr_knowing x]
  | .binary _ x y => by rw [recallExpr, recallExpr, recallExpr_knowing x, recallExpr_knowing y]
  | .cond c x y => by
    rw [recallExpr, recallExpr, recallExpr_knowing c, recallExpr_knowing x, recallExpr_knowing y]
  | .list xs => by rw [recallExpr, recallExpr, recallList_knowing (.list xs) xs]
  | .absent => rfl

theorem recallList_knowing (whole : Expr) :
    (xs : List Expr) → recallList ask (f.knowing known) whole xs = recallList ask f whole xs
  | [] => rfl
  | x :: xs => by
    rw [recallList, recallList, recallExpr_knowing x, recallList_knowing whole xs]

end

theorem exprCode_knowing (o : Infer) (e : Expr) :
    exprCode o (f.knowing known) e = exprCode o f e := by
  let ask : TypeDef → Instance → Recall ValueType := fun t i => .of (o t i)
  have hsame : Follows (fun _ => True) (recallExpr ask f e) (exprCode o f e) :=
    recallExpr_follows e fun y _ => follows_of _
  have hother : Follows (fun _ => True) (recallExpr ask (f.knowing known) e)
      (exprCode o (f.knowing known) e) :=
    recallExpr_follows e fun y _ => follows_of _
  rw [recallExpr_knowing] at hother
  exact hother.unique hsame {} trivial trivial

end

end FormatFuzz.Program
