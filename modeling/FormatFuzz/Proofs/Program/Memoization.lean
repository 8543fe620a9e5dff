import FormatFuzz.Proofs.Program.Memory
import FormatFuzz.Proofs.Program.Words
import Mathlib.Logic.Relation

/-!
# Remembered types are right

A generator asked for the type of an instance looks it up among the types it has found, gives up if
it is looking for it already, and otherwise works it out and remembers it if that succeeds. Whatever
has been asked before, the answer is the one that a generator with an empty memory gives. A
remembered type has been worked out without giving up anywhere, so no instance it rests on leads
back to itself; and an instance is looked for only on the way from one that leads to it. So a
remembered type is never one for which a generator without a memory would have given up.
-/

set_option autoImplicit false

namespace FormatFuzz.Program

open Recall Relation

def sites (m : Model) : List Site :=
  m.types.flatMap fun t => t.instances.map fun i => (t, i)

def keyOf (x : Site) : TypePath × String :=
  (x.1.path, x.2.id)

theorem mem_sites {m : Model} {x : Site} : x ∈ sites m ↔ x.1 ∈ m.types ∧ x.2 ∈ x.1.instances := by
  obtain ⟨t, i⟩ := x
  simp only [sites, List.mem_flatMap, List.mem_map, Prod.mk.injEq]
  constructor
  · rintro ⟨u, hu, j, hj, rfl, rfl⟩
    exact ⟨hu, hj⟩
  · rintro ⟨ht, hi⟩
    exact ⟨t, ht, i, hi, rfl, rfl⟩

def Memory.seek (s : Memory) (x : Site) : Memory :=
  { s with pending := keyOf x :: s.pending }

/-- Ends to look for the type of an instance, and remembers it if there is code for its value. -/
def Memory.found (s : Memory) (x : Site) (r : Except Error Value) :
    Except Error ValueType × Memory :=
  let pending := s.pending.erase (keyOf x)
  match r with
  | .ok v => (.ok v.type, ⟨s.known.insert (keyOf x) v.type, pending⟩)
  | .error e => (.error (.located x.1.path x.2.id "value" e), ⟨s.known, pending⟩)

def instanceType (p : Plan) : Nat → TypeDef → Instance → Recall ValueType
  | 0, _, _ => ExceptT.mk fun _ => none
  | fuel + 1, t, i => ExceptT.mk fun s =>
    match s.known[keyOf (t, i)]? with
    | some type => some (.ok type, s)
    | none =>
      if s.pending.contains (keyOf (t, i)) then some (.error (.selfReference i.id), s)
      else ((recallExpr (instanceType p fuel) (p.instanceFrame t i) i.value).runIn
        (s.seek (t, i))).map fun r => r.2.found (t, i) r.1

/-- Types that one generator is asked for one after the other. -/
def answers (p : Plan) (fuel : Nat) :
    List Site → Memory → Option (List (Except Error ValueType) × Memory)
  | [], s => some ([], s)
  | x :: xs, s => do
    let (r, s) ← (instanceType p fuel x.1 x.2).runIn s
    let (rs, s) ← answers p fuel xs s
    return (r :: rs, s)

section

variable {p : Plan}

def typeAt (p : Plan) : Nat → Infer
  | 0, _, i => .error (.selfReference i.id)
  | n + 1, t, i => do
    let v ← exprCode (typeAt p n) (p.instanceFrame t i) i.value
    return v.type

theorem typeAt_succ {n : Nat} {x : Site} {type : ValueType} :
    typeAt p (n + 1) x.1 x.2 = .ok type ↔
      ∃ v, exprCode (typeAt p n) (p.instanceFrame x.1 x.2) x.2.value = .ok v ∧ v.type = type := by
  rw [typeAt, bind_eq_ok]
  simp only [pure_eq_ok]

theorem typeAt_le {n k : Nat} (h : n ≤ k) {x : Site} {type : ValueType}
    (hx : typeAt p n x.1 x.2 = .ok type) : typeAt p k x.1 x.2 = .ok type := by
  induction n generalizing k x type with
  | zero => cases hx
  | succ n ih =>
    obtain ⟨k, rfl⟩ := Nat.exists_eq_succ_of_ne_zero (by omega : k ≠ 0)
    obtain ⟨v, hv, rfl⟩ := typeAt_succ.mp hx
    exact typeAt_succ.mpr ⟨v, exprCode_mono (fun y _ type hy => ih (by omega) hy) hv, rfl⟩

theorem typeAt_unique {n k : Nat} {x : Site} {a b : ValueType} (ha : typeAt p n x.1 x.2 = .ok a)
    (hb : typeAt p k x.1 x.2 = .ok b) : a = b := by
  have ha := typeAt_le (Nat.le_max_left n k) ha
  have hb := typeAt_le (Nat.le_max_right n k) hb
  exact Except.ok.inj (ha.symm.trans hb)

theorem asked_mem {o : Infer} {x y : Site} {e : Expr} (hx : x ∈ sites p.toModel)
    (h : Asks o (p.instanceFrame x.1 x.2) y e) : y ∈ sites p.toModel := by
  obtain ⟨z, -, hasks⟩ := h
  exact mem_sites.mpr (hasks.mem (mem_sites.mp hx).1)

theorem typeAt_of_value {n : Nat} {o : Infer} {x : Site} {v : Value} (hx : x ∈ sites p.toModel)
    (ho : ∀ y ∈ sites p.toModel, ∀ type, o y.1 y.2 = .ok type → typeAt p n y.1 y.2 = .ok type)
    (hv : exprCode o (p.instanceFrame x.1 x.2) x.2.value = .ok v) :
    typeAt p (n + 1) x.1 x.2 = .ok v.type :=
  typeAt_succ.mpr ⟨v, exprCode_mono (fun y hy => ho y (asked_mem hx hy)) hv, rfl⟩

def Consults (p : Plan) (x y : Site) : Prop :=
  ∃ n, Asks (typeAt p n) (p.instanceFrame x.1 x.2) y x.2.value

theorem Consults.mem {x y : Site} (h : Consults p x y) (hx : x ∈ sites p.toModel) :
    y ∈ sites p.toModel := by
  obtain ⟨n, hasks⟩ := h
  exact asked_mem hx hasks

theorem Consults.typed {n : Nat} {x y : Site} {type : ValueType} (h : Consults p x y)
    (hx : typeAt p (n + 1) x.1 x.2 = .ok type) : ∃ type, typeAt p n y.1 y.2 = .ok type := by
  obtain ⟨k, hasks⟩ := h
  obtain ⟨v, hv, -⟩ := typeAt_succ.mp hx
  have hboth : Asks (typeAt p (max n k)) (p.instanceFrame x.1 x.2) y x.2.value :=
    hasks.of_more fun z _ type hz => typeAt_le (Nat.le_max_right n k) hz
  refine Asks.answered (e := x.2.value) ?_ hv
  obtain ⟨z, hz, hhere⟩ := hboth
  refine ⟨z, hz, ?_⟩
  cases hhere with
  | name hname => exact .name hname
  | @attr u w id hw hattr =>
    -- the object has the same type in both, as it has one in fewer steps
    obtain ⟨w', hw'⟩ := ok_of_within (.trans (.object .self) hz) v hv
    have hmore : exprCode (typeAt p (max n k)) (p.instanceFrame x.1 x.2) u = .ok w' :=
      exprCode_mono (fun z _ type hz => typeAt_le (Nat.le_max_left n k) hz) hw'
    cases hmore.symm.trans hw
    exact .attr hw' hattr

theorem not_circular {n : Nat} {x : Site} {type : ValueType} (hx : typeAt p n x.1 x.2 = .ok type) :
    ¬ TransGen (Consults p) x x := by
  induction n generalizing x type with
  | zero => cases hx
  | succ n ih =>
    intro hcircle
    obtain ⟨y, hxy, hyx⟩ := TransGen.head'_iff.mp hcircle
    obtain ⟨type, hy⟩ := hxy.typed hx
    exact ih hy (TransGen.tail' hyx hxy)

end

def left (m : Model) (pending : List (TypePath × String)) : Nat :=
  ((sites m).filter fun x => !pending.contains (keyOf x)).length

theorem left_nil (m : Model) : left m [] = (sites m).length := by
  simp [left]

theorem left_cons {m : Model} {pending : List (TypePath × String)} {x : Site} (hx : x ∈ sites m)
    (hnot : keyOf x ∉ pending) : left m (keyOf x :: pending) < left m pending := by
  have hsplit : ((sites m).filter fun y => !(keyOf x :: pending).contains (keyOf y))
      = ((sites m).filter fun y => !pending.contains (keyOf y)).filter
          fun y => keyOf y ≠ keyOf x := by
    rw [List.filter_filter]
    exact List.filter_congr fun y _ => by simp
  rw [left, hsplit]
  exact List.length_filter_lt_length_iff_exists.mpr ⟨x, by simp [hx, hnot], by simp⟩

/-- Types by key are right: each is the type of its instance. -/
def Sound (p : Plan) (known : Std.HashMap (TypePath × String) ValueType) : Prop :=
  ∃ n, ∀ x ∈ sites p.toModel, ∀ type, known[keyOf x]? = some type → typeAt p n x.1 x.2 = .ok type

def Clear (p : Plan) (pending : List (TypePath × String)) (x : Site) : Prop :=
  ∀ q ∈ sites p.toModel, keyOf q ∈ pending → ¬ ReflTransGen (Consults p) x q

def Leads (p : Plan) (pending : List (TypePath × String)) (x : Site) : Prop :=
  ∀ q ∈ sites p.toModel, keyOf q ∈ pending → TransGen (Consults p) q x

section

variable {p : Plan} {pending : List (TypePath × String)} {x y : Site} {n : Nat} {type : ValueType}

theorem Leads.clear (h : Leads p pending x) (hx : typeAt p n x.1 x.2 = .ok type) :
    Clear p pending x :=
  fun q hq hmem hback => not_circular hx (TransGen.trans_right hback (h q hq hmem))

variable (hkeys : ∀ x ∈ sites p.toModel, ∀ y ∈ sites p.toModel, keyOf x = keyOf y → x = y)

include hkeys

theorem Clear.step (h : Clear p pending x) (hx : typeAt p n x.1 x.2 = .ok type)
    (hmem : x ∈ sites p.toModel) (hxy : Consults p x y) : Clear p (keyOf x :: pending) y := by
  intro q hq hin hback
  rcases List.mem_cons.mp hin with hsame | hin
  · obtain rfl := hkeys q hq x hmem hsame
    exact not_circular hx (TransGen.head' hxy hback)
  · exact h q hq hin (.head hxy hback)

theorem Leads.step (h : Leads p pending x) (hmem : x ∈ sites p.toModel) (hxy : Consults p x y) :
    Leads p (keyOf x :: pending) y := by
  intro q hq hin
  rcases List.mem_cons.mp hin with hsame | hin
  · exact hkeys q hq x hmem hsame ▸ .single hxy
  · exact .tail (h q hq hin) hxy

omit hkeys in
theorem inferWith_succ (fuel : Nat) : inferWith p (fuel + 1) pending x.1 x.2 =
    match p.known[keyOf x]? with
    | some type => .ok type
    | none =>
      if keyOf x ∈ pending then .error (.selfReference x.2.id)
      else match exprCode (inferWith p fuel (keyOf x :: pending)) (p.instanceFrame x.1 x.2)
          x.2.value with
        | .ok v => .ok v.type
        | .error e => .error (.located x.1.path x.2.id "value" e) :=
  rfl

/-- Inference finds the type of every instance that has one within some number of steps. -/
def Complete (p : Plan) (n : Nat) : Prop :=
  ∀ x ∈ sites p.toModel, ∀ type, typeAt p n x.1 x.2 = .ok type → ∀ pending fuel,
    Clear p pending x → left p.toModel pending < fuel → inferWith p fuel pending x.1 x.2 = .ok type

theorem Complete.value (h : Complete p n) (hx : typeAt p (n + 1) x.1 x.2 = .ok type)
    (hmem : x ∈ sites p.toModel) (hclear : Clear p pending x) (fuel : Nat)
    (hfuel : left p.toModel (keyOf x :: pending) < fuel) :
    ∃ v, exprCode (inferWith p fuel (keyOf x :: pending)) (p.instanceFrame x.1 x.2) x.2.value
      = .ok v ∧ v.type = type := by
  obtain ⟨v, hv, htype⟩ := typeAt_succ.mp hx
  refine ⟨v, exprCode_mono (fun y hy type htype => ?_) hv, htype⟩
  have hxy : Consults p x y := ⟨n, hy⟩
  exact h y (hxy.mem hmem) type htype _ _ (hclear.step hkeys hx hmem hxy) hfuel

variable (hs : Sound p p.known)

include hs

theorem complete (n : Nat) : Complete p n := by
  induction n with
  | zero => intro x _ type hx; cases hx
  | succ n ih =>
    intro x hmem type hx pending fuel hclear hfuel
    obtain ⟨fuel, rfl⟩ := Nat.exists_eq_succ_of_ne_zero (by omega : fuel ≠ 0)
    have hnot : keyOf x ∉ pending := fun hin => hclear x hmem hin .refl
    rw [inferWith_succ]
    cases hknown : p.known[keyOf x]? with
    | some known =>
      obtain ⟨k, hk⟩ := hs
      rw [typeAt_unique (hk x hmem known hknown) hx]
    | none =>
      have hleft := left_cons hmem hnot
      obtain ⟨v, hv, htype⟩ := ih.value hkeys hx hmem hclear fuel (by omega)
      simp only [if_neg hnot, hv, htype]

omit hkeys in
theorem exists_typeAt (fuel : Nat) : ∃ n, ∀ pending, ∀ x ∈ sites p.toModel, ∀ type,
    inferWith p fuel pending x.1 x.2 = .ok type → typeAt p n x.1 x.2 = .ok type := by
  induction fuel with
  | zero => exact ⟨0, fun _ _ _ _ h => h⟩
  | succ fuel ih =>
    obtain ⟨n, hn⟩ := ih
    obtain ⟨k, hk⟩ := hs
    refine ⟨max (n + 1) k, fun pending x hmem type h => ?_⟩
    rw [inferWith_succ] at h
    split at h
    next known hknown =>
      cases h
      exact typeAt_le (Nat.le_max_right _ _) (hk x hmem _ hknown)
    next =>
      split at h
      · cases h
      · split at h
        next v hv =>
          cases h
          exact typeAt_le (Nat.le_max_left _ _) (typeAt_of_value hmem (hn _) hv)
        next => cases h

omit hkeys in
theorem consults_of_asks {fuel : Nat} (hmem : x ∈ sites p.toModel)
    (h : Asks (inferWith p fuel pending) (p.instanceFrame x.1 x.2) y x.2.value) :
    Consults p x y := by
  obtain ⟨n, hn⟩ := exists_typeAt hs fuel
  exact ⟨n, h.of_more fun z hz => hn _ z (asked_mem hmem hz)⟩

end

/-- A memory in which the types are right and certain instances are being looked for. -/
structure Memory.Holds (p : Plan) (pending : List (TypePath × String)) (s : Memory) : Prop where
  known : Sound p s.known
  pending : s.pending = pending

section

variable {p : Plan} {pending : List (TypePath × String)} {x : Site} {n : Nat} {type : ValueType}

theorem sound_empty : Sound p ∅ :=
  ⟨0, fun x _ type h => by simp at h⟩

variable (hkeys : ∀ x ∈ sites p.toModel, ∀ y ∈ sites p.toModel, keyOf x = keyOf y → x = y)

include hkeys

theorem Sound.insert {known : Std.HashMap (TypePath × String) ValueType} (h : Sound p known)
    (hmem : x ∈ sites p.toModel) (hx : typeAt p n x.1 x.2 = .ok type) :
    Sound p (known.insert (keyOf x) type) := by
  obtain ⟨k, hk⟩ := h
  refine ⟨max n k, fun y hy other hother => ?_⟩
  rw [Std.HashMap.getElem?_insert] at hother
  split at hother
  next hsame =>
    obtain rfl := hkeys x hmem y hy (beq_iff_eq.mp hsame)
    cases hother
    exact typeAt_le (Nat.le_max_left n k) hx
  next => exact typeAt_le (Nat.le_max_right n k) (hk y hy other hother)

variable (hs : Sound p p.known)

include hs

omit hkeys hs in
theorem instanceType_succ (fuel : Nat) (s : Memory) :
    (instanceType p (fuel + 1) x.1 x.2).runIn s = match s.known[keyOf x]? with
      | some type => some (.ok type, s)
      | none =>
        if keyOf x ∈ s.pending then some (.error (.selfReference x.2.id), s)
        else ((recallExpr (instanceType p fuel) (p.instanceFrame x.1 x.2) x.2.value).runIn
          (s.seek x)).map fun r => r.2.found x r.1 := by
  simp only [← List.contains_iff_mem]
  rfl

theorem Memory.Holds.found {s : Memory} (h : s.Holds p (keyOf x :: pending))
    (hmem : x ∈ sites p.toModel) {fuel : Nat} {r : Except Error Value}
    (hr : exprCode (inferWith p fuel (keyOf x :: pending)) (p.instanceFrame x.1 x.2)
      x.2.value = r) :
    (s.found x r).2.Holds p pending := by
  have hpending : s.pending.erase (keyOf x) = pending := by
    rw [h.pending, List.erase_cons_head]
  cases r with
  | error e => exact ⟨h.known, hpending⟩
  | ok v =>
    obtain ⟨n, hn⟩ := exists_typeAt hs fuel
    exact ⟨h.known.insert hkeys hmem (typeAt_of_value hmem (hn _) hr), hpending⟩

theorem found_eq (s : Memory) (hmem : x ∈ sites p.toModel) (hleads : Leads p pending x)
    (hin : keyOf x ∉ pending) {fuel : Nat} (hfuel : left p.toModel (keyOf x :: pending) < fuel) :
    (s.found x (exprCode (inferWith p fuel (keyOf x :: pending)) (p.instanceFrame x.1 x.2)
      x.2.value)).1 = inferWith p (fuel + 1) pending x.1 x.2 := by
  rw [inferWith_succ]
  cases hknown : p.known[keyOf x]? with
  | none =>
    simp only [if_neg hin]
    cases exprCode (inferWith p fuel (keyOf x :: pending)) (p.instanceFrame x.1 x.2)
      x.2.value <;> rfl
  | some type =>
    obtain ⟨n, hn⟩ := hs
    have hx := typeAt_le (Nat.le_succ n) (hn x hmem type hknown)
    obtain ⟨v, hv, rfl⟩ :=
      (complete hkeys ⟨n, hn⟩ n).value hkeys hx hmem (hleads.clear hx) fuel hfuel
    rw [hv]
    rfl

theorem instanceType_follows (fuel : Nat) : ∀ fuel' pending, ∀ x ∈ sites p.toModel,
    Leads p pending x → left p.toModel pending < fuel → left p.toModel pending < fuel' →
      Follows (Memory.Holds p pending) (instanceType p fuel x.1 x.2)
        (inferWith p fuel' pending x.1 x.2) := by
  induction fuel with
  | zero => intro _ _ _ _ _ hfuel; omega
  | succ fuel ih =>
    intro fuel' pending x hmem hleads hfuel hfuel' s hholds
    obtain ⟨fuel', rfl⟩ := Nat.exists_eq_succ_of_ne_zero (by omega : fuel' ≠ 0)
    rw [instanceType_succ]
    cases hremembered : s.known[keyOf x]? with
    | some type =>
      obtain ⟨n, hn⟩ := hholds.known
      have hx := hn x hmem type hremembered
      rw [complete hkeys hs n x hmem type hx pending _ (hleads.clear hx) hfuel']
      exact ⟨s, rfl, hholds⟩
    | none =>
      dsimp only
      rw [hholds.pending]
      by_cases hin : keyOf x ∈ pending
      · have hunknown : p.known[keyOf x]? = none := by
          cases hknown : p.known[keyOf x]? with
          | none => rfl
          | some type =>
            obtain ⟨n, hn⟩ := hs
            exact absurd (hleads x hmem hin) (not_circular (hn x hmem type hknown))
        rw [inferWith_succ, hunknown, if_pos hin]
        exact ⟨s, by simp only [if_pos hin], hholds⟩
      · have hleft := left_cons hmem hin
        have hseek : (s.seek x).Holds p (keyOf x :: pending) :=
          ⟨hholds.known, congrArg (keyOf x :: ·) hholds.pending⟩
        have hvalue : Follows (Memory.Holds p (keyOf x :: pending))
            (recallExpr (instanceType p fuel) (p.instanceFrame x.1 x.2) x.2.value)
            (exprCode (inferWith p fuel' (keyOf x :: pending)) (p.instanceFrame x.1 x.2)
              x.2.value) := by
          refine recallExpr_follows _ fun y hy => ?_
          have hxy := consults_of_asks hs hmem hy
          exact ih fuel' _ y (hxy.mem hmem) (hleads.step hkeys hmem hxy) (by omega) (by omega)
        obtain ⟨t, ht, hfound⟩ := hvalue _ hseek
        rw [if_neg hin, ht, ← found_eq hkeys hs t hmem hleads hin (by omega)]
        exact ⟨_, rfl, hfound.found hkeys hs hmem rfl⟩

omit hkeys hs in
theorem infer_eq : infer p = inferWith p ((sites p.toModel).length + 1) [] := by
  have hlength : (p.types.flatMap TypeDef.instances).length = (sites p.toModel).length := by
    simp [sites, List.length_flatMap]
  rw [infer, hlength]

theorem infer_of_typeAt (hmem : x ∈ sites p.toModel) (hx : typeAt p n x.1 x.2 = .ok type) :
    infer p x.1 x.2 = .ok type := by
  rw [infer_eq]
  refine complete hkeys hs n x hmem type hx [] _ (fun q _ hq => by cases hq) ?_
  rw [left_nil]
  exact Nat.lt_succ_self _

theorem instanceType_infer {fuel : Nat} (hfuel : (sites p.toModel).length < fuel)
    (hmem : x ∈ sites p.toModel) :
    Follows (Memory.Holds p []) (instanceType p fuel x.1 x.2) (infer p x.1 x.2) := by
  have hleft := left_nil p.toModel
  rw [infer_eq]
  exact instanceType_follows hkeys hs fuel _ [] x hmem (fun q _ hq => by cases hq) (by omega)
    (by omega)

theorem answers_infer {fuel : Nat} (hfuel : (sites p.toModel).length < fuel) (xs : List Site)
    (hxs : ∀ x ∈ xs, x ∈ sites p.toModel) (s : Memory) (hholds : s.Holds p []) :
    ∃ t, answers p fuel xs s = some (xs.map fun x => infer p x.1 x.2, t) ∧ t.Holds p [] := by
  induction xs generalizing s with
  | nil => exact ⟨s, rfl, hholds⟩
  | cons x xs ih =>
    obtain ⟨hx, hxs⟩ := List.forall_mem_cons.mp hxs
    obtain ⟨t, ht, hholds⟩ := instanceType_infer hkeys hs hfuel hx s hholds
    obtain ⟨u, hu, hholds⟩ := ih hxs t hholds
    refine ⟨u, ?_, hholds⟩
    rw [answers, ht, Option.bind_eq_bind, Option.bind_some]
    dsimp only
    rw [hu]
    rfl

end

section

variable {p : Plan} {known : Std.HashMap (TypePath × String) ValueType}

theorem typeAt_knowing (n : Nat) (t : TypeDef) (i : Instance) :
    typeAt (p.knowing known) n t i = typeAt p n t i := by
  induction n generalizing t i with
  | zero => rfl
  | succ n ih =>
    have hsame : typeAt (p.knowing known) n = typeAt p n := by
      funext t i
      exact ih t i
    rw [typeAt, typeAt, hsame]
    exact congrArg (· >>= _) (exprCode_knowing (p.instanceFrame t i) known _ _)

theorem instanceType_knowing (fuel : Nat) (t : TypeDef) (i : Instance) :
    instanceType (p.knowing known) fuel t i = instanceType p fuel t i := by
  induction fuel generalizing t i with
  | zero => rfl
  | succ fuel ih =>
    have hsame : instanceType (p.knowing known) fuel = instanceType p fuel := by
      funext t i
      exact ih t i
    have hframe : (p.knowing known).instanceFrame t i = (p.instanceFrame t i).knowing known := rfl
    rw [instanceType, instanceType, hsame, hframe, recallExpr_knowing]

theorem Sound.learn
    (hkeys : ∀ x ∈ sites p.toModel, ∀ y ∈ sites p.toModel, keyOf x = keyOf y → x = y)
    (h : Sound p known) {x : Site} (hmem : x ∈ sites p.toModel) :
    ∃ more, (p.knowing known).learn x = p.knowing more ∧ Sound p more := by
  have hframe : (p.knowing known).instanceFrame x.1 x.2
      = (p.instanceFrame x.1 x.2).knowing known := rfl
  rw [learn_eq, hframe, exprCode_knowing]
  split
  next v hv =>
    obtain ⟨n, hn⟩ := h
    have hx : typeAt p (n + 1) x.1 x.2 = .ok v.type := by
      refine typeAt_of_value hmem (fun y hy type htype => hn y hy type ?_) hv
      unfold Plan.lookUp at htype
      split at htype
      next hknown => exact Except.ok.inj htype ▸ hknown
      next => cases htype
    exact ⟨_, rfl, Sound.insert hkeys ⟨n, hn⟩ hmem hx⟩
  next => exact ⟨known, rfl, h⟩

end

def Plan.unsettled (m : Model) : Plan :=
  ⟨m, .ofTypes m.types, ∅⟩

theorem ofModel_sound {m : Model}
    (hkeys : ∀ x ∈ sites m, ∀ y ∈ sites m, keyOf x = keyOf y → x = y) :
    ∃ known, Plan.ofModel m = (Plan.unsettled m).knowing known ∧ Sound (.unsettled m) known := by
  refine settle_keeps (fun p => ∃ known, p = (Plan.unsettled m).knowing known ∧
    Sound (.unsettled m) known) _ ?_ _ _ ⟨∅, rfl, sound_empty⟩
  rintro x hx p ⟨known, rfl, hs⟩
  exact hs.learn hkeys hx

theorem infer_ofModel {m : Model}
    (hkeys : ∀ x ∈ sites m, ∀ y ∈ sites m, keyOf x = keyOf y → x = y) {x : Site}
    (hmem : x ∈ sites m) : infer (.ofModel m) x.1 x.2 = infer (.unsettled m) x.1 x.2 := by
  obtain ⟨known, hplan, n, hn⟩ := ofModel_sound hkeys
  have hs : Sound ((Plan.unsettled m).knowing known) known :=
    ⟨n, fun y hy type htype => (typeAt_knowing n _ _).trans (hn y hy type htype)⟩
  have hplain := instanceType_infer (p := .unsettled m) hkeys sound_empty (Nat.lt_succ_self _) hmem
  have hsettled := instanceType_infer (p := (Plan.unsettled m).knowing known) hkeys hs
    (Nat.lt_succ_self _) hmem
  rw [instanceType_knowing] at hsettled
  rw [hplan]
  exact hsettled.unique hplain {} ⟨sound_empty, rfl⟩ ⟨sound_empty, rfl⟩

/-- The value of an instance refers to another, by its name or as an attribute of an object. -/
def Refers (m : Model) (x y : Site) : Prop :=
  Asks (infer (.unsettled m)) ((Plan.unsettled m).instanceFrame x.1 x.2) y x.2.value

theorem chain_apart {m : Model} {n : Nat} {x : Site} {type : ValueType} (ys : List Site)
    (hmem : x ∈ sites m) (hx : typeAt (.unsettled m) n x.1 x.2 = .ok type)
    (h : List.IsChain (Refers m) (x :: ys)) :
    (x :: ys).Nodup ∧ ∀ y ∈ ys, TransGen (Consults (.unsettled m)) x y := by
  induction ys generalizing n x type with
  | nil => simp
  | cons y ys ih =>
    obtain ⟨hxy, hys⟩ := List.isChain_cons_cons.mp h
    have hconsults : Consults (.unsettled m) x y := by
      unfold Refers at hxy
      rw [infer_eq] at hxy
      exact consults_of_asks (p := .unsettled m) sound_empty hmem hxy
    obtain ⟨type, hy⟩ := hconsults.typed (typeAt_le (Nat.le_succ n) hx)
    obtain ⟨hnodup, hlead⟩ := ih (hconsults.mem hmem) hy hys
    have hall : ∀ z ∈ y :: ys, TransGen (Consults (.unsettled m)) x z :=
      List.forall_mem_cons.mpr ⟨.single hconsults, fun z hz => .head hconsults (hlead z hz)⟩
    exact ⟨List.nodup_cons.mpr ⟨fun hin => not_circular hx (hall x hin), hnodup⟩, hall⟩

theorem keys_apart (o : Options) (set : SchemaSet) (m : Model) (h : Model.compile o set = .ok m)
    (hn : (structNames m).Nodup) :
    ∀ x ∈ sites m, ∀ y ∈ sites m, keyOf x = keyOf y → x = y := by
  rintro ⟨t, i⟩ hx ⟨u, j⟩ hy hkey
  obtain ⟨ht, hi⟩ := mem_sites.mp hx
  obtain ⟨hu, hj⟩ := mem_sites.mp hy
  obtain ⟨hpath, hid⟩ := Prod.mk.inj hkey
  obtain rfl : t = u := List.inj_on_of_nodup_map (nodup_paths m hn) ht hu hpath
  have hids := (List.nodup_append.mp (compile_memberIds o set m h t ht)).2.1
  exact congrArg (t, ·) (List.inj_on_of_nodup_map hids hi hj hid)

/-- Whatever types a generator has been asked for, it answers every further question, with what a
generator answers that has been asked nothing, and with what inference without any memory gives. An
instance that has a type does not come up twice in any chain of references. -/
theorem types_remembered (o : Options) (set : SchemaSet) (m : Model)
    (h : Model.compile o set = .ok m) (hn : (structNames m).Nodup) (fuel : Nat)
    (hfuel : (sites m).length < fuel) (xs : List Site) (hxs : ∀ x ∈ xs, x ∈ sites m) :
    ∃ s, answers (.unsettled m) fuel xs {}
        = some (xs.map fun x => infer (.unsettled m) x.1 x.2, s) ∧ s.pending = [] ∧
      ∀ x ∈ sites m,
        (∃ t, (instanceType (.unsettled m) fuel x.1 x.2).runIn s
          = some (infer (.unsettled m) x.1 x.2, t) ∧ t.pending = []) ∧
        (∃ t, (instanceType (.unsettled m) fuel x.1 x.2).runIn {}
          = some (infer (.unsettled m) x.1 x.2, t)) ∧
        infer (.ofModel m) x.1 x.2 = infer (.unsettled m) x.1 x.2 ∧
        ∀ type, infer (.unsettled m) x.1 x.2 = .ok type →
          ∀ ys, List.IsChain (Refers m) (x :: ys) → (x :: ys).Nodup := by
  have hkeys := keys_apart o set m h hn
  have hs : Sound (.unsettled m) (Plan.unsettled m).known := sound_empty
  have hempty : Memory.Holds (.unsettled m) [] {} := ⟨sound_empty, rfl⟩
  obtain ⟨s, hanswers, hholds⟩ := answers_infer (p := .unsettled m) hkeys hs hfuel xs hxs {} hempty
  refine ⟨s, hanswers, hholds.pending, fun x hmem => ?_⟩
  have hfollows := instanceType_infer (p := .unsettled m) hkeys hs hfuel hmem
  obtain ⟨t, ht, hafter⟩ := hfollows s hholds
  obtain ⟨u, hu, -⟩ := hfollows {} hempty
  refine ⟨⟨t, ht, hafter.pending⟩, ⟨u, hu⟩, infer_ofModel hkeys hmem, fun type htype ys hys => ?_⟩
  obtain ⟨n, hn⟩ := exists_typeAt hs ((sites m).length + 1)
  rw [infer_eq] at htype
  exact (chain_apart ys hmem (hn [] x hmem type htype) hys).1

def counted : SchemaSet :=
  ⟨⟨"counted.ksy", .mk
    { head := { Meta.empty with id := "counted" }
      instances := [("two", { value := .int 2 }), ("three", { value := .str "two + 1" })] } []⟩, []⟩

theorem types_remembered_counted : ∃ m two three, Model.compile {} counted = .ok m ∧
    sites m = [two, three] ∧
    ∃ s, answers (.unsettled m) 3 [three, two, three] {}
        = some ([.ok .word, .ok .word, .ok .word], s) ∧
      ∀ ys, List.IsChain (Refers m) (three :: ys) → (three :: ys).Nodup := by
  obtain ⟨m, hm, hview⟩ := exists_ok_of_toOption_map (Model.compile {} counted)
    (fun m => (decide (structNames m).Nodup,
      (sites m).map fun x => (typeAt (.unsettled m) 2 x.1 x.2).toOption))
    (true, [some .word, some .word]) (by decide +kernel)
  obtain ⟨hn, htypes⟩ := Prod.mk.inj hview
  have hn := of_decide_eq_true hn
  have hkeys := keys_apart {} counted m hm hn
  obtain ⟨two, rest, hsites, htwo, hrest⟩ := List.map_eq_cons_iff.mp htypes
  obtain ⟨three, none, rfl, hthree, hnone⟩ := List.map_eq_cons_iff.mp hrest
  obtain rfl := List.map_eq_nil_iff.mp hnone
  have htype (x : Site) (hx : x ∈ sites m)
      (h : (typeAt (.unsettled m) 2 x.1 x.2).toOption = some .word) :
      infer (.unsettled m) x.1 x.2 = .ok .word := by
    refine infer_of_typeAt (p := .unsettled m) hkeys sound_empty hx (n := 2) ?_
    cases htypeAt : typeAt (.unsettled m) 2 x.1 x.2 <;> rw [htypeAt] at h <;> cases h
    rfl
  have htwo := htype two (by simp [hsites]) htwo
  have hthree := htype three (by simp [hsites]) hthree
  obtain ⟨s, hanswers, -, hall⟩ := types_remembered {} counted m hm hn 3 (by simp [hsites])
    [three, two, three] (by simp [hsites])
  obtain ⟨-, -, -, hchain⟩ := hall three (by simp [hsites])
  refine ⟨m, two, three, hm, hsites, s, ?_, hchain _ hthree⟩
  simpa [htwo, hthree] using hanswers

end FormatFuzz.Program
