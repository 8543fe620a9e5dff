import FormatFuzz.Proofs.Expr.Values
import FormatFuzz.Proofs.Model.EnumPaths
import FormatFuzz.Proofs.Model.Sizes

/-!
# Expressions with a node in every place

Every expression of a compiled model is the tree of a value that an attribute gives under some key.
A key without a value has no expression, so a null does no harm there; an entry of a pool has to be
a node. What is left are lists: a null inside the list of a value, or among the choices of a field,
leaves its place empty, and then only.
-/

set_option autoImplicit false

namespace FormatFuzz

def Attr.constant (a : Attr) : Value :=
  match a.valid with
  | .map _ => (a.valid.get? "eq").getD .null
  | v => v

/-- The values of an attribute whose trees the field `f` stores, each at its place. -/
inductive Attr.Gives (a : Attr) (f : Field) : Place → Value → Prop
  | guard (h : a.guard ≠ .null) : Gives a f .guard a.guard
  | fixed (h : a.constant ≠ .null) : Gives a f .fixed a.constant
  | measure (h : a.attrLen ≠ .null) : Gives a f .measure a.attrLen
  | input {name : String} {v : Value} (hf : f.elemRole = .checksum) (h : (name, v) ∈ a.checksums) :
      Gives a f .input v
  | count (hf : f.repeated.isSome = true) (h : a.repeated = "expr") : Gives a f .count a.repeatExpr
  | until (hf : f.repeated.isSome = true) (h : a.repeated = "until") :
      Gives a f .until a.repeatUntil
  | processKey {arg key : String} (hf : f.process.isSome = true)
      (h : Text.cut (Text.trim a.process) "(" = some ("xor", arg))
      (hk : Text.dropSuffix? arg ")" = some key) : Gives a f .processKey (.str key)
  | choice {v : Value} (hf : f.elemRole = .randomChoice) (h : v ∈ Build.offered a) :
      Gives a f .choice v
  | switchOn {on : Value} {cases : List (String × String)}
      (h : a.type = some (.switch on cases)) : Gives a f .switchOn on
  | caseMatch {on : Value} {cases : List (String × String)} {key name : String}
      (h : a.type = some (.switch on cases)) (hc : (key, name) ∈ cases) (hk : key ≠ "_") :
      Gives a f .caseMatch (.str key)
  | size {s : Size} (hf : f.size = some s) (hs : s.isFree = false) (h : a.size ≠ .null) :
      Gives a f .size a.size

inductive Attr.Computes (a : Attr) : Place → Value → Prop
  | value : Computes a .value a.value
  | guard (h : a.guard ≠ .null) : Computes a .valueGuard a.guard

/-- The trees that a member holds answer to the values that it is given: each of them stands at its
place for one of those, and each of those has one that stands for it. -/
structure Answers (holds : Place → Expr → Prop) (gives : Place → Value → Prop) : Prop where
  held (k : Place) (e : Expr) (h : holds k e) : ∃ v, gives k v ∧ e.Spells v
  given (k : Place) (v : Value) (h : gives k v) : ∃ e, holds k e ∧ e.Spells v

/-- A field after its type was resolved: its size may have become free, its dependencies are
known. -/
def Field.settled (g : Field) (z : Option Size) (deps : List String) : Field :=
  { g with size := z, deps := deps }

namespace Build

theorem expr?_spells {v : Value} {x : Option Expr} (h : expr? v = .ok x) :
    (x = none ∧ v = .null) ∨ ∃ e, x = some e ∧ v ≠ .null ∧ e.Spells v := by
  unfold expr? at h
  split at h
  next y hy =>
    cases h
    cases x with
    | none => exact .inl ⟨rfl, Expr.eq_null_of_ofValue hy⟩
    | some e =>
      refine .inr ⟨e, rfl, ?_, Expr.spells_ofValue v e hy⟩
      rintro rfl
      simp [Expr.ofValue] at hy
  next => cases h

theorem held_of_expr? {v : Value} {x : Option Expr} {e : Expr} (h : expr? v = .ok x)
    (hx : x = some e) : v ≠ .null ∧ e.Spells v := by
  rcases expr?_spells h with ⟨hn, -⟩ | ⟨e', he, hv, hs⟩
  · rw [hn] at hx
    cases hx
  · rw [hx] at he
    cases he
    exact ⟨hv, hs⟩

theorem given_of_expr? {v : Value} {x : Option Expr} (h : expr? v = .ok x) (hv : v ≠ .null) :
    ∃ e, x = some e ∧ e.Spells v := by
  rcases expr?_spells h with ⟨-, hn⟩ | ⟨e, he, -, hs⟩
  · exact absurd hn hv
  · exact ⟨e, he, hs⟩

theorem exprOr_spells {fault : Misuse} {v : Value} {e : Expr} (h : exprOr fault v = .ok e) :
    e.Spells v := by
  obtain ⟨x, hx, h⟩ := (bind_eq_ok _ _ _).mp h
  cases x with
  | none => cases h
  | some y =>
    obtain rfl := (pure_eq_ok _ _).mp h
    exact (held_of_expr? hx rfl).2

theorem fixedValue_eq (a : Attr) : fixedValue a.valid = expr? a.constant := by
  unfold fixedValue Attr.constant
  generalize a.valid = v
  cases v <;> rfl

theorem choice_spells {m : Model} {here : TypePath} {enum : Option EnumId} {v : Value} {e : Expr}
    (h : choice m here enum v = .ok e) : e.Spells v := by
  obtain ⟨x, hx, h⟩ := (bind_eq_ok _ _ _).mp h
  rcases expr?_spells hx with ⟨rfl, rfl⟩ | ⟨y, rfl, hv, hs⟩
  · obtain rfl := (pure_eq_ok _ _).mp h
    exact ⟨rfl, Expr.lacksInLists_absent⟩
  · dsimp only at h
    split at h
    next p id hpath =>
      obtain ⟨_, -, h⟩ := (bind_eq_ok _ _ _).mp h
      obtain rfl := (pure_eq_ok _ _).mp h
      -- a member that was written, or one that a bare name stands for
      have hy : y.complete = true := by
        split at hpath
        next hname =>
          obtain rfl := Option.some.inj hname
          rfl
        next =>
          cases hpath
          rfl
      exact Expr.spells_of_complete rfl (hs.complete.symm.trans hy)
    next z hz hpath =>
      obtain rfl := (pure_eq_ok _ _).mp h
      split at hpath
      · exact absurd (Option.some.inj hpath).symm (hz _ _)
      · cases hpath
        exact hs
    next hpath =>
      split at hpath <;> cases hpath

theorem repetition_form {o : Options} {a : Attr} {r : Repeat} (h : repetition o a = .ok r) :
    repeatForm a = .ok r.form := by
  unfold repetition at h
  obtain ⟨form, hform, h⟩ := (bind_eq_ok _ _ _).mp h
  obtain ⟨-, h⟩ := guard_eq_ok _ _ _ _ h
  obtain rfl := (pure_eq_ok _ _).mp h
  exact hform

theorem repeatForm_cases {a : Attr} {form : RepeatForm} (h : repeatForm a = .ok form) :
    (a.repeated = "expr" ∧ ∃ e, form = .count e ∧ e.Spells a.repeatExpr) ∨
      (a.repeated = "until" ∧ ∃ e, form = .until e ∧ e.Spells a.repeatUntil) ∨
      (a.repeated = "eos" ∧ form = .eos) := by
  unfold repeatForm at h
  split at h
  next hr =>
    obtain ⟨e, he, h⟩ := (bind_eq_ok _ _ _).mp h
    obtain rfl := (pure_eq_ok _ _).mp h
    exact .inl ⟨hr, e, rfl, exprOr_spells he⟩
  next =>
    split at h
    next hr =>
      obtain ⟨e, he, h⟩ := (bind_eq_ok _ _ _).mp h
      obtain rfl := (pure_eq_ok _ _).mp h
      exact .inr (.inl ⟨hr, e, rfl, exprOr_spells he⟩)
    next =>
      split at h
      next hr =>
        cases h
        exact .inr (.inr ⟨hr, rfl⟩)
      next => cases h

theorem process_cases {s : String} {p : Process} (h : process s = .ok (some p)) :
    (p = .zlib ∧ Text.cut (Text.trim s) "(" = none) ∨
      ∃ arg key e, p = .xor e ∧ Text.cut (Text.trim s) "(" = some ("xor", arg) ∧
        Text.dropSuffix? arg ")" = some key ∧ Expr.parse key = .ok e := by
  unfold process at h
  split at h
  next => cases h
  next =>
    dsimp only at h
    split at h
    next hcut =>
      split at h
      · cases h
        exact .inl ⟨rfl, hcut⟩
      · cases h
    next name arg hcut =>
      split at h
      next key hname hkey =>
        split at h
        next e he =>
          cases h
          rw [beq_iff_eq] at hname
          exact .inr ⟨arg, key, e, rfl, hname ▸ hcut, hkey, he⟩
        next => cases h
      next => cases h

theorem switchCases_keys {m : Model} {here : TypePath} {entries : List (String × String)}
    {cases : List (Expr × TypePath)} {default : Option TypePath}
    (h : switchCases (findType m here) entries = .ok (cases, default)) :
    List.Forall₂ (fun c x => Expr.parse c.1 = .ok x.1)
      (entries.filter fun c => c.1 ≠ "_") cases := by
  induction entries generalizing cases default with
  | nil =>
    cases h
    exact .nil
  | cons c entries ih =>
    obtain ⟨p, -, h⟩ := (bind_eq_ok _ _ _).mp h
    split at h
    next hkey =>
      obtain ⟨⟨rest, other⟩, hrest, h⟩ := (bind_eq_ok _ _ _).mp h
      obtain ⟨rfl, -⟩ := Prod.mk.inj ((pure_eq_ok _ _).mp h)
      rw [List.filter_cons_of_neg (by simpa using hkey)]
      exact ih hrest
    next hkey =>
      split at h
      next => cases h
      next x hx =>
        obtain ⟨⟨rest, other⟩, hrest, h⟩ := (bind_eq_ok _ _ _).mp h
        obtain ⟨rfl, -⟩ := Prod.mk.inj ((pure_eq_ok _ _).mp h)
        rw [List.filter_cons_of_pos (by simpa using hkey)]
        exact .cons hx (ih hrest)

theorem typeRef_switch {m : Model} {here : TypePath} {a : Attr} {t : TypeRef} {on : Value}
    {entries : List (String × String)} (h : typeRef (findType m here) a = .ok t)
    (ha : a.type = some (.switch on entries)) :
    ∃ e cases default, t = .switch e cases default ∧ e.Spells on ∧
      List.Forall₂ (fun c x => Expr.parse c.1 = .ok x.1)
        (entries.filter fun c => c.1 ≠ "_") cases := by
  rw [typeRef, ha] at h
  obtain ⟨e, he, h⟩ := (bind_eq_ok _ _ _).mp h
  obtain ⟨⟨cases', default⟩, hcases, h⟩ := (bind_eq_ok _ _ _).mp h
  cases h
  exact ⟨e, cases', default, rfl, exprOr_spells he, switchCases_keys hcases⟩

theorem exists_switch_of_typeRef {m : Model} {here : TypePath} {a : Attr} {on : Expr}
    {cases : List (Expr × TypePath)} {default : Option TypePath}
    (h : typeRef (findType m here) a = .ok (.switch on cases default)) :
    ∃ v entries, a.type = some (.switch v entries) := by
  unfold typeRef at h
  split at h
  next v entries ha => exact ⟨v, entries, ha⟩
  next => cases h
  next =>
    unfold findType at h
    split at h
    · split at h <;> cases h
    · split at h <;> cases h
  next => cases h

theorem size_declared {o : Options} {a : Attr} {terminated : Bool} {s : Size}
    (h : size o a terminated = .ok (some s)) : expr? a.size = .ok s.expr := by
  unfold size at h
  dsimp only at h
  obtain ⟨-, h⟩ := guard_eq_ok _ _ _ _ h
  obtain ⟨declared, hdeclared, h⟩ := (bind_eq_ok _ _ _).mp h
  obtain ⟨_, -, h⟩ := (bind_eq_ok _ _ _).mp h
  split at h
  next => cases h
  next =>
    rw [pure_eq_ok, Option.some.injEq] at h
    rw [hdeclared, ← h]

theorem checksum_input {a : Attr} {type : TypeRef} {s : Option Size} {d : Digest} {e : Expr}
    (h : checksum a type s = .ok (d, e)) : ∃ name v, a.checksums = [(name, v)] ∧ e.Spells v := by
  unfold checksum at h
  split at h
  next name v hsum =>
    split at h
    next => cases h
    next =>
      obtain ⟨x, hx, h⟩ := (bind_eq_ok _ _ _).mp h
      obtain ⟨_, -, h⟩ := (bind_eq_ok _ _ _).mp h
      obtain ⟨-, rfl⟩ := Prod.mk.inj ((pure_eq_ok _ _).mp h)
      exact ⟨name, v, hsum, exprOr_spells hx⟩
  next => cases h

theorem measure_ok {a : Attr} {type : TypeRef} {x : Option Expr} (h : measure a type = .ok x) :
    expr? a.attrLen = .ok x := by
  unfold measure at h
  split at h
  next => cases h
  next => exact h

theorem role_measures {a : Attr} (h : a.attrLen ≠ .null) (element : Bool) :
    role element a = .derivedLength := by
  have hnull : a.attrLen.isNull = false := by
    cases hv : a.attrLen <;> simp_all [Value.isNull]
  simp [role, hnull]

variable {o : Options} {m : Model} {here : TypePath} {a : Attr} {g : Field}

section

variable {z : Option Size} {deps : List String}

/-- Every tree of a field stands for a value of its attribute, also when the size of the field has
become free and its dependencies are known. -/
theorem Builds.held (h : Builds o m here a g)
    (hz : ∀ s, z = some s → s.isFree = false → g.size = some s) (k : Place) (e : Expr)
    (he : (g.settled z deps).Holds k e) : ∃ v, a.Gives (g.settled z deps) k v ∧ e.Spells v := by
  cases he with
  | guard he =>
    obtain ⟨hv, hs⟩ := held_of_expr? h.guard he
    exact ⟨_, .guard hv, hs⟩
  | fixed he =>
    obtain ⟨hv, hs⟩ := held_of_expr? ((fixedValue_eq a).symm.trans h.fixed) he
    exact ⟨_, .fixed hv, hs⟩
  | measure he =>
    have hm := h.completes.measure
    split at hm
    next =>
      obtain ⟨hv, hs⟩ := held_of_expr? (measure_ok hm) he
      exact ⟨_, .measure hv, hs⟩
    next => cases hm.symm.trans he
  | input he =>
    have hi := h.completes.input
    split at hi
    next hrole =>
      obtain ⟨d, x, hx, hi⟩ := hi
      obtain ⟨name, v, hsum, hs⟩ := checksum_input hx
      cases hi.symm.trans he
      have hmem : (name, v) ∈ a.checksums := hsum ▸ List.mem_singleton_self _
      exact ⟨v, .input hrole hmem, hs⟩
    next => cases hi.symm.trans he
  | count he hr =>
    have hrep := repeatForm_cases (repetition_form (h.repeated _ he))
    rw [hr] at hrep
    obtain ⟨ha, x, hx, hs⟩ | ⟨-, x, hx, -⟩ | ⟨-, hx⟩ := hrep
    · cases hx
      exact ⟨_, .count (Option.isSome_of_eq_some he) ha, hs⟩
    · cases hx
    · cases hx
  | «until» he hr =>
    have hrep := repeatForm_cases (repetition_form (h.repeated _ he))
    rw [hr] at hrep
    obtain ⟨-, x, hx, -⟩ | ⟨ha, x, hx, hs⟩ | ⟨-, hx⟩ := hrep
    · cases hx
    · cases hx
      exact ⟨_, .until (Option.isSome_of_eq_some he) ha, hs⟩
    · cases hx
  | processKey he =>
    obtain ⟨hx, -⟩ | ⟨arg, key, x, hx, hcut, hkey, hparse⟩ := process_cases (h.process _ he)
    · cases hx
    · cases hx
      exact ⟨_, .processKey (Option.isSome_of_eq_some he) hcut hkey, Expr.spells_parse hparse⟩
  | choice he =>
    have hc := h.completes.choices
    split at hc
    next hrole =>
      obtain ⟨v, hv, hve⟩ := forall₂_mem_right _ _ _ (mapM_eq_ok _ _ _ hc) e he
      exact ⟨v, .choice hrole hv, choice_spells hve⟩
    next =>
      change e ∈ g.choices at he
      rw [hc] at he
      cases he
  | switchOn he =>
    have ht := h.type
    rw [show g.type = _ from he] at ht
    obtain ⟨v, entries, ha⟩ := exists_switch_of_typeRef ht
    obtain ⟨x, cases', default', hx, hs, -⟩ := typeRef_switch ht ha
    cases hx
    exact ⟨v, .switchOn ha, hs⟩
  | caseMatch he hc =>
    have ht := h.type
    rw [show g.type = _ from he] at ht
    obtain ⟨v, entries, ha⟩ := exists_switch_of_typeRef ht
    obtain ⟨x, cases', default', hx, -, hkeys⟩ := typeRef_switch ht ha
    cases hx
    obtain ⟨c, hmem, hparse⟩ := forall₂_mem_right _ _ _ hkeys _ hc
    obtain ⟨hmem, hkey⟩ := List.mem_filter.mp hmem
    exact ⟨_, .caseMatch ha hmem (by simpa using hkey), Expr.spells_parse hparse⟩
  | @size s _ he hs =>
    have hfree : s.isFree = false := by simp [Size.isFree, hs]
    obtain ⟨hv, hs⟩ := held_of_expr? (size_declared (h.size s (hz s he hfree))) hs
    exact ⟨_, .size he hfree hv, hs⟩

theorem Builds.given (h : Builds o m here a g)
    (hz : ∀ s, z = some s → s.isFree = false → g.size = some s) (k : Place) (v : Value)
    (hv : a.Gives (g.settled z deps) k v) : ∃ e, (g.settled z deps).Holds k e ∧ e.Spells v := by
  cases hv with
  | guard hv =>
    obtain ⟨e, he, hs⟩ := given_of_expr? h.guard hv
    exact ⟨e, .guard he, hs⟩
  | fixed hv =>
    obtain ⟨e, he, hs⟩ := given_of_expr? ((fixedValue_eq a).symm.trans h.fixed) hv
    exact ⟨e, .fixed he, hs⟩
  | measure hv =>
    have hrole : g.elemRole = .derivedLength := by
      rw [h.elemRole, h.role, role_measures hv false]
      rfl
    have hm := h.completes.measure
    rw [if_pos hrole] at hm
    obtain ⟨e, he, hs⟩ := given_of_expr? (measure_ok hm) hv
    exact ⟨e, .measure he, hs⟩
  | @input name v hrole hmem =>
    have hi := h.completes.input
    rw [if_pos (show g.elemRole = _ from hrole)] at hi
    obtain ⟨d, x, hx, hi⟩ := hi
    obtain ⟨name', v', hsum, hs⟩ := checksum_input hx
    rw [hsum, List.mem_singleton] at hmem
    cases hmem
    exact ⟨x, .input hi, hs⟩
  | count hsome ha =>
    obtain ⟨r, hr⟩ := Option.isSome_iff_exists.mp hsome
    have hrep := repeatForm_cases (repetition_form (h.repeated r hr))
    rw [ha] at hrep
    obtain ⟨-, x, hx, hs⟩ | ⟨hne, -⟩ | ⟨hne, -⟩ := hrep
    · exact ⟨x, .count hr hx, hs⟩
    · exact absurd hne (by decide)
    · exact absurd hne (by decide)
  | «until» hsome ha =>
    obtain ⟨r, hr⟩ := Option.isSome_iff_exists.mp hsome
    have hrep := repeatForm_cases (repetition_form (h.repeated r hr))
    rw [ha] at hrep
    obtain ⟨hne, -⟩ | ⟨-, x, hx, hs⟩ | ⟨hne, -⟩ := hrep
    · exact absurd hne (by decide)
    · exact ⟨x, .until hr hx, hs⟩
    · exact absurd hne (by decide)
  | processKey hsome hcut hkey =>
    obtain ⟨p, hp⟩ := Option.isSome_iff_exists.mp hsome
    obtain ⟨-, hno⟩ | ⟨arg', key', x, hx, hcut', hkey', hparse⟩ := process_cases (h.process p hp)
    · cases hno.symm.trans hcut
    · cases hcut'.symm.trans hcut
      cases hkey'.symm.trans hkey
      exact ⟨x, .processKey (hx ▸ hp), Expr.spells_parse hparse⟩
  | @choice v hrole hmem =>
    have hc := h.completes.choices
    rw [if_pos (show g.elemRole = _ from hrole)] at hc
    obtain ⟨e, he, hve⟩ := forall₂_mem_left _ _ _ (mapM_eq_ok _ _ _ hc) v hmem
    exact ⟨e, .choice he, choice_spells hve⟩
  | switchOn ha =>
    obtain ⟨e, cases', default, ht, hs, -⟩ := typeRef_switch h.type ha
    exact ⟨e, .switchOn ht, hs⟩
  | @caseMatch on entries key name ha hmem hkey =>
    obtain ⟨e, cases', default, ht, -, hkeys⟩ := typeRef_switch h.type ha
    obtain ⟨c, hc, hparse⟩ := forall₂_mem_left _ _ _ hkeys (key, name)
      (List.mem_filter.mpr ⟨hmem, by simpa using hkey⟩)
    exact ⟨c.1, .caseMatch ht hc, Expr.spells_parse hparse⟩
  | @size s hs hfree hv =>
    obtain ⟨e, he, hspells⟩ := given_of_expr? (size_declared (h.size s (hz s hs hfree))) hv
    exact ⟨e, .size hs he, hspells⟩

end

theorem instance_answers {id : String} {i j : Instance} (h : «instance» here id a = .ok i)
    (hvalue : j.value = i.value) (hguard : j.guard = i.guard) : Answers j.Holds a.Computes := by
  obtain ⟨value, hv, h⟩ := (bind_eq_ok _ _ _).mp h
  obtain ⟨guard, hg, h⟩ := (bind_eq_ok _ _ _).mp h
  obtain rfl := (pure_eq_ok _ _).mp h
  have hv := exprOr_spells ((Fault.at_eq_ok _ _ _ _ _).mp hv)
  have hg := (Fault.at_eq_ok _ _ _ _ _).mp hg
  constructor
  case held =>
    intro k e he
    cases he with
    | value => exact ⟨_, .value, hvalue ▸ hv⟩
    | guard he =>
      obtain ⟨hne, hs⟩ := held_of_expr? hg (hguard.symm.trans he)
      exact ⟨_, .guard hne, hs⟩
  case given =>
    intro k v hgiven
    cases hgiven with
    | value => exact ⟨_, .value, hvalue ▸ hv⟩
    | guard hne =>
      obtain ⟨e, he, hs⟩ := given_of_expr? hg hne
      exact ⟨e, .guard (hguard.trans he), hs⟩

theorem poolEntryKind_complete {i : Nat} {x : Option Expr} {k : Kind}
    (h : poolEntryKind m here i x = .ok k) : ∃ e, x = some e ∧ e.complete = true := by
  unfold poolEntryKind at h
  split at h
  · exact ⟨_, rfl, rfl⟩
  · exact ⟨_, rfl, rfl⟩
  · exact ⟨_, rfl, rfl⟩
  · cases h

theorem poolEntries_complete {vs : List Value} {i : Nat} {kind out : Option Kind} {es : List Expr}
    (h : poolEntries m here i kind vs = .ok (out, es)) : ∀ e ∈ es, e.complete = true := by
  induction vs generalizing i kind out es with
  | nil =>
    cases h
    simp
  | cons v vs ih =>
    obtain ⟨x, -, h⟩ := (bind_eq_ok _ _ _).mp h
    obtain ⟨k, hk, h⟩ := (bind_eq_ok _ _ _).mp h
    obtain ⟨-, h⟩ := guard_eq_ok _ _ _ _ h
    obtain ⟨⟨kind', rest⟩, hrest, h⟩ := (bind_eq_ok _ _ _).mp h
    obtain ⟨rfl, rfl⟩ := Prod.mk.inj ((pure_eq_ok _ _).mp h)
    obtain ⟨e, rfl, he⟩ := poolEntryKind_complete hk
    exact List.forall_mem_cons.mpr ⟨he, ih hrest⟩

theorem pool_complete {order : List Value} {x : Option PoolDef} {d : PoolDef}
    (h : pool m here order = .ok x) (hd : x = some d) : ∀ e ∈ d.entries, e.complete = true := by
  obtain ⟨⟨kind, es⟩, hes, h⟩ := (bind_eq_ok _ _ _).mp h
  cases kind with
  | none =>
    rw [pure_eq_ok] at h
    cases h.trans hd
  | some k =>
    rw [pure_eq_ok] at h
    cases h.trans hd
    exact poolEntries_complete ((Fault.at_eq_ok _ _ _ _ _).mp hes)

end Build

theorem Answers.complete_iff {holds : Place → Expr → Prop} {gives : Place → Value → Prop}
    (h : Answers holds gives) : (∀ k e, holds k e → e.complete = true) ↔
      ∀ k v, gives k v → v.whole = true := by
  constructor
  · intro hall k v hv
    obtain ⟨e, he, hs⟩ := h.given k v hv
    exact hs.complete.symm.trans (hall k e he)
  · intro hall k e he
    obtain ⟨v, hv, hs⟩ := h.held k e he
    exact hs.complete.trans (hall k v hv)

theorem forall_mem_iff_forall₂ {α β : Type} {R Q : α → β → Prop} {P : β → Prop} {xs : List α}
    {ys : List β} (h : List.Forall₂ R xs ys) (hR : ∀ x y, R x y → (P y ↔ Q x y)) :
    (∀ y ∈ ys, P y) ↔ List.Forall₂ Q xs ys := by
  induction h with
  | nil => simp
  | cons hxy _ ih => rw [List.forall_mem_cons, List.forall₂_cons, hR _ _ hxy, ih]

/-- A type whose members answer to the attributes of one of a set, with a pool of nodes. -/
structure TypeDef.ReadFrom (x : TypeDef × SchemaBody) (t : TypeDef) : Prop where
  path : t.path = x.1.path
  fields : List.Forall₂ (fun a f => Answers f.Holds (a.Gives f)) x.2.seq t.fields
  instances : List.Forall₂ (fun e i => Answers i.Holds e.2.Computes) x.2.instances t.instances
  pool (d : PoolDef) (h : t.pool = some d) : ∀ e ∈ d.entries, e.complete = true

/-- Every expression of a type has a node in every place. -/
structure TypeDef.Complete (t : TypeDef) : Prop where
  fields : ∀ f ∈ t.fields, ∀ k e, f.Holds k e → e.complete = true
  instances : ∀ i ∈ t.instances, ∀ k e, i.Holds k e → e.complete = true
  pool (d : PoolDef) (h : t.pool = some d) : ∀ e ∈ d.entries, e.complete = true

def Model.Complete (m : Model) : Prop :=
  ∀ t ∈ m.types, t.Complete

/-- The members of a type are given values without nulls. -/
structure TypeDef.GivenWhole (x : TypeDef × SchemaBody) (t : TypeDef) : Prop where
  fields : List.Forall₂ (fun a f => ∀ k v, Attr.Gives a f k v → v.whole = true) x.2.seq t.fields
  instances : List.Forall₂ (fun e _ => ∀ k v, Attr.Computes e.2 k v → v.whole = true)
    x.2.instances t.instances

theorem TypeDef.ReadFrom.complete_iff (x : TypeDef × SchemaBody) (t : TypeDef)
    (h : t.ReadFrom x) : t.Complete ↔ t.GivenWhole x := by
  have hfields := forall_mem_iff_forall₂ h.fields fun a f hf => hf.complete_iff
  have hinstances := forall_mem_iff_forall₂ h.instances fun e i hi => hi.complete_iff
  constructor
  · intro hc
    exact ⟨hfields.mp hc.fields, hinstances.mp hc.instances⟩
  · intro hw
    exact ⟨hfields.mpr hw.fields, hinstances.mpr hw.instances, h.pool⟩

namespace Resolve

variable {find? : TypeDef → TypePath → Option TypeDef} {t u : TypeDef}

theorem exists_settled {f g : Field} (h : Sized find? t u g f) :
    f = g.settled f.size f.deps ∧ ∀ s, f.size = some s → s.isFree = false → g.size = some s := by
  obtain ⟨-, -, -, -, hf⟩ := h
  rcases freeSize_cases t g with hg | ⟨s, -, hg⟩
  · rw [hg] at hf
    have hsize : f.size = g.size := by rw [hf]
    exact ⟨hsize ▸ hf, fun s hs _ => hsize.symm.trans hs⟩
  · rw [hg] at hf
    have hsize : f.size = some { s with expr := none } := by rw [hf]
    refine ⟨hsize ▸ hf, fun z hz hfree => ?_⟩
    cases hsize.symm.trans hz
    cases hfree

theorem readFrom_typeDef {o : Options} {b : Model} {x : TypeDef × SchemaBody}
    (hx : Build.Makes o b x t) (h : typeDef find? t = .ok u) : u.ReadFrom x := by
  have hres := typeDef_ok find? t u h
  constructor
  case path => exact hres.path.trans hx.path.symm
  case fields =>
    refine forall₂_comp (fun a g f hg hf => ?_) (mapM_eq_ok _ _ _ hx.fields)
      (typeDef_sized find? t u h)
    obtain ⟨hf, hz⟩ := exists_settled hf
    have hbuilds := Build.field_ok o b t.path a g hg
    rw [hf]
    exact ⟨hbuilds.held hz, hbuilds.given hz⟩
  case instances =>
    refine forall₂_comp (fun e i j hi hj => ?_) (mapM_eq_ok _ _ _ hx.instances) hres.instances
    obtain ⟨-, hvalue, hguard, -⟩ := instanceDeps_ok u i j hj
    exact Build.instance_answers hi hvalue hguard
  case pool =>
    intro d hd
    obtain ⟨c, hc⟩ := hx.pool
    exact Build.pool_complete hc ((typeDef_keeps find? t u h).2.2.1.symm.trans hd)

end Resolve

/-- In a compiled model every tree of a field or an instance stands for a value that its attribute
has in the normal form of the schema, and every value that is given has its tree: the tree is
complete exactly if no null stands in the value, and what it lacks it lacks in a list. So a model is
complete exactly if no null stands among the choices of a field or in a list. -/
theorem Model.compile_complete_iff (o : Options) (set : SchemaSet) (m : Model)
    (h : Model.compile o set = .ok m) :
    ∃ n, set.normalize o = .ok n ∧ List.Forall₂ TypeDef.ReadFrom (Build.allShells n) m.types ∧
      (m.Complete ↔ List.Forall₂ TypeDef.GivenWhole (Build.allShells n) m.types) := by
  obtain ⟨n, b, hn, hb, hus⟩ := Model.compile_each o set m h
  obtain ⟨c, -, hmakes, -⟩ := Model.build_each o n b hb
  have hread : List.Forall₂ TypeDef.ReadFrom (Build.allShells n) m.types :=
    forall₂_comp (fun x t u hx ⟨_, hu⟩ => Resolve.readFrom_typeDef hx hu) hmakes hus
  exact ⟨n, hn, hread, forall_mem_iff_forall₂ hread TypeDef.ReadFrom.complete_iff⟩

/-- A number with a null among its choices, and bytes that are a list with a null. -/
def gappy : SchemaSet :=
  ⟨⟨"gappy.ksy", .mk
    { head := { Meta.empty with id := "gappy" }
      seq := [
        { id := "kind", type := some (.named "u1"), choice := [.int 1, .null] },
        { id := "data", valid := .list [.int 7, .null] }] } []⟩, []⟩

/-- Which choices of a field are complete, and whether its fixed value is. -/
def Field.filled (f : Field) : List Bool × Option Bool :=
  (f.choices.map Expr.complete, f.fixed.map Expr.complete)

theorem compile_gappy : ∃ m, Model.compile {} gappy = .ok m ∧
    ∃ t ∈ m.types, ∃ f ∈ t.fields, ∃ g ∈ t.fields,
      f.filled = ([true, false], none) ∧ g.filled = ([], some false) := by
  obtain ⟨m, hm, hfilled⟩ := exists_ok_of_toOption_map (Model.compile {} gappy)
    (fun m => m.types.map fun t => t.fields.map Field.filled)
    [[([true, false], none), ([], some false)]] (by decide +kernel)
  obtain ⟨t, ht, hfields⟩ := List.map_eq_singleton_iff.mp hfilled
  obtain ⟨f, rest, hf, hfirst, hrest⟩ := List.map_eq_cons_iff.mp hfields
  obtain ⟨g, rfl, hsecond⟩ := List.map_eq_singleton_iff.mp hrest
  exact ⟨m, hm, t, by simp [ht], f, by simp [hf], g, by simp [hf], hfirst, hsecond⟩

theorem Model.compile_complete_iff_gappy : ∃ m, Model.compile {} gappy = .ok m ∧
    ∃ n, gappy.normalize {} = .ok n ∧
      List.Forall₂ TypeDef.ReadFrom (Build.allShells n) m.types ∧
      (m.Complete ↔ List.Forall₂ TypeDef.GivenWhole (Build.allShells n) m.types) := by
  obtain ⟨m, hm, -⟩ := compile_gappy
  exact ⟨m, hm, Model.compile_complete_iff {} gappy m hm⟩

/-- A choice and an element of a list are missing in a model that was compiled. -/
theorem Model.compile_incomplete : ∃ m, Model.compile {} gappy = .ok m ∧ ¬ m.Complete ∧
    ∃ t ∈ m.types, ∃ f ∈ t.fields, ∃ g ∈ t.fields,
      (∃ e, f.Holds .choice e ∧ e.complete = false) ∧
        ∃ e, g.Holds .fixed e ∧ e.complete = false := by
  obtain ⟨m, hm, t, ht, f, hf, g, hg, hchoices, hfixed⟩ := compile_gappy
  have hchoice : ∃ e, f.Holds .choice e ∧ e.complete = false := by
    have hmem : false ∈ f.choices.map Expr.complete := by
      rw [show f.choices.map Expr.complete = [true, false] from congrArg Prod.fst hchoices]
      simp
    obtain ⟨e, he, hlacks⟩ := List.mem_map.mp hmem
    exact ⟨e, .choice he, hlacks⟩
  have hvalue : ∃ e, g.Holds .fixed e ∧ e.complete = false := by
    obtain ⟨e, he, hlacks⟩ := Option.map_eq_some_iff.mp (congrArg Prod.snd hfixed)
    exact ⟨e, .fixed he, hlacks⟩
  refine ⟨m, hm, fun hall => ?_, t, ht, f, hf, g, hg, hchoice, hvalue⟩
  obtain ⟨e, he, hlacks⟩ := hchoice
  cases hlacks.symm.trans ((hall t ht).fields f hf _ e he)

end FormatFuzz
