import FormatFuzz.Proofs.Model.TypeNames
import FormatFuzz.Proofs.Schema.Sameness
import FormatFuzz.Schema.Normal

/-!
# Normal forms

What each of the three steps to a normal schema brings about, as a property of a schema: members that
have what their type calls for, enums that are written out, types that name their byte order. A step
leaves a schema with its property as it is, and no other step takes the property away.
-/

set_option autoImplicit false

namespace FormatFuzz

namespace Primitive

def multiByte : List String := ["u2", "u4", "u8", "s2", "s4", "s8", "f4", "f8"]

theorem endian_bare? (s : String) (q : Option Endian → Primitive) (h : bare? s = some q)
    (e : Option Endian) : (q e).endian = e := by
  unfold bare? at h
  split at h <;> cases h <;> rfl

theorem mem_bare? (s : String) (q : Option Endian → Primitive) (h : bare? s = some q)
    (e : Option Endian) (ha : (q e).isAmbiguous = true) : s ∈ multiByte := by
  unfold bare? at h
  split at h <;> cases h <;> first | decide | cases ha

theorem mem_multiByte (name : String) (p : Primitive) (h : ofName? name = some p)
    (ha : p.isAmbiguous = true) : name ∈ multiByte := by
  have hend : p.endian = none := by
    simp only [isAmbiguous, Bool.and_eq_true, Option.isNone_iff_eq_none] at ha
    exact ha.2
  unfold ofName? at h
  split at h
  · cases h
    cases ha
  split at h
  · cases h
    cases ha
  simp only at h
  cases hb : bare? (splitEndian name).1 with
  | none =>
    rw [hb] at h
    cases h
  | some q =>
    rw [hb] at h
    simp only at h
    split at h
    · cases h
    · cases h
      rw [endian_bare? _ q hb] at hend
      -- no byte order was split off, so the name is that of the number
      have hname : (splitEndian name).1 = name := by
        unfold splitEndian at hend ⊢
        split at hend
        · cases hend
        · cases hend
        · rfl
      exact hname ▸ mem_bare? _ q hb _ ha

theorem ofName?_append (name : String) (h : name ∈ multiByte) (e : Endian) :
    ∃ p q, ofName? name = some p ∧ ofName? (name ++ e.text) = some q ∧ p.isAmbiguous = true ∧
      q.isAmbiguous = false ∧ q.kind = p.kind ∧ q.intBounds = p.intBounds := by
  simp only [multiByte, List.mem_cons, List.not_mem_nil, or_false] at h
  rcases h with rfl | rfl | rfl | rfl | rfl | rfl | rfl | rfl <;> cases e <;>
    exact ⟨_, _, rfl, rfl, rfl, rfl, rfl, rfl⟩

theorem not_ambiguous_append (name endian : String) (h : name ∈ multiByte) (he : endian ≠ "")
    (p : Primitive) (hp : ofName? (name ++ endian) = some p) : p.isAmbiguous = false := by
  rw [Bool.eq_false_iff]
  intro ha
  have two : ∀ n ∈ multiByte, n.length = 2 := by decide
  have hlen := two _ (mem_multiByte _ p hp ha)
  rw [String.length_append, two name h] at hlen
  exact he (String.length_eq_zero_iff.mp (by omega))

end Primitive

theorem Encoding.canonical_canonical (s : String) : canonical (canonical s) = canonical s := by
  have hparts : ∀ p ∈ parts, canonical (name (.latin p)) = name (.latin p) := by decide +kernel
  have hpart : ∀ t p, part? t = some p → p ∈ parts := by
    intro t p h
    unfold part? at h
    split at h
    · exact List.mem_of_find?_eq_some h
    · exact List.mem_of_find?_eq_some h
    · cases h
  have hname : ∀ e, ofName? s = some e → canonical e.name = e.name := by
    intro e h
    unfold ofName? at h
    simp only at h
    split at h
    · cases h
      decide +kernel
    · split at h
      · cases h
        decide +kernel
      · obtain ⟨p, hp, rfl⟩ := Option.map_eq_some_iff.mp h
        exact hparts p (hpart _ p hp)
  cases h : ofName? s with
  | none =>
    have hempty : canonical s = "" := by rw [canonical, h]; rfl
    rw [hempty]
    decide +kernel
  | some e =>
    have hcanon : canonical s = e.name := by rw [canonical, h]; rfl
    rw [hcanon]
    exact hname e h

theorem Text.trim_cons (s : String) (c : Char) (cs : List Char) (hs : s.toList = c :: cs)
    (hc : isBlank c = false) : ∃ rest, (trim s).toList = c :: rest := by
  have hl : trimLeft (c :: cs) = c :: cs := by simp [trimLeft, hc]
  refine ⟨((cs.reverse ++ [c]).dropWhile isBlank).reverse.tail, ?_⟩
  rw [trim, hs, hl, String.toList_ofList, trimRight, List.reverse_cons, List.dropWhile_append]
  split
  · simp [hc]
  · simp

theorem Number.ofText?_collection (s : String) (c : Char) (cs : List Char)
    (hs : s.toList = c :: cs) (hc : c ∈ ['[', 'm']) (v : Int) : ofText? s ≠ some (.int v) := by
  have hblank : Text.isBlank c = false := by
    have : ['[', 'm'].any Text.isBlank = false := by decide
    simpa using List.any_eq_false.mp this c hc
  obtain ⟨rest, hrest⟩ := Text.trim_cons s c cs hs hblank
  have hint : Numeral.integer? (Text.trim s).toList = none := by
    rw [hrest]
    simp only [List.mem_cons, List.not_mem_nil, or_false] at hc
    rcases hc with rfl | rfl <;> rfl
  unfold ofText?
  simp only [hint]
  split
  · simp
  · split
    · simp
    · split <;> simp

theorem Value.arranged_of_display (v : Value) (n : Int)
    (h : Number.ofText? v.display = some (.int n)) : v.arranged = v := by
  have shown : ∀ es, Number.ofText? (shownText es) ≠ some (.int n) := by
    intro es
    have hs : ∃ cs, (shownText es).toList = 'm' :: cs := by
      unfold shownText
      simp only [String.toList_append]
      exact ⟨_, rfl⟩
    obtain ⟨cs, hs⟩ := hs
    exact Number.ofText?_collection _ _ _ hs (by simp) n
  cases v with
  | list xs =>
    rw [display] at h
    have hs : ("[" ++ Text.join " " (displays xs) ++ "]").toList
        = '[' :: ((Text.join " " (displays xs)).toList ++ [']']) := by simp
    exact absurd h (Number.ofText?_collection _ _ _ hs (by simp) n)
  | map es => exact absurd h (shown _)
  | table es => exact absurd h (shown _)
  | _ => rfl

theorem Value.get?_arranged (v : Value) (h : v.Settled) (key : String) :
    v.arranged.get? key = (v.get? key).map Value.arranged := by
  cases h with
  | map es hn hes =>
    rw [arranged_map]
    change Keyed.get? ((Encode.byKey es).map fun e => (e.1, e.2.arranged)) key
      = (Keyed.get? es key).map arranged
    have hkeys : Keyed.keys ((Encode.byKey es).map fun e => (e.1, e.2.arranged))
        = Keyed.keys (Encode.byKey es) := Keyed.keys_map _ _
    cases hget : Keyed.get? es key with
    | none =>
      rw [Option.map_none, ← Option.not_isSome_iff_eq_none, Keyed.get?_isSome, hkeys]
      intro hk
      have := ((Encode.byKey_perm es).map Prod.fst).mem_iff.mp hk
      rw [← Keyed.keys, ← Keyed.get?_isSome, hget] at this
      cases this
    | some w =>
      have hmem := (Encode.byKey_perm es).mem_iff.mpr (Keyed.mem_of_get? es key w hget)
      rw [Option.map_some]
      refine Keyed.get?_of_mem _ _ _ (hkeys ▸ nodup_byKey es hn) ?_
      exact List.mem_map.mpr ⟨(key, w), hmem, rfl⟩
  | _ => rfl

/-- A name is that of a built-in type, or of a type that can be seen from a place. -/
def SchemaSet.Knows (set : SchemaSet) (sc : Scope) (name : String) : Prop :=
  (Primitive.ofName? name).isSome = true ∨ (set.lookupType sc name).isSome = true

namespace Attr

def Bounds (a : Attr) (key : String) (n : Int) : Prop :=
  ∀ v, a.valid.get? key = some v → Number.ofText? v.display = some (.int n)

/-- An integer range within the bounds of a type, and within those that `valid` gives. -/
def Ranged (bounds : Int × Int) (a : Attr) : Prop :=
  ∃ lo hi, a.rangeMin = some (.int lo) ∧ a.rangeMax = some (.int hi) ∧ bounds.1 ≤ lo ∧ lo ≤ hi ∧
    hi ≤ bounds.2 ∧ a.Bounds "min" lo ∧ a.Bounds "max" hi

def Meets (a : Attr) : Primitive → Prop
  | .int s w e => a.Ranged (Primitive.int s w e).intBounds
  | .float .. => a.rangeMin.isSome ∧ a.rangeMax.isSome
  | .string terminated => Encoding.canonical a.encoding = a.encoding ∧ a.encoding ≠ "" ∧
      (terminated = true → a.terminator.isSome)

/-- An attribute has what its type calls for; a type that is not built in is known. -/
def Filled (known : String → Prop) (a : Attr) : Prop :=
  match a.type with
  | none => True
  | some (.switch _ cases) => ∀ c ∈ cases, known c.2
  | some (.named name) => name ≠ "" →
    match Primitive.ofName? name with
    | none => known name
    | some p => a.Meets p

theorem Filled.mono {known known' : String → Prop} (h : ∀ n, known n → known' n) (a : Attr)
    (ha : a.Filled known) : a.Filled known' := by
  unfold Filled at *
  split
  next => trivial
  next on cases htype =>
    rw [htype] at ha
    exact fun c hc => h _ (ha c hc)
  next name htype =>
    rw [htype] at ha
    intro hn
    have ha := ha hn
    split
    next hp =>
      rw [hp] at ha
      exact h _ ha
    next p hp =>
      rw [hp] at ha
      exact ha

end Attr

namespace Normal

theorem validBound_ok (a : Attr) (key : String) (old r : Option Number)
    (h : validBound a key old = .ok r) : (a.valid.get? key = none ∧ r = old) ∨
      ∃ v n, a.valid.get? key = some v ∧ Number.ofText? v.display = some n ∧ r = some n := by
  unfold validBound at h
  split at h
  next hv =>
    cases h
    exact .inl ⟨hv, rfl⟩
  next v hv =>
    split at h
    next n hn =>
      cases h
      exact .inr ⟨v, n, hv, hn, rfl⟩
    next => cases h

theorem bounds_of_validBound (a : Attr) (key : String) (old r : Option Number) (least n : Int)
    (h : validBound a key old = .ok r) (hr : r.getD (.int least) = .int n) : a.Bounds key n := by
  intro v hv
  rcases validBound_ok a key old r h with ⟨hnone, -⟩ | ⟨w, m, hw, hm, rfl⟩
  · rw [hnone] at hv
    cases hv
  · rw [hw] at hv
    cases hv
    rw [hm]
    exact congrArg some hr

theorem checkRange_ok (p : Primitive) (lo hi : Number) (h : checkRange p lo hi = .ok ()) :
    ∃ l h, lo = .int l ∧ hi = .int h ∧ p.intBounds.1 ≤ l ∧ l ≤ h ∧ h ≤ p.intBounds.2 := by
  unfold checkRange at h
  split at h
  next l h' =>
    simp only at h
    split at h
    · cases h
    next hb =>
      split at h
      · cases h
      next hlt =>
        simp only [Bool.or_eq_true, decide_eq_true_eq, not_or] at hb
        exact ⟨l, h', rfl, rfl, by omega, by omega, by omega⟩
  next => cases h

theorem checkRange_eq (p : Primitive) (l h : Int) : checkRange p (.int l) (.int h)
    = if l < p.intBounds.1 || p.intBounds.2 < h then
        .error (.range (.exceeds l h p.name p.intBounds.1 p.intBounds.2))
      else if h < l then .error (.range (.reversed l h)) else .ok () := rfl

theorem intRange_eq (p : Primitive) (a : Attr) : intRange p a
    = validBound a "min" a.rangeMin >>= fun lo => validBound a "max" a.rangeMax >>= fun hi =>
      checkRange p (lo.getD (.int p.intBounds.1)) (hi.getD (.int p.intBounds.2)) >>= fun _ =>
      .ok { a with
        rangeMin := some (lo.getD (.int p.intBounds.1))
        rangeMax := some (hi.getD (.int p.intBounds.2)) } := rfl

theorem intRange_ok (p : Primitive) (a b : Attr) (h : intRange p a = .ok b) :
    b.Ranged p.intBounds ∧ ∃ lo hi, b = { a with rangeMin := some (.int lo), rangeMax := some (.int hi) } := by
  rw [intRange_eq] at h
  obtain ⟨lo, hlo, h⟩ := (bind_eq_ok _ _ _).mp h
  obtain ⟨hi, hhi, h⟩ := (bind_eq_ok _ _ _).mp h
  obtain ⟨u, hcheck, h⟩ := (bind_eq_ok _ _ _).mp h
  obtain ⟨l, g, hl, hg, h1, h2, h3⟩ := checkRange_ok p _ _ hcheck
  rw [hl, hg] at h
  cases h
  refine ⟨⟨l, g, rfl, rfl, h1, h2, h3, ?_, ?_⟩, l, g, rfl⟩
  · exact bounds_of_validBound a "min" _ lo _ l hlo hl
  · exact bounds_of_validBound a "max" _ hi _ g hhi hg

theorem validBound_bounds (a : Attr) (key : String) (n : Int) (h : a.Bounds key n) :
    validBound a key (some (.int n)) = .ok (some (.int n)) := by
  unfold validBound
  split
  · rfl
  next v hv => rw [h v hv]

theorem intRange_ranged (p : Primitive) (a : Attr) (h : a.Ranged p.intBounds) :
    intRange p a = .ok a := by
  obtain ⟨lo, hi, hlo, hhi, h1, h2, h3, hmin, hmax⟩ := h
  have hcheck : checkRange p (.int lo) (.int hi) = .ok () := by
    rw [checkRange_eq, if_neg (by simp; omega), if_neg (by omega)]
  rw [intRange_eq, hlo, hhi, validBound_bounds a "min" lo hmin, ok_bind,
    validBound_bounds a "max" hi hmax, ok_bind, Option.getD_some, Option.getD_some, hcheck, ok_bind,
    ← hlo, ← hhi]

theorem settled_range (a : Attr) (h : a.Settled) (lo hi : Number) (hlo : lo.Settled)
    (hhi : hi.Settled) : Attr.Settled { a with rangeMin := some lo, rangeMax := some hi } where
  values := h.values
  untyped := h.untyped
  integers := h.integers
  rangeMin := fun n hn => by cases hn; exact hlo
  rangeMax := fun n hn => by cases hn; exact hhi
  cases := h.cases
  further := h.further

theorem settled_stringKeys (a : Attr) (h : a.Settled) (encoding : String) (terminator : Option Int)
    (ht : ∀ i ∈ terminator, Word.isSigned i = true) :
    Attr.Settled { a with encoding := encoding, terminator := terminator } where
  values := h.values
  untyped := h.untyped
  integers := by
    have hi := h.integers
    simp only [Attr.integers, List.forall_mem_cons] at hi ⊢
    exact ⟨ht, hi.2⟩
  rangeMin := h.rangeMin
  rangeMax := h.rangeMax
  cases := h.cases
  further := h.further

theorem checkType_ok (set : SchemaSet) (sc : Scope) (name : String) (u : Unit)
    (h : checkType set sc name = .ok u) : set.Knows sc name := by
  unfold checkType at h
  split at h
  next hk => exact Bool.or_eq_true_iff.mp hk
  next => cases h

theorem checkType_knows (set : SchemaSet) (sc : Scope) (name : String) (h : set.Knows sc name) :
    checkType set sc name = .ok () := by
  unfold checkType
  rw [if_pos (Bool.or_eq_true_iff.mpr h)]

theorem floatRange_settled (a : Attr) (h : a.Settled) : (floatRange a).Settled := by
  have hinf : ∀ neg, (Number.float (Double.infinity neg)).Settled := by
    intro neg
    cases neg <;> (unfold Number.Settled; decide +kernel)
  refine settled_range a h _ _ ?_ ?_
  · cases hmin : a.rangeMin with
    | none => exact hinf true
    | some n => exact h.rangeMin n hmin
  · cases hmax : a.rangeMax with
    | none => exact hinf false
    | some n => exact h.rangeMax n hmax

theorem stringKeys_ok (terminated : Bool) (encoding : String) (a b : Attr)
    (h : stringKeys terminated encoding a = .ok b) :
    b.Meets (.string terminated) ∧ b.type = a.type ∧ b.id = a.id ∧ (a.Settled → b.Settled) := by
  unfold stringKeys at h
  generalize (if a.encoding = "" then encoding else a.encoding) = name at h
  simp only at h
  have hfix := Encoding.canonical_canonical name
  generalize Encoding.canonical name = canon at h hfix
  by_cases hcanon : canon = ""
  · rw [if_pos hcanon] at h
    cases h
  · rw [if_neg hcanon] at h
    obtain rfl := Except.ok.inj h
    refine ⟨⟨hfix, hcanon, fun ht => ?_⟩, rfl, rfl, fun hs => ?_⟩
    · cases hterm : a.terminator with
      | none => simp [ht]
      | some i => simp
    · refine settled_stringKeys a hs _ _ fun i hi => ?_
      split at hi
      · cases hi
        rfl
      · exact hs.integers a.terminator (by simp [Attr.integers]) i hi

theorem stringKeys_meets (terminated : Bool) (encoding : String) (a : Attr)
    (h : a.Meets (.string terminated)) : stringKeys terminated encoding a = .ok a := by
  obtain ⟨hcanon, hne, hterm⟩ := h
  unfold stringKeys
  simp only [if_neg hne, hcanon]
  rw [if_neg]
  · intro h
    simp only [Bool.and_eq_true, Option.isNone_iff_eq_none] at h
    have := hterm h.1
    rw [h.2] at this
    cases this

theorem attr_ok (set : SchemaSet) (sc : Scope) (encoding : String) (a b : Attr)
    (h : attr set sc encoding a = .ok b) :
    b.Filled (set.Knows sc) ∧ b.type = a.type ∧ b.id = a.id ∧ (a.Settled → b.Settled) := by
  have named : ∀ (c : Attr) name, c.type = some (.named name) →
      (∀ p, Primitive.ofName? name = some p → c.Meets p) →
      (Primitive.ofName? name = none → set.Knows sc name) → c.Filled (set.Knows sc) := by
    intro c name htype hp hk
    unfold Attr.Filled
    rw [htype]
    intro _
    cases hname : Primitive.ofName? name with
    | none => exact hk hname
    | some p => exact hp p hname
  unfold attr at h
  split at h
  next htype =>
    cases h
    exact ⟨by rw [Attr.Filled, htype]; trivial, rfl, rfl, id⟩
  next on cases htype =>
    obtain ⟨u, hcases, h⟩ := (bind_eq_ok _ _ _).mp h
    cases h
    refine ⟨?_, rfl, rfl, id⟩
    rw [Attr.Filled, htype]
    exact fun c hc => checkType_ok set sc c.2 () ((forM_eq_ok _ _).mp hcases c hc)
  next htype =>
    cases h
    exact ⟨by rw [Attr.Filled, htype]; exact fun hn => absurd rfl hn, rfl, rfl, id⟩
  next name _ htype =>
    split at h
    next hprim =>
      obtain ⟨u, hk, h⟩ := (bind_eq_ok _ _ _).mp h
      cases h
      refine ⟨named a name htype (fun p hp => ?_) fun _ => checkType_ok set sc name u hk, rfl, rfl, id⟩
      rw [hprim] at hp
      cases hp
    next s w e hprim =>
      obtain ⟨hranged, lo, hi, rfl⟩ := intRange_ok _ a b h
      refine ⟨named _ name htype (fun p hp => ?_) (fun hn => ?_), rfl, rfl, fun hs => ?_⟩
      · rw [hprim] at hp
        cases hp
        exact hranged
      · rw [hprim] at hn
        cases hn
      · exact settled_range a hs _ _ (Number.ofText?_toString lo) (Number.ofText?_toString hi)
    next w e hprim =>
      obtain rfl := Except.ok.inj h
      refine ⟨named _ name htype (fun p hp => ?_) (fun hn => ?_), rfl, rfl, floatRange_settled a⟩
      · rw [hprim] at hp
        cases hp
        exact ⟨rfl, rfl⟩
      · rw [hprim] at hn
        cases hn
    next terminated hprim =>
      obtain ⟨hmeets, htype', hid, hs⟩ := stringKeys_ok terminated encoding a b h
      refine ⟨named _ name (htype'.trans htype) (fun p hp => ?_) (fun hn => ?_), htype', hid, hs⟩
      · rw [hprim] at hp
        cases hp
        exact hmeets
      · rw [hprim] at hn
        cases hn

theorem attr_filled (set : SchemaSet) (sc : Scope) (encoding : String) (a : Attr)
    (h : a.Filled (set.Knows sc)) : attr set sc encoding a = .ok a := by
  unfold Attr.Filled at h
  unfold attr
  split
  next => rfl
  next on cases htype =>
    rw [htype] at h
    have hcases := (forM_eq_ok (fun c : String × String => checkType set sc c.2) cases).mpr
      fun c hc => checkType_knows set sc c.2 (h c hc)
    rw [hcases]
    rfl
  next => rfl
  next name hne htype =>
    rw [htype] at h
    have h := h hne
    split
    next hprim =>
      rw [hprim] at h
      rw [checkType_knows set sc name h]
      rfl
    next s w e hprim =>
      rw [hprim] at h
      exact intRange_ranged _ a h
    next w e hprim =>
      rw [hprim] at h
      unfold floatRange
      obtain ⟨lo, hlo⟩ := Option.isSome_iff_exists.mp h.1
      obtain ⟨hi, hhi⟩ := Option.isSome_iff_exists.mp h.2
      rw [hlo, hhi, Option.getD_some, Option.getD_some, ← hlo, ← hhi]
    next terminated hprim =>
      rw [hprim] at h
      exact stringKeys_meets terminated encoding a h

end Normal

namespace Attr

theorem bounds_arranged (a : Attr) (h : a.valid.Settled) (key : String) (n : Int)
    (hb : a.Bounds key n) : a.arranged.Bounds key n := by
  intro v hv
  change a.valid.arranged.get? key = some v at hv
  rw [Value.get?_arranged a.valid h, Option.map_eq_some_iff] at hv
  obtain ⟨w, hw, rfl⟩ := hv
  have hn := hb w hw
  rw [w.arranged_of_display n hn]
  exact hn

theorem meets_arranged (a : Attr) (h : a.valid.Settled) (p : Primitive) (hp : a.Meets p) :
    a.arranged.Meets p := by
  cases p with
  | int s w e =>
    obtain ⟨lo, hi, hlo, hhi, h1, h2, h3, hmin, hmax⟩ := hp
    exact ⟨lo, hi, hlo, hhi, h1, h2, h3, bounds_arranged a h _ _ hmin, bounds_arranged a h _ _ hmax⟩
  | float w e => exact hp
  | string t => exact hp

theorem filled_arranged (known : String → Prop) (a : Attr) (h : a.valid.Settled)
    (ha : a.Filled known) : a.arranged.Filled known := by
  unfold Filled at ha ⊢
  cases ht : a.type with
  | none =>
    have htype : a.arranged.type = none := by simp [arranged, ht]
    rw [htype]
    trivial
  | some t =>
    rw [ht] at ha
    cases t with
    | switch on cases =>
      have htype : a.arranged.type = some (.switch on.arranged cases) := by simp [arranged, ht]
      rw [htype]
      exact ha
    | named name =>
      have htype : a.arranged.type = some (.named name) := by simp [arranged, ht]
      rw [htype]
      intro hn
      have ha := ha hn
      split
      next hp =>
        rw [hp] at ha
        exact ha
      next p hp =>
        rw [hp] at ha
        exact meets_arranged a h p ha

theorem meets_of_kind (a : Attr) (p q : Primitive) (hp : p.isAmbiguous = true)
    (hkind : q.kind = p.kind) (hbounds : q.intBounds = p.intBounds) (h : a.Meets p) : a.Meets q := by
  cases p with
  | int s w e =>
    cases q with
    | int s' w' e' =>
      change a.Ranged _
      rw [hbounds]
      exact h
    | float => cases hkind
    | string => cases hkind
  | float w e =>
    cases q with
    | float => exact h
    | int => cases hkind
    | string => cases hkind
  | string t => cases hp

end Attr

namespace Normal

theorem withEndian_cases (e : Endian) (name : String) :
    (∃ p q, Primitive.ofName? name = some p ∧ p.isAmbiguous = true ∧ withEndian e.text name = name ++ e.text ∧
      Primitive.ofName? (name ++ e.text) = some q ∧ q.kind = p.kind ∧ q.intBounds = p.intBounds) ∨
    withEndian e.text name = name := by
  unfold withEndian
  split
  next p hp =>
    by_cases ha : p.isAmbiguous = true
    · obtain ⟨p', q, hp', hq, -, -, hkind, hbounds⟩ :=
        Primitive.ofName?_append name (Primitive.mem_multiByte name p hp ha) e
      rw [hp] at hp'
      cases hp'
      exact .inl ⟨p, q, hp, ha, if_pos ha, hq, hkind, hbounds⟩
    · exact .inr (if_neg ha)
  next => exact .inr rfl

theorem filled_attrEndian (known known' : String → Prop) (e : Endian)
    (hk : ∀ n, known n → known' (withEndian e.text n)) (a : Attr) (ha : a.Filled known) :
    (attrEndian e.text a).Filled known' := by
  unfold Attr.Filled at ha ⊢
  cases ht : a.type with
  | none =>
    have htype : (attrEndian e.text a).type = none := by simp [attrEndian, ht]
    rw [htype]
    trivial
  | some t =>
    rw [ht] at ha
    cases t with
    | switch on cases =>
      have htype : (attrEndian e.text a).type
          = some (.switch on (cases.map fun c => (c.1, withEndian e.text c.2))) := by
        simp [attrEndian, ht]
      rw [htype]
      exact List.forall_mem_map.mpr fun c hc => hk c.2 (ha c hc)
    | named name =>
      have htype : (attrEndian e.text a).type = some (.named (withEndian e.text name)) := by
        simp [attrEndian, ht]
      rw [htype]
      intro hn
      rcases withEndian_cases e name with ⟨p, q, hp, hamb, hname, hq, hkind, hbounds⟩ | hname
      · have hne : name ≠ "" := by
          rintro rfl
          cases hp
        have ha := ha hne
        rw [hp] at ha
        simp only [hname, hq]
        exact Attr.meets_of_kind a p q hamb hkind hbounds ha
      · simp only [hname] at hn ⊢
        have ha := ha hn
        split
        next hp =>
          rw [hp] at ha
          have := hk name ha
          rwa [hname] at this
        next p hp =>
          rw [hp] at ha
          exact ha

end Normal

end FormatFuzz
