import FormatFuzz.Proofs.Expr.Decoding

/-!
# Which expressions have the same text

The text of an attribute or an index drops the parentheses around a sign, and the text of a double
may be that of an integer. `shown` is the tree with the signs outside and these doubles as integers:
it keeps the text, and it is clear. So accepted texts have trees with the same text exactly if both
are shown as the same tree, and where nothing is dropped the text tells the tree.
-/

set_option autoImplicit false

namespace FormatFuzz.Expr

open Token (isIdentifier)

def underSigns (s : Suffix) : Expr → Expr
  | .unary op x => .unary op (underSigns s x)
  | x => s.on x

mutual

/-- The tree that the text of a tree shows: a sign takes the attributes and indices after its
operand with it, and a double written as an integer is that integer. -/
def shown : Expr → Expr
  | .int v => if v < 0 then .unary .neg (.int (-v)) else .int v
  | .float v => ((writtenInteger? v).map .int).getD (.float v)
  | .unary op x => .unary op x.shown
  | .binary op x y => .binary op x.shown y.shown
  | .cond c a b => .cond c.shown a.shown b.shown
  | .attr x id => underSigns (.attr id) x.shown
  | .index x i => underSigns (.index i.shown) x.shown
  | .list xs => .list (listShown xs)
  | x => x

def listShown : List Expr → List Expr
  | [] => []
  | x :: xs => x.shown :: listShown xs

end

theorem listShown_eq (xs : List Expr) : listShown xs = xs.map shown := by
  induction xs with
  | nil => rfl
  | cons x xs ih => rw [listShown, ih, List.map_cons]

theorem texts_eq (xs : List Expr) : texts xs = xs.map text := by
  induction xs with
  | nil => rfl
  | cons x xs ih => rw [texts, ih, List.map_cons]

theorem chars_underSigns (s : Suffix) (x : Expr) : (underSigns s x).chars = x.chars ++ s.chars := by
  fun_induction underSigns s x with
  | case1 op x ih => simp [ih]
  | case2 x => cases s <;> simp [Suffix.on, Suffix.chars]

theorem chars_int_neg (v : ℤ) (h : v < 0) : (Expr.int v).chars = '-' :: (Expr.int (-v)).chars := by
  obtain ⟨n, rfl⟩ := Int.eq_negSucc_of_lt_zero h
  have hneg : -Int.negSucc n = ((n + 1 : ℕ) : ℤ) := rfl
  rw [chars, chars, text, text, Numeral.toList_toString_negSucc, hneg,
    Numeral.toList_toString_ofNat]

theorem text_shown {x : Expr} (h : Formed x) : x.shown.text = x.text := by
  suffices x.shown.chars = x.chars from String.toList_inj.mp this
  induction h with
  | int v =>
    rw [shown]
    split
    next hv =>
      rw [chars_unary, chars_int_neg v hv]
      rfl
    next => rfl
  | @float v =>
    rw [shown]
    cases hw : writtenInteger? v with
    | none => rfl
    | some n => exact congrArg String.toList ((writtenInteger?_eq_some v n).mp hw).symm
  | str | bool | name | member => rfl
  | unary _ _ ih => rw [shown, chars_unary, chars_unary, ih]
  | binary _ _ ihx ihy => rw [shown, chars_binary, chars_binary, ihx, ihy]
  | cond _ _ _ ihc iha ihb => rw [shown, chars_cond, chars_cond, ihc, iha, ihb]
  | attr _ _ ih => rw [shown, chars_underSigns, chars_attr, ih, Suffix.chars]
  | index _ _ ihx ihi => rw [shown, chars_underSigns, chars_index, ihx, Suffix.chars, ihi]
  | @list xs _ ih =>
    have hall : (xs.map shown).map text = xs.map text := by
      rw [List.map_map]
      exact List.map_congr_left fun x hx => String.toList_inj.mp (ih x hx)
    rw [shown, listShown_eq, chars_list, chars_list, texts_eq, texts_eq, hall]

theorem Clear.on {x : Expr} {s : Suffix} (hx : Clear x) (ht : x.takesSuffix = true)
    (hs : s.All Clear) : Clear (s.on x) := by
  cases s with
  | attr id => exact .attr hx ht hs
  | index i => exact .index hx ht hs

theorem Clear.underSigns {x : Expr} {s : Suffix} (hx : Clear x) (hs : s.All Clear) :
    Clear (underSigns s x) := by
  induction hx with
  | unary _ ih => exact .unary ih
  | int h => exact Clear.on (.int h) (by simpa [takesSuffix] using h) hs
  | float h hi => exact Clear.on (.float h hi) rfl hs
  | str s => exact Clear.on (.str s) rfl hs
  | bool b => exact Clear.on (.bool b) rfl hs
  | name h hk => exact Clear.on (.name h hk) rfl hs
  | member h => exact Clear.on (.member h) rfl hs
  | binary hx hy => exact Clear.on (.binary hx hy) rfl hs
  | cond hc ha hb => exact Clear.on (.cond hc ha hb) rfl hs
  | attr h ht hi => exact Clear.on (.attr h ht hi) rfl hs
  | index hx ht hi => exact Clear.on (.index hx ht hi) rfl hs
  | list h => exact Clear.on (.list h) rfl hs

theorem writtenInteger?_nonneg (v : Double) (n : ℤ) (h : Numeral.Unsigned v)
    (hn : writtenInteger? v = some n) : 0 ≤ n := by
  by_contra hlt
  obtain ⟨s, hs, hc⟩ := spelling_float v h
  obtain ⟨c, cs, hcs, hk⟩ := heads_spelling s hs
  have hchars : (Expr.float v).chars = (Expr.int n).chars := by
    rw [chars, chars, text, text, (writtenInteger?_eq_some v n).mp hn]
  rw [hc, hcs, chars_int_neg n (by omega)] at hchars
  rw [(List.cons.inj hchars).1] at hk
  exact absurd hk (by decide)

theorem clear_shown {x : Expr} (h : Formed x) : Clear x.shown := by
  induction h with
  | int v =>
    rw [shown]
    split
    next hv => exact .unary (.int (by omega))
    next hv => exact .int (by omega)
  | @float v h =>
    rw [shown]
    cases hw : writtenInteger? v with
    | none => exact .float h hw
    | some n => exact .int (writtenInteger?_nonneg v n h hw)
  | str s => exact .str s
  | bool b => exact .bool b
  | name h hk => exact .name h hk
  | member h => exact .member h
  | unary _ _ ih => exact .unary ih
  | binary _ _ ihx ihy => exact .binary ihx ihy
  | cond _ _ _ ihc iha ihb => exact .cond ihc iha ihb
  | attr _ hi ih => exact ih.underSigns hi
  | index _ _ ihx ihi => exact ihx.underSigns ihi
  | list _ ih =>
    rw [shown, listShown_eq]
    refine .list fun y hy => ?_
    obtain ⟨x, hx, rfl⟩ := List.mem_map.mp hy
    exact ih x hx

theorem text_eq_iff_shown {x y : Expr} (hx : Formed x) (hy : Formed y) :
    x.text = y.text ↔ x.shown = y.shown := by
  constructor
  · intro h
    exact (clear_shown hx).text_inj (clear_shown hy) (by rw [text_shown hx, text_shown hy, h])
  · intro h
    rw [← text_shown hx, h, text_shown hy]

mutual

def folded : Expr → Expr
  | .unary op x => signed op x.folded
  | .binary op x y => .binary op x.folded y.folded
  | .cond c a b => .cond c.folded a.folded b.folded
  | .attr x id => .attr x.folded id
  | .index x i => .index x.folded i.folded
  | .list xs => .list (listFolded xs)
  | x => x

def listFolded : List Expr → List Expr
  | [] => []
  | x :: xs => x.folded :: listFolded xs

end

def isPlain : Expr → Bool
  | .float v => (writtenInteger? v).isNone
  | .attr x _ | .index x _ => x.takesSuffix
  | _ => true

/-- A tree whose attributes and indices have no sign directly before them, and whose doubles are
not written as integers. -/
def Plain (x : Expr) : Prop :=
  ∀ z ∈ x.subterms, z.isPlain = true

theorem listFolded_eq (xs : List Expr) : listFolded xs = xs.map folded := by
  induction xs with
  | nil => rfl
  | cons x xs ih => rw [listFolded, ih, List.map_cons]

@[simp] theorem plain_float (v : Double) : Plain (.float v) ↔ writtenInteger? v = none := by
  simp [Plain, subterms, isPlain]

@[simp] theorem plain_unary (op : UnaryOp) (x : Expr) : Plain (.unary op x) ↔ Plain x := by
  simp [Plain, subterms, isPlain]

@[simp] theorem plain_binary (op : BinaryOp) (x y : Expr) :
    Plain (.binary op x y) ↔ Plain x ∧ Plain y := by
  simp [Plain, subterms, isPlain, or_imp, forall_and]

@[simp] theorem plain_cond (c a b : Expr) :
    Plain (.cond c a b) ↔ Plain c ∧ Plain a ∧ Plain b := by
  simp [Plain, subterms, isPlain, or_imp, forall_and]

@[simp] theorem plain_attr (x : Expr) (id : String) :
    Plain (.attr x id) ↔ x.takesSuffix = true ∧ Plain x := by
  simp [Plain, subterms, isPlain]

@[simp] theorem plain_index (x i : Expr) :
    Plain (.index x i) ↔ x.takesSuffix = true ∧ Plain x ∧ Plain i := by
  simp [Plain, subterms, isPlain, or_imp, forall_and]

@[simp] theorem plain_list (xs : List Expr) : Plain (.list xs) ↔ ∀ x ∈ xs, Plain x := by
  simp only [Plain, subterms, List.mem_cons, forall_eq_or_imp, mem_listSubterms]
  constructor
  · rintro ⟨-, h⟩ x hx z hz
    exact h z ⟨x, hx, hz⟩
  · rintro h
    refine ⟨rfl, ?_⟩
    rintro z ⟨x, hx, hz⟩
    exact h x hx z hz

theorem underSigns_eq_on (s : Suffix) (x : Expr) (h : ∀ op y, x ≠ .unary op y) :
    underSigns s x = s.on x := by
  fun_cases underSigns s x with
  | case1 op y => exact absurd rfl (h op y)
  | case2 => rfl

theorem shown_ne_unary {x : Expr} (h : Formed x) (hp : Plain x) (ht : x.takesSuffix = true) :
    ∀ op y, x.shown ≠ .unary op y := by
  induction h with
  | int v =>
    have hv : ¬ v < 0 := by simpa [takesSuffix] using ht
    simp [shown, hv]
  | @float v => simp [shown, (plain_float v).mp hp]
  | unary => simp [takesSuffix] at ht
  | attr _ _ ih =>
    obtain ⟨hx, hp⟩ := (plain_attr _ _).mp hp
    rw [shown, underSigns_eq_on _ _ (ih hp hx)]
    simp [Suffix.on]
  | index _ _ ih _ =>
    obtain ⟨hx, hp, -⟩ := (plain_index _ _).mp hp
    rw [shown, underSigns_eq_on _ _ (ih hp hx)]
    simp [Suffix.on]
  | _ => simp [shown]

theorem folded_shown {x : Expr} (h : Formed x) (hp : Plain x) : x.shown.folded = x := by
  induction h with
  | int v =>
    rw [shown]
    split
    · simp [folded, signed]
    · rfl
  | @float v => simp [shown, (plain_float v).mp hp, folded]
  | str | bool | name | member => rfl
  | @unary op x _ hf ih =>
    have hsign : ∀ v, ¬ (op = .neg ∧ x = .int v) := by
      rintro v ⟨rfl, rfl⟩
      exact hf ⟨rfl, rfl⟩
    rw [shown, folded, ih ((plain_unary op x).mp hp), signed_unary op x hsign]
  | binary _ _ ihx ihy =>
    obtain ⟨hx, hy⟩ := (plain_binary _ _ _).mp hp
    rw [shown, folded, ihx hx, ihy hy]
  | cond _ _ _ ihc iha ihb =>
    obtain ⟨hc, ha, hb⟩ := (plain_cond _ _ _).mp hp
    rw [shown, folded, ihc hc, iha ha, ihb hb]
  | attr hx _ ih =>
    obtain ⟨ht, hp⟩ := (plain_attr _ _).mp hp
    rw [shown, underSigns_eq_on _ _ (shown_ne_unary hx hp ht), Suffix.on, folded, ih hp]
  | index hx _ ihx ihi =>
    obtain ⟨ht, hp, hi⟩ := (plain_index _ _).mp hp
    rw [shown, underSigns_eq_on _ _ (shown_ne_unary hx hp ht), Suffix.on, folded, ihx hp, ihi hi]
  | @list xs _ ih =>
    have hall : (xs.map shown).map folded = xs := by
      rw [List.map_map]
      refine (List.map_congr_left fun x hx => ?_).trans (List.map_id xs)
      exact ih x hx ((plain_list xs).mp hp x hx)
    rw [shown, folded, listShown_eq, listFolded_eq, hall]

/-- Two accepted texts have trees with the same text exactly if both are shown as the same tree. If
no sign stands directly before an attribute or an index, and no double is written as an integer,
then trees that differ have texts that differ. -/
theorem text_tells (s t : String) (x y : Expr) (hx : parse s = .ok x) (hy : parse t = .ok y) :
    (x.text = y.text ↔ x.shown = y.shown) ∧
      (x.Plain → y.Plain → x ≠ y → x.text ≠ y.text) := by
  have hfx := formed_parse s x hx
  have hfy := formed_parse t y hy
  refine ⟨text_eq_iff_shown hfx hfy, fun hpx hpy hne h => hne ?_⟩
  calc x = x.shown.folded := (folded_shown hfx hpx).symm
    _ = y.shown.folded := by rw [(text_eq_iff_shown hfx hfy).mp h]
    _ = y := folded_shown hfy hpy

theorem text_tells_quotients :
    ∃ x y, parse "-a[1] / e::m - 0x10" = .ok x ∧ parse "-(a[1] / e::m) - 0x10" = .ok y ∧
      x.text = "((-a[1] / e::m) - 16)" ∧ x.text ≠ y.text := by
  let x : Expr := .binary .sub (.binary .div (.unary .neg (.index (.name "a") (.int 1)))
    (.member ["e"] "m")) (.int 16)
  let y : Expr := .binary .sub (.unary .neg (.binary .div (.index (.name "a") (.int 1))
    (.member ["e"] "m"))) (.int 16)
  have hx : parse "-a[1] / e::m - 0x10" = .ok x := by cbv
  have hy : parse "-(a[1] / e::m) - 0x10" = .ok y := by cbv
  have hplain : x.Plain ∧ y.Plain := by
    unfold Plain
    decide
  exact ⟨x, y, hx, hy, by cbv,
    (text_tells _ _ x y hx hy).2 hplain.1 hplain.2 (by simp [x, y])⟩

/-- Two pairs of accepted texts with different trees and the same text: a sign in parentheses
before an attribute, and a double that is written as an integer. -/
theorem text_collides :
    (∃ x y, parse "(-a).b" = .ok x ∧ parse "-a.b" = .ok y ∧ x ≠ y ∧ x.text = y.text) ∧
      ∃ x y, parse "2.0" = .ok x ∧ parse "2" = .ok y ∧ x ≠ y ∧ x.text = y.text := by
  refine ⟨⟨.attr (.unary .neg (.name "a")) "b", .unary .neg (.attr (.name "a") "b"), ?_⟩,
    .float ⟨0x4000000000000000⟩, .int 2, ?_⟩
  · exact ⟨by cbv, by cbv, by simp, by cbv⟩
  · have hfloat : Derives .primary [.float [50, 46, 48]] (.float ⟨0x4000000000000000⟩) :=
      .float (by decide +kernel)
    have hparse : parse "2.0" = .ok (.float ⟨0x4000000000000000⟩) :=
      (parse_ok _ _).mpr ⟨[⟨.float [50, 46, 48], 0, 3⟩], by cbv,
        derives_conditional _ _ (derives_primary _ _ hfloat)⟩
    exact ⟨hparse, by cbv, by simp, by decide +kernel⟩

end FormatFuzz.Expr
