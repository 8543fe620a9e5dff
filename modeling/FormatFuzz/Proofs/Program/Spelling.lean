import FormatFuzz.Proofs.Program.Lexing

/-!
# How code is spelt

The code of an expression is read as tokens, and no two plus signs are fused in it to one. It begins
with a name, a digit, a quote or a bracket, except for a number with a minus sign, and a minus in
front of such a number is fused with that sign. Nothing here looks at expressions: it is said of each
way to put the code of a value together from that of others, with a condition for the fused signs.
-/

set_option autoImplicit false

namespace FormatFuzz.Program

/-- A text is read as tokens, two plus signs are not fused in it, and two minus signs only if some
condition holds. -/
def Clean (ends : Char → Bool) (fused : Prop) (s : String) : Prop :=
  ∃ ts, Reads ends s ts ∧ "++" ∉ ts ∧ ("--" ∈ ts → fused)

def Starts (s : String) : Prop :=
  ∃ c cs, s.toList = c :: cs ∧ c ∉ ['-', '+', '=']

variable {ends ends' : Char → Bool} {fused fused' : Prop} {s t : String}

theorem Starts.append (h : Starts s) : Starts (s ++ t) := by
  obtain ⟨c, cs, hs, hc⟩ := h
  exact ⟨c, cs ++ t.toList, by simp [hs], hc⟩

theorem IsName.starts (h : IsName s) : Starts s := by
  obtain ⟨c, cs, hs, hc, -⟩ := h
  refine ⟨c, cs, hs, ?_⟩
  intro hmem
  have all : ∀ d ∈ ['-', '+', '='], d.isAlpha = false := List.all_iff_forall_prop.mp (by decide)
  rw [all c hmem] at hc
  cases hc

theorem Clean.mono (h : Clean ends fused s) (hends : ∀ c, ends' c = true → ends c = true) :
    Clean ends' fused s := by
  obtain ⟨ts, hts, hplus, hminus⟩ := h
  exact ⟨ts, hts.mono hends, hplus, hminus⟩

theorem Clean.weaken (h : Clean ends fused s) (hf : fused → fused') : Clean ends fused' s := by
  obtain ⟨ts, hts, hplus, hminus⟩ := h
  exact ⟨ts, hts, hplus, fun hm => hf (hminus hm)⟩

theorem Clean.append (hs : Clean ends fused s) (ht : Clean ends' fused t)
    (hbegins : ∃ c cs, t.toList = c :: cs ∧ ends c = true) : Clean ends' fused (s ++ t) := by
  obtain ⟨ts, hts, hplus, hminus⟩ := hs
  obtain ⟨us, hus, hplus', hminus'⟩ := ht
  refine ⟨ts ++ us, hts.append hus hbegins, by simp [hplus, hplus'], fun h => ?_⟩
  rcases List.mem_append.mp h with h | h
  · exact hminus h
  · exact hminus' h

theorem Clean.append_anything (hs : Clean anything fused s) (ht : Clean ends' fused t) :
    Clean ends' fused (s ++ t) := by
  obtain ⟨ts, hts, hplus, hminus⟩ := hs
  obtain ⟨us, hus, hplus', hminus'⟩ := ht
  refine ⟨ts ++ us, hts.append_anything hus, by simp [hplus, hplus'], fun h => ?_⟩
  rcases List.mem_append.mp h with h | h
  · exact hminus h
  · exact hminus' h

theorem Reads.clean (h : Reads ends s [s]) (hs : Starts s) : Clean ends fused s := by
  obtain ⟨c, cs, hcs, hc⟩ := hs
  have hne (t : String) (d : Char) (ds : List Char) (ht : t.toList = d :: ds)
      (hd : d ∈ ['-', '+', '=']) : t ∉ [s] := by
    rw [List.mem_singleton]
    rintro rfl
    rw [ht] at hcs
    exact hc ((List.cons.inj hcs).1 ▸ hd)
  exact ⟨[s], h, hne "++" '+' ['+'] rfl (by decide),
    fun hm => absurd hm (hne "--" '-' ['-'] rfl (by decide))⟩

theorem clean_empty : Clean ends fused "" :=
  ⟨[], reads_empty.mono fun _ _ => rfl, by simp, by simp⟩

theorem clean_blank : Clean anything fused " " :=
  ⟨[], reads_blank, by simp, by simp⟩

theorem clean_mark (c : Char) (h : c ∈ ['(', ')', '[', ']', '\x7b', '\x7d', ',']) :
    Clean anything fused (String.singleton c) := by
  have all : ∀ d ∈ ['(', ')', '[', ']', '\x7b', '\x7d', ','], d ∉ ['-', '+', '='] :=
    List.all_iff_forall_prop.mp (by decide)
  exact (reads_mark c h).clean ⟨c, [], by simp, all c h⟩

theorem clean_operator (op : BinaryOp) : Clean (fun c => c == ' ') fused op.text :=
  ⟨[op.text], reads_operator op, by cases op <;> decide,
    fun h => absurd h (by cases op <;> decide)⟩

def endsName (c : Char) : Bool := !isNamePart c

theorem clean_name (h : IsName s) : Clean endsName fused s :=
  (reads_name h).clean h.starts

theorem Clean.point (hs : Clean ends fused s) (hends : ends '.' = true) (ht : IsName t) :
    Clean endsName fused (s ++ "." ++ t) := by
  have hpoint : Clean (fun c => c != '.') fused "." :=
    reads_point.clean ⟨'.', [], rfl, by decide⟩
  have hbegins : ∃ c cs, t.toList = c :: cs ∧ (c != '.') = true := by
    obtain ⟨c, cs, hcs, hc, -⟩ := ht
    refine ⟨c, cs, hcs, ?_⟩
    rw [bne_iff_ne]
    rintro rfl
    cases hc
  exact (hs.append hpoint ⟨'.', [], rfl, hends⟩).append (clean_name ht) hbegins

theorem Clean.paren (h : Clean closes fused s) : Clean anything fused ("(" ++ s ++ ")") :=
  ((clean_mark '(' (by decide)).append_anything h).append (clean_mark ')' (by decide))
    ⟨')', [], rfl, by decide⟩

def isWord : List Char → Bool
  | [] => false
  | c :: cs => c.isAlpha && cs.all isNameChar

theorem isName_ofList (cs : List Char) (h : isWord cs = true) : IsName (String.ofList cs) := by
  cases cs with
  | nil => cases h
  | cons c cs =>
    obtain ⟨hc, hcs⟩ : c.isAlpha = true ∧ ∀ x ∈ cs, isNameChar x = true := by
      simpa [isWord] using h
    exact ⟨c, cs, by simp, hc, hcs⟩

def isFunction (f : String) : Bool :=
  let cs := f.toList
  isWord (cs.takeWhile (· != '.')) &&
    match cs.dropWhile (· != '.') with
    | [] => true
    | _ :: rest => isWord rest

theorem clean_function (f : String) (h : isFunction f = true) : Clean endsName fused f ∧ Starts f := by
  have hparts : f = String.ofList (f.toList.takeWhile (· != '.'))
      ++ String.ofList (f.toList.dropWhile (· != '.')) := by
    rw [← String.ofList_append, List.takeWhile_append_dropWhile, String.ofList_toList]
  obtain ⟨hpackage, hrest⟩ := Bool.and_eq_true_iff.mp h
  have hname := isName_ofList _ hpackage
  split at hrest
  next hnone =>
    rw [hnone] at hparts
    have hf : f = String.ofList (f.toList.takeWhile (· != '.')) := by simpa using hparts
    rw [hf]
    exact ⟨clean_name hname, hname.starts⟩
  next c rest hsome =>
    have hc : c = '.' := by
      have hhead := List.head?_dropWhile_not (· != '.') f.toList
      rw [hsome] at hhead
      simpa using hhead
    have hf : f = String.ofList (f.toList.takeWhile (· != '.')) ++ "." ++ String.ofList rest := by
      rw [hsome, hc] at hparts
      conv_lhs => rw [hparts]
      apply String.toList_injective
      simp
    rw [hf]
    exact ⟨(clean_name hname).point (by decide) (isName_ofList rest hrest), hname.starts.append.append⟩

def shuts (c : Char) : Bool :=
  [')', '\x7d'].contains c

theorem closes_of_shuts (c : Char) (h : shuts c = true) : closes c = true := by
  have all : ∀ d ∈ [')', '\x7d'], closes d = true := List.all_iff_forall_prop.mp (by decide)
  exact all c (by simpa [shuts] using h)

theorem clean_join (args : List String) (h : ∀ a ∈ args, Clean closes fused a) :
    Clean shuts fused (Text.join ", " args) := by
  induction args with
  | nil => exact clean_empty
  | cons a args ih =>
    obtain ⟨ha, hargs⟩ := List.forall_mem_cons.mp h
    cases args with
    | nil => exact ha.mono closes_of_shuts
    | cons b bs =>
      have hcomma : Clean anything fused ", " :=
        (clean_mark ',' (by decide)).append_anything clean_blank
      rw [Text.join]
      · exact (ha.append hcomma ⟨',', [' '], rfl, by decide⟩).append_anything (ih hargs)
      · simp

theorem clean_applied (hf : Clean (fun c => c == '(') fused s) (args : List String)
    (h : ∀ a ∈ args, Clean closes fused a) : Clean anything fused (call s args) :=
  ((hf.append (clean_mark '(' (by decide)) ⟨'(', [], rfl, rfl⟩).append_anything
    (clean_join args h)).append (clean_mark ')' (by decide)) ⟨')', [], rfl, by decide⟩

theorem clean_call (f : String) (hf : isFunction f = true) (args : List String)
    (h : ∀ a ∈ args, Clean closes fused a) : Clean anything fused (call f args) :=
  clean_applied ((clean_function f hf).1.mono fun c hc => by
    rw [beq_iff_eq.mp hc]
    decide) args h

theorem starts_call (f : String) (hf : isFunction f = true) (args : List String) :
    Starts (call f args) := by
  have h : Clean endsName True f ∧ Starts f := clean_function f hf
  exact h.2.append.append.append

theorem clean_byteSlice : Clean endsName fused "[]byte" :=
  ((clean_mark '[' (by decide)).append_anything (clean_mark ']' (by decide))).append_anything
    (clean_function "byte" (by decide)).1

theorem clean_byteList (codes : List String) (h : ∀ c ∈ codes, Clean closes fused c) :
    Clean anything fused (byteList codes) :=
  ((clean_byteSlice.append (clean_mark '\x7b' (by decide)) ⟨'\x7b', [], rfl, by decide⟩).append_anything
    (clean_join codes h)).append (clean_mark '\x7d' (by decide)) ⟨'\x7d', [], rfl, by decide⟩

theorem clean_between (op : BinaryOp) (hs : Clean closes fused s) (ht : Clean closes fused t) :
    Clean anything fused ("(" ++ s ++ " " ++ op.text ++ " " ++ t ++ ")") :=
  ((((((clean_mark '(' (by decide)).append_anything hs).append clean_blank
    ⟨' ', [], rfl, by decide⟩).append_anything (clean_operator op)).append clean_blank
    ⟨' ', [], rfl, by decide⟩).append_anything ht).append (clean_mark ')' (by decide))
    ⟨')', [], rfl, by decide⟩

theorem Reads.clean_number (h : Reads closes s [s]) (c : Char) (cs : List Char) (hs : s.toList = c :: cs)
    (hc : c.isDigit = true) : Clean closes fused s ∧ Starts s := by
  have hstarts : Starts s := by
    refine ⟨c, cs, hs, ?_⟩
    intro hmem
    have all : ∀ d ∈ ['-', '+', '='], d.isDigit = false := List.all_iff_forall_prop.mp (by decide)
    rw [all c hmem] at hc
    cases hc
  exact ⟨h.clean hstarts, hstarts⟩

theorem clean_nat (n : Nat) (hs : s.toList = Nat.toDigits 10 n) : Clean closes fused s ∧ Starts s := by
  obtain ⟨c, cs, hcs⟩ := List.exists_cons_of_ne_nil (Nat.toDigits_ne_nil (n := n) (b := 10))
  exact (reads_nat n hs).clean_number c cs (hs.trans hcs)
    (Nat.isDigit_of_mem_toDigits (by omega) (by omega) (hcs ▸ List.mem_cons_self))

theorem clean_spelling (n : Numeral.Spelling) (hn : n.Valid) (hs : s.toList = n.chars) :
    Clean closes fused s ∧ Starts s := by
  obtain ⟨c, cs, hwhole⟩ := List.exists_cons_of_ne_nil hn.nonempty
  refine (reads_spelling n hn hs).clean_number c (cs ++ (n.pointChars ++ n.expoChars)) ?_
    (hn.whole c (by simp [hwhole]))
  rw [hs, Numeral.Spelling.chars, hwhole, List.cons_append]

theorem clean_byteCode (b : UInt8) : Clean closes fused (byteCode b) ∧ Starts (byteCode b) :=
  (reads_byteCode b).clean_number '0' ('x' :: (Text.hex [b]).toList) (by simp [byteCode]) (by decide)

theorem starts_quoted (text : String) : Starts (Text.quoted text) :=
  ⟨'"', _, Text.toList_quoted text, by decide⟩

theorem clean_quoted (text : String) : Clean anything fused (Text.quoted text) :=
  (reads_quoted text).clean (starts_quoted text)

theorem Clean.signed (hs : Clean ends fused s) (c : Char) (hc : c ∈ ['-', '^', '!'])
    (hbegins : ∃ d ds, s.toList = d :: ds ∧ endsSign c d = true) :
    Clean ends fused (String.singleton c ++ s) := by
  have hne : ∀ d ∈ ['-', '^', '!'], String.singleton d ≠ "++" ∧ String.singleton d ≠ "--" :=
    List.all_iff_forall_prop.mp (by decide)
  have hsign : Clean (endsSign c) fused (String.singleton c) :=
    ⟨_, reads_sign c hc, by simpa using (hne c hc).1.symm,
      fun h => absurd (List.mem_singleton.mp h) (hne c hc).2.symm⟩
  exact hsign.append hs hbegins

theorem Starts.endsSign (h : Starts s) (c : Char) :
    ∃ d ds, s.toList = d :: ds ∧ endsSign c d = true := by
  obtain ⟨d, ds, hd, hnot⟩ := h
  refine ⟨d, ds, hd, ?_⟩
  simp only [List.mem_cons, not_or, List.not_mem_nil, not_false_eq_true, and_true] at hnot
  simp [Program.endsSign, hnot]

theorem reads_fusedSign (ts : List String) (hs : Reads closes s ts) :
    Reads anything ("(-" ++ ("-" ++ s) ++ ")") ("(" :: "--" :: ts ++ [")"]) := by
  have hcode : "(-" ++ ("-" ++ s) ++ ")" = "(" ++ "--" ++ s ++ ")" := by
    apply String.toList_injective
    simp
  have hopen : Reads anything "(" ["("] := reads_mark '(' (by decide)
  have hshut : Reads anything ")" [")"] := reads_mark ')' (by decide)
  rw [hcode]
  exact ((hopen.append_anything reads_fused).append_anything hs).append hshut ⟨')', [], rfl, by decide⟩

/-- What may follow the code of a value: what ends an operand and, where an object or the value of a
switch is asked for its bytes or a member, a point. -/
def follows (t : ValueType) (c : Char) : Bool :=
  closes c || match t with
    | .object _ => c == '.'
    | .encoder => c == '.'
    | _ => false

theorem endsName_of_follows (t : ValueType) (c : Char) (h : follows t c = true) :
    endsName c = true := by
  have all : ∀ d ∈ [')', ',', ' ', '\x7d', '.'], endsName d = true :=
    List.all_iff_forall_prop.mp (by decide)
  refine all c ?_
  unfold follows closes at h
  cases t <;> simp_all <;> tauto

/-- The code of a value: it begins with no sign, or it is a number with a minus sign. -/
inductive Value.Spelt (fused : Prop) (v : Value) : Bool → Prop
  | plain (h : Clean (follows v.type) fused v.code) (hs : Starts v.code) : Value.Spelt fused v false
  | signed (digits : String) (hcode : v.code = "-" ++ digits) (h : Clean closes False digits)
      (hs : Starts digits) (ht : v.type.isNumeric = true) : Value.Spelt fused v true

namespace Value

variable {v : Value} {b : Bool}

theorem Spelt.clean (h : v.Spelt fused b) : Clean closes fused v.code := by
  cases h with
  | plain h _ => exact h.mono fun c hc => by simp [follows, hc]
  | signed digits hcode h hs _ =>
    rw [hcode]
    exact (h.weaken False.elim).signed '-' (by decide) (hs.endsSign '-')

theorem Spelt.begins (h : v.Spelt fused b) : v.code.toList.head? = some '-' ↔ b = true := by
  cases h with
  | plain _ hs =>
    obtain ⟨c, cs, hcs, hc⟩ := hs
    have hne : c ≠ '-' := fun he => hc (he ▸ List.mem_cons_self)
    simp [hcs, hne]
  | signed digits hcode _ _ _ => simp [hcode]

theorem clean_typed (h : Clean closes fused v.code) : Clean closes fused v.typed := by
  have hcall (f : String) (hf : isFunction f = true) : Clean closes fused (call f [v.code]) :=
    (clean_call f hf _ (by simpa using h)).mono fun _ _ => rfl
  unfold Value.typed
  split
  · split
    · exact hcall "int64" (by decide)
    · exact hcall "float64" (by decide)
    · exact h
  · exact h

theorem Spelt.mono (h : v.Spelt fused b) (hf : fused → fused') : v.Spelt fused' b := by
  cases h with
  | plain h hs => exact .plain (h.weaken hf) hs
  | signed digits hcode h hs ht => exact .signed digits hcode h hs ht

theorem spelt_of_name (h : Clean endsName fused v.code) (hs : Starts v.code) : v.Spelt fused false :=
  .plain (h.mono fun c hc => endsName_of_follows v.type c hc) hs

theorem spelt_of_anything (h : Clean anything fused v.code) (hs : Starts v.code) :
    v.Spelt fused false :=
  .plain (h.mono fun _ _ => rfl) hs

theorem spelt_call (f : String) (args : List String) (hcode : v.code = call f args)
    (hf : isFunction f = true) (h : ∀ a ∈ args, Clean closes fused a) : v.Spelt fused false := by
  refine spelt_of_anything ?_ ?_ <;> rw [hcode]
  · exact clean_call f hf args h
  · exact starts_call f hf args

theorem spelt_paren (code : String) (hcode : v.code = "(" ++ code ++ ")")
    (h : Clean closes fused code) : v.Spelt fused false := by
  refine spelt_of_anything ?_ ?_ <;> rw [hcode]
  · exact h.paren
  · exact Starts.append (Starts.append ⟨'(', [], rfl, by decide⟩)

theorem spelt_ofStored (code : String) (t : ValueType) (h : Clean endsName fused code)
    (hs : Starts code) : (Value.ofStored code t).Spelt fused false := by
  have hcall (f : String) (hf : isFunction f = true) (u : ValueType) :
      (⟨call f [code], u, false⟩ : Value).Spelt fused false :=
    spelt_call f [code] rfl hf (by
      simpa using h.mono fun c hc => endsName_of_follows .encoder c (by simp [follows, hc]))
  unfold Value.ofStored
  split
  · split
    · exact spelt_of_name h hs
    · exact hcall "int64" (by decide) _
  · split
    · exact spelt_of_name h hs
    · exact hcall "float64" (by decide) _
  · exact spelt_of_name h hs

theorem spelt_ofField (code : String) (f : Field) (h : Clean endsName fused code)
    (hs : Starts code) : (Value.ofField code f).Spelt fused false := by
  unfold Value.ofField
  split
  · exact spelt_of_name h hs
  · exact spelt_ofStored code _ h hs

theorem spelt_ofInt (n : Int) : (Value.ofInt n).Spelt fused (Word.wrap n < 0) := by
  cases hn : Word.wrap n with
  | ofNat k =>
    have hcode : (Value.ofInt n).code.toList = Nat.toDigits 10 k := by
      rw [Value.ofInt, hn]
      exact Numeral.toList_toString_ofNat k
    have hneg : decide (Int.ofNat k < 0) = false := by simp
    obtain ⟨h, hs⟩ : Clean closes fused _ ∧ Starts _ := clean_nat k hcode
    rw [hneg]
    exact .plain (h.mono fun c hc => by simpa [follows, Value.ofInt, ValueType.word] using hc) hs
  | negSucc k =>
    have hneg : decide (Int.negSucc k < 0) = true := by simp [Int.negSucc_lt_zero]
    have hcode : (Value.ofInt n).code = "-" ++ String.ofList (Nat.toDigits 10 (k + 1)) := by
      apply String.toList_injective
      rw [Value.ofInt, hn, String.toList_append, String.toList_ofList]
      exact (Numeral.toList_toString_negSucc k).trans (by simp)
    obtain ⟨h, hs⟩ : Clean closes False _ ∧ Starts _ :=
      clean_nat (k + 1) String.toList_ofList
    rw [hneg]
    exact .signed _ hcode h hs rfl

theorem ofDouble_chars (x : Double) (hf : x.isFinite = true) : ∃ n : Numeral.Spelling, n.Valid ∧
    (Value.ofDouble x).code.toList = (if x.negative then ['-'] else []) ++ n.chars := by
  have hne : x.exponentField ≠ 2047 := by simpa [Double.isFinite] using hf
  obtain ⟨n, hn, hchars, -⟩ := Double.render_chars .general (by decide) x hf
  have hcode : (Value.ofDouble x).code =
      if (!(x.render .general).toList.any fun c => c == '.' || c == 'e') = true
      then x.render .general ++ ".0" else x.render .general := by
    rw [Value.ofDouble, if_neg (by simp [Double.isNaN, hne]), if_neg (by simp [Double.isInfinite, hne])]
  rw [hcode]
  split
  next hwhole =>
    -- without a point and an exponent there are only digits before the point
    have hplain : ∀ c ∈ n.chars, c ≠ '.' ∧ c ≠ 'e' := by
      intro c hc
      simp only [Bool.not_eq_true', List.any_eq_false, Bool.or_eq_true, beq_iff_eq, not_or] at hwhole
      exact hwhole c (by rw [hchars]; exact List.mem_append_right _ hc)
    have hpoint : n.pointChars = [] := by
      by_contra hp
      rw [Numeral.Spelling.pointChars] at hp
      split at hp
      · exact hp rfl
      next hplaces =>
        refine (hplain '.' ?_).1 rfl
        simp [Numeral.Spelling.chars, Numeral.Spelling.pointChars, hplaces]
    have hexpo : n.expoChars = [] := by
      cases he : n.expo with
      | none => simp [Numeral.Spelling.expoChars, he]
      | some e =>
        refine absurd rfl (hplain 'e' ?_).2
        simp [Numeral.Spelling.chars, Numeral.Spelling.expoChars, he]
    refine ⟨⟨n.whole, ['0'], none⟩, ⟨hn.nonempty, hn.whole, by simp, by simp⟩, ?_⟩
    rw [String.toList_append, hchars, Numeral.Spelling.chars, hpoint, hexpo]
    simp [Numeral.Spelling.chars, Numeral.Spelling.pointChars, Numeral.Spelling.expoChars]
  next => exact ⟨n, hn, hchars⟩

theorem type_ofDouble (x : Double) : (Value.ofDouble x).type = .double := by
  unfold Value.ofDouble
  split
  · rfl
  · split <;> rfl

theorem spelt_ofDouble (x : Double) : (Value.ofDouble x).Spelt fused (x.isFinite && x.negative) := by
  cases hf : x.isFinite with
  | false =>
    have hfield : x.exponentField = 2047 := by simpa [Double.isFinite] using hf
    have hone : Clean closes fused "1" ∧ Starts "1" := clean_nat 1 rfl
    have hminus : Clean closes fused "-1" := hone.1.signed '-' (by decide) (hone.2.endsSign '-')
    have hNaN : "math.NaN()" = call "math.NaN" [] := rfl
    have hinf : "math.Inf(1)" = call "math.Inf" ["1"] := rfl
    have hneg : "math.Inf(-1)" = call "math.Inf" ["-1"] := rfl
    rw [Bool.false_and]
    unfold Value.ofDouble
    split
    · exact spelt_call "math.NaN" [] hNaN (by decide) (by simp)
    · rw [if_pos (by simp_all [Double.isNaN, Double.isInfinite])]
      split
      · exact spelt_call "math.Inf" ["-1"] hneg (by decide) (by simpa using hminus)
      · exact spelt_call "math.Inf" ["1"] hinf (by decide) (by simpa using hone.1)
  | true =>
    obtain ⟨n, hn, hchars⟩ := ofDouble_chars x hf
    have htype := type_ofDouble x
    rw [Bool.true_and]
    cases hneg : x.negative with
    | false =>
      rw [hneg] at hchars
      obtain ⟨h, hs⟩ : Clean closes fused _ ∧ Starts _ :=
        clean_spelling n hn (by simpa using hchars)
      exact .plain (h.mono fun c hc => by simpa [follows, htype, ValueType.double] using hc) hs
    | true =>
      rw [hneg] at hchars
      obtain ⟨h, hs⟩ : Clean closes False _ ∧ Starts _ :=
        clean_spelling n hn String.toList_ofList
      refine .signed (String.ofList n.chars) ?_ h hs (by rw [htype]; rfl)
      apply String.toList_injective
      rw [hchars]
      simp

end Value

variable {infer : Infer} {p : Plan} {v w a c : Value} {b b' : Bool}

def Holder (fused : Prop) (holder : String) : Prop :=
  holder = "" ∨ Clean (follows .encoder) fused holder ∧ Starts holder

theorem Holder.point {holder name : String} (h : Holder fused holder) (hne : holder ≠ "")
    (hname : IsName name) : Clean endsName fused (holder ++ "." ++ name) ∧
      Starts (holder ++ "." ++ name) := by
  obtain ⟨hclean, hstarts⟩ := h.resolve_left hne
  exact ⟨hclean.point (by decide) hname, hstarts.append.append⟩

theorem spelt_memberCode (hp : Named p) {t : TypeDef} (ht : t ∈ p.types) {holder id : String}
    (hh : Holder fused holder) (h : memberCode infer p.names holder t id = .ok v) :
    v.Spelt fused false := by
  obtain ⟨hfield, hinstance⟩ := find?_memberIds t id
  have hof (code : String) (i : Instance)
      (h : (do return ⟨code, ← infer t i, false⟩ : Except Error Value) = .ok v)
      (hcode : Clean endsName fused code ∧ Starts code) : v.Spelt fused false := by
    obtain ⟨type, -, h⟩ := (bind_eq_ok _ _ _).mp h
    obtain rfl := (pure_eq_ok _ _).mp h
    exact Value.spelt_of_name hcode.1 hcode.2
  unfold memberCode at h
  dsimp only at h
  split at h
  next i hi =>
    obtain ⟨hi, -⟩ := Option.filter_eq_some_iff.mp hi
    have hname := hp.static t ht id (hinstance i hi)
    exact hof _ i h ⟨clean_name hname, hname.starts⟩
  next =>
    split at h
    next => cases h
    next hne =>
      split at h
      next f hf =>
        cases h
        obtain ⟨hclean, hstarts⟩ := hh.point hne (hp.member t ht id (hfield f hf))
        exact Value.spelt_ofField _ f hclean hstarts
      next i _ hi => exact hof _ i h (hh.point hne (hp.member t ht id (hinstance i hi)))
      next => cases h

theorem spelt_outerCode {m : Model} {holder id : String} {here : TypePath} (hh : Holder fused holder)
    (h : outerCode m holder here id = .ok v) : v.Spelt fused false := by
  have hroot : IsName "root" := isName_ofList ['r', 'o', 'o', 't'] (by decide)
  have hparent : IsName "parent" := isName_ofList ['p', 'a', 'r', 'e', 'n', 't'] (by decide)
  unfold outerCode at h
  split at h
  next => cases h
  next hne =>
    split at h
    next =>
      cases h
      obtain ⟨hclean, hstarts⟩ := hh.point hne hroot
      rw [String.append_assoc] at hclean hstarts
      exact Value.spelt_of_name hclean hstarts
    next =>
      split at h
      next =>
        cases h
        obtain ⟨hclean, hstarts⟩ := hh.point hne hparent
        rw [String.append_assoc] at hclean hstarts
        exact Value.spelt_of_name hclean hstarts
      next => cases h

theorem clean_method {name : String} (h : Clean endsName fused (s ++ "." ++ name)) :
    Clean anything fused (s ++ "." ++ name ++ "()") := by
  have hcode : s ++ "." ++ name ++ "()" = call (s ++ "." ++ name) [] := by
    apply String.toList_injective
    simp [call, Text.join]
  rw [hcode]
  exact clean_applied (h.mono fun c hc => beq_iff_eq.mp hc ▸ rfl) [] (by simp)

theorem clean_object (hv : v.Spelt fused b) (ht : follows v.type '.' = true) :
    Clean (follows .encoder) fused v.code ∧ Starts v.code := by
  cases hv with
  | plain h hs =>
    refine ⟨h.mono fun c hc => ?_, hs⟩
    rcases Bool.or_eq_true_iff.mp hc with hcloses | hpoint
    · simp [follows, hcloses]
    · rwa [beq_iff_eq.mp hpoint]
  | signed _ _ _ _ hn =>
    exfalso
    cases hvt : v.type <;> rw [hvt] at ht hn <;> simp_all [follows, closes, ValueType.isNumeric,
      ValueType.isInt, ValueType.isFloat]

theorem clean_objectBytes (hv : v.Spelt fused b) (ht : follows v.type '.' = true) :
    Clean closes fused (v.code ++ ".Bytes()") := by
  have hname : IsName "Bytes" := isName_ofList ['B', 'y', 't', 'e', 's'] (by decide)
  have hcode : v.code ++ ".Bytes()" = v.code ++ "." ++ "Bytes" ++ "()" := by
    apply String.toList_injective
    simp
  rw [hcode]
  exact (clean_method ((clean_object hv ht).1.point (by decide) hname)).mono fun _ _ => rfl

theorem spelt_builtinAttr (id : String) (hv : v.Spelt fused b) (h : builtinAttr v id = some w) :
    (w = v ∧ id = "to_i" ∧ v.type.isInt = true) ∨ w.Spelt fused false := by
  have hone : ∀ a ∈ [v.code], Clean closes fused a := by simpa using hv.clean
  have hinner (f : String) (hf : isFunction f = true) : Clean closes fused (call f [v.code]) :=
    (clean_call f hf _ hone).mono fun _ _ => rfl
  have htwo (f : String) (hf : isFunction f = true) (t : ValueType) :
      (⟨call "int64" [call f [v.code]], t, false⟩ : Value).Spelt fused false :=
    Value.spelt_call "int64" _ rfl (by decide) (by simpa using hinner f hf)
  have hpick (f : String) (hf : isFunction f = true) (t : ValueType) :
      (Value.ofStored (call f [v.code]) t).Spelt fused false :=
    Value.spelt_ofStored _ t ((clean_call f hf _ hone).mono fun _ _ => rfl) (starts_call f hf _)
  have hcall (f : String) (hf : isFunction f = true) (t : ValueType) :
      (⟨call f [v.code], t, false⟩ : Value).Spelt fused false :=
    Value.spelt_call f _ rfl hf hone
  have hbytes (ht : follows v.type '.' = true) (t : ValueType) :
      (⟨call "int64" [call "len" [v.code ++ ".Bytes()"]], t, false⟩ : Value).Spelt fused false := by
    have hlen : Clean closes fused (call "len" [v.code ++ ".Bytes()"]) :=
      (clean_call "len" (by decide) _ (by simpa using clean_objectBytes hv ht)).mono fun _ _ => rfl
    exact Value.spelt_call "int64" _ rfl (by decide) (by simpa using hlen)
  unfold builtinAttr at h
  dsimp only at h
  split at h
  next =>
    cases h
    exact .inr (htwo "utf8.RuneCountInString" (by decide) _)
  next =>
    cases h
    exact .inr (htwo "len" (by decide) _)
  next =>
    split at h
    next =>
      cases h
      exact .inr (hpick "fzrt.First" (by decide) _)
    next =>
      cases h
      exact .inr (htwo "fzrt.First" (by decide) _)
    next => cases h
  next =>
    split at h
    next =>
      cases h
      exact .inr (hpick "fzrt.Last" (by decide) _)
    next =>
      cases h
      exact .inr (htwo "fzrt.Last" (by decide) _)
    next => cases h
  next =>
    cases h
    have hten : Clean closes fused "10" := (clean_nat 10 rfl).1
    exact .inr (Value.spelt_call "strconv.FormatInt" _ rfl (by decide) (by
      simpa using ⟨Value.clean_typed hv.clean, hten⟩))
  next =>
    cases h
    exact .inr (hcall "fzrt.ToI" (by decide) _)
  next =>
    cases h
    exact .inr (hcall "int64" (by decide) _)
  next ht =>
    cases h
    exact .inl ⟨rfl, rfl, by simp [ht, ValueType.isInt]⟩
  next =>
    cases h
    exact .inr (hcall "fzrt.Bool" (by decide) _)
  next =>
    split at h
    next =>
      split at h
      next =>
        cases h
        exact .inr (htwo "len" (by decide) _)
      next =>
        cases h
        exact .inr (htwo "len" (by decide) _)
      next ht =>
        cases h
        exact .inr (hbytes (by rw [ht]; rfl) _)
      next ht =>
        cases h
        exact .inr (hbytes (by rw [ht]; rfl) _)
      next => cases h
    next => cases h

theorem spelt_attrCode (hp : Named p) (x : Expr) (id : String) (hv : v.Spelt fused b)
    (h : attrCode infer p x v id = .ok w) :
    (w = v ∧ id = "to_i" ∧ v.type.isInt = true) ∨ w.Spelt fused false := by
  unfold attrCode at h
  extract_lets builtin at h
  have hbuiltin (h : builtin = .ok w) :
      (w = v ∧ id = "to_i" ∧ v.type.isInt = true) ∨ w.Spelt fused false := by
    unfold builtin at h
    split at h
    next hw =>
      cases h
      exact spelt_builtinAttr id hv hw
    next => cases h
  split at h
  next path htype =>
    have hholder : Holder fused v.code := .inr (clean_object hv (by rw [htype]; rfl))
    split at h
    next t ht =>
      split at h
      · exact .inr (spelt_memberCode hp (List.mem_of_find?_eq_some ht) hholder h)
      · split at h
        · exact .inr (spelt_outerCode hholder h)
        · exact hbuiltin h
    next => exact hbuiltin h
  next => exact hbuiltin h

theorem spelt_indexCode (e : Expr) (hv : v.Spelt fused b) (hw : w.Spelt fused b')
    (h : indexCode e v w = .ok a) : a.Spelt fused false := by
  have hargs : ∀ x ∈ [v.code, w.code], Clean closes fused x := by
    simpa using ⟨hv.clean, hw.clean⟩
  have hat : Clean anything fused (call "fzrt.At" [v.code, w.code]) :=
    clean_call "fzrt.At" (by decide) _ hargs
  have harg : Clean closes fused (call "fzrt.At" [v.code, w.code]) := hat.mono fun _ _ => rfl
  unfold indexCode at h
  split at h
  · cases h
  · split at h
    · cases h
      exact Value.spelt_ofStored _ _ (hat.mono fun _ _ => rfl) (starts_call "fzrt.At" (by decide) _)
    · cases h
      exact Value.spelt_call "int64" _ rfl (by decide) (by simpa using harg)
    · cases h

theorem spelt_unaryCode (e : Expr) (op : UnaryOp) (hv : v.Spelt fused b)
    (hfused : op = .neg → b = true → fused) (h : unaryCode e op v = .ok a) : a.Spelt fused false := by
  have hsign (c : Char) (hc : c ∈ ['-', '^', '!'])
      (hbegins : ∃ d ds, v.code.toList = d :: ds ∧ endsSign c d = true) (code : String)
      (hcode : code = "(" ++ (String.singleton c ++ v.code) ++ ")") :
      ({ v with code := code } : Value).Spelt fused false :=
    Value.spelt_paren _ hcode (hv.clean.signed c hc hbegins)
  have hmark (c : Char) (hc : c ≠ '-') : ∃ d ds, v.code.toList = d :: ds ∧ endsSign c d = true := by
    cases hv with
    | plain _ hs => exact hs.endsSign c
    | signed digits hcode _ _ _ => exact ⟨'-', digits.toList, by simp [hcode], by simp [endsSign, hc]⟩
  have hneg (code : String) (hcode : code = "(-" ++ v.code ++ ")") (hb : op = .neg) :
      ({ v with code := code } : Value).Spelt fused false := by
    cases hv with
    | plain _ hs =>
      refine hsign '-' (by decide) (hs.endsSign '-') code (hcode.trans ?_)
      apply String.toList_injective
      simp
    | signed digits hdigits hd _ _ =>
      obtain ⟨ts, hts, hplus, -⟩ := hd
      refine Value.spelt_of_anything ⟨_, hcode.trans (by rw [hdigits]) ▸ reads_fusedSign ts hts, ?_,
        fun _ => hfused hb rfl⟩ ?_
      · simp [hplus]
      · exact hcode ▸ Starts.append (Starts.append ⟨'(', ['-'], rfl, by decide⟩)
  unfold unaryCode at h
  split at h
  next =>
    cases h
    exact hneg _ rfl rfl
  next =>
    cases h
    exact hneg _ rfl rfl
  next =>
    cases h
    exact hsign '^' (by decide) (hmark '^' (by decide)) _ (by
      apply String.toList_injective
      simp)
  next =>
    cases h
    exact hsign '!' (by decide) (hmark '!' (by decide)) _ (by
      apply String.toList_injective
      simp)
  next => cases h

theorem fused_unaryCode (e : Expr) (hv : v.Spelt fused true) (h : unaryCode e .neg v = .ok a) :
    ∃ ts, Reads anything a.code ts ∧ "--" ∈ ts := by
  cases hv with
  | signed digits hcode hd _ _ =>
    obtain ⟨ts, hts, -, -⟩ := hd
    have hcode : a.code = "(-" ++ ("-" ++ digits) ++ ")" := by
      rw [← hcode]
      unfold unaryCode at h
      split at h
      next =>
        cases h
        rfl
      next =>
        cases h
        rfl
      next hop _ => cases hop
      next hop _ => cases hop
      next => cases h
    exact ⟨_, hcode ▸ reads_fusedSign ts hts, by simp⟩

theorem spelt_between (op : BinaryOp) (hv : Clean closes fused v.code) (hw : Clean closes fused w.code)
    (t : ValueType) (untyped : Bool) : (between op v w t untyped).Spelt fused false := by
  refine Value.spelt_of_anything (clean_between op hv hw) ?_
  exact Starts.append (Starts.append (Starts.append (Starts.append (Starts.append
    (Starts.append ⟨'(', [], rfl, by decide⟩)))))

theorem clean_promoteTo (hv : Clean closes fused v.code) : Clean closes fused (Value.promoteTo w v).code := by
  unfold Value.promoteTo
  split
  · exact (clean_call "float64" (by decide) _ (by simpa using hv)).mono fun _ _ => rfl
  · exact hv

theorem spelt_divisionCode (op : BinaryOp) (hv : Clean closes fused v.code)
    (hw : Clean closes fused w.code) (untyped : Bool) :
    (divisionCode op v w untyped).Spelt fused false := by
  unfold divisionCode
  split
  · split
    · exact Value.spelt_call "math.Mod" _ rfl (by decide) (by
        simpa using ⟨Value.clean_typed hv, Value.clean_typed hw⟩)
    · exact spelt_between op hv hw _ _
  · have hargs : ∀ x ∈ [v.code, w.code], Clean closes fused x := by simpa using ⟨hv, hw⟩
    split
    · exact Value.spelt_call "fzrt.Mod" _ rfl (by decide) hargs
    · exact Value.spelt_call "fzrt.Div" _ rfl (by decide) hargs

theorem spelt_comparison (op : BinaryOp) (hv : Clean closes fused v.code)
    (hw : Clean closes fused w.code) (t : ValueType) :
    (⟨"(" ++ call "bytes.Compare" [v.code, w.code] ++ " " ++ op.text ++ " 0)", t, false⟩ :
      Value).Spelt fused false := by
  have hcall : Clean closes fused (call "bytes.Compare" [v.code, w.code]) :=
    (clean_call "bytes.Compare" (by decide) _ (by simpa using ⟨hv, hw⟩)).mono fun _ _ => rfl
  have hzero : Clean closes fused "0" := (clean_nat 0 rfl).1
  have hcode : "(" ++ call "bytes.Compare" [v.code, w.code] ++ " " ++ op.text ++ " 0)"
      = "(" ++ call "bytes.Compare" [v.code, w.code] ++ " " ++ op.text ++ " " ++ "0" ++ ")" := by
    apply String.toList_injective
    simp
  refine Value.spelt_of_anything (hcode ▸ clean_between op hcall hzero) ?_
  exact Starts.append (Starts.append (Starts.append (Starts.append ⟨'(', [], rfl, by decide⟩)))

theorem spelt_binaryCode (e : Expr) (op : BinaryOp) (hv : v.Spelt fused b) (hw : w.Spelt fused b')
    (h : binaryCode e op v w = .ok a) : a.Spelt fused false := by
  have hpromoted : Clean closes fused (Value.promote v w).1.code ∧
      Clean closes fused (Value.promote v w).2.code :=
    ⟨clean_promoteTo hv.clean, clean_promoteTo hw.clean⟩
  unfold binaryCode at h
  generalize Value.promote v w = xy at hpromoted h
  obtain ⟨x, y⟩ := xy
  obtain ⟨hx, hy⟩ := hpromoted
  dsimp only at hx hy h
  have harithmetic (t : ValueType)
      (h : (if (v.type.isNumeric && w.type.isNumeric) = true
        then .ok (between op x y t (v.untyped && w.untyped))
        else .error (.expr e (.binary op v.type w.type)) : Except Error Value) = .ok a) :
      a.Spelt fused false := by
    split at h
    · cases h
      exact spelt_between op hx hy _ _
    · cases h
  split at h
  next =>
    cases h
    exact spelt_between op hv.clean hw.clean _ _
  next =>
    cases h
    exact Value.spelt_call "fzrt.Concat" _ rfl (by decide) (by simpa using ⟨hv.clean, hw.clean⟩)
  next => exact harithmetic _ h
  next => exact harithmetic _ h
  next =>
    split at h
    · cases h
      exact spelt_divisionCode op hx hy _
    · cases h
  next =>
    split at h
    · cases h
      exact spelt_between op hv.clean hw.clean _ _
    · cases h
  next =>
    cases h
    exact spelt_between op hv.clean hw.clean _ _
  next => cases h
  next =>
    cases h
    exact spelt_between op hv.clean hw.clean _ _
  next =>
    cases h
    exact spelt_between op hv.clean hw.clean _ _
  next =>
    cases h
    exact spelt_comparison op hv.clean hw.clean _
  next => exact harithmetic _ h

theorem spelt_condCode (e : Expr) (hc : c.Spelt fused b) (hv : Clean closes fused v.code)
    (hw : Clean closes fused w.code) (h : condCode e c v w = .ok a) : a.Spelt fused false := by
  have hpromoted : Clean closes fused (Value.promote v w).1.typed ∧
      Clean closes fused (Value.promote v w).2.typed :=
    ⟨Value.clean_typed (clean_promoteTo hv), Value.clean_typed (clean_promoteTo hw)⟩
  unfold condCode at h
  generalize Value.promote v w = xy at hpromoted h
  obtain ⟨x, y⟩ := xy
  dsimp only at hpromoted h
  split at h
  · cases h
  · cases h
    exact Value.spelt_call "fzrt.If" _ rfl (by decide) (by simpa using ⟨hc.clean, hpromoted⟩)

theorem clean_elementCode (whole x : Expr) (code : String) (hv : v.Spelt fused b)
    (h : elementCode whole x v = .ok code) : Clean closes fused code := by
  unfold elementCode at h
  split at h
  · cases h
  · split at h
    · split at h
      · cases h
      · cases h
        exact (clean_byteCode _).1
    · cases h
      exact (clean_call "byte" (by decide) _ (by simpa using hv.clean)).mono fun _ _ => rfl

theorem clean_accessor (hp : Named p) {t : TypeDef} (ht : t ∈ p.types) {holder id : String}
    (hid : id ∈ memberIds t) (hh : Holder fused holder) :
    Clean closes fused (accessor p.names holder t id) := by
  have hbytes : IsName "Bytes" := isName_ofList ['B', 'y', 't', 'e', 's'] (by decide)
  have hname : IsName (p.names.member t id ++ "Bytes") := (hp.member t ht id hid).append hbytes.text
  have hpoint : Clean endsName fused (holder ++ "." ++ (p.names.member t id ++ "Bytes")) := by
    rcases hh with rfl | ⟨hclean, -⟩
    · have hnone : Clean anything fused "" := clean_empty
      exact hnone.point rfl hname
    · exact hclean.point (by decide) hname
  have hcode : accessor p.names holder t id
      = holder ++ "." ++ (p.names.member t id ++ "Bytes") ++ "()" := by
    apply String.toList_injective
    simp [accessor]
  rw [hcode]
  exact (clean_method hpoint).mono fun _ _ => rfl

theorem clean_bytesOf (e : Expr) (hv : v.Spelt fused b) (code : String) (h : bytesOf e v = .ok code) :
    Clean closes fused code := by
  have hslice : Clean anything fused (call "[]byte" [v.code]) :=
    clean_applied (clean_byteSlice.mono fun c hc => beq_iff_eq.mp hc ▸ rfl) _ (by
      simpa using hv.clean)
  unfold bytesOf at h
  split at h
  next =>
    cases h
    exact hv.clean
  next =>
    cases h
    exact hslice.mono fun _ _ => rfl
  next ht =>
    cases h
    exact clean_objectBytes hv (by rw [ht]; rfl)
  next ht =>
    cases h
    exact clean_objectBytes hv (by rw [ht]; rfl)
  next => cases h

end FormatFuzz.Program
