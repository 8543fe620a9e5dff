import FormatFuzz.Proofs.Yaml.Tokens

/-!
# Tokens of written nodes

The text of a smooth node leads the scanner to the tokens of the node: by induction over the node,
and over items and entries one line after another. A block stays open until a line that is less
deep, so what its text leads to is told up to there.
-/

set_option autoImplicit false

namespace FormatFuzz.Yaml

open FormatFuzz.Yaml.Token.Scan (Plain Starts Clear Reaches Rolled At lead ink isInk)

theorem isChain_of_hasPair (p q : Char → Bool) (cs : List Char) (h : hasPair p q cs = false) :
    cs.IsChain fun a b => ¬ (p a = true ∧ q b = true) := by
  induction cs with
  | nil => exact .nil
  | cons a cs ih =>
    cases cs with
    | nil => exact .singleton a
    | cons b cs =>
      simp only [hasPair, Bool.or_eq_false_iff] at h
      refine .cons_cons ?_ (ih h.2)
      simpa using h.1

/-- Can a character stand on a line? -/
def isClean (c : Char) : Bool := isShown c && !isBreak c

theorem isInk_of_isClean (c : Char) (h : isClean c = true) (hs : isGap c = false) :
    isInk c = true := by
  simp only [isClean, Bool.and_eq_true, Bool.not_eq_true'] at h
  rw [isInk, Token.Scan.isBreak_eq, h.2, show Token.isBlank c = isGap c from rfl, hs]
  rfl

theorem starts_of_allowsPlain (cs : List Char) (hne : cs ≠ []) (h : allowsPlain cs = true) :
    Starts cs ∧ ∀ c ∈ cs, isClean c = true := by
  simp only [allowsPlain, hasIndicator, Bool.and_eq_true, Bool.not_eq_true', Bool.or_eq_false_iff,
    List.any_eq_false, bne_iff_ne, ne_eq] at h
  obtain ⟨⟨⟨hchars, hhead⟩, hlast⟩, ⟨⟨⟨⟨hstart, hdash⟩, hdot⟩, hcolon⟩, hend⟩, hhash⟩ := h
  have hclean : ∀ c ∈ cs, isClean c = true ∧ c ≠ '\t' := by
    intro c hc
    have := hchars c hc
    simp only [Bool.or_eq_true, Bool.not_eq_true', not_or, Bool.not_eq_true, Bool.not_eq_false,
      beq_eq_false_iff_ne] at this
    simp [isClean, this.1.1, this.1.2, this.2]
  have hgap : ∀ c ∈ cs, c ≠ ' ' → isGap c = false := fun c hc hs => by
    simp [isGap, hs, (hclean c hc).2]
  refine ⟨⟨⟨fun c hc => ?_, (isChain_of_hasPair _ _ cs hcolon).imp ?_,
    (isChain_of_hasPair _ _ cs hhash).imp ?_, fun c hc => ?_⟩, ?_, ?_, ?_⟩,
    fun c hc => (hclean c hc).1⟩
  · obtain ⟨hc, ht⟩ := hclean c hc
    simp only [isClean, Bool.and_eq_true, Bool.not_eq_true'] at hc
    exact ⟨(Token.Scan.isBreak_eq c).trans hc.2, ht⟩
  · rintro _ _ hab rfl rfl
    exact hab (by decide)
  · rintro _ _ hab rfl rfl
    exact hab (by decide)
  · refine ⟨?_, ?_⟩
    · rintro rfl
      rw [show cs.getLast? = some ':' from hc] at hend
      exact absurd hend (by decide)
    · rintro rfl
      exact hlast hc
  · obtain ⟨c, w, rfl⟩ := List.exists_cons_of_ne_nil hne
    simp only [Bool.or_eq_false_iff] at hstart
    have hc : c ≠ ' ' := fun h => hhead (by rw [h]; rfl)
    refine ⟨c, w, rfl, isInk_of_isClean c (hclean c (by simp)).1 (hgap c (by simp) hc),
      by simpa using hstart.1, fun hmark => ?_⟩
    have hnext := hstart.2
    rw [show (c == '?' || c == ':' || c == '-') = true by simpa [or_assoc] using hmark,
      Bool.true_and] at hnext
    cases w with
    | nil => cases hnext
    | cons d v => exact ⟨d, v, rfl, isInk_of_isClean d (hclean d (by simp)).1 hnext⟩
  · intro h
    rw [← List.isPrefixOf_iff_prefix] at h
    exact absurd (h.symm.trans hdash) (by decide)
  · intro h
    rw [← List.isPrefixOf_iff_prefix] at h
    exact absurd (h.symm.trans hdot) (by decide)

/-- A plain scalar that comes back as it is. -/
theorem formOf_plain (inKey : Bool) (t : String) (hne : t.toList ≠ [])
    (h : allowsPlain t.toList = true) : formOf inKey .plain t = .plain := by
  have hbreak : t.toList.contains '\n' = false := by
    rw [List.contains_eq_mem, decide_eq_false_iff_not]
    exact fun hmem => absurd ((starts_of_allowsPlain _ hne h).2 _ hmem) (by decide)
  have hempty : t.toList.isEmpty = false := by simpa using hne
  simp only [formOf, wantedForm, hbreak, h, hempty, Bool.false_eq_true, if_false, Bool.not_true,
    Bool.and_false, Bool.or_false]

theorem isClean_of_isBare (c : Char) (h : isBare c = true) : isClean c = true := by
  simp only [isBare, Bool.and_eq_true] at h
  rw [isClean, h.1.1.1, h.1.1.2]
  rfl

theorem isInk_of_isBare (c : Char) (h : isBare c = true) (hs : isGap c = false) :
    isInk c = true ∧ c ≠ '"' ∧ c ≠ '\\' := by
  refine ⟨isInk_of_isClean c (isClean_of_isBare c h) hs, ?_⟩
  simp only [isBare, Bool.and_eq_true, bne_iff_ne, ne_eq] at h
  exact ⟨h.1.2, h.2⟩

theorem doubleQuoted_bare (cs : List Char) (h : ∀ c ∈ cs, isBare c = true) :
    doubleQuoted cs = '"' :: cs ++ ['"'] := by
  have hmarked : (cs.head? == some Token.byteOrderMark) = false := by
    cases cs with
    | nil => rfl
    | cons c cs =>
      have hc := h c (by simp)
      rw [List.head?_cons, beq_eq_false_iff_ne]
      rintro ⟨⟩
      exact absurd hc (by decide)
  have hone : cs.flatMap (fun c => if !false && isBare c then [c] else escaped c) = cs := by
    rw [List.flatMap_congr (g := fun c => [c]) fun c hc => by simp [h c hc]]
    exact List.flatMap_singleton' cs
  simp only [doubleQuoted, hmarked, hone]

namespace Node

mutual

/-- The tokens of a node. -/
def kinds : Node → List Token.Kind
  | .scalar _ style t => [.scalar (formOf false style t) t]
  | .seq _ xs => if xs.isEmpty then [.flowSequenceStart, .flowSequenceEnd]
      else .sequenceStart :: itemKinds xs ++ [.blockEnd]
  | .map _ es => if es.isEmpty then [.flowMappingStart, .flowMappingEnd]
      else .mappingStart :: entryKinds es ++ [.blockEnd]

def itemKinds : List Node → List Token.Kind
  | [] => []
  | x :: xs => .blockEntry :: kinds x ++ itemKinds xs

def entryKinds : List (Node × Node) → List Token.Kind
  | [] => []
  | (k, v) :: es => .key :: kinds k ++ .value :: kinds v ++ entryKinds es

end

/-- What a scalar or an empty collection is written as. -/
def inline (n : Node) : List Char := (n.pieces copyStep 0).flatten

-- The equations of `scalarText` are costly to make, so it is unfolded as it stands.
theorem scalarText_plain (step col : Nat) (b : Bool) (x : String)
    (h : formOf b .plain x = .plain) : scalarText step col b .plain x = x.toList := by
  delta scalarText
  simp only [h, List.nil_append]

theorem scalarText_double (step col : Nat) (b : Bool) (x : String) :
    scalarText step col b .double x = doubleQuoted x.toList := by
  have h : formOf b .double x = .double := by simp [formOf, wantedForm]
  delta scalarText
  simp only [h, List.nil_append]

theorem pieces_plain (step col l : Nat) (x : String) (h : isSmoothScalar .plain x = true) :
    (scalar l .plain x).pieces step col = [x.toList] ∧ (∀ b, formOf b .plain x = .plain) ∧
      Starts x.toList ∧ x.toList.all isClean = true := by
  simp only [isSmoothScalar, Bool.and_eq_true] at h
  obtain ⟨⟨hne, hplain⟩, -⟩ := h
  have hne : x.toList ≠ [] := by simpa using hne
  have hform := fun b => formOf_plain b x hne hplain
  obtain ⟨hstarts, hclean⟩ := starts_of_allowsPlain _ hne hplain
  exact ⟨by rw [pieces, scalarText_plain _ _ _ _ (hform false)], hform, hstarts,
    List.all_eq_true.mpr hclean⟩

theorem pieces_double (step col l : Nat) (x : String) (h : isSmoothScalar .double x = true) :
    (scalar l .double x).pieces step col = ['"' :: x.toList ++ ['"']] ∧
      ∀ d ∈ x.toList, isBare d = true ∧ isGap d = false := by
  have hbare : ∀ d ∈ x.toList, isBare d = true ∧ isGap d = false := by
    simpa [isSmoothScalar] using h
  rw [← doubleQuoted_bare _ fun d hd => (hbare d hd).1]
  exact ⟨by rw [pieces, scalarText_double], hbare⟩

section
variable {n : Node} {s : Token.Scan} {t : List Char} {c : Nat} {i : Int} {is : List Int}
  {ks : List Token.Kind} {a : Bool}

theorem reads_inline (hs : n.isSmooth = true) (hc : n.isCompact = true)
    (h : s.At (n.inline ++ '\n' :: t) c (i :: is) ks a) (hi : i < c) (ht : Clear t)
    (hnext : ink t = [] ∨ ((lead t).length : Int) ≤ i) (hd : is.length ≤ Token.Scan.depthLimit) :
    ∃ u, Reaches s u ∧ u.At (ink t) (lead t).length (i :: is) (ks ++ n.kinds) true := by
  have hd' : (i :: is).length ≤ Token.Scan.depthLimit + 1 := by simpa using hd
  obtain ⟨hindent, -⟩ := List.cons.inj h.stack
  cases n with
  | scalar l style x =>
    rw [isSmooth, Bool.and_eq_true] at hs
    cases style with
    | plain =>
      obtain ⟨hpieces, hform, hstarts, -⟩ := pieces_plain copyStep 0 l x hs.2
      rw [inline, hpieces, List.flatten_singleton] at h
      rw [kinds, hform, ← String.ofList_toList (s := x)]
      exact h.plain hstarts hi ht hnext hd
    | double =>
      obtain ⟨hpieces, hbare⟩ := pieces_double copyStep 0 l x hs.2
      rw [inline, hpieces, List.flatten_singleton, List.append_assoc] at h
      obtain ⟨u, hsu, hu⟩ := At.quoted h
        (fun d hd => isInk_of_isBare d (hbare d hd).1 (hbare d hd).2) (hindent ▸ hi) hd'
      obtain ⟨v, huv, hv⟩ := hu.newline ht
      refine ⟨v, hsu.trans huv, ?_⟩
      rw [String.ofList_toList] at hv
      exact hv
    | single => cases hs.2
    | literal => cases hs.2
    | tagged tag => cases hs.2
  | seq l xs =>
    obtain rfl : xs = [] := by simpa [isCompact] using hc
    obtain ⟨u, hsu, hu⟩ := At.brackets (o := '[') (e := ']') h (.inl ⟨rfl, rfl⟩) (hindent ▸ hi) hd'
    obtain ⟨v, huv, hv⟩ := hu.newline ht
    exact ⟨v, hsu.trans huv, hv⟩
  | map l es =>
    obtain rfl : es = [] := by simpa [isCompact] using hc
    obtain ⟨u, hsu, hu⟩ := At.brackets (o := '\x7b') (e := '\x7d') h (.inr ⟨rfl, rfl⟩)
      (hindent ▸ hi) hd'
    obtain ⟨v, huv, hv⟩ := hu.newline ht
    exact ⟨v, hsu.trans huv, hv⟩

end

/-- The text of pieces, one a line. -/
def lines (ps : List (List Char)) : List Char := ps.flatMap ended

theorem ended_clean (p : List Char) (h : p.all isClean = true) : ended p = p ++ ['\n'] := by
  unfold ended
  cases hp : p.getLast? with
  | none => rfl
  | some d =>
    have hd := List.all_eq_true.mp h d (List.mem_of_getLast? hp)
    simp only [isClean, Bool.and_eq_true, Bool.not_eq_true'] at hd
    simp [hd.2]

theorem clean_margin (col : Nat) : (margin col).all isClean = true := by
  rw [margin, List.all_replicate]
  simp [show isClean ' ' = true by decide]

theorem clean_behind (col : Nat) (mark : Char) (p : List Char) (hm : isClean mark = true)
    (hp : p.all isClean = true) : (behind col mark p).all isClean = true := by
  unfold behind
  split <;> simp [List.all_append, clean_margin, hm, hp, show isClean ' ' = true by decide]

theorem clean_hang (col : Nat) (mark : Char) (ps : List (List Char)) (hm : isClean mark = true)
    (hp : ps.all (·.all isClean) = true) : (hang col mark ps).all (·.all isClean) = true := by
  cases ps with
  | nil => rfl
  | cons p ps =>
    rw [List.all_cons, Bool.and_eq_true] at hp
    have hdrop : (p.drop (col + 1)).all isClean = true :=
      List.all_eq_true.mpr fun d hd => List.all_eq_true.mp hp.1 d (List.mem_of_mem_drop hd)
    simp only [hang, List.all_cons, List.all_append, clean_margin, hm, hdrop, hp.2, Bool.and_self]

theorem length_le_utf8ByteSize (cs : List Char) : cs.length ≤ (String.ofList cs).utf8ByteSize := by
  induction cs with
  | nil => exact Nat.zero_le _
  | cons c cs ih =>
    have hc := c.utf8Size_pos
    rw [String.ofList_cons, String.utf8ByteSize_append, String.utf8ByteSize_singleton,
      List.length_cons]
    omega

/-- A key that comes back as it is: a short word. -/
theorem key_of_isSmoothKey (k : Node) (h : k.isSmoothKey = true) :
    ∃ x : String, k = .scalar 0 .plain x ∧ k.keyText = x.toList ∧ k.isSimpleKey = true ∧
      k.kinds = [.scalar .plain x] ∧ Starts x.toList ∧ x.toList.all isClean = true ∧
      (∀ d ∈ x.toList, isInk d = true) ∧ x.toList.length ≤ 1024 := by
  unfold isSmoothKey at h
  split at h
  · rename_i l x
    simp only [Bool.and_eq_true, Bool.not_eq_true', List.any_eq_false, beq_iff_eq] at h
    obtain ⟨⟨⟨rfl, hsimple⟩, hsmooth⟩, hgap⟩ := h
    obtain ⟨-, hform, hstarts, hclean⟩ := pieces_plain copyStep 0 0 x hsmooth
    have hsize : x.utf8ByteSize ≤ 128 := by
      simp only [isSimpleKey, Bool.and_eq_true, decide_eq_true_eq] at hsimple
      simpa using hsimple.2
    have hlength := length_le_utf8ByteSize x.toList
    rw [String.ofList_toList] at hlength
    exact ⟨x, rfl, by rw [keyText, scalarText_plain _ _ _ _ (hform true)], hsimple,
      by rw [kinds, hform], hstarts, hclean,
      fun d hd => isInk_of_isClean d (List.all_eq_true.mp hclean d hd) (by simpa using hgap d hd),
      by omega⟩
  · cases h

mutual

theorem clean_pieces (col : Nat) : (n : Node) → n.isSmooth = true →
    (n.pieces copyStep col).all (·.all isClean) = true
  | .scalar l style x, h => by
    rw [isSmooth, Bool.and_eq_true] at h
    cases style with
    | plain =>
      obtain ⟨hpieces, -, -, hclean⟩ := pieces_plain copyStep col l x h.2
      simp [hpieces, hclean]
    | double =>
      obtain ⟨hpieces, hbare⟩ := pieces_double copyStep col l x h.2
      have hclean : x.toList.all isClean = true :=
        List.all_eq_true.mpr fun d hd => isClean_of_isBare d (hbare d hd).1
      simp [hpieces, hclean, show isClean '"' = true by decide]
    | single => cases h.2
    | literal => cases h.2
    | tagged tag => cases h.2
  | .seq l xs, h => by
    rw [isSmooth, Bool.and_eq_true] at h
    rw [pieces]
    split
    · decide
    · exact clean_items col xs h.2
  | .map l es, h => by
    rw [isSmooth, Bool.and_eq_true] at h
    rw [pieces]
    split
    · decide
    · exact clean_entries col es h.2

theorem clean_items (col : Nat) : (xs : List Node) → areSmooth xs = true →
    (itemPieces copyStep col xs).all (·.all isClean) = true
  | [], _ => rfl
  | x :: xs, h => by
    rw [areSmooth, Bool.and_eq_true] at h
    have hx := clean_pieces (col + 2) x h.1
    rw [itemPieces, List.all_append, clean_items col xs h.2, Bool.and_true]
    split
    · rw [List.all_map, List.all_eq_true]
      exact fun p hp => clean_behind col '-' p (by decide) (List.all_eq_true.mp hx p hp)
    · exact clean_hang col '-' _ (by decide) hx

theorem clean_entries (col : Nat) : (es : List (Node × Node)) → haveSmooth es = true →
    (entryPieces copyStep col es).all (·.all isClean) = true
  | [], _ => rfl
  | (k, v) :: es, h => by
    rw [haveSmooth, Bool.and_eq_true, Bool.and_eq_true] at h
    have hv := clean_pieces (deeper copyStep col) v h.1.2
    obtain ⟨x, -, hkey, hsimple, -, -, hclean, -, -⟩ := key_of_isSmoothKey k h.1.1
    have hline : (margin col ++ k.keyText ++ [':']).all isClean = true := by
      simp [clean_margin, hkey, hclean, show isClean ':' = true by decide]
    rw [entryPieces, List.all_append, clean_entries col es h.2, Bool.and_true]
    simp only [hsimple, if_true]
    split
    · rw [List.all_map, List.all_eq_true]
      intro p hp
      have hp := List.all_eq_true.mp hv p hp
      simp only [Function.comp_apply]
      split
      · exact hline
      · rw [List.all_append, List.all_cons, hline, hp]
        decide
    · rw [List.all_cons, hline, hv]
      rfl

end

theorem lead_margin (col : Nat) (d : Char) (r : List Char) (hd : isInk d = true) :
    lead (margin col ++ d :: r) = margin col ∧ ink (margin col ++ d :: r) = d :: r := by
  have hne : (d == ' ') = false := by
    rw [beq_eq_false_iff_ne]
    rintro rfl
    cases hd
  have hblank : ∀ e ∈ margin col, (e == ' ') = true := by simp [margin]
  unfold lead ink
  rw [List.takeWhile_append_of_pos hblank, List.dropWhile_append_of_pos hblank]
  simp [hne]

theorem clear_margin (col : Nat) (d : Char) (r : List Char) (hd : isInk d = true ∧ d ≠ '#') :
    Clear (margin col ++ d :: r) := by
  rw [Clear, (lead_margin col d r hd.1).2]
  rintro _ ⟨⟩
  exact hd

theorem inline_head (n : Node) (hs : n.isSmooth = true) (hc : n.isCompact = true) :
    (∀ col, n.pieces copyStep col = [n.inline]) ∧
      ∃ d w, n.inline = d :: w ∧ isInk d = true ∧ d ≠ '#' := by
  cases n with
  | scalar l style x =>
    rw [isSmooth, Bool.and_eq_true] at hs
    cases style with
    | plain =>
      obtain ⟨hpieces, -, hstarts, -⟩ := pieces_plain copyStep 0 l x hs.2
      have hinline : inline (.scalar l .plain x) = x.toList := by simp [inline, hpieces]
      obtain ⟨d, w, hcons, hink, -⟩ := hstarts.head
      refine ⟨fun col => hinline ▸ (pieces_plain copyStep col l x hs.2).1, d, w,
        hinline.trans hcons, hink, ?_⟩
      exact Starts.hash (hcons ▸ hstarts)
    | double =>
      obtain ⟨hpieces, -⟩ := pieces_double copyStep 0 l x hs.2
      have hinline : inline (.scalar l .double x) = '"' :: x.toList ++ ['"'] := by
        simp [inline, hpieces]
      exact ⟨fun col => hinline ▸ (pieces_double copyStep col l x hs.2).1, _, _, hinline,
        by decide, by decide⟩
    | single => cases hs.2
    | literal => cases hs.2
    | tagged tag => cases hs.2
  | seq l xs =>
    obtain rfl : xs = [] := by simpa [isCompact] using hc
    exact ⟨fun col => rfl, _, _, rfl, by decide, by decide⟩
  | map l es =>
    obtain rfl : es = [] := by simpa [isCompact] using hc
    exact ⟨fun col => rfl, _, _, rfl, by decide, by decide⟩

theorem itemPieces_compact (col : Nat) (x : Node) (hs : x.isSmooth = true)
    (hc : x.isCompact = true) :
    itemPieces copyStep col [x] = [margin col ++ '-' :: ' ' :: x.inline] := by
  obtain ⟨hpieces, d, w, hinline, -⟩ := inline_head x hs hc
  simp [itemPieces, hc, hpieces, behind, hinline]

theorem entryPieces_compact (col : Nat) (k v : Node) (hk : k.isSmoothKey = true)
    (hs : v.isSmooth = true) (hc : v.isCompact = true) :
    entryPieces copyStep col [(k, v)] = [margin col ++ (k.keyText ++ ':' :: ' ' :: v.inline)] := by
  obtain ⟨hpieces, d, w, hinline, -⟩ := inline_head v hs hc
  obtain ⟨x, -, -, hsimple, -⟩ := key_of_isSmoothKey k hk
  simp [entryPieces, hsimple, hc, hpieces, hinline]

theorem entryPieces_block (col : Nat) (k v : Node) (hk : k.isSmoothKey = true)
    (hc : v.isCompact = false) :
    entryPieces copyStep col [(k, v)] =
      (margin col ++ (k.keyText ++ [':'])) :: v.pieces copyStep (deeper copyStep col) := by
  obtain ⟨x, -, -, hsimple, -⟩ := key_of_isSmoothKey k hk
  simp [entryPieces, hsimple, hc]

theorem itemPieces_cons (col : Nat) (x : Node) (xs : List Node) :
    itemPieces copyStep col (x :: xs) =
      itemPieces copyStep col [x] ++ itemPieces copyStep col xs := by
  simp [itemPieces]

theorem entryPieces_cons (col : Nat) (e : Node × Node) (es : List (Node × Node)) :
    entryPieces copyStep col (e :: es) =
      entryPieces copyStep col [e] ++ entryPieces copyStep col es := by
  simp [entryPieces]

theorem itemPieces_block (col : Nat) (x : Node) (d : Char) (w : List Char) (ps : List (List Char))
    (hc : x.isCompact = false)
    (hpieces : x.pieces copyStep (col + 2) = (margin (col + 2) ++ d :: w) :: ps) :
    itemPieces copyStep col [x] = (margin col ++ '-' :: ' ' :: d :: w) :: ps := by
  have hdrop : (margin (col + 2) ++ d :: w).drop (col + 1) = ' ' :: d :: w := by
    rw [margin, List.replicate_succ', List.append_assoc]
    exact List.drop_left' List.length_replicate
  simp [itemPieces, hc, hpieces, hang, hdrop]

/-- The first line of a collection in block form. -/
theorem pieces_block (col : Nat) : (n : Node) → n.isSmooth = true → n.isCompact = false →
    ∃ d w ps, n.pieces copyStep col = (margin col ++ d :: w) :: ps ∧ isInk d = true ∧ d ≠ '#'
  | .seq l [], _, hc => by cases hc
  | .seq l (x :: xs), hs, _ => by
    simp only [isSmooth, areSmooth, Bool.and_eq_true] at hs
    have hseq : (seq l (x :: xs)).pieces copyStep col = itemPieces copyStep col (x :: xs) := rfl
    rw [hseq, itemPieces_cons]
    cases hx : x.isCompact with
    | true =>
      rw [itemPieces_compact col x hs.2.1 hx]
      exact ⟨_, _, _, rfl, by decide, by decide⟩
    | false =>
      obtain ⟨d, w, ps, hpieces, -⟩ := pieces_block (col + 2) x hs.2.1 hx
      rw [itemPieces_block col x d w ps hx hpieces]
      exact ⟨_, _, _, rfl, by decide, by decide⟩
  | .map l [], _, hc => by cases hc
  | .map l ((k, v) :: es), hs, _ => by
    simp only [isSmooth, haveSmooth, Bool.and_eq_true] at hs
    obtain ⟨x, -, hkey, -, -, hstarts, -⟩ := key_of_isSmoothKey k hs.2.1.1
    obtain ⟨d, w, hcons, hink, -⟩ := hstarts.head
    have hhash : d ≠ '#' := Starts.hash (hcons ▸ hstarts)
    have hmap : (map l ((k, v) :: es)).pieces copyStep col =
        entryPieces copyStep col ((k, v) :: es) := rfl
    rw [hmap, entryPieces_cons]
    cases hv : v.isCompact with
    | true =>
      rw [entryPieces_compact col k v hs.2.1.1 hs.2.1.2 hv, hkey, hcons]
      exact ⟨d, _, _, rfl, hink, hhash⟩
    | false =>
      rw [entryPieces_block col k v hs.2.1.1 hv, hkey, hcons]
      exact ⟨d, _, _, rfl, hink, hhash⟩

/-- The tokens of a collection in block form before the one that ends it. -/
def begun : Node → List Token.Kind
  | .scalar .. => []
  | .seq _ xs => .sequenceStart :: itemKinds xs
  | .map _ es => .mappingStart :: entryKinds es

theorem kinds_begun (n : Node) (h : n.isCompact = false) :
    n.kinds = n.begun ++ [Token.Kind.blockEnd] := by
  cases n with
  | scalar l style x => cases h
  | seq l xs => simp_all [isCompact, kinds, begun]
  | map l es => simp_all [isCompact, kinds, begun]

/-- The text of a collection in block form leads to its tokens up to the end of the block, which is
still open then. -/
def Begins (n : Node) : Prop :=
  ∀ (s : Token.Scan) (c : Nat) (t : List Char) (i : Int) (is : List Int) (ks : List Token.Kind),
    s.At (ink (lines (n.pieces copyStep c) ++ t)) c (i :: is) ks true → i < (c : Int) → Clear t →
      (lead t).length ≤ c → is.length + n.depth ≤ Token.Scan.depthLimit →
        ∃ u, Reaches s u ∧ u.At (ink t) (lead t).length (c :: i :: is) (ks ++ n.begun) true

theorem Begins.closes {n : Node} (h : n.Begins) (hc : n.isCompact = false) {s : Token.Scan}
    {c : Nat} {t : List Char} {i : Int} {is : List Int} {ks : List Token.Kind}
    (hs : s.At (ink (lines (n.pieces copyStep c) ++ t)) c (i :: is) ks true) (hi : i < (c : Int))
    (ht : Clear t) (hle : ((lead t).length : Int) ≤ i)
    (hd : is.length + n.depth ≤ Token.Scan.depthLimit) :
    ∃ u, Reaches s u ∧ u.At (ink t) (lead t).length (i :: is) (ks ++ n.kinds) true := by
  obtain ⟨u, hsu, hu⟩ := h s c t i is ks hs hi ht (by omega) hd
  obtain ⟨hindent, hindents⟩ := List.cons.inj hu.stack
  refine ⟨u.closed i is,
    hsu.trans (Token.Scan.reaches_closed u i is (hu.waits ht) hu.flow hindents ?_),
    { hu with
      stack := rfl
      kinds := by simp [Token.Scan.closed, Token.Scan.push, hu.kinds, n.kinds_begun hc] }⟩
  rw [hindent, hu.col]
  omega

theorem lines_cons (c : Nat) (d : Char) (w t : List Char) (ps : List (List Char))
    (h : ((margin c ++ d :: w) :: ps).all (·.all isClean) = true) :
    lines ((margin c ++ d :: w) :: ps) ++ t = margin c ++ d :: (w ++ '\n' :: (lines ps ++ t)) := by
  rw [List.all_cons, Bool.and_eq_true] at h
  rw [lines, List.flatMap_cons, ended_clean _ h.1]
  simp [lines]

theorem clear_block (c : Nat) (n : Node) (t : List Char) (hs : n.isSmooth = true)
    (hc : n.isCompact = false) : Clear (lines (n.pieces copyStep c) ++ t) ∧
      (lead (lines (n.pieces copyStep c) ++ t)).length = c := by
  obtain ⟨d, w, ps, hpieces, hd⟩ := pieces_block c n hs hc
  have hclean := clean_pieces c n hs
  rw [hpieces] at hclean ⊢
  rw [lines_cons c d w t ps hclean, (lead_margin c d _ hd.1).1]
  exact ⟨clear_margin c d _ hd, List.length_replicate⟩

section
variable {s : Token.Scan} {t : List Char} {c : Nat} {stack is : List Int} {ks ks' : List Token.Kind}

theorem reads_item (x : Node) (hs : x.isSmooth = true) (hx : x.isCompact = false → x.Begins)
    (h : s.At (ink (lines (itemPieces copyStep c [x]) ++ t)) c stack ks true)
    (hroll : Rolled c .sequenceStart stack (c :: is) ks ks') (hle : s.indent ≤ c) (ht : Clear t)
    (hnext : (lead t).length ≤ c) (hd : is.length + x.depth ≤ Token.Scan.depthLimit) :
    ∃ u, Reaches s u ∧
      u.At (ink t) (lead t).length (c :: is) (ks' ++ .blockEntry :: x.kinds) true := by
  have hclean := clean_items c [x] (by simp [areSmooth, hs])
  have hdash : isInk '-' = true := by decide
  cases hc : x.isCompact with
  | true =>
    obtain ⟨-, d, w, hinline, hink, hhash⟩ := inline_head x hs hc
    rw [itemPieces_compact c x hs hc] at h hclean
    rw [lines_cons c '-' _ t [] hclean, (lead_margin c '-' _ hdash).2] at h
    obtain ⟨u, hsu, hu⟩ := h.dash (by rfl) hroll hle (by simp; omega)
    rw [hinline] at hu
    obtain ⟨v, huv, hv⟩ := At.blank hu ⟨hink, hhash⟩
    have hv' : v.At (x.inline ++ '\n' :: t) (c + 2) (c :: is) (ks' ++ [Token.Kind.blockEntry])
        true := by
      rw [hinline]
      exact hv
    obtain ⟨w, hvw, hw⟩ := reads_inline hs hc hv' (by omega) ht (.inr (by omega)) (by omega)
    exact ⟨w, hsu.trans (huv.trans hvw), by simpa using hw⟩
  | false =>
    obtain ⟨d, w, ps, hpieces, hink, hhash⟩ := pieces_block (c + 2) x hs hc
    have hinner := clean_pieces (c + 2) x hs
    rw [itemPieces_block c x d w ps hc hpieces] at h hclean
    rw [lines_cons c '-' _ t ps hclean, (lead_margin c '-' _ hdash).2] at h
    rw [hpieces] at hinner
    obtain ⟨u, hsu, hu⟩ := h.dash (by rfl) hroll hle (by simp; omega)
    obtain ⟨v, huv, hv⟩ := At.blank hu ⟨hink, hhash⟩
    have hv' : v.At (ink (lines (x.pieces copyStep (c + 2)) ++ t)) (c + 2) (c :: is)
        (ks' ++ [Token.Kind.blockEntry]) true := by
      rw [hpieces, lines_cons (c + 2) d w t ps hinner, (lead_margin _ d _ hink).2]
      exact hv
    obtain ⟨w, hvw, hw⟩ := (hx hc).closes hc hv' (by omega) ht (by omega) hd
    exact ⟨w, hsu.trans (huv.trans hvw), by simpa using hw⟩

theorem reads_entry (k v : Node) (hk : k.isSmoothKey = true) (hs : v.isSmooth = true)
    (hv : v.isCompact = false → v.Begins)
    (h : s.At (ink (lines (entryPieces copyStep c [(k, v)]) ++ t)) c stack ks true)
    (hroll : Rolled c .mappingStart stack (c :: is) ks ks') (hle : s.indent ≤ c) (ht : Clear t)
    (hnext : (lead t).length ≤ c) (hd : is.length + v.depth ≤ Token.Scan.depthLimit) :
    ∃ u, Reaches s u ∧ u.At (ink t) (lead t).length (c :: is)
      (ks' ++ .key :: k.kinds ++ .value :: v.kinds) true := by
  have hclean := clean_entries c [(k, v)] (by simp [haveSmooth, hk, hs])
  obtain ⟨x, -, hkey, -, hkinds, hstarts, -, hink, hlength⟩ := key_of_isSmoothKey k hk
  obtain ⟨d, w, hcons, hdink, -⟩ := hstarts.head
  have hdepth : ((c : Int) :: is).length ≤ Token.Scan.depthLimit + 1 := by simp; omega
  cases hc : v.isCompact with
  | true =>
    obtain ⟨-, e, y, hinline, heink, hhash⟩ := inline_head v hs hc
    rw [entryPieces_compact c k v hk hs hc, hkey, hcons, List.cons_append] at h hclean
    rw [lines_cons c d _ t [] hclean, (lead_margin c d _ hdink).2] at h
    have h' : s.At (x.toList ++ ':' :: ' ' :: (v.inline ++ '\n' :: t)) c stack ks true := by
      rw [hcons]
      simpa [lines] using h
    obtain ⟨u, hsu, hu⟩ := h'.key hstarts hink hlength (by rfl) hroll hle hdepth
    rw [hinline] at hu
    obtain ⟨v', huv, hv'⟩ := At.blank hu ⟨heink, hhash⟩
    have hat : v'.At (v.inline ++ '\n' :: t) (c + x.toList.length + 1 + 1) (c :: is)
        (ks' ++ [Token.Kind.key, .scalar .plain (String.ofList x.toList), .value]) false := by
      rw [hinline]
      exact hv'
    obtain ⟨w', hvw, hw⟩ := reads_inline hs hc hat (by omega) ht (.inr (by omega)) (by omega)
    refine ⟨w', hsu.trans (huv.trans hvw), ?_⟩
    simpa [hkinds] using hw
  | false =>
    obtain ⟨hclear, hlead⟩ := clear_block (deeper copyStep c) v t hs hc
    have hdeeper : c < deeper copyStep c := by
      simp only [deeper, copyStep]
      omega
    rw [entryPieces_block c k v hk hc, hkey, hcons, List.cons_append] at h hclean
    rw [lines_cons c d _ t _ hclean, (lead_margin c d _ hdink).2] at h
    have h' : s.At
        (x.toList ++ ':' :: '\n' :: (lines (v.pieces copyStep (deeper copyStep c)) ++ t)) c stack
        ks true := by
      rw [hcons]
      simpa using h
    obtain ⟨u, hsu, hu⟩ := h'.key hstarts hink hlength (by rfl) hroll hle hdepth
    obtain ⟨v', huv, hv'⟩ := hu.newline hclear
    rw [hlead] at hv'
    obtain ⟨w', hvw, hw⟩ := (hv hc).closes hc hv' (by omega) ht (by omega) hd
    refine ⟨w', hsu.trans (huv.trans hvw), ?_⟩
    simpa [hkinds] using hw

theorem lines_append (ps qs : List (List Char)) : lines (ps ++ qs) = lines ps ++ lines qs :=
  List.flatMap_append

/-- The items of a sequence, the first of which may begin it. -/
theorem reads_items (x : Node) (xs : List Node) (hs : areSmooth (x :: xs) = true)
    (hx : ∀ y ∈ x :: xs, y.isCompact = false → y.Begins)
    (h : s.At (ink (lines (itemPieces copyStep c (x :: xs)) ++ t)) c stack ks true)
    (hroll : Rolled c .sequenceStart stack (c :: is) ks ks') (hle : s.indent ≤ c) (ht : Clear t)
    (hnext : (lead t).length ≤ c)
    (hd : is.length + depthItems (x :: xs) ≤ Token.Scan.depthLimit) :
    ∃ u, Reaches s u ∧
      u.At (ink t) (lead t).length (c :: is) (ks' ++ itemKinds (x :: xs)) true := by
  induction xs generalizing x s stack ks ks' with
  | nil =>
    simp only [areSmooth, depthItems, Bool.and_eq_true] at hs hd
    obtain ⟨u, hsu, hu⟩ := reads_item x hs.1 (hx x (by simp)) h hroll hle ht hnext (by omega)
    exact ⟨u, hsu, by simpa [itemKinds] using hu⟩
  | cons y ys ih =>
    rw [areSmooth, Bool.and_eq_true] at hs
    rw [depthItems] at hd
    obtain ⟨hclear, hlead⟩ : Clear (lines (itemPieces copyStep c (y :: ys)) ++ t) ∧
        (lead (lines (itemPieces copyStep c (y :: ys)) ++ t)).length = c :=
      clear_block c (.seq 0 (y :: ys)) t (by simpa [isSmooth] using hs.2) rfl
    rw [itemPieces_cons, lines_append, List.append_assoc] at h
    obtain ⟨u, hsu, hu⟩ := reads_item x hs.1 (hx x (by simp)) h hroll hle hclear hlead.le (by omega)
    rw [hlead] at hu
    obtain ⟨v, huv, hv⟩ := ih y hs.2 (fun z hz => hx z (List.mem_cons_of_mem x hz)) hu (.stays is _)
      (Int.le_of_eq (List.cons.inj hu.stack).1) (by omega)
    exact ⟨v, hsu.trans huv, by simpa [itemKinds] using hv⟩

theorem reads_entries (e : Node × Node) (es : List (Node × Node)) (hs : haveSmooth (e :: es) = true)
    (hx : ∀ f ∈ e :: es, f.2.isCompact = false → f.2.Begins)
    (h : s.At (ink (lines (entryPieces copyStep c (e :: es)) ++ t)) c stack ks true)
    (hroll : Rolled c .mappingStart stack (c :: is) ks ks') (hle : s.indent ≤ c) (ht : Clear t)
    (hnext : (lead t).length ≤ c)
    (hd : is.length + depthEntries (e :: es) ≤ Token.Scan.depthLimit) :
    ∃ u, Reaches s u ∧
      u.At (ink t) (lead t).length (c :: is) (ks' ++ entryKinds (e :: es)) true := by
  induction es generalizing e s stack ks ks' with
  | nil =>
    obtain ⟨k, v⟩ := e
    simp only [haveSmooth, depthEntries, Bool.and_eq_true] at hs hd
    obtain ⟨u, hsu, hu⟩ := reads_entry k v hs.1.1 hs.1.2 (hx (k, v) (by simp)) h hroll hle ht hnext
      (by omega)
    exact ⟨u, hsu, by simpa [entryKinds] using hu⟩
  | cons f fs ih =>
    obtain ⟨k, v⟩ := e
    rw [haveSmooth, Bool.and_eq_true, Bool.and_eq_true] at hs
    rw [depthEntries] at hd
    obtain ⟨hclear, hlead⟩ : Clear (lines (entryPieces copyStep c (f :: fs)) ++ t) ∧
        (lead (lines (entryPieces copyStep c (f :: fs)) ++ t)).length = c :=
      clear_block c (.map 0 (f :: fs)) t (by simpa [isSmooth] using hs.2) rfl
    rw [entryPieces_cons, lines_append, List.append_assoc] at h
    obtain ⟨u, hsu, hu⟩ := reads_entry k v hs.1.1 hs.1.2 (hx (k, v) (by simp)) h hroll hle hclear
      hlead.le (by omega)
    rw [hlead] at hu
    obtain ⟨w, huw, hw⟩ := ih f hs.2 (fun z hz => hx z (List.mem_cons_of_mem _ hz)) hu (.stays is _)
      (Int.le_of_eq (List.cons.inj hu.stack).1) (by omega)
    exact ⟨w, hsu.trans huw, by simpa [entryKinds] using hw⟩

end

mutual

theorem begins : (n : Node) → n.isSmooth = true → n.isCompact = false → n.Begins
  | .scalar .., _, hc => by cases hc
  | .seq l [], _, hc => by cases hc
  | .seq l (x :: xs), hs, _ => by
    rw [isSmooth, Bool.and_eq_true] at hs
    intro s c t i is ks h hi ht hnext hd
    rw [depth] at hd
    rw [begun, List.append_cons]
    exact reads_items x xs hs.2 (begins_items (x :: xs) hs.2) h (.opens i is ks hi)
      (by rw [(List.cons.inj h.stack).1]; omega) ht hnext (by simp; omega)
  | .map l [], _, hc => by cases hc
  | .map l (e :: es), hs, _ => by
    rw [isSmooth, Bool.and_eq_true] at hs
    intro s c t i is ks h hi ht hnext hd
    rw [depth] at hd
    rw [begun, List.append_cons]
    exact reads_entries e es hs.2 (begins_entries (e :: es) hs.2) h (.opens i is ks hi)
      (by rw [(List.cons.inj h.stack).1]; omega) ht hnext (by simp; omega)

theorem begins_items : (xs : List Node) → areSmooth xs = true →
    ∀ x ∈ xs, x.isCompact = false → x.Begins
  | [], _ => nofun
  | x :: xs, hs => by
    rw [areSmooth, Bool.and_eq_true] at hs
    exact List.forall_mem_cons.mpr ⟨begins x hs.1, begins_items xs hs.2⟩

theorem begins_entries : (es : List (Node × Node)) → haveSmooth es = true →
    ∀ e ∈ es, e.2.isCompact = false → e.2.Begins
  | [], _ => nofun
  | (k, v) :: es, hs => by
    rw [haveSmooth, Bool.and_eq_true, Bool.and_eq_true] at hs
    exact List.forall_mem_cons.mpr ⟨begins v hs.1.2, begins_entries es hs.2⟩

end

end Node

end FormatFuzz.Yaml
