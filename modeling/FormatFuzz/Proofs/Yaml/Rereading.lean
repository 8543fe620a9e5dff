import FormatFuzz.Proofs.Expr.Lexing
import FormatFuzz.Proofs.Yaml.Layout

/-!
# Nodes that are read as they were written

A smooth node is read back from its tokens, so a steady node is what its text denotes. Copying a
node is always writing it and reading the text.
-/

set_option autoImplicit false

namespace FormatFuzz.Yaml

open FormatFuzz.Yaml.Token.Scan (Reaches At Clear ink lead)

namespace Node

/-- May a node begin with a token in block form, where no value is missing? -/
def opensNode : Token.Kind → Bool
  | .scalar .. | .flowSequenceStart | .flowMappingStart | .sequenceStart | .mappingStart => true
  | _ => false

theorem kinds_head (n : Node) : ∃ k ks, n.kinds = k :: ks ∧ opensNode k = true := by
  cases n with
  | scalar l style x => exact ⟨_, _, rfl, rfl⟩
  | seq l xs =>
    rw [kinds]
    split
    · exact ⟨_, _, rfl, rfl⟩
    · exact ⟨_, _, rfl, rfl⟩
  | map l es =>
    rw [kinds]
    split
    · exact ⟨_, _, rfl, rfl⟩
    · exact ⟨_, _, rfl, rfl⟩

theorem readItems_entry (n line : Nat) (t : Token) (ts : List Token) (h : opensNode t.kind = true) :
    readItems (n + 1) (⟨.blockEntry, line⟩ :: t :: ts) = read n true false (t :: ts) >>= fun r =>
      readItems n r.2 >>= fun q => .ok (r.1 :: q.1, q.2) := by
  obtain ⟨kind, line'⟩ := t
  cases kind <;> first | rfl | cases h

theorem readEntries_key (n line : Nat) (t : Token) (ts : List Token) (h : opensNode t.kind = true) :
    readEntries (n + 1) (⟨.key, line⟩ :: t :: ts) = read n true true (t :: ts) >>= fun r =>
      readValue n r.2 >>= fun v => readEntries n v.2 >>= fun q => .ok ((r.1, v.1) :: q.1, q.2) := by
  obtain ⟨kind, line'⟩ := t
  cases kind <;> first | rfl | cases h

theorem readValue_value (n line : Nat) (t : Token) (ts : List Token) (h : opensNode t.kind = true) :
    readValue (n + 1) (⟨.value, line⟩ :: t :: ts) = read n true true (t :: ts) := by
  obtain ⟨kind, line'⟩ := t
  cases kind <;> first | rfl | cases h

/-- Tokens of some kinds: a token of the first one and tokens of the others. -/
theorem tokens_cons (ts : List Token) (k : Token.Kind) (ks : List Token.Kind)
    (h : ts.map Token.kind = k :: ks) :
    ∃ line us, ts = ⟨k, line⟩ :: us ∧ us.map Token.kind = ks := by
  obtain ⟨t, us, rfl, rfl, hus⟩ := List.map_eq_cons_iff.mp h
  exact ⟨t.line, us, rfl, hus⟩

/-- The first token of a node that is yet to be read. -/
theorem tokens_node (n : Node) (ts : List Token) (ks : List Token.Kind)
    (h : ts.map Token.kind = n.kinds ++ ks) : ∃ t us, ts = t :: us ∧ opensNode t.kind = true := by
  obtain ⟨k, js, hk, hopens⟩ := n.kinds_head
  rw [hk, List.cons_append] at h
  obtain ⟨line, us, rfl, -⟩ := tokens_cons ts k _ h
  exact ⟨_, us, rfl, hopens⟩

/-- From its tokens a node is read as it is, apart from its lines. -/
def Reads (n : Node) : Prop :=
  ∀ (fuel : Nat) (loose : Bool) (ts : List Token) (ks : List Token.Kind), n.kinds.length ≤ fuel →
    ts.map Token.kind = n.kinds ++ ks → ∃ m us, read fuel true loose ts = .ok (m, us) ∧
      m.unplaced = n ∧ us.map Token.kind = ks

theorem reads_scalar (l : Nat) (style : Style) (x : String)
    (h : isSmooth (.scalar l style x) = true) : Reads (.scalar l style x) := by
  intro fuel loose ts ks hf hts
  rw [isSmooth, Bool.and_eq_true, beq_iff_eq] at h
  obtain ⟨rfl, hsmooth⟩ := h
  obtain ⟨line, us, rfl, hus⟩ := tokens_cons ts _ _ hts
  obtain ⟨fuel, rfl⟩ : ∃ m, fuel = m + 1 := ⟨fuel - 1, by simp [kinds] at hf; omega⟩
  have hstyle : scalarStyle (formOf false style x) x = style := by
    cases style with
    | plain =>
      have hmerge : x ≠ mergeText := by
        simp only [isSmoothScalar, Bool.and_eq_true, decide_eq_true_eq] at hsmooth
        exact hsmooth.2
      rw [(pieces_plain copyStep 0 0 x hsmooth).2.1, scalarStyle, if_neg (by simp [hmerge])]
      rfl
    | double => simp [formOf, wantedForm, scalarStyle, Form.style]
    | single => cases hsmooth
    | literal => cases hsmooth
    | tagged tag => cases hsmooth
  exact ⟨_, us, rfl, by rw [unplaced, hstyle], hus⟩

theorem reads_list (xs : List Node) (hx : ∀ x ∈ xs, x.Reads) (fuel : Nat) (ts : List Token)
    (ks : List Token.Kind) (hf : (itemKinds xs).length + 1 ≤ fuel)
    (hts : ts.map Token.kind = itemKinds xs ++ .blockEnd :: ks) :
    ∃ ms us, readItems fuel ts = .ok (ms, us) ∧ unplacedItems ms = xs ∧ us.map Token.kind = ks := by
  induction xs generalizing fuel ts with
  | nil =>
    obtain ⟨line, us, rfl, hus⟩ := tokens_cons ts _ _ hts
    obtain ⟨fuel, rfl⟩ : ∃ m, fuel = m + 1 := ⟨fuel - 1, by omega⟩
    exact ⟨[], us, rfl, rfl, hus⟩
  | cons x xs ih =>
    rw [itemKinds, List.cons_append, List.cons_append, List.append_assoc] at hts
    obtain ⟨line, us, rfl, hus⟩ := tokens_cons ts _ _ hts
    obtain ⟨t, vs, rfl, ht⟩ := tokens_node x us _ hus
    simp only [itemKinds, List.length_append, List.length_cons] at hf
    obtain ⟨fuel, rfl⟩ : ∃ m, fuel = m + 1 := ⟨fuel - 1, by omega⟩
    obtain ⟨m, ws, hread, hm, hws⟩ := hx x (by simp) fuel false (t :: vs) _ (by omega) hus
    obtain ⟨ms, rest, hitems, hms, hrest⟩ :=
      ih (fun y hy => hx y (List.mem_cons_of_mem x hy)) fuel ws (by omega) hws
    refine ⟨m :: ms, rest, ?_, by rw [unplacedItems, hm, hms], hrest⟩
    rw [readItems_entry fuel line t vs ht, hread, ok_bind, hitems, ok_bind]

theorem reads_pairs (es : List (Node × Node)) (hx : ∀ e ∈ es, e.1.Reads ∧ e.2.Reads) (fuel : Nat)
    (ts : List Token) (ks : List Token.Kind) (hf : (entryKinds es).length + 1 ≤ fuel)
    (hts : ts.map Token.kind = entryKinds es ++ .blockEnd :: ks) :
    ∃ ms us, readEntries fuel ts = .ok (ms, us) ∧ unplacedEntries ms = es ∧
      us.map Token.kind = ks := by
  induction es generalizing fuel ts with
  | nil =>
    obtain ⟨line, us, rfl, hus⟩ := tokens_cons ts _ _ hts
    obtain ⟨fuel, rfl⟩ : ∃ m, fuel = m + 1 := ⟨fuel - 1, by omega⟩
    exact ⟨[], us, rfl, rfl, hus⟩
  | cons e es ih =>
    obtain ⟨k, v⟩ := e
    rw [entryKinds] at hts
    simp only [List.cons_append, List.append_assoc] at hts
    simp only [entryKinds, List.length_append, List.length_cons] at hf
    obtain ⟨fuel, rfl⟩ : ∃ m, fuel = m + 2 := ⟨fuel - 2, by omega⟩
    obtain ⟨line, us, rfl, hus⟩ := tokens_cons ts _ _ hts
    obtain ⟨t, vs, rfl, ht⟩ := tokens_node k us _ hus
    obtain ⟨hk, hv⟩ : k.Reads ∧ v.Reads := hx (k, v) (by simp)
    obtain ⟨m, ws, hkey, hm, hws⟩ := hk (fuel + 1) true (t :: vs) _ (by omega) hus
    obtain ⟨line', us', rfl, hus'⟩ := tokens_cons ws _ _ hws
    obtain ⟨t', vs', rfl, ht'⟩ := tokens_node v us' _ hus'
    obtain ⟨m', ws', hvalue, hm', hws'⟩ := hv fuel true (t' :: vs') _ (by omega) hus'
    obtain ⟨ms, rest, hentries, hms, hrest⟩ :=
      ih (fun y hy => hx y (List.mem_cons_of_mem _ hy)) (fuel + 1) ws' (by omega) hws'
    refine ⟨(m, m') :: ms, rest, ?_, by rw [unplacedEntries, hm, hm', hms], hrest⟩
    rw [readEntries_key _ line t vs ht, hkey, ok_bind, readValue_value fuel line' t' vs' ht',
      hvalue, ok_bind, hentries, ok_bind]

theorem reads_key (k : Node) (h : k.isSmoothKey = true) : k.Reads := by
  obtain ⟨x, rfl, -⟩ := key_of_isSmoothKey k h
  simp only [isSmoothKey, Bool.and_eq_true] at h
  exact reads_scalar 0 .plain x (by rw [isSmooth, h.1.2]; rfl)

theorem reads_seq (xs : List Node) (hx : ∀ x ∈ xs, x.Reads) : Reads (.seq 0 xs) := by
  intro fuel loose ts ks hf hts
  rw [kinds] at hf hts
  cases xs with
  | nil =>
    obtain ⟨line, us, rfl, hus⟩ := tokens_cons ts _ _ hts
    obtain ⟨line', vs, rfl, hvs⟩ := tokens_cons us _ _ hus
    obtain ⟨fuel, rfl⟩ : ∃ m, fuel = m + 2 := ⟨fuel - 2, by simp at hf; omega⟩
    exact ⟨.seq line [], vs, rfl, rfl, hvs⟩
  | cons x xs =>
    obtain ⟨line, us, rfl, hus⟩ := tokens_cons ts _ _ hts
    obtain ⟨fuel, rfl⟩ : ∃ m, fuel = m + 1 := ⟨fuel - 1, by simp at hf; omega⟩
    obtain ⟨ms, vs, hitems, hms, hvs⟩ := reads_list (x :: xs) hx fuel us ks (by simpa using hf)
      (hus.trans (List.append_assoc _ [.blockEnd] ks))
    refine ⟨.seq line ms, vs, ?_, by rw [unplaced, hms], hvs⟩
    simp only [read, if_true, hitems, ok_bind]

theorem reads_map (es : List (Node × Node)) (hx : ∀ e ∈ es, e.1.Reads ∧ e.2.Reads) :
    Reads (.map 0 es) := by
  intro fuel loose ts ks hf hts
  rw [kinds] at hf hts
  cases es with
  | nil =>
    obtain ⟨line, us, rfl, hus⟩ := tokens_cons ts _ _ hts
    obtain ⟨line', vs, rfl, hvs⟩ := tokens_cons us _ _ hus
    obtain ⟨fuel, rfl⟩ : ∃ m, fuel = m + 2 := ⟨fuel - 2, by simp at hf; omega⟩
    exact ⟨.map line [], vs, rfl, rfl, hvs⟩
  | cons e es =>
    obtain ⟨line, us, rfl, hus⟩ := tokens_cons ts _ _ hts
    obtain ⟨fuel, rfl⟩ : ∃ m, fuel = m + 1 := ⟨fuel - 1, by simp at hf; omega⟩
    obtain ⟨ms, vs, hentries, hms, hvs⟩ := reads_pairs (e :: es) hx fuel us ks (by simpa using hf)
      (hus.trans (List.append_assoc _ [.blockEnd] ks))
    refine ⟨.map line ms, vs, ?_, by rw [unplaced, hms], hvs⟩
    simp only [read, if_true, hentries, ok_bind]

mutual

theorem reads : (n : Node) → n.isSmooth = true → n.Reads
  | .scalar l style x, h => reads_scalar l style x h
  | .seq l xs, h => by
    rw [isSmooth, Bool.and_eq_true, beq_iff_eq] at h
    obtain ⟨rfl, hs⟩ := h
    exact reads_seq xs (reads_all xs hs)
  | .map l es, h => by
    rw [isSmooth, Bool.and_eq_true, beq_iff_eq] at h
    obtain ⟨rfl, hs⟩ := h
    exact reads_map es (reads_both es hs)

theorem reads_all : (xs : List Node) → areSmooth xs = true → ∀ x ∈ xs, x.Reads
  | [], _ => nofun
  | x :: xs, h => by
    rw [areSmooth, Bool.and_eq_true] at h
    exact List.forall_mem_cons.mpr ⟨reads x h.1, reads_all xs h.2⟩

theorem reads_both : (es : List (Node × Node)) → haveSmooth es = true →
    ∀ e ∈ es, e.1.Reads ∧ e.2.Reads
  | [], _ => nofun
  | (k, v) :: es, h => by
    rw [haveSmooth, Bool.and_eq_true, Bool.and_eq_true] at h
    exact List.forall_mem_cons.mpr ⟨⟨reads_key k h.1.1, reads v h.1.2⟩, reads_both es h.2⟩

end

theorem isAllowed_of_isShown (c : Char) (h : isShown c = true) : Token.isAllowed c = true := by
  simp only [isShown, Token.isAllowed, Bool.or_eq_true, Bool.and_eq_true, beq_iff_eq,
    decide_eq_true_eq] at h ⊢
  omega

theorem mem_loaded (n : Nat) (cs : List Char) (c : Char) (h : c ∈ Token.loaded n cs) : c ∈ cs := by
  have go : ∀ (cs : List Char) (limit : Nat), c ∈ Token.loaded.go limit cs → c ∈ cs := by
    intro cs
    induction cs with
    | nil => exact fun _ h => h
    | cons d cs ih =>
      intro limit h
      rw [Token.loaded.go] at h
      split at h
      · exact (List.mem_cons.mp h).elim (fun h => h ▸ List.mem_cons_self ..)
          fun h => List.mem_cons_of_mem d (ih _ h)
      · cases h
  exact go cs _ h

theorem at_start (cs : List Char) (h : cs.head? ≠ some Token.byteOrderMark) :
    (Token.Scan.start cs).At cs 0 [-1] [] true where
  rest := rfl
  col := rfl
  stack := rfl
  kinds := rfl
  allowed := rfl
  flow := rfl
  keys := ⟨none, rfl, nofun⟩
  marker := rfl
  skips := by simpa [Token.Scan.start] using h

theorem shown_chars (n : Node) (h : n.isSmooth = true) (c : Char) (hc : c ∈ n.chars copyStep) :
    isShown c = true := by
  obtain ⟨p, hp, hcp⟩ := List.mem_flatMap.mp hc
  have hclean := List.all_eq_true.mp (clean_pieces _ n h) p hp
  rw [ended_clean p hclean, List.mem_append, List.mem_singleton] at hcp
  rcases hcp with hcp | rfl
  · have := List.all_eq_true.mp hclean c hcp
    simp only [isClean, Bool.and_eq_true] at this
    exact this.1
  · decide

theorem head_chars (n : Node) (h : n.isSmooth = true) :
    (n.chars copyStep).head? ≠ some Token.byteOrderMark := fun hmark =>
  absurd (shown_chars n h _ (List.mem_of_mem_head? hmark)) (by decide)

/-- The text of a steady node is cut into the tokens of the node. -/
theorem kinds_run (n : Node) (h : n.isSteady = true) :
    (Token.Scan.run ((n.chars copyStep).length + 1)
      (Token.Scan.start (n.chars copyStep))).1.toList.map Token.kind = n.kinds := by
  simp only [isSteady, Bool.and_eq_true, decide_eq_true_eq] at h
  obtain ⟨hs, hd⟩ := h
  have hstart := at_start (n.chars copyStep) (n.head_chars hs)
  cases hc : n.isCompact with
  | true =>
    have htext : n.chars copyStep = n.inline ++ '\n' :: [] := by
      have hclean := clean_pieces 0 n hs
      rw [(inline_head n hs hc).1, List.all_cons, Bool.and_eq_true] at hclean
      rw [chars, (inline_head n hs hc).1, List.flatMap_singleton, ended_clean _ hclean.1]
    rw [htext] at hstart ⊢
    obtain ⟨u, hsu, hu⟩ := reads_inline hs hc hstart (by decide) nofun (.inl rfl) (Nat.zero_le _)
    obtain ⟨m, hm⟩ := hsu.run_eq
    exact (congrArg (fun r => r.1.toList.map Token.kind) hm).trans (hu.finish m)
  | false =>
    have htext : ink (lines (n.pieces copyStep 0) ++ []) = n.chars copyStep := by
      have hscalar : n.isScalar = false := by cases n <;> first | rfl | cases hc
      obtain ⟨d, w, ps, hpieces, hink, -⟩ := pieces_block 0 n hs hc
      have hclean := clean_pieces 0 n hs
      have hchars : n.chars copyStep = lines (n.pieces copyStep 0) ++ [] := by
        rw [chars, hscalar, List.append_nil]
        rfl
      rw [hchars]
      rw [hpieces] at hclean ⊢
      rw [lines_cons 0 d w [] ps hclean]
      exact (lead_margin 0 d _ hink).2
    rw [← htext] at hstart ⊢
    obtain ⟨u, hsu, hu⟩ := begins n hs hc _ 0 [] (-1) [] [] hstart (by decide) nofun (Nat.le_refl _)
      (by simpa using hd)
    obtain ⟨m, hm⟩ := hsu.run_eq
    rw [n.kinds_begun hc]
    exact (congrArg (fun r => r.1.toList.map Token.kind) hm).trans (hu.finish_closed m)

theorem kinds_scan (n : Node) (h : n.isSteady = true) :
    (Token.scan (n.chars copyStep)).map Token.kind = n.kinds := by
  have hs : n.isSmooth = true := by
    rw [isSteady, Bool.and_eq_true] at h
    exact h.1
  have hallowed : ∀ k, (Token.loaded k (n.chars copyStep)).all Token.isAllowed = true := fun k =>
    List.all_eq_true.mpr fun c hc =>
      isAllowed_of_isShown c (shown_chars n hs c (mem_loaded k _ c hc))
  unfold Token.scan
  rw [if_neg (by simpa using n.head_chars hs)]
  simp only [hallowed, if_true]
  exact n.kinds_run h

/-- A document that begins with a node, and not with a mark or a directive. -/
theorem document?_node (text : List Char) (t : Token) (us : List Token)
    (hts : Token.scan text = t :: us) (ht : opensNode t.kind = true) :
    document? text = read (4 * ((t :: us).length + 2)) true false (t :: us) >>= fun r =>
      if isSound r.2 then .ok (some r.1) else .error .malformed := by
  unfold document?
  rw [hts]
  obtain ⟨kind, line⟩ := t
  cases kind <;> first | rfl | cases ht

theorem parse_eq (text : String) : parse text = document? text.toList := by
  rw [parse, Text.chars_eq]

/-- A steady node is what its text denotes. -/
theorem reread_of_isSteady (n : Node) (h : n.isSteady = true) : n.reread = .ok n := by
  have hs : n.isSmooth = true := by
    rw [isSteady, Bool.and_eq_true] at h
    exact h.1
  have hkinds := n.kinds_scan h
  obtain ⟨t, us, hts, ht⟩ := tokens_node n _ [] (hkinds.trans (List.append_nil _).symm)
  have hlength : n.kinds.length ≤ 4 * ((Token.scan (n.chars copyStep)).length + 2) := by
    rw [← hkinds, List.length_map]
    omega
  obtain ⟨m, vs, hread, hm, hvs⟩ := reads n hs _ false _ [] hlength
    (hkinds.trans (List.append_nil _).symm)
  obtain rfl : vs = [] := by simpa using hvs
  have hdocument : document? (n.chars copyStep) = .ok (some m) := by
    rw [document?_node _ t us hts ht, ← hts, hread]
    rfl
  delta reread
  rw [hdocument]
  exact congrArg Except.ok hm

/-- A copy is always what is read from the text of a node. -/
theorem copy_eq_reread (n : Node) : n.copy = n.reread := by
  unfold copy
  split
  · rename_i h
    exact (n.reread_of_isSteady h).symm
  · rfl

end Node

end FormatFuzz.Yaml
